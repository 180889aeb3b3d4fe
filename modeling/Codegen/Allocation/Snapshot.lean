import Codegen.Register.File

/-! Snapshots of the allocator: which variable is in which register, which registers hold newer
values than the homes, and which variables are in memory. -/
namespace Codegen

/-- Register and memory assignment at one point of a function. -/
structure Snapshot where
  regs : Occupants
  /-- Registers whose occupant is newer than its home. -/
  changed : PerClass RegMask
  /-- Variables in memory, in creation order. -/
  memVars : List VarId
  deriving DecidableEq, Repr

namespace Snapshot

def occupant (s : Snapshot) (r : Reg) : Option VarId := s.regs.occupant r

/-- Do the snapshots agree on every register? -/
def sameRegisters (a b : Snapshot) : Bool := a.regs == b.regs

def isChanged (s : Snapshot) (r : Reg) : Bool := (s.changed.get r.cls).contains r.index

end Snapshot

end Codegen
