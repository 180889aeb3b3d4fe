import Codegen.Allocation.Snapshot
import Codegen.Frame.Slots

/-! The allocator's knowledge while one function is compiled. -/
namespace Codegen

/-- A jump to a target that was not translated when the jump was. -/
structure ForwardJump where
  jump : ItemId
  state : Snapshot
  deriving DecidableEq, Repr

/-- Allocator state of the function being compiled. -/
structure Context where
  function : Option FunctionId := none
  start : Option ItemId := none
  stop : Option ItemId := none
  /-- Last item of the reconciliation blocks behind the function. -/
  extraBlock : Option ItemId := none
  registers : RegFile := .empty
  /-- Registers written anywhere in the function. -/
  modified : PerClass RegMask := .all .empty
  /-- Registers that the function's convention promises to its caller. -/
  preserved : PerClass RegMask := .all .empty
  currentOffset : Nat := 0
  unreachable : Bool := false
  /-- Items are being translated, and new items count as translated. -/
  active : Bool := false
  /-- Unconditional jumps that were followed; the code behind them is still to do from
  `backwardPos` on. -/
  backwardCode : Array ItemId := #[]
  backwardPos : Nat := 0
  /-- Jumps to reconcile when every target is translated, oldest first. -/
  forwardJumps : List ForwardJump := []
  /-- Fixed registers of the instruction being translated. -/
  reserved : PerClass RegMask := .all .empty
  slots : SlotPool := .empty
  allocableRbp : Bool := false
  isCaller : Bool := false
  /-- The largest argument area of any call. -/
  callStackSize : Nat := 0
  deriving DecidableEq, Repr

namespace Context

def empty : Context := {}

/-- Number of jumps that are still to be looked at. -/
def pendingJumps (c : Context) : Nat :=
  c.forwardJumps.length + (c.backwardCode.size - c.backwardPos)

/-- Registers the allocator may hand out. -/
def allocable (c : Context) (cls : RegClass) : RegMask :=
  let all := RegMask.firstN cls.count
  match cls with
  | .gp =>
    let mask := all.erase Gp.rsp
    if c.allocableRbp then mask else mask.erase Gp.rbp
  | _ => all

def markModified (c : Context) (r : Reg) : Context :=
  { c with modified := c.modified.modify r.cls (·.insert r.index) }

/-- Registers of a class that the allocator may hand out and that are free. -/
def freeRegs (c : Context) (cls : RegClass) : RegMask :=
  (c.allocable cls).diff (c.registers.used cls)

end Context

end Codegen
