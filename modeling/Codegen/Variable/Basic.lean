import Codegen.Variable.Type

/-! Virtual variables and what is known about them while a function is compiled. -/
namespace Codegen

/-- Where the current value of a variable is. -/
inductive VarState where
  | unused
  | register
  | memory
  deriving DecidableEq, Repr

/-- How often a variable is touched in a register and in its home. -/
structure AccessCounts where
  regRead : Nat := 0
  regWrite : Nat := 0
  regReadWrite : Nat := 0
  memRead : Nat := 0
  memWrite : Nat := 0
  memReadWrite : Nat := 0
  deriving DecidableEq, Repr

namespace AccessCounts

def recordReg (c : AccessCounts) : Access → AccessCounts
  | .read => { c with regRead := c.regRead + 1 }
  | .write => { c with regWrite := c.regWrite + 1 }
  | .readWrite => { c with regReadWrite := c.regReadWrite + 1 }

def recordMem (c : AccessCounts) : Access → AccessCounts
  | .read => { c with memRead := c.memRead + 1 }
  | .write => { c with memWrite := c.memWrite + 1 }
  | .readWrite => { c with memReadWrite := c.memReadWrite + 1 }

/-- The part of the eviction score that the accesses give: reads and home accesses speak for
evicting the variable, register writes against it. -/
def score (c : AccessCounts) : Int :=
  (c.regRead + c.memWrite + c.memReadWrite + c.memRead : Int) - (c.regWrite + c.regReadWrite : Int)

end AccessCounts

/-- How a variable comes by its first value. -/
inductive Passing where
  | notPassed
  | inRegister
  /-- At this offset from the arguments base, which is also the variable's home. -/
  | onStack (offset : Int)
  deriving DecidableEq, Repr

/-- A virtual variable. -/
structure Variable where
  id : VarId
  ty : VarType
  cls : RegClass
  function : FunctionId
  state : VarState := .unused
  /-- Number of the register while the variable is in one. -/
  reg : Option Nat := none
  /-- Register to try first at the next allocation. -/
  homeReg : Option Nat := none
  /-- Of several variables the one with the highest priority is evicted; 0 is never evicted. -/
  priority : Nat := 10
  /-- The register holds a newer value than the home. -/
  changed : Bool := false
  firstItem : Option ItemId := none
  lastItem : Option ItemId := none
  /-- First call while the variable is active. -/
  firstCall : Option ItemId := none
  /-- Offset of the item that was last allocated for with this variable as an operand. -/
  workOffset : Option Nat := none
  counts : AccessCounts := {}
  homeSlot : Option SlotId := none
  passing : Passing := .notPassed
  deriving DecidableEq, Repr

namespace Variable

/-- Bytes of the home. -/
def size (v : Variable) : Nat := v.ty.size

/-- The register that holds the variable. -/
def currentReg (v : Variable) : Option Reg :=
  match v.state, v.reg with
  | .register, some index => some ⟨v.cls, index⟩
  | _, _ => none

def isRegArgument (v : Variable) : Bool := v.passing == .inRegister

def isMemArgument (v : Variable) : Bool :=
  match v.passing with
  | .onStack _ => true
  | _ => false

def isArgument (v : Variable) : Bool := v.isRegArgument || v.isMemArgument

/-- Offset of a stack argument from the arguments base, 0 for other variables. -/
def homeOffset (v : Variable) : Int :=
  match v.passing with
  | .onStack offset => offset
  | _ => 0

/-- The variable as an operand of its full register width. -/
def ref (v : Variable) : VarRef := ⟨v.id, v.ty.regSize⟩

/-- The operand for the register with this number, as wide as the variable's type asks. -/
def regOperand (v : Variable) (index : Nat) : Operand := .ofReg ⟨v.cls, index⟩ v.ty.regSize

end Variable

end Codegen
