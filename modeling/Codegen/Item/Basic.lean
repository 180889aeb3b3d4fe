import Codegen.Allocation.Snapshot
import Codegen.Frame.Code
import Codegen.Instruction.Access

/-! The items a program consists of. -/
namespace Codegen

/-- The access of one instruction to one variable that must be in a register. -/
structure AllocRecord where
  var : VarId
  access : Access
  fixed : Option Nat
  deriving DecidableEq, Repr

/-- What the program says about how often a conditional jump is taken. -/
inductive BranchHint where
  | none
  | taken
  | notTaken
  deriving DecidableEq, Repr

/-- What an allocator directive asks for. -/
inductive Directive where
  | alloc
  | spill
  | save
  | saveAndUnuse
  | unuse
  deriving DecidableEq, Repr

/-- An instruction, with the register accesses and the variables it reaches through their homes. -/
structure InstructionItem where
  opcode : Opcode
  operands : List Operand
  records : List AllocRecord := []
  memVars : List VarId := []
  deriving DecidableEq, Repr

/-- A jump to a label. -/
structure JumpItem where
  opcode : Opcode
  target : LabelId
  hint : BranchHint
  /-- Expected to be taken. -/
  taken : Bool := false
  /-- The allocator when the jump was translated. -/
  state : Option Snapshot := none
  /-- The previous jump to the same label. -/
  nextJump : Option ItemId := none
  deriving DecidableEq, Repr

/-- The place of a label. -/
structure TargetItem where
  label : LabelId
  /-- The allocator state that every jump here must establish. -/
  state : Option Snapshot := none
  /-- The latest jump to the label. -/
  firstJump : Option ItemId := none
  jumpCount : Nat := 0
  deriving DecidableEq, Repr

/-- A return from a function. -/
structure ReturnItem where
  function : FunctionId
  operands : List Operand
  /-- The exit is not reached by falling through. -/
  emitJump : Bool := false
  deriving DecidableEq, Repr

/-- A call with its arguments and the variables that receive the results. -/
structure CallItem where
  prototype : PrototypeId
  target : Operand
  args : List Operand
  returns : List VarId
  deriving DecidableEq, Repr

/-- A directive to the allocator about one variable. -/
structure HintItem where
  var : VarId
  directive : Directive
  reg : Option Nat
  deriving DecidableEq, Repr

/-- What an item is. -/
inductive ItemKind where
  | instruction (i : InstructionItem)
  | jump (j : JumpItem)
  | target (t : TargetItem)
  | function (f : FunctionId)
  | functionEnd (f : FunctionId)
  | ret (r : ReturnItem)
  | call (c : CallItem)
  | hint (h : HintItem)
  | align (alignment : Nat)
  | comment (text : String)
  | data (bytes : List UInt8)
  deriving DecidableEq, Repr

namespace ItemKind

def isTarget : ItemKind → Bool
  | target _ => true
  | _ => false

def isFunctionEnd : ItemKind → Bool
  | functionEnd _ => true
  | _ => false

/-- Does control pass through the item without any code between a return and the exit? -/
def isTransparent : ItemKind → Bool
  | comment _ | hint _ | align _ | target _ => true
  | _ => false

end ItemKind

/-- An item of a program. -/
structure Item where
  kind : ItemKind
  /-- Place in the numbering of its function. -/
  offset : Option Nat := none
  translated : Bool := false
  /-- Taken out because control never reaches it. -/
  unreachable : Bool := false
  deriving DecidableEq, Repr

end Codegen
