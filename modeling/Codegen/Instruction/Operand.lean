import Codegen.Handle
import Codegen.Instruction.Opcode
import Codegen.Register.Basic

/-! Instruction operands. Before an instruction is handed to an encoder, every variable in its
operands is replaced by a register or by a concrete stack address. -/
namespace Codegen

/-- A variable used as an operand, with the width of the access in bytes. -/
structure VarRef where
  id : VarId
  size : Nat
  deriving DecidableEq, Repr

/-- A register used as an operand, with the width of the access in bytes. -/
structure RegOperand where
  reg : Reg
  size : Nat
  deriving DecidableEq, Repr

/-- Base or index of an address. -/
inductive AddressPart where
  | reg (r : Reg)
  | var (v : VarId)
  deriving DecidableEq, Repr

def AddressPart.var? : AddressPart → Option VarId
  | .var v => some v
  | .reg _ => none

/-- The memory where a variable lives when it is not in a register. -/
inductive Home where
  /-- Not bound yet. -/
  | var (v : VarId)
  /-- A spill slot, whose offset is known once the slots are laid out. -/
  | slot (s : SlotId)
  /-- A stack argument at this offset from the arguments base. -/
  | argument (offset : Int)
  deriving DecidableEq, Repr

/-- The memory operand `[base + index * scale + disp]`. While `home` is set the operand stands for
a variable's home, and `base` is filled in when the frame is known. -/
structure Mem where
  base : Option AddressPart
  index : Option AddressPart
  scale : Nat
  disp : Int
  /-- Width of the access in bytes, 0 when it is not given. -/
  size : Nat
  home : Option Home
  deriving DecidableEq, Repr

namespace Mem

def atReg (r : Reg) (disp : Int) (size : Nat) : Mem := ⟨some (.reg r), none, 1, disp, size, none⟩

/-- `[v + disp]`, the pointer being held in a variable. -/
def atVar (v : VarId) (disp : Int) (size : Nat) : Mem := ⟨some (.var v), none, 1, disp, size, none⟩

def atHome (h : Home) (size : Nat) : Mem := ⟨none, none, 1, 0, size, some h⟩

/-- The home of a variable. -/
def ofVar (v : VarId) (size : Nat) : Mem := atHome (.var v) size

def withIndex (m : Mem) (index : AddressPart) (scale : Nat) : Mem :=
  { m with index := some index, scale }

/-- The variable whose home is meant, as long as it is not bound. -/
def homeVar (m : Mem) : Option VarId :=
  match m.home with
  | some (.var v) => some v
  | _ => none

/-- Variables that form the address, base first. -/
def addressVars (m : Mem) : List VarId :=
  (m.base.bind AddressPart.var?).toList ++ (m.index.bind AddressPart.var?).toList

def isResolved (m : Mem) : Bool := m.home.isNone && m.addressVars.isEmpty

end Mem

/-- Instruction operand. -/
inductive Operand where
  | var (v : VarRef)
  | reg (r : RegOperand)
  | mem (m : Mem)
  | imm (value : Int)
  | label (l : LabelId)
  deriving DecidableEq, Repr

namespace Operand

def ofReg (r : Reg) (size : Nat) : Operand := .reg ⟨r, size⟩

def gpq (index : Nat) : Operand := ofReg (.gp index) 8

def gpd (index : Nat) : Operand := ofReg (.gp index) 4

def xmm (index : Nat) : Operand := ofReg (.xmm index) 16

def mm (index : Nat) : Operand := ofReg (.mm index) 8

def var? : Operand → Option VarId
  | .var v => some v.id
  | _ => none

/-- The variables that must be in registers for the operand to be evaluated. -/
def registerVars : Operand → List VarId
  | .var v => [v.id]
  | .mem m => m.addressVars
  | _ => []

def label? : Operand → Option LabelId
  | .label l => some l
  | _ => none

def isResolved : Operand → Bool
  | .var _ => false
  | .mem m => m.isResolved
  | _ => true

/-- Does the operand stand for a home that has no address yet? -/
def hasHome : Operand → Bool
  | .mem m => m.home.isSome
  | _ => false

end Operand

end Codegen
