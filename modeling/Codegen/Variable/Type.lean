import Codegen.Instruction.Access

/-! Types of variables: the register class that holds them, their width and the instruction that
moves them. -/
namespace Codegen

/-- Type of a variable. -/
inductive VarType where
  | gpd
  | gpq
  | x87
  | x87Single
  | x87Double
  | mm
  | xmm
  | xmmSingle
  | xmmDouble
  | xmmSingles
  | xmmDoubles
  deriving DecidableEq, Repr

namespace VarType

def name : VarType → String
  | gpd => "Gpd"
  | gpq => "Gpq"
  | x87 => "X87"
  | x87Single => "X87_1F"
  | x87Double => "X87_1D"
  | mm => "Mm"
  | xmm => "Xmm"
  | xmmSingle => "Xmm1F"
  | xmmDouble => "Xmm1D"
  | xmmSingles => "Xmm4F"
  | xmmDoubles => "Xmm2D"

/-- The register class, none for the stack-machine float types. -/
def cls : VarType → Option RegClass
  | gpd | gpq => some .gp
  | mm => some .mm
  | xmm | xmmSingle | xmmDouble | xmmSingles | xmmDoubles => some .xmm
  | x87 | x87Single | x87Double => none

/-- Bytes of a value in memory. -/
def size : VarType → Nat
  | gpd | xmmSingle | x87Single => 4
  | gpq | mm | xmmDouble | x87Double => 8
  | x87 => 10
  | xmm | xmmSingles | xmmDoubles => 16

/-- Width of a register operand that holds a value. -/
def regSize : VarType → Nat
  | gpd => 4
  | gpq | mm => 8
  | _ => 16

/-- The instruction that loads, stores and copies values. -/
def moveOpcode : VarType → Opcode
  | gpd | gpq => .mov
  | mm => .movq
  | xmm => .movdqa
  | xmmSingle => .movss
  | xmmDouble => .movsd
  | xmmSingles => .movaps
  | xmmDoubles => .movapd
  | x87 | x87Single | x87Double => .nop

def isFloat (t : VarType) : Bool := t.cls == some .xmm

end VarType

end Codegen
