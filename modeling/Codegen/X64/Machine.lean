import Codegen.Instruction.Opcode

/-! Machine instructions of the x86-64: the fields of an instruction and the bytes they are written
as. -/
namespace Codegen.X64

/-- Width of an integer operation. -/
inductive Width where
  | w8
  | w16
  | w32
  | w64
  deriving DecidableEq, Repr

/-- The memory operand `[base + index * scale + disp]` over general purpose registers. -/
structure Address where
  base : Option Nat
  /-- Index register and scale. -/
  index : Option (Nat × Nat)
  disp : Int
  /-- Bytes accessed, as far as the program says. -/
  size : Nat
  deriving DecidableEq, Repr

/-- The operand that is either a register or memory. -/
inductive Rm where
  | reg (index : Nat)
  | mem (a : Address)
  deriving DecidableEq, Repr

/-- An immediate field of some bytes. -/
structure Immediate where
  bytes : Nat
  value : Int
  deriving DecidableEq, Repr

/-- A machine instruction. -/
structure Machine where
  /-- Operands are 16 bits wide. -/
  operand16 : Bool := false
  /-- Byte in front of the opcode that belongs to it. -/
  lead : Option UInt8 := none
  rexW : Bool := false
  /-- A byte register is meant that can only be named with a REX byte. -/
  needsRex : Bool := false
  opcode : List UInt8
  /-- Register that is named in the low bits of the last opcode byte. -/
  opcodeReg : Option Nat := none
  /-- The register field and the operand of the ModRM byte. -/
  modrm : Option (Nat × Rm) := none
  imm : Option Immediate := none
  deriving DecidableEq, Repr

/-- The low `n` bytes of a number, lowest first. -/
def littleEndian : Nat → Int → List UInt8
  | 0, _ => []
  | n + 1, value => UInt8.ofNat (value % 256).toNat :: littleEndian n (value / 256)

def Immediate.toBytes (i : Immediate) : List UInt8 := littleEndian i.bytes i.value

/-- Is the value one of a signed byte? -/
def fitsInt8 (v : Int) : Bool := -128 ≤ v && v ≤ 127

/-- Three fields of two, three and three bits. -/
def packFields (high mid low : Nat) : UInt8 := UInt8.ofNat (high * 64 + mid % 8 * 8 + low % 8)

/-- The two-bit code of a scale. -/
def scaleCode : Nat → Nat
  | 1 => 0
  | 2 => 1
  | 4 => 2
  | _ => 3

namespace Address

/-- The stack pointer cannot be an index. -/
def isEncodable (a : Address) : Bool := a.index.all (·.1 != 4)

/-- How the displacement is written: its code in the ModRM byte and its width. With the base `rbp`
or `r13` it is never left out. -/
def dispForm (a : Address) (base : Nat) : Nat × Nat :=
  if a.disp = 0 && base % 8 != 5 then (0, 0)
  else if fitsInt8 a.disp then (1, 1)
  else (2, 4)

/-- ModRM byte, SIB byte and displacement. -/
def toBytes (a : Address) (reg : Nat) : List UInt8 :=
  match a.base, a.index with
  | none, none => packFields 0 reg 5 :: littleEndian 4 a.disp
  | none, some (index, scale) =>
    packFields 0 reg 4 :: packFields (scaleCode scale) index 5 :: littleEndian 4 a.disp
  | some base, none =>
    let (mode, width) := a.dispForm base
    let sib := if base % 8 = 4 then [packFields 0 4 4] else []
    packFields mode reg base :: (sib ++ littleEndian width a.disp)
  | some base, some (index, scale) =>
    let (mode, width) := a.dispForm base
    packFields mode reg 4 :: packFields (scaleCode scale) index base :: littleEndian width a.disp

end Address

namespace Rm

def toBytes : Rm → Nat → List UInt8
  | reg index, r => [packFields 3 r index]
  | mem a, r => a.toBytes r

def isEncodable : Rm → Bool
  | reg _ => true
  | mem a => a.isEncodable

/-- High bit of the index register. -/
def bitX : Rm → Bool
  | reg _ => false
  | mem a => a.index.any (8 ≤ ·.1)

/-- High bit of the base register or of the register operand. -/
def bitB : Rm → Bool
  | reg index => 8 ≤ index
  | mem a => a.base.any (8 ≤ ·)

end Rm

namespace Machine

def isEncodable (m : Machine) : Bool := m.modrm.all (·.2.isEncodable)

/-- The REX byte, if one is needed. -/
def rex (m : Machine) : List UInt8 :=
  let r := m.modrm.any (8 ≤ ·.1)
  let x := m.modrm.any (·.2.bitX)
  let b := m.modrm.any (·.2.bitB) || m.opcodeReg.any (8 ≤ ·)
  if m.rexW || r || x || b || m.needsRex then
    [UInt8.ofNat (64 + 8 * m.rexW.toNat + 4 * r.toNat + 2 * x.toNat + b.toNat)]
  else []

/-- The opcode, with the register of its last byte. -/
def opcodeBytes (m : Machine) : List UInt8 :=
  match m.opcodeReg with
  | none => m.opcode
  | some r => m.opcode.dropLast ++ (m.opcode.getLast?.map (· + UInt8.ofNat (r % 8))).toList

def toBytes (m : Machine) : List UInt8 :=
  (if m.operand16 then [0x66] else []) ++ m.lead.toList ++ m.rex ++ m.opcodeBytes ++
    (match m.modrm with
      | some (reg, rm) => rm.toBytes reg
      | none => []) ++
    (match m.imm with
      | some i => i.toBytes
      | none => [])

end Machine

end Codegen.X64
