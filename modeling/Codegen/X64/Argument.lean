import Codegen.Error
import Codegen.X64.Machine

/-! Operands as the machine knows them. -/
namespace Codegen.X64

/-- An operand of a machine instruction, with labels in `ι`. -/
inductive Arg (ι : Type) where
  | gp (width : Width) (index : Nat)
  | xmm (index : Nat)
  | mm (index : Nat)
  | mem (a : Address)
  | imm (value : Int)
  | label (l : ι)
  deriving DecidableEq, Repr

def Arg.map (f : ι → κ) : Arg ι → Arg κ
  | gp width index => gp width index
  | xmm index => xmm index
  | mm index => mm index
  | mem a => mem a
  | imm value => imm value
  | label l => label (f l)

/-- The width of this many bytes. -/
def Width.ofBytes? : Nat → Option Width
  | 1 => some .w8
  | 2 => some .w16
  | 4 => some .w32
  | 8 => some .w64
  | _ => none

/-- A register, which must exist and have a width that its class offers. -/
def Arg.ofReg (r : RegOperand) : Except EncodingError (Arg LabelId) :=
  match r.reg.cls with
  | .gp =>
    match Width.ofBytes? r.size with
    | some w => if r.reg.index < 16 then .ok (.gp w r.reg.index) else .error .invalidRegister
    | none => .error .invalidRegister
  | .xmm => if r.reg.index < 16 then .ok (.xmm r.reg.index) else .error .invalidRegister
  | .mm => if r.reg.index < 8 then .ok (.mm r.reg.index) else .error .invalidRegister

/-- The register of an address, which must be a general purpose register. -/
def addressReg : Option AddressPart → Except EncodingError (Option Nat)
  | some (.reg r) =>
    if r.cls = .gp && r.index < 16 then .ok (some r.index) else .error .invalidRegister
  | some (.var _) => .error .unresolvedOperand
  | none => .ok none

/-- A memory operand, which needs a base or an index. -/
def Address.ofMem (m : Mem) : Except EncodingError Address := do
  if m.home.isSome then throw .unresolvedOperand
  let base ← addressReg m.base
  let index ← addressReg m.index
  if base.isNone && index.isNone then throw .invalidMemoryOperand
  return { base, index := index.map (·, m.scale), disp := m.disp, size := m.size }

def Arg.ofOperand : Operand → Except EncodingError (Arg LabelId)
  | .reg r => Arg.ofReg r
  | .mem m => do return .mem (← Address.ofMem m)
  | .imm v => .ok (.imm v)
  | .label l => .ok (.label l)
  | .var _ => .error .unresolvedOperand

/-- Is the opcode a shift or a rotation, whose register count is always `cl`? -/
def isShift : Opcode → Bool
  | .shl | .shr | .sar | .rol | .ror => true
  | _ => false

/-- The operand at position `index`. -/
def Arg.at (op : Opcode) (index : Nat) (operand : Operand) : Except EncodingError (Arg LabelId) :=
  match isShift op && index == 1, operand with
  | true, .reg r => if r.reg = .gp Gp.rcx then .ok (.gp .w8 Gp.rcx) else .error .invalidRegister
  | _, _ => Arg.ofOperand operand

/-- The operands from position `index` on. -/
def argsFrom (op : Opcode) (index : Nat) : List Operand → Except EncodingError (List (Arg LabelId))
  | [] => .ok []
  | operand :: rest => do
    let arg ← Arg.at op index operand
    let others ← argsFrom op (index + 1) rest
    return arg :: others

/-- The labels from position `index` on, up to the first operand that is refused. -/
def labelsFrom (op : Opcode) (index : Nat) : List Operand → List LabelId
  | [] => []
  | operand :: rest =>
    match Arg.at op index operand with
    | .ok (.label l) => l :: labelsFrom op (index + 1) rest
    | .ok _ => labelsFrom op (index + 1) rest
    | .error _ => []

/-- The operands of an instruction. -/
def argsOf (op : Opcode) (operands : List Operand) : Except EncodingError (List (Arg LabelId)) :=
  argsFrom op 0 operands

/-- The labels that an instruction brings in, also one that is refused in the end. -/
def labelsOf (op : Opcode) (operands : List Operand) : List LabelId := labelsFrom op 0 operands

end Codegen.X64
