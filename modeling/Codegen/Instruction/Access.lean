import Codegen.Instruction.Operand

/-! How an instruction touches each of its operands, and which operands the hardware binds to a
fixed register. -/
namespace Codegen

/-- How a variable is touched. -/
inductive Access where
  | read
  | write
  | readWrite
  deriving DecidableEq, Repr

namespace Access

def reads : Access → Bool
  | read | readWrite => true
  | write => false

def writes : Access → Bool
  | write | readWrite => true
  | read => false

/-- The union of two accesses to one variable. -/
def merge (a b : Access) : Access := if a = b then a else readWrite

end Access

/-- What the allocator has to know about one operand. -/
structure OperandConstraint where
  access : Access
  /-- Number of the general purpose register the variable must occupy. -/
  fixed : Option Nat := none
  deriving DecidableEq, Repr

namespace Opcode

/-- Is the first of `count` operands written without being read? -/
def writesFirst (op : Opcode) (count : Nat) : Bool :=
  match op with
  | mov | movd | movq | movss | movsd | movaps | movapd | movups | movupd | movdqa | movdqu
  | lea | pop | sqrtsd | cvtsi2sd | cvtsi2ss | cvtss2sd | cvtsd2ss | cvttsd2si => true
  | imul => count == 3
  | _ => false

/-- Is the first operand only read? -/
def readsFirst : Opcode → Bool
  | cmp | test | ucomisd | ucomiss | push | jmp | jcc _ | call | ret => true
  | _ => false

/-- The rule for opcodes without fixed registers. -/
def plainConstraint (op : Opcode) (index count : Nat) : OperandConstraint :=
  if index > 0 then ⟨.read, none⟩
  else if op.readsFirst then ⟨.read, none⟩
  else if op.writesFirst count then ⟨.write, none⟩
  else ⟨.readWrite, none⟩

/-- Access and register binding of the operand at `index` of `count` operands. -/
def constraint (op : Opcode) (index count : Nat) : OperandConstraint :=
  match op, index with
  | shl, 1 | shr, 1 | sar, 1 | rol, 1 | ror, 1 => ⟨.read, some Gp.rcx⟩
  | mul, 0 | imulWide, 0 => ⟨.write, some Gp.rdx⟩
  | mul, 1 | imulWide, 1 => ⟨.readWrite, some Gp.rax⟩
  | div, 0 | idiv, 0 => ⟨.readWrite, some Gp.rdx⟩
  | div, 1 | idiv, 1 => ⟨.readWrite, some Gp.rax⟩
  | mul, _ | imulWide, _ | div, _ | idiv, _ => ⟨.read, none⟩
  | cpuid, 0 => ⟨.readWrite, some Gp.rax⟩
  | cpuid, 1 => ⟨.write, some Gp.rbx⟩
  | cpuid, 2 => ⟨.write, some Gp.rcx⟩
  | cpuid, _ => ⟨.write, some Gp.rdx⟩
  | rdtsc, 0 => ⟨.write, some Gp.rdx⟩
  | rdtsc, _ => ⟨.write, some Gp.rax⟩
  | repMovsb, 0 | repStosb, 0 => ⟨.read, some Gp.rdi⟩
  | repMovsb, 1 => ⟨.read, some Gp.rsi⟩
  | repStosb, 1 => ⟨.read, some Gp.rax⟩
  | repMovsb, _ | repStosb, _ => ⟨.readWrite, some Gp.rcx⟩
  | xchg, _ => ⟨.readWrite, none⟩
  | _, _ => op.plainConstraint index count

/-- The operands an encoder is given; the hardware does not name the fixed ones. -/
def explicitOperands (op : Opcode) (operands : List Operand) : List Operand :=
  match op with
  | mul | imulWide | div | idiv => operands.drop 2
  | cpuid | rdtsc | repMovsb | repStosb => []
  | _ => operands

theorem explicitOperands_subset (op : Opcode) (operands : List Operand) :
    op.explicitOperands operands ⊆ operands := by
  unfold explicitOperands
  split
  all_goals first | exact List.drop_subset _ _ | exact List.nil_subset _ | exact List.Subset.refl _

end Opcode

end Codegen
