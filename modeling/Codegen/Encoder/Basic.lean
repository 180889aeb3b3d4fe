import Codegen.Error

/-! What a compiled program is handed to. An encoder is given resolved instructions, labels,
alignments, data and comments in order, and turns them into bytes in the end. A request that fails
adds nothing to the code. -/
namespace Codegen

/-- The operations of an encoder with states in `ε`. -/
class Encoder (ε : Type) where
  /-- An encoder that was given nothing. -/
  fresh : ε
  /-- Make a label known. -/
  defineLabel : ε → LabelId → ε
  /-- Bind a label to the present position. -/
  markLabel : ε → LabelId → Except EncodingError ε
  isLabelMarked : ε → LabelId → Bool
  /-- Take one instruction with its explicit operands. The result comes with the encoder
  afterwards. -/
  emit : ε → Opcode → List Operand → Except EncodingError Unit × ε
  /-- Pad up to a multiple of an alignment. -/
  align : ε → Nat → Except EncodingError ε
  /-- Take raw bytes. -/
  embed : ε → List UInt8 → Except EncodingError ε
  comment : ε → String → ε
  /-- The bytes of everything given so far, and the encoder afterwards. -/
  finish : ε → Except EncodingError (List UInt8) × ε
  /-- How much was given so far, in instructions or bytes. -/
  codeSize : ε → Nat

/-- Labels an encoder knows and labels it has bound. -/
structure LabelBook where
  defined : List LabelId := []
  marked : List LabelId := []
  deriving DecidableEq, Repr

namespace LabelBook

def isDefined (b : LabelBook) (l : LabelId) : Bool := b.defined.contains l

def isMarked (b : LabelBook) (l : LabelId) : Bool := b.marked.contains l

def define (b : LabelBook) (l : LabelId) : LabelBook :=
  if b.isDefined l then b else { b with defined := l :: b.defined }

/-- Bind a label, which must be known and unbound. -/
def mark (b : LabelBook) (l : LabelId) : Except EncodingError LabelBook :=
  if !b.isDefined l then .error (.assembly (.undefinedLabel l))
  else if b.isMarked l then .error (.assembly (.reboundLabel l))
  else .ok { b with marked := l :: b.marked }

theorem isMarked_mark {b b' : LabelBook} {l x : LabelId} (h : b.mark l = .ok b') :
    b.isMarked l = false ∧ (b'.isMarked x = true ↔ b.isMarked x = true ∨ x = l) := by
  unfold mark at h
  split at h
  · cases h
  split at h
  · cases h
  · cases h
    rename_i hl
    exact ⟨by simpa using hl, by simp [isMarked, or_comm]⟩

theorem isMarked_define {b : LabelBook} {l x : LabelId} : (b.define l).isMarked x = b.isMarked x := by
  unfold define
  split <;> rfl

end LabelBook

end Codegen
