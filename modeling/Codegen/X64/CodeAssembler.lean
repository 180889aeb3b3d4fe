import Codegen.X64.Argument

/-! What an encoder for the x86-64 is built over. A code assembler is given instructions and data, numbers labels
and binds them to positions, and turns it all into bytes in the end. -/
namespace Codegen.X64

/-- Address of the first byte of code. -/
def baseAddress : Nat := 4096

/-- What a code assembler is given, with labels in `ι`. A separator has no bytes. -/
inductive Code (ι : Type) where
  | instruction (op : Opcode) (args : List (Arg ι))
  | data (bytes : List UInt8)
  | separator
  deriving DecidableEq, Repr

def Code.map (f : ι → κ) : Code ι → Code κ
  | instruction op args => instruction op (args.map (Arg.map f))
  | data bytes => data bytes
  | separator => separator

/-- Code, or the position of a label. -/
inductive Piece (ι : Type) where
  | code (c : Code ι)
  | label (l : ι)
  deriving DecidableEq, Repr

def Piece.map (f : ι → κ) : Piece ι → Piece κ
  | code c => code (c.map f)
  | label l => label (f l)

/-- A label of a code assembler. -/
structure CodeLabel where
  number : Nat
  /-- The label was bound to a position. -/
  isSet : Bool := false
  deriving DecidableEq, Repr

/-- The operations of a code assembler with states in `α`. What is left behind by an operation that fails comes with
the failure. -/
class CodeAssembler (α : Type) where
  fresh : α
  /-- Give out the next label. -/
  createLabel : α → CodeLabel × α
  /-- Bind a label to the present position. -/
  setLabel : α → CodeLabel → Except EncodingError CodeLabel × α
  add : α → Code Nat → Except EncodingError Unit × α
  /-- How many instructions there are. Data counts one for each 16 bytes. -/
  count : α → Nat
  /-- The bytes of all code at `baseAddress`, and the addresses of labels. -/
  assemble : α → Except EncodingError (List UInt8 × (CodeLabel → Except EncodingError Nat))

end Codegen.X64
