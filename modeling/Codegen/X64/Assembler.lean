import Codegen.Alignment
import Codegen.Encoder.Basic
import Codegen.X64.CodeAssembler
import Codegen.X64.Dispatch

/-! An encoder for the x86-64. Instructions go straight to a code assembler. Padding depends on
the final layout, so everything is also kept as commands, which are played again with more padding
until every alignment point is where it should be. -/
namespace Codegen.X64

/-- Layouts that are tried at most for the padding. -/
def maxLayouts : Nat := 8

/-- A code assembler and the labels that it has given out; the latest entry for a label counts. -/
structure Stream (α : Type) where
  assembler : α
  labels : List (LabelId × CodeLabel) := []
  /-- A label was set and no code followed. -/
  pending : Bool := false
  deriving DecidableEq, Repr

variable {α : Type} [CodeAssembler α]

namespace Stream

def fresh : Stream α := { assembler := CodeAssembler.fresh }

/-- Have a label made when it is mentioned for the first time. -/
def mention (s : Stream α) (l : LabelId) : Stream α :=
  if (s.labels.lookup l).isSome then s
  else
    let (label, assembler) := CodeAssembler.createLabel s.assembler
    { s with assembler, labels := (l, label) :: s.labels }

/-- The label that was made for `l`. -/
def label (s : Stream α) (l : LabelId) : CodeLabel := (s.labels.lookup l).getD { number := 0 }

/-- The number by which the code assembler knows a label. -/
def number (s : Stream α) (l : LabelId) : Nat := (s.label l).number

/-- Add a piece of code. If it is taken, no label waits for code any more. -/
def add (s : Stream α) (c : Code Nat) : Except EncodingError Unit × Stream α :=
  match CodeAssembler.add s.assembler c with
  | (.ok _, assembler) => (.ok (), { s with assembler, pending := false })
  | (.error e, assembler) => (.error e, { s with assembler })

/-- Put a separator behind a label that no code followed. -/
def close (s : Stream α) : Except EncodingError Unit × Stream α := if s.pending then s.add .separator else (.ok (), s)

/-- Set a label. Two labels without code between them need a separator. -/
def setLabel (s : Stream α) (label : CodeLabel) : Except EncodingError CodeLabel × Stream α :=
  match s.close with
  | (.error e, s') => (.error e, s')
  | (.ok _, s') =>
    match CodeAssembler.setLabel s'.assembler label with
    | (.ok label, assembler) => (.ok label, { s with assembler, pending := true })
    | (.error e, assembler) => (.error e, { s with assembler })

/-- Set the label that stands for `l`. -/
def mark (s : Stream α) (l : LabelId) : Except EncodingError Unit × Stream α :=
  let s := s.mention l
  match s.setLabel (s.label l) with
  | (.ok label, s) => (.ok (), { s with labels := (l, label) :: s.labels })
  | (.error e, s) => (.error e, s)

/-- Set a label of its own. -/
def anchor (s : Stream α) : Except EncodingError CodeLabel × Stream α :=
  let (label, assembler) := CodeAssembler.createLabel s.assembler
  { s with assembler }.setLabel label

/-- Add data; no data is no code. -/
def embed (s : Stream α) (bytes : List UInt8) : Except EncodingError Unit × Stream α :=
  if bytes.isEmpty then (.ok (), s) else s.add (.data bytes)

/-- The stream in which the labels of an instruction are made, also of one that is refused in the end. -/
def naming (s : Stream α) (op : Opcode) (operands : List Operand) : Stream α := (labelsOf op operands).foldl mention s

/-- Add an instruction. -/
def emit (s : Stream α) (op : Opcode) (operands : List Operand) : Except EncodingError Unit × Stream α :=
  let s := s.naming op operands
  match argsOf op operands >>= dispatch op with
  | .ok args => s.add (.instruction op (args.map (Arg.map s.number)))
  | .error e => (.error e, s)

end Stream

/-- A request that succeeded. -/
inductive Command where
  | emit (opcode : Opcode) (operands : List Operand)
  | mark (l : LabelId)
  | align (alignment : Nat)
  | embed (bytes : List UInt8)
  deriving DecidableEq, Repr

/-- The alignment that a command asks for. -/
def Command.alignment? : Command → Option Nat
  | .align a => some a
  | _ => none

/-- The assembler. -/
structure Assembler (α : Type) where
  stream : Stream α
  commands : Array Command := #[]
  labels : LabelBook := {}
  /-- Bytes of the latest code produced. -/
  size : Option Nat := none
  deriving DecidableEq, Repr

/-- Play a command, with the given bytes of padding at an alignment point, which is set as a label. -/
def Command.play (s : Stream α) (pad : Nat) : Command → Except EncodingError (Option CodeLabel) × Stream α
  | emit op operands => settle (s.emit op operands)
  | mark l => settle (s.mark l)
  | embed bytes => settle (s.embed bytes)
  | align _ =>
    match s.anchor with
    | (.ok label, s) =>
      match s.embed (List.replicate pad 0x90) with
      | (.ok _, s) => (.ok (some label), s)
      | (.error e, s) => (.error e, s)
    | (.error e, s) => (.error e, s)
where
  settle : Except EncodingError Unit × Stream α → Except EncodingError (Option CodeLabel) × Stream α
    | (result, s) => (result.map fun _ => none, s)

/-- Play commands, with the given bytes of padding at the alignment points. -/
def replay (s : Stream α) (pads : List Nat) : List Command → Except EncodingError (Stream α × List CodeLabel)
  | [] => .ok (s, [])
  | c :: rest =>
    match c.play s (pads.headD 0) with
    | (.ok none, s) => replay s pads rest
    | (.ok (some label), s) => do
      let (s, labels) ← replay s pads.tail rest
      return (s, label :: labels)
    | (.error e, _) => .error e

/-- The bytes of commands with some padding, and the addresses of the alignment points. -/
def layOut (α : Type) [CodeAssembler α] (pads : List Nat) (commands : List Command) :
    Except EncodingError (List UInt8 × List Nat) := do
  let (stream, labels) ← replay (Stream.fresh : Stream α) pads commands
  match stream.close with
  | (.ok _, stream) =>
    let (code, address) ← CodeAssembler.assemble stream.assembler
    return (code, ← labels.mapM address)
  | (.error e, _) => .error e

/-- Bytes from `offset` to the next multiple of `alignment`. -/
def padding (alignment offset : Nat) : Nat := (alignment - offset % alignment) % alignment

/-- Lay out with some padding, and again with the padding that the layout asks for, until they are
the same. -/
def search (α : Type) [CodeAssembler α] (commands : List Command) : Nat → List Nat → Except EncodingError (List UInt8)
  | 0, _ => .error (.assembly .paddingUnstable)
  | n + 1, pads => do
    let (code, addresses) ← layOut α pads commands
    let needed := List.zipWith padding (commands.filterMap Command.alignment?) (addresses.map (· - baseAddress))
    if needed = pads then return code
    search α commands n needed

namespace Assembler

def fresh : Assembler α := { stream := .fresh }

def alignments (a : Assembler α) : List Nat := a.commands.toList.filterMap Command.alignment?

/-- Take what a stream says to a request, and note the request if it succeeded. -/
def note (a : Assembler α) (c : Command) : Except EncodingError Unit × Stream α → Except EncodingError Unit × Assembler α
  | (.ok _, stream) => (.ok (), { a with stream, commands := a.commands.push c })
  | (.error e, stream) => (.error e, { a with stream })

/-- Bind a label. It counts as bound even if the code assembler refuses it. -/
def markLabel (a : Assembler α) (l : LabelId) : Except EncodingError Unit × Assembler α :=
  match a.labels.mark l with
  | .ok labels => { a with labels }.note (.mark l) (a.stream.mark l)
  | .error e => (.error e, a)

def defineLabel (a : Assembler α) (l : LabelId) : Assembler α :=
  { a with labels := a.labels.define l, stream := a.stream.mention l }

def emit (a : Assembler α) (op : Opcode) (operands : List Operand) : Except EncodingError Unit × Assembler α :=
  a.note (.emit op operands) (a.stream.emit op operands)

/-- Ask for padding. An alignment to single bytes asks for nothing. -/
def align (a : Assembler α) (alignment : Nat) : Except EncodingError Unit × Assembler α :=
  if !isAlignment alignment then (.error (.assembly (.alignmentNotPowerOfTwo alignment)), a)
  else if 1 < alignment then a.note (.align alignment) (.ok (), a.stream)
  else (.ok (), a)

def embed (a : Assembler α) (bytes : List UInt8) : Except EncodingError Unit × Assembler α :=
  a.note (.embed bytes) (a.stream.embed bytes)

/-- Produce the code. -/
def finish (a : Assembler α) : Except EncodingError (List UInt8) × Assembler α :=
  let (result, a) :=
    if a.alignments.isEmpty then
      match a.stream.close with
      | (.ok _, stream) => ((CodeAssembler.assemble stream.assembler).map (·.1), { a with stream })
      | (.error e, stream) => (.error e, { a with stream })
    else (search α a.commands.toList maxLayouts (a.alignments.map fun _ => 0), a)
  match result with
  | .ok code => (.ok code, { a with size := some code.length })
  | .error e => (.error e, a)

/-- Bytes of the latest code, or the number of instructions before there is any. -/
def codeSize (a : Assembler α) : Nat := a.size.getD (CodeAssembler.count a.stream.assembler)

/-- The state behind a request that succeeded. -/
def after : Except EncodingError Unit × Assembler α → Except EncodingError (Assembler α)
  | (.ok _, a) => .ok a
  | (.error e, _) => .error e

instance : Encoder (Assembler α) where
  fresh := fresh
  defineLabel := defineLabel
  markLabel a l := after (a.markLabel l)
  isLabelMarked a l := a.labels.isMarked l
  emit := emit
  align a alignment := after (a.align alignment)
  embed a bytes := after (a.embed bytes)
  comment a _ := a
  finish := finish
  codeSize := codeSize

end Assembler

end Codegen.X64
