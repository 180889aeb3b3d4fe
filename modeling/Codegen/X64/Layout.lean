import Codegen.X64.CodeAssembler
import Codegen.X64.Selection

/-! A code assembler. It lays out the code by finding the shortest form of every branch and writing the bytes.
Branches start at their longest form and are shortened in a few passes over the code. -/
namespace Codegen.X64

/-- Passes that are made at most to shorten branches. -/
def maxPasses : Nat := 5

/-- The forms of a branch, by how far they reach. -/
inductive Reach where
  /-- Not decided, and counted with the longest form. -/
  | undecided
  /-- A distance of one byte. -/
  | short
  /-- A distance of four bytes. -/
  | near
  /-- Through a pointer behind the code. -/
  | far
  deriving DecidableEq, Repr

/-- A line of the layout: bytes that are fixed, a branch, or a position. -/
inductive Line where
  | bytes (code : List UInt8)
  | branch (kind : BranchKind) (target : BranchTarget) (reach : Reach) (settled : Bool)
  /-- The position of the label with a rank. -/
  | mark (rank : Nat)
  deriving DecidableEq, Repr

/-- Does the code start with a branch through a pointer? -/
def startsFar : List Line → Bool
  | .branch _ _ .far _ :: _ => true
  | _ => false

/-- Bytes of a branch. -/
def BranchKind.size : BranchKind → Reach → Nat
  | .jmp, .short => 2
  | .jmp, .near => 5
  | .jmp, _ => 6
  | .jcc _, .short => 2
  | .jcc _, .near => 6
  | .jcc _, _ => 8
  | .call, .near => 5
  | .call, _ => 6

def Line.size : Line → Nat
  | bytes code => code.length
  | branch kind _ reach _ => kind.size reach
  | mark _ => 0

/-- Bytes of some lines together. -/
def totalSize : List Line → Nat
  | [] => 0
  | l :: rest => l.size + totalSize rest

/-- The line for a piece. Some instructions have no bytes in 64-bit code. -/
def Line.ofPiece : Piece BranchTarget → Except EncodingError Line
  | .code (.instruction op args) => do
    match ← select op args with
    | .machine m => if m.isEncodable then .ok (.bytes m.toBytes) else unencodable
    | .branch kind target => .ok (.branch kind target .undecided false)
    | .refused => unencodable
  | .code (.data code) => .ok (.bytes code)
  | .code .separator => .ok (.bytes [])
  | .label (.label rank) => .ok (.mark rank)
  | .label (.address _) => unencodable

/-- Where labels are; the latest entry for a label counts. -/
abbrev Labels := List (Nat × Nat)

/-- The position behind a line. -/
def Line.stop (at_ : Nat) (l : Line) : Nat := at_ + l.size

/-- The positions of all labels. -/
def positionsFrom (at_ : Nat) (labels : Labels) : List Line → Labels
  | [] => labels
  | l :: rest =>
    let labels := match l with
      | .mark rank => (rank, at_) :: labels
      | _ => labels
    positionsFrom (l.stop at_) labels rest

/-- Address of a branch target. -/
def BranchTarget.resolve (labels : Labels) : BranchTarget → Except EncodingError Nat
  | .label rank =>
    match labels.lookup rank with
    | some a => .ok a
    | none => unencodable
  | .address a => .ok a

/-- Distance between 64-bit addresses. -/
def distance (target from_ : Nat) : Int := ((target : Int) - (from_ : Int)).bmod 18446744073709551616

/-- Distance from the end of a branch of `size` bytes. For a label that is still ahead, the bytes
that were saved in front of the branch in this pass have to be taken off. -/
def branchDistance (target : BranchTarget) (address at_ size gained : Nat) : Int :=
  let d := distance address (at_ + size)
  match target with
  | .label _ => if 0 ≤ d then d - gained else d
  | .address _ => d

/-- Is the value one of a signed 32-bit word? -/
def fitsRel32 (d : Int) : Bool := -2147483648 ≤ d && d ≤ 2147483647

/-- Is a distance so long that it cannot shrink to one byte by shortening instructions? -/
def isHopeless (d : Int) : Bool := d < -1920 || 1905 < d

/-- The best form for a branch at this position. Labels are always within four bytes. -/
def BranchKind.bestReach (kind : BranchKind) (target : BranchTarget) (address at_ gained : Nat) :
    Reach × Bool :=
  let isLabel := match target with
    | .label _ => true
    | .address _ => false
  let near := branchDistance target address at_ 5 gained
  match kind with
  | .call => if isLabel || fitsRel32 near then (.near, true) else (.far, false)
  | _ =>
    let short := branchDistance target address at_ 2 gained
    if fitsInt8 short then (.short, true)
    else if isLabel then (.near, isHopeless short)
    else if fitsRel32 near then (.near, isHopeless near)
    else (.far, false)

/-- State of one pass: the position, the known labels and the bytes saved so far. -/
structure Pass where
  at_ : Nat
  labels : Labels
  gained : Nat
  deriving DecidableEq, Repr

/-- One pass over the code. -/
def Pass.run (p : Pass) : List Line → Except EncodingError (List Line × Pass)
  | [] => .ok ([], p)
  | l :: rest => do
    let (l', p) ← (match l with
      | .branch kind target _ false => do
        let address ← target.resolve p.labels
        let (reach, settled) := kind.bestReach target address p.at_ p.gained
        let l' := Line.branch kind target reach settled
        return (l', { p with at_ := l'.stop p.at_, gained := p.gained + (l.size - l'.size) })
      | .mark rank => return (l, { p with labels := (rank, p.at_) :: p.labels })
      | _ => return (l, { p with at_ := l.stop p.at_ }) :
        Except EncodingError (Line × Pass))
    let (rest, p) ← p.run rest
    return (l' :: rest, p)

/-- Shorten branches until a pass saves nothing or all passes are made. -/
def relax : Nat → Labels → List Line → Except EncodingError (List Line)
  | 0, _, lines => .ok lines
  | n + 1, labels, lines => do
    let (lines, p) ← Pass.run ⟨baseAddress, labels, 0⟩ lines
    if p.gained = 0 then return lines
    relax n p.labels lines

/-- Number of a condition in the opcode of its branch. -/
def conditionCode : Condition → UInt8
  | .o => 0
  | .no => 1
  | .b => 2
  | .ae => 3
  | .e => 4
  | .ne => 5
  | .be => 6
  | .a => 7
  | .s => 8
  | .ns => 9
  | .p => 10
  | .np => 11
  | .l => 12
  | .ge => 13
  | .le => 14
  | .g => 15

/-- The opcode of a branch form. -/
def BranchKind.opcode : BranchKind → Reach → List UInt8
  | .jmp, .short => [0xEB]
  | .jmp, .near => [0xE9]
  | .jmp, _ => [0xFF, 0x25]
  | .jcc c, .short => [0x70 + conditionCode c]
  | .jcc c, .near => [0x0F, 0x80 + conditionCode c]
  -- the opposite condition leads past a jump through the pointer
  | .jcc c, _ => [0x70 + (conditionCode c ^^^ 1), 6, 0xFF, 0x25]
  | .call, .near => [0xE8]
  | .call, _ => [0xFF, 0x15]

/-- The bytes of a branch whose operand points at `address`. -/
def BranchKind.toBytes (kind : BranchKind) (reach : Reach) (address at_ : Nat) :
    Except EncodingError (List UInt8) :=
  let d := distance address (at_ + kind.size reach)
  if kind.size reach = 2 then
    if fitsInt8 d then .ok (kind.opcode reach ++ littleEndian 1 d) else unencodable
  else if fitsRel32 d then .ok (kind.opcode reach ++ littleEndian 4 d)
  else unencodable

/-- Bytes and pointers of code that is being written. -/
structure Output where
  code : List UInt8 := []
  pointers : List Nat := []
  deriving DecidableEq, Repr

/-- Write the lines from position `at_` on, with the next pointer at `pointer`. -/
def write (labels : Labels) (at_ pointer : Nat) : List Line → Except EncodingError Output
  | [] => .ok {}
  | l :: rest => do
    match l with
    | .bytes code =>
      let out ← write labels (l.stop at_) pointer rest
      return { out with code := code ++ out.code }
    | .branch kind target reach _ =>
      let address ← target.resolve labels
      if reach = .far then
        let code ← kind.toBytes reach pointer at_
        let out ← write labels (l.stop at_) (pointer + 8) rest
        return { out with code := code ++ out.code, pointers := address :: out.pointers }
      else
        let code ← kind.toBytes reach address at_
        let out ← write labels (l.stop at_) pointer rest
        return { out with code := code ++ out.code }
    | .mark _ => write labels at_ pointer rest

/-- The position of a label. It is not reported directly in front of a branch through a pointer. -/
def markAddress (rank at_ : Nat) : List Line → Except EncodingError Nat
  | [] => unencodable
  | l :: rest =>
    if l = .mark rank then if startsFar rest then unencodable else .ok at_
    else markAddress rank (l.stop at_) rest

/-- The pointers behind the code, which start at a multiple of 8 bytes. -/
def pointerBytes (size : Nat) (pointers : List Nat) : List UInt8 :=
  if pointers.isEmpty then []
  else List.replicate ((8 - size % 8) % 8) 0xCC ++ pointers.flatMap fun (p : Nat) => littleEndian 8 p

/-- The numbers of the labels that are set, in order. -/
def marksOf (pieces : List (Piece ι)) : List ι :=
  pieces.filterMap fun
    | .label l => some l
    | .code _ => none

/-- A label that is not set stands for the address that is its number. -/
def targetOf (marks : List Nat) (number : Nat) : BranchTarget :=
  match marks.idxOf? number with
  | some rank => .label rank
  | none => .address number

/-- The bytes of pieces, and the addresses of their labels. -/
def assemble (pieces : List (Piece BranchTarget)) :
    Except EncodingError (List UInt8 × (Nat → Except EncodingError Nat)) := do
  let lines ← pieces.mapM Line.ofPiece
  let lines ← relax maxPasses (positionsFrom baseAddress [] lines) lines
  let size := totalSize lines
  let out ← write (positionsFrom baseAddress [] lines) baseAddress (baseAddress + (size + 7) / 8 * 8) lines
  return (out.code ++ pointerBytes size out.pointers, fun rank => markAddress rank baseAddress lines)

/-- A code assembler that keeps what it is given. -/
structure Listing where
  pieces : Array (Piece Nat) := #[]
  /-- A label was set and no code followed. -/
  pending : Bool := false
  nextLabel : Nat := 1
  deriving DecidableEq, Repr

namespace Listing

/-- One label can be set at a position, and a label only once. -/
def setLabel (a : Listing) (label : CodeLabel) : Except EncodingError CodeLabel × Listing :=
  if label.isSet || a.pending then (unencodable, a)
  else (.ok { label with isSet := true }, { a with pieces := a.pieces.push (.label label.number), pending := true })

/-- An instruction is taken if it has a form, which does not depend on where its labels are. -/
def check : Code Nat → Except EncodingError Unit
  | .instruction op args => do
    let _ ← select op (args.map (Arg.map fun _ => .address 0))
  | _ => .ok ()

def add (a : Listing) (c : Code Nat) : Except EncodingError Unit × Listing :=
  match check c with
  | .ok _ => (.ok (), { a with pieces := a.pieces.push (.code c), pending := false })
  | .error e => (.error e, a)

/-- Labels count for nothing, and data for as many instructions as hold it. -/
def count (a : Listing) : Nat :=
  a.pieces.foldl (fun n => fun
    | .code (.data bytes) => n + (bytes.length + 15) / 16
    | .code _ => n + 1
    | .label _ => n) 0

/-- A label that no code follows cannot be bound. -/
def assemble (a : Listing) : Except EncodingError (List UInt8 × (CodeLabel → Except EncodingError Nat)) := do
  if a.pending then unencodable
  let pieces := a.pieces.toList.filter (· ≠ .code .separator)
  let target := targetOf (marksOf pieces)
  let (code, address) ← X64.assemble (pieces.map (Piece.map target))
  return (code, fun label =>
    match target label.number with
    | .label rank => address rank
    | .address _ => unencodable)

instance : CodeAssembler Listing where
  fresh := {}
  createLabel a := ({ number := a.nextLabel }, { a with nextLabel := a.nextLabel + 1 })
  setLabel := setLabel
  add := add
  count := count
  assemble := assemble

end Listing

end Codegen.X64
