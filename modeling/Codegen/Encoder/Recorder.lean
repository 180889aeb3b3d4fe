import Codegen.Encoder.Basic

/-! An encoder that keeps what it is given, for looking at compiled programs without decoding
bytes. -/
namespace Codegen

/-- One thing that was handed over. -/
inductive Entry where
  | instruction (opcode : Opcode) (operands : List Operand)
  | label (l : LabelId)
  | align (alignment : Nat)
  | data (bytes : List UInt8)
  | comment (text : String)
  deriving DecidableEq, Repr

/-- Everything handed over so far, in order. -/
structure Recorder where
  entries : Array Entry := #[]
  labels : LabelBook := {}
  deriving DecidableEq, Repr

namespace Recorder

def push (r : Recorder) (e : Entry) : Recorder := { r with entries := r.entries.push e }

/-- Operands must name known labels and be resolved; the first that does not decides. -/
def checkOperand (r : Recorder) (operand : Operand) : Except EncodingError Unit :=
  match operand with
  | .label l => if r.labels.isDefined l then .ok () else .error (.assembly (.undefinedLabel l))
  | _ => if operand.isResolved then .ok () else .error .unresolvedOperand

def emit (r : Recorder) (opcode : Opcode) (operands : List Operand) :
    Except EncodingError Unit × Recorder :=
  match operands.forM r.checkOperand with
  | .ok _ => (.ok (), r.push (.instruction opcode operands))
  | .error e => (.error e, r)

def markLabel (r : Recorder) (l : LabelId) : Except EncodingError Recorder := do
  let labels ← r.labels.mark l
  return { r with labels }.push (.label l)

/-- The instructions among the entries. -/
def instructions (r : Recorder) : List (Opcode × List Operand) :=
  r.entries.toList.filterMap fun
    | .instruction op operands => some (op, operands)
    | _ => none

def count (r : Recorder) (op : Opcode) : Nat := (r.instructions.filter (·.1 == op)).length

/-- Position of the first instruction with this opcode. -/
def position (r : Recorder) (op : Opcode) : Option Nat := r.instructions.findIdx? (·.1 == op)

/-- Is the address relative to the stack pointer or the base pointer? -/
def isStackMem (m : Mem) : Bool :=
  m.base == some (.reg (.gp Gp.rsp)) || m.base == some (.reg (.gp Gp.rbp))

def isStackOperand : Operand → Bool
  | .mem m => isStackMem m
  | _ => false

/-- Number of instructions that touch the stack through an explicit operand. -/
def stackAccesses (r : Recorder) : Nat := (r.instructions.filter (·.2.any isStackOperand)).length

/-- Is this a store of the register, of any width, to the stack? -/
def isStoreOf (reg : Reg) : List Operand → Bool
  | [.mem m, .reg r] => isStackMem m && r.reg == reg
  | _ => false

/-- Is this a load of the register, of any width, from the stack? -/
def isLoadOf (reg : Reg) : List Operand → Bool
  | [.reg r, .mem m] => isStackMem m && r.reg == reg
  | _ => false

def storesOf (r : Recorder) (reg : Reg) : Nat := (r.instructions.filter (isStoreOf reg ·.2)).length

def loadsOf (r : Recorder) (reg : Reg) : Nat := (r.instructions.filter (isLoadOf reg ·.2)).length

/-- The data among the entries. -/
def embedded (r : Recorder) : List UInt8 :=
  r.entries.toList.flatMap fun
    | .data bytes => bytes
    | _ => []

def comments (r : Recorder) : List String :=
  r.entries.toList.filterMap fun
    | .comment text => some text
    | _ => none

instance : Encoder Recorder where
  fresh := {}
  defineLabel r l := { r with labels := r.labels.define l }
  markLabel := markLabel
  isLabelMarked r l := r.labels.isMarked l
  emit := emit
  align r alignment := .ok (r.push (.align alignment))
  embed r bytes := .ok (r.push (.data bytes))
  comment r text := r.push (.comment text)
  finish r := (.ok r.embedded, r)
  codeSize r := r.instructions.length

end Recorder

end Codegen
