import Codegen.Instruction.Opcode

/-! Counters kept while programs are compiled, and their report. -/
namespace Codegen

/-- What happened in a session so far. -/
structure Stats where
  functionsCompiled : Nat := 0
  totalCodeSize : Nat := 0
  itemsTranslated : Nat := 0
  instructionsEmitted : Nat := 0
  /-- Emitted instructions by mnemonic. -/
  instructionCounts : List (String × Nat) := []
  registersAllocated : Nat := 0
  spills : Nat := 0
  loads : Nat := 0
  exchanges : Nat := 0
  stateRestores : Nat := 0
  forwardJumpsResolved : Nat := 0
  itemsRemoved : Nat := 0
  deriving DecidableEq, Repr

namespace Stats

/-- Add one to the count of a name. -/
def bump (name : String) : List (String × Nat) → List (String × Nat)
  | [] => [(name, 1)]
  | (n, k) :: rest => if n = name then (n, k + 1) :: rest else (n, k) :: bump name rest

def recordInstruction (s : Stats) (op : Opcode) : Stats :=
  { s with
    instructionsEmitted := s.instructionsEmitted + 1
    instructionCounts := bump op.name s.instructionCounts }

/-- Most frequent first, equal counts by name. -/
def breakdown (s : Stats) : List (String × Nat) :=
  s.instructionCounts.mergeSort fun a b => b.2 < a.2 || (a.2 == b.2 && !(b.1 < a.1))

/-- The report, one line for each counter and at most ten instruction counts. -/
def report (s : Stats) : String :=
  let counter := fun (name : String) (value : Nat) => "  " ++ name ++ ": " ++ toString value
  let removed := if s.itemsRemoved = 0 then [] else [counter "Unreachable items removed" s.itemsRemoved]
  let instructions := if s.instructionCounts.isEmpty then []
    else "  Instruction breakdown:" ::
      (s.breakdown.take 10).map fun (name, count) => "    " ++ name ++ ": " ++ toString count
  let lines := ["Compilation Session Statistics:",
    counter "Functions compiled" s.functionsCompiled,
    counter "Items translated" s.itemsTranslated,
    counter "Instructions emitted" s.instructionsEmitted,
    counter "Total code size" s.totalCodeSize ++ " bytes",
    counter "Registers allocated" s.registersAllocated,
    counter "Spills" s.spills,
    counter "Loads" s.loads,
    counter "Exchanges" s.exchanges,
    counter "State restores" s.stateRestores,
    counter "Forward jumps resolved" s.forwardJumpsResolved] ++ removed ++ instructions
  String.join (lines.map (· ++ "\n"))

end Stats

end Codegen
