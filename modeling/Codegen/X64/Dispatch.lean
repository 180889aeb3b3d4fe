import Codegen.X64.Argument

/-! Calling the assembler. Every opcode has a table of the operands that it is taken with, and the operands are
handed on in the form that the assembler has for them. -/
namespace Codegen.X64

/-- What an operand is, apart from its value. -/
inductive Kind where
  | gp (width : Width)
  | xmm
  | mm
  | mem
  | imm
  | label
  deriving DecidableEq, Repr

def Arg.kind : Arg ι → Kind
  | gp width _ => .gp width
  | xmm _ => .xmm
  | mm _ => .mm
  | mem _ => .mem
  | imm _ => .imm
  | label _ => .label

/-- Operands that are taken together. -/
abbrev Shapes := List (List Kind)

namespace Shapes

def perWidth (f : Width → Shapes) : Shapes := [.w64, .w32, .w16, .w8].flatMap f

def immediates : Shapes := [.mem, .imm] :: perWidth fun w => [[.gp w, .imm]]

/-- Two integers of one width, at most one of them in memory. -/
def integers : Shapes := perWidth fun w => [[.gp w, .gp w], [.gp w, .mem], [.mem, .gp w]]

def unary : Shapes := [.mem] :: perWidth fun w => [[.gp w]]

/-- The count of a shift is a constant or a byte register. -/
def shift : Shapes := immediates ++ [.mem, .gp .w8] :: perWidth fun w => [[.gp w, .gp .w8]]

def product : Shapes :=
  [[.gp .w16, .gp .w16]] ++ [Width.w64, .w32].flatMap fun w =>
    [[.gp w, .gp w], [.gp w, .mem], [.gp w, .imm], [.gp w, .gp w, .imm], [.gp w, .mem, .imm]]

def test : Shapes := [[.gp .w64, .imm], [.gp .w32, .imm], [.mem, .imm]] ++ integers

/-- A jump or call. -/
def transfer : Shapes := [[.label], [.gp .w64], [.mem], [.imm]]

def sse : Shapes := [[.xmm, .xmm], [.xmm, .mem]]

/-- Vector moves also store. -/
def sseMove : Shapes := [.mem, .xmm] :: sse

/-- Integer operations on the registers of both vector classes. -/
def packed : Shapes := [.mm, .mm] :: [.mm, .mem] :: sse

def intToFloat : Shapes := [[.xmm, .gp .w64], [.xmm, .gp .w32], [.xmm, .mem]]

def floatToInt : Shapes := [[.gp .w64, .xmm], [.gp .w32, .xmm], [.gp .w64, .mem], [.gp .w32, .mem]]

/-- Moves between an integer register of a width, memory and a vector register. -/
def exchange (w : Width) : Shapes :=
  [Kind.xmm, .mm].flatMap fun v => [[v, .gp w], [.gp w, v], [v, .mem], [.mem, v]]

end Shapes

open Shapes

/-- The operands that an opcode is taken with. Some opcodes ignore their operands. -/
def shapesOf : Opcode → Option Shapes
  | .nop | .cpuid | .rdtsc | .repMovsb | .repStosb | .leave | .emms | .sfence | .lfence | .mfence => none
  | .mov | .add | .sub | .adc | .sbb | .and | .or | .xor | .cmp => some (immediates ++ integers)
  | .test => some test
  | .xchg => some integers
  | .imul => some product
  | .imulWide | .mul | .div | .idiv | .neg | .not | .inc | .dec => some unary
  | .shl | .shr | .sar | .rol | .ror => some shift
  | .lea => some [[.gp .w64, .mem], [.gp .w32, .mem]]
  | .push => some [[.gp .w64], [.mem], [.imm]]
  | .pop => some [[.gp .w64], [.mem]]
  | .jmp | .call => some transfer
  | .jcc _ => some [[.label]]
  | .ret => some [[], [.imm]]
  | .movd => some (exchange .w32)
  | .movq => some ([.xmm, .xmm] :: [.mm, .mm] :: exchange .w64)
  | .movss | .movsd | .movups | .movupd | .movaps | .movapd | .movdqa | .movdqu => some sseMove
  | .pxor | .paddd | .paddq | .psubd | .psubq => some packed
  | .cvtsi2sd | .cvtsi2ss => some intToFloat
  | .cvttsd2si => some floatToInt
  | _ => some sse

def unsupported {α : Type} : Except EncodingError α := .error .unsupportedInstruction

/-- A 32-bit immediate. Values of the unsigned range stand for the same bits as signed ones. -/
def imm32 (v : Int) : Except EncodingError Int :=
  if -2147483648 ≤ v ∧ v ≤ 2147483647 then .ok v
  else if 0 ≤ v ∧ v ≤ 4294967295 then .ok (v - 4294967296)
  else unsupported

def Arg.narrow : Arg ι → Except EncodingError (Arg ι)
  | imm v => do return imm (← imm32 v)
  | arg => .ok arg

/-- The operands as they are handed on. Only a move into a 64-bit register and a branch have room for more than 32 bits.
Memory comes first where the order does not matter. -/
def handOn : Opcode → List (Arg ι) → Except EncodingError (List (Arg ι))
  | .mov, [.gp .w64 d, .imm v] => .ok [.gp .w64 d, .imm v]
  | .jmp, [.imm v] | .call, [.imm v] => .ok [.imm (v % 18446744073709551616)]
  | .imul, [d, .imm v] => do return [d, d, .imm (← imm32 v)]
  | .test, [.gp w s, .mem a] | .xchg, [.gp w s, .mem a] => .ok [.mem a, .gp w s]
  | _, args => args.mapM Arg.narrow

/-- The operands that the assembler is called with. -/
def dispatch (op : Opcode) (args : List (Arg ι)) : Except EncodingError (List (Arg ι)) :=
  match shapesOf op with
  | none => .ok []
  | some shapes => if args.map Arg.kind ∈ shapes then handOn op args else unsupported

end Codegen.X64
