import Codegen.Frame.Layout
import Codegen.Instruction.Operand

/-! The instructions that enter and leave a frame. -/
namespace Codegen

/-- An instruction with its operands. -/
structure Instruction where
  opcode : Opcode
  operands : List Operand
  deriving DecidableEq, Repr

namespace FrameLayout

/-- One place of the register save area: its offset from the stack pointer, the instruction that
moves the register, the width, and the register. -/
structure SavePlace where
  offset : Int
  move : Opcode
  size : Nat
  reg : Reg
  deriving DecidableEq, Repr

/-- Consecutive places for the registers of one class. -/
def placesFrom (offset : Int) (move : Opcode) (size : Nat) (cls : RegClass) : List Nat → List SavePlace
  | [] => []
  | index :: rest =>
    ⟨offset, move, size, ⟨cls, index⟩⟩ :: placesFrom (offset + size) move size cls rest

/-- The save area: vector registers first, then the general purpose registers unless they are
pushed. -/
def savePlaces (f : FrameLayout) : List SavePlace :=
  let xmm := f.saved.xmm.toList
  let mm := f.saved.mm.toList
  let gp := if f.pushPop then [] else f.saved.gp.toList
  let atMm := f.saveAreaStart + 16 * xmm.length
  let atGp := atMm + 8 * mm.length
  placesFrom f.saveAreaStart f.xmmMove 16 .xmm xmm ++
    (placesFrom atMm .movq 8 .mm mm ++ placesFrom atGp .mov 8 .gp gp)

/-- Registers that are pushed, first pushed first. -/
def pushed (f : FrameLayout) : List Nat := if f.pushPop then f.saved.gp.toList else []

def SavePlace.memory (p : SavePlace) : Operand := .mem (.atReg (.gp Gp.rsp) p.offset p.size)

def SavePlace.register (p : SavePlace) : Operand := .ofReg p.reg p.size

def SavePlace.store (p : SavePlace) : Instruction := ⟨p.move, [p.memory, p.register]⟩

def SavePlace.load (p : SavePlace) : Instruction := ⟨p.move, [p.register, p.memory]⟩

/-- A naked frame cannot align the stack. -/
def feasible (f : FrameLayout) : Bool := !(f.naked && f.alignedByFunction)

/-- Moves the stack pointer by the size of the frame, when the frame moves it at all. -/
def adjustment (f : FrameLayout) (op : Opcode) : List Instruction :=
  if f.adjusted && f.stackSubtract != 0 then
    [⟨op, [.gpq Gp.rsp, .imm f.stackSubtract]⟩]
  else []

def prologue (f : FrameLayout) : List Instruction :=
  (if f.naked then []
    else [⟨.push, [.gpq Gp.rbp]⟩, ⟨.mov, [.gpq Gp.rbp, .gpq Gp.rsp]⟩]) ++
  (if f.alignedByFunction then [⟨.and, [.gpq Gp.rsp, .imm (-16)]⟩] else []) ++
  f.pushed.map (fun index => ⟨.push, [.gpq index]⟩) ++
  f.adjustment .sub ++
  f.savePlaces.map (·.store)

/-- The fence on leaving the function. -/
def fence (f : FrameLayout) : List Instruction :=
  match f.sfence, f.lfence with
  | true, true => [⟨.mfence, []⟩]
  | true, false => [⟨.sfence, []⟩]
  | false, true => [⟨.lfence, []⟩]
  | false, false => []

def epilogue (f : FrameLayout) : List Instruction :=
  f.savePlaces.map (·.load) ++
  f.adjustment .add ++
  f.pushed.reverse.map (fun index => ⟨.pop, [.gpq index]⟩) ++
  (if f.emms then [⟨.emms, []⟩] else []) ++
  f.fence ++
  (if f.naked then []
    else if f.useLeave then [⟨.leave, []⟩]
    else [⟨.mov, [.gpq Gp.rsp, .gpq Gp.rbp]⟩, ⟨.pop, [.gpq Gp.rbp]⟩]) ++
  [⟨.ret, if f.retPop = 0 then [] else [.imm f.retPop]⟩]

end FrameLayout

end Codegen
