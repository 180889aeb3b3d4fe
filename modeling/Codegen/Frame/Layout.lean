import Codegen.Frame.Displacement
import Codegen.Frame.Slots
import Codegen.Instruction.Opcode
import Codegen.Register.Mask

/-! The geometry of a stack frame. Upwards from the stack pointer an adjusted frame holds the
outgoing call arguments, the spill slots, the saved registers, padding, the pushed registers, the
saved base pointer and the return address. Sizes are words of 32 bits, which is what the numbers here stand for as long
as the frame is smaller than 2³¹ bytes. -/
namespace Codegen

/-- Maker of the processor, which decides between two equivalent ways to leave a frame. -/
inductive CpuVendor where
  | intel
  | amd
  | unknown
  deriving DecidableEq, Repr

/-- Wishes about the frame of one function. -/
structure FunctionHints where
  /-- No base pointer frame. -/
  naked : Bool := false
  /-- Preserve general purpose registers by pushing instead of storing them. -/
  pushPop : Bool := false
  emms : Bool := false
  sfence : Bool := false
  lfence : Bool := false
  mfence : Bool := false
  deriving DecidableEq, Repr

/-- What the geometry depends on. -/
structure FrameInput where
  hints : FunctionHints := {}
  isCaller : Bool := false
  stackAlignedByOs : Bool := false
  modified : PerClass RegMask := .all .empty
  preserved : PerClass RegMask := .all .empty
  callStackSize : Nat := 0
  /-- Extent of the spill slots. -/
  memBytes : Nat := 0
  /-- Number of 16-byte spill slots. -/
  mem16Count : Nat := 0
  /-- Number of 8-byte spill slots. -/
  mem8Count : Nat := 0
  /-- Bytes below the stack pointer that may be used without moving it. -/
  redZoneSize : Nat := 0
  calleePopsStack : Bool := false
  argsStackSize : Nat := 0
  cpuVendor : CpuVendor := .unknown
  deriving DecidableEq, Repr

/-- The geometry of a frame. -/
structure FrameLayout where
  naked : Bool
  pushPop : Bool
  /-- The prologue moves the stack pointer. -/
  adjusted : Bool
  alignedByFunction : Bool
  /-- Registers to preserve: modified here, and promised to the caller. -/
  saved : PerClass RegMask
  pushPopSize : Nat
  movSize : Nat
  adjustSize : Nat
  /-- Spill area, rounded to 16 bytes. -/
  memSize16 : Nat
  callStackSize : Nat
  argsBase : Reg
  argsBaseOffset : Int
  varsBase : Reg
  varsBaseOffset : Int
  /-- The move that saves vector registers, aligned where the save area is known to be. -/
  xmmMove : Opcode
  emms : Bool
  sfence : Bool
  lfence : Bool
  /-- Bytes of arguments that the return pops. -/
  retPop : Nat
  useLeave : Bool
  deriving DecidableEq, Repr

namespace FrameInput

/-- Slots of 8 and 16 bytes need an aligned stack, which the function must provide itself when the
caller does not. -/
def alignedByFunction (i : FrameInput) : Bool :=
  !i.stackAlignedByOs && decide (0 < i.mem16Count + i.mem8Count)

/-- The registers to preserve. The stack pointer never counts, and the base pointer only in a naked
function, because otherwise the frame itself saves it. -/
def saved (i : FrameInput) : PerClass RegMask :=
  let gp := (i.modified.gp.inter i.preserved.gp).erase Gp.rsp
  { gp := if i.hints.naked then gp else gp.erase Gp.rbp
    mm := i.modified.mm.inter i.preserved.mm
    xmm := i.modified.xmm.inter i.preserved.xmm }

/-- Bytes that pushes take. -/
def pushPopSize (i : FrameInput) : Nat := if i.hints.pushPop then i.saved.gp.count * 8 else 0

/-- Bytes of the register save area. -/
def movSize (i : FrameInput) : Nat :=
  let gp := if i.hints.pushPop then 0 else i.saved.gp.count * 8
  i.saved.xmm.count * 16 + alignUp16 (i.saved.mm.count * 8 + gp)

/-- Padding that makes the stack pointer a multiple of 16 below the pushed registers. -/
def adjustSize (i : FrameInput) : Nat :=
  if i.alignedByFunction then alignUp16 i.pushPopSize - i.pushPopSize
  else
    let above := (if i.hints.naked then 8 else 16) + i.pushPopSize
    (16 - above % 16) % 16

def memSize16 (i : FrameInput) : Nat := alignUp16 i.memBytes

/-- Must the prologue move the stack pointer? Callers must, and so must frames that align
themselves or that do not fit into the red zone. -/
def adjusted (i : FrameInput) : Bool :=
  i.isCaller || i.alignedByFunction ||
    decide (i.redZoneSize < i.memSize16 + i.movSize + i.adjustSize)

/-- The geometry for this input. -/
def layout (i : FrameInput) : FrameLayout where
  naked := i.hints.naked
  pushPop := i.hints.pushPop
  adjusted := i.adjusted
  alignedByFunction := i.alignedByFunction
  saved := i.saved
  pushPopSize := i.pushPopSize
  movSize := i.movSize
  adjustSize := i.adjustSize
  memSize16 := i.memSize16
  callStackSize := i.callStackSize
  argsBase := .gp (if i.hints.naked then Gp.rsp else Gp.rbp)
  argsBaseOffset :=
    if !i.hints.naked then 8
    else if i.adjusted then
      displacement (i.callStackSize + i.memSize16 + i.movSize + i.pushPopSize + i.adjustSize)
    else displacement i.pushPopSize
  varsBase := .gp Gp.rsp
  varsBaseOffset :=
    if i.adjusted then displacement i.callStackSize
    else -displacement (i.memSize16 + i.movSize + i.adjustSize)
  xmmMove := if i.stackAlignedByOs || !i.hints.naked then .movdqa else .movdqu
  emms := i.hints.emms
  sfence := i.hints.sfence || i.hints.mfence
  lfence := i.hints.lfence || i.hints.mfence
  retPop := if i.calleePopsStack then i.argsStackSize else 0
  useLeave := i.cpuVendor == .amd

/-- The frame has fewer bytes than a displacement can tell apart. -/
def Small (i : FrameInput) : Prop := i.callStackSize + i.memSize16 + i.movSize + i.adjustSize + i.pushPopSize < 2147483648

instance (i : FrameInput) : Decidable i.Small := inferInstanceAs (Decidable (_ < _))

end FrameInput

namespace FrameLayout

/-- Bytes that an adjusting prologue subtracts from the stack pointer. -/
def stackSubtract (f : FrameLayout) : Nat :=
  f.callStackSize + f.memSize16 + f.movSize + f.adjustSize

/-- Bytes between the caller's stack pointer before its call and the stack pointer in the body. -/
def frameSize (f : FrameLayout) : Nat :=
  8 + f.pushPopSize + (if f.naked then 0 else 8) + if f.adjusted then f.stackSubtract else 0

/-- Offset of the register save area from the stack pointer. -/
def saveAreaStart (f : FrameLayout) : Int :=
  if f.adjusted then displacement (f.callStackSize + f.memSize16)
  else -displacement (f.movSize + f.adjustSize)

end FrameLayout

end Codegen
