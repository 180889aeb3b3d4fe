import Codegen.Session.Basic

/-! Code that the compiler itself puts into a program, and the homes of variables. -/
namespace Codegen.Build

/-- Put an instruction behind the cursor. While a function is translated, such instructions take
the current offset and count as translated. -/
def emitGenerated (opcode : Opcode) (operands : List Operand) : Build ItemId := do
  let id ← create (.instruction { opcode, operands })
  insert id
  let ctx := (← get).ctx
  if ctx.active then
    modifyItem id ({ · with offset := some ctx.currentOffset, translated := true })
  return id

def emitAll (code : List Instruction) : Build Unit :=
  code.forM fun i => do let _ ← emitGenerated i.opcode i.operands

/-- Put a comment behind the cursor. -/
def emitComment (text : String) : Build Unit := do
  let id ← create (.comment text)
  insert id

/-- The home of a variable. A stack argument lives where it was passed; any other variable gets a
spill slot when it first needs one. -/
def resolveHome (id : VarId) : Build Home := do
  let v ← getVar id
  match v.passing, v.homeSlot with
  | .onStack offset, _ => return .argument offset
  | _, some slot => return .slot slot
  | _, none =>
    let (slot, slots) := (← get).ctx.slots.acquire v.size
    modifyContext ({ · with slots })
    modifyVar id ({ · with homeSlot := some slot })
    return .slot slot

def ensureHome (id : VarId) : Build Unit := do let _ ← resolveHome id

/-- The operand for the home of a variable. -/
def homeOperand (id : VarId) : Build Operand := do
  let home ← resolveHome id
  return .mem (.atHome home (← getVar id).size)

def markModified (r : Reg) : Build Unit := modifyContext (·.markModified r)

/-- Exchange two general purpose registers, or two vector registers by three exclusive ors. -/
def emitSwap (cls : RegClass) (a b : Operand) (indexA indexB : Nat) : Build Unit :=
  match cls with
  | .gp => emitAll [⟨.xchg, [.gpq indexA, .gpq indexB]⟩]
  | _ => emitAll [⟨.pxor, [a, b]⟩, ⟨.pxor, [b, a]⟩, ⟨.pxor, [a, b]⟩]

end Codegen.Build
