import Codegen.Lowering.Operand

/-! Returning values from a function. -/
namespace Codegen

/-- Is the exit reached from here by falling through items without code? -/
def ItemSeq.fallsThroughTo (s : ItemSeq) (exit : ItemId) : List ItemId → Bool
  | [] => false
  | id :: rest =>
    if id = exit then true
    else match s.get? id with
      | some item => item.kind.isTransparent && s.fallsThroughTo exit rest
      | none => false

/-- The instruction that moves a value of type `source` into a register for a result of type `ty`,
and whether it also converts the value between float widths. -/
def returnMove (source ty : VarType) : Opcode × Bool :=
  match source, ty with
  | .xmmSingle, .xmmDouble => (.cvtss2sd, true)
  | .xmmDouble, .xmmSingle => (.cvtsd2ss, true)
  | _, _ => (source.moveOpcode, false)

/-- The instruction that copies a whole register of a class, and the width of its operands. -/
def RegClass.copyOpcode : RegClass → Opcode × Nat
  | .gp => (.mov, 8)
  | .mm => (.movq, 8)
  | .xmm => (.movaps, 16)

namespace Build

/-- Copy one register into another of the same class. -/
def emitRegCopy (dst src : Reg) : Build Unit := do
  if dst.cls ≠ src.cls then usage (.cannotCopy src dst)
  let (opcode, size) := dst.cls.copyOpcode
  emitAll [⟨opcode, [.ofReg dst size, .ofReg src size]⟩]
  markModified dst

/-- The register that an operand is in. -/
def operandReg : Operand → Build (Option Reg)
  | .var v => do return (← getVar v.id).currentReg
  | .reg r => return some r.reg
  | _ => return none

/-- Move a variable into the register of a result. -/
def emitReturnVar (v : Variable) (ty : VarType) (r : Reg) : Build Unit := do
  if v.cls ≠ r.cls then usage (.notReturnableIn v.id r)
  let (opcode, converts) := returnMove v.ty ty
  let dst : Operand := .ofReg r v.ty.regSize
  match v.currentReg with
  | some current =>
    if current.index ≠ r.index || converts then emitAll [⟨opcode, [dst, v.regOperand current.index]⟩]
  | none =>
    if v.state = .memory then
      let home ← homeOperand v.id
      emitAll [⟨opcode, [dst, home]⟩]

/-- Move one returned value into its register. -/
def emitReturnValue (operand : Operand) (ret : VarType × Reg) : Build Unit := do
  let (ty, r) := ret
  markModified r
  match operand with
  | .var v => emitReturnVar (← getVar v.id) ty r
  | .imm value =>
    if r.cls ≠ .gp then usage .immediateReturnNeedsGp
    emitAll [⟨.mov, [.gpq r.index, .imm value]⟩]
  | .reg src => if src.reg ≠ r then emitRegCopy r src.reg
  | .mem _ => throw (.unsupported .returnValue)
  | .label _ => throw (.unsupported .returnValue)

/-- Move two returned values, swapping them or taking the second first when it stands in the way of
the first. -/
def emitReturnPair (first second : Operand) (ret₁ ret₂ : VarType × Reg) : Build Unit := do
  let at₁ ← operandReg first
  let at₂ ← operandReg second
  if at₁ = some ret₂.2 && at₂ = some ret₁.2 && ret₁.2.cls = .gp then
    emitAll [⟨.xchg, [.gpq ret₁.2.index, .gpq ret₂.2.index]⟩]
  else if at₂ = some ret₁.2 then
    emitReturnValue second ret₂
    emitReturnValue first ret₁
  else
    emitReturnValue first ret₁
    emitReturnValue second ret₂

/-- Move the returned values into the registers of the results. -/
def emitReturnValues : List Operand → List (VarType × Reg) → Build Unit
  | [first, second], ret₁ :: ret₂ :: _ => emitReturnPair first second ret₁ ret₂
  | [operand], ret :: _ => emitReturnValue operand ret
  | _, _ => pure ()

def translateReturn (id : ItemId) (r : ReturnItem) : Build (Option ItemId) := do
  let returns ← (← get).returnsOf r.function
  if returns.length < r.operands.length then
    usage (.functionReturnCount returns.length r.operands.length)
  emitReturnValues r.operands returns
  let exit ← labelTarget (← getFunction r.function).exitLabel
  let items := (← get).items
  let emitJump := !items.fallsThroughTo exit (items.suffixFrom id).tail
  setKind id (.ret { r with emitJump })
  if emitJump then modifyContext ({ · with unreachable := true })
  retireActiveAt id
  return (← get).items.next? id

end Build

end Codegen
