import Codegen.Lowering.Operand

/-! Lowering of plain instructions and of allocator directives. -/
namespace Codegen.Build

/-- Mark a variable as an operand of the current item, which protects it from eviction. -/
def claimVar (id : VarId) : Build Unit := do
  let offset := (← get).ctx.currentOffset
  modifyVar id ({ · with workOffset := some offset })

/-- Keep relocations out of a register that the current instruction needs. -/
def reserve (r : AllocRecord) : Build Unit := do
  match r.fixed with
  | some fixed =>
    let cls := (← getVar r.var).cls
    modifyContext fun c => { c with reserved := c.reserved.modify cls (·.insert fixed) }
  | none => pure ()

/-- Bring every variable of the records into a register, those with fixed registers first. -/
def allocRecords (records : List AllocRecord) : Build Unit := do
  records.forM fun r => claimVar r.var
  records.forM reserve
  records.forM fun r =>
    match r.fixed with
    | some fixed => allocVar r.var (.single fixed) r.access
    | none => pure ()
  modifyContext ({ · with reserved := .all .empty })
  records.forM fun r =>
    match r.fixed with
    | some _ => pure ()
    | none => allocVar r.var .empty r.access

/-- Make the home of a variable current and move the variable there. -/
def moveHome (id : VarId) : Build Unit := do
  let v ← getVar id
  match v.state with
  | .register =>
    if v.changed then saveVar id
    unuseVar id .memory
  | .unused => unuseVar id .memory
  | .memory => pure ()

def translateInstruction (id : ItemId) (i : InstructionItem) : Build (Option ItemId) := do
  allocRecords i.records
  i.memVars.forM moveHome
  let operands ← i.operands.mapM resolveOperand
  setKind id (.instruction { i with operands })
  i.records.forM fun r => retireAt id r.var
  i.memVars.forM (retireAt id)
  return (← get).items.next? id

/-- Carry out a directive. -/
def applyDirective (h : HintItem) : Build Unit := do
  let v ← getVar h.var
  let dirty := v.currentReg.isSome && v.changed
  match h.directive with
  | .alloc =>
    let mask := match h.reg with
      | some index => .single index
      | none => .empty
    allocVar h.var mask .read
  | .spill => if v.currentReg.isSome then spillVar h.var
  | .save => if dirty then saveVar h.var
  | .saveAndUnuse =>
    if dirty then saveVar h.var
    if v.state ≠ .unused then unuseVar h.var .memory
  | .unuse => unuseVar h.var .unused

def translateHint (id : ItemId) (h : HintItem) : Build (Option ItemId) := do
  applyDirective h
  retireAt id h.var
  return (← get).items.next? id

/-- Put the arguments of a function where the convention passes them. -/
def receiveArg (id : VarId) : Build Unit := do
  let v ← getVar id
  if v.isRegArgument then
    match v.homeReg with
    | none => usage .argumentWithoutRegister
    | some index =>
      modifyVar id ({ · with state := .register, reg := some index, changed := true })
      modifyContext fun c => { c with registers := c.registers.assign ⟨v.cls, index⟩ id }
  else modifyVar id ({ · with state := .memory })

def translateFunction (id : ItemId) (f : FunctionId) : Build (Option ItemId) := do
  let args := (← getFunction f).args
  args.forM receiveArg
  args.forM (retireAt id)
  return (← get).items.next? id

end Codegen.Build
