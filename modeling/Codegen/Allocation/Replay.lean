import Codegen.Allocation.Assign

/-! Taking snapshots of the allocator, adopting them, and emitting the code that leads from the
present state to a snapshot. -/
namespace Codegen

/-- The registers of a class, lowest first. -/
def RegClass.regs (c : RegClass) : List Reg := (List.range c.count).map fun i => ⟨c, i⟩

/-- All registers, by class and number. -/
def Reg.all : List Reg := RegClass.all.flatMap RegClass.regs

/-- Where the snapshot has a variable. -/
def Snapshot.stateOf (s : Snapshot) (v : VarId) : VarState :=
  if s.memVars.contains v then .memory
  else if s.regs.toList.any fun (_, w) => w == v then .register
  else .unused

namespace Session

/-- Does the register hold a value that its variable's home lacks? -/
def isDirty (s : Session) (r : Reg) : Bool :=
  match (s.ctx.registers.occupant r).bind s.vars.get? with
  | some v => v.changed
  | none => false

/-- The variables of a function that are in memory. -/
def memoryVars (s : Session) (f : FunctionId) : List VarId :=
  (s.vars.vars.toList.filter fun v => v.function == f && v.state == .memory).map (·.id)

/-- The present state of the allocator. -/
def snapshot (s : Session) (f : FunctionId) : Snapshot where
  regs := s.ctx.registers.banks
  changed :=
    let dirty := fun (c : RegClass) => RegMask.ofList ((c.regs.filter s.isDirty).map (·.index))
    ⟨dirty .gp, dirty .mm, dirty .xmm⟩
  memVars := s.memoryVars f

end Session

namespace Build

/-- The present state of the allocator, for the function being compiled. -/
def saveState : Build Snapshot := do
  let f ← compiling
  return (← get).snapshot f

/-- Forget where the variables of a function are. -/
def forgetVars (f : FunctionId) : Build Unit := do
  ((← get).vars.ofFunction f).forM fun id =>
    modifyVar id ({ · with state := .unused, reg := none, changed := false })

/-- Make a snapshot the present state without emitting code. -/
def assignState (state : Snapshot) : Build Unit := do
  let f ← compiling
  forgetVars f
  state.memVars.forM fun id => modifyVar id ({ · with state := .memory })
  modifyContext ({ · with registers := .load state.regs })
  Reg.all.forM fun r => do
    match state.occupant r with
    | some id =>
      modifyVar id ({ · with state := .register, reg := some r.index, changed := state.isChanged r })
    | none => pure ()

/-- Clear a register whose occupant the snapshot has elsewhere, and store an occupant whose home the
snapshot expects to be current. -/
def evictFor (state : Snapshot) (r : Reg) : Build Unit := do
  match (← get).ctx.registers.occupant r with
  | none => pure ()
  | some id =>
    if state.occupant r = some id then
      if (← getVar id).changed && !state.isChanged r then saveVar id
    else if state.stateOf id = .unused then unuseVar id .unused
    else spillVar id

/-- Fill a register that the snapshot expects to be occupied. -/
def fillFor (state : Snapshot) (r : Reg) : Build Unit := do
  match state.occupant r with
  | some id =>
    if (← get).ctx.registers.occupant r ≠ some id then allocVar id (.single r.index) .read
  | none => pure ()

/-- A variable that the snapshot does not have in a register is where the snapshot says. -/
def placeOutside (state : Snapshot) (id : VarId) : Build Unit := do
  let target := state.stateOf id
  if target ≠ .register then modifyVar id ({ · with state := target, reg := none, changed := false })

/-- Emit the code that leads from the present state to a snapshot: first every register that does
not match is cleared, then every register of the snapshot is filled. -/
def restoreState (state : Snapshot) : Build Unit := do
  let f ← compiling
  Reg.all.forM (evictFor state)
  Reg.all.forM (fillFor state)
  ((← get).vars.ofFunction f).forM (placeOutside state)
  modifyStats fun s => { s with stateRestores := s.stateRestores + 1 }

end Build

end Codegen
