import Codegen.Allocation.Generate

/-! Moving variables between registers and their homes. -/
namespace Codegen

/-- A variable that may be evicted from its register. -/
structure EvictionCandidate where
  var : VarId
  priority : Nat
  score : Int
  deriving DecidableEq, Repr

/-- Is `a` to be evicted rather than `b`? -/
def EvictionCandidate.beats (a b : EvictionCandidate) : Bool :=
  b.priority < a.priority || (a.priority == b.priority && b.score < a.score)

namespace Session

/-- How much speaks for evicting a variable: the distance to its last use and its accesses. -/
def evictionScore (s : Session) (v : Variable) : Int :=
  let current : Int := s.ctx.currentOffset
  let last : Int := match v.lastItem.bind s.items.offset? with
    | some offset => offset
    | none => current
  max (last - current) 0 + v.counts.score

/-- The variable in a register as a candidate. Operands of the current item and variables of
priority 0 stay. -/
def candidateAt (s : Session) (r : Reg) : Option EvictionCandidate := do
  let v ← s.vars.get? (← s.ctx.registers.occupant r)
  guard (v.workOffset ≠ some s.ctx.currentOffset && v.priority ≠ 0)
  return ⟨v.id, v.priority, s.evictionScore v⟩

/-- The variable to evict from a class, the one in the lowest register among equals. -/
def spillCandidate (s : Session) (cls : RegClass) : Option VarId :=
  let indices := ((s.ctx.registers.used cls).inter (s.ctx.allocable cls)).toList
  let candidates := indices.filterMap fun index => s.candidateAt ⟨cls, index⟩
  let best := candidates.foldl (fun best c =>
    match best with
    | none => some c
    | some b => if c.beats b then some c else some b) none
  best.map (·.var)

/-- Registers to try first for a variable: those that a call preserves when the variable is needed
behind a call, and the others when it is not. -/
def preferredRegs (s : Session) (v : Variable) : RegMask :=
  let preserved := s.ctx.preserved.get v.cls
  let offsetOf := fun i => (s.items.offset? i).getD 0
  let survivesCall : Bool := match s.ctx.isCaller, v.firstCall, v.lastItem with
    | true, some call, some last => decide (offsetOf call < offsetOf last)
    | _, _, _ => false
  if survivesCall then preserved else preserved.compl

end Session

namespace Build

/-- Note a write: the register is now newer than the home. -/
def noteAccess (id : VarId) (access : Access) : Build Unit :=
  if access.writes then modifyVar id ({ · with changed := true }) else pure ()

/-- Copy a variable into another register, if the access reads it. -/
def emitMove (id : VarId) (index : Nat) (access : Access) : Build Unit := do
  if access.reads then
    let v ← getVar id
    match v.reg with
    | some from_ => emitAll [⟨v.ty.moveOpcode, [v.regOperand index, v.regOperand from_]⟩]
    | none => usage .moveWithoutRegister

/-- Load a variable from its home. -/
def emitLoad (id : VarId) (index : Nat) : Build Unit := do
  let v ← getVar id
  let home ← homeOperand id
  emitAll [⟨v.ty.moveOpcode, [v.regOperand index, home]⟩]
  modifyStats fun s => { s with loads := s.loads + 1 }

/-- Store a variable to its home. It stays in its register. -/
def saveVar (id : VarId) : Build Unit := do
  let v ← getVar id
  match v.currentReg with
  | none => usage .saveWithoutRegister
  | some r =>
    let home ← homeOperand id
    emitAll [⟨v.ty.moveOpcode, [home, v.regOperand r.index]⟩]
    modifyVar id ({ · with changed := false })

/-- Let go of a variable's register without storing it, and put the variable into `state`. -/
def unuseVar (id : VarId) (state : VarState) : Build Unit := do
  match (← getVar id).currentReg with
  | some r => modifyContext fun c => { c with registers := c.registers.release r }
  | none => pure ()
  if state = .memory then ensureHome id
  modifyVar id ({ · with state, reg := none, changed := false })

/-- Move a variable from its register to its home. -/
def spillVar (id : VarId) : Build Unit := do
  let v ← getVar id
  if v.currentReg.isNone then usage (.spillWithoutRegister id)
  if v.changed then saveVar id
  unuseVar id .memory
  modifyStats fun s => { s with spills := s.spills + 1 }

/-- Record that a variable now has the register with this number. -/
def settleIn (id : VarId) (r : Reg) : Build Unit := do
  modifyVar id ({ · with reg := some r.index, homeReg := some r.index })
  modifyContext fun c => { c with registers := c.registers.assign r id }

/-- Move a variable to the register `index`, whose occupant `other` takes the old one. The occupant
is only copied when the variable is about to be overwritten. -/
def exchangeVar (id : VarId) (index : Nat) (access : Access) (other : Option VarId) : Build Unit := do
  let v ← getVar id
  match v.reg with
  | none => usage .exchangeWithoutRegister
  | some oldIndex =>
    let old : Reg := ⟨v.cls, oldIndex⟩
    let new : Reg := ⟨v.cls, index⟩
    match other with
    | none =>
      emitMove id index access
      modifyContext fun c => { c with registers := c.registers.release old }
    | some other =>
      if access = .write then emitMove other oldIndex .read
      else emitSwap v.cls (v.regOperand oldIndex) (v.regOperand index) oldIndex index
      settleIn other old
    settleIn id new
    markModified new
    markModified old
    modifyStats fun s => { s with exchanges := s.exchanges + 1 }

/-- Move an operand of the current item out of the registers in `avoid`, to its home if no other
register is free. -/
def relocateVar (id : VarId) (avoid : RegMask) : Build Unit := do
  let cls := (← getVar id).cls
  let ctx := (← get).ctx
  match (((ctx.freeRegs cls).diff (ctx.reserved.get cls)).diff avoid).first? with
  | some index => exchangeVar id index .read none
  | none => spillVar id

/-- The lowest register of `mask` that is used, which must then make room. -/
def firstUsed (mask used : RegMask) : Build Nat := do
  match (mask.inter used).first? with
  | some index => return index
  | none => throw .notEnoughRegisters

/-- A register of `mask` for a variable that is in none, with its occupant moved out of the way. -/
def vacateWithin (cls : RegClass) (mask preferred : RegMask) : Build Nat := do
  let ctx := (← get).ctx
  let used := ctx.registers.used cls
  match (mask.diff used).firstPreferred? preferred with
  | some index => return index
  | none =>
    let index ← firstUsed mask used
    match ctx.registers.occupant ⟨cls, index⟩ with
    | some other =>
      if (← getVar other).workOffset = some ctx.currentOffset then relocateVar other mask
      else spillVar other
    | none => pure ()
    return index

/-- Any register for a variable that is in none: its former register, a free one (the accumulator
last), or one that is made free by an eviction. -/
def vacateAny (v : Variable) (preferred : RegMask) : Build Nat := do
  let s ← get
  let free := s.ctx.freeRegs v.cls
  match v.homeReg.filter free.contains with
  | some home => return home
  | none =>
    let scan := if v.cls = .gp then free.erase Gp.rax else free
    match scan.firstPreferred? preferred with
    | some index => return index
    | none =>
      if free.contains 0 then return 0
      match s.spillCandidate v.cls with
      | none => throw .notEnoughRegisters
      | some candidate =>
        match (← getVar candidate).reg with
        | none => usage .candidateWithoutRegister
        | some index =>
          spillVar candidate
          return index

/-- Bring a variable into a register of `mask`, or into any register when `mask` is empty. -/
def allocVar (id : VarId) (mask : RegMask) (access : Access) : Build Unit := do
  let v ← getVar id
  let s ← get
  let allocable := s.ctx.allocable v.cls
  let restricted := !mask.isEmpty
  let mask := if restricted then mask.inter allocable else allocable
  if mask.isEmpty then usage (.noAllocableRegister id)
  let preferred := s.preferredRegs v
  match v.currentReg with
  | some r =>
    if !mask.contains r.index then
      let used := s.ctx.registers.used v.cls
      let index ← match (mask.diff used).firstPreferred? preferred with
        | some index => pure index
        | none => firstUsed mask used
      exchangeVar id index access (s.ctx.registers.occupant ⟨v.cls, index⟩)
    noteAccess id access
  | none =>
    let index ← if restricted then vacateWithin v.cls mask preferred else vacateAny v preferred
    if v.state = .memory && access.reads then emitLoad id index
    let r : Reg := ⟨v.cls, index⟩
    modifyVar id ({ · with state := .register })
    settleIn id r
    markModified r
    modifyStats fun s => { s with registersAllocated := s.registersAllocated + 1 }
    noteAccess id access

/-- Retire a variable at its last item. Its slot can only be reused when no jump is pending, because
a pending jump may still need it. -/
def retireAt (item : ItemId) (id : VarId) : Build Unit := do
  if (← getVar id).lastItem = some item then
    unuseVar id .unused
    modify fun s => { s with vars := s.vars.deactivate id }
    let ctx := (← get).ctx
    if ctx.forwardJumps.isEmpty && ctx.backwardPos == ctx.backwardCode.size then
      let v ← getVar id
      match v.isMemArgument, v.homeSlot with
      | false, some slot =>
        modifyVar id ({ · with homeSlot := none })
        modifyContext fun c => { c with slots := c.slots.release slot }
      | _, _ => pure ()

/-- Retire every active variable whose last item this is. -/
def retireActiveAt (item : ItemId) : Build Unit := do (← get).vars.active.forM (retireAt item)

end Build

end Codegen
