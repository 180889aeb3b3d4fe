import Codegen.Allocation.Replay
import Codegen.Lowering.Operand

/-! Jumps and targets. Every way into a target must arrive in the state that the target was first
translated in; where it does not, reconciliation code is emitted. -/
namespace Codegen.Build

/-- Fix the state that jumps to a target must establish. -/
def setTargetState (id : ItemId) (state : Snapshot) : Build Unit := do
  match (← getItem id).kind with
  | .target t => setKind id (.target { t with state := some state })
  | _ => usage .labelWithoutTarget

/-- Does the target stand in front of the jump? -/
def isBackward (target jump : ItemId) : Build Bool := do
  let items := (← get).items
  match items.offset? target, items.offset? jump with
  | some t, some j => return decide (t < j)
  | _, _ => return false

/-- Emit reconciliation code in a block behind the function and send the jump there. Without any
such code the jump stays as it is. Afterwards the allocator is in the jump's own state. -/
def reconcileOutOfLine (id : ItemId) (j : JumpItem) (state : Snapshot) : Build Unit := do
  match (← get).ctx.extraBlock with
  | none => usage .noReconciliationBlock
  | some extra =>
    let cursor := (← get).items.cursor
    setCursor (some extra)
    restoreState state
    if (← get).items.cursor ≠ some extra then
      emitAll [⟨.jmp, [.label j.target]⟩]
      let blockEnd := (← get).items.cursor
      let label ← createLabel
      let labelItem ← labelTarget label
      insertAfter labelItem extra
      let offset := (← get).ctx.currentOffset
      modifyItem labelItem ({ · with offset := some offset, translated := true })
      setKind id (.jump { j with target := label })
      modifyContext ({ · with extraBlock := blockEnd })
    setCursor cursor
    match j.state with
    | some own => assignState own
    | none => usage .jumpWithoutState

/-- Reconcile the present state with that of a translated target. Unconditional jumps and jumps back
that are expected to be taken are reconciled in place. -/
def doJump (id : ItemId) : Build Unit := do
  match (← getItem id).kind with
  | .jump j =>
    let target ← labelTarget j.target
    match (← getItem target).kind with
    | .target t =>
      match t.state with
      | none => usage .targetWithoutState
      | some state =>
        if j.opcode = .jmp || (j.taken && (← isBackward target id)) then restoreState state
        else reconcileOutOfLine id j state
    | _ => usage .labelWithoutTarget
  | _ => usage .notAJump

/-- Leave a jump for later. The first jump to a target that is left gives the target its state. -/
def awaitTarget (id target : ItemId) (kind : ItemKind) (state : Snapshot) : Build Unit := do
  modifyContext fun c => { c with forwardJumps := c.forwardJumps ++ [⟨id, state⟩] }
  match kind with
  | .target { state := none, .. } => setTargetState target state
  | _ => pure ()

/-- Translate a jump. An unconditional jump to code that is not translated yet is followed at once;
the code behind it comes later. -/
def translateJump (id : ItemId) (j : JumpItem) : Build (Option ItemId) := do
  let target ← labelTarget j.target
  let targetItem ← getItem target
  if !(← get).items.isLinked target then usage (.targetRemoved j.target)
  if j.opcode = .jmp && !targetItem.translated then
    modifyContext fun c => { c with backwardCode := c.backwardCode.push id }
    return some target
  let state ← saveState
  setKind id (.jump { j with state := some state })
  if targetItem.translated then doJump id
  else awaitTarget id target targetItem.kind state
  if j.opcode = .jmp then modifyContext ({ · with unreachable := true })
  retireActiveAt id
  return (← get).items.next? id

/-- Take items out of the program up to the next target or the end of the function, and return
where that is. The first item goes in any case, unless it ends a function. -/
def removeUntilTarget (start : ItemId) : List ItemId → Build (Option ItemId)
  | [] => return none
  | id :: rest => do
    let kind := (← getItem id).kind
    if (id ≠ start && kind.isTarget) || kind.isFunctionEnd then return some id
    unlink id
    modifyItem id ({ · with unreachable := true })
    modifyStats fun s => { s with itemsRemoved := s.itemsRemoved + 1 }
    removeUntilTarget start rest

/-- Drop the code from a target that nothing leads to. -/
def removeUnreachable (id : ItemId) : Build (Option ItemId) := do
  removeUntilTarget id ((← get).items.suffixFrom id)

/-- Translate a target. On arriving a second time, the state of the first time is established. -/
def translateTarget (id : ItemId) (t : TargetItem) (translated : Bool) : Build (Option ItemId) := do
  if translated then
    match t.state with
    | none => usage .translatedTargetWithoutState
    | some state =>
      restoreState state
      return none
  if (← get).ctx.unreachable then
    match t.state with
    | none => removeUnreachable id
    | some state =>
      modifyContext ({ · with unreachable := false })
      assignState state
      return (← get).items.next? id
  else
    setTargetState id (← saveState)
    return (← get).items.next? id

end Codegen.Build
