import Codegen.Lowering.Call
import Codegen.Lowering.Jump

/-! Translating one item and finding the item to go on with. -/
namespace Codegen.Build

def translateKind (id : ItemId) (item : Item) : Build (Option ItemId) :=
  match item.kind with
  | .instruction i => translateInstruction id i
  | .jump j => translateJump id j
  | .target t => translateTarget id t item.translated
  | .function f => translateFunction id f
  | .ret r => translateReturn id r
  | .call c => translateCall id c
  | .hint h => translateHint id h
  | .functionEnd _ => return none
  | .align _ => do return (← get).items.next? id
  | .comment _ => do return (← get).items.next? id
  | .data _ => do return (← get).items.next? id

/-- Translate an item. Only targets may be come to twice. New code goes in front of the item. -/
def translateItem (id : ItemId) : Build (Option ItemId) := do
  let item ← getItem id
  if item.translated && !item.kind.isTarget then throw .alreadyTranslated
  match item.offset with
  | some offset => modifyContext ({ · with currentOffset := offset })
  | none => pure ()
  setCursor ((← get).items.prev? id)
  let next ← translateKind id item
  if !item.translated then
    modifyItem id ({ · with translated := true })
    modifyStats fun s => { s with itemsTranslated := s.itemsTranslated + 1 }
  return next

/-- Where the walk goes on behind an unconditional jump that was followed: at the next item, if
that is not translated. -/
def resumeBehind (jump : ItemId) : Build (Option ItemId) := do
  match (← get).items.next? jump with
  | some next => return if (← getItem next).translated then none else some next
  | none => return none

/-- Translate along the control flow from `cur`, then behind each jump that was followed. Every
step but the arrivals at translated targets uses up an item, so a multiple of the number of items
is enough `fuel`. -/
def translateFrom (fuel : Nat) (cur : Option ItemId) : Build Unit := do
  match fuel, cur with
  | 0, _ => throw .unfinishedWalk
  | fuel + 1, some id => translateFrom fuel (← translateItem id)
  | fuel + 1, none =>
    let ctx := (← get).ctx
    match ctx.backwardCode[ctx.backwardPos]? with
    | none => pure ()
    | some jump =>
      modifyContext fun c => { c with backwardPos := c.backwardPos + 1, unreachable := true }
      translateFrom fuel (← resumeBehind jump)

/-- Reconcile the jumps whose targets were not translated when the jumps were, oldest first. -/
def reconcileForward : List ForwardJump → Build Unit
  | [] => pure ()
  | f :: rest => do
    modifyContext ({ · with forwardJumps := rest })
    let items := (← get).items
    modifyContext ({ · with currentOffset := (items.offset? f.jump).getD 0 })
    assignState f.state
    setCursor (items.prev? f.jump)
    doJump f.jump
    modifyStats fun s => { s with forwardJumpsResolved := s.forwardJumpsResolved + 1 }
    reconcileForward rest

end Codegen.Build
