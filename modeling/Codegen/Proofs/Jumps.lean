import Codegen.Proofs.Calls
import Codegen.Proofs.Translation

/-! What a successful translation of a jump or of a target did. A jump to a target that is translated is
reconciled with it, in place or in a block of its own behind the function; a jump to any other target is followed
at once or left for later. -/
namespace Codegen
open List ItemSeq Session

/-- A block of code is closed: an instruction goes behind the cursor, and an item for its label behind `anchor`. -/
def ItemSeq.closeBlock (mark : Option Nat) (q : ItemSeq) (i : Instruction) (label : Item) (anchor : ItemId) : ItemSeq :=
  let g := q.generate mark i
  { items := g.items.push label, chain := g.chain.insertAfter ⟨q.size + 1⟩ anchor, cursor := g.cursor }

namespace Session

def atCursor (s : Session) (cursor : Option ItemId) : Session := { s with items := s.items.setCursor cursor }

def withKind (s : Session) (id : ItemId) (kind : ItemKind) : Session :=
  { s with items := s.items.modify id ({ · with kind }) }

/-- The jump that an item is. -/
def jump? (s : Session) (id : ItemId) : Option JumpItem :=
  (s.items.get? id).bind fun item => match item.kind with
    | .jump j => some j
    | _ => none

/-- The allocator state that a target asks for. -/
def stateAt (s : Session) (target : ItemId) : Option Snapshot :=
  (s.items.get? target).bind fun item => match item.kind with
    | .target t => t.state
    | _ => none

theorem jump?_eq_some {s : Session} {id : ItemId} :
    s.jump? id = some j ↔ ∃ item, s.items.get? id = some item ∧ item.kind = .jump j := by
  simp only [jump?, Option.bind_eq_some_iff]
  refine exists_congr fun item => and_congr_right fun _ => ?_
  cases item.kind <;> simp

theorem stateAt_eq_some {s : Session} : s.stateAt target = some st ↔
      ∃ item t, s.items.get? target = some item ∧ item.kind = .target t ∧ t.state = some st := by
  simp only [stateAt, Option.bind_eq_some_iff]
  refine exists_congr fun item => ?_
  cases item.kind <;> simp

/-- Does the target have a lower number than the jump? -/
def isBackward (s : Session) (target jump : ItemId) : Bool :=
  match s.items.offset? target, s.items.offset? jump with
  | some t, some j => decide (t < j)
  | _, _ => false

/-- Is the jump reconciled in place? -/
def inPlace (s : Session) (target jump : ItemId) (j : JumpItem) : Bool :=
  decide (j.opcode = .jmp) || (j.taken && s.isBackward target jump)

/-- The session in which the code that leads from a jump to the state of its target is emitted. -/
def reconciling (s : Session) (target jump : ItemId) (j : JumpItem) : Session :=
  if s.inPlace target jump j then s else s.atCursor s.ctx.extraBlock

/-- The block behind `extra` is closed with a jump to `target`, and it gets a new label. -/
def closeBlock (s : Session) (target : LabelId) (extra : ItemId) : Session :=
  let label : Item :=
    { kind := .target { label := ⟨s.labelCount⟩ }, offset := some s.ctx.currentOffset, translated := true }
  { s with
    items := s.items.closeBlock s.mark ⟨.jmp, [.label target]⟩ label extra
    labels := s.labels.push ⟨s.items.size + 1⟩
    ctx := { s.ctx with extraBlock := some ⟨s.items.size⟩ } }

/-- Code that was emitted behind `extra` becomes a block of its own: the jump is sent to its label, and it ends with a
jump to where the first one led. -/
def detour (s : Session) (jump : ItemId) (j : JumpItem) (extra : ItemId) : Session :=
  if s.items.cursor = some extra then s
  else (s.closeBlock j.target extra).withKind jump (.jump { j with target := ⟨s.labelCount⟩ })

/-- The session without an item that control never reaches. -/
def dropping (s : Session) (id : ItemId) : Session :=
  { s with
    items := ({ s.items with
      chain := s.items.chain.unlink id
      cursor := if s.items.cursor = some id then s.items.prev? id else s.items.cursor } : ItemSeq).modify id
        ({ · with unreachable := true })
    stats := { s.stats with itemsRemoved := s.stats.itemsRemoved + 1 } }

theorem order_dropping_erase {s : Session} : (s.dropping x).items.order = s.items.order.erase x := Chain.ids_unlink

theorem order_dropping {s : Session} (ho : s.items.order = X ++ x :: Y) :
    (s.dropping x).items.order = X ++ Y := by
  have hx : x ∉ X := fun hx => (nodup_cons.mp (nodup_middle.mp (ho ▸ s.items.nodup_order))).1 (mem_append_left _ hx)
  rw [order_dropping_erase, ho, erase_append_right _ hx, erase_cons_head]

/-- The session in which a jump waits for its target to be translated. The first to wait gives the target a
state, which holds until control falls into the target. -/
def queueing (s : Session) (id target : ItemId) (j : JumpItem) (kind : ItemKind) (st : Snapshot) : Session :=
  let q := { s.withKind id (.jump { j with state := some st }) with
    ctx := { s.ctx with forwardJumps := s.ctx.forwardJumps ++ [⟨id, st⟩] } }
  match kind with
  | .target t => if t.state = none then q.withKind target (.target { t with state := some st }) else q
  | _ => q

end Session

namespace Build
variable {s : Session} {id target : ItemId} {j : JumpItem} {st : Snapshot}
  {next : Option ItemId}

theorem isBackward_ok : isBackward target id s = .ok b s' ↔ s.isBackward target id = b ∧ s = s' := by
  simp only [isBackward, Session.isBackward, bind_ok, get_ok]
  constructor
  · rintro ⟨_, _, ⟨rfl, rfl⟩, h⟩
    cases ht : s.items.offset? target <;> cases hj : s.items.offset? id <;>
      simp only [ht, hj] at h ⊢ <;> exact pure_ok.mp h
  · rintro ⟨rfl, rfl⟩
    refine ⟨s, s, ⟨rfl, rfl⟩, ?_⟩
    cases ht : s.items.offset? target <;> cases hj : s.items.offset? id <;> rfl

theorem insertAfter_ok : insertAfter id anchor s = .ok u s' ↔
    ∃ items, s.items.insertAfter id anchor = .ok items ∧ { s with items } = s' :=
  edit_ok (g := (·.insertAfter id anchor))

theorem unlink_ok : unlink id s = .ok u s' ↔ ∃ items, s.items.unlink id = .ok items ∧ { s with items } = s' :=
  edit_ok (g := (·.unlink id))

private theorem create_marked (g : ItemSeq) (label : LabelId) (offset : Nat) (chain : Chain) :
    ({ (g.create (.target { label })).2 with chain } : ItemSeq).modify ⟨g.size⟩
        ({ · with offset := some offset, translated := true }) =
      { items := g.items.push { kind := .target { label }, offset := some offset, translated := true }
        chain, cursor := g.cursor } := by
  simp [ItemSeq.create, ItemSeq.modify, size, modify_push_last]

private theorem takeBack_ok {cursor : Option ItemId} (h : (do
      setCursor cursor
      match j.state with
      | some own => assignState own
      | none => usage .jumpWithoutState : Build Unit) s = .ok u s') :
    ∃ own, j.state = some own ∧ assignState own (s.atCursor cursor) = .ok () s' := by
  simp only [bind_ok] at h
  obtain ⟨_, _, ⟨⟩, h⟩ := h
  cases hj : j.state with
  | none => simp only [hj, usage_ok] at h
  | some own =>
    simp only [hj] at h
    exact ⟨own, rfl, h⟩

theorem reconcileOutOfLine_ok (h : reconcileOutOfLine id j st s = .ok u s') :
    ∃ extra own v, s.ctx.extraBlock = some extra ∧ j.state = some own ∧
      restoreState st (s.atCursor (some extra)) = .ok () v ∧
      assignState own ((v.detour id j extra).atCursor s.items.cursor) = .ok () s' := by
  simp only [reconcileOutOfLine, bind_ok] at h
  obtain ⟨_, _, ⟨⟩, h⟩ := h
  cases he : s.ctx.extraBlock with
  | none => simp only [he, usage_ok] at h
  | some extra =>
    simp only [he, bind_ok] at h
    obtain ⟨_, _, ⟨⟩, _, _, ⟨⟩, _, v, hv, _, _, ⟨⟩, h⟩ := h
    by_cases hc : v.items.cursor = some extra
    · simp only [hc, ne_eq, not_true_eq_false, if_false] at h
      obtain ⟨own, hj, h⟩ := takeBack_ok h
      exact ⟨extra, own, v, rfl, hj, hv, by rwa [detour, if_pos hc]⟩
    simp only [hc, ne_eq, not_false_eq_true, if_true, bind_ok, get_ok, labelTarget_ok, insertAfter_ok, modifyItem_ok,
      setKind_ok, modifyContext_ok] at h
    obtain ⟨_, g, hjmp, _, _, ⟨rfl, rfl⟩, label, c, hl, labelItem, _, ⟨hlabel, rfl⟩, _, _, ⟨items, hi, rfl⟩, _, _,
      ⟨rfl, rfl⟩, _, _, ⟨-, rfl⟩, _, _, ⟨-, rfl⟩, _, _, rfl, hlast⟩ := h
    obtain ⟨own, hj, hown⟩ := takeBack_ok (bind_ok.mpr hlast)
    refine ⟨extra, own, v, rfl, hj, hv, ?_⟩
    cases emitAll_ok hjmp
    obtain ⟨rfl, rfl⟩ := Builder.createLabel_ok hl
    simp only [Array.getElem?_push_size, Option.some.injEq] at hlabel
    subst hlabel
    obtain ⟨-, -, rfl⟩ := ItemSeq.insertAfter_ok hi
    rw [detour, if_neg hc]
    simp only [create_marked, generateAll_cons, generateAll_nil] at hown
    simp only [size_generate] at hown
    exact hown

/-- A jump to a translated target emits the code that leads to the state of the target. Out of line, the code
becomes a block of its own, and the allocator goes back to where it was. -/
theorem doJump_ok (h : doJump id s = .ok u s') :
    ∃ j target st v, s.jump? id = some j ∧ s.labels[j.target.index]? = some target ∧ s.stateAt target = some st ∧
      restoreState st (s.reconciling target id j) = .ok () v ∧
      (s.inPlace target id j = true ∧ s' = v ∨
        s.inPlace target id j = false ∧ ∃ extra own, s.ctx.extraBlock = some extra ∧ j.state = some own ∧
          assignState own ((v.detour id j extra).atCursor s.items.cursor) = .ok () s') := by
  simp only [doJump, bind_ok, getItem_ok] at h
  obtain ⟨item, _, ⟨hi, rfl⟩, h⟩ := h
  cases hk : item.kind with
  | jump j =>
    simp only [hk, bind_ok, labelTarget_ok, getItem_ok] at h
    obtain ⟨target, _, ⟨hl, rfl⟩, titem, _, ⟨hti, rfl⟩, h⟩ := h
    cases hkt : titem.kind with
    | target t =>
      simp only [hkt] at h
      cases hst : t.state with
      | none => simp only [hst, usage_ok] at h
      | some st =>
        simp only [hst, bind_ok, isBackward_ok] at h
        obtain ⟨_, _, ⟨rfl, rfl⟩, h⟩ := h
        have hj := jump?_eq_some.mpr ⟨item, hi, hk⟩
        have hs := stateAt_eq_some.mpr ⟨titem, t, hti, hkt, hst⟩
        refine ⟨j, target, st, ?_⟩
        by_cases hp : s.inPlace target id j = true
        · have hp' := hp
          unfold inPlace at hp'
          rw [if_pos hp'] at h
          refine ⟨s', hj, hl, hs, ?_, .inl ⟨hp, rfl⟩⟩
          rwa [reconciling, if_pos hp]
        have hp' := hp
        unfold inPlace at hp'
        rw [if_neg hp'] at h
        obtain ⟨extra, own, v, he, hown, hv, ha⟩ := reconcileOutOfLine_ok h
        refine ⟨v, hj, hl, hs, ?_, .inr ⟨by simpa using hp, extra, own, he, hown, ha⟩⟩
        rwa [reconciling, if_neg hp, he]
    | _ => simp only [hkt, usage_ok] at h
  | _ => simp only [hk, usage_ok] at h

theorem awaitTarget_ok {titem : Item} (hi : s.items.get? id = some item) (hti : s.items.get? target = some titem)
    (h : awaitTarget id target titem.kind st (s.withKind id (.jump { j with state := some st })) = .ok u s') :
    s' = s.queueing id target j titem.kind st := by
  simp only [awaitTarget, bind_ok] at h
  obtain ⟨_, _, ⟨⟩, h⟩ := h
  cases hk : titem.kind with
  | target t =>
    obtain ⟨label, state, firstJump, jumpCount⟩ := t
    cases state with
    | some own =>
      simp only [hk, pure_ok] at h
      exact h.2.symm
    | none =>
      simp only [hk] at h
      obtain ⟨item', t', hi', hk', rfl⟩ := setTargetState_ok h
      -- the jump is another item than the target, which still has the kind that was read before
      have hne : id ≠ target := by
        rintro rfl
        rw [withKind, get?_modify_self, hi] at hi'
        cases hi'
        cases hk'
      rw [withKind, get?_modify_of_ne _ hne, hti] at hi'
      cases hi'
      cases hk ▸ hk'
      rfl
  | _ =>
    simp only [hk, pure_ok] at h
    exact h.2.symm

/-- An unconditional jump to code that is not translated is followed. Any other jump notes the state it is in;
then it is reconciled with its target or waits for it, and the variables whose last item it is are retired. -/
theorem translateJump_ok (h : translateJump id j s = .ok next s') :
    ∃ target titem, s.labels[j.target.index]? = some target ∧ s.items.get? target = some titem ∧
      s.items.isLinked target = true ∧
      (j.opcode = .jmp ∧ titem.translated = false ∧ next = some target ∧
          s' = { s with ctx := { s.ctx with backwardCode := s.ctx.backwardCode.push id } } ∨
        ∃ f w, s.ctx.function = some f ∧ (titem.translated = true ∧
              doJump id (s.withKind id (.jump { j with state := some (s.snapshot f) })) = .ok () w ∨
            titem.translated = false ∧ j.opcode ≠ .jmp ∧ w = s.queueing id target j titem.kind (s.snapshot f)) ∧
          retireActiveAt id { w with
            ctx := { w.ctx with unreachable := decide (j.opcode = .jmp) || w.ctx.unreachable } } = .ok () s' ∧
          next = s'.items.next? id) := by
  simp only [translateJump, bind_ok, labelTarget_ok, getItem_ok] at h
  obtain ⟨target, _, ⟨hl, rfl⟩, titem, _, ⟨hti, rfl⟩, _, _, ⟨⟩, h⟩ := h
  obtain ⟨hlink, h⟩ := check_ok.mp h
  refine ⟨target, titem, hl, hti, by simpa using hlink, ?_⟩
  by_cases hfollow : (decide (j.opcode = .jmp) && !titem.translated) = true
  · rw [if_pos hfollow] at h
    obtain ⟨_, _, rfl, rfl, rfl⟩ := h
    obtain ⟨ho, htr⟩ := by simpa using hfollow
    exact .inl ⟨ho, htr, rfl, rfl⟩
  rw [if_neg hfollow] at h
  simp only [bind_ok, saveState_ok, setKind_ok] at h
  obtain ⟨st, _, ⟨f, hf, rfl, rfl⟩, _, _, ⟨⟨item, hi⟩, rfl⟩, h⟩ := h
  have hend : ∀ {w : Session}, (do
      if j.opcode = .jmp then modifyContext ({ · with unreachable := true })
      retireActiveAt id
      return (← get).items.next? id : Build (Option ItemId)) w = .ok next s' →
      retireActiveAt id { w with
        ctx := { w.ctx with unreachable := decide (j.opcode = .jmp) || w.ctx.unreachable } } = .ok () s' ∧
      next = s'.items.next? id := by
    intro w hw
    obtain ⟨w', hw', hw⟩ := when_ok.mp hw
    simp only [bind_ok] at hw
    obtain ⟨_, _, hr, _, _, ⟨⟩, ⟨⟩⟩ := hw
    refine ⟨?_, rfl⟩
    by_cases ho : j.opcode = .jmp
    · rw [if_pos ho, modifyContext_ok] at hw'
      simpa [ho, hw'] using hr
    · rw [if_neg ho] at hw'
      simpa [ho, hw'] using hr
  by_cases htr : titem.translated = true
  · rw [if_pos htr] at h
    obtain ⟨_, w, hw, h⟩ := bind_ok.mp h
    exact .inr ⟨f, w, hf, .inl ⟨htr, hw⟩, hend h⟩
  rw [if_neg htr] at h
  obtain ⟨_, w, hw, h⟩ := bind_ok.mp h
  refine .inr ⟨f, w, hf, .inr ⟨by simpa using htr, ?_, ?_⟩, hend h⟩
  · rintro ho
    simp [ho, htr] at hfollow
  · exact awaitTarget_ok hi hti hw

/-- Does the removal of unreachable code end at this item? -/
def endsRemoval (start id : ItemId) (kind : ItemKind) : Bool :=
  (decide (id ≠ start) && kind.isTarget) || kind.isFunctionEnd

theorem removeUntilTarget_cons_ok (h : removeUntilTarget start (id :: rest) s = .ok next s') :
    ∃ item, s.items.get? id = some item ∧ (endsRemoval start id item.kind = true ∧ next = some id ∧ s' = s ∨
        endsRemoval start id item.kind = false ∧ id ∈ s.items.order ∧
          removeUntilTarget start rest (s.dropping id) = .ok next s') := by
  simp only [removeUntilTarget, bind_ok, getItem_ok] at h
  obtain ⟨item, _, ⟨hi, rfl⟩, h⟩ := h
  refine ⟨item, hi, ?_⟩
  by_cases he : endsRemoval start id item.kind = true
  · have he' := he
    unfold endsRemoval at he'
    rw [if_pos he', pure_ok] at h
    exact .inl ⟨he, h.1.symm, h.2.symm⟩
  have he' := he
  unfold endsRemoval at he'
  rw [if_neg he'] at h
  simp only [bind_ok, unlink_ok, modifyItem_ok] at h
  obtain ⟨_, _, ⟨items, hu, rfl⟩, _, _, ⟨-, rfl⟩, _, _, ⟨⟩, h⟩ := h
  obtain ⟨hlink, rfl⟩ := ItemSeq.unlink_ok hu
  exact .inr ⟨by simpa using he, hlink, h⟩

/-- What the removal of one item preserves is preserved by the removal of code. -/
@[elab_as_elim]
theorem removeUntilTarget_induct {P : Session → Prop} (hdrop : ∀ {s y item}, s.items.get? y = some item →
      endsRemoval start y item.kind = false → P s → P (s.dropping y))
    (h : removeUntilTarget start l s = .ok next s') (hs : P s) : P s' := by
  induction l generalizing s with
  | nil =>
    cases h
    exact hs
  | cons y l ih =>
    obtain ⟨item, hi, ⟨-, -, rfl⟩ | ⟨he, -, h⟩⟩ := removeUntilTarget_cons_ok h
    · exact hs
    · exact ih h (hdrop hi he hs)

theorem removeUntilTarget_rest (h : removeUntilTarget start l s = .ok next s') :
    ∃ items stats, s' = { s with items, stats } ∧ items.size = s.items.size := by
  refine removeUntilTarget_induct ?_ h ⟨_, _, rfl, rfl⟩
  rintro _ y item - - ⟨items, stats, rfl, hsize⟩
  exact ⟨_, _, rfl, (Array.size_modify ..).trans hsize⟩

theorem removeUntilTarget_subset (h : removeUntilTarget start l s = .ok next s') : s'.items.order ⊆ s.items.order :=
  removeUntilTarget_induct (fun _ _ hs => Subset.trans (order_dropping_erase ▸ erase_subset) hs) h (Subset.refl _)

theorem not_mem_of_removeUntilTarget {item : Item} (hi : s.items.get? id = some item)
    (hk : item.kind.isFunctionEnd = false) (h : removeUntilTarget id (s.items.suffixFrom id) s = .ok next s') :
    id ∉ s'.items.order := by
  by_cases hmem : id ∈ s.items.order
  · obtain ⟨item', hi', ⟨he, -⟩ | ⟨-, -, h⟩⟩ := removeUntilTarget_cons_ok h
    · cases hi ▸ hi'
      simp [endsRemoval, hk] at he
    · exact fun hs' => s.items.nodup_order.not_mem_erase (order_dropping_erase ▸ removeUntilTarget_subset h hs')
  · exact fun hs' => hmem (removeUntilTarget_subset h hs')

/-- A target that control comes to again is reconciled. One that nothing leads to is removed with the code
behind it, one that only jumps lead to adopts the state that they left, and one that control falls into fixes
its state. -/
theorem translateTarget_ok (h : translateTarget id t translated s = .ok next s') :
    translated = true ∧ next = none ∧ (∃ st, t.state = some st ∧ restoreState st s = .ok () s') ∨
    translated = false ∧ s.ctx.unreachable = true ∧ t.state = none ∧
      removeUntilTarget id (s.items.suffixFrom id) s = .ok next s' ∨
    translated = false ∧ s.ctx.unreachable = true ∧ next = s'.items.next? id ∧ (∃ st, t.state = some st ∧
      assignState st { s with ctx := { s.ctx with unreachable := false } } = .ok () s') ∨
    translated = false ∧ s.ctx.unreachable = false ∧ next = s'.items.next? id ∧
      ∃ f item t', s.ctx.function = some f ∧ s.items.get? id = some item ∧ item.kind = .target t' ∧
        s' = s.withKind id (.target { t' with state := some (s.snapshot f) }) := by
  cases translated with
  | true =>
    cases hst : t.state with
    | none =>
      simp only [translateTarget, hst, if_true, bind_ok, usage_ok, false_and, exists_false] at h
    | some st =>
      simp only [translateTarget, hst, if_true, bind_ok] at h
      obtain ⟨_, _, hr, ⟨⟩⟩ := h
      exact .inl ⟨rfl, rfl, st, rfl, hr⟩
  | false =>
    cases hu : s.ctx.unreachable with
    | false =>
      obtain ⟨f, item, t', hf, hi, hk, hs', hnext⟩ := translateTarget_first_ok hu h
      exact .inr (.inr (.inr ⟨rfl, rfl, hnext, f, item, t', hf, hi, hk, hs'⟩))
    | true =>
      simp only [translateTarget, Bool.false_eq_true, if_false, bind_ok] at h
      obtain ⟨_, _, ⟨⟩, h⟩ := h
      rw [if_pos hu] at h
      cases hst : t.state with
      | none =>
        simp only [hst, removeUnreachable, bind_ok] at h
        obtain ⟨_, _, ⟨⟩, h⟩ := h
        exact .inr (.inl ⟨rfl, rfl, rfl, h⟩)
      | some st =>
        simp only [hst, bind_ok] at h
        obtain ⟨_, _, ⟨⟩, _, _, ha, _, _, ⟨⟩, ⟨⟩⟩ := h
        exact .inr (.inr (.inl ⟨rfl, rfl, rfl, st, rfl, ha⟩))

theorem resumeBehind_ok (h : resumeBehind jump s = .ok next s') :
    s' = s ∧ ∀ n, next = some n → s.items.next? jump = some n := by
  simp only [resumeBehind, bind_ok] at h
  obtain ⟨_, _, ⟨⟩, h⟩ := h
  cases hn : s.items.next? jump with
  | none =>
    simp only [hn, pure_ok] at h
    obtain ⟨rfl, rfl⟩ := h
    exact ⟨rfl, fun n hn => by cases hn⟩
  | some n =>
    simp only [hn, bind_ok, getItem_ok] at h
    obtain ⟨item, _, ⟨-, rfl⟩, ⟨⟩⟩ := h
    refine ⟨rfl, fun m hm => ?_⟩
    split at hm <;> simp_all

end Build

end Codegen
