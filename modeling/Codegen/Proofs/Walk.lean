import Codegen.Proofs.Entry
import Codegen.Proofs.Extent

/-! The translation of a function, seen between two items: what is known of every session it comes through, and what
each kind of change keeps of that. -/
namespace Codegen
open List Build ItemSeq
variable {item : Item} {s t : Session} {st : Snapshot}
variable {extra : ItemId} {code : List Instruction}

theorem VarTable.Kept.owns_iff {s' : Session} {id : VarId} (h : s.vars.Kept s'.vars) : s'.Owns f id ↔ s.Owns f id := by
  have hf : ∀ u : Session, (u.vars.get? id).map Variable.function =
      ((u.vars.get? id).map Variable.fixed).map (·.1.2.2.2.1) := by
    intro u
    cases u.vars.get? id <;> rfl
  rw [Session.owns_iff, Session.owns_iff, Session.IsVarOf, Session.IsVarOf, hf, hf, h.fixed]

namespace ItemSeq

theorem get?_generateAll_new {q : ItemSeq} {mark : Option Nat}
    (hx : q.size ≤ x.index) (h : (q.generateAll mark code).get? x = some item) :
    item.translated = mark.isSome ∧
      ∃ i ∈ code, item.kind = .instruction { opcode := i.opcode, operands := i.operands } := by
  induction code generalizing q with
  | nil => exact absurd (lt_size_of_get? h) (not_lt.mpr hx)
  | cons i code ih =>
    rw [generateAll_cons] at h
    by_cases hlt : x.index < q.size + 1
    · obtain rfl : x = ⟨q.size⟩ := congrArg ItemId.mk (by omega : x.index = q.size)
      rw [get?_generateAll_of_lt _ _ (by simp), get?_generate_self] at h
      cases h
      exact ⟨rfl, i, mem_cons_self, rfl⟩
    · obtain ⟨ht, i', hi', hk⟩ := ih (by simpa using hlt) h
      exact ⟨ht, i', mem_cons_of_mem _ hi', hk⟩

end ItemSeq

/-- What becomes of the kind of an item while its function is translated. A jump may be sent to a label that came
later, with a number from `n` on. -/
def ItemKind.Becomes (n : Nat) : ItemKind → ItemKind → Prop
  | jump j, k => ∃ target state, k = .jump { j with target, state } ∧ (target = j.target ∨ n ≤ target.index)
  | target t, k => ∃ state, k = .target { t with state }
  | _, k => k.isTarget = false ∧ ∀ j, k ≠ .jump j

namespace ItemKind.Becomes
variable {a : ItemKind}

theorem refl (n : Nat) (a : ItemKind) : a.Becomes n a := by
  cases a with
  | jump j => exact ⟨j.target, j.state, rfl, .inl rfl⟩
  | target r => exact ⟨r.state, rfl⟩
  | _ => exact ⟨rfl, fun j hj => by cases hj⟩

theorem isTarget_eq (h : a.Becomes n b) : b.isTarget = a.isTarget := by
  cases a with
  | jump j =>
    obtain ⟨target, state, rfl, -⟩ := h
    rfl
  | target r =>
    obtain ⟨state, rfl⟩ := h
    rfl
  | _ => exact h.1

theorem of_jump (h : a.Becomes n (.jump j)) :
    ∃ j0 target state, a = .jump j0 ∧ j = { j0 with target, state } ∧ (target = j0.target ∨ n ≤ target.index) := by
  cases a with
  | jump j0 =>
    obtain ⟨target, state, hj, hl⟩ := h
    exact ⟨j0, target, state, rfl, jump.inj hj, hl⟩
  | target r =>
    obtain ⟨state, hr⟩ := h
    cases hr
  | _ => exact absurd rfl (h.2 j)

theorem of_target (h : a.Becomes n (.target r)) : ∃ r0 state, a = .target r0 ∧ r = { r0 with state } := by
  cases a with
  | target r0 =>
    obtain ⟨state, hr⟩ := h
    exact ⟨r0, state, rfl, target.inj hr⟩
  | jump j =>
    obtain ⟨target, state, hj, -⟩ := h
    cases hj
  | _ => cases h.1

end ItemKind.Becomes

namespace Session

/-- What the translation of a function leaves alone: which function it is, what its variables are, and where the labels
are. -/
structure Continues (s s' : Session) : Prop where
  ctx : s'.ctx = { s.ctx with
    extraBlock := s'.ctx.extraBlock, registers := s'.ctx.registers, modified := s'.ctx.modified
    currentOffset := s'.ctx.currentOffset, unreachable := s'.ctx.unreachable
    backwardCode := s'.ctx.backwardCode, backwardPos := s'.ctx.backwardPos
    forwardJumps := s'.ctx.forwardJumps, reserved := s'.ctx.reserved, slots := s'.ctx.slots }
  rest : s' = { s with
    items := s'.items, vars := s'.vars, labels := s'.labels, ctx := s'.ctx, stats := s'.stats }
  vars : s.vars.Kept s'.vars
  labels : s.labels.toList <+: s'.labels.toList

namespace Continues

theorem refl (s : Session) : s.Continues s := ⟨rfl, rfl, .refl _, prefix_refl _⟩

theorem trans (h : s.Continues t) (h' : t.Continues u) : s.Continues u where
  ctx := by rw [h'.ctx, h.ctx]
  rest := by rw [h'.rest, h.rest]
  vars := h.vars.trans h'.vars
  labels := h.labels.trans h'.labels

theorem of_frame (h : s.Frame t) : s.Continues t where
  ctx := by rw [h.ctx]
  rest := by rw [h.rest]
  vars := h.vars
  labels := by
    have hl : t.labels = s.labels := (congrArg Session.labels h.rest :)
    exact hl ▸ prefix_refl _

section
variable (h : s.Continues t)
include h

theorem function_eq : t.ctx.function = s.ctx.function := by rw [h.ctx]

theorem active_eq : t.ctx.active = s.ctx.active := by rw [h.ctx]

theorem fits (hst : st.Fits (s.holdings f)) : st.Fits (t.holdings f) := hst.kept h.vars.fixed (by rw [h.ctx])

theorem fits_back (hst : st.Fits (t.holdings f)) : st.Fits (s.holdings f) :=
  hst.kept (fun id => (h.vars.fixed id).symm) (by rw [h.ctx])

theorem labels_size : s.labels.size ≤ t.labels.size := by
  simpa using h.labels.length_le

theorem labels_eq (hl : l < s.labels.size) : t.labels[l]? = s.labels[l]? := by
  obtain ⟨new, hnew⟩ := h.labels
  rw [← Array.getElem?_toList, ← hnew, getElem?_append_left (by simpa using hl), Array.getElem?_toList]

end

end Continues

/-- A change between two moments of the translation. Items are only taken out, targets that are translated stay as they
are, and once all items are done (`walking` is false) so do all other targets. -/
structure Keeps (walking : Prop) (body : List ItemId) (u u' : Session) : Prop where
  size : u.items.size ≤ u'.items.size
  links : ∀ {x}, x.index < u.items.size → x ∈ u'.items.order → x ∈ u.items.order
  targets : ∀ {x item}, x ∈ body → u.items.get? x = some item → item.kind.isTarget = true →
    (walking → item.translated = true) →
    ∃ item', u'.items.get? x = some item' ∧ item'.kind = item.kind ∧ (item.translated = true → item'.translated = true)

namespace Keeps
variable {walking : Prop} {body : List ItemId}

theorem refl (s : Session) : s.Keeps walking body s :=
  ⟨le_refl _, fun _ h => h, fun _ hi _ _ => ⟨_, hi, rfl, id⟩⟩

theorem trans (h : s.Keeps walking body t) (h' : t.Keeps walking body u) : s.Keeps walking body u where
  size := h.size.trans h'.size
  links hx ho := h.links hx (h'.links (hx.trans_le h.size) ho)
  targets hx hi hk hw := by
    obtain ⟨i1, hi1, hk1, ht1⟩ := h.targets hx hi hk hw
    obtain ⟨i2, hi2, hk2, ht2⟩ := h'.targets hx hi1 (hk1 ▸ hk) fun w => ht1 (hw w)
    exact ⟨i2, hi2, hk2.trans hk1, fun ht => ht2 (ht1 ht)⟩

theorem mono {walking' : Prop} (h : s.Keeps walking body t) (hw : walking → walking') : s.Keeps walking' body t :=
  ⟨h.size, h.links, fun hx hi hk ht => h.targets hx hi hk fun w => ht (hw w)⟩

theorem weaken (h : s.Keeps False body t) : s.Keeps walking body t := h.mono False.elim

theorem of_items_eq (h : t.items = s.items) : s.Keeps walking body t where
  size := le_of_eq (h ▸ rfl)
  links _ ho := h ▸ ho
  targets _ hi _ _ := ⟨_, h ▸ hi, rfl, id⟩

end Keeps

/-- What is known of a function when its translation starts. -/
structure Outline (t : Session) (f : FunctionId) (start stop : ItemId) (body : List ItemId) : Prop where
  function : t.ctx.function = some f
  active : t.ctx.active = true
  outer : start ∉ body ∧ stop ∉ body
  made : ∀ x ∈ start :: stop :: body, x.index < t.items.size
  inside : ∀ x ∈ body, ∃ (kind : ItemKind) (item : Item), t.items.get? x = some item ∧ item.translated = false ∧
    kind.PreparedAs item.kind ∧ kind.Inside f ∧ ∀ v ∈ kind.vars, t.Owns f v
  jumps : ∀ x ∈ body, ∀ target, t.JumpsTo x target → target ∈ body
  owned : ∀ v ∈ t.vars.active, t.Owns f v

/-- A jump of the function that control may fall through, with a state to take up when it is reconciled. -/
structure Queues (t : Session) (f : FunctionId) (body : List ItemId) (q : ForwardJump) : Prop where
  inside : q.jump ∈ body
  fits : q.state.Fits (t.holdings f)
  conditional : ∀ j, t.jump? q.jump = some j → j.opcode ≠ .jmp

/-- What is known of a session in the middle of the translation. Items that are not `busy` and not translated are as
they were; `t` is the session in which the translation started. -/
structure Midway (t : Session) (f : FunctionId) (start stop : ItemId) (body : List ItemId) (busy : ItemId → Prop)
    (u : Session) : Prop where
  continues : t.Continues u
  coherent : Coherent (u.holdings f)
  spans : ∃ extra, u.ctx.extraBlock = some extra ∧ u.items.Spans t.items.size body start stop extra
  generated : ∀ {x item}, t.items.size ≤ x.index → u.items.get? x = some item →
    item.translated = true ∧ ∀ g, item.kind = .target g → g.state = none
  labelled : ∀ {l x}, t.labels.size ≤ l → u.labels[l]? = some x → t.items.size ≤ x.index
  items : ∀ {x item₀}, x ∈ body → t.items.get? x = some item₀ → ∃ item, u.items.get? x = some item ∧
    item.offset = item₀.offset ∧ item₀.kind.Becomes t.labels.size item.kind
  waiting : ∀ {x item₀ item}, x ∈ body → ¬ busy x → t.items.get? x = some item₀ → u.items.get? x = some item →
    item.translated = false → item₀.kind.isTarget = false → item.kind = item₀.kind
  closes : ∃ item, u.items.get? stop = some item ∧ item.kind = .functionEnd f
  targets : ∀ {x st}, x ∈ body → u.stateAt x = some st → st.Fits (t.holdings f)
  jumps : ∀ {x j st}, x ∈ body → u.jump? x = some j → j.state = some st → st.Fits (t.holdings f)
  queued : ∀ q ∈ u.ctx.forwardJumps, t.Queues f body q
  followed : ∀ x ∈ u.ctx.backwardCode, x ∈ body
  others : t.vars.Spares f u.vars
  outline : t.Outline f start stop body

end Session

namespace Session.Midway
variable {start stop : ItemId} {body : List ItemId} {busy busy' : ItemId → Prop}
variable {walking : Prop} {id : ItemId}

section
variable (h : t.Midway f start stop body busy u)
include h

theorem becomes (hx : x ∈ body) (hi0 : t.items.get? x = some item0) (hi : u.items.get? x = some item) :
    item.offset = item0.offset ∧ item0.kind.Becomes t.labels.size item.kind := by
  obtain ⟨item', hi', hb⟩ := h.items hx hi0
  cases hi ▸ hi'
  exact hb

theorem mono (hb : ∀ x, busy x → busy' x) : t.Midway f start stop body busy' u :=
  { h with waiting := fun hx hn => h.waiting hx fun hb' => hn (hb _ hb') }

theorem old (hx : x ∈ body) : x.index < t.items.size ∧ x.index < u.items.size := by
  obtain ⟨extra, -, hs⟩ := h.spans
  exact ⟨hs.old x hx, (hs.old x hx).trans_le hs.size⟩

theorem function : u.ctx.function = some f := h.continues.function_eq.trans h.outline.function

theorem size_le : t.items.size ≤ u.items.size := by
  obtain ⟨extra, -, hs⟩ := h.spans
  exact hs.size

theorem quiet (hi : u'.items = u.items) (hl : u'.labels = u.labels)
    (hcont : u.Continues u') (hc : Coherent (u'.holdings f)) (he : u'.ctx.extraBlock = u.ctx.extraBlock)
    (hq : ∀ q ∈ u'.ctx.forwardJumps, t.Queues f body q)
    (hb : ∀ x ∈ u'.ctx.backwardCode, x ∈ body) (ho : u.vars.Spares f u'.vars) :
    t.Midway f start stop body busy u' ∧ u.Keeps False body u' := by
  refine ⟨⟨h.continues.trans hcont, hc, ?_, ?_, ?_, ?_, ?_, ?_, ?_, ?_, hq, hb, h.others.trans ho, h.outline⟩,
    .of_items_eq hi⟩
  · rw [he, hi]
    exact h.spans
  · rw [hi]
    exact h.generated
  · rw [hl]
    exact h.labelled
  · rw [hi]
    exact h.items
  · rw [hi]
    exact h.waiting
  · rw [hi]
    exact h.closes
  · unfold stateAt
    rw [hi]
    exact h.targets
  · unfold jump?
    rw [hi]
    exact h.jumps

/-- Changes of the items that leave all old ones as they are. -/
private theorem extend (hcont : u.Continues u')
    (hl : ∀ {l x}, t.labels.size ≤ l → u'.labels[l]? = some x → t.items.size ≤ x.index)
    (hc : Coherent (u'.holdings f)) (ho : u.vars.Spares f u'.vars) (hq : u'.ctx.forwardJumps = u.ctx.forwardJumps)
    (hb : u'.ctx.backwardCode = u.ctx.backwardCode)
    (hspan : ∃ extra, u'.ctx.extraBlock = some extra ∧ u'.items.Spans t.items.size body start stop extra)
    (hlinks : ∀ {x}, x.index < u.items.size → x ∈ u'.items.order → x ∈ u.items.order)
    (hsize : u.items.size ≤ u'.items.size)
    (hget : ∀ {x}, x.index < u.items.size → u'.items.get? x = u.items.get? x)
    (hnew : ∀ {x item}, u.items.size ≤ x.index → u'.items.get? x = some item →
      item.translated = true ∧ ∀ g, item.kind = .target g → g.state = none) :
    t.Midway f start stop body busy u' ∧ u.Keeps False body u' := by
  have hbody : ∀ {x}, x ∈ body → u'.items.get? x = u.items.get? x := fun hx => hget (h.old hx).2
  refine ⟨⟨h.continues.trans hcont, hc, hspan, ?_, hl, ?_, ?_, ?_, ?_, ?_, ?_, ?_, h.others.trans ho, h.outline⟩,
    hsize, hlinks, ?_⟩
  · intro x item hx hi
    by_cases hlt : x.index < u.items.size
    · exact h.generated hx (hget hlt ▸ hi)
    · exact hnew (not_lt.mp hlt) hi
  · intro x item0 hx hi
    rw [hbody hx]
    exact h.items hx hi
  · intro x item0 item hx hn hi0 hi
    exact h.waiting hx hn hi0 (hbody hx ▸ hi)
  · obtain ⟨item, hi, hk⟩ := h.closes
    exact ⟨item, (hget (lt_size_of_get? hi)).trans hi, hk⟩
  · intro x st hx
    unfold stateAt
    rw [hbody hx]
    exact h.targets hx
  · intro x j st hx
    unfold jump?
    rw [hbody hx]
    exact h.jumps hx
  · rw [hq]
    exact h.queued
  · rw [hb]
    exact h.followed
  · exact fun hx hi _ _ => ⟨_, (hbody hx).trans hi, rfl, id⟩

theorem moves (hm : u.Moves f may u') : t.Midway f start stop body busy u' ∧ u.Keeps False body u' := by
  obtain ⟨code, -, hi⟩ := hm.run
  obtain ⟨extra, he, hs⟩ := h.spans
  have hcont := Continues.of_frame hm.toFrame
  have hl : u'.labels = u.labels := (congrArg labels hm.rest :)
  refine h.extend hcont (hl ▸ h.labelled) (hm.coherent h.coherent) hm.others (by rw [hm.ctx]) (by rw [hm.ctx])
    ⟨extra, by rw [hm.ctx]; exact he, hi ▸ hs.generateAll _ _⟩ ?_ ?_ ?_ ?_
  · intro x hx ho
    obtain ⟨P, N, Q, hPQ, ho', hN, -⟩ := hs.generateAll_splice u.mark code
    rw [hi, ho'] at ho
    rw [hPQ]
    have hxN : x ∉ N := fun hxN => not_lt.mpr (hN x hxN).1 hx
    simp only [mem_append] at ho ⊢
    tauto
  · rw [hi, size_generateAll]
    exact Nat.le_add_right _ _
  · intro x hx
    rw [hi, get?_generateAll_of_lt _ _ hx]
  · intro x item hx hxi
    rw [hi] at hxi
    obtain ⟨htr, i, -, hk⟩ := get?_generateAll_new hx hxi
    refine ⟨?_, fun g hg => by rw [hk] at hg; cases hg⟩
    rw [htr, mark, h.continues.active_eq, h.outline.active]
    rfl

theorem atCursor (cursor : Option ItemId) :
    t.Midway f start stop body busy (u.atCursor cursor) ∧ u.Keeps False body (u.atCursor cursor) := by
  obtain ⟨extra, he, hs⟩ := h.spans
  refine h.extend ⟨rfl, rfl, .refl _, prefix_refl _⟩ h.labelled h.coherent (.refl _) rfl rfl
    ⟨extra, he, hs.congr rfl rfl⟩ (fun _ ho => ho) (le_refl _) (fun _ => rfl) fun hx hi => ?_
  exact absurd (lt_size_of_get? hi) (not_lt.mpr hx)

theorem adopt (hst : st.Fits (t.holdings f)) (ha : assignState st u = .ok () u') :
    t.Midway f start stop body busy u' ∧ u.Keeps False body u' ∧ u'.snapshot f = st := by
  obtain ⟨hc, hsnap⟩ := assignState_adopts h.coherent.numbered h.coherent.typed (h.continues.fits hst) h.function ha
  obtain ⟨vars, rfl, hact, hget⟩ := assignState_ok h.function h.coherent.numbered ha
  have hkept : u.vars.Kept vars := .of_map (fun _ _ => Snapshot.adopt_fixed) hact hget
  have hothers : u.vars.Spares f vars := fun x v hv hfv => by
    have hown : ¬ ∃ v, (t.holdings f).vars x = some v := fun hown => by
      obtain ⟨v', hv'⟩ := h.continues.vars.owns_iff.mpr hown
      obtain ⟨y, hy, hfy, -⟩ := holdings_vars.mp hv'
      cases hv ▸ hy
      exact hfv hfy
    rw [hget, hv, Option.map_some, Snapshot.adopt_of_other hfv (fun r ho => ?_) fun hm => hown (hst.memory hm).1]
    obtain ⟨-, v', hv', -⟩ := hst.occupied ho
    exact hown ⟨v', hv'⟩
  exact and_assoc.mp ⟨h.quiet rfl rfl ⟨rfl, rfl, hkept, prefix_refl _⟩ hc rfl h.queued h.followed hothers, hsnap⟩

/-- Changes of one item. -/
private theorem modify (hnew : ∀ item, t.items.size ≤ id.index → u.items.get? id = some item →
      (g item).translated = true ∧ ∀ r, (g item).kind = .target r → r.state = none)
    (hbody : ∀ item0 item, id ∈ body → t.items.get? id = some item0 → u.items.get? id = some item →
      (g item).offset = item0.offset ∧ item0.kind.Becomes t.labels.size (g item).kind ∧
      (¬ busy id → (g item).translated = false → item0.kind.isTarget = false → (g item).kind = item0.kind))
    (hstop : ∀ item, id = stop → u.items.get? id = some item → (g item).kind = item.kind)
    (hstate : ∀ item r st, id ∈ body → u.items.get? id = some item → (g item).kind = .target r → r.state = some st →
      st.Fits (t.holdings f))
    (hjump : ∀ item j st, id ∈ body → u.items.get? id = some item → (g item).kind = .jump j → j.state = some st →
      st.Fits (t.holdings f))
    (hkeep : ∀ item, id ∈ body → u.items.get? id = some item → item.kind.isTarget = true →
      (walking → item.translated = true) →
      (g item).kind = item.kind ∧ (item.translated = true → (g item).translated = true)) :
    t.Midway f start stop body busy { u with items := u.items.modify id g } ∧
      u.Keeps walking body { u with items := u.items.modify id g } := by
  have hget : ∀ {x item'}, (u.items.modify id g).get? x = some item' →
      (x ≠ id ∧ u.items.get? x = some item') ∨ (x = id ∧ ∃ item, u.items.get? x = some item ∧ item' = g item) :=
    get?_modify_cases
  have hput : ∀ {x item}, u.items.get? x = some item →
      (u.items.modify id g).get? x = some (if x = id then g item else item) := by
    intro x item hx
    by_cases hxi : x = id
    · subst hxi
      rw [get?_modify_self, hx, if_pos rfl]
      rfl
    · rw [get?_modify_of_ne _ (Ne.symm hxi), hx, if_neg hxi]
  obtain ⟨extra, he, hs⟩ := h.spans
  have hsize : (u.items.modify id g).size = u.items.size := by simp [ItemSeq.modify, size]
  refine ⟨⟨h.continues.trans ⟨rfl, rfl, .refl _, prefix_refl _⟩, h.coherent, ⟨extra, he, hs.congr rfl hsize⟩,
    ?_, h.labelled, ?_, ?_, ?_, ?_, ?_, h.queued, h.followed, h.others, h.outline⟩, le_of_eq hsize.symm,
    fun _ ho => ho, ?_⟩
  · intro x item' hx hi
    rcases hget hi with ⟨-, hu⟩ | ⟨rfl, item, hu, rfl⟩
    · exact h.generated hx hu
    · exact hnew item hx hu
  · intro x item0 hx hi0
    obtain ⟨item, hi, ho, hk⟩ := h.items hx hi0
    refine ⟨_, hput hi, ?_⟩
    by_cases hxi : x = id
    · subst hxi
      rw [if_pos rfl]
      exact ⟨(hbody item0 item hx hi0 hi).1, (hbody item0 item hx hi0 hi).2.1⟩
    · rw [if_neg hxi]
      exact ⟨ho, hk⟩
  · intro x item0 item' hx hn hi0 hi
    rcases hget hi with ⟨-, hu⟩ | ⟨rfl, item, hu, rfl⟩
    · exact h.waiting hx hn hi0 hu
    · exact (hbody item0 item hx hi0 hu).2.2 hn
  · obtain ⟨item, hi, hk⟩ := h.closes
    refine ⟨_, hput hi, ?_⟩
    by_cases hxi : stop = id
    · rw [if_pos hxi]
      exact (hstop item hxi.symm (hxi ▸ hi)).trans hk
    · rwa [if_neg hxi]
  · intro x st hx hst
    obtain ⟨item', r, hi, hk, hr⟩ := stateAt_eq_some.mp hst
    rcases hget hi with ⟨-, hu⟩ | ⟨rfl, item, hu, rfl⟩
    · exact h.targets hx (stateAt_eq_some.mpr ⟨item', r, hu, hk, hr⟩)
    · exact hstate item r st hx hu hk hr
  · intro x j st hx hj hjs
    obtain ⟨item', hi, hk⟩ := jump?_eq_some.mp hj
    rcases hget hi with ⟨-, hu⟩ | ⟨rfl, item, hu, rfl⟩
    · exact h.jumps hx (jump?_eq_some.mpr ⟨item', hu, hk⟩) hjs
    · exact hjump item j st hx hu hk hjs
  · intro x item hx hi hk hw
    refine ⟨_, hput hi, ?_⟩
    by_cases hxi : x = id
    · subst hxi
      rw [if_pos rfl]
      exact hkeep item hx hi hk hw
    · rw [if_neg hxi]
      exact ⟨rfl, fun h => h⟩

end

theorem flag (id : ItemId) (h : t.Midway f start stop body busy u) (hk : ∀ item, (g item).kind = item.kind)
    (ho : ∀ item, (g item).offset = item.offset) (ht : ∀ item, item.translated = true → (g item).translated = true) :
    t.Midway f start stop body busy { u with items := u.items.modify id g } ∧
      u.Keeps False body { u with items := u.items.modify id g } := by
  refine h.modify ?_ ?_ (fun item _ _ => hk item) ?_ ?_ fun item _ _ _ _ => ⟨hk item, ht item⟩
  · intro item hx hi
    rw [hk]
    exact ⟨ht _ (h.generated hx hi).1, (h.generated hx hi).2⟩
  · intro item0 item hx hi0 hi
    obtain ⟨ho', hk'⟩ := h.becomes hx hi0 hi
    rw [hk, ho]
    refine ⟨ho', hk', fun hn hnt => h.waiting hx hn hi0 hi ?_⟩
    by_contra htr
    rw [ht item (by simpa using htr)] at hnt
    cases hnt
  · intro item r st hx hi hkr hr
    exact h.targets hx (stateAt_eq_some.mpr ⟨item, r, hi, hk item ▸ hkr, hr⟩)
  · intro item j st hx hi hkj hj
    exact h.jumps hx (jump?_eq_some.mpr ⟨item, hi, hk item ▸ hkj⟩) hj

theorem withKind {kind : ItemKind} (h : t.Midway f start stop body busy u) (hid : id ∈ body)
    (hkind : ∀ item0, t.items.get? id = some item0 → item0.kind.Becomes t.labels.size kind)
    (hwait : busy id ∨ kind.isTarget = true)
    (hstate : ∀ r st, kind = .target r → r.state = some st → st.Fits (t.holdings f))
    (hjump : ∀ j st, kind = .jump j → j.state = some st → st.Fits (t.holdings f))
    (hkeep : ∀ item, u.items.get? id = some item → item.kind.isTarget = true → (walking → item.translated = true) →
      kind = item.kind) :
    t.Midway f start stop body busy (u.withKind id kind) ∧ u.Keeps walking body (u.withKind id kind) := by
  refine h.modify ?_ ?_ ?_ (fun _ r st _ _ => hstate r st) (fun _ j st _ _ => hjump j st)
    fun item _ hi hk hw => ⟨hkeep item hi hk hw, fun h => h⟩
  · exact fun item hx => absurd hx (not_le.mpr (h.old hid).1)
  · intro item0 item hx hi0 hi
    have ho' := (h.becomes hx hi0 hi).1
    refine ⟨ho', hkind item0 hi0, fun hn _ hnt => ?_⟩
    -- only a target may change while it waits
    rw [← (hkind item0 hi0).isTarget_eq, hwait.resolve_left hn] at hnt
    cases hnt
  · exact fun item he => absurd (he ▸ hid) h.outline.outer.2

theorem dropping (h : t.Midway f start stop body busy u)
    (ho : u.items.order = X ++ id :: (Y ++ stop :: Z)) (hne : id ≠ start) :
    t.Midway f start stop body busy (u.dropping id) ∧ u.Keeps False body (u.dropping id) := by
  obtain ⟨extra, he, hs⟩ := h.spans
  have horder : (u.items.chain.unlink id).ids = u.items.order.erase id := Chain.ids_unlink
  obtain ⟨h1, k1⟩ : t.Midway f start stop body busy _ ∧ u.Keeps False body { u with
      items := { u.items with
        chain := u.items.chain.unlink id
        cursor := if u.items.cursor = some id then u.items.prev? id else u.items.cursor } } :=
    h.extend ⟨rfl, rfl, .refl _, prefix_refl _⟩ h.labelled h.coherent (.refl _) rfl rfl
      ⟨extra, he, hs.erase ho hne horder rfl⟩
      (fun _ hx => mem_of_mem_erase (horder ▸ hx : _ ∈ u.items.order.erase id)) (le_refl _) (fun _ => rfl)
      fun hx hi => absurd (lt_size_of_get? hi) (not_lt.mpr hx)
  obtain ⟨h2, k2⟩ := h1.flag id (g := ({ · with unreachable := true })) (fun _ => rfl) (fun _ => rfl) fun _ h => h
  obtain ⟨h3, k3⟩ : t.Midway f start stop body busy (u.dropping id) ∧ Keeps False body _ (u.dropping id) :=
    h2.quiet rfl rfl ⟨rfl, rfl, .refl _, prefix_refl _⟩ h2.coherent rfl h2.queued h2.followed (.refl _)
  exact ⟨h3, k1.trans (k2.trans k3)⟩

theorem leaving (h : t.Midway f start stop body (· = id) u)
    (ht : ∀ item0, t.items.get? id = some item0 → item.translated = true → item0.kind.isTarget = true) :
    t.Midway f start stop body (fun _ => False) (u.leaving id item) ∧ u.Keeps False body (u.leaving id item) := by
  unfold Session.leaving
  by_cases hi : item.translated = true
  · rw [if_pos hi]
    refine ⟨{ h with waiting := fun {x item0 item'} hx _ hi0 hix htr hnt => ?_ }, .refl _⟩
    by_cases hxi : x = id
    · subst hxi
      rw [ht item0 hi0 hi] at hnt
      cases hnt
    · exact h.waiting hx hxi hi0 hix htr hnt
  · rw [if_neg hi]
    obtain ⟨h1, k1⟩ := h.flag id (g := ({ · with translated := true })) (fun _ => rfl) (fun _ => rfl) fun _ _ => rfl
    obtain ⟨h2, k2⟩ : t.Midway f start stop body (· = id) _ ∧ Keeps False body _ { u with
        items := u.items.modify id ({ · with translated := true })
        stats := { u.stats with itemsTranslated := u.stats.itemsTranslated + 1 } } :=
      h1.quiet rfl rfl ⟨rfl, rfl, .refl _, prefix_refl _⟩ h1.coherent rfl h1.queued h1.followed (.refl _)
    refine ⟨{ h2 with waiting := fun {x item0 item'} hx _ hi0 hix htr hnt => ?_ }, k1.trans k2⟩
    by_cases hxi : x = id
    · subst hxi
      rw [get?_modify_self, Option.map_eq_some_iff] at hix
      obtain ⟨_, -, rfl⟩ := hix
      cases htr
    · exact h2.waiting hx hxi hi0 hix htr hnt

section
variable (h : t.Midway f start stop body busy u)
include h

private theorem redirect {label : LabelId}
    (hid : id ∈ body) (hb : busy id) (hi : u.items.get? id = some item) (hk : item.kind = .jump j)
    (hl : t.labels.size ≤ label.index) :
    t.Midway f start stop body busy (u.withKind id (.jump { j with target := label })) ∧
      u.Keeps False body (u.withKind id (.jump { j with target := label })) := by
  refine h.withKind hid (fun item0 hi0 => ?_) (.inl hb) (fun r st hr => by cases hr) ?_ ?_
  · have hbec := (h.becomes hid hi0 hi).2
    obtain ⟨j0, target, state, hk0, rfl, -⟩ := (hk ▸ hbec).of_jump
    rw [hk0]
    exact ⟨label, state, rfl, .inr hl⟩
  · intro j' st hj' hst
    cases hj'
    exact h.jumps hid (jump?_eq_some.mpr ⟨item, hi, hk⟩) hst
  · intro item' hi' ht
    cases hi ▸ hi'
    rw [hk] at ht
    cases ht

private theorem closeBlock (he : u.ctx.extraBlock = some extra) (hv : t.Midway f start stop body busy v)
    (hi : v.items = (u.items.setCursor (some extra)).generateAll v.mark code) :
    t.Midway f start stop body busy (v.closeBlock target extra) ∧ v.Keeps False body (v.closeBlock target extra) := by
  obtain ⟨e, he', hs⟩ := h.spans
  cases he ▸ he'
  have hs' : (u.items.setCursor (some extra)).Spans t.items.size body start stop extra := hs.congr rfl rfl
  refine hv.extend ⟨rfl, rfl, .refl _, by simp [Session.closeBlock]⟩ ?_ hv.coherent (.refl _) rfl rfl ⟨_, rfl, ?_⟩ ?_ ?_ ?_ ?_
  · intro l x hl hx
    simp only [Session.closeBlock, Array.getElem?_push] at hx
    split at hx
    · cases hx
      exact hv.size_le.trans (Nat.le_succ _)
    · exact hv.labelled hl hx
  · have hsize : v.items.size = (u.items.setCursor (some extra)).size + code.length := by
      rw [hi, size_generateAll]
    rw [hsize]
    simp only [Session.closeBlock]
    rw [hi]
    exact hs'.closeBlock rfl
  · exact mem_order_of_closeBlock
  · simp only [Session.closeBlock]
    rw [size_closeBlock]
    exact Nat.le_add_right _ _
  · exact get?_closeBlock_of_lt
  · intro x item hx hxi
    rcases get?_closeBlock_new hx hxi with rfl | ⟨htr, hk⟩
    · exact ⟨rfl, fun g hg => by cases hg; rfl⟩
    refine ⟨?_, fun g hg => by rw [hk] at hg; cases hg⟩
    rw [htr, mark, hv.continues.active_eq, hv.outline.active]
    rfl

theorem outOfLine (he : u.ctx.extraBlock = some extra) (hst : st.Fits (t.holdings f))
    (hr : restoreState st (u.atCursor (some extra)) = .ok () v) (hid : id ∈ body) (hb : busy id)
    (hj : u.jump? id = some j) :
    t.Midway f start stop body busy (v.detour id j extra) ∧ u.Keeps False body (v.detour id j extra) := by
  obtain ⟨h1, k1⟩ := h.atCursor (some extra)
  obtain ⟨hm, -⟩ := restoreState_moves h1.coherent (h1.continues.fits hst) h1.function hr
  obtain ⟨h2, k2⟩ := h1.moves hm
  obtain ⟨code, -, hi⟩ := hm.run
  unfold detour
  by_cases hc : v.items.cursor = some extra
  · rw [if_pos hc]
    exact ⟨h2, k1.trans k2⟩
  rw [if_neg hc]
  have hmark : v.mark = u.mark := hm.mark_eq
  obtain ⟨h3, k3⟩ : t.Midway f start stop body busy (v.closeBlock j.target extra) ∧ _ :=
    h.closeBlock he h2 (hmark ▸ hi)
  obtain ⟨item, hiu, hk⟩ := jump?_eq_some.mp hj
  have hiw : (v.closeBlock j.target extra).items.get? id = some item := by
    refine (get?_closeBlock_of_lt (h2.old hid).2).trans ?_
    rw [hi]
    exact (get?_generateAll_of_lt _ _ (h1.old hid).2).trans hiu
  obtain ⟨h4, k4⟩ := h3.redirect hid hb hiw hk h2.continues.labels_size
  exact ⟨h4, k1.trans (k2.trans (k3.trans k4))⟩

end

end Session.Midway

end Codegen
