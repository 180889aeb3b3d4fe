import Codegen.Proofs.Causes

/-! The order of the items under any calls. It is a list without repetitions whose elements are the linked items, and
every call edits it at one place. A call that fails changes nothing. -/
namespace Codegen
open List

/-- A call that makes, links or unlinks an item, or moves the cursor. -/
inductive ItemCall where
  | create (kind : ItemKind)
  | insert (id : ItemId)
  | insertAfter (id anchor : ItemId)
  | unlink (id : ItemId)
  | setCursor (cursor : Option ItemId)
  deriving DecidableEq, Repr

namespace ItemCall

def run : ItemCall → Build Unit
  | create kind => do let _ ← Build.create kind
  | insert id => Build.insert id
  | insertAfter id anchor => Build.insertAfter id anchor
  | unlink id => Build.unlink id
  | setCursor cursor => Build.setCursor cursor

/-- The session after a call, whether it succeeds or fails. -/
def after (s : Session) (call : ItemCall) : Session :=
  match call.run s with
  | .error _ t => t
  | .ok _ t => t

/-- The calls that succeed. -/
def Legal (q : ItemSeq) : ItemCall → Prop
  | create _ => True
  | insert id => id.index < q.size ∧ q.isLinked id = false ∧ ∀ anchor, q.cursor = some anchor → q.isLinked anchor = true
  | insertAfter id anchor => id.index < q.size ∧ q.isLinked id = false ∧ q.isLinked anchor = true
  | unlink id => q.isLinked id = true
  | setCursor _ => True

/-- What a call does to a list with a cursor. -/
inductive Edits : ItemCall → List ItemId → Option ItemId → List ItemId → Option ItemId → Prop
  | create {kind : ItemKind} {l : List ItemId} {c : Option ItemId} : Edits (create kind) l c l c
  | insertBehind {id anchor : ItemId} {A C : List ItemId} :
    Edits (insert id) (A ++ anchor :: C) (some anchor) (A ++ anchor :: id :: C) (some id)
  | insertFirst {id : ItemId} {l : List ItemId} : Edits (insert id) l none (id :: l) (some id)
  | insertAfter {id anchor : ItemId} {A C : List ItemId} {c : Option ItemId} :
    Edits (insertAfter id anchor) (A ++ anchor :: C) c (A ++ anchor :: id :: C) c
  | unlink {id : ItemId} {A C : List ItemId} {c : Option ItemId} :
    Edits (unlink id) (A ++ id :: C) c (A ++ C) (if c = some id then A.getLast? else c)
  | setCursor {l : List ItemId} {c cursor : Option ItemId} : Edits (setCursor cursor) l c l cursor

end ItemCall

namespace ItemSeq
variable {q : ItemSeq} {id anchor : ItemId} {cursor : Option ItemId}

/-- An order that has one more item. -/
theorem Linear.of_perm {chain : Chain} (h : q.Linear) (hid : id.index < q.size)
    (hp : chain.ids.Perm (id :: q.order)) : ({ q with chain, cursor } : ItemSeq).Linear := by
  refine ⟨nodup_order _, fun x hx => ?_⟩
  rcases mem_cons.mp (hp.mem_iff.mp hx) with rfl | hx
  · exact hid
  · exact h.made x hx

theorem perm_splice : (A ++ anchor :: id :: C).Perm (id :: (A ++ anchor :: C)) := by
  rw [append_cons, append_cons A anchor C]
  exact perm_middle

section
open Build (except_bind_ok except_pure_ok except_check_ok)

theorem insertFirst_ok_iff : (∃ q', q.insertFirst id = .ok q') ↔ id.index < q.size ∧ q.isLinked id = false := by
  simp only [insertFirst, except_bind_ok, get_ok, except_check_ok, except_pure_ok]
  constructor
  · rintro ⟨_, _, hi, hn, -⟩
    exact ⟨lt_size_of_get? hi, by simpa using hn⟩
  rintro ⟨hi, hn⟩
  obtain ⟨item, hi⟩ := get?_of_lt_size hi
  exact ⟨_, item, hi, by simpa using hn, rfl⟩

namespace Linear
variable (h : q.Linear)
include h

theorem insertAfter_ok_iff : (∃ q', q.insertAfter id anchor = .ok q') ↔ (ItemCall.insertAfter id anchor).Legal q := by
  simp only [insertAfter, except_bind_ok, get_ok, except_check_ok, except_pure_ok, ItemCall.Legal]
  constructor
  · rintro ⟨_, _, hi, hn, _, -, ha, -⟩
    exact ⟨lt_size_of_get? hi, by simpa using hn, by simpa using ha⟩
  rintro ⟨hi, hn, ha⟩
  obtain ⟨item, hi⟩ := get?_of_lt_size hi
  obtain ⟨item', hi'⟩ := get?_of_lt_size (h.made anchor (isLinked_iff.mp ha))
  exact ⟨_, item, hi, by simpa using hn, item', hi', by simpa using ha, rfl⟩

theorem insert_ok_iff : (∃ q', q.insert id = .ok q') ↔ (ItemCall.insert id).Legal q := by
  have hmove : ∀ x : Except Error ItemSeq, (∃ q', (do return (← x).setCursor (some id)) = Except.ok q') ↔
      ∃ q', x = .ok q' := fun x => by cases x <;> simp [bind, Except.bind, pure, Except.pure]
  unfold insert ItemCall.Legal
  cases hc : q.cursor with
  | none => exact (hmove _).trans (insertFirst_ok_iff.trans (by simp))
  | some anchor => exact (hmove _).trans (h.insertAfter_ok_iff.trans (by simp [ItemCall.Legal]))

theorem unlink_ok_iff : (∃ q', q.unlink id = .ok q') ↔ (ItemCall.unlink id).Legal q := by
  simp only [unlink, except_bind_ok, get_ok, except_check_ok, except_pure_ok, ItemCall.Legal]
  constructor
  · rintro ⟨_, _, -, hl, -⟩
    simpa using hl
  intro hl
  obtain ⟨item, hi⟩ := get?_of_lt_size (h.made id (isLinked_iff.mp hl))
  exact ⟨_, item, hi, by simpa using hl, rfl⟩

theorem spliceAfter_eq (ha : anchor ∈ q.order) : ∃ A C, q.order = A ++ anchor :: C ∧
    spliceAfter id anchor q.order = A ++ anchor :: id :: C := by
  obtain ⟨A, C, ho⟩ := append_of_mem ha
  have hA : anchor ∉ A := (nodup_middle.mp (ho ▸ h.nodup)).notMem ∘ mem_append_left C
  exact ⟨A, C, ho, by rw [ho, spliceAfter_append hA]⟩

theorem insertAfter_edits (hr : q.insertAfter id anchor = .ok q') : q'.Linear ∧
    (ItemCall.insertAfter id anchor).Edits q.order q.cursor q'.order q'.cursor := by
  obtain ⟨hlt, -⟩ := h.insertAfter_ok_iff.mp ⟨_, hr⟩
  obtain ⟨hn, ha, rfl⟩ := insertAfter_ok hr
  obtain ⟨A, C, ho, hsplice⟩ := h.spliceAfter_eq ha
  have horder : (q.chain.insertAfter id anchor).ids = A ++ anchor :: id :: C :=
    (Chain.ids_insertAfter.trans (if_neg hn)).trans hsplice
  refine ⟨h.of_perm hlt ?_, ?_⟩
  · rw [horder, ho]
    exact perm_splice
  · rw [order, order, horder, ← order, ho]
    exact .insertAfter

theorem insert_edits (hr : q.insert id = .ok q') : q'.Linear ∧
    (ItemCall.insert id).Edits q.order q.cursor q'.order q'.cursor := by
  obtain ⟨hlt, -⟩ := h.insert_ok_iff.mp ⟨_, hr⟩
  obtain ⟨hn, ha, rfl⟩ := insert_ok hr
  have horder := ids_grown hn
  obtain hc | ⟨anchor, hc⟩ := Option.eq_none_or_eq_some q.cursor <;> simp only [hc] at horder ⊢
  · refine ⟨h.of_perm hlt (.of_eq horder), ?_⟩
    rw [order, order, horder]
    exact .insertFirst
  obtain ⟨A, C, ho, hsplice⟩ := h.spliceAfter_eq (ha anchor hc)
  rw [hsplice] at horder
  refine ⟨h.of_perm hlt ?_, ?_⟩
  · rw [horder, ho]
    exact perm_splice
  · rw [order, order, horder, ← order, ho]
    exact .insertBehind

theorem unlink_edits (hr : q.unlink id = .ok q') : q'.Linear ∧
    (ItemCall.unlink id).Edits q.order q.cursor q'.order q'.cursor := by
  obtain ⟨hid, rfl⟩ := unlink_ok hr
  have horder : (q.chain.unlink id).ids = q.order.erase id := Chain.ids_unlink
  have hsub : (q.chain.unlink id).ids ⊆ q.order := horder ▸ erase_subset
  refine ⟨⟨nodup_order _, fun x hx => h.made x (hsub hx)⟩, ?_⟩
  obtain ⟨A, C, ho⟩ := append_of_mem hid
  have hn := (nodup_middle.mp (ho ▸ h.nodup)).notMem
  have hA : id ∉ A := hn ∘ mem_append_left C
  have hC : id ∉ C := hn ∘ mem_append_right A
  rw [ho, erase_append_right _ hA, erase_cons_head] at horder
  rw [prev?_eq_preceding, order, order, horder, ← order, ho, preceding_append hA hC]
  exact .unlink

end Linear

end

end ItemSeq

namespace ItemCall
variable {call : ItemCall}

/-- The call succeeds if it is legal, and edits the order; else it fails and changes nothing. -/
def Acts (s : Session) (call : ItemCall) : Prop :=
  (call.Legal s.items ∧ ∃ t, call.run s = .ok () t ∧
    call.Edits s.items.order s.items.cursor t.items.order t.items.cursor) ∨
  (¬ call.Legal s.items ∧ ∃ e, call.run s = .error e s)

theorem edit_cases (g : ItemSeq → Except Error ItemSeq)
    (hrun : call.run = (do let items ← g (← get).items; modify ({ · with items })))
    (hlegal : (∃ q, g s.items = .ok q) ↔ call.Legal s.items)
    (hok : ∀ {q}, g s.items = .ok q → q.Linear ∧ call.Edits s.items.order s.items.cursor q.order q.cursor) :
    call.Acts s ∧ ∀ t, call.run s = .ok () t → t.items.Linear := by
  cases hg : g s.items with
  | ok q =>
    have hr : call.run s = .ok () { s with items := q } := hrun ▸ Build.edit_ok.mpr ⟨q, hg, rfl⟩
    refine ⟨.inl ⟨hlegal.mp ⟨q, hg⟩, _, hr, (hok hg).2⟩, fun t ht => ?_⟩
    cases hr ▸ ht
    exact (hok hg).1
  | error e =>
    have hr : call.run s = .error e s := by
      rw [hrun]
      exact Build.bind_error.mpr (.inr ⟨s, s, rfl, Build.bind_error.mpr (.inl (by rw [hg]; rfl))⟩)
    refine ⟨.inr ⟨fun hl => ?_, e, hr⟩, fun t ht => ?_⟩
    · obtain ⟨q, hq⟩ := hlegal.mpr hl
      cases hq ▸ hg
    · cases hr ▸ ht

theorem run_spec (h : s.items.Linear) (call : ItemCall) :
    call.Acts s ∧ ∀ t, call.run s = .ok () t → t.items.Linear := by
  cases call with
  | create kind =>
    refine ⟨.inl ⟨trivial, _, rfl, .create⟩, fun t ht => ?_⟩
    cases ht
    exact ⟨h.nodup, fun x hx => Nat.lt_of_lt_of_le (h.made x hx) (by simp [ItemSeq.size])⟩
  | setCursor cursor =>
    refine ⟨.inl ⟨trivial, _, rfl, .setCursor⟩, fun t ht => ?_⟩
    cases ht
    exact ⟨h.nodup, h.made⟩
  | insert id => exact edit_cases (·.insert id) rfl h.insert_ok_iff h.insert_edits
  | insertAfter id anchor => exact edit_cases (·.insertAfter id anchor) rfl h.insertAfter_ok_iff h.insertAfter_edits
  | unlink id => exact edit_cases (·.unlink id) rfl h.unlink_ok_iff h.unlink_edits

theorem linear_after (h : s.items.Linear) (calls : List ItemCall) : (calls.foldl after s).items.Linear := by
  induction calls generalizing s with
  | nil => exact h
  | cons call calls ih =>
    refine ih ?_
    obtain ⟨⟨-, t, hr, -⟩ | ⟨-, e, hr⟩, ht⟩ := run_spec h call <;> unfold after <;> rw [hr]
    · exact ht t hr
    · exact h

/-- After any calls the order is a list without repetitions of the linked items, with its ends and neighbours where they
are asked for and its segments as ranges, and the next call edits it at one place or fails and changes nothing. -/
theorem order_refines_list (options : Options) (calls : List ItemCall) :
    let s := calls.foldl after { options }
    s.items.order.Nodup ∧ (∀ x, s.items.isLinked x = true ↔ x ∈ s.items.order) ∧
    (∀ x ∈ s.items.order, ∃ item, s.items.get? x = some item) ∧
    s.items.first? = s.items.order.head? ∧ s.items.last? = s.items.order.getLast? ∧
    (∀ A x C, s.items.order = A ++ x :: C → s.items.prev? x = A.getLast? ∧ s.items.next? x = C.head?) ∧
    (∀ x, s.items.isLinked x = false → s.items.prev? x = none ∧ s.items.next? x = none) ∧
    (∀ A D C a b, s.items.order = A ++ (D ++ C) → D.head? = some a → D.getLast? = some b → s.items.range a b = D) ∧
    ∀ call : ItemCall, call.Acts s := by
  intro s
  have h : s.items.Linear := linear_after ⟨ItemSeq.nodup_order _, by simp [ItemSeq.empty]⟩ calls
  have hc := s.items.chains
  refine ⟨h.nodup, fun _ => ItemSeq.isLinked_iff, fun x hx => ItemSeq.get?_of_lt_size (h.made x hx), hc.first, hc.last,
    fun A x C ho => ?_, fun x hx => ?_, fun A D C a b ho => ItemSeq.range_eq ho h.nodup, fun call => (run_spec h call).1⟩
  · rw [ItemSeq.prev?, ItemSeq.next?, hc.member ho]
    exact ⟨rfl, rfl⟩
  · have hx : x ∉ s.items.order := fun hm => by simp [ItemSeq.isLinked_iff.mpr hm] at hx
    rw [ItemSeq.prev?, ItemSeq.next?, hc.other hx]
    exact ⟨rfl, rfl⟩

end ItemCall

end Codegen
