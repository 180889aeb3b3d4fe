import Codegen.Proofs.Moments

/-! All ways into a target agree: whichever way control comes, the allocator arrives in the state in which the code behind
the target was translated. -/
namespace Codegen
open Build ItemSeq Option

namespace Session
variable {t u u' : Session} {start stop : ItemId} {body : List ItemId}
  {busy : ItemId → Prop}
variable {id : ItemId} {next : Option ItemId} {st : Snapshot}

def isTranslated (u : Session) (x : ItemId) : Bool := (u.items.get? x).any (·.translated)

def isTarget (u : Session) (x : ItemId) : Bool := (u.items.get? x).any (·.kind.isTarget)

/-- Items that are there stay as they are, but for one. -/
structure Spares (id : ItemId) (u u' : Session) : Prop where
  size : u.items.size ≤ u'.items.size
  items : ∀ {x}, x ≠ id → x.index < u.items.size → u'.items.get? x = u.items.get? x

namespace Spares

theorem of_items_eq (h : u'.items = u.items) : u.Spares id u' := ⟨le_of_eq (h ▸ rfl), fun _ _ => h ▸ rfl⟩

theorem trans (h : u.Spares id v) (h' : v.Spares id w) : u.Spares id w := ⟨h.size.trans h'.size,
    fun hx hlt => (h'.items hx (hlt.trans_le h.size)).trans (h.items hx hlt)⟩

theorem of_moves (h : u.Moves f may u') : u.Spares id u' := by
  obtain ⟨code, -, hi⟩ := h.run
  refine ⟨?_, fun _ hlt => ?_⟩
  · rw [hi, size_generateAll]
    exact Nat.le_add_right _ _
  · rw [hi, get?_generateAll_of_lt _ _ hlt]

theorem withKind (u : Session) (id : ItemId) (kind : ItemKind) : u.Spares id (u.withKind id kind) :=
  ⟨le_of_eq (by simp [Session.withKind, ItemSeq.modify, ItemSeq.size]),
    fun hx _ => get?_modify_of_ne _ (Ne.symm hx) _⟩

theorem leaving (u : Session) (id : ItemId) (item : Item) : u.Spares id (u.leaving id item) :=
  ⟨le_of_eq (leaving_size u id item).symm, fun hx _ => leaving_get? u id item hx⟩

theorem detour (u : Session) (id : ItemId) (j : JumpItem) (extra : ItemId) : u.Spares id (u.detour id j extra) := by
  unfold Session.detour
  split
  · exact .of_items_eq rfl
  refine trans ⟨?_, fun _ => get?_closeBlock_of_lt⟩ (withKind _ _ _)
  rw [closeBlock, size_closeBlock]
  exact Nat.le_add_right _ _

end Spares

/-- The items made first since `u` are the code that leads from the allocator state `a` to the snapshot `st`. Where
they stand is not said. -/
def Reconciles (f : FunctionId) (a st : Snapshot) (u u' : Session) : Prop :=
  ∃ c v, c.snapshot f = a ∧ c.items.size = u.items.size ∧ restoreState st c = .ok () v ∧ v.Meets f st ∧
    ∀ {x : ItemId}, u.items.size ≤ x.index → x.index < v.items.size → u'.items.get? x = v.items.get? x

theorem Spares.reconciles (h : v.Spares id u') (hid : id.index < u.items.size)
    (ha : c.snapshot f = a) (hc : c.items.size = u.items.size) (hr : restoreState st c = .ok () v)
    (hm : v.Meets f st) : Reconciles f a st u u' := by
  refine ⟨c, v, ha, hc, hr, hm, fun hx => h.items ?_⟩
  rintro rfl
  exact not_lt.mpr hx hid

theorem JumpsTo.unique (h : t.JumpsTo id T) (h' : t.JumpsTo id T') : T' = T := by
  obtain ⟨item, j, hi, hk, hl⟩ := h
  obtain ⟨item', j', hi', hk', hl'⟩ := h'
  cases hi ▸ hi'
  cases hk ▸ hk'
  exact some.inj (hl' ▸ hl)

theorem leaving_stateAt (u : Session) (id : ItemId) (item : Item) (x : ItemId) :
    (u.leaving id item).stateAt x = u.stateAt x := by
  by_cases hx : x = id
  · have hk := leaving_kind u x item
    unfold stateAt
    cases hi : u.items.get? x <;> cases hi' : (u.leaving x item).items.get? x <;> simp_all
  · unfold stateAt
    rw [leaving_get? u id item hx]

theorem leaving_snapshot (u : Session) (id : ItemId) (item : Item) : (u.leaving id item).snapshot f = u.snapshot f := by
  unfold leaving
  split <;> rfl

theorem stateAt_withKind_self (hi : u.items.get? T = some item) :
    (u.withKind T (.target r)).stateAt T = r.state := by
  simp [stateAt, withKind, get?_modify_self, hi]

theorem stateAt_withKind_of_ne (h : T ≠ id) : (u.withKind id kind).stateAt T = u.stateAt T := by
  simp [stateAt, withKind, get?_modify_of_ne _ (Ne.symm h)]

theorem JumpsTo.ne (h : t.JumpsTo id T) (hT : t.isTarget T = true) : T ≠ id := by
  obtain ⟨item, j, hi, hk, -⟩ := h
  rintro rfl
  simp [isTarget, hi, hk, ItemKind.isTarget] at hT

namespace Midway

section
variable (h : t.Midway f start stop body busy u)
include h

theorem jumpsTo (hid : id ∈ body) (hj : u.jump? id = some j) (hl : u.labels[j.target.index]? = some T)
    (hT : T ∈ body) :
    t.JumpsTo id T := by
  have hnew : ¬ t.labels.size ≤ j.target.index := fun hnew => not_lt.mpr (h.labelled hnew hl) (h.old hT).1
  exact h.jumpsTo_of_lt hid hj hl (Nat.lt_of_not_le hnew)

theorem target_item (hT : T ∈ body) (ht : t.isTarget T = true) :
    ∃ item r, u.items.get? T = some item ∧ item.kind = .target r := by
  obtain ⟨item0, hi0, hk0⟩ := any_eq_true _ _ |>.mp ht
  obtain ⟨item, hi, -, hbec⟩ := h.items hT hi0
  refine ⟨item, ?_⟩
  cases hk : item.kind with
  | target r => exact ⟨r, hi, rfl⟩
  | _ =>
    rw [← hbec.isTarget_eq, hk] at hk0
    cases hk0

section
variable (hout : t.Outline f start stop body) (hT : T ∈ body) (ht : t.isTarget T = true)
include hout hT ht

theorem again (htr : u.isTranslated T = true) (hr : translateItem T u = .ok next u') :
    ∃ st, u.stateAt T = some st ∧ Reconciles f (u.snapshot f) st u u' := by
  obtain ⟨item, r, hi, hk⟩ := h.target_item hT ht
  obtain ⟨item', w, hi', -, hkind, rfl⟩ := translateItem_ok hr
  cases hi ▸ hi'
  have htr' : item.translated = true := by simpa [isTranslated, hi] using htr
  simp only [translateKind, hk, htr'] at hkind
  obtain ⟨h1, -⟩ := h.entering T item
  rcases translateTarget_ok hkind with ⟨-, -, st, hst, hres⟩ | ⟨hf, -⟩ | ⟨hf, -⟩ | ⟨hf, -⟩
  · have hstate : u.stateAt T = some st := stateAt_eq_some.mpr ⟨item, r, hi, hk, hst⟩
    obtain ⟨-, hmeets⟩ := restoreState_moves h1.coherent (h1.continues.fits (h.targets hT hstate))
      (h1.continues.function_eq.trans hout.function) hres
    exact ⟨st, hstate, (Spares.leaving w T item).reconciles (c := u.entering T item) (h.old hT).2 rfl rfl hres hmeets⟩
  all_goals cases hf

/-- A target is come to for the first time. -/
theorem first (htr : u.isTranslated T = false) (hr : translateItem T u = .ok next u') :
    u'.isTranslated T = true ∧ (T ∉ u'.items.order ∨ ∃ st, u'.stateAt T = some st ∧ next = u'.items.next? T ∧
      u'.snapshot f = st ∧ (u.ctx.unreachable = false → u.snapshot f = st)) := by
  obtain ⟨item, r, hi, hk⟩ := h.target_item hT ht
  obtain ⟨item', w, hi', -, hkind, rfl⟩ := translateItem_ok hr
  cases hi ▸ hi'
  have htr' : item.translated = false := by simpa [isTranslated, hi] using htr
  simp only [translateKind, hk] at hkind
  obtain ⟨h1, -⟩ := h.entering T item
  obtain ⟨h2, -⟩ := h1.target hT hi hk hkind
  obtain ⟨itemw, rw, hiw, hkw⟩ := h2.target_item hT ht
  refine ⟨?_, ?_⟩
  · simp [isTranslated, Session.leaving, htr', get?_modify_self, hiw]
  rw [leaving_order, leaving_stateAt, leaving_snapshot, leaving_next?]
  rcases translateTarget_ok hkind with ⟨hf, -⟩ | ⟨-, -, -, hrem⟩ | ⟨-, hun, hnext, st, hst, ha⟩ |
    ⟨-, hun, hnext, g, item', r', hg, hi', hk', rfl⟩
  · cases htr' ▸ hf
  · exact .inl (not_mem_of_removeUntilTarget (s := u.entering T item) hi (by simp [hk, ItemKind.isFunctionEnd]) hrem)
  · obtain ⟨h3, -⟩ := h1.reach false
    obtain ⟨-, -, hsnap⟩ := h3.adopt (h.targets hT (stateAt_eq_some.mpr ⟨item, r, hi, hk, hst⟩)) ha
    obtain ⟨vars, rfl, -⟩ := assignState_ok (h3.continues.function_eq.trans hout.function) h3.coherent.numbered ha
    refine .inr ⟨st, stateAt_eq_some.mpr ⟨item, r, hi, hk, hst⟩, hnext, hsnap, fun hre => ?_⟩
    cases hre ▸ hun
  · cases h1.function ▸ hg
    exact .inr ⟨u.snapshot f, stateAt_withKind_self hi', hnext, rfl, fun _ => rfl⟩

end

end

theorem jump_item (h : t.Midway f start stop body (fun _ => False) u) (hid : id ∈ body) (ht : t.JumpsTo id T)
    (hr : translateItem id u = .ok next u') :
    ∃ item j w, u.items.get? id = some item ∧ item.kind = .jump j ∧ u.labels[j.target.index]? = some T ∧
      translateJump id j (u.entering id item) = .ok next w ∧ u' = w.leaving id item := by
  obtain ⟨item0, j, hi0, hk0, hl0⟩ := ht
  obtain ⟨item, w, hi, htarget, hkind, rfl⟩ := translateItem_ok hr
  have hk : item.kind = .jump j := by
    have hbec := (h.becomes hid hi0 hi).2
    have hnt : item0.kind.isTarget = false := by rw [hk0]; rfl
    refine (h.waiting hid (fun hf => hf) hi0 hi ?_ hnt).trans hk0
    by_contra htr
    cases htarget (by simpa using htr) ▸ hbec.isTarget_eq.trans hnt
  simp only [translateKind, hk] at hkind
  exact ⟨item, j, w, hi, hk, (h.continues.labels_eq (Array.getElem?_eq_some_iff.mp hl0).1).trans hl0, hkind, rfl⟩

end Midway

theorem Keeps.translated (h : u.Keeps True body u') (hT : T ∈ body) (ht : u.isTarget T = true)
    (htr : u.isTranslated T = true) : u'.isTranslated T = true ∧ u'.stateAt T = u.stateAt T := by
  obtain ⟨item, hi, hk⟩ := any_eq_true _ _ |>.mp ht
  have htr' : item.translated = true := by simpa [isTranslated, hi] using htr
  obtain ⟨item', hi', hk', ht'⟩ := h.targets hT hi hk fun _ => htr'
  simp [isTranslated, stateAt, hi, hi', hk', ht' htr']

end Session

open Moment Relation

namespace Session
variable {t : Session} {record : FunctionRecord} {stop : ItemId} {body : List ItemId}
variable {next : Option ItemId}

theorem Visits.target (hv : t.Visits record.item m) (hl : t.activated.Launch f record stop body) (hT : T ∈ body)
    (ht : t.activated.isTarget T = true) : m.session.isTarget T = true := by
  obtain ⟨item, r, hi, hk⟩ := (hv.sound hl).midway.target_item hT ht
  simp [isTarget, hi, hk, ItemKind.isTarget]

theorem Visits.later_iff (hv : t.Visits record.item ⟨.walk (some T), u⟩) (hl : t.activated.Launch f record stop body)
    (hT : T ∈ body) (ht : t.activated.isTarget T = true) (hu : u.isTranslated T = false)
    (hr : translateItem T u = .ok next u') (hm : t.Visits record.item m) :
    m.session.isTranslated T = true ↔ ReflTransGen Advances ⟨.walk next, u'⟩ m := by
  have hstep : Advances ⟨.walk (some T), u⟩ ⟨.walk next, u'⟩ := .item hr
  have hv' : t.Visits record.item ⟨.walk next, u'⟩ := hv.tail hstep
  constructor
  · intro hmt
    rcases ReflTransGen.total_of_right_unique Advances.rightUnique hm hv with h | h
    · have k := ((hm.sound hl).run hl h).2
      cases ((k.translated hT (hm.target hl hT ht) hmt).1 ▸ hu)
    rcases h.cases_head with rfl | ⟨m1, h1, h⟩
    · cases hmt ▸ hu
    · exact Advances.rightUnique hstep h1 ▸ h
  · intro h
    have k := ((hv'.sound hl).run hl h).2
    have htr := ((hv.sound hl).1.first hl.toOutline hT ht hu hr).1
    exact (k.translated hT (hv'.target hl hT ht) htr).1

theorem Visits.once (hv : t.Visits record.item ⟨.walk (some T), u⟩)
    (hv1 : t.Visits record.item ⟨.walk (some T), u1⟩) (hl : t.activated.Launch f record stop body) (hT : T ∈ body)
    (ht : t.activated.isTarget T = true) (hu : u.isTranslated T = false) (hu1 : u1.isTranslated T = false) :
    u1 = u := by
  refine hv.first_unique hv1 (P := fun a => a.isTranslated T = true) (by simp [hu]) (by simp [hu1]) fun ha hna hr h => ?_
  exact (ha.later_iff hl hT ht (by simpa using hna) hr ((ha.tail (.item hr)).trans h)).mpr h

end Session

end Codegen
