import Codegen.Handle

/-! The ring of active variables. Each member knows its neighbours, the last one is followed by the first, and a
variable without neighbours is no member. -/
namespace Codegen
open List

/-- The neighbours of a member of the ring. -/
structure Link where
  next : VarId
  prev : VarId
  deriving DecidableEq, Repr

/-- Links of variables, and where the ring starts. -/
structure Links where
  head : Option VarId := none
  cells : Array (Option Link) := #[]
  deriving DecidableEq, Repr

namespace Links

def get? (r : Links) (id : VarId) : Option Link := r.cells.getD id.index none

/-- There are as many cells as were ever needed. -/
def set (r : Links) (id : VarId) (link : Option Link) : Links :=
  { r with cells := (r.cells ++ Array.replicate (id.index + 1 - r.cells.size) none).setIfInBounds id.index link }

/-- Make `b` the one that follows `a`. -/
def join (r : Links) (a b : VarId) : Links :=
  let r := r.set a ((r.get? a).map ({ · with next := b }))
  r.set b ((r.get? b).map ({ · with prev := a }))

/-- Put `id` in front of the head, which is behind all others. The first one is its own neighbour. -/
def add (r : Links) (id : VarId) : Links :=
  if (r.get? id).isSome then r
  else
    let head := r.head.getD id
    let tail := ((r.get? head).map (·.prev)).getD head
    { ((r.set id (some ⟨id, id⟩)).join tail id).join id head with head := some head }

/-- Take `id` out. The head moves on if it is taken out. -/
def remove (r : Links) (id : VarId) : Links :=
  match r.get? id with
  | none => r
  | some link =>
    let head := if link.next = id then none else if r.head = some id then some link.next else r.head
    { (r.join link.prev link.next).set id none with head }

/-- The members from `id` on, up to the one that the head follows. -/
def walk (r : Links) (head : VarId) : Nat → VarId → Option (List VarId)
  | 0, _ => none
  | fuel + 1, id =>
    match r.get? id with
    | some link => if link.next = head then some [id] else (r.walk head fuel link.next).map (id :: ·)
    | none => some [id]

/-- The members in order. There are no more than there are cells. -/
def ids (r : Links) : List VarId :=
  match r.head with
  | none => []
  | some head => (r.walk head r.cells.size head).getD []

def clear (r : Links) : Links := { r.ids.foldl (·.set · none) r with head := none }

/-- The links lead round the list, from each member to the one behind it and back, and from the last to the first. -/
structure Rings (r : Links) (l : List VarId) : Prop where
  nodup : l.Nodup
  head : r.head = l.head?
  member : ∀ {A x C}, l = A ++ x :: C → r.get? x = some ⟨(C ++ A).headD x, (C ++ A).getLastD x⟩
  other : ∀ {x}, x ∉ l → r.get? x = none

section
variable {r : Links} {l A B C E : List VarId} {id x y : VarId}

theorem get?_set {link : Option Link} : (r.set id link).get? x = if x = id then link else r.get? x := by
  obtain ⟨i⟩ := id
  obtain ⟨j⟩ := x
  simp only [get?, set, Array.getD_eq_getD_getElem?, Array.getElem?_setIfInBounds, VarId.mk.injEq]
  grind

theorem get?_join {a b : VarId} : (r.join a b).get? x =
    (r.get? x).map fun k => ⟨if x = a then b else k.next, if x = b then a else k.prev⟩ := by
  simp only [join, get?_set]
  by_cases hb : x = b
  · subst hb
    by_cases ha : x = a <;> simp [ha, Function.comp_def]
  · by_cases ha : x = a <;> simp [ha, hb]
    simp [← ha, hb]

theorem get?_with_head {head : Option VarId} : ({ r with head } : Links).get? x = r.get? x := rfl

theorem headD_eq_self (h : y ∉ E) : y = E.headD y ↔ E = [] := by
  cases E with
  | nil => simp
  | cons e E => simpa using fun he => h (by simp [he])

theorem getLastD_eq_self (h : y ∉ B) : y = B.getLastD y ↔ B = [] := by
  rcases B.eq_nil_or_concat with rfl | ⟨B, b, rfl⟩
  · simp
  · simpa using fun he => h (by simp [he])

theorem headD_middle : (A ++ x :: C).headD y = A.headD x := by cases A <;> rfl

theorem getLastD_middle : (A ++ x :: C).getLastD y = C.getLastD x := by simp [getLast?_cons]

/-- What another member sees of it when `id` is taken out. Up to `id` the members in `B` follow that one, and behind
`id` those in `E`. -/
theorem get?_join_out (hB : y ∉ B) (hE : y ∉ E)
    (h : r.get? y = some ⟨(B ++ id :: E).headD y, (B ++ id :: E).getLastD y⟩) :
    (r.join (B.getLastD y) (E.headD y)).get? y = some ⟨(B ++ E).headD y, (B ++ E).getLastD y⟩ := by
  rw [get?_join, h]
  simp only [headD_eq_self hE, getLastD_eq_self hB]
  cases B <;> rcases E.eq_nil_or_concat with rfl | ⟨E, e, rfl⟩ <;> simp [getLast?_cons]

/-- The same when `id` is put in. -/
theorem get?_join_in (hB : y ∉ B) (hE : y ∉ E) (hid : y ≠ id)
    (h : r.get? y = some ⟨(B ++ E).headD y, (B ++ E).getLastD y⟩) :
    ((r.join (B.getLastD y) id).join id (E.headD y)).get? y =
      some ⟨(B ++ id :: E).headD y, (B ++ id :: E).getLastD y⟩ := by
  rw [get?_join, get?_join, h]
  simp only [headD_eq_self hE, getLastD_eq_self hB, Option.map_some, if_neg hid]
  cases B <;> rcases E.eq_nil_or_concat with rfl | ⟨E, e, rfl⟩ <;> simp [getLast?_cons]

namespace Rings

theorem not_mem_around (h : r.Rings (A ++ x :: C)) : x ∉ C ∧ x ∉ A := by
  have hn := h.nodup
  simp only [nodup_append, nodup_cons] at hn
  exact ⟨hn.2.1.1, fun hx => hn.2.2 x hx x (by simp) rfl⟩

theorem walk {fuel : Nat} (h : r.Rings (A ++ x :: C)) (hf : C.length < fuel) :
    r.walk (A.headD x) fuel x = some (x :: C) := by
  induction C generalizing A x fuel with
  | nil =>
    obtain ⟨fuel, rfl⟩ := Nat.exists_eq_succ_of_ne_zero (Nat.ne_zero_of_lt hf)
    simp [Links.walk, h.member rfl]
  | cons c C ih =>
    obtain ⟨fuel, rfl⟩ := Nat.exists_eq_succ_of_ne_zero (Nat.ne_zero_of_lt hf)
    have h' : r.Rings ((A ++ [x]) ++ c :: C) := by simpa using h
    have hc : c ≠ A.headD x := fun he => h'.not_mem_around.2 (by rw [he]; cases A <;> simp)
    have hwalk := ih h' (Nat.lt_of_succ_lt_succ hf)
    rw [headD_middle] at hwalk
    simp only [Links.walk, h.member rfl, cons_append, headD_cons, if_neg hc, hwalk, Option.map_some]

theorem remove_member (h : r.Rings (A ++ id :: C)) : (r.remove id).Rings (A ++ C) := by
  have hid : id ∉ C ++ A := by simpa using h.not_mem_around
  have hremove : r.remove id = { (r.join ((C ++ A).getLastD id) ((C ++ A).headD id)).set id none with
      head := (A ++ C).head? } := by
    simp only [Links.remove, h.member rfl, @eq_comm _ _ id, headD_eq_self hid, h.head]
    cases A with
    | nil => cases C <;> simp
    | cons a A =>
      have ha : a ≠ id := fun he => hid (by simp [he])
      simp [ha]
  -- `x` stays, and going round from it there are those in `B`, `id` and those in `E`
  have stays : ∀ {A' x C' B E}, A ++ id :: C = A' ++ x :: C' → C' ++ A' = B ++ id :: E → C ++ A = E ++ x :: B →
      (r.remove id).get? x = some ⟨(B ++ E).headD x, (B ++ E).getLastD x⟩ := by
    intro A' x C' B E ho hx hD
    have hn : x ∉ B ++ id :: E := hx ▸ by simpa using (ho ▸ h).not_mem_around
    simp only [mem_append, mem_cons, not_or] at hn
    rw [hremove, hD, get?_with_head, get?_set, if_neg hn.2.1, headD_middle, getLastD_middle,
      get?_join_out hn.1 hn.2.2 (hx ▸ h.member ho)]
  refine ⟨h.nodup.sublist (by simp), hremove ▸ rfl, fun {A' x C'} ho => ?_, fun {x} hx => ?_⟩
  · rcases append_eq_append_iff.mp ho with ⟨B, rfl, rfl⟩ | ⟨_ | ⟨b, B⟩, rfl, hC⟩
    · simpa using @stays (A ++ id :: B) x C' (C' ++ A) B
    · cases hC
      simpa using @stays (A' ++ [id]) x C' (C' ++ A') []
    · cases hC
      simpa using @stays A' x (B ++ id :: C) B (C ++ A')
  · rw [hremove, get?_with_head, get?_set, get?_join]
    split
    · rfl
    · rw [h.other (by simp_all)]
      rfl

section
variable (h : r.Rings l)
include h

theorem get?_isSome : (r.get? x).isSome ↔ x ∈ l := by
  refine ⟨fun hx => Decidable.byContradiction fun hn => by simp [h.other hn] at hx, fun hx => ?_⟩
  obtain ⟨A, C, ho⟩ := append_of_mem hx
  simp [h.member ho]

theorem add_new (hid : id ∉ l) : (r.add id).Rings (l ++ [id]) := by
  have htail : ((r.get? (l.headD id)).map (·.prev)).getD (l.headD id) = l.getLastD id := by
    cases l with
    | nil => simp [h.other]
    | cons a l => simp [@member r _ h [] a l rfl, getLast?_cons]
  have hadd : r.add id = { ((r.set id (some ⟨id, id⟩)).join (l.getLastD id) id).join id (l.headD id) with
      head := some (l.headD id) } := by
    simp only [Links.add, h.other hid, h.head, ← headD_eq_head?_getD, htail]
    rfl
  rw [hadd]
  refine ⟨?_, by cases l <;> rfl, fun {A x C} ho => ?_, fun {x} hx => ?_⟩
  · exact nodup_append.mpr ⟨h.nodup, by simp, by simpa using fun x hx (he : x = id) => hid (he ▸ hx)⟩
  · rw [get?_with_head]
    rcases C.eq_nil_or_concat with rfl | ⟨C, c, rfl⟩
    · obtain ⟨rfl, he⟩ := append_inj' ho rfl
      cases he
      simp only [get?_join, get?_set, headD_eq_self hid]
      cases l <;> simp
    rw [concat_eq_append, ← cons_append, ← append_assoc] at ho
    obtain ⟨rfl, he⟩ := append_inj' ho rfl
    cases he
    have hx : x ≠ id := fun he => hid (by simp [he])
    rw [headD_middle, getLastD_middle, get?_join_in h.not_mem_around.1 h.not_mem_around.2 hx]
    · simp
    · rw [get?_set, if_neg hx, h.member rfl]
  · have hx : x ∉ l ∧ x ≠ id := by simpa using hx
    simp [get?_with_head, get?_join, get?_set, hx, h.other]

theorem add : (r.add id).Rings (if id ∈ l then l else l ++ [id]) := by
  split
  · next hid => rwa [Links.add, if_pos (h.get?_isSome.mpr hid)]
  · next hid => exact h.add_new hid

theorem remove : (r.remove id).Rings (l.erase id) := by
  by_cases hid : id ∈ l
  · obtain ⟨A, C, rfl⟩ := append_of_mem hid
    rw [erase_append_right _ h.not_mem_around.2, erase_cons_head]
    exact h.remove_member
  · rwa [erase_of_not_mem hid, Links.remove, h.other hid]

theorem length_le : l.length ≤ r.cells.size := by
  have hsub : l ⊆ (range r.cells.size).map VarId.mk := fun x hx => by
    have hlt : x.index < r.cells.size := Decidable.byContradiction fun hn => by
      simpa [Links.get?, Array.getD, hn] using h.get?_isSome.mpr hx
    exact mem_map.mpr ⟨x.index, mem_range.mpr hlt, rfl⟩
  simpa using h.nodup.length_le_of_subset hsub

theorem ids : r.ids = l := by
  rw [Links.ids, h.head]
  cases l with
  | nil => rfl
  | cons a l => exact congrArg (Option.getD · []) (@walk _ [] _ _ _ h h.length_le)

theorem clear : r.clear.Rings [] := by
  have hset : ∀ (ids : List VarId) {r : Links}, (∀ x, x ∉ ids → r.get? x = none) →
      ∀ x, (ids.foldl (·.set · none) r).get? x = none := by
    intro ids
    induction ids with
    | nil => exact fun hr x => hr x (by simp)
    | cons a ids ih =>
      refine fun {r} hr => ih fun x hx => ?_
      rw [get?_set]
      split
      · rfl
      · next hn => exact hr x (by simp [hn, hx])
  refine ⟨.nil, rfl, by simp, fun {x} _ => ?_⟩
  rw [Links.clear, h.ids, get?_with_head]
  exact hset l (fun x => h.other) x

end

end Rings

end

end Links

/-- Links that form one ring. -/
structure Ring extends Links where
  closed : ∃ l, toLinks.Rings l
  deriving DecidableEq, Repr

namespace Ring

def empty : Ring := ⟨{}, [], .nil, rfl, by simp, by simp [Links.get?]⟩

def add (r : Ring) (id : VarId) : Ring := ⟨r.toLinks.add id, r.closed.elim fun _ h => ⟨_, h.add⟩⟩

def remove (r : Ring) (id : VarId) : Ring := ⟨r.toLinks.remove id, r.closed.elim fun _ h => ⟨_, h.remove⟩⟩

def clear (r : Ring) : Ring := ⟨r.toLinks.clear, r.closed.elim fun _ h => ⟨_, h.clear⟩⟩

theorem rings (r : Ring) : r.Rings r.ids := r.closed.elim fun _ h => h.ids.symm ▸ h

end Ring

end Codegen
