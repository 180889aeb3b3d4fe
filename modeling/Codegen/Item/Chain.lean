import Codegen.Handle

/-! The chain of linked items. Each linked item knows the items in front of it and behind it, and the chain knows its ends.
An item without a link is not in the chain. -/
namespace Codegen
open List

namespace ItemSeq

/-- The element behind the first occurrence of `id`. -/
def following (id : ItemId) : List ItemId → Option ItemId
  | a :: rest => if a = id then rest.head? else following id rest
  | [] => none

/-- The element in front of the first occurrence of `id`. -/
def preceding (id : ItemId) : List ItemId → Option ItemId
  | a :: b :: rest => if b = id then some a else preceding id (b :: rest)
  | _ => none

/-- Put `id` behind the first occurrence of `anchor`. -/
def spliceAfter (id anchor : ItemId) : List ItemId → List ItemId
  | a :: rest => if a = anchor then a :: id :: rest else a :: spliceAfter id anchor rest
  | [] => []

variable {l A C : List ItemId} {id anchor x a : ItemId}

theorem spliceAfter_append (h : anchor ∉ A) :
    spliceAfter id anchor (A ++ anchor :: C) = A ++ anchor :: id :: C := by
  induction A with
  | nil => simp [spliceAfter]
  | cons a A ih =>
    obtain ⟨ha, hA⟩ := not_or.mp (mt mem_cons.mpr h)
    simp [spliceAfter, Ne.symm ha, ih hA]

theorem spliceAfter_of_not_mem (h : anchor ∉ l) : spliceAfter id anchor l = l := by
  induction l with
  | nil => rfl
  | cons a l ih =>
    obtain ⟨hne, hl⟩ := ne_and_not_mem_of_not_mem_cons h
    rw [spliceAfter, if_neg (Ne.symm hne), ih hl]

theorem following_append (h : x ∉ A) : following x (A ++ x :: C) = C.head? := by
  induction A with
  | nil => simp [following]
  | cons a A ih =>
    obtain ⟨ha, hA⟩ := not_or.mp (mt mem_cons.mpr h)
    simp [following, Ne.symm ha, ih hA]

theorem following_of_not_mem (h : x ∉ l) : following x l = none := by
  induction l with
  | nil => rfl
  | cons a l ih =>
    obtain ⟨ha, hl⟩ := not_or.mp (mt mem_cons.mpr h)
    simp [following, Ne.symm ha, ih hl]

theorem preceding_of_not_mem_tail (h : x ∉ l) : preceding x (a :: l) = none := by
  induction l generalizing a with
  | nil => rfl
  | cons b l ih =>
    obtain ⟨hb, hl⟩ := not_or.mp (mt mem_cons.mpr h)
    simp [preceding, Ne.symm hb, ih hl]

theorem preceding_of_not_mem (h : x ∉ l) : preceding x l = none := by
  cases l with
  | nil => rfl
  | cons a l => exact preceding_of_not_mem_tail (not_mem_of_not_mem_cons h)

theorem preceding_append (hA : x ∉ A) (hC : x ∉ C) : preceding x (A ++ x :: C) = A.getLast? := by
  induction A with
  | nil => exact preceding_of_not_mem_tail hC
  | cons a A ih =>
    obtain ⟨-, hA'⟩ := not_or.mp (mt mem_cons.mpr hA)
    cases A with
    | nil => simp [preceding]
    | cons b A =>
      have hb : b ≠ x := fun e => hA' (e ▸ mem_cons_self)
      rw [cons_append, cons_append, preceding, if_neg hb]
      exact (ih hA').trans (by simp)

theorem mem_spliceAfter (h : anchor ∈ l) :
    x ∈ spliceAfter id anchor l ↔ x = id ∨ x ∈ l := by
  obtain ⟨A, C, rfl, hA⟩ := eq_append_cons_of_mem h
  rw [spliceAfter_append hA]
  simp only [mem_append, mem_cons]
  grind

end ItemSeq

open ItemSeq

/-- The neighbours of a linked item. -/
structure ItemLink where
  prev : Option ItemId
  next : Option ItemId
  deriving DecidableEq, Repr

/-- Links of items, and where the chain starts and ends. -/
structure ItemLinks where
  first : Option ItemId := none
  last : Option ItemId := none
  cells : Array (Option ItemLink) := #[]
  deriving DecidableEq, Repr

namespace ItemLinks

/-- The link of an item, if it is linked. -/
def get? (r : ItemLinks) (id : ItemId) : Option ItemLink := r.cells.getD id.index none

/-- There are as many cells as were ever needed. -/
def set (r : ItemLinks) (id : ItemId) (link : Option ItemLink) : ItemLinks :=
  { r with cells := (r.cells ++ Array.replicate (id.index + 1 - r.cells.size) none).setIfInBounds id.index link }

/-- Make `x` the one behind `p`, or the first one. -/
def lead (r : ItemLinks) (p x : Option ItemId) : ItemLinks :=
  match p with
  | some p => r.set p ((r.get? p).map ({ · with next := x }))
  | none => { r with first := x }

/-- Make `x` the one in front of `n`, or the last one. -/
def trail (r : ItemLinks) (n x : Option ItemId) : ItemLinks :=
  match n with
  | some n => r.set n ((r.get? n).map ({ · with prev := x }))
  | none => { r with last := x }

/-- Put `id` between two neighbours. -/
def between (r : ItemLinks) (p n : Option ItemId) (id : ItemId) : ItemLinks :=
  ((r.set id (some ⟨p, n⟩)).lead p (some id)).trail n (some id)

/-- Link `id` behind a linked item, if it is not linked yet. -/
def insertAfter (r : ItemLinks) (id anchor : ItemId) : ItemLinks :=
  match r.get? id, r.get? anchor with
  | none, some link => r.between (some anchor) link.next id
  | _, _ => r

/-- Link `id` in front of all others, if it is not linked yet. -/
def insertFirst (r : ItemLinks) (id : ItemId) : ItemLinks :=
  if (r.get? id).isSome then r else r.between none r.first id

/-- Take `id` out and join its neighbours. -/
def unlink (r : ItemLinks) (id : ItemId) : ItemLinks :=
  match r.get? id with
  | none => r
  | some link => ((r.lead link.prev link.next).trail link.next link.prev).set id none

/-- The items from `x` on. -/
def walk (r : ItemLinks) : Nat → Option ItemId → List ItemId
  | fuel + 1, some x => x :: r.walk fuel ((r.get? x).bind (·.next))
  | _, _ => []

/-- The linked items in order. There are no more than there are cells. -/
def ids (r : ItemLinks) : List ItemId := r.walk r.cells.size r.first

/-- The links lead along the list and back. -/
structure Chains (r : ItemLinks) (l : List ItemId) : Prop where
  nodup : l.Nodup
  first : r.first = l.head?
  last : r.last = l.getLast?
  member : ∀ {A x C}, l = A ++ x :: C → r.get? x = some ⟨A.getLast?, C.head?⟩
  other : ∀ {x}, x ∉ l → r.get? x = none

section
variable {r : ItemLinks} {l A B C A' C' : List ItemId} {id anchor x y : ItemId} {p n : Option ItemId}

theorem get?_set {link : Option ItemLink} : (r.set id link).get? x = if x = id then link else r.get? x := by
  obtain ⟨i⟩ := id
  obtain ⟨j⟩ := x
  simp only [get?, set, Array.getD_eq_getD_getElem?, Array.getElem?_setIfInBounds, ItemId.mk.injEq]
  grind

theorem get?_lead {x : Option ItemId} : (r.lead p x).get? y =
    (r.get? y).map fun k => if p = some y then { k with next := x } else k := by
  cases p with
  | none => simp [lead, get?]
  | some p =>
    rw [lead, get?_set]
    by_cases hy : y = p
    · simp [hy]
    · simp [hy, Ne.symm hy]

theorem get?_trail {x : Option ItemId} : (r.trail n x).get? y =
    (r.get? y).map fun k => if n = some y then { k with prev := x } else k := by
  cases n with
  | none => simp [trail, get?]
  | some n =>
    rw [trail, get?_set]
    by_cases hy : y = n
    · simp [hy]
    · simp [hy, Ne.symm hy]

theorem first_lead {x : Option ItemId} : (r.lead p x).first = if p = none then x else r.first := by
  cases p <;> rfl

theorem last_lead {x : Option ItemId} : (r.lead p x).last = r.last := by
  cases p <;> rfl

theorem first_trail {x : Option ItemId} : (r.trail n x).first = r.first := by
  cases n <;> rfl

theorem last_trail {x : Option ItemId} : (r.trail n x).last = if n = none then x else r.last := by
  cases n <;> rfl

theorem getLast?_ne (h : x ∉ A) : A.getLast? ≠ some x := fun he => h (mem_of_getLast? he)

theorem head?_ne (h : x ∉ C) : C.head? ≠ some x := fun he => h (mem_of_head? he)

theorem getLast?_eq_self (h : x ∉ B) : (A ++ x :: B).getLast? = some x ↔ B = [] := by
  rcases B.eq_nil_or_concat with rfl | ⟨B, b, rfl⟩
  · simp
  · have hb : b ≠ x := fun he => h (by simp [he])
    simp [getLast?_cons, hb]

theorem head?_eq_self (h : x ∉ B) : (B ++ x :: C).head? = some x ↔ B = [] := by
  cases B with
  | nil => simp
  | cons b B =>
    have hb : b ≠ x := fun he => h (by simp [he])
    simp [hb]

/-- Where an item stands in a list that has `id` between two parts. -/
theorem middle_cases (h : A ++ id :: C = A' ++ x :: C') : x = id ∧ A' = A ∧ C' = C ∨
    (∃ B, A = A' ++ x :: B ∧ C' = B ++ id :: C) ∨ ∃ B, C = B ++ x :: C' ∧ A' = A ++ id :: B := by
  rcases append_eq_append_iff.mp h with ⟨_ | ⟨b, B⟩, rfl, hC⟩ | ⟨_ | ⟨b, B⟩, rfl, hC⟩ <;> cases hC
  · exact .inl ⟨rfl, by simp, rfl⟩
  · exact .inr (.inr ⟨B, rfl, rfl⟩)
  · exact .inl ⟨rfl, by simp, rfl⟩
  · exact .inr (.inl ⟨B, rfl, rfl⟩)

namespace Chains

theorem not_mem_around (h : r.Chains (A ++ x :: C)) : x ∉ A ∧ x ∉ C := by
  simpa using (nodup_cons.mp (perm_middle.nodup_iff.mp h.nodup)).1

/-- A walk along the links lists what is left of the chain. -/
theorem walk {fuel : Nat} (h : r.Chains (A ++ C)) (hf : C.length ≤ fuel) : r.walk fuel C.head? = C := by
  induction C generalizing A fuel with
  | nil => cases fuel <;> rfl
  | cons x C ih =>
    obtain ⟨fuel, rfl⟩ := Nat.exists_eq_succ_of_ne_zero (Nat.ne_zero_of_lt hf)
    have hrest := ih (A := A ++ [x]) (by simpa using h) (Nat.le_of_succ_le_succ hf)
    rw [head?_cons, ItemLinks.walk, h.member rfl, Option.bind_some, hrest]

/-- An item is put between two parts of the list. -/
theorem between (h : r.Chains (A ++ C)) (hid : id ∉ A ++ C) :
    (r.between A.getLast? C.head? id).Chains (A ++ id :: C) := by
  have hn : (A ++ id :: C).Nodup := perm_middle.nodup_iff.mpr (nodup_cons.mpr ⟨hid, h.nodup⟩)
  simp only [mem_append, not_or] at hid
  refine ⟨hn, ?_, ?_, fun {A' x C'} ho => ?_, fun {x} hx => ?_⟩
  · rw [ItemLinks.between, first_trail, first_lead, show (r.set id _).first = _ from h.first]
    cases A <;> rfl
  · rw [ItemLinks.between, last_trail, last_lead, show (r.set id _).last = _ from h.last]
    cases C <;> simp [getLast?_cons]
  · rw [ItemLinks.between, get?_trail, get?_lead, get?_set]
    rcases middle_cases ho with ⟨rfl, rfl, rfl⟩ | ⟨B, rfl, rfl⟩ | ⟨B, rfl, rfl⟩
    · simp [getLast?_ne hid.1, head?_ne hid.2]
    · have h' : r.Chains (A' ++ x :: (B ++ C)) := by simpa using h
      have hx : x ∉ B ∧ x ∉ C := by simpa using h'.not_mem_around.2
      have hne : x ≠ id := fun he => hid.1 (by simp [he])
      simp only [if_neg hne, h'.member rfl, Option.map_some, getLast?_eq_self hx.1, head?_ne hx.2, if_false]
      cases B <;> rfl
    · have h' : r.Chains ((A ++ B) ++ x :: C') := by simpa using h
      have hx : x ∉ A ∧ x ∉ B := by simpa using h'.not_mem_around.1
      have hne : x ≠ id := fun he => hid.2 (by simp [he])
      simp only [if_neg hne, h'.member rfl, Option.map_some, head?_eq_self hx.2, getLast?_ne hx.1, if_false]
      cases B <;> simp [getLast?_cons]
  · simp only [mem_append, mem_cons, not_or] at hx
    rw [ItemLinks.between, get?_trail, get?_lead, get?_set, if_neg hx.2.1, h.other (by simp [hx])]
    rfl

/-- An item is taken out from between two parts of the list. -/
theorem unlink_member (h : r.Chains (A ++ id :: C)) : (r.unlink id).Chains (A ++ C) := by
  obtain ⟨hA, hC⟩ := h.not_mem_around
  have hunlink : r.unlink id = ((r.lead A.getLast? C.head?).trail C.head? A.getLast?).set id none := by
    simp only [ItemLinks.unlink, h.member rfl]
  rw [hunlink]
  refine ⟨h.nodup.sublist (by simp), ?_, ?_, fun {A' x C'} ho => ?_, fun {x} hx => ?_⟩
  · show ((r.lead _ _).trail _ _).first = _
    rw [first_trail, first_lead, h.first]
    cases A <;> simp
  · show ((r.lead _ _).trail _ _).last = _
    rw [last_trail, last_lead, h.last]
    cases C <;> simp [getLast?_cons]
  · have hne : x ≠ id := by
      rintro rfl
      have hx : x ∈ A ++ C := by simp [ho]
      exact (mem_append.mp hx).elim hA hC
    rw [get?_set, if_neg hne, get?_trail, get?_lead]
    rcases append_eq_append_iff.mp ho with ⟨B, rfl, rfl⟩ | ⟨_ | ⟨b, B⟩, rfl, hB⟩
    · have h' : r.Chains ((A ++ id :: B) ++ x :: C') := by simpa using h
      have hx : x ∉ A ∧ x ∉ B := by simpa [hne] using h'.not_mem_around.1
      simp only [h'.member rfl, Option.map_some, head?_eq_self hx.2, getLast?_ne hx.1, if_false]
      cases B <;> simp [getLast?_cons]
    · cases hB
      have h' : r.Chains ((A' ++ [id]) ++ x :: C') := by simpa using h
      have hx : x ∉ A' := by simpa [hne] using h'.not_mem_around.1
      simp [h'.member rfl, getLast?_ne hx]
    · cases hB
      have h' : r.Chains (A' ++ x :: (B ++ id :: C)) := by simpa using h
      have hx : x ∉ B ∧ x ∉ C := by simpa [hne] using h'.not_mem_around.2
      simp only [h'.member rfl, Option.map_some, getLast?_eq_self hx.1, head?_ne hx.2, if_false]
      cases B <;> rfl
  · rw [get?_set, get?_trail, get?_lead]
    split
    · rfl
    · rw [h.other (by simp_all)]
      rfl

section
variable (h : r.Chains l)
include h

theorem get?_isSome : (r.get? x).isSome ↔ x ∈ l := by
  refine ⟨fun hx => Decidable.byContradiction fun hn => by simp [h.other hn] at hx, fun hx => ?_⟩
  obtain ⟨A, C, ho⟩ := append_of_mem hx
  simp [h.member ho]

theorem insertAfter : (r.insertAfter id anchor).Chains (if id ∈ l then l else spliceAfter id anchor l) := by
  unfold ItemLinks.insertAfter
  by_cases hid : id ∈ l
  · obtain ⟨link, hlink⟩ := Option.isSome_iff_exists.mp (h.get?_isSome.mpr hid)
    rwa [hlink, if_pos hid]
  rw [h.other hid, if_neg hid]
  by_cases ha : anchor ∈ l
  · obtain ⟨A, C, rfl⟩ := append_of_mem ha
    have hnew := @between r (A ++ [anchor]) C id (by simpa using h) (by simpa using hid)
    rw [spliceAfter_append h.not_mem_around.1]
    simpa [h.member rfl] using hnew
  · rwa [h.other ha, spliceAfter_of_not_mem ha]

theorem insertFirst : (r.insertFirst id).Chains (if id ∈ l then l else id :: l) := by
  unfold ItemLinks.insertFirst
  by_cases hid : id ∈ l
  · rwa [if_pos (h.get?_isSome.mpr hid), if_pos hid]
  · rw [if_neg (mt h.get?_isSome.mp hid), if_neg hid, h.first]
    exact @between r [] l id h hid

theorem unlink : (r.unlink id).Chains (l.erase id) := by
  by_cases hid : id ∈ l
  · obtain ⟨A, C, rfl⟩ := append_of_mem hid
    rw [erase_append_right _ h.not_mem_around.1, erase_cons_head]
    exact h.unlink_member
  · rwa [erase_of_not_mem hid, ItemLinks.unlink, h.other hid]

/-- Every linked item has a cell, so a walk gets to the end. -/
theorem length_le : l.length ≤ r.cells.size := by
  have hsub : l ⊆ (range r.cells.size).map ItemId.mk := fun x hx => by
    have hlt : x.index < r.cells.size := Decidable.byContradiction fun hn => by
      simpa [ItemLinks.get?, Array.getD, hn] using h.get?_isSome.mpr hx
    exact mem_map.mpr ⟨x.index, mem_range.mpr hlt, rfl⟩
  simpa using h.nodup.length_le_of_subset hsub

theorem ids : r.ids = l := by
  rw [ItemLinks.ids, h.first]
  exact @walk r [] l _ h h.length_le

end

end Chains

end

end ItemLinks

/-- Links that form one chain. -/
structure Chain extends ItemLinks where
  chained : ∃ l, toItemLinks.Chains l
  deriving DecidableEq, Repr

namespace Chain

def empty : Chain := ⟨{}, [], .nil, rfl, rfl, by simp, by simp [ItemLinks.get?]⟩

def insertAfter (c : Chain) (id anchor : ItemId) : Chain :=
  ⟨c.toItemLinks.insertAfter id anchor, c.chained.elim fun _ h => ⟨_, h.insertAfter⟩⟩

def insertFirst (c : Chain) (id : ItemId) : Chain :=
  ⟨c.toItemLinks.insertFirst id, c.chained.elim fun _ h => ⟨_, h.insertFirst⟩⟩

def unlink (c : Chain) (id : ItemId) : Chain :=
  ⟨c.toItemLinks.unlink id, c.chained.elim fun _ h => ⟨_, h.unlink⟩⟩

theorem chains (c : Chain) : c.Chains c.ids := c.chained.elim fun _ h => h.ids.symm ▸ h

variable {c : Chain} {id anchor x : ItemId}

theorem ids_insertAfter : (c.insertAfter id anchor).ids = if id ∈ c.ids then c.ids else spliceAfter id anchor c.ids :=
  c.chains.insertAfter.ids

theorem ids_insertFirst : (c.insertFirst id).ids = if id ∈ c.ids then c.ids else id :: c.ids := c.chains.insertFirst.ids

theorem ids_unlink : (c.unlink id).ids = c.ids.erase id := c.chains.unlink.ids

theorem ids_insertAfter_of_not_mem (h : anchor ∉ c.ids) : (c.insertAfter id anchor).ids = c.ids := by
  rw [ids_insertAfter, spliceAfter_of_not_mem h, ite_self]

theorem mem_of_insertAfter (h : x ∈ (c.insertAfter id anchor).ids) : x = id ∨ x ∈ c.ids := by
  by_cases ha : anchor ∈ c.ids
  · rw [ids_insertAfter] at h
    split at h
    · exact .inr h
    · exact (mem_spliceAfter ha).mp h
  · exact .inr (ids_insertAfter_of_not_mem ha ▸ h)

theorem next_eq_following : (c.get? x).bind (·.next) = following x c.ids := by
  by_cases hx : x ∈ c.ids
  · obtain ⟨A, C, ho⟩ := append_of_mem hx
    rw [c.chains.member ho, ho, following_append (ho ▸ c.chains).not_mem_around.1]
    rfl
  · rw [c.chains.other hx, following_of_not_mem hx]
    rfl

theorem prev_eq_preceding : (c.get? x).bind (·.prev) = preceding x c.ids := by
  by_cases hx : x ∈ c.ids
  · obtain ⟨A, C, ho⟩ := append_of_mem hx
    obtain ⟨hA, hC⟩ := (ho ▸ c.chains).not_mem_around
    rw [c.chains.member ho, ho, preceding_append hA hC]
    rfl
  · rw [c.chains.other hx, preceding_of_not_mem hx]
    rfl

end Chain

end Codegen
