import Codegen.Allocation.Generate
import Codegen.Proofs.Steps
import Mathlib.Data.List.Nodup

/-! The order of a sequence, read as a list that is cut in two, and what generated code does to it:
a block of new items goes in where the cursor is. -/
namespace Codegen
open List ItemSeq
variable {item : Item} {anchor stop : ItemId} {A : List ItemId}

namespace ItemSeq

/-- Nothing stands twice in the order, and all that stands there was made. -/
structure Linear (q : ItemSeq) : Prop where
  nodup : q.order.Nodup
  made : ∀ x ∈ q.order, x.index < q.size

theorem upTo_append_of_not_mem (h : stop ∉ A) : upTo stop (A ++ C) = A ++ upTo stop C := by
  induction A with
  | nil => rfl
  | cons a A ih =>
    obtain ⟨ha, hA⟩ := not_or.mp (mt mem_cons.mpr h)
    simp [upTo, Ne.symm ha, ih hA]

theorem upTo_append (h : stop ∉ A) : upTo stop (A ++ stop :: C) = A ++ [stop] := by
  rw [upTo_append_of_not_mem h, upTo, if_pos rfl]

theorem upTo_subset : upTo stop l ⊆ l := by
  induction l with
  | nil => exact Subset.refl _
  | cons a l ih =>
    rw [upTo]
    split
    · simp
    · exact cons_subset_cons a ih

theorem upTo_subset_of_mem (h : stop ∈ A) : upTo stop (A ++ C) ⊆ A := by
  obtain ⟨A₁, A₂, rfl, hA⟩ := eq_append_cons_of_mem h
  rw [append_assoc, cons_append, upTo_append hA]
  simp

variable {s : ItemSeq}

theorem suffixFrom_eq (ho : s.order = A ++ x :: C) (h : x ∉ A) : s.suffixFrom x = x :: C := by
  have hd : (A ++ x :: C).dropWhile (· ≠ x) = x :: C := by
    rw [dropWhile_append_of_pos]
    · simp
    · intro a ha
      simpa using fun e : a = x => h (e ▸ ha)
  rw [suffixFrom_eq_drop, ho, hd, tail_cons]

theorem range_eq (ho : s.order = A ++ (D ++ C)) (hn : s.order.Nodup)
    (hhead : D.head? = some x) (hlast : D.getLast? = some stop) : s.range x stop = D := by
  obtain ⟨mid, rfl⟩ := head?_eq_some_iff.mp hhead
  obtain ⟨init, hinit⟩ := getLast?_eq_some_iff.mp hlast
  rw [ho] at hn
  obtain ⟨-, hn2, hA⟩ := nodup_append.mp hn
  have hstop : stop ∉ init := by
    intro hm
    have hn3 := (nodup_append.mp hn2).1
    rw [hinit] at hn3
    exact (nodup_append.mp hn3).2.2 _ hm _ (by simp) rfl
  unfold range
  rw [suffixFrom_eq (C := mid ++ C) ho fun hm => hA _ hm _ (by simp) rfl, ← cons_append, hinit, append_assoc]
  exact upTo_append hstop

theorem range_congr {q q' : ItemSeq} (h : q'.order = q.order) (x : ItemId) : q'.range x stop = q.range x stop := by
  rw [range, range, suffixFrom_eq_drop, suffixFrom_eq_drop, h]

/-- The order falls into two parts, and the cursor is at the end of the first. -/
structure Cut (s : ItemSeq) (A C : List ItemId) : Prop where
  order : s.order = A ++ C
  cursor : s.cursor = A.getLast?
  nodup : (A ++ C).Nodup
  made : ∀ id ∈ A ++ C, id.index < s.size

/-- The chain with an item behind the cursor. -/
def grown (s : ItemSeq) (id : ItemId) : Chain :=
  match s.cursor with
  | some anchor => s.chain.insertAfter id anchor
  | none => s.chain.insertFirst id

theorem ids_grown {id : ItemId} (h : id ∉ s.order) : (s.grown id).ids = match s.cursor with
    | some anchor => spliceAfter id anchor s.order
    | none => id :: s.order := by
  unfold grown
  cases s.cursor with
  | some anchor => exact Chain.ids_insertAfter.trans (if_neg h)
  | none => exact Chain.ids_insertFirst.trans (if_neg h)

theorem ids_grown_of_not_mem {id : ItemId} (hc : s.cursor = some anchor) (h : anchor ∉ s.order) :
    (s.grown id).ids = s.order := by
  rw [grown, hc]
  exact Chain.ids_insertAfter_of_not_mem h

theorem ids_grown_of_mem {id : ItemId} (h : id ∈ s.order) : (s.grown id).ids = s.order := by
  unfold grown
  split
  · exact Chain.ids_insertAfter.trans (if_pos h)
  · exact Chain.ids_insertFirst.trans (if_pos h)

theorem mem_of_grown {id : ItemId} (h : x ∈ (s.grown id).ids) : x = id ∨ x ∈ s.order := by
  unfold grown at h
  split at h
  · exact Chain.mem_of_insertAfter h
  · rw [Chain.ids_insertFirst] at h
    split at h
    · exact .inr h
    · exact mem_cons.mp h

/-- The sequence with a new item behind the cursor. -/
def place (s : ItemSeq) (item : Item) : ItemSeq where
  items := s.items.push item
  chain := s.grown ⟨s.size⟩
  cursor := some ⟨s.size⟩

/-- The sequence with one generated instruction behind the cursor. With an offset, the instruction
counts as translated. -/
def generate (mark : Option Nat) (s : ItemSeq) (i : Instruction) : ItemSeq where
  items := s.items.push
    { kind := .instruction { opcode := i.opcode, operands := i.operands }
      offset := mark
      translated := mark.isSome }
  chain := s.grown ⟨s.size⟩
  cursor := some ⟨s.size⟩

def generateAll (mark : Option Nat) (s : ItemSeq) (code : List Instruction) : ItemSeq :=
  code.foldl (generate mark) s

/-- The handles of `count` new items. -/
def newIds (s : ItemSeq) (count : Nat) : List ItemId := (range' s.size count).map ItemId.mk

@[simp] theorem generateAll_nil (mark : Option Nat) (s : ItemSeq) : s.generateAll mark [] = s := rfl

@[simp] theorem generateAll_cons (mark : Option Nat) (s : ItemSeq) (i : Instruction)
    (code : List Instruction) :
    s.generateAll mark (i :: code) = (s.generate mark i).generateAll mark code := rfl

theorem generateAll_append (mark : Option Nat) (s : ItemSeq) (a b : List Instruction) :
    s.generateAll mark (a ++ b) = (s.generateAll mark a).generateAll mark b :=
  foldl_append

@[simp] theorem size_generate (mark : Option Nat) (s : ItemSeq) (i : Instruction) :
    (s.generate mark i).size = s.size + 1 := by
  simp [generate, size]

theorem size_generateAll (mark : Option Nat) (s : ItemSeq) (code : List Instruction) :
    (s.generateAll mark code).size = s.size + code.length := by
  induction code generalizing s with
  | nil => rfl
  | cons i code ih =>
    rw [generateAll_cons, ih, size_generate, length_cons]
    omega

@[simp] theorem size_place (s : ItemSeq) (item : Item) : (s.place item).size = s.size + 1 := by
  simp [place, size]

theorem get?_place_of_lt {id : ItemId} (h : id.index < s.size) : (s.place item).get? id = s.get? id := by
  simp [get?, place, Array.getElem?_push, Nat.ne_of_lt (show id.index < s.items.size from h)]

theorem get?_place_self (s : ItemSeq) (item : Item) : (s.place item).get? ⟨s.size⟩ = some item := by
  simp [get?, place, size]

theorem get?_generate_of_lt (mark : Option Nat) (i : Instruction) {id : ItemId}
    (h : id.index < s.size) : (s.generate mark i).get? id = s.get? id := by
  simp [get?, generate, Array.getElem?_push, Nat.ne_of_lt (show id.index < s.items.size from h)]

theorem get?_generateAll_of_lt (mark : Option Nat) (code : List Instruction) {id : ItemId}
    (h : id.index < s.size) : (s.generateAll mark code).get? id = s.get? id := by
  induction code generalizing s with
  | nil => rfl
  | cons i code ih =>
    rw [generateAll_cons, ih (by rw [size_generate]; omega), get?_generate_of_lt mark i h]

theorem lt_size_of_get? {id : ItemId} (h : s.get? id = some item) : id.index < s.size := by
  obtain ⟨hlt, -⟩ := Array.getElem?_eq_some_iff.mp h
  exact hlt

theorem get?_of_lt_size {id : ItemId} (h : id.index < s.size) : ∃ item, s.get? id = some item :=
  ⟨_, Array.getElem?_eq_getElem h⟩

theorem get?_generate_self (mark : Option Nat) (s : ItemSeq) (i : Instruction) :
    (s.generate mark i).get? ⟨s.size⟩ = some
      { kind := .instruction { opcode := i.opcode, operands := i.operands }
        offset := mark
        translated := mark.isSome } := by
  simp [get?, generate, size]

theorem newIds_succ (s : ItemSeq) (mark : Option Nat) (i : Instruction) (n : Nat) :
    s.newIds (n + 1) = ⟨s.size⟩ :: (s.generate mark i).newIds n := by
  simp [newIds, range'_succ]

namespace Cut

theorem not_mem_new (h : s.Cut A C) : (⟨s.size⟩ : ItemId) ∉ A ++ C := by
  intro hm
  exact Nat.lt_irrefl _ (h.made _ hm)

theorem place (h : s.Cut A C) (item : Item) : (s.place item).Cut (A ++ [⟨s.size⟩]) C where
  order := by
    have ho := h.order
    rw [show (s.place item).order = _ from ids_grown (ho ▸ h.not_mem_new)]
    rcases eq_nil_or_concat A with rfl | ⟨A', a, rfl⟩
    · simp [h.cursor, ho]
    have ha : a ∉ A' := by
      have := h.nodup
      simp only [concat_eq_append, append_assoc] at this
      exact fun hm => (nodup_append.mp this).2.2 a hm a (by simp) rfl
    have hs : spliceAfter ⟨s.size⟩ a (A' ++ a :: C) = A' ++ a :: ⟨s.size⟩ :: C := spliceAfter_append ha
    simp only [concat_eq_append] at ho ⊢
    simp [h.cursor, ho, hs]
  cursor := by simp [ItemSeq.place]
  nodup := by
    have hn := h.not_mem_new
    have hd := h.nodup
    rw [append_assoc, singleton_append, nodup_middle]
    exact nodup_cons.mpr ⟨hn, hd⟩
  made := by
    intro id hid
    rw [size_place]
    simp only [append_assoc, singleton_append, mem_append, mem_cons] at hid
    rcases hid with hid | rfl | hid
    · exact Nat.lt_succ_of_lt (h.made id (mem_append_left _ hid))
    · exact Nat.lt_succ_self _
    · exact Nat.lt_succ_of_lt (h.made id (mem_append_right _ hid))

theorem generate (h : s.Cut A C) (mark : Option Nat) (i : Instruction) : (s.generate mark i).Cut (A ++ [⟨s.size⟩]) C :=
  h.place _

theorem generateAll (h : s.Cut A C) (mark : Option Nat) (code : List Instruction) :
    (s.generateAll mark code).Cut (A ++ s.newIds code.length) C := by
  induction code generalizing s A with
  | nil => simpa [newIds] using h
  | cons i code ih =>
    have := ih (h.generate mark i)
    rwa [append_assoc, singleton_append, ← newIds_succ s mark i] at this

end Cut

end ItemSeq

namespace ItemSeq
open Build (except_bind_ok except_pure_ok except_check_ok)
variable {s : ItemSeq} {id : ItemId}

theorem get_ok : s.get id = .ok item ↔ s.get? id = some item := by
  unfold get
  cases s.get? id <;> simp

theorem insertAfter_ok (h : s.insertAfter id anchor = .ok s') :
    id ∉ s.order ∧ anchor ∈ s.order ∧ s' = { s with chain := s.chain.insertAfter id anchor } := by
  simp only [insertAfter, except_bind_ok, except_check_ok, except_pure_ok] at h
  obtain ⟨_, -, hn, _, -, hl, rfl⟩ := h
  exact ⟨mt isLinked_iff.mpr hn, isLinked_iff.mp (by simpa using hl), rfl⟩

theorem insertFirst_ok (h : s.insertFirst id = .ok s') :
    id ∉ s.order ∧ s' = { s with chain := s.chain.insertFirst id } := by
  simp only [insertFirst, except_bind_ok, except_check_ok, except_pure_ok] at h
  obtain ⟨_, -, hn, rfl⟩ := h
  exact ⟨mt isLinked_iff.mpr hn, rfl⟩

theorem unlink_ok (h : s.unlink id = .ok s') :
    id ∈ s.order ∧ s' = { s with
      chain := s.chain.unlink id
      cursor := if s.cursor = some id then s.prev? id else s.cursor } := by
  simp only [unlink, except_bind_ok, except_check_ok, except_pure_ok] at h
  obtain ⟨_, -, hl, rfl⟩ := h
  exact ⟨isLinked_iff.mp (by simpa using hl), rfl⟩

theorem insert_ok (h : s.insert id = .ok s') : id ∉ s.order ∧ (∀ anchor, s.cursor = some anchor → anchor ∈ s.order) ∧
      s' = { s with chain := s.grown id, cursor := some id } := by
  cases hc : s.cursor with
  | none =>
    simp only [insert, hc, except_bind_ok, except_pure_ok] at h
    obtain ⟨t, ht, rfl⟩ := h
    obtain ⟨hn, rfl⟩ := insertFirst_ok ht
    exact ⟨hn, by simp, by simp only [grown, hc, setCursor]⟩
  | some anchor =>
    simp only [insert, hc, except_bind_ok, except_pure_ok] at h
    obtain ⟨t, ht, rfl⟩ := h
    obtain ⟨hn, ha, rfl⟩ := insertAfter_ok ht
    exact ⟨hn, by simpa using ha, by simp only [grown, hc, setCursor]⟩

end ItemSeq

namespace Session

/-- The offset that generated instructions take, while a function is translated. -/
def mark (s : Session) : Option Nat := if s.ctx.active then some s.ctx.currentOffset else none

end Session

namespace Build

theorem edit_ok {g : ItemSeq → Except Error ItemSeq} :
    (do let items ← g (← get).items; modify ({ · with items }) : Build Unit) s = .ok u s' ↔
      ∃ items, g s.items = .ok items ∧ { s with items } = s' := by
  simp only [bind_ok, get_ok, lift_ok, modify_ok]
  constructor
  · rintro ⟨_, _, ⟨rfl, rfl⟩, items, _, ⟨hi, rfl⟩, rfl⟩
    exact ⟨items, hi, rfl⟩
  · rintro ⟨items, hi, rfl⟩
    exact ⟨s, s, ⟨rfl, rfl⟩, items, s, ⟨hi, rfl⟩, rfl⟩

theorem insert_ok {id : ItemId} :
    insert id s = .ok u s' ↔ ∃ items, s.items.insert id = .ok items ∧ { s with items } = s' :=
  edit_ok (g := (·.insert id))

theorem modify_push_last (a : Array α) (x : α) (f : α → α) : (a.push x).modify a.size f = a.push (f x) := by
  apply Array.ext_getElem?
  intro i
  rw [Array.getElem?_modify, Array.getElem?_push, Array.getElem?_push]
  by_cases h : a.size = i
  · simp [h]
  · simp [h, Ne.symm h]

theorem emitGenerated_ok {id : ItemId} (h : emitGenerated opcode operands s = .ok id s') :
    s' = { s with items := s.items.generate s.mark ⟨opcode, operands⟩ } := by
  simp only [emitGenerated, bind_ok, create_ok, insert_ok] at h
  obtain ⟨_, _, ⟨rfl, rfl⟩, _, _, ⟨items, hi, rfl⟩, _, _, ⟨⟩, h⟩ := h
  obtain ⟨-, -, rfl⟩ := ItemSeq.insert_ok hi
  by_cases ha : s.ctx.active
  · simp only [ha, if_true, bind_ok, modifyItem_ok] at h
    obtain ⟨_, _, ⟨-, rfl⟩, ⟨⟩⟩ := h
    simp [generate, grown, ItemSeq.modify, ItemSeq.create, size, Session.mark, ha, modify_push_last]
  · simp only [ha] at h
    cases h
    simp [generate, grown, ItemSeq.create, size, Session.mark, ha]

theorem emitAll_ok (h : emitAll code s = .ok u s') : s' = { s with items := s.items.generateAll s.mark code } := by
  induction code generalizing s with
  | nil => exact (forM_nil_ok.mp h).symm
  | cons i code ih =>
    obtain ⟨t, hi, hr⟩ := forM_cons_ok.mp h
    simp only [bind_ok] at hi
    obtain ⟨_, _, hi, ⟨⟩⟩ := hi
    have ht := emitGenerated_ok hi
    subst ht
    exact ih hr

theorem emitComment_ok (h : emitComment text s = .ok u s') :
    s' = { s with items := s.items.place { kind := .comment text } } := by
  simp only [emitComment, bind_ok, create_ok, insert_ok] at h
  obtain ⟨_, _, ⟨rfl, rfl⟩, items, hi, rfl⟩ := h
  obtain ⟨-, -, rfl⟩ := ItemSeq.insert_ok hi
  rfl

end Build

end Codegen
