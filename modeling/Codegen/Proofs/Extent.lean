import Codegen.Proofs.Jumps
import Mathlib.Data.List.TakeWhile

/-! The place of a function among the items of a program. While the function is translated, code is put into it and
taken out of it, and blocks of code grow behind its end; it stays one piece between its first item and its last. -/
namespace Codegen.ItemSeq
open List
variable {q q' : ItemSeq} {body : List ItemId} {start stop extra : ItemId}

/-- The items from `start` to `stop` are those of `body` that are left and ones that came later, `extra` is `stop` or
stands behind it, and nothing of `body` is anywhere else. The items that came later have numbers from `n` on. -/
structure Spans (n : Nat) (body : List ItemId) (start stop extra : ItemId) (q : ItemSeq) : Prop extends q.Linear where
  order : ∃ A B C, q.order = A ++ start :: (B ++ stop :: C) ∧ (∀ x ∈ B, x ∈ body ∨ n ≤ x.index) ∧
    (∀ x ∈ A ++ C, x ∉ body) ∧ extra ∈ stop :: C
  old : ∀ x ∈ body, x.index < n
  size : n ≤ q.size

theorem split_unique (hn : (P ++ x :: Q).Nodup) (h : P ++ x :: Q = P' ++ x :: Q') : P = P' ∧ Q = Q' := by
  obtain ⟨hP, -, hQ⟩ := (append_cons_inj_of_notMem (by grind) (by grind)).mp h
  exact ⟨hP, hQ⟩

theorem range_of_not_mem (h : start ∉ q.order) : q.range start last ⊆ [start] := by
  have hdrop : q.order.dropWhile (· ≠ start) = [] := by
    rw [dropWhile_eq_nil_iff]
    exact fun y hy => decide_eq_true fun he => h (he ▸ hy)
  rw [range, suffixFrom_eq_drop, hdrop]
  exact upTo_subset

theorem range_split (hn : q.order.Nodup) (ho : q.order = X ++ x :: (E ++ Y))
    (hx : x ∈ q.range start last) (hlast : last ∉ x :: E) : ∃ P Q, q.range start last = P ++ x :: (E ++ Q) := by
  have hstart : start ∈ q.order := by
    by_contra hno
    cases mem_singleton.mp (range_of_not_mem hno hx)
    exact hno (by simp [ho])
  obtain ⟨A, C, hA, hnot⟩ := eq_append_cons_of_mem hstart
  rw [range, suffixFrom_eq hA hnot] at hx ⊢
  obtain ⟨P, Q, hPQ⟩ := append_of_mem (upTo_subset hx)
  have hsplit : X ++ x :: (E ++ Y) = (A ++ P) ++ x :: Q := by rw [← ho, hA, hPQ, append_assoc]
  obtain ⟨rfl, rfl⟩ := split_unique (ho ▸ hn) hsplit
  rw [hPQ] at hx ⊢
  have hP : last ∉ P := fun hmem => by
    rw [ho] at hn
    exact (nodup_cons.mp (nodup_middle.mp hn)).1 (by simp [upTo_subset_of_mem hmem hx])
  refine ⟨P, upTo last Y, ?_⟩
  have hPE : last ∉ P ++ x :: E := by
    simp only [mem_append, not_or]
    exact ⟨hP, hlast⟩
  have := upTo_append_of_not_mem (C := Y) hPE
  simpa using this

theorem mem_newIds : x ∈ q.newIds k ↔ q.size ≤ x.index ∧ x.index < q.size + k := by
  simp only [newIds, mem_map, mem_range'_1]
  constructor
  · rintro ⟨i, hi, rfl⟩
    exact hi
  · exact fun h => ⟨x.index, h, rfl⟩

theorem generateAll_unlinked (mark : Option Nat) (code : List Instruction)
    (hm : ∀ x ∈ q.order, x.index < q.size) (hc : q.cursor = some c) (hx : c ∉ q.order) :
    (q.generateAll mark code).order = q.order := by
  induction code generalizing q c with
  | nil => rfl
  | cons i code ih =>
    have ho : (q.generate mark i).order = q.order := ids_grown_of_not_mem hc hx
    rw [generateAll_cons, ih ?_ rfl ?_, ho]
    · intro x hx
      rw [ho] at hx
      exact (hm x hx).trans_le (by simp)
    · rw [ho]
      exact fun hx => lt_irrefl _ (hm _ hx)

/-- New items stand in a row, and nothing else changes in the order. -/
structure Spliced (q q' : ItemSeq) (P N Q : List ItemId) : Prop where
  order : q.order = P ++ Q
  order' : q'.order = P ++ N ++ Q
  fresh : ∀ x ∈ N, q.size ≤ x.index ∧ x.index < q'.size
  size : q.size ≤ q'.size

namespace Linear

theorem congr (h : q.Linear) (ho : q'.order = q.order) (hs : q.size ≤ q'.size) : q'.Linear where
  nodup := ho ▸ h.nodup
  made x hx := (h.made x (ho ▸ hx)).trans_le hs

theorem generateAll_splice (h : q.Linear) (mark : Option Nat) (code : List Instruction) :
    ∃ P N Q, q.Spliced (q.generateAll mark code) P N Q := by
  have hs : q.size ≤ (q.generateAll mark code).size := by simp [size_generateAll]
  by_cases hc : ∀ c, q.cursor = some c → c ∈ q.order
  · obtain ⟨P, Q, hcut⟩ : ∃ P Q, q.Cut P Q := by
      cases hcur : q.cursor with
      | none => exact ⟨[], q.order, rfl, hcur, h.nodup, h.made⟩
      | some c =>
        obtain ⟨P, Q, hPQ⟩ := append_of_mem (hc c hcur)
        have hPQ' : q.order = (P ++ [c]) ++ Q := by simp [hPQ]
        exact ⟨P ++ [c], Q, hPQ', by simp [hcur], hPQ' ▸ h.nodup, hPQ' ▸ h.made⟩
    refine ⟨P, q.newIds code.length, Q, hcut.order, (hcut.generateAll mark code).order, fun x hx => ?_, hs⟩
    rw [size_generateAll]
    exact mem_newIds.mp hx
  · obtain ⟨c, hcur, hx⟩ : ∃ c, q.cursor = some c ∧ c ∉ q.order := by simpa using hc
    exact ⟨q.order, [], [], by simp, by simpa using generateAll_unlinked mark code h.made hcur hx, by simp, hs⟩

theorem splice (h : q.Linear) (hs : q.Spliced q' P N Q) : q'.Linear := by
  obtain ⟨ho, ho', hnew, hs⟩ := hs
  refine ⟨q'.nodup_order, fun x hx => ?_⟩
  rw [ho'] at hx
  have hcases : x ∈ N ∨ x ∈ q.order := by
    rw [ho]
    simp only [mem_append] at hx ⊢
    tauto
  rcases hcases with hx | hx
  · exact (hnew x hx).2
  · exact (h.made x hx).trans_le hs

theorem generateAll (h : q.Linear) (mark : Option Nat) (code : List Instruction) :
    (q.generateAll mark code).Linear := by
  obtain ⟨P, N, Q, hs⟩ := h.generateAll_splice mark code
  exact h.splice hs

theorem erase (h : q.Linear) (ho : q'.order = q.order.erase x) (hs : q'.size = q.size) : q'.Linear where
  nodup := ho ▸ h.nodup.erase x
  made y hy := hs ▸ h.made y (mem_of_mem_erase (ho ▸ hy))

end Linear

section CloseBlock
variable {mark : Option Nat} {label : Item} {anchor : ItemId}

theorem size_closeBlock : (q.closeBlock mark i label anchor).size = q.size + 2 := by
  simp [closeBlock, generate, size]

theorem get?_closeBlock_of_lt (hx : x.index < q.size) : (q.closeBlock mark i label anchor).get? x = q.get? x := by
  have hx' : x.index < (q.generate mark i).size := by
    rw [size_generate]
    omega
  rw [← get?_generate_of_lt mark i hx]
  simp only [closeBlock, get?, Array.getElem?_push]
  exact if_neg (hx'.ne)

theorem get?_closeBlock_label : (q.closeBlock mark i label anchor).get? ⟨q.size + 1⟩ = some label := by
  simp only [closeBlock, get?]
  rw [Array.getElem?_push, if_pos]
  simp [generate, size]

theorem get?_closeBlock_jump : ((q.closeBlock mark i label anchor).get? ⟨q.size⟩).map Item.kind =
    some (.instruction { opcode := i.opcode, operands := i.operands }) := by
  have hself := get?_generate_self mark q i
  simp only [closeBlock, get?, Array.getElem?_push] at hself ⊢
  rw [if_neg (by simp [generate, size]), hself]
  rfl

theorem get?_closeBlock_new {item : Item} (hx : q.size ≤ x.index)
    (h : (q.closeBlock mark i label anchor).get? x = some item) :
    item = label ∨ item.translated = mark.isSome ∧
      item.kind = .instruction { opcode := i.opcode, operands := i.operands } := by
  by_cases hlt : x.index < q.size + 1
  · obtain rfl : x = ⟨q.size⟩ := congrArg ItemId.mk (by omega : x.index = q.size)
    have hself := get?_generate_self mark q i
    simp only [closeBlock, get?, Array.getElem?_push] at h hself
    rw [if_neg (by simp [generate, size]), hself] at h
    cases h
    exact .inr ⟨rfl, rfl⟩
  · have hlt' := lt_size_of_get? h
    rw [size_closeBlock] at hlt'
    have hlast : x.index = (q.generate mark i).items.size := by
      have := size_generate mark q i
      simp only [size] at this hlt hlt'
      omega
    simp only [closeBlock, get?, Array.getElem?_push, hlast, if_true] at h
    cases h
    exact .inl rfl

theorem mem_order_of_closeBlock (hx : x.index < q.size)
    (h : x ∈ (q.closeBlock mark i label anchor).order) : x ∈ q.order := by
  have hnew : ∀ {k : Nat}, q.size ≤ k → x ≠ ⟨k⟩ := by
    rintro k hk rfl
    exact not_lt.mpr hk hx
  have hgen : x ∈ (q.generate mark i).order := (Chain.mem_of_insertAfter h).resolve_left (hnew (Nat.le_succ _))
  exact (mem_of_grown hgen).resolve_left (hnew (le_refl _))

theorem order_closeBlock {code : List Instruction} (ho : q.order = X ++ anchor :: Y)
    (hc : q.cursor = some anchor) (hn : q.order.Nodup) (hm : ∀ x ∈ q.order, x.index < q.size) :
    ((q.generateAll mark code).closeBlock mark i label anchor).order =
      X ++ anchor :: (⟨q.size + code.length + 1⟩ :: q.newIds (code.length + 1) ++ Y) := by
  have ho' : q.order = (X ++ [anchor]) ++ Y := by simp [ho]
  have hcut : q.Cut (X ++ [anchor]) Y := ⟨ho', by simp [hc], ho' ▸ hn, ho' ▸ hm⟩
  have hord := (hcut.generateAll mark (code ++ [i])).order
  have hX : anchor ∉ X := fun hx => by
    rw [ho] at hn
    exact (nodup_cons.mp (nodup_middle.mp hn)).1 (mem_append_left _ hx)
  have hnew : (⟨q.size + code.length + 1⟩ : ItemId) ∉ (generateAll mark q (code ++ [i])).order := fun hx => by
    have hlt := (hcut.generateAll mark (code ++ [i])).made _ (hord ▸ hx)
    simp [size_generateAll, Nat.add_assoc] at hlt
  rw [generateAll_append] at hord hnew
  have hins : ((q.generateAll mark code).closeBlock mark i label anchor).order = _ :=
    Chain.ids_insertAfter.trans (if_neg (by rwa [size_generateAll]))
  rw [hins, show (generate mark (generateAll mark q code) i).chain.ids = _ from hord]
  simp only [append_assoc, nil_append, cons_append, length_append, length_singleton, size_generateAll]
  rw [spliceAfter_append hX]

end CloseBlock

namespace Spans

section
variable (h : q.Spans n body start stop extra)
include h

theorem congr (ho : q'.order = q.order) (hs : q'.size = q.size) : q'.Spans n body start stop extra where
  toLinear := h.toLinear.congr ho (le_of_eq hs.symm)
  order := ho ▸ h.order
  old := h.old
  size := hs ▸ h.size

theorem splice (hs : q.Spliced q' P N Q) : q'.Spans n body start stop extra where
  toLinear := h.toLinear.splice hs
  order := by
    obtain ⟨ho, ho', hnew, -⟩ := hs
    obtain ⟨A, B, C, hq, hB, hAC, he⟩ := h.order
    have hfresh : ∀ x ∈ N, n ≤ x.index := fun x hx => h.size.trans (hnew x hx).1
    have hout : ∀ x ∈ N, x ∉ body := fun x hx hb => lt_irrefl _ ((h.old x hb).trans_le (hfresh x hx))
    rcases append_eq_append_iff.mp (ho ▸ hq) with ⟨A', rfl, rfl⟩ | ⟨P', rfl, hP⟩
    · exact ⟨P ++ N ++ A', B, C, by simp [ho'], hB, by grind, he⟩
    rcases P' with _ | ⟨y, P'⟩
    · obtain rfl : Q = _ := hP.symm
      exact ⟨A ++ N, B, C, by simp [ho'], hB, by grind, he⟩
    obtain ⟨rfl, hPQ⟩ := cons.inj hP
    rcases append_eq_append_iff.mp hPQ with ⟨C', rfl, hC⟩ | ⟨B', rfl, rfl⟩
    · rcases C' with _ | ⟨z, C'⟩
      · obtain rfl : Q = _ := hC.symm
        exact ⟨A, B ++ N, C, by simp [ho'], by grind, hAC, he⟩
      · obtain ⟨rfl, rfl⟩ := cons.inj hC
        exact ⟨A, B, C' ++ N ++ Q, by simp [ho'], hB, by grind, by grind⟩
    · exact ⟨A, P' ++ N ++ B', C, by simp [ho'], by grind, hAC, he⟩
  old := h.old
  size := h.size.trans hs.size

theorem generateAll (mark : Option Nat) (code : List Instruction) :
    (q.generateAll mark code).Spans n body start stop extra := by
  obtain ⟨P, N, Q, hs⟩ := h.generateAll_splice mark code
  exact h.splice hs

theorem erase (ho : q.order = X ++ x :: (Y ++ stop :: Z)) (hx : x ≠ start) (ho' : q'.order = q.order.erase x)
    (hs : q'.size = q.size) : q'.Spans n body start stop extra where
  order := by
    obtain ⟨A, B, C, hq, hB, hAC, he⟩ := h.order
    have hn := h.nodup
    rw [hq] at hn
    have hmem : x ∈ A ++ B := by
      have hsplit : (A ++ start :: B) ++ stop :: C = (X ++ x :: Y) ++ stop :: Z := by simp [← hq, ho]
      obtain ⟨hAB, -⟩ := split_unique (by simpa using hn) hsplit
      have hx' : x ∈ A ++ start :: B := hAB ▸ by simp
      simpa [hx] using hx'
    rw [ho', hq]
    rcases mem_append.mp hmem with hA | hB'
    · refine ⟨A.erase x, B, C, erase_append_left _ hA, hB, fun y hy => hAC y ?_, he⟩
      grind
    refine ⟨A, B.erase x, C, ?_, fun y hy => hB y (mem_of_mem_erase hy), hAC, he⟩
    have hA : x ∉ A := by grind
    rw [erase_append_right _ hA, erase_cons_tail (by simpa using Ne.symm hx), erase_append_left _ hB']
  toLinear := h.toLinear.erase ho' hs
  old := h.old
  size := hs ▸ h.size

theorem block (ho : q.order = X ++ extra :: Y) (ho' : q'.order = X ++ extra :: (N ++ Y))
    (hnew : ∀ x ∈ N, q.size ≤ x.index ∧ x.index < q'.size) (hs : q.size ≤ q'.size) (he' : extra' ∈ N) :
    q'.Spans n body start stop extra' := by
  have hsplice : q'.Spans n body start stop extra :=
    h.splice (P := X ++ [extra]) (Q := Y) ⟨by simp [ho], by simp [ho'], hnew, hs⟩
  refine ⟨hsplice.toLinear, ?_, hsplice.old, hsplice.size⟩
  obtain ⟨A, B, C, hq, hB, hAC, he⟩ := hsplice.order
  refine ⟨A, B, C, hq, hB, hAC, ?_⟩
  -- what stands behind `extra` stands behind `stop`
  obtain ⟨C₁, C₂, hC⟩ := append_of_mem he
  have hn := hsplice.nodup
  have hsplit : X ++ extra :: (N ++ Y) = (A ++ start :: (B ++ C₁)) ++ extra :: C₂ := by
    simp [← ho', hq, hC]
  obtain ⟨-, rfl⟩ := split_unique (ho' ▸ hn) hsplit
  rw [hC]
  simp [he']

theorem closeBlock {code : List Instruction} (hc : q.cursor = some extra) :
    ((q.generateAll mark code).closeBlock mark i label extra).Spans n body start stop ⟨q.size + code.length⟩ := by
  obtain ⟨A, B, C, ho, -, -, he⟩ := h.order
  have hmem : extra ∈ q.order := by
    rw [ho]
    exact mem_append_right _ (mem_cons_of_mem _ (mem_append_right _ he))
  obtain ⟨X, Y, hXY⟩ := append_of_mem hmem
  refine h.block hXY (order_closeBlock hXY hc h.nodup h.made) ?_ ?_ ?_
  · intro x hx
    rw [size_closeBlock, size_generateAll]
    rcases mem_cons.mp hx with rfl | hx
    · constructor <;> simp only <;> omega
    · have := mem_newIds.mp hx
      omega
  · rw [size_closeBlock, size_generateAll]
    omega
  · refine mem_cons_of_mem _ (mem_newIds.mpr ?_)
    constructor <;> simp only <;> omega

theorem around (hx : x ∈ body) (hs : start ∉ body) (hstop : stop ∉ body) (hmem : x ∈ q.order) :
    ∃ X L Z, q.order = X ++ x :: (L ++ stop :: Z) ∧ x ∉ X ∧ ∀ y ∈ L, y ∈ body ∨ n ≤ y.index := by
  obtain ⟨A, B, C, hq, hB, hAC, -⟩ := h.order
  have hn := h.nodup
  have hxB : x ∈ B := by grind
  obtain ⟨B₁, B₂, rfl⟩ := append_of_mem hxB
  exact ⟨A ++ start :: B₁, B₂, C, by simp [hq], by grind, fun y hy => hB y (by simp [hy])⟩

end

private theorem next_within (ho : q.order = X ++ x :: (L ++ stop :: Z)) (hX : x ∉ X)
    (hL : ∀ z ∈ L, z ∈ body ∨ n ≤ z.index) (hy : q.next? x = some y) : y ∈ body ∨ y = stop ∨ n ≤ y.index := by
  rw [next?_eq_following, ho, following_append hX] at hy
  cases L with
  | nil =>
    cases hy
    exact .inr (.inl rfl)
  | cons z L =>
    obtain rfl : z = y := Option.some.inj hy
    exact (hL z mem_cons_self).imp_right .inr

theorem next (h : q.Spans n body start stop extra) (hx : x ∈ body) (hs : start ∉ body)
    (hstop : stop ∉ body) (hy : q.next? x = some y) : y ∈ body ∨ y = stop ∨ n ≤ y.index := by
  have hmem : x ∈ q.order := by
    by_contra hx
    rw [next?_eq_following, following_of_not_mem hx] at hy
    cases hy
  obtain ⟨X, L, Z, ho, hX, hL⟩ := h.around hx hs hstop hmem
  exact next_within ho hX hL hy

theorem next_start (h : q.Spans n body start stop extra) (hy : q.next? start = some y) :
    y ∈ body ∨ y = stop ∨ n ≤ y.index := by
  obtain ⟨A, B, C, ho, hB, -⟩ := h.order
  have hn := h.nodup
  rw [ho, nodup_append] at hn
  exact next_within ho (fun hm => hn.2.2 _ hm _ mem_cons_self rfl) hB hy

end Spans

end Codegen.ItemSeq
