import Codegen.Proofs.Extent

/-! What is done to the order of items while a program is lowered: new ones are put in, and old ones are taken out. The
old ones that are left stand as they stood. -/
namespace Codegen.ItemSeq
open List
variable {q : ItemSeq} {may : ItemId → Prop} {l C : List ItemId}

theorem before_iff (hn : (A ++ a :: C).Nodup) : [a, b].Sublist (A ++ a :: C) ↔ b ∈ C := by
  constructor
  · intro h
    obtain ⟨l1, l2, hl, h1, h2⟩ := append_sublist_iff.mp (show ([a] ++ [b]).Sublist _ from h)
    obtain ⟨X, Y, rfl⟩ := append_of_mem (singleton_sublist.mp h1)
    have hsplit : A ++ a :: C = X ++ a :: (Y ++ l2) := by simp [hl]
    obtain ⟨-, rfl⟩ := split_unique hn hsplit
    exact mem_append_right _ (singleton_sublist.mp h2)
  · intro h
    exact ((singleton_sublist.mpr h).cons_cons a).trans (sublist_append_right A _)

theorem before_trans (hn : l.Nodup) (h : [a, b].Sublist l) (h' : [b, c].Sublist l) : [a, c].Sublist l := by
  obtain ⟨A, C, rfl⟩ := append_of_mem (h.subset (by simp : a ∈ [a, b]))
  obtain ⟨X, Y, hC⟩ := append_of_mem ((before_iff hn).mp h)
  refine (before_iff hn).mpr ?_
  rw [hC, append_cons, ← append_assoc] at h' hn
  have hc := (before_iff hn).mp h'
  rw [hC]
  exact mem_append_right _ (mem_cons_of_mem _ hc)

theorem not_before (hn : l.Nodup) (h : [a, b].Sublist l) : ¬ [b, a].Sublist l := fun h' => by
  have haa := hn.sublist (before_trans hn h h')
  simp at haa

theorem before_or (ha : a ∈ l) (hb : b ∈ l) (hne : a ≠ b) : [a, b].Sublist l ∨ [b, a].Sublist l := by
  obtain ⟨A, C, rfl⟩ := append_of_mem ha
  rcases mem_append.mp hb with hb | hb
  · exact .inr ((singleton_sublist.mpr hb).append (singleton_sublist.mpr mem_cons_self))
  · have hbC := (mem_cons.mp hb).resolve_left hne.symm
    exact .inl (((singleton_sublist.mpr hbC).cons_cons a).trans (sublist_append_right A _))

theorem mem_between (hn : (A ++ a :: (D ++ b :: C)).Nodup) :
    x ∈ D ↔ [a, x].Sublist (A ++ a :: (D ++ b :: C)) ∧ [x, b].Sublist (A ++ a :: (D ++ b :: C)) := by
  have hassoc : A ++ a :: (D ++ b :: C) = (A ++ a :: D) ++ b :: C := by simp
  refine ⟨fun hx => ⟨(before_iff hn).mpr (mem_append_left _ hx), ?_⟩, fun ⟨hax, hxb⟩ => ?_⟩
  · rw [hassoc]
    exact (singleton_sublist.mpr (by simp [hx])).append (singleton_sublist.mpr mem_cons_self)
  rcases mem_append.mp ((before_iff hn).mp hax) with hD | hrest
  · exact hD
  rw [hassoc] at hn hxb
  rcases mem_cons.mp hrest with rfl | hC
  · simpa using hn.sublist hxb
  · exact absurd hxb (not_before hn ((before_iff hn).mpr hC))

/-- The items that were there keep their order. New ones may be put between them, and some may be taken out. -/
structure Edits (may : ItemId → Prop) (q q' : ItemSeq) : Prop where
  size : q.size ≤ q'.size
  linear : q'.Linear
  order : (q'.order.filter fun x => x.index < q.size).Sublist q.order
  linked : ∀ x ∈ q.order, ¬ may x → x ∈ q'.order

namespace Edits

theorem refl (h : q.Linear) : q.Edits may q := ⟨le_refl _, h, filter_sublist, fun _ hx _ => hx⟩

section
variable (h : q.Edits may q')
include h

theorem trans (h' : q'.Edits m q'') (hmay : ∀ x ∈ q.order, m x → may x) : q.Edits may q'' where
  size := h.size.trans h'.size
  linear := h'.linear
  order := by
    have hfilter : q''.order.filter (fun x => x.index < q.size) =
        (q''.order.filter fun x => x.index < q'.size).filter fun x => x.index < q.size := by
      rw [filter_filter]
      refine filter_congr fun x _ => ?_
      by_cases hx : x.index < q.size
      · simp [hx, hx.trans_le h.size]
      · simp [hx]
    rw [hfilter]
    exact (h'.order.filter _).trans h.order
  linked x hx hm := h'.linked x (h.linked x hx hm) fun hm' => hm (hmay x hx hm')

theorem mono (hmay : ∀ x ∈ q.order, may x → m x) : q.Edits m q' :=
  ⟨h.size, h.linear, h.order, fun x hx hm => h.linked x hx fun hm' => hm (hmay x hx hm')⟩

theorem mem_order (hx : x.index < q.size) (ho : x ∈ q'.order) : x ∈ q.order :=
  h.order.subset (mem_filter.mpr ⟨ho, by simpa using hx⟩)

theorem before (ha : a.index < q.size) (hb : b.index < q.size) (hab : [a, b].Sublist q'.order) :
    [a, b].Sublist q.order := by
  refine .trans ?_ h.order
  have := hab.filter fun x => decide (x.index < q.size)
  simpa [ha, hb] using this

theorem before_of_mem (hq : q.Linear) (hab : [a, b].Sublist q.order) (ha : a ∈ q'.order)
    (hb : b ∈ q'.order) : [a, b].Sublist q'.order := by
  have hlt : ∀ x ∈ [a, b], x.index < q.size := fun x hx => hq.made x (hab.subset hx)
  have hne : a ≠ b := by
    rintro rfl
    simpa using hq.nodup.sublist hab
  refine (before_or ha hb hne).resolve_right fun hba => not_before hq.nodup hab ?_
  exact h.before (hlt b (by simp)) (hlt a (by simp)) hba

end

section
variable (hq : q.Linear)
include hq

theorem of_order (ho : q'.order = q.order) (hs : q.size ≤ q'.size) : q.Edits may q' where
  size := hs
  linear := hq.congr ho hs
  order := ho ▸ filter_sublist
  linked _ hx _ := ho ▸ hx

theorem splice (hs : q.Spliced q' P N Q) : q.Edits may q' where
  size := hs.size
  linear := hq.splice hs
  order := by
    have hnone : N.filter (fun x => x.index < q.size) = [] :=
      filter_eq_nil_iff.mpr fun x hx => by simpa using (hs.fresh x hx).1
    rw [hs.order', filter_append, filter_append, hnone, append_nil, ← filter_append, ← hs.order]
    exact filter_sublist
  linked x hx _ := by
    rw [hs.order] at hx
    rw [hs.order']
    simp only [mem_append] at hx ⊢
    tauto

theorem generateAll (mark : Option Nat) (code : List Instruction) : q.Edits may (q.generateAll mark code) := by
  obtain ⟨P, N, Q, hs⟩ := hq.generateAll_splice mark code
  exact splice hq hs

theorem erase (ho : q'.order = q.order.erase x) (hs : q'.size = q.size) (hx : may x) : q.Edits may q' where
  size := le_of_eq hs.symm
  linear := hq.erase ho hs
  order := filter_sublist.trans (ho ▸ erase_sublist)
  linked y hy hm := by
    have hne : y ≠ x := by
      rintro rfl
      exact hm hx
    exact ho ▸ (mem_erase_of_ne hne).mpr hy

theorem closeBlock : q.Edits may (q.closeBlock mark i label anchor) := by
  have hg : q.Edits may (q.generate mark i) := generateAll hq mark [i]
  have hsize : (q.generate mark i).size ≤ (q.closeBlock mark i label anchor).size := by
    rw [size_generate, size_closeBlock]
    omega
  refine hg.trans (m := fun _ => False) ?_ fun _ _ h => h.elim
  by_cases hmem : anchor ∈ (q.generate mark i).order
  · obtain ⟨A, C, ho, hA⟩ := eq_append_cons_of_mem hmem
    refine splice hg.linear (P := A ++ [anchor]) (N := [⟨q.size + 1⟩]) (Q := C)
      ⟨by simp [ho], ?_, fun x hx => ?_, hsize⟩
    · have hnew : (⟨q.size + 1⟩ : ItemId) ∉ (q.generate mark i).order := fun hx => by
        simpa using hg.linear.made _ hx
      have hins : (q.closeBlock mark i label anchor).order = _ := Chain.ids_insertAfter.trans (if_neg hnew)
      rw [hins, show (q.generate mark i).chain.ids = _ from ho, spliceAfter_append hA]
      simp
    cases mem_singleton.mp hx
    rw [size_generate, size_closeBlock]
    constructor <;> simp only <;> omega
  · exact of_order hg.linear (Chain.ids_insertAfter_of_not_mem hmem) hsize

end

end Edits

theorem Linear.closeBlock (h : q.Linear) : (q.closeBlock mark i label anchor).Linear :=
  (Edits.closeBlock h : q.Edits (fun _ => False) _).linear

end Codegen.ItemSeq
