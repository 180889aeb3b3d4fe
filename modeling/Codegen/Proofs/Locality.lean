import Codegen.Proofs.FrameOnce

/-! Lowering a function is local. New code goes between the items of the function or into blocks right behind it. What
stands in front of the function and behind it is neither moved nor changed, and neither are variables of other
functions. -/
namespace Codegen
open List Build ItemSeq Option
variable {extra : ItemId} {next : Option ItemId} {u u' : Session} {p : Site}

/-- Where a function stands in a program, in which `size` items were made. -/
structure Site where
  size : Nat
  front : List ItemId
  start : ItemId
  body : List ItemId
  stop : ItemId
  back : List ItemId
  nodup : (front ++ start :: (body ++ stop :: back)).Nodup
  made : ∀ x ∈ front ++ start :: (body ++ stop :: back), x.index < size

namespace Site
variable {Y : List ItemId}

/-- The item is one of the function or came later. -/
def Own (p : Site) (x : ItemId) : Prop := x ∈ p.start :: (p.body ++ [p.stop]) ∨ p.size ≤ x.index

/-- The items around the function stand where they stood. Of the function some are left, with new ones among them, and
the blocks behind it end with `extra`. -/
def Keeps (p : Site) (extra : ItemId) (l : List ItemId) : Prop :=
  ∃ B E, l = p.front ++ p.start :: (B ++ p.stop :: (E ++ p.back)) ∧ (∀ x ∈ B, x ∈ p.body ∨ p.size ≤ x.index) ∧
    (∀ x ∈ E, p.size ≤ x.index) ∧ (p.stop :: E).getLast? = some extra

theorem ne_start (hx : x ∈ p.body ++ [p.stop]) : x ≠ p.start := by
  rintro rfl
  have hn := (nodup_cons.mp (nodup_append.mp p.nodup).2.1).1
  simp only [mem_append, mem_cons, not_mem_nil, or_false, not_or] at hn hx
  exact hx.elim hn.1 hn.2.1

theorem ne_stop (hx : x ∈ p.body) : x ≠ p.stop := by
  rintro rfl
  have hn := (nodup_cons.mp (nodup_append.mp p.nodup).2.1).2
  exact (nodup_append.mp hn).2.2 _ hx _ mem_cons_self rfl

theorem not_own_front (hx : x ∈ p.front) : ¬ p.Own x := by
  have hn := p.nodup
  rintro (ho | ho)
  · refine (nodup_append.mp hn).2.2 x hx x ?_ rfl
    simp only [mem_cons, mem_append, not_mem_nil, or_false] at ho ⊢
    tauto
  · exact not_lt.mpr ho (p.made x (mem_append_left _ hx))

theorem not_own_back (hx : x ∈ p.back) : ¬ p.Own x := by
  have hn := (nodup_append.mp p.nodup).2.1
  rintro (ho | ho)
  · simp only [nodup_cons, nodup_append, mem_append, mem_cons, not_mem_nil, or_false] at hn ho
    rcases ho with rfl | ho | rfl
    · exact hn.1 (.inr (.inr hx))
    · exact hn.2.2.2 x ho x (.inr hx) rfl
    · exact hn.2.2.1.1 hx
  · exact not_lt.mpr ho (p.made x (by simp [hx]))

theorem split_between (hn : (X ++ c :: Y).Nodup) (h : X ++ c :: Y = F ++ (L ++ t :: Z))
    (hc : c ∉ F) (ht : t ∈ Y) : ∃ L₁ L₂, L = L₁ ++ c :: L₂ ∧ X = F ++ L₁ ∧ Y = L₂ ++ t :: Z := by
  have htX : t ∉ X ++ [c] := fun hm => by
    rw [← singleton_append, ← append_assoc] at hn
    exact (nodup_append.mp hn).2.2 t hm t ht rfl
  have hmem : c ∈ F ++ (L ++ t :: Z) := by
    rw [← h]
    simp
  rcases mem_append.mp hmem with hF | hL
  · exact absurd hF hc
  rcases mem_append.mp hL with hL | hZ
  · obtain ⟨L₁, L₂, rfl⟩ := append_of_mem hL
    have he : X ++ c :: Y = (F ++ L₁) ++ c :: (L₂ ++ t :: Z) := by simp [h]
    obtain ⟨rfl, rfl⟩ := split_unique hn he
    exact ⟨L₁, L₂, rfl, rfl, rfl⟩
  rcases mem_cons.mp hZ with rfl | hZ
  · exact absurd (by simp) htX
  obtain ⟨Z₁, Z₂, rfl⟩ := append_of_mem hZ
  have he : X ++ c :: Y = (F ++ (L ++ t :: Z₁)) ++ c :: Z₂ := by simp [h]
  obtain ⟨rfl, -⟩ := split_unique hn he
  exact absurd (by simp) htX

theorem Keeps.splice (h : p.Keeps extra (X ++ c :: Y)) (hn : (X ++ c :: Y).Nodup) (hc : p.Own c)
    (hstop : p.stop ∈ Y) (hN : ∀ x ∈ N, p.size ≤ x.index) : p.Keeps extra (X ++ c :: (N ++ Y)) := by
  obtain ⟨B, E, ho, hB, hE, hlast⟩ := h
  obtain ⟨L₁, L₂, hL, rfl, rfl⟩ := split_between (L := p.start :: B) hn ho (fun hF => not_own_front hF hc) hstop
  cases L₁ with
  | nil =>
    obtain ⟨rfl, rfl⟩ := cons.inj hL
    exact ⟨N ++ B, E, by simp, forall_mem_append.mpr ⟨fun x hx => .inr (hN x hx), hB⟩, hE, hlast⟩
  | cons a L₁ =>
    rw [cons_append] at hL
    obtain ⟨rfl, rfl⟩ := cons.inj hL
    refine ⟨L₁ ++ c :: (N ++ L₂), E, by simp, fun x hx => ?_, hE, hlast⟩
    simp only [mem_append, mem_cons] at hx hB
    rcases hx with hx | hx | hx | hx
    · exact hB x (.inl hx)
    · exact hB x (.inr (.inl hx))
    · exact .inr (hN x hx)
    · exact hB x (.inr (.inr hx))

theorem Keeps.cut (h : p.Keeps extra (X ++ c :: (R ++ Y))) (hn : (X ++ c :: (R ++ Y)).Nodup) (hc : p.Own c)
    (hne : c ≠ p.start) (hstop : p.stop ∈ Y) : p.Keeps extra (X ++ Y) ∧ ∀ x ∈ c :: R, p.Own x := by
  obtain ⟨B, E, ho, hB, hE, hlast⟩ := h
  obtain ⟨L₁, L₂, hL, rfl, hRY⟩ := split_between (L := p.start :: B) hn ho (fun hF => not_own_front hF hc)
    (mem_append_right R hstop)
  have hR : p.stop ∉ R := fun hR => by
    have := (nodup_cons.mp (nodup_append.mp hn).2.1).2
    exact (nodup_append.mp this).2.2 _ hR _ hstop rfl
  obtain ⟨L₃, rfl, rfl⟩ : ∃ L₃, L₂ = R ++ L₃ ∧ Y = L₃ ++ p.stop :: (E ++ p.back) := by
    rcases append_eq_append_iff.mp hRY with ⟨K, rfl, hK⟩ | ⟨K, hK, hK'⟩
    · cases K with
      | nil => exact ⟨[], by simp, by simpa using hK⟩
      | cons a K =>
        cases hK
        exact ⟨a :: K, rfl, rfl⟩
    · cases K with
      | nil => exact ⟨[], by simpa using hK.symm, by simpa using hK'.symm⟩
      | cons a K =>
        obtain ⟨rfl, -⟩ := cons.inj hK'
        exact absurd (by rw [hK]; simp) hR
  cases L₁ with
  | nil => exact absurd (cons.inj hL).1.symm hne
  | cons a L₁ =>
    rw [cons_append] at hL
    obtain ⟨rfl, rfl⟩ := cons.inj hL
    refine ⟨⟨L₁ ++ L₃, E, by simp, fun x hx => hB x ?_, hE, hlast⟩, fun x hx => ?_⟩
    · simp only [mem_append, mem_cons] at hx ⊢
      tauto
    refine (hB x ?_).imp_left fun hx => by simp [hx]
    simp only [mem_append, mem_cons] at hx ⊢
    tauto

theorem Keeps.block (h : p.Keeps extra (X ++ extra :: Y)) (hn : (X ++ extra :: Y).Nodup)
    (hN : ∀ x ∈ N, p.size ≤ x.index) (he : N.getLast? = some extra') : p.Keeps extra' (X ++ extra :: (N ++ Y)) := by
  obtain ⟨B, E, ho, hB, hE, hlast⟩ := h
  obtain ⟨E₀, hE0⟩ := getLast?_eq_some_iff.mp hlast
  have htail : ∀ K, p.stop :: (E ++ K) = E₀ ++ extra :: K := fun K => by
    rw [← cons_append, hE0]
    simp
  have he' : X ++ extra :: Y = (p.front ++ p.start :: (B ++ E₀)) ++ extra :: p.back := by
    rw [ho, htail]
    simp
  obtain ⟨rfl, rfl⟩ := split_unique hn he'
  refine ⟨B, E ++ N, ?_, hB, forall_mem_append.mpr ⟨hE, hN⟩, ?_⟩
  · rw [append_assoc E, htail]
    simp
  · rw [← cons_append, getLast?_append, he]
    rfl

theorem Keeps.around (h : p.Keeps extra l) (hx : x ∈ p.body ++ [p.stop]) (hl : x ∈ l) :
    ∃ K Z, l = p.front ++ (p.start :: K) ++ x :: Z ∧ (∀ y ∈ K, p.Own y) ∧ p.stop ∈ x :: Z := by
  obtain ⟨B, E, rfl, hB, hE, hlast⟩ := h
  have hown : p.Own x := .inl (mem_cons_of_mem _ hx)
  have hBown : ∀ y ∈ B, p.Own y := fun y hy => (hB y hy).imp_left fun h => by simp [h]
  have hxs := ne_start hx
  have hxE : x ∉ E := fun hxE => by
    refine not_lt.mpr (hE x hxE) (p.made x ?_)
    simp only [mem_append, mem_cons, not_mem_nil, or_false] at hx ⊢
    tauto
  simp only [mem_append, mem_cons] at hl
  rcases hl with hm | hm | hm | rfl | hm | hm
  · exact absurd hown (not_own_front hm)
  · exact absurd hm hxs
  · obtain ⟨K, K', rfl⟩ := append_of_mem hm
    exact ⟨K, K' ++ p.stop :: (E ++ p.back), by simp, fun y hy => hBown y (by simp [hy]), by simp⟩
  · exact ⟨B, E ++ p.back, by simp, hBown, by simp⟩
  · exact absurd hm hxE
  · exact absurd hown (not_own_back hm)

end Site

namespace Session
variable {id : ItemId} {cut : Prop}

/-- What stands around the function is in its place. -/
structure Inside (p : Site) (u : Session) : Prop extends u.items.Linear where
  keeps : ∃ extra, u.ctx.extraBlock = some extra ∧ p.Keeps extra u.items.order
  size : p.size ≤ u.items.size

/-- New code goes into the function. -/
def Aims (p : Site) (u : Session) : Prop :=
  ∃ c, u.items.cursor = some c ∧ p.Own c ∧ [c, p.stop].Sublist u.items.order

namespace Inside

section
variable (h : u.Inside p)
include h

theorem congr (ho : u'.items.order = u.items.order) (hs : u'.items.size = u.items.size)
    (he : u'.ctx.extraBlock = u.ctx.extraBlock) : u'.Inside p := by
  refine ⟨h.toLinear.congr ho (le_of_eq hs.symm), ?_, hs ▸ h.size⟩
  rw [he, ho]
  exact h.keeps

theorem aims (hx : x ∈ p.body ++ [p.stop]) (ho : x ∈ u.items.order)
    (hu : u'.items.order = u.items.order) (hc : u'.items.cursor = u.items.prev? x) : u'.Aims p := by
  obtain ⟨extra, -, hk⟩ := h.keeps
  obtain ⟨K, Z, hKZ, hK, hstop⟩ := hk.around hx ho
  have hn := h.nodup
  rw [hKZ] at hn
  have hprev : u.items.prev? x = (p.front ++ p.start :: K).getLast? := by
    rw [prev?_eq_preceding, hKZ]
    rw [nodup_append] at hn
    exact preceding_append (fun hm => hn.2.2 x hm x mem_cons_self rfl) (nodup_cons.mp hn.2.1).1
  obtain ⟨K', c, hK'⟩ : ∃ K' c, p.start :: K = K' ++ [c] := by
    rcases eq_nil_or_concat (p.start :: K) with h | ⟨K', c, h⟩
    · cases h
    · exact ⟨K', c, by simpa using h⟩
  refine ⟨c, ?_, ?_, ?_⟩
  · rw [hc, hprev, hK', ← append_assoc, getLast?_append]
    rfl
  rotate_left
  · rw [hu, hKZ, hK', append_assoc]
    refine .trans ?_ (sublist_append_right p.front _)
    exact (sublist_append_right K' [c]).append (singleton_sublist.mpr hstop)
  have hc : c ∈ p.start :: K := by
    rw [hK']
    simp
  rcases mem_cons.mp hc with rfl | hc
  · exact .inl mem_cons_self
  · exact hK c hc

theorem generateAll {code : List Instruction} {mark : Option Nat} (ha : u.Aims p)
    (hi : u'.items = u.items.generateAll mark code) (he : u'.ctx.extraBlock = u.ctx.extraBlock) :
    u'.Inside p ∧ u'.Aims p := by
  obtain ⟨c, hc, hown, hsub⟩ := ha
  obtain ⟨X, Y, ho⟩ := append_of_mem (hsub.subset mem_cons_self)
  have hstop : p.stop ∈ Y := (before_iff (ho ▸ h.nodup)).mp (ho ▸ hsub)
  have hsize : u'.items.size = u.items.size + code.length := by rw [hi, size_generateAll]
  have hcut : u.items.Cut (X ++ [c]) Y := by
    have ho' : u.items.order = (X ++ [c]) ++ Y := by simp [ho]
    exact ⟨ho', by simp [hc], ho' ▸ h.nodup, ho' ▸ h.made⟩
  have hnew : ∀ x ∈ u.items.newIds code.length, p.size ≤ x.index := fun x hx =>
    h.size.trans (mem_newIds.mp hx).1
  have hcut' := hcut.generateAll mark code
  have ho' : u'.items.order = X ++ c :: (u.items.newIds code.length ++ Y) := by
    rw [hi, hcut'.order]
    simp
  refine ⟨⟨hi ▸ h.toLinear.generateAll mark code, ?_, h.size.trans (by omega)⟩, ?_⟩
  · obtain ⟨extra, hex, hk⟩ := h.keeps
    refine ⟨extra, he.trans hex, ?_⟩
    rw [ho']
    rw [ho] at hk
    exact hk.splice (ho ▸ h.nodup) hown hstop hnew
  rcases eq_nil_or_concat (u.items.newIds code.length) with hnil | ⟨N, d, hN⟩
  · have hcode : code = [] := by
      cases code with
      | nil => rfl
      | cons i code => simp [newIds, range'_succ] at hnil
    subst hcode
    rw [generateAll_nil] at hi
    exact ⟨c, by rw [hi, hc], hown, by rw [hi]; exact hsub⟩
  · rw [concat_eq_append] at hN
    refine ⟨d, ?_, .inr (hnew d (by simp [hN])), ?_⟩
    · rw [hi, hcut'.cursor, hN, ← append_assoc, getLast?_append]
      rfl
    rw [ho', hN]
    refine .trans (.cons _ ?_) (sublist_append_right X _)
    rw [append_assoc]
    exact ((singleton_sublist.mpr hstop).cons_cons d).trans (sublist_append_right N _)

theorem split_extra (he : u.ctx.extraBlock = some extra) :
    ∃ X, u.items.order = X ++ extra :: p.back ∧ p.Keeps extra (X ++ extra :: p.back) := by
  obtain ⟨e, hee, hk⟩ := h.keeps
  cases he ▸ hee
  obtain ⟨B, E, hBE, -, -, hlast⟩ := id hk
  obtain ⟨E₀, hE0⟩ := getLast?_eq_some_iff.mp hlast
  have ho : u.items.order = (p.front ++ p.start :: (B ++ E₀)) ++ extra :: p.back := by
    rw [hBE, show p.stop :: (E ++ p.back) = (p.stop :: E) ++ p.back from rfl, hE0]
    simp
  exact ⟨_, ho, ho ▸ hk⟩

/-- The code of a block goes behind the last block. -/
theorem detour (he : u.ctx.extraBlock = some extra)
    (hv : (u.atCursor (some extra)).Extends D v) : (v.detour id j extra).Inside p := by
  obtain ⟨X, ho, hk⟩ := h.split_extra he
  obtain ⟨code, -, hcode⟩ := hv.code
  have hmade : extra.index < u.items.size := h.made extra (by rw [ho]; simp)
  have hex : v.ctx.extraBlock = u.ctx.extraBlock := (congrArg Context.extraBlock hv.ctx :)
  unfold Session.detour
  split
  · rename_i hcur
    -- if the cursor is where it was, there is no code
    have hcut : (u.items.setCursor (some extra)).Cut (X ++ [extra]) p.back := by
      have ho' : u.items.order = (X ++ [extra]) ++ p.back := by simp [ho]
      exact ⟨ho', by simp [ItemSeq.setCursor], ho' ▸ h.nodup, ho' ▸ h.made⟩
    have hlast : (X ++ [extra] ++ u.items.newIds code.length).getLast? = some extra := by
      rw [← hcur, hcode]
      exact (hcut.generateAll (u.atCursor (some extra)).mark code).cursor.symm
    have hnil : code = [] := by
      rcases eq_nil_or_concat (u.items.newIds code.length) with hnil | ⟨N, d, hN⟩
      · simpa [newIds] using hnil
      rw [concat_eq_append] at hN
      have hd : d ∈ u.items.newIds code.length := by simp [hN]
      rw [hN, ← append_assoc, getLast?_concat] at hlast
      rw [← some.inj hlast] at hmade
      exact absurd hmade (not_lt.mpr (mem_newIds.mp hd).1)
    subst hnil
    exact h.congr (by rw [hcode]; rfl) (by rw [hcode]; rfl) hex
  · obtain ⟨-, N, -, hN, hlast, hord⟩ := order_closed h.toLinear ho hv j.target
    have hvsize : (v.closeBlock j.target extra).items.size = v.items.size + 2 := size_closeBlock
    have hlin : v.items.Linear := by
      rw [hcode]
      exact (h.toLinear.congr rfl (le_refl _) : (u.items.setCursor (some extra)).Linear).generateAll _ _
    have hclosed : (v.closeBlock j.target extra).Inside p := by
      have hnew : u.items.size ≤ v.items.size + 1 := hN _ mem_cons_self
      refine ⟨hlin.closeBlock, ⟨⟨v.items.size⟩, rfl, ?_⟩, h.size.trans (by omega)⟩
      rw [hord]
      exact hk.block (ho ▸ h.nodup) (fun x hx => h.size.trans (hN x hx)) hlast
    exact hclosed.congr rfl (by simp [withKind, ItemSeq.modify, ItemSeq.size]) rfl

end

end Inside

theorem Aims.congr (h : u.Aims p) (hi : u'.items.order = u.items.order) (hc : u'.items.cursor = u.items.cursor) :
    u'.Aims p := by
  unfold Aims
  rwa [hi, hc]

theorem Change.inside (hc : u.Change id T cut u') (h : u.Inside p) (ha : u.Aims p) : u'.Inside p ∧ u'.Aims p := by
  cases hc with
  | emit hg =>
    obtain ⟨code, -, hi⟩ := hg.code
    exact h.generateAll ha hi (congrArg Context.extraBlock hg.ctx :)
  | note hs hn =>
    have hi : u'.items = u.items := by rw [hs]
    exact ⟨h.congr (by rw [hi]) (by rw [hi]) (by rw [hn.rest]), ha.congr (by rw [hi]) (by rw [hi])⟩
  | settle =>
    exact ⟨h.congr rfl (by simp [withKind, ItemSeq.modify, size]) rfl, ha.congr rfl rfl⟩
  | @detour v D j extra hy he hj hv =>
    have hadds : u.Adds (fun _ => False) False (v.detour id j extra) := .detour hj he hv
    have hed := hadds.adds h.toLinear
    obtain ⟨c, hc, hown, hsub⟩ := ha
    refine ⟨(h.detour he hv).congr rfl rfl rfl, c, hc, hown, hed.before_of_mem h.toLinear hsub ?_ ?_⟩
    · exact hed.linked c (hsub.subset (by simp)) fun h => h
    · exact hed.linked _ (hsub.subset (by simp)) fun h => h

end Session

namespace Session
variable {id : ItemId} {cut : Prop}

/-- A change of the program while the function at `p` is translated. -/
inductive Edit (p : Site) : Session → Session → Prop
  | change {u u' : Session} {id : ItemId} {T : ItemId → Prop} {cut : Prop} (hid : p.Own id) (hT : ∀ x, T x → p.Own x)
    (h : u.Change id T cut u') : Edit p u u'
  | remove {u u' : Session} {X R Y : List ItemId} (hR : ∀ x ∈ R, p.Own x)
    (hrest : u' = { u with items := u'.items, stats := u'.stats }) (hsize : u'.items.size = u.items.size)
    (ho : u.items.order = X ++ R ++ Y) (ho' : u'.items.order = X ++ Y)
    (hget : ∀ x, u'.items.get? x =
      if x ∈ R then (u.items.get? x).map ({ · with unreachable := true }) else u.items.get? x) : Edit p u u'
  | finish {u : Session} {x : ItemId} {item : Item} (hx : p.Own x) (ht : u.TidyAt x) : Edit p u (u.leaving x item)
  | quiet {u u' : Session} {cursor : Option ItemId} (hi : u'.items = u.items.setCursor cursor)
    (hl : u'.labels = u.labels) (hf : u'.functions = u.functions) : Edit p u u'
  | place {u u' : Session} {anchor : ItemId} {text : String} {code : List Instruction} (hlin : u.items.Linear)
    (hcode : ∀ i ∈ code, ∀ o ∈ i.operands, o.Placed) (h : InsertsBehind anchor text code u u') : Edit p u u'
  | bind {u : Session} {x : ItemId} {item : Item} {i : InstructionItem} {operands : List Operand} {frame : FrameLayout}
    (hx : p.Own x) (hi : u.items.get? x = some item) (hk : item.kind = .instruction i)
    (h : Forall₂ (fun o o' => bindOperand frame u.ctx.slots o = .ok o') i.operands operands) :
    Edit p u (u.withKind x (.instruction { i with operands }))

abbrev Edits (p : Site) : Session → Session → Prop := Relation.ReflTransGen (Edit p)

namespace Edit

theorem size_le (h : u.Edit p u') : u.items.size ≤ u'.items.size := by
  cases h with
  | change _ _ h => exact h.size_le
  | remove _ _ hsize => exact le_of_eq hsize.symm
  | finish =>
    unfold leaving
    split <;> simp [ItemSeq.modify, size]
  | quiet hi => rw [hi]; rfl
  | place _ _ h =>
    have hlays : u.Lays (fun _ => False) u' := h.lays
    exact hlays.size
  | bind => simp [withKind, ItemSeq.modify, size]

theorem get?_of_not_own (h : u.Edit p u') (hx : x.index < u.items.size) (hown : ¬ p.Own x) :
    u'.items.get? x = u.items.get? x := by
  cases h with
  | change _ hT h => exact h.get?_of_lt hx fun hTx => hown (hT x hTx)
  | remove hR _ _ _ _ hget => rw [hget, if_neg fun hxR => hown (hR x hxR)]
  | @finish y item hy =>
    unfold leaving
    split
    · rfl
    · exact get?_modify_of_ne _ (fun e : y = x => hown (e ▸ hy)) _
  | quiet hi =>
    rw [hi]
    rfl
  | place _ _ h => exact h.get?_of_lt hx
  | @bind y _ _ _ _ hy => exact get?_modify_of_ne _ (fun e : y = x => hown (e ▸ hy)) _

/-- What the items come from. -/
theorem items {item' : Item} (h : u.Edit p u') (hi' : u'.items.get? x = some item') :
    (∃ item, u.items.get? x = some item ∧ item.kind.Turns u.labels.size u'.labels.size item'.kind ∧
        item'.offset = item.offset ∧ (item.translated = true → item'.translated = true) ∧
        (item.unreachable = true → item'.unreachable = true) ∧
        (item'.translated = true → item.translated = true ∨ u'.TidyAt x)) ∨
      u.items.size ≤ x.index ∧ ∃ id, p.Own id ∧ u.Makes id u'.labels.size item'.kind := by
  cases h with
  | change hid _ h =>
    rcases h.items hi' with ⟨item, hi, hk, he⟩ | ⟨hx, hnew⟩
    · exact .inl ⟨item, hi, hk, by rw [he], by rw [he]; exact id, by rw [he]; exact id, by rw [he]; exact .inl⟩
    · exact .inr ⟨hx, _, hid, hnew⟩
  | @remove _ X R Y _ hrest _ _ _ hget =>
    refine .inl ?_
    rw [hget] at hi'
    split at hi'
    · obtain ⟨item, hi, rfl⟩ := map_eq_some_iff.mp hi'
      exact ⟨item, hi, .same, rfl, id, fun _ => rfl, .inl⟩
    · exact ⟨item', hi', .same, rfl, id, id, .inl⟩
  | @finish y item hy ht =>
    refine .inl ?_
    by_cases hxy : y = x ∧ item.translated = false
    · obtain ⟨rfl, htr⟩ := hxy
      have htidy : (u.leaving y item).TidyAt y := fun item1 i hi1 hk => by
        simp only [leaving, htr, Bool.false_eq_true, if_false, get?_modify_self] at hi1
        obtain ⟨item0, hi0, rfl⟩ := map_eq_some_iff.mp hi1
        exact ht item0 i hi0 hk
      simp only [leaving, htr, Bool.false_eq_true, if_false, get?_modify_self] at hi'
      obtain ⟨item0, hi, rfl⟩ := map_eq_some_iff.mp hi'
      exact ⟨item0, hi, .same, rfl, fun _ => rfl, id, fun _ => .inr htidy⟩
    · have hsame : u.items.get? x = some item' := by
        unfold leaving at hi'
        split at hi'
        · exact hi'
        · rename_i htr
          exact get?_modify_of_ne _ (fun e => hxy ⟨e, Bool.eq_false_iff.mpr htr⟩) _ ▸ hi'
      exact ⟨item', hsame, .same, rfl, id, id, .inl⟩
  | quiet hi hl =>
    rw [hi] at hi'
    exact .inl ⟨item', hi', .same, rfl, id, id, .inl⟩
  | place hlin hcode h =>
    by_cases hx : x.index < u.items.size
    · exact .inl ⟨item', h.get?_of_lt hx ▸ hi', .same, rfl, id, id, .inl⟩
    obtain ⟨E, hbears, hE, -⟩ := h.bears hlin
    have hmem := (hE x).mpr ⟨not_lt.mp hx, lt_size_of_get? hi'⟩
    refine .inr ⟨not_lt.mp hx, p.start, .inl mem_cons_self, ?_⟩
    rcases hbears.kind_cases hmem hi' with ⟨text, hk⟩ | ⟨i, hi, hk⟩
    · exact hk ▸ .comment
    · exact hk ▸ .code (hcode i hi)
  | @bind y item i operands frame hy hi hk hops =>
    refine .inl ?_
    rcases get?_modify_cases hi' with ⟨-, hx⟩ | ⟨rfl, _, hx, rfl⟩
    · exact ⟨item', hx, .same, rfl, id, id, .inl⟩
    · cases hi ▸ hx
      exact ⟨item, hi, hk ▸ .binds hops, rfl, id, id, .inl⟩

theorem done (h : u.Edit p u') (hd : u.Done x) : u'.Done x := by
  obtain ⟨item, hi, ht⟩ := hd
  have hlt := lt_size_of_get? hi
  obtain ⟨item', hi'⟩ := get?_of_lt_size (hlt.trans_le h.size_le)
  rcases h.items hi' with ⟨item0, hi0, -, -, htr, -⟩ | ⟨hx, -⟩
  · cases hi ▸ hi0
    exact ⟨item', hi', htr ht⟩
  · exact absurd hlt (not_lt.mpr hx)

end Edit

namespace Edits

theorem size_le (h : u.Edits p u') : u.items.size ≤ u'.items.size := by
  induction h with
  | refl => exact le_refl _
  | tail _ h ih => exact ih.trans h.size_le

theorem get?_of_not_own (h : u.Edits p u') (hx : x.index < u.items.size) (hown : ¬ p.Own x) :
    u'.items.get? x = u.items.get? x := by
  induction h with
  | refl => rfl
  | tail hs h ih => exact (h.get?_of_not_own (hx.trans_le (size_le hs)) hown).trans ih

theorem done (h : u.Edits p u') (hd : u.Done x) : u'.Done x := by
  induction h with
  | refl => exact hd
  | tail _ h ih => exact h.done ih

end Edits

theorem Changes.local (hc : u.Changes id T cut u') (h : u.Inside p) (ha : u.Aims p) (hid : p.Own id)
    (hT : ∀ x, T x → p.Own x) :
    u'.Inside p ∧ u.Edits p u' ∧ ∀ q ∈ u'.ctx.forwardJumps, q ∈ u.ctx.forwardJumps ∨ q.jump = id := by
  suffices hsuff : u'.Inside p ∧ u'.Aims p ∧ u.Edits p u' ∧
      ∀ q ∈ u'.ctx.forwardJumps, q ∈ u.ctx.forwardJumps ∨ q.jump = id from ⟨hsuff.1, hsuff.2.2⟩
  induction hc with
  | refl => exact ⟨h, ha, .refl, fun _ => .inl⟩
  | tail _ hstep ih =>
    obtain ⟨h1, a1, e1, q1⟩ := ih
    obtain ⟨h2, a2⟩ := hstep.inside h1 a1
    exact ⟨h2, a2, e1.tail (.change hid hT hstep), fun q hq => (hstep.queued hq).elim (q1 q) .inr⟩

/-- What is taken out belongs to the function. -/
theorem Removes.local (hr : u.Removes id next u') (h : u.Inside p)
    (hid : id ∈ p.body) (hstop : u.roleAt p.stop = .closes f) :
    u'.Inside p ∧ u.Edits p u' ∧ u'.ctx = u.ctx := by
  obtain ⟨⟨-, -, l, hrole⟩, -, hrem⟩ := hr
  have hmem : id ∈ u.items.order := by
    obtain ⟨item, hi, ⟨he, -⟩ | ⟨-, hm, -⟩⟩ := removeUntilTarget_cons_ok hrem
    · rw [roleAt_of_get? hi] at hrole
      cases hk : item.kind <;> simp [hk, ItemKind.role, endsRemoval, ItemKind.isFunctionEnd] at hrole he
    · exact hm
  obtain ⟨X, l, ho, hX⟩ := eq_append_cons_of_mem hmem
  rw [suffixFrom_eq ho hX] at hrem
  obtain ⟨R, Y, hRY, ho', -, hR, -, hget⟩ := removeUntilTarget_piece ho hrem
  obtain ⟨items, stats, rfl, hsize⟩ := removeUntilTarget_rest hrem
  obtain ⟨extra, he, hk⟩ := h.keeps
  have hown : p.Own id := .inl (mem_cons_of_mem _ (mem_append_left _ hid))
  suffices hcut : p.Keeps extra (X ++ Y) ∧ ∀ x ∈ R, p.Own x by
    have hsub : (X ++ Y).Sublist u.items.order := by
      rw [ho, hRY]
      exact (Sublist.refl X).append (sublist_append_right R Y)
    refine ⟨⟨⟨ho' ▸ hsub.nodup h.nodup, fun x hx => ?_⟩, ⟨extra, he, ho' ▸ hcut.1⟩, hsize ▸ h.size⟩,
      .single (.remove hcut.2 rfl hsize (by rw [ho, hRY, append_assoc]) ho' hget), rfl⟩
    exact hsize ▸ h.made x (hsub.subset (ho' ▸ hx))
  cases R with
  | nil =>
    rw [ho, hRY] at hk
    exact ⟨hk, by simp⟩
  | cons c R =>
    obtain ⟨rfl, rfl⟩ := cons.inj hRY
    have hne := Site.ne_start (mem_append_left [p.stop] hid)
    have hn := ho ▸ h.nodup
    rw [ho] at hk
    have hstopY : p.stop ∈ Y := by
      obtain ⟨K, Z, hKZ, -, hZ⟩ := hk.around (mem_append_left _ hid) (by simp)
      obtain ⟨-, rfl⟩ := split_unique hn hKZ
      rcases mem_append.mp (show p.stop ∈ (id :: R) ++ Y from hZ) with hm | hm
      · obtain ⟨-, b, hb⟩ := hR _ hm (by rw [hstop]; rfl)
        cases hstop ▸ hb
      · exact hm
    exact hk.cut hn hown hne hstopY

end Session

namespace Moment

/-- The jumps that are left to reconcile. -/
def queue : Moment → List ForwardJump
  | ⟨.walk _, u⟩ => u.ctx.forwardJumps
  | ⟨.drain rest, _⟩ => rest

/-- The translation of the function at `p`, which started in `t`, has changed nothing around the function. -/
structure Local (p : Site) (t : Session) (m : Moment) : Prop where
  inside : m.session.Inside p
  edits : t.Edits p m.session
  waits : ∀ q ∈ m.queue, m.session.Done q.jump

end Moment

/-- The prepared function stands at `p`. -/
structure Session.Sited (p : Site) (f : FunctionId) (record : FunctionRecord) (t : Session) : Prop
    extends t.Launch f record p.stop p.body where
  sequence : t.Sequence record.item p.stop p.body
  start : record.item = p.start
  size : p.size = t.items.size
  order : t.items.order = p.front ++ p.start :: (p.body ++ p.stop :: p.back)
  extra : t.ctx.extraBlock = some p.stop
  unqueued : t.ctx.forwardJumps = []

namespace Moment
open Session Relation
variable {t : Session} {record : FunctionRecord} {m : Moment}

theorem Local.initial (h : t.Sited p f record) : Local p t ⟨.walk next, t⟩ where
  inside := ⟨h.sequence.blocks.toLinear, ⟨p.stop, h.extra, p.body, [], h.order, fun _ => .inl, by simp, rfl⟩,
    le_of_eq h.size⟩
  edits := .refl
  waits q hq := by
    rw [queue, h.unqueued] at hq
    cases hq

theorem own_of_concerns {id : ItemId} (h : t.Sited p f record)
    (hm : t.Midway f record.item p.stop p.body busy u) (hid : id ∈ p.body ++ [p.stop]) (hx : u.Concerns id x) :
    p.Own x := by
  rcases hx with rfl | ⟨item, j, hi, hk, hl⟩
  · exact .inl (mem_cons_of_mem _ hid)
  rcases mem_append.mp hid with hb | hs
  · refine (hm.landing hb (jump?_eq_some.mpr ⟨item, hi, hk⟩) hl).imp (fun hx => ?_) fun hx => h.size ▸ hx
    exact mem_cons_of_mem _ (mem_append_left _ hx)
  cases mem_singleton.mp hs
  obtain ⟨item', hi', hk'⟩ := hm.closes
  cases hi ▸ hi'
  cases hk ▸ hk'

theorem Local.item {id : ItemId} (h : Local p t ⟨.walk (some id), u⟩) (ht : t.Sited p f record)
    (hm : t.Midway f record.item p.stop p.body (fun _ => False) u) (hid : id ∈ p.body ++ [p.stop])
    (hlink : id ∈ u.items.order) (hr : translateItem id u = .ok next u') : Local p t ⟨.walk next, u'⟩ := by
  obtain ⟨item, w, hi, -, hcourse, htidy, rfl⟩ := translateItem_course hr
  have hin : (u.entering id item).Inside p := h.inside.congr rfl rfl rfl
  have haims : (u.entering id item).Aims p := h.inside.aims hid hlink rfl rfl
  have hown : p.Own id := .inl (mem_cons_of_mem _ hid)
  have hmid := (hm.entering id item).1
  obtain ⟨hw, hed, hq⟩ : w.Inside p ∧ (u.entering id item).Edits p w ∧
      ∀ q ∈ w.ctx.forwardJumps, q ∈ u.ctx.forwardJumps ∨ q.jump = id := by
    cases hcourse with
    | onward hc | again _ _ hc => exact Changes.local hc hin haims hown fun x => own_of_concerns ht hm hid
    | follow => exact ⟨hin.congr rfl rfl rfl, .single (.quiet rfl rfl rfl), fun _ => .inl⟩
    | close => exact ⟨hin, .refl, fun _ => .inl⟩
    | remove _ hrem =>
      obtain ⟨citem, hci, hck⟩ := hmid.closes
      have hrole : (u.entering id item).roleAt p.stop = .closes f := (roleAt_of_get? hci).trans (by rw [hck]; rfl)
      have hbody : id ∈ p.body := (mem_append.mp hid).resolve_right fun hs => by
        cases mem_singleton.mp hs
        obtain ⟨l, hl⟩ := hrem.1.2.2
        cases hrole ▸ hl
      obtain ⟨hw, hed, hctx⟩ := hrem.local hin hbody hrole
      exact ⟨hw, hed, fun q hq => .inl (by rw [hctx] at hq; exact hq)⟩
  have hent : u.Edit p (u.entering id item) := .quiet rfl rfl rfl
  have hleave : w.Edit p (w.leaving id item) := .finish hown htidy
  have hall := (Relation.ReflTransGen.single hent).trans (hed.tail hleave)
  have hctx : (w.leaving id item).ctx = w.ctx := by
    unfold leaving
    split <;> rfl
  refine ⟨hw.congr (leaving_order ..) (leaving_size ..) (by rw [hctx]), h.edits.trans hall, fun q hmem => ?_⟩
  rcases hq q (hctx ▸ hmem) with hold | hnew
  · exact Edits.done hall (h.waits q hold)
  rw [hnew]
  cases htr : item.translated with
  | true => exact Edits.done hall ⟨item, hi, htr⟩
  | false =>
    have hlt : id.index < (u.entering id item).items.size := lt_size_of_get? hi
    obtain ⟨item', hi'⟩ := get?_of_lt_size (hlt.trans_le (Edits.size_le hed))
    exact (done_leaving htr hi' id).mpr (.inr rfl)

/-- The arguments are received without code. -/
theorem Local.opening (ht : t.Sited p f record)
    (hr : translateItem record.item t = .ok next u') : Local p t ⟨.walk next, u'⟩ := by
  obtain ⟨item, w, v, hi, htr, hrec, howns, hret, -, rfl⟩ := ht.opening hr
  have hmoves := retireEach_moves hret howns
  have hitems : v.items = (t.entering record.item item).items := by
    obtain ⟨c', hrun', hi'⟩ := hmoves.run
    have hrun'' : Run (fun e => ∃ v, (v ∈ record.args ∧ w.LastAt record.item v) ∧ e.retires v) (w.holdings f) c'
      (v.holdings f) := hrun'.mono fun e ⟨v, hv, hl, he⟩ => ⟨v, ⟨hv, hl⟩, he⟩
    rw [hi', hrec.items, hrun''.retires_code]
    rfl
  have hframe : (t.entering record.item item).Frame v := hrec.moves.toFrame.trans hmoves.toFrame
  have hctx : (v.leaving record.item item).ctx.forwardJumps = [] ∧
      (v.leaving record.item item).ctx.extraBlock = t.ctx.extraBlock := by
    simp only [leaving, htr, Bool.false_eq_true, if_false]
    rw [hframe.ctx]
    exact ⟨ht.unqueued, rfl⟩
  have hent : t.Edit p v := .quiet hitems (by rw [hframe.rest]; rfl) (by rw [hframe.rest]; rfl)
  have hleave : v.Edit p (v.leaving record.item item) := by
    refine .finish (.inl (by simp [ht.start])) fun item' i hi' hk => ?_
    obtain ⟨fitem, hfi, hfk, -⟩ := ht.opens
    rw [hitems] at hi'
    cases hfi ▸ hi'
    cases hk ▸ hfk
  refine ⟨?_, .tail (.single hent) hleave, fun q hq => ?_⟩
  · have hinit : Local p t ⟨.walk none, t⟩ := .initial ht
    refine hinit.inside.congr ?_ ?_ hctx.2
    · rw [leaving_order, hitems]
      rfl
    · rw [leaving_size, hitems]
      rfl
  · have hq' : q ∈ (v.leaving record.item item).ctx.forwardJumps := hq
    rw [hctx.1] at hq'
    cases hq'

theorem Local.advance (h : m.Local p t) (ht : t.Sited p f record) (hs : m.Sound t f record p.stop p.body)
    (hin : t.InTurn record.item p.stop p.body m.next? m.session) (ha : m.Advances m') : m'.Local p t := by
  cases ha with
  | item hr =>
    obtain ⟨hm, hwithin | ⟨hid, rfl⟩⟩ := id hs
    · refine h.item ht hm ?_ (hin.linked rfl) hr
      rcases hwithin _ rfl with hb | rfl | hnew
      · exact mem_append_left _ hb
      · simp
      · exact absurd (ht.sequence.made (hs.mem_of_item hr)) (not_lt.mpr hnew)
    · cases some.inj hid
      exact .opening ht hr
  | @resume u u' jump next hj hr =>
    obtain ⟨rfl, -⟩ := resumeBehind_ok hr
    have hq : u.Edit p u.resuming := .quiet rfl rfl rfl
    exact ⟨h.inside.congr rfl rfl rfl, h.edits.tail hq, fun q hmem => hq.done (h.waits q hmem)⟩
  | finish => exact ⟨h.inside, h.edits, h.waits⟩
  | @reconcile u v w q rest ha hd =>
    obtain ⟨hm, hqueue⟩ := hs
    have hbody := (hqueue q mem_cons_self).inside
    obtain ⟨hm1, -⟩ := hm.resolve (u.items.prev? q.jump) hqueue ha
    obtain ⟨vars, hv, -⟩ := assignState_ok
      ((hm.resolving hqueue).1.continues.function_eq.trans ht.function) (hm.resolving hqueue).1.coherent.numbered ha
    have hlink : q.jump ∈ u.items.order := by
      obtain ⟨j, -, -, -, hj, -⟩ := doJump_ok hd
      obtain ⟨j0, hj0, -⟩ := hm1.origin hbody hj
      obtain ⟨item, hi, hk⟩ := jump?_eq_some.mp hj0
      refine hin.kept (mem_cons_of_mem _ (mem_append_left _ hbody)) ?_ (h.waits q mem_cons_self)
      rw [roleAt_of_get? hi, hk]
      rfl
    have hbe : u.Edit p (v.atCursor (u.items.prev? q.jump)) := by
      subst hv
      exact .quiet rfl rfl rfl
    have hown : p.Own q.jump := .inl (mem_cons_of_mem _ (mem_append_left _ hbody))
    have hjump : Changes q.jump (· = q.jump) False _ w := doJump_changes rfl hd
    obtain ⟨hw, hed, -⟩ := hjump.local (h.inside.congr (by subst hv; rfl) (by subst hv; rfl) (by subst hv; rfl))
      (h.inside.aims (mem_append_left _ hbody) hlink (by subst hv; rfl) rfl) hown fun x hx => hx ▸ hown
    have hres : w.Edit p w.resolved := .quiet rfl rfl rfl
    have hall := (ReflTransGen.single hbe).trans (hed.tail hres)
    exact ⟨hw.congr rfl rfl rfl, h.edits.trans hall, fun q' hq' => Edits.done hall (h.waits q' (mem_cons_of_mem _ hq'))⟩

end Moment

end Codegen
