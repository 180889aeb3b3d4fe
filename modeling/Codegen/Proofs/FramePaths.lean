import Codegen.Proofs.FrameBalance
import Codegen.Proofs.Lowered
import Mathlib.Data.List.Chain

/-! Paths through the code of a function, and where they pass the code of its frame. Places in the code are numbered. -/
namespace Codegen
open List Opcode FrameLayout

namespace Given
variable {code : List Given} {entry exit : LabelId} {path : List Nat}

/-- Control goes from one place in the code to another: on to the next place, or by a jump to where the label is bound that
the jump names. -/
def Follows (code : List Given) (k k' : Nat) : Prop :=
  match code[k]? with
  | some (.label _) => k' = k + 1
  | some (.instruction op operands) =>
    (op ≠ .jmp ∧ op ≠ .ret) ∧ k' = k + 1 ∨
      op.isJump = true ∧ ∃ l ∈ operands.filterMap Operand.label?, code[k']? = some (.label l)
  | none => False

instance (code : List Given) (k k' : Nat) : Decidable (Follows code k k') := by
  unfold Follows
  split <;> infer_instance

/-- A path from where the label is bound to a return. -/
structure Path (code : List Given) (entry : LabelId) (path : List Nat) : Prop where
  chain : path.IsChain (Follows code)
  starts : ∃ e, path.head? = some e ∧ code[e]? = some (.label entry)
  ends : ∃ z operands, path.getLast? = some z ∧ code[z]? = some (.instruction .ret operands)

/-- The place holds an instruction that control passes. -/
def Passed (code : List Given) (k : Nat) : Prop :=
  ∃ op operands, code[k]? = some (.instruction op operands) ∧ op.isControlFlow = false

theorem Passed.eq_succ (h : Passed code k) (hf : Follows code k k') : k' = k + 1 := by
  obtain ⟨op, operands, hk, hop⟩ := h
  simp only [Follows, hk] at hf
  rcases hf with ⟨-, hf⟩ | ⟨hj, -⟩
  · exact hf
  · cases op <;> cases hj <;> cases hop

theorem eq_succ_of_instruction (h : code[k']? = some (.instruction op operands))
    (hf : Follows code k k') : k' = k + 1 := by
  unfold Follows at hf
  split at hf
  · exact hf
  · rcases hf with ⟨-, hf⟩ | ⟨-, l, -, hl⟩
    · exact hf
    · cases h ▸ hl
  · exact hf.elim

/-- The code of the frame lies behind the labels of the entry and the exit. It is passed from its beginning to its end, and
it is left by the only return. -/
structure Layout (code : List Given) (entry exit : LabelId) (p q e x : Nat) : Prop where
  ne : entry ≠ exit
  entered : code[e]? = some (.label entry)
  entered_iff : ∀ k, code[k]? = some (.label entry) → k = e
  front : ∀ k < e, ∀ l, code[k]? ≠ some (.label l)
  prologue : ∀ i, e < i → i ≤ e + p → Passed code i
  left : code[x]? = some (.label exit)
  epilogue : ∀ i, x < i → i < x + q → Passed code i
  returns : ∃ operands, code[x + q]? = some (.instruction .ret operands)
  returns_iff : ∀ k operands, code[k]? = some (.instruction .ret operands) → k = x + q

/-- The place is not in the code of the frame. -/
def Outside (p q e x k : Nat) : Prop := ¬ (e ≤ k ∧ k ≤ e + p) ∧ ¬ (x ≤ k ∧ k ≤ x + q)

/-- The path goes in rounds, and then through the epilogue. Each round begins with the prologue and goes on outside the
frame. -/
structure Tour (p q e x : Nat) (rounds : List (List Nat)) (path : List Nat) : Prop where
  outside : ∀ mid ∈ rounds, ∀ k ∈ mid, Outside p q e x k
  path : path = rounds.flatMap (fun mid => range' e (p + 1) ++ mid) ++ range' x (q + 1)

/-- A path from the place `k` to a return. -/
structure Way (code : List Given) (k : Nat) (path : List Nat) : Prop where
  chain : path.IsChain (Follows code)
  starts : path.head? = some k
  ends : ∃ z operands, path.getLast? = some z ∧ code[z]? = some (.instruction .ret operands)

theorem Way.right (h : Way code k (A ++ path)) (hp : path.head? = some k') : Way code k' path := by
  refine ⟨h.chain.right_of_append, hp, ?_⟩
  obtain ⟨path, rfl⟩ := head?_eq_some_iff.mp hp
  obtain ⟨z, operands, hz, hret⟩ := h.ends
  exact ⟨z, operands, by simpa using hz, hret⟩

theorem Way.append_of_passed (h : Way code k path)
    (hn : ∀ i, k ≤ i → i < k + n → ∀ k', Follows code i k' → k' = i + 1)
    (hn' : ∀ i, k ≤ i → i < k + n → ∀ operands, code[i]? ≠ some (.instruction .ret operands)) :
    ∃ rest, path = range' k n ++ rest ∧ rest.head? = some (k + n) := by
  induction n generalizing k path with
  | zero => exact ⟨path, rfl, h.starts⟩
  | succ n ih =>
    obtain ⟨path, rfl⟩ := head?_eq_some_iff.mp h.starts
    cases path with
    | nil =>
      obtain ⟨z, operands, hz, hret⟩ := h.ends
      cases hz
      exact absurd hret (hn' k (le_refl k) (by omega) operands)
    | cons k' path =>
      cases hn k (le_refl k) (by omega) k' (isChain_cons_cons.mp h.chain).1
      obtain ⟨rest, hrest, hhead⟩ := ih (h.right (A := [k]) rfl) (fun i hi hi' => hn i (by omega) (by omega))
        (fun i hi hi' => hn' i (by omega) (by omega))
      refine ⟨rest, ?_, ?_⟩
      · rw [hrest, range'_succ, cons_append]
      rw [hhead]
      congr 1
      omega

theorem eq_succ_of_label (h : code[k]? = some (.label l)) (hf : Follows code k k') : k' = k + 1 := by
  simpa [Follows, h] using hf

namespace Layout

section
variable (h : Layout code entry exit p q e x)
include h

theorem apart : x + q < e ∨ e + p < x := by
  by_contra hmeet
  have hlabel : ∀ {i l}, code[i]? = some (.label l) → ¬ Passed code i := by
    rintro i l hi ⟨op, operands, hi', -⟩
    cases hi ▸ hi'
  have hne : e ≠ x := fun he => by
    have hx := h.left
    rw [← he, h.entered] at hx
    exact h.ne (by cases hx; rfl)
  rcases lt_or_gt_of_ne hne with hlt | hlt
  · exact hlabel h.left (h.prologue x hlt (by omega))
  obtain ⟨operands, hret⟩ := h.returns
  rcases lt_or_ge e (x + q) with hq | hq
  · exact hlabel h.entered (h.epilogue e hlt hq)
  · obtain rfl : e = x + q := by omega
    cases hret ▸ h.entered

theorem enters (hw : Way code e path) : ∃ rest, path = range' e (p + 1) ++ rest ∧ rest.head? = some (e + (p + 1)) := by
  refine hw.append_of_passed (fun i hi hi' k' hf => ?_) (fun i hi hi' operands hret => ?_)
  · rcases eq_or_lt_of_le hi with rfl | hi
    · exact eq_succ_of_label h.entered hf
    · exact (h.prologue i hi (by omega)).eq_succ hf
  rcases eq_or_lt_of_le hi with rfl | hi
  · cases h.entered ▸ hret
  obtain ⟨op, operands', hi', hop⟩ := h.prologue i hi (by omega)
  cases hi' ▸ hret
  cases hop

theorem leaves (hw : Way code x path) : path = range' x (q + 1) := by
  obtain ⟨rest, rfl, hrest⟩ : ∃ rest, path = range' x q ++ rest ∧ rest.head? = some (x + q) := by
    refine hw.append_of_passed (fun i hi hi' k' hf => ?_) (fun i hi hi' operands hret => ?_)
    · rcases eq_or_lt_of_le hi with rfl | hi
      · exact eq_succ_of_label h.left hf
      · exact (h.epilogue i hi hi').eq_succ hf
    · have := h.returns_iff i operands hret
      omega
  obtain ⟨rest, rfl⟩ := head?_eq_some_iff.mp hrest
  -- nothing follows a return
  cases rest with
  | nil => rw [range'_concat]; simp
  | cons k rest =>
    have hf := (isChain_cons_cons.mp hw.chain.right_of_append).1
    obtain ⟨operands, hret⟩ := h.returns
    simp [Follows, hret, isJump] at hf

theorem outside (hk : Outside p q e x k) (hf : Follows code k k') (he : k' ≠ e) (hx : k' ≠ x) : Outside p q e x k' := by
  obtain ⟨hk1, hk2⟩ := hk
  constructor
  · rintro ⟨h1, h2⟩
    obtain ⟨op, operands, hk', -⟩ := h.prologue k' (by omega) h2
    have := eq_succ_of_instruction hk' hf
    omega
  rintro ⟨h1, h2⟩
  obtain ⟨op, operands, hk'⟩ : ∃ op operands, code[k']? = some (.instruction op operands) := by
    rcases eq_or_lt_of_le h2 with rfl | h2
    · exact ⟨_, h.returns⟩
    · obtain ⟨op, operands, hk', -⟩ := h.epilogue k' (by omega) h2
      exact ⟨op, operands, hk'⟩
  have := eq_succ_of_instruction hk' hf
  omega

theorem wanders (hw : Way code k path) (hk : Outside p q e x k) :
    ∃ mid rest, path = mid ++ rest ∧ (∀ j ∈ mid, Outside p q e x j) ∧ (rest.head? = some e ∨ rest.head? = some x) := by
  induction path generalizing k with
  | nil => cases hw.starts
  | cons i path ih =>
    obtain rfl : i = k := by simpa using hw.starts
    cases path with
    | nil =>
      obtain ⟨z, operands, hz, hret⟩ := hw.ends
      cases hz
      have := h.returns_iff i operands hret
      exact absurd ⟨by omega, by omega⟩ hk.2
    | cons k' path =>
      by_cases hhead : k' = e ∨ k' = x
      · exact ⟨[i], k' :: path, rfl, by simpa using hk, by simpa using hhead⟩
      obtain ⟨he, hx⟩ := not_or.mp hhead
      have hk' := h.outside hk (isChain_cons_cons.mp hw.chain).1 he hx
      obtain ⟨mid, rest, hpath, hmid, hrest⟩ := ih (hw.right (A := [i]) rfl) hk'
      exact ⟨i :: mid, rest, by rw [hpath, cons_append], forall_mem_cons.mpr ⟨hk, hmid⟩, hrest⟩

end

section
variable (h : Layout code entry exit p q e x) (hchain : path.IsChain (Follows code))
include h hchain

section
variable (hstart : path.head? = some e)
  (hends : ∃ z operands, path.getLast? = some z ∧ code[z]? = some (.instruction .ret operands))
include hstart hends

/-- Each time a path comes to the entry, a round begins. -/
theorem rounds : ∃ rounds, rounds ≠ [] ∧ Tour p q e x rounds path := by
  induction hn : path.length using Nat.strong_induction_on generalizing path with
  | _ n ih =>
    have hw : Way code e path := ⟨hchain, hstart, hends⟩
    obtain ⟨rest, rfl, hrest⟩ := h.enters hw
    have hw := hw.right hrest
    have hapart := h.apart
    obtain ⟨mid, rest, rfl, hmid, hhead⟩ : ∃ mid rest', rest = mid ++ rest' ∧ (∀ i ∈ mid, Outside p q e x i) ∧
        (rest'.head? = some e ∨ rest'.head? = some x) := by
      by_cases hx : e + (p + 1) = x
      · exact ⟨[], rest, rfl, by simp, .inr (hx ▸ hrest)⟩
      · exact h.wanders hw ⟨by omega, by omega⟩
    rcases hhead with hhead | hhead
    · have hlt : rest.length < n := by
        rw [← hn]
        simp
        omega
      obtain ⟨rounds, -, hrounds, rfl⟩ := ih rest.length hlt hw.chain.right_of_append hhead (hw.right hhead).ends rfl
      exact ⟨mid :: rounds, by simp, forall_mem_cons.mpr ⟨hmid, hrounds⟩, by simp⟩
    · cases h.leaves (hw.right hhead)
      exact ⟨[mid], by simp, by simpa using hmid, by simp⟩

theorem once_iff : (∃ mid, Tour p q e x [mid] path) ↔ ∀ k, ¬ [k, e] <:+: path := by
  constructor
  · rintro ⟨mid, hout, rfl⟩ k hk
    have hapart := h.apart
    have hmem : e ∈ range' (e + 1) p ++ mid ++ range' x (q + 1) := by
      have hsub : [k, e].Sublist (e :: (range' (e + 1) p ++ mid ++ range' x (q + 1))) := by
        simpa [range'_succ] using hk.sublist
      cases hsub with
      | cons _ h | cons_cons _ h => exact h.subset (by simp)
    simp only [mem_append, mem_range'_1] at hmem
    rcases hmem with (hmem | hmem) | hmem
    · omega
    · exact (hout mid (by simp) e hmem).1 ⟨le_refl e, by omega⟩
    · omega
  · intro hno
    obtain ⟨rounds, hne, htour⟩ := h.rounds hchain hstart hends
    match rounds, hne, htour with
    | [mid], _, htour => exact ⟨mid, htour⟩
    | mid :: mid' :: more, _, htour =>
      have hfirst : range' e (p + 1) ++ mid ≠ [] := by simp
      obtain ⟨init, k, hk⟩ := eq_nil_or_concat _ |>.resolve_left hfirst
      refine absurd ⟨init, range' (e + 1) p ++ mid' ++ more.flatMap (fun mid => range' e (p + 1) ++ mid) ++
        range' x (q + 1), ?_⟩ (hno k)
      rw [htour.path, flatMap_cons, hk]
      simp [range'_succ]

end

theorem behind (hstart : path.head? = some k) (hk : e ≤ k) : ∀ i ∈ path, e ≤ i := by
  induction path generalizing k with
  | nil => cases hstart
  | cons k' path ih =>
    cases hstart
    refine forall_mem_cons.mpr ⟨hk, ?_⟩
    cases path with
    | nil => simp
    | cons k' path =>
      obtain ⟨hf, hchain⟩ := isChain_cons_cons.mp hchain
      refine ih hchain rfl ?_
      by_contra hlt
      have hnot := h.front k' (by omega)
      unfold Follows at hf
      split at hf
      · omega
      · rcases hf with ⟨-, hf⟩ | ⟨-, l, -, hl⟩
        · omega
        · exact hnot l hl
      · exact hf

theorem jumps_back (hstart : path.head? = some e) (ha : [k, e] <:+: path) :
    ∃ op operands, code[k]? = some (.instruction op operands) ∧
      op.isJump = true ∧ entry ∈ operands.filterMap Operand.label? := by
  have hk : e ≤ k := h.behind hchain hstart (le_refl e) k (ha.subset (by simp))
  obtain ⟨A, B, rfl⟩ := ha
  have hf : Follows code k e := (isChain_append_cons_cons.mp (by simpa using hchain)).2.1
  unfold Follows at hf
  split at hf
  · omega
  · rename_i op operands hi
    rcases hf with ⟨-, hf⟩ | ⟨hj, l, hl, he⟩
    · omega
    · cases h.entered ▸ he
      exact ⟨op, operands, hi, hj, hl⟩
  · exact hf.elim

end

end Layout

theorem getElem?_cases (h : (A ++ g :: C)[k]? = some g') :
    k < A.length ∧ g' ∈ A ∨ k = A.length ∧ g' = g ∨ A.length < k ∧ C[k - (A.length + 1)]? = some g' := by
  rcases lt_trichotomy k A.length with hk | rfl | hk
  · rw [getElem?_append_left hk] at h
    exact .inl ⟨hk, mem_of_getElem? h⟩
  · simp only [getElem?_append_right (le_refl _), Nat.sub_self, getElem?_cons_zero] at h
    exact .inr (.inl ⟨rfl, (Option.some.inj h).symm⟩)
  obtain ⟨m, rfl⟩ := Nat.exists_eq_add_of_lt hk
  rw [getElem?_append_right (by omega), show A.length + m + 1 - A.length = m + 1 by omega, getElem?_cons_succ] at h
  exact .inr (.inr ⟨hk, by rwa [show A.length + m + 1 - (A.length + 1) = m by omega]⟩)

/-- An instruction that does not transfer control. -/
def IsPassed (g : Given) : Prop := ∃ op operands, g = .instruction op operands ∧ op.isControlFlow = false

theorem passed_of_append (hP : ∀ g ∈ P, g.IsPassed) (hi : A.length < i)
    (hi' : i ≤ A.length + P.length) : Passed (A ++ g :: (P ++ C)) i := by
  obtain ⟨m, rfl⟩ := Nat.exists_eq_add_of_lt hi
  have hm : m < P.length := by omega
  obtain ⟨op, operands, hg, hop⟩ := hP P[m] (getElem_mem hm)
  refine ⟨op, operands, ?_, hop⟩
  rw [getElem?_append_right (by omega), show A.length + m + 1 - A.length = m + 1 by omega, getElem?_cons_succ,
    getElem?_append_left hm, getElem?_eq_getElem hm, hg]

theorem Layout.of_append (hne : entry ≠ exit) (hentry : code = A ++ .label entry :: (P ++ B))
    (hexit : code = A' ++ .label exit :: (E ++ .instruction .ret operands :: B')) (hP : ∀ g ∈ P, g.IsPassed)
    (hE : ∀ g ∈ E, g.IsPassed) (hA : ∀ l, .label l ∉ A) (hB : .label entry ∉ B)
    (hA' : ∀ os, .instruction .ret os ∉ A') (hB' : ∀ os, .instruction .ret os ∉ B') :
    Layout code entry exit P.length (E.length + 1) A.length A'.length where
  ne := hne
  entered := by simp [hentry]
  entered_iff k hk := by
    rw [hentry] at hk
    rcases getElem?_cases hk with ⟨-, hm⟩ | ⟨hk, -⟩ | ⟨-, hm⟩
    · exact absurd hm (hA entry)
    · exact hk
    rcases mem_append.mp (mem_of_getElem? hm) with hm | hm
    · obtain ⟨op, os, hg, -⟩ := hP _ hm
      cases hg
    · exact absurd hm hB
  front k hk l hl := by
    rw [hentry, getElem?_append_left hk] at hl
    exact hA l (mem_of_getElem? hl)
  prologue i hi hi' := hentry ▸ passed_of_append hP hi hi'
  left := by simp [hexit]
  epilogue i hi hi' := hexit ▸ passed_of_append hE hi (by omega)
  returns := ⟨operands, by
    rw [hexit, getElem?_append_right (by omega), Nat.add_sub_cancel_left, getElem?_cons_succ,
      getElem?_append_right (le_refl _), Nat.sub_self, getElem?_cons_zero]⟩
  returns_iff k os hk := by
    rw [hexit] at hk
    rcases getElem?_cases hk with ⟨-, hm⟩ | ⟨-, hm⟩ | ⟨hlt, hm⟩
    · exact absurd hm (hA' os)
    · cases hm
    rcases getElem?_cases hm with ⟨-, hm⟩ | ⟨hm, -⟩ | ⟨-, hm⟩
    · obtain ⟨op, os', hg, hop⟩ := hE _ hm
      cases hg
      cases hop
    · omega
    · exact absurd (mem_of_getElem? hm) (hB' os)

end Given

namespace FrameInput

theorem move_passed (i : FrameInput) (hp : p ∈ i.layout.savePlaces) :
    p.move.isControlFlow = false := by
  simp only [savePlaces, mem_append] at hp
  rcases hp with hp | hp | hp <;> rw [(mem_placesFrom hp).1]
  · show (if i.stackAlignedByOs || !i.hints.naked then movdqa else .movdqu).isControlFlow = false
    split <;> rfl
  · rfl
  · rfl

theorem passed_of_uses (i : FrameInput) (h : i.layout.Uses c) : c.given.IsPassed :=
  ⟨_, _, rfl, h.1.elim id fun ⟨_, hp, he⟩ => he ▸ i.move_passed hp⟩

theorem prologue_passed (i : FrameInput) : ∀ c ∈ i.layout.prologue, c.given.IsPassed := fun c hc =>
  i.passed_of_uses (i.layout.uses_prologue c hc)

theorem epilogue_returns (i : FrameInput) : ∃ (front : List Instruction) (operands : List Operand),
    i.layout.epilogue = front ++ [⟨.ret, operands⟩] ∧ ∀ c ∈ front, c.given.IsPassed := by
  obtain ⟨front, operands, he, hfront, -⟩ := i.layout.uses_epilogue
  exact ⟨front, operands, he, fun c hc => i.passed_of_uses (hfront c hc)⟩

end FrameInput

end Codegen
