import Codegen.Proofs.Reconciliation
import Mathlib.Data.List.Perm.Subperm

/-! Copying registers at once. The single copies and exchanges bring every destination the value that its source had
at the start, and change no other register. -/
namespace Codegen
open List Function

/-- What one step does to the places. -/
def CopyStep.apply {α : Type} : CopyStep → (Place → α) → Place → α
  | copy dst src, m => update m (.reg dst) (m (.reg src))
  | swap a b, m => update (update m (.reg a) (m (.reg b))) (.reg b) (m (.reg a))

/-- The instructions for a step. -/
def CopyStep.code : CopyStep → List Instruction
  | copy dst src => [⟨dst.cls.copyOpcode.1, [.ofReg dst dst.cls.copyOpcode.2, .ofReg src dst.cls.copyOpcode.2]⟩]
  | swap a b =>
    match a.cls with
    | .gp => [⟨.xchg, [.gpq a.index, .gpq b.index]⟩]
    | _ =>
      let x : Operand := .ofReg a a.cls.copyOpcode.2
      let y : Operand := .ofReg b a.cls.copyOpcode.2
      [⟨.pxor, [x, y]⟩, ⟨.pxor, [y, x]⟩, ⟨.pxor, [x, y]⟩]

/-- The registers that the step writes are of one class and ones that `P` allows. -/
def CopyStep.Within (P : Reg → Prop) : CopyStep → Prop
  | .copy dst src => P dst ∧ dst.cls = src.cls
  | .swap a b => P a ∧ P b ∧ a.cls = b.cls

namespace RegMove
variable {moves rest : List RegMove} {mv : RegMove}

/-- The move stays within a class and the registers that `P` allows. -/
structure Within (P : Reg → Prop) (m : RegMove) : Prop where
  dst : P m.dst
  src : P m.src
  cls : m.dst.cls = m.src.cls

/-- All moves happened at once. -/
structure Carried (moves : List RegMove) (m m' : Place → α) : Prop where
  arrived : ∀ v ∈ moves, m' (.reg v.dst) = m (.reg v.src)
  kept : ∀ p, p ∉ moves.map (Place.reg ·.dst) → m' p = m p

theorem ready?_spec (h : ready? moves = some mv) : mv ∈ moves ∧ ∀ v ∈ moves, v.src ≠ mv.dst := by
  refine ⟨mem_of_find?_eq_some h, fun v hv he => ?_⟩
  have hno := find?_some h
  simp only [isSource, Bool.not_eq_true', any_eq_false, beq_iff_eq] at hno
  exact hno v hv he

/-- When no move is ready, the sources are the destinations in another order. -/
theorem mem_dst_of_blocked (hn : (moves.map dst).Nodup) (h : ready? moves = none) (hv : mv ∈ moves) :
    mv.src ∈ moves.map dst := by
  have hsub : moves.map dst ⊆ moves.map src := by
    intro r hr
    obtain ⟨v, hv, rfl⟩ := mem_map.mp hr
    have hsource : isSource moves v.dst = true := by simpa using find?_eq_none.mp h v hv
    obtain ⟨u, hu, he⟩ := any_eq_true.mp hsource
    exact mem_map.mpr ⟨u, hu, beq_iff_eq.mp he⟩
  have hperm : (moves.map dst).Perm (moves.map src) := (hn.subperm hsub).perm_of_length_le (by simp)
  exact hperm.mem_iff.mpr (mem_map_of_mem hv)

theorem mem_places : p ∈ moves.map (Place.reg ·.dst) ↔ ∃ r ∈ moves.map dst, p = .reg r := by
  simp [eq_comm]

/-- A ready move overwrites nothing that is still to be read. -/
theorem Carried.copy (hn : (moves.map dst).Nodup) (h : ready? moves = some mv)
    (hrest : Carried (moves.erase mv) ((CopyStep.copy mv.dst mv.src).apply m) m') : Carried moves m m' := by
  obtain ⟨hmem, hfree⟩ := ready?_spec h
  have hperm := perm_cons_erase hmem
  obtain ⟨hout, -⟩ := nodup_cons.mp ((hperm.map dst).nodup_iff.mp hn)
  refine ⟨fun v hv => ?_, fun p hp => ?_⟩
  · by_cases he : v = mv
    · subst he
      have hkept := hrest.kept (.reg v.dst) fun hm => hout (by simpa using mem_places.mp hm)
      rw [hkept, CopyStep.apply, update_self]
    · rw [hrest.arrived v ((mem_erase_of_ne he).mpr hv), CopyStep.apply, update_of_ne]
      exact fun e => hfree v hv (Place.reg.inj e)
  · obtain ⟨hne, hp⟩ := not_or.mp (mem_cons.not.mp ((hperm.map (Place.reg ·.dst)).mem_iff.not.mp hp))
    rw [hrest.kept p hp, CopyStep.apply, update_of_ne hne]

/-- Behind an exchange, the value that a move needs is in the source that the move then has. -/
theorem apply_afterSwap (a b : Reg) (v : RegMove) :
    (CopyStep.swap a b).apply m (.reg (v.afterSwap a b).src) = m (.reg v.src) := by
  have hne : ∀ {p q : Reg}, p ≠ q → Place.reg p ≠ .reg q := fun h e => h (Place.reg.inj e)
  rw [CopyStep.apply, afterSwap]
  split
  · rename_i ha
    rw [update_self, ha]
  rename_i ha
  split
  · rename_i hb
    rw [update_of_ne (hne fun he => ha (hb.trans he.symm)), update_self, hb]
  · rename_i hb
    rw [update_of_ne (hne hb), update_of_ne (hne ha)]

theorem afterSwap_dst (a b : Reg) (v : RegMove) : (v.afterSwap a b).dst = v.dst := by
  unfold afterSwap
  split
  · rfl
  · split <;> rfl

theorem dst_withoutCycleHead (mv : RegMove) (rest : List RegMove) :
    ((withoutCycleHead mv rest).map dst).Sublist (rest.map dst) := by
  have hsub := (filter_sublist (p := fun r : RegMove => r.dst != r.src)
    (l := rest.map (afterSwap mv.dst mv.src))).map dst
  rwa [map_map, show dst ∘ afterSwap mv.dst mv.src = dst from funext (afterSwap_dst _ _)] at hsub

/-- An exchange does the first move of a cycle, and a move that it completes needs nothing more. -/
theorem Carried.swap (hn : ((mv :: rest).map dst).Nodup) (h : ready? (mv :: rest) = none) (hne : mv.dst ≠ mv.src)
    (hrest : Carried (withoutCycleHead mv rest) ((CopyStep.swap mv.dst mv.src).apply m) m') :
    Carried (mv :: rest) m m' := by
  obtain ⟨hout, hn'⟩ := nodup_cons.mp hn
  have hsub := dst_withoutCycleHead mv rest
  refine ⟨fun v hv => ?_, fun p hp => ?_⟩
  · rcases mem_cons.mp hv with rfl | hv
    · have hkept := hrest.kept (.reg v.dst) fun hm => hout (hsub.subset (by simpa using mem_places.mp hm))
      rw [hkept, CopyStep.apply, update_of_ne (fun e => hne (Place.reg.inj e)), update_self]
    have hval := apply_afterSwap (m := m) mv.dst mv.src v
    have hmem := mem_map_of_mem (f := afterSwap mv.dst mv.src) hv
    by_cases he : v.dst = (v.afterSwap mv.dst mv.src).src
    · -- The move is complete, and no other move has its destination.
      rw [hrest.kept, ← hval, ← he]
      intro hm
      obtain ⟨r, hr, heq⟩ := mem_places.mp hm
      cases heq
      obtain ⟨u, hu, hd⟩ := mem_map.mp hr
      obtain ⟨hu, hne⟩ := mem_filter.mp hu
      obtain ⟨y, hy, rfl⟩ := mem_map.mp hu
      rw [afterSwap_dst] at hd
      cases inj_on_of_nodup_map hn' hy hv hd
      rw [afterSwap_dst, ← he, bne_self_eq_false] at hne
      cases hne
    · have hleft := hrest.arrived _ (mem_filter.mpr ⟨hmem, by rwa [afterSwap_dst, bne_iff_ne]⟩)
      rwa [afterSwap_dst, hval] at hleft
  · have hdst : ∀ r ∈ (mv :: rest).map dst, p ≠ .reg r := fun r hr e => hp (mem_places.mpr ⟨r, hr, e⟩)
    rw [hrest.kept p fun hm => ?_, CopyStep.apply, update_of_ne (hdst _ (mem_dst_of_blocked hn h mem_cons_self)),
      update_of_ne (hdst _ mem_cons_self)]
    obtain ⟨r, hr, e⟩ := mem_places.mp hm
    exact hdst r (mem_cons_of_mem _ (hsub.subset hr)) e

/-- Exchanging two registers of one class keeps the moves within the classes. -/
theorem Within.withoutCycleHead (h : ∀ v ∈ mv :: rest, v.Within P) : ∀ v ∈ withoutCycleHead mv rest, v.Within P := by
  obtain ⟨hm, hrest⟩ := forall_mem_cons.mp h
  intro v hv
  obtain ⟨v0, hv0, rfl⟩ := mem_map.mp (mem_of_mem_filter hv)
  have h0 := hrest v0 hv0
  unfold afterSwap
  split
  · rename_i he
    exact ⟨h0.dst, hm.src, h0.cls.trans (he ▸ hm.cls)⟩
  split
  · rename_i he
    exact ⟨h0.dst, hm.dst, h0.cls.trans (he ▸ hm.cls.symm)⟩
  · exact h0

theorem steps_within (moves : List RegMove) (h : ∀ m ∈ moves, m.Within P) : ∀ step ∈ steps moves, step.Within P := by
  fun_induction steps moves with
  | case1 moves m hr ih =>
    have hm := h m (mem_of_find?_eq_some hr)
    exact forall_mem_cons.mpr ⟨⟨hm.dst, hm.cls⟩, ih fun m' hm' => h m' (mem_of_mem_erase hm')⟩
  | case2 => simp
  | case3 m rest hr ih =>
    have hm := h m mem_cons_self
    exact forall_mem_cons.mpr ⟨⟨hm.dst, hm.src, hm.cls⟩, ih (Within.withoutCycleHead h)⟩

theorem length_steps_le (moves : List RegMove) : (steps moves).length ≤ moves.length := by
  fun_induction steps moves with
  | case1 moves mv h ih =>
    have hmem := (ready?_spec h).1
    have hpos := length_pos_of_mem hmem
    rw [length_erase_of_mem hmem] at ih
    rw [length_cons]
    omega
  | case2 => simp
  | case3 mv rest h ih => exact Nat.succ_le_succ (ih.trans (length_withoutCycleHead_le mv rest))

end RegMove

namespace CopyStep

/-- The instructions of a step do what the step does. -/
theorem exec_copy (dst src : Reg) (m : Place → BitVec w) :
    Instruction.execAll (copy dst src).code m = some ((copy dst src).apply m) := by
  have hop : dst.cls.copyOpcode.1 = .mov ∨ dst.cls.copyOpcode.1 = .movq ∨ dst.cls.copyOpcode.1 = .movaps := by
    cases dst.cls <;> simp [RegClass.copyOpcode]
  rcases hop with h | h | h <;> (rw [code, h]; rfl)

theorem exec_swap (hne : a ≠ b) (hcls : a.cls = b.cls) (m : Place → BitVec w) :
    Instruction.execAll (swap a b).code m = some ((swap a b).apply m) := by
  have hp : Place.reg a ≠ .reg b := fun e => hne (Place.reg.inj e)
  rw [code]
  split
  · rename_i hgp
    obtain ⟨clsA, i⟩ := a
    obtain ⟨clsB, j⟩ := b
    cases hgp
    cases hcls
    rfl
  · exact Instruction.execAll_xors rfl rfl hp

end CopyStep

/-- The code of the steps carries out all moves at once, if no two moves have one destination. -/
theorem RegMove.exec_steps {moves : List RegMove} (hn : (moves.map dst).Nodup)
    (hp : ∀ v ∈ moves, v.Within fun _ => True) (hne : ∀ v ∈ moves, v.dst ≠ v.src) (m : Place → BitVec w) :
    ∃ m', Instruction.execAll ((steps moves).flatMap CopyStep.code) m = some m' ∧ Carried moves m m' := by
  fun_induction steps moves generalizing m with
  | case1 moves mv h ih =>
    have hsub := erase_sublist (a := mv) (l := moves)
    obtain ⟨m', hm', hc⟩ := ih ((hsub.map dst).nodup hn) (fun v hv => hp v (hsub.subset hv))
      (fun v hv => hne v (hsub.subset hv)) ((CopyStep.copy mv.dst mv.src).apply m)
    refine ⟨m', ?_, .copy hn h hc⟩
    rw [flatMap_cons, Instruction.execAll_append, CopyStep.exec_copy, Option.bind_some, hm']
  | case2 h => exact ⟨m, rfl, by simp, fun _ _ => rfl⟩
  | case3 mv rest h ih =>
    have hmv := hne mv mem_cons_self
    obtain ⟨m', hm', hc⟩ := ih ((dst_withoutCycleHead mv rest).nodup (nodup_cons.mp hn).2)
      (Within.withoutCycleHead hp) (fun v hv => bne_iff_ne.mp (mem_filter.mp hv).2)
      ((CopyStep.swap mv.dst mv.src).apply m)
    refine ⟨m', ?_, .swap hn h hmv hc⟩
    rw [flatMap_cons, Instruction.execAll_append, CopyStep.exec_swap hmv (hp mv mem_cons_self).cls, Option.bind_some,
      hm']

namespace Build

theorem emitCopyStep_total (hc : c.Within fun _ => True) (ho : s.items.Open) :
    ∃ t, emitCopyStep c s = .ok () t ∧ t.items = s.items.generateAll s.mark c.code ∧ t.mark = s.mark := by
  obtain ⟨_, t, ht⟩ := emitAll_total ho c.code
  have hitems := emitAll_ok ht
  cases c with
  | copy dst src =>
    have hrun : emitRegCopy dst src s = .ok () { t with ctx := t.ctx.markModified dst } := by
      simp only [emitRegCopy, check_ok, bind_ok]
      exact ⟨not_not.mpr hc.2, (), t, ht, modifyContext_ok.mpr rfl⟩
    refine ⟨_, hrun, ?_⟩
    rw [hitems]
    exact ⟨rfl, rfl⟩
  | swap a b =>
    have hswap : emitSwap a.cls (.ofReg a a.cls.copyOpcode.2) (.ofReg b a.cls.copyOpcode.2) a.index b.index s =
        .ok () t := by
      obtain ⟨cls, i⟩ := a
      cases cls <;> exact ht
    refine ⟨_, bind_ok.mpr ⟨(), t, hswap, bind_ok.mpr ⟨(), _, modifyContext_ok.mpr rfl, modifyContext_ok.mpr rfl⟩⟩, ?_⟩
    rw [hitems]
    exact ⟨rfl, rfl⟩

theorem emitCopySteps_total {steps : List CopyStep} (hc : ∀ c ∈ steps, c.Within fun _ => True) (ho : s.items.Open) :
    ∃ t, steps.forM emitCopyStep s = .ok () t ∧ t.items = s.items.generateAll s.mark (steps.flatMap CopyStep.code) := by
  induction steps generalizing s with
  | nil => exact ⟨s, forM_nil_ok.mpr rfl, rfl⟩
  | cons c rest ih =>
    obtain ⟨hc, hrest⟩ := forall_mem_cons.mp hc
    obtain ⟨t, ht, hi, hm⟩ := emitCopyStep_total hc ho
    obtain ⟨u, hu, hi'⟩ := ih hrest (hi ▸ ho.generateAll _ _)
    refine ⟨u, forM_cons_ok.mpr ⟨t, ht, hu⟩, ?_⟩
    rw [hi', hi, hm, flatMap_cons, ItemSeq.generateAll_append]

/-- Register arguments get to their registers at once. The steps for moves with different destinations are at most as
many as the moves and can all be emitted; their copies, exchanges and exclusive ors bring each destination what its
source had before, and leave all other registers and all homes alone. -/
theorem emitCopySteps_copies {moves : List RegMove} (hn : (moves.map RegMove.dst).Nodup)
    (hp : ∀ v ∈ moves, v.dst.cls = v.src.cls ∧ v.dst ≠ v.src) (ho : s.items.Open) :
    (RegMove.steps moves).length ≤ moves.length ∧
    ∃ t code, (RegMove.steps moves).forM emitCopyStep s = .ok () t ∧ t.items = s.items.generateAll s.mark code ∧
      code = (RegMove.steps moves).flatMap CopyStep.code ∧
      ∀ {w : Nat} (m : Place → BitVec w), ∃ m', Instruction.execAll code m = some m' ∧
        (∀ v ∈ moves, m' (.reg v.dst) = m (.reg v.src)) ∧
        ∀ p, p ∉ moves.map (Place.reg ·.dst) → m' p = m p := by
  have hw : ∀ v ∈ moves, v.Within fun _ => True := fun v hv => ⟨trivial, trivial, (hp v hv).1⟩
  obtain ⟨t, ht, hi⟩ := emitCopySteps_total (RegMove.steps_within moves hw) ho
  refine ⟨RegMove.length_steps_le moves, t, _, ht, hi, rfl, fun m => ?_⟩
  obtain ⟨m', hm', hc⟩ := RegMove.exec_steps hn hw (fun v hv => (hp v hv).2) m
  exact ⟨m', hm', hc.arrived, hc.kept⟩

/-- A cycle of three registers with a fourth that hangs off it, and two vector registers that change places. -/
theorem emitCopySteps_copies_cycles :
    let gp := fun (d s : Nat) => (⟨⟨.gp, d⟩, ⟨.gp, s⟩⟩ : RegMove)
    let xmm := fun (d s : Nat) => (⟨⟨.xmm, d⟩, ⟨.xmm, s⟩⟩ : RegMove)
    let moves := [gp 7 6, gp 6 2, gp 2 7, gp 1 7, xmm 0 1, xmm 1 0]
    (moves.map RegMove.dst).Nodup ∧ (∀ v ∈ moves, v.dst.cls = v.src.cls ∧ v.dst ≠ v.src) ∧
    (RegMove.steps moves).length ≤ moves.length ∧
    ∃ t code, (RegMove.steps moves).forM emitCopyStep {} = .ok () t ∧
      t.items = ItemSeq.empty.generateAll none code ∧ code = (RegMove.steps moves).flatMap CopyStep.code ∧
      ∀ {w : Nat} (m : Place → BitVec w), ∃ m', Instruction.execAll code m = some m' ∧
        (∀ v ∈ moves, m' (.reg v.dst) = m (.reg v.src)) ∧
        ∀ p, p ∉ moves.map (Place.reg ·.dst) → m' p = m p :=
  ⟨by decide, by decide, emitCopySteps_copies (s := {}) (by decide) (by decide) (by decide)⟩

end Build

end Codegen
