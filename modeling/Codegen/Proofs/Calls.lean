import Codegen.Proofs.LiveRange
import Codegen.Proofs.Restore

/-! Calls and returns, as sequences of effects. Which effects they are does not matter here: every effect keeps
the allocator coherent. -/
namespace Codegen
open List
variable {s : Session}
variable {next : Option ItemId}

namespace Session

/-- The allocator is coherent and has the variables in `V` and the active ones. -/
structure Tends (f : FunctionId) (V : VarId → Prop) (s : Session) : Prop where
  coherent : Coherent (s.holdings f)
  owns : ∀ v, V v → s.Owns f v
  active : ∀ v ∈ s.vars.active, s.Owns f v

theorem Tends.moves (h : s.Tends f V) (hm : s.Moves f may t) : t.Tends f V :=
  ⟨hm.coherent h.coherent, fun v hv => hm.owns (h.owns v hv), fun v hv => hm.owns (h.active v (hm.vars.active v hv))⟩

/-- From a session where the allocator has the variables in `V`, only effects lead to the other one. -/
def Works (f : FunctionId) (V : VarId → Prop) (s s' : Session) : Prop :=
  s.Tends f V → s.Moves f (fun _ => True) s'

instance (f : FunctionId) (V : VarId → Prop) : IsPreorder Session (Works f V) where
  refl s _ := .refl s
  trans _ _ _ h h' hs := (h hs).trans (h' (hs.moves (h hs)))

end Session

namespace Build
variable {id : VarId} {item : ItemId}

/-- Every success of the step comes from effects. -/
abbrev Working (f : FunctionId) (V : VarId → Prop) (m : Build α) : Prop := Ensures (Session.Works f V) m

namespace Ensures

theorem quietly {m : Build α} (h : ∀ s a s', m s = .ok a s' → s.Confines f s' ∧ s'.items = s.items ∧
    s'.holdings f = s.holdings f) : Working f V m :=
  fun s a s' hm _ => .quiet (h s a s' hm).1 (h s a s' hm).2.2 (h s a s' hm).2.1

theorem emitting : Working f V (emitAll code) := by
  intro s a s' h _
  have hs' := emitAll_ok h
  subst hs'
  exact .of_action trivial (.of_vars ⟨rfl, rfl, .refl _⟩ rfl id) .other rfl (.inl rfl)

end Ensures

section Primitives

theorem markModified_working : Working f V (markModified r) := .quietly fun _ _ _ => markModified_ok

theorem homeOperand_working (hv : V id) : Working f V (homeOperand id) := by
  intro s a s' h hs
  obtain ⟨v, hv⟩ := hs.owns id hv
  exact (homeOperand_moves trivial hv h).1

theorem saveVar_working (hv : V id) : Working f V (saveVar id) := by
  intro s a s' h hs
  obtain ⟨v, hv⟩ := hs.owns id hv
  exact saveVar_moves trivial trivial hv h

theorem spillVar_working (hv : V id) : Working f V (spillVar id) := by
  intro s a s' h hs
  obtain ⟨v, hv⟩ := hs.owns id hv
  exact (spillVar_moves trivial trivial hv h).1

theorem unuseVar_working (hs : state ≠ .register) (hv : V id) : Working f V (unuseVar id state) := by
  intro s a s' h ht
  obtain ⟨v, hv⟩ := ht.owns id hv
  by_cases hm : state = .memory
  · subst hm
    obtain ⟨t, slot, a, hmv, -, hv', -, hf, hi, hh⟩ := @unuseVar_memory_ok _ _ (fun _ => True) _ _ _ trivial hv h
    exact hmv.trans (.of_action (e := .forget id .memory) trivial hf (c := []) (hh ▸ .forget hv' hs) hi (.inl rfl))
  · obtain ⟨hf, hi, hh⟩ := unuseVar_ok hm hv h
    exact .of_action (e := .forget id state) trivial hf (c := []) (hh ▸ .forget hv hs) hi (.inl rfl)

theorem claimVar_working (hv : V id) : Working f V (claimVar id) := fun _ _ _ h hs => claimVar_moves (hs.owns id hv) h

theorem resolveOperand_working (hv : ∀ id ∈ o.vars, V id) : Working f V (resolveOperand o) := by
  intro s a s' h hs
  exact (resolveOperand_moves (fun id hid => hs.owns id (hv id hid)) h).1.mono fun _ _ => trivial

theorem retireActiveAt_working : Working f V (retireActiveAt item) := by
  intro s a s' h hs
  simp only [retireActiveAt, bind_ok] at h
  obtain ⟨_, _, ⟨⟩, h⟩ := h
  exact (retireEach_moves h hs.active).mono fun _ _ => trivial

end Primitives

section Call

theorem forClobbered_working (hg : ∀ v, Working f (fun x => V x ∨ x = v) (g v)) : Working f V (forClobbered p g) := by
  refine .forM fun cls _ => .bind .get fun s => .forM fun index _ => ?_
  intro t a t' h ht
  simp only [bind_ok] at h
  obtain ⟨_, _, ⟨⟩, h⟩ := h
  cases hr : t.ctx.registers.occupant ⟨cls, index⟩ with
  | none =>
    simp only [hr] at h
    cases h
    exact .refl t
  | some v =>
    simp only [hr] at h
    obtain ⟨-, w, hw, -⟩ := ht.coherent.occupied hr
    refine hg v t a t' h ⟨ht.coherent, fun x hx => ?_, ht.active⟩
    rcases hx with hx | rfl
    · exact ht.owns x hx
    · exact ⟨w, hw⟩

theorem clearForCall_working (hv : V id) : Working f V (clearForCall used returns id) := by
  unfold clearForCall
  split
  · exact .pure _
  split
  · exact unuseVar_working (by decide) hv
  · exact spillVar_working hv

theorem saveForCall_working (hv : V id) : Working f V (saveForCall item id) := by
  refine .bind .getVar fun v => ?_
  split
  · exact saveVar_working hv
  · exact .pure _

/-- The register arguments are moved and loaded into their registers: moved from the registers that they or their
variables are in, and loaded from the homes of variables in memory. -/
theorem registerArgs_ok {moves : List RegMove} {loads : List ArgLoad} {P : RegMove → Prop} {Q : ArgLoad → Prop}
    (hreg : ∀ a ∈ l, ∀ dst r, a.2.location = .register dst → a.1 = .reg r → P ⟨dst, r.reg⟩)
    (hmove : ∀ a ∈ l, ∀ dst ref v r, a.2.location = .register dst → a.1 = .var ref → s.vars.get? ref.id = some v →
      v.currentReg = some r → v.cls = dst.cls → P ⟨dst, r⟩)
    (hload : ∀ a ∈ l, ∀ dst source, a.2.location = .register dst → (∀ y, source = .home y →
      ∃ ref v, a.1 = .var ref ∧ s.vars.get? ref.id = some v ∧ v.id = y) → Q ⟨dst, source⟩)
    (h : registerArgs l s = .ok (moves, loads) s') : s' = s ∧ (∀ m ∈ moves, P m) ∧ ∀ d ∈ loads, Q d := by
  induction l generalizing moves loads with
  | nil =>
    obtain ⟨he, rfl⟩ := pure_ok.mp h
    cases he
    simp
  | cons a rest ih =>
    obtain ⟨o, info⟩ := a
    rw [forall_mem_cons] at hreg hmove hload
    have ih := fun {moves loads} => @ih moves loads hreg.2 hmove.2 hload.2
    have load : ∀ {dst source}, Q ⟨dst, source⟩ → (do
        let q ← registerArgs rest
        return (q.1, ⟨dst, source⟩ :: q.2) : Build (List RegMove × List ArgLoad)) s = .ok (moves, loads) s' →
        s' = s ∧ (∀ m ∈ moves, P m) ∧ ∀ d ∈ loads, Q d := by
      intro dst source hq hr
      simp only [bind_ok, pure_ok] at hr
      obtain ⟨⟨m, l⟩, _, hr, he, rfl⟩ := hr
      cases he
      obtain ⟨hs, hm, hl⟩ := ih hr
      exact ⟨hs, hm, forall_mem_cons.mpr ⟨hq, hl⟩⟩
    have move : ∀ {dst src : Reg}, P ⟨dst, src⟩ → (do
        let q ← registerArgs rest
        return (if src = dst then q.1 else ⟨dst, src⟩ :: q.1, q.2) : Build (List RegMove × List ArgLoad)) s =
          .ok (moves, loads) s' → s' = s ∧ (∀ m ∈ moves, P m) ∧ ∀ d ∈ loads, Q d := by
      intro dst src hp hr
      simp only [bind_ok, pure_ok] at hr
      obtain ⟨⟨m, l⟩, _, hr, he, rfl⟩ := hr
      cases he
      obtain ⟨hs, hm, hl⟩ := ih hr
      refine ⟨hs, ?_, hl⟩
      split
      · exact hm
      · exact forall_mem_cons.mpr ⟨hp, hm⟩
    cases hloc : info.location with
    | stack offset =>
      simp only [registerArgs, hloc] at h
      exact ih h
    | register dst =>
      cases o with
      | var ref =>
        simp only [registerArgs, hloc, bind_ok, getVar_ok, check_ok] at h
        obtain ⟨v, _, ⟨hv, rfl⟩, hcls, h⟩ := h
        cases hr : v.currentReg with
        | some r =>
          simp only [hr] at h
          exact move (hmove.1 dst ref v r hloc rfl hv hr (of_not_not hcls)) h
        | none =>
          simp only [hr] at h
          split at h
          · refine load (hload.1 dst _ hloc fun y hy => ?_) h
            cases hy
            exact ⟨ref, v, rfl, hv, rfl⟩
          · exact ih h
      | imm value =>
        simp only [registerArgs, hloc] at h
        exact load (hload.1 dst _ hloc fun y hy => by cases hy) h
      | reg r =>
        simp only [registerArgs, hloc] at h
        exact move (hreg.1 dst r hloc rfl) h
      | mem | label =>
        simp only [registerArgs, hloc] at h
        exact (throw_ok.mp h).elim

theorem emitRegCopy_working : Working f V (emitRegCopy dst src) := by
  unfold emitRegCopy
  exact .check (.bind .emitting fun _ => markModified_working)

theorem emitCopyStep_working : Working f V (emitCopyStep c) := by
  cases c with
  | copy dst src => exact emitRegCopy_working
  | swap a b =>
    refine .bind ?_ fun _ => .bind markModified_working fun _ => markModified_working
    unfold emitSwap
    split <;> exact .emitting

theorem dropForCall_working (hv : V id) : Working f V (dropForCall item id) := by
  refine .bind .getVar fun v => unuseVar_working ?_ hv
  split <;> decide

theorem translateCall_next (h : translateCall item c s = .ok next s') : next = s'.items.next? item := by
  simp only [translateCall, bind_ok, when_ok] at h
  obtain ⟨p, _, -, _, -, _, _, -, _, _, -, _, _, -, _, _, -, _, _, -, _, _, -, _, _, -, _, _, -, _, _, -, _, _, -,
    _, -, _, _, -, _, _, -, _, _, ⟨⟩, ⟨⟩⟩ := h
  rfl

end Call

section Return

theorem operandReg_working : Working f V (operandReg o) := by
  unfold operandReg
  split
  · exact .bind .getVar fun _ => .pure _
  · exact .pure _
  · exact .pure _

theorem translateReturn_ok (h : translateReturn item r s = .ok next s') :
    ∃ returns t record exit, s.returnsOf r.function = .ok returns ∧ emitReturnValues r.operands returns s = .ok () t ∧
      t.functions[r.function.index]? = some record ∧ t.labels[record.exitLabel.index]? = some exit ∧
      ∀ emitJump, emitJump = (!t.items.fallsThroughTo exit (t.items.suffixFrom item).tail) →
        retireActiveAt item { t with
          items := t.items.modify item ({ · with kind := .ret { r with emitJump } })
          ctx := { t.ctx with unreachable := emitJump || t.ctx.unreachable } } = .ok () s' ∧
        next = s'.items.next? item := by
  simp only [translateReturn, bind_ok, lift_ok] at h
  obtain ⟨_, _, ⟨⟩, returns, _, ⟨hrets, rfl⟩, h⟩ := h
  obtain ⟨-, h⟩ := check_ok.mp h
  simp only [bind_ok, getFunction_ok, labelTarget_ok, setKind_ok] at h
  obtain ⟨_, t, ht, record, _, ⟨hr, rfl⟩, exit, _, ⟨hl, rfl⟩, _, _, ⟨⟩, _, _, ⟨-, rfl⟩, h⟩ := h
  obtain ⟨w, hw, h⟩ := when_ok.mp h
  simp only [bind_ok] at h
  obtain ⟨_, _, hret, _, _, ⟨⟩, ⟨⟩⟩ := h
  refine ⟨returns, t, record, exit, hrets, ht, hr, hl, fun emitJump he => ⟨?_, rfl⟩⟩
  rw [← he] at hw
  cases emitJump with
  | true =>
    cases modifyContext_ok.mp hw
    exact hret
  | false =>
    cases hw
    exact hret

end Return

end Build

end Codegen
