import Codegen.Proofs.Moments

/-! The occupants of the registers, the masks of the used ones and the fields of the variables say the same, at every
moment of the translation of a function. -/
namespace Codegen
open List Context

namespace Session
variable {u : Session}

/-- The variables of a function that are in a register of the class. -/
def settled (u : Session) (f : FunctionId) (c : RegClass) : List Variable :=
  u.vars.vars.toList.filter fun v => v.function == f && (v.cls == c && v.state == .register)

/-- Register file and variables agree. -/
structure Consistent (u : Session) (f : FunctionId) (naked : Bool) : Prop where
  /-- A register is occupied by the variable of the function that says it is there. -/
  occupant_iff : ∀ r v, u.ctx.registers.occupant r = some v ↔ ∃ x, u.vars.get? v = some x ∧ x.function = f ∧
    x.cls = r.cls ∧ x.state = .register ∧ x.reg = some r.index
  used_iff : ∀ c i, (u.ctx.registers.used c).contains i = true ↔ ∃ v, u.ctx.registers.occupant ⟨c, i⟩ = some v
  allocable : ∀ r v, u.ctx.registers.occupant r = some v → (u.ctx.allocable r.cls).contains r.index = true
  stackPointer : u.ctx.registers.occupant ⟨.gp, Gp.rsp⟩ = none
  basePointer : naked = false → u.ctx.registers.occupant ⟨.gp, Gp.rbp⟩ = none
  elsewhere : ∀ v x, u.vars.get? v = some x → x.function = f → x.state ≠ .register →
    x.reg = none ∧ x.changed = false
  bounded : ∀ c, (u.settled f c).length ≤ (u.ctx.allocable c).count

section
variable (hc : Coherent (u.holdings f))
include hc

theorem occupant_iff_of_coherent (r : Reg) (v : VarId) :
    u.ctx.registers.occupant r = some v ↔ ∃ x, u.vars.get? v = some x ∧ x.function = f ∧ x.cls = r.cls ∧
      x.state = .register ∧ x.reg = some r.index := by
  constructor
  · intro ho
    obtain ⟨-, w, hw, hr⟩ := hc.occupied ho
    obtain ⟨x, hx, hf, rfl⟩ := holdings_vars.mp hw
    obtain ⟨hs, hreg, hcls⟩ := Variable.currentReg_eq_some.mp hr
    exact ⟨x, hx, hf, hcls, hs, hreg⟩
  · rintro ⟨x, hx, hf, hcls, hs, hreg⟩
    exact hc.occupant_of_currentReg (holdings_vars_of_get? hx hf) (Variable.currentReg_eq_some.mpr ⟨hs, hreg, hcls⟩)

theorem mem_settled (hv : v ∈ u.settled f c) :
    ∃ i, v.reg = some i ∧ u.ctx.registers.occupant ⟨c, i⟩ = some v.id ∧ (u.ctx.allocable c).contains i = true := by
  simp only [settled, mem_filter, Bool.and_eq_true, beq_iff_eq] at hv
  obtain ⟨hmem, hf, hcls, hs⟩ := hv
  obtain ⟨k, hk⟩ := mem_iff_getElem?.mp hmem
  have hget : u.vars.get? ⟨k⟩ = some v := by simpa [VarTable.get?] using hk
  have hid := hc.numbered _ _ hget hf
  obtain ⟨r, hr, ho⟩ := hc.settled (holdings_vars_of_get? (hid ▸ hget) hf) hs
  obtain ⟨-, hreg, hrc⟩ := Variable.currentReg_eq_some.mp hr
  obtain rfl : c = r.cls := hcls ▸ hrc
  exact ⟨r.index, hreg, ho, usable_iff.mp (hc.occupied ho).1⟩

theorem length_settled_le (c : RegClass) : (u.settled f c).length ≤ (u.ctx.allocable c).count := by
  have hids : ((u.settled f c).map (·.id)).Pairwise (·.index < ·.index) := hc.numbered.sorted fun v hv => by
    simp only [Bool.and_eq_true, beq_iff_eq] at hv
    exact hv.1
  have hnodup : ((u.settled f c).map fun v => v.reg.getD 0).Nodup := by
    refine pairwise_map.mpr ((pairwise_map.mp hids).imp_of_mem fun {v w} hv hw hlt heq => ?_)
    obtain ⟨i, hi, hvi, -⟩ := mem_settled hc hv
    obtain ⟨j, hj, hwj, -⟩ := mem_settled hc hw
    obtain rfl : i = j := by simpa [hi, hj] using heq
    rw [Option.some.inj (hvi.symm.trans hwj)] at hlt
    exact lt_irrefl _ hlt
  have hsub : ((u.settled f c).map fun v => v.reg.getD 0) ⊆ (u.ctx.allocable c).toList := by
    intro i hi
    obtain ⟨v, hv, rfl⟩ := mem_map.mp hi
    obtain ⟨i, hreg, -, hal⟩ := mem_settled hc hv
    rw [hreg]
    exact RegMask.mem_toList.mpr hal
  have hlen := (subperm_of_subset hnodup hsub).length_le
  rwa [length_map] at hlen

theorem consistent_of_coherent : u.Consistent f u.ctx.allocableRbp where
  occupant_iff := occupant_iff_of_coherent hc
  used_iff _ _ := RegFile.contains_used
  allocable _ _ ho := usable_iff.mp (hc.occupied ho).1
  stackPointer := by
    cases ho : u.ctx.registers.occupant ⟨.gp, Gp.rsp⟩ with
    | none => rfl
    | some v =>
      have hal := usable_iff.mp (hc.occupied ho).1
      cases hb : u.ctx.allocableRbp <;> simp [allocable, hb] at hal <;> cases hal
  basePointer hb := by
    cases ho : u.ctx.registers.occupant ⟨.gp, Gp.rbp⟩ with
    | none => rfl
    | some v =>
      have hal := usable_iff.mp (hc.occupied ho).1
      simp [allocable, hb] at hal
      cases hal
  elsewhere v x hx hf hs := hc.outside (v := x.core) (holdings_vars_of_get? hx hf) hs
  bounded := length_settled_le hc

end

/-- At every moment of the translation and at its end, the register file and the variables of the function agree, only
registers that may be handed out are occupied, and no class has more variables in registers than it has such
registers. -/
theorem translation_consistent {record : FunctionRecord} {stop : ItemId} {body : List ItemId} {p : Prototype}
    (hs : s.Ready f record stop body) (hp : Build.prepareFunction f record stop p s = .ok () t) (hj : s.Closed body) :
    (∀ m, t.Visits record.item m → m.session.Consistent f record.hints.naked) ∧
      ∀ t', Build.translateAll record.item t = .ok () t' → t'.Consistent f record.hints.naked := by
  have hall : ∀ m, t.Visits record.item m → m.session.Consistent f record.hints.naked := by
    intro m hm
    have hmid := (hm.sound (hs.launch hp hj)).midway
    have hnaked : m.session.ctx.allocableRbp = record.hints.naked :=
      (congrArg Context.allocableRbp hmid.continues.ctx :).trans (congrArg Context.allocableRbp (hs.walked hp).ctx :)
    exact hnaked ▸ consistent_of_coherent hmid.coherent
  refine ⟨hall, fun t' ht => ?_⟩
  obtain ⟨u, hu, rfl⟩ := Build.translateAll_visits ht
  have h := hall _ hu
  exact ⟨h.occupant_iff, h.used_iff, h.allocable, h.stackPointer, h.basePointer, h.elsewhere, h.bounded⟩

/-- The end of the translation, where the state of the jump was taken up again and two registers are occupied. -/
theorem translation_consistent_resolved : ∃ s t record stop body, ∃ p : Prototype, ∃ m,
    s.Ready ⟨0⟩ record stop body ∧ Build.prepareFunction ⟨0⟩ record stop p s = .ok () t ∧ s.Closed body ∧
    t.Visits record.item m ∧ m.task = .drain [] ∧ m.session.ctx.registers.occupant ⟨.gp, 1⟩ = some ⟨1⟩ ∧
    m.session.ctx.registers.occupant ⟨.gp, 7⟩ = some ⟨0⟩ ∧ m.session.Consistent ⟨0⟩ record.hints.naked := by
  obtain ⟨⟨⟨s, record, stop, p, t⟩, m⟩, hq, hd⟩ := Option.any_eq_true _ _ |>.mp
    (show (Builder.momentAfter 13 Builder.jumpOverSpill).any (fun (_, m) => m.task = .drain [] ∧
      m.session.ctx.registers.occupant ⟨.gp, 1⟩ = some ⟨1⟩ ∧
      m.session.ctx.registers.occupant ⟨.gp, 7⟩ = some ⟨0⟩) = true by decide +kernel)
  obtain ⟨hp, hm, body, hs, hj⟩ := Builder.momentAfter_ok hq
  obtain ⟨htask, h₁, h₇⟩ := of_decide_eq_true hd
  exact ⟨s, t, record, stop, body, p, m, hs, hp, hj, hm, htask, h₁, h₇, (translation_consistent hs hp hj).1 m hm⟩

end Session

end Codegen
