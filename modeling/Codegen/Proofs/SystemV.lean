import Codegen.Proofs.Building

/-! The System V convention. Arguments are passed in registers that a callee may overwrite, results come back in such
registers, and no register does two things at once. -/
namespace Codegen
open List Option
variable {rets : List (VarType × Reg)} {args returns tys : List VarType} {index : Nat}

/-- The registers in which the convention returns values. -/
def Assigner.returning : List Reg := [.gp Gp.rax, .gp Gp.rdx, .xmm 0, .xmm 1, .mm 0]

namespace Assigner

theorem retReg?_returning (h : retReg? ty index = some r) : r ∈ returning := by
  unfold retReg? at h
  split at h
  · obtain ⟨i, hi, rfl⟩ := map_eq_some_iff.mp h
    have : ∀ i ∈ gpRetRegs, Reg.gp i ∈ returning := by decide
    exact this i (mem_of_getElem? hi)
  · obtain ⟨i, hi, rfl⟩ := map_eq_some_iff.mp h
    have : ∀ i ∈ xmmRetRegs, Reg.xmm i ∈ returning := by decide
    exact this i (mem_of_getElem? hi)
  · split at h
    · cases h
      decide
    · cases h
  · cases h

theorem returning_free (h : r ∈ returning) : (Context.empty.allocable r.cls).contains r.index = true ∧
      (Context.empty.allocable .gp).contains r.index = true ∧
      (calleeSaved.get r.cls).contains r.index = false ∧ calleeSaved.gp.contains r.index = false := by
  revert r
  decide

end Assigner

namespace Assigner
variable {ty : VarType}

/-- The position of a result that comes back in this register. -/
def resultPosition (r : Reg) : Nat := if r = .gp Gp.rdx ∨ r = .xmm 1 then 1 else 0

theorem resultPosition_eq (h : retReg? ty i = some r) : resultPosition r = i := by
  unfold retReg? at h
  split at h
  · obtain ⟨k, hk, rfl⟩ := map_eq_some_iff.mp h
    match i, hk with
    | 0, hk | 1, hk => cases hk; rfl
  · obtain ⟨k, hk, rfl⟩ := map_eq_some_iff.mp h
    match i, hk with
    | 0, hk | 1, hk => cases hk; rfl
  · split at h
    · cases h
      subst i
      rfl
    · cases h
  · cases h

theorem assignRets_later (h : assignRets i tys = .ok rets) :
    (rets.map Prod.snd).Nodup ∧ ∀ ret ∈ rets, ∃ k ≥ i, retReg? ret.1 k = some ret.2 := by
  induction tys generalizing i rets with
  | nil =>
    cases h
    simp
  | cons ty tys ih =>
    simp only [assignRets, Build.except_bind_ok, Build.except_pure_ok] at h
    obtain ⟨r, hr, others, ho, rfl⟩ := h
    obtain ⟨hn, hall⟩ := ih ho
    have hr : retReg? ty i = some r := by
      unfold assignRet at hr
      split at hr
      · cases hr
        assumption
      · cases hr
    refine ⟨nodup_cons.mpr ⟨fun hm => ?_, hn⟩, forall_mem_cons.mpr ⟨⟨i, Nat.le_refl i, hr⟩, fun ret hret => ?_⟩⟩
    · obtain ⟨ret, hret, rfl⟩ := mem_map.mp hm
      obtain ⟨k, hk, hr'⟩ := hall ret hret
      have := resultPosition_eq hr ▸ resultPosition_eq hr'
      omega
    · obtain ⟨k, hk, hr'⟩ := hall ret hret
      exact ⟨k, Nat.le_of_succ_le hk, hr'⟩

end Assigner

theorem Prototype.sysv_registers (h : Prototype.sysv args returns = .ok p) : p.preserved = Assigner.calleeSaved ∧
      (∀ info ∈ p.args, ∀ r, info.location = .register r → (Assigner.calleeSaved.get r.cls).contains r.index = false) ∧
      ∀ ret ∈ p.returns, ret.2 ∈ Assigner.returning := by
  obtain ⟨a, ha, hrets, hpres, -⟩ := sysv_ok h
  have hfree : ∀ cls, ∀ i ∈ argumentRegs cls, (Assigner.calleeSaved.get cls).contains i = false := by
    rintro (_ | _ | _) <;> decide
  refine ⟨hpres, fun info hi r hr => hfree _ _ ((Assigner.assignArgs_registers ha).2 info hi r hr).2, fun ret hret => ?_⟩
  obtain ⟨k, -, hk⟩ := (Assigner.assignRets_later hrets).2 ret hret
  exact Assigner.retReg?_returning hk

end Codegen
