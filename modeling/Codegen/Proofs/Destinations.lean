import Codegen.Lowering.Item
import Codegen.Proofs.Coherence
import Mathlib.Data.Option.Basic

/-! The registers that instructions write. -/
namespace Codegen
open List Operand Opcode Variable

/-- The register that an operand is. -/
def Operand.reg? : Operand → Option Reg
  | .reg r => some r.reg
  | _ => none

namespace Opcode

/-- The registers that the hardware writes without an operand that names them. Calls and returns leave the function,
and what happens there is not the function's doing. -/
def implicitWrites : Opcode → List Reg
  | mul | imulWide | div | idiv | rdtsc => [.gp Gp.rdx, .gp Gp.rax]
  | cpuid => [.gp Gp.rax, .gp Gp.rbx, .gp Gp.rcx, .gp Gp.rdx]
  | repMovsb => [.gp Gp.rdi, .gp Gp.rsi, .gp Gp.rcx]
  | repStosb => [.gp Gp.rdi, .gp Gp.rcx]
  | push | pop => [.gp Gp.rsp]
  | leave => [.gp Gp.rsp, .gp Gp.rbp]
  | _ => []

/-- The number of operands in front that stand for registers which the hardware does not name. -/
def implicitCount : Opcode → Nat
  | mul | imulWide | div | idiv | rdtsc => 2
  | repMovsb | repStosb => 3
  | cpuid => 4
  | _ => 0

/-- The opcode moves the stack pointer by itself. -/
def movesStack : Opcode → Bool
  | push | pop | leave => true
  | _ => false

theorem exists_fixed {op : Opcode} (hs : op.movesStack = false) (hr : r ∈ op.implicitWrites) (count : Nat) :
    ∃ k < op.implicitCount, ∃ n < 32, (op.constraint k count).fixed = some n ∧ r = .gp n := by
  cases op with
  | mul | imulWide | div | idiv | rdtsc =>
    rcases mem_pair.mp hr with rfl | rfl
    · exact ⟨0, by decide, Gp.rdx, by decide, rfl, rfl⟩
    · exact ⟨1, by decide, Gp.rax, by decide, rfl, rfl⟩
  | cpuid =>
    simp only [implicitWrites, mem_cons, not_mem_nil, or_false] at hr
    rcases hr with rfl | rfl | rfl | rfl
    · exact ⟨0, by decide, Gp.rax, by decide, rfl, rfl⟩
    · exact ⟨1, by decide, Gp.rbx, by decide, rfl, rfl⟩
    · exact ⟨2, by decide, Gp.rcx, by decide, rfl, rfl⟩
    · exact ⟨3, by decide, Gp.rdx, by decide, rfl, rfl⟩
  | repMovsb =>
    simp only [implicitWrites, mem_cons, not_mem_nil, or_false] at hr
    rcases hr with rfl | rfl | rfl
    · exact ⟨0, by decide, Gp.rdi, by decide, rfl, rfl⟩
    · exact ⟨1, by decide, Gp.rsi, by decide, rfl, rfl⟩
    · exact ⟨2, by decide, Gp.rcx, by decide, rfl, rfl⟩
  | repStosb =>
    rcases mem_pair.mp hr with rfl | rfl
    · exact ⟨0, by decide, Gp.rdi, by decide, rfl, rfl⟩
    · exact ⟨2, by decide, Gp.rcx, by decide, rfl, rfl⟩
  | push | pop | leave => cases hs
  | _ => cases hr

/-- The operands that an encoded instruction writes. -/
def writtenOperands (op : Opcode) (operands : List Operand) : List Operand :=
  match op with
  | xchg => operands
  | cmp | test | ucomisd | ucomiss | push | mul | imulWide | div | idiv | jmp | jcc _ | call | ret => []
  | _ => operands.take 1

theorem writtenOperands_subset (op : Opcode) (operands : List Operand) : op.writtenOperands operands ⊆ operands := by
  unfold writtenOperands
  split
  all_goals first | exact take_subset _ _ | exact nil_subset _ | exact Subset.refl _

/-- The registers that an instruction writes. -/
def destinations (op : Opcode) (operands : List Operand) : List Reg :=
  op.implicitWrites ++ (op.writtenOperands (op.explicitOperands operands)).filterMap reg?

theorem destinations_move (ty : VarType) (dst src : Operand) :
    ty.moveOpcode.destinations [dst, src] = dst.reg?.toList := by
  cases ty <;> cases dst <;> rfl

theorem destinations_copy (c : RegClass) (dst src : Operand) :
    c.copyOpcode.1.destinations [dst, src] = dst.reg?.toList := by
  cases c <;> cases dst <;> rfl

theorem destinations_returnMove (source ty : VarType) (dst src : Operand) :
    (returnMove source ty).1.destinations [dst, src] = dst.reg?.toList := by
  unfold returnMove
  split
  · cases dst <;> rfl
  · cases dst <;> rfl
  · exact destinations_move ..

theorem destinations_store (ty : VarType) (m : Mem) (src : Operand) :
    (Build.stackStore ty).destinations [.mem m, src] = [] := by
  unfold Build.stackStore
  split
  · rfl
  · exact destinations_move ..

end Opcode

def Instruction.destinations (i : Instruction) : List Reg := i.opcode.destinations i.operands

theorem Variable.swapCode_destinations {v : Variable} {i : Instruction} (hi : i ∈ v.swapCode a b)
    (hr : r ∈ i.destinations) : r = ⟨v.cls, a⟩ ∨ r = ⟨v.cls, b⟩ := by
  unfold swapCode at hi
  cases hc : v.cls <;> rw [hc] at hi <;> simp only [mem_cons, not_mem_nil, or_false] at hi
  · subst hi
    simpa [Instruction.destinations, destinations, implicitWrites, writtenOperands,
      explicitOperands, gpq, ofReg, reg?, Reg.gp] using hr
  all_goals
    rcases hi with rfl | rfl | rfl <;>
    · simp [Instruction.destinations, destinations, implicitWrites, writtenOperands,
        explicitOperands, regOperand, ofReg, reg?, hc] at hr
      simp [hr]

namespace RegFile
variable {R : RegFile}

theorem occupant_of_assign (h : (R.assign q y).occupant r = some x) : r = q ∨ R.occupant r = some x :=
  or_iff_not_imp_left.mpr fun hr => occupant_assign_of_ne _ hr _ ▸ h

theorem occupant_of_release (h : (R.release q).occupant r = some x) : R.occupant r = some x := by
  by_cases hr : r = q
  · rw [hr, occupant_release_self] at h
    cases h
  · exact occupant_release_of_ne _ hr ▸ h

end RegFile

namespace Action

theorem occupied (hc : Coherent h) (ha : Action h e c h') (hs : e.settles = false)
    (ho : h'.registers.occupant r = some x) : ∃ y, h.registers.occupant r = some y := by
  cases ha with
  | @spill _ v | @await _ v | @forget _ v =>
    unfold Holdings.vacate at ho
    split at ho
    · exact ⟨x, RegFile.occupant_of_release ho⟩
    · exact ⟨x, ho⟩
  | @swap _ _ _ _ p q hv hw hp hq | @displace _ _ _ _ p q hv hw hp hq =>
    rcases RegFile.occupant_of_assign ho with rfl | ho
    · exact ⟨_, hc.occupant_of_currentReg hw hq⟩
    rcases RegFile.occupant_of_assign ho with rfl | ho
    · exact ⟨_, hc.occupant_of_currentReg hv hp⟩
    · exact ⟨x, ho⟩
  | load | enter | reuse | move | shift => cases hs
  | _ => exact ⟨x, ho⟩

private theorem exchange_occupied (hc : Coherent h) (hv : h.vars x = some v)
    (hw : h.vars y = some w) (hp : v.currentReg = some p) (hq : w.currentReg = some q) (hr : r = p ∨ r = q) :
    ∃ z, (h.exchange x y v w p q).registers.occupant r = some z := by
  have hlt : ∀ {x v q}, h.vars x = some v → v.currentReg = some q → q.index < 16 := fun hw hq =>
    (hc.occupied (hc.occupant_of_currentReg hw hq)).1.lt
  by_cases hrq : r = q
  · rw [hrq]
    exact ⟨_, RegFile.occupant_assign_self _ (hlt hw hq) _⟩
  · cases hr.resolve_right hrq
    exact ⟨_, (RegFile.occupant_assign_of_ne _ hrq _).trans (RegFile.occupant_assign_self _ (hlt hv hp) _)⟩

/-- The registers that the code of an effect writes are in use behind it. -/
theorem destinations_occupied (hc : Coherent h) (ha : Action h e c h') (he : e ≠ .other) {i : Instruction} (hi : i ∈ c)
    (hr : r ∈ i.destinations) : ∃ x, h'.registers.occupant r = some x := by
  have hstore : ∀ {v : Variable} {a : Home} {o : Operand}, (v.copy (v.homeOperand a) o).destinations = [] :=
    destinations_move ..
  have hcopy : ∀ {v : Variable} {k : Nat} {o : Operand},
      (v.copy (v.regOperand k) o).destinations = [⟨v.cls, k⟩] := destinations_move ..
  cases ha with
  | save =>
    rw [mem_singleton.mp hi, hstore] at hr
    cases hr
  | spill =>
    split at hi
    · rw [mem_singleton.mp hi, hstore] at hr
      cases hr
    · cases hi
  | load _ _ _ _ hu | move _ _ _ hu =>
    rw [mem_singleton.mp hi, hcopy] at hr
    cases mem_singleton.mp hr
    exact ⟨_, RegFile.occupant_assign_self _ hu.lt _⟩
  | @swap id other v w p q hv hw hp hq hcls _ =>
    have hvc : v.cls = p.cls := (currentReg_eq_some.mp hp).2.2
    refine exchange_occupied hc hv hw hp hq ?_
    rcases swapCode_destinations hi hr with rfl | rfl
    · exact .inl (by rw [hvc])
    · exact .inr (by rw [hvc, hcls])
  | @displace id other v w p q hv hw hp hq hcls _ =>
    rw [mem_singleton.mp hi, hcopy] at hr
    have hwc : w.cls = q.cls := (currentReg_eq_some.mp hq).2.2
    rw [mem_singleton.mp hr, hwc, ← hcls]
    exact exchange_occupied hc hv hw hp hq (.inl rfl)
  | other => exact absurd rfl he
  | _ => cases hi

end Action

end Codegen
