import Codegen.Proofs.Moments
import Codegen.Proofs.SystemV

/-! Returning two values at once. The values go to their registers without getting in each other's way, but for two values
in vector registers that have to change places. -/
namespace Codegen
open Option Session Variable Function Instruction
variable {s : Session} {ty : VarType} {ret ret' : VarType × Reg}

/-- What a value becomes as a result of type `ty`. -/
def returnedAs {w : Nat} (cv : Opcode → BitVec w → BitVec w) (source ty : VarType) (x : BitVec w) : BitVec w :=
  if (returnMove source ty).2 then cv (returnMove source ty).1 x else x

theorem returnedAs_of_gp {cv : Opcode → BitVec w → BitVec w} {source : VarType} {x : BitVec w}
    (h : source.cls = some .gp) : returnedAs cv source ty x = x := by
  cases source <;> first | rfl | cases h

namespace Instruction
variable {cv : Opcode → BitVec w → BitVec w}

/-- What an instruction does that moves a result. It converts the value as `cv` says, loads a constant, or does what other
code of the allocator does. -/
def deliver (cv : Opcode → BitVec w → BitVec w) (m : Place → BitVec w) (i : Instruction) : Option (Place → BitVec w) :=
  match i.opcode, i.operands with
  | .cvtss2sd, [dst, src] | .cvtsd2ss, [dst, src] => do
    some (update m (← dst.place?) (cv i.opcode (m (← src.place?))))
  | .mov, [dst, .imm n] => do some (update m (← dst.place?) (.ofInt w n))
  | _, _ => i.exec m

def deliverAll (cv : Opcode → BitVec w → BitVec w) (m : Place → BitVec w) (code : List Instruction) :
    Option (Place → BitVec w) := code.foldlM (deliver cv) m

theorem deliverAll_append (a b : List Instruction) :
    deliverAll cv m (a ++ b) = (deliverAll cv m a).bind fun m' => deliverAll cv m' b := List.foldlM_append

theorem deliverAll_singleton (i : Instruction) : deliverAll cv m [i] = deliver cv m i := by
  simp [deliverAll]

theorem deliver_imm (hd : d.place? = some p) :
    deliver cv m ⟨.mov, [d, .imm n]⟩ = some (update m p (.ofInt w n)) := by
  simp [deliver, hd]

theorem deliver_returnMove {source : VarType} {cls : RegClass} (ht : source.cls = some cls) (hd : d.place? = some p)
    (ho : o.place? = some q) :
    deliver cv m ⟨(returnMove source ty).1, [d, o]⟩ = some (update m p (returnedAs cv source ty (m q))) := by
  have hcopy : ∀ {op : Opcode}, op.isCopy = true → exec ⟨op, [d, o]⟩ m = some (update m p (m q)) := by
    intro op hop
    simp only [exec, hd, ho, bind_eq_bind, bind_some]
    split
    · cases hop
    · cases hop
    · rw [if_pos hop]
  unfold returnedAs returnMove
  split
  · simp [deliver, hd, ho]
  · simp [deliver, hd, ho]
  have hop : source.moveOpcode.isCopy = true := by cases source <;> first | rfl | cases ht
  rw [if_neg Bool.false_ne_true, ← hcopy hop]
  generalize source.moveOpcode = op at hop
  cases o with
  | imm n => cases ho
  | _ => cases op <;> first | rfl | cases hop

end Instruction

/-- The operand is an immediate or a variable of the function, of the class that the register has. -/
def Holdings.Matches (h : Holdings) (o : Operand) (r : Reg) : Prop :=
  (∃ n, o = .imm n) ∨ ∃ ref v, o = .var ref ∧ h.vars ref.id = some v ∧ v.cls = r.cls

namespace Session

/-- The register that an operand is in. -/
def regOf? (s : Session) : Operand → Option Reg
  | .var ref => (s.vars.get? ref.id).bind currentReg
  | _ => none

/-- The value of an operand as a result of type `ty`, on a machine with these registers and homes. -/
def result? (s : Session) (cv : Opcode → BitVec w → BitVec w) (m : Place → BitVec w) (ty : VarType) :
    Operand → Option (BitVec w)
  | .var ref => do
    let v ← s.vars.get? ref.id
    let p ← v.place?
    some (returnedAs cv v.ty ty (m p))
  | .imm n => some (.ofInt w n)
  | _ => none

/-- The operand is an immediate or a variable with a class and a type that fit the register. -/
def Matches (s : Session) (o : Operand) (r : Reg) : Prop :=
  (∃ n, o = .imm n) ∨ ∃ ref v, o = .var ref ∧ s.vars.get? ref.id = some v ∧ v.id = ref.id ∧ v.ty.cls = some r.cls ∧
    v.cls = r.cls

theorem Matches.of_holdings (hc : Coherent (s.holdings f)) (h : (s.holdings f).Matches o r) :
    s.Matches o r := by
  refine h.imp_right ?_
  rintro ⟨ref, _, rfl, hv, hcls⟩
  have hid := hc.named hv
  have ht := hc.typed hv
  obtain ⟨v, hvar, -, rfl⟩ := holdings_vars.mp hv
  exact ⟨ref, v, rfl, hvar, hid, ht.trans (congrArg some hcls), hcls⟩

/-- Some variables have got a home since. -/
def Lodges (s s' : Session) : Prop :=
  ∀ id v, s.vars.get? id = some v → ∃ slot, s'.vars.get? id = some { v with homeSlot := slot } ∧
    ∀ a, v.home? = some a → ({ v with homeSlot := slot } : Variable).home? = some a

theorem Lodges.of_vars (h : s'.vars = s.vars) : s.Lodges s' := fun _ v hv => ⟨v.homeSlot, h ▸ hv, fun _ ha => ha⟩

theorem Lodges.matches (h : s.Lodges s') (ho : s.Matches o r) : s'.Matches o r := by
  refine ho.imp_right ?_
  rintro ⟨ref, v, rfl, hv, hid, ht, hc⟩
  obtain ⟨slot, hv', -⟩ := h _ _ hv
  exact ⟨ref, _, rfl, hv', hid, ht, hc⟩

theorem Lodges.regOf (h : s.Lodges s') (hr : s.regOf? o = some r) : s'.regOf? o = some r := by
  cases o with
  | var ref =>
    obtain ⟨v, hv, hr⟩ := bind_eq_some_iff.mp hr
    obtain ⟨slot, hv', -⟩ := h _ _ hv
    exact bind_eq_some_iff.mpr ⟨_, hv', hr⟩
  | _ => cases hr

theorem Matches.result_of_reg (ho : s.Matches o r) (h : s.regOf? o = some q) :
    q.cls = r.cls ∧ ∃ source : VarType, source.cls = some r.cls ∧
      ∀ {w : Nat} (cv : Opcode → BitVec w → BitVec w) (m : Place → BitVec w) (ty : VarType),
        s.result? cv m ty o = some (returnedAs cv source ty (m (.reg q))) := by
  rcases ho with ⟨n, rfl⟩ | ⟨ref, v, rfl, hv, -, ht, hc⟩
  · cases h
  rw [regOf?, hv, bind_some] at h
  refine ⟨(currentReg_eq_some.mp h).2.2 ▸ hc, v.ty, ht, fun cv m ty => ?_⟩
  simp [result?, hv, place?_of_currentReg h]

theorem Lodges.result {cv : Opcode → BitVec w → BitVec w}
    (h : s.Lodges s') (hx : s.result? cv m ty o = some x) : s'.result? cv m ty o = some x := by
  cases o with
  | var ref =>
    simp only [result?, bind_eq_bind, bind_eq_some_iff] at hx ⊢
    obtain ⟨v, hv, p, hp, hx⟩ := hx
    obtain ⟨slot, hv', hhome⟩ := h _ _ hv
    refine ⟨_, hv', p, ?_, hx⟩
    by_cases hs : v.state = .memory
    · obtain ⟨a, ha, rfl⟩ : ∃ a, v.home? = some a ∧ Place.home a = p := by simpa [place?, hs] using hp
      exact place?_of_memory hs (hhome a ha)
    · cases hr : v.state <;> simp_all [place?, currentReg]
  | imm n => exact hx
  | _ => cases hx

theorem result?_congr {cv : Opcode → BitVec w → BitVec w}
    (hm : ∀ p, p ≠ .reg r → m' p = m p) (hr : s.regOf? o ≠ some r) : s.result? cv m' ty o = s.result? cv m ty o := by
  cases o with
  | var ref =>
    cases hv : s.vars.get? ref.id with
    | none => simp [result?, hv]
    | some v =>
      simp only [result?, hv, bind_eq_bind, bind_some]
      cases hp : v.place? with
      | none => rfl
      | some p =>
        rw [bind_some, bind_some, hm p]
        rintro rfl
        exact hr (by rw [regOf?, hv]; exact place?_eq_reg.mp hp)
  | _ => rfl

end Session

namespace Build

/-- The code moves one result to its register. -/
structure Sends (s : Session) (o : Operand) (ret : VarType × Reg) (code : List Instruction) (s' : Session) : Prop where
  items : s'.items = s.items.generateAll s.mark code
  mark : s'.mark = s.mark
  houses : s.Lodges s'
  runs : ∀ {w : Nat} (cv : Opcode → BitVec w → BitVec w) (m : Place → BitVec w),
    ∃ m', deliverAll cv m code = some m' ∧ (∀ p, p ≠ .reg ret.2 → m' p = m p) ∧
      ∀ x, s.result? cv m ret.1 o = some x → m' (.reg ret.2) = x

theorem housed_lodges {id : VarId} (hx : s.vars.get? id = some x) : s.Lodges (housed s id x) := by
  unfold housed
  cases hh : x.home? with
  | some a => exact .of_vars rfl
  | none =>
    refine fun y v hv => ?_
    by_cases hy : y = id
    · subst hy
      cases hx ▸ hv
      refine ⟨_, by rw [VarTable.get?_modify_self, hv, map_some], fun a ha => ?_⟩
      cases hh ▸ ha
    · exact ⟨v.homeSlot, by rw [VarTable.get?_modify_of_ne _ (Ne.symm hy)]; exact hv, fun _ ha => ha⟩

theorem Sends.quiet (hr : ∀ {w : Nat} (cv : Opcode → BitVec w → BitVec w) (m : Place → BitVec w) x,
    s.result? cv m ret.1 o = some x → m (.reg ret.2) = x) : Sends s o ret [] s :=
  ⟨rfl, rfl, .of_vars rfl, fun cv m => ⟨m, rfl, fun _ _ => rfl, hr cv m⟩⟩

theorem Sends.single {i : Instruction} {t : Session} (hi : t.items = s.items) (hm : t.mark = s.mark)
    (hh : s.Lodges t) (hy : ∀ {w : Nat} (cv : Opcode → BitVec w → BitVec w) (m : Place → BitVec w), ∃ y,
      i.deliver cv m = some (update m (.reg ret.2) y) ∧ ∀ x, s.result? cv m ret.1 o = some x → y = x) :
    Sends s o ret [i] { t with items := t.items.generateAll t.mark [i] } := by
  refine ⟨by rw [hi, hm], hm, hh, fun cv m => ?_⟩
  obtain ⟨y, hd, hx⟩ := hy cv m
  refine ⟨_, (deliverAll_singleton i).trans hd, fun p hp => update_of_ne hp _ _, fun x h => ?_⟩
  rw [update_self, hx x h]

section Variable
variable {ref : VarRef}

theorem emitReturnVar_sends_register {c : Reg} (hv : s.vars.get? ref.id = some v) (ht : v.ty.cls = some r.cls)
    (hcls : v.cls = r.cls) (hr : v.currentReg = some c) (h : emitReturnVar v ty r s = .ok () s') :
    ∃ code, Sends s (.var ref) (ty, r) code s' := by
  have hval : ∀ {w : Nat} (cv : Opcode → BitVec w → BitVec w) (m : Place → BitVec w),
      s.result? cv m ty (.var ref) = some (returnedAs cv v.ty ty (m (.reg c))) := fun cv m => by
    simp [result?, hv, place?_of_currentReg hr]
  simp only [emitReturnVar, check_ok, hr] at h
  obtain ⟨-, h⟩ := h
  split at h
  · cases emitAll_ok h
    have hplace : (v.regOperand c.index).place? = some (.reg c) := by
      rw [place?_regOperand, reg_eq hr]
    exact ⟨_, .single rfl rfl (.of_vars rfl) fun cv m => ⟨_, deliver_returnMove ht rfl hplace, fun x hx =>
      some.inj (hval cv m ▸ hx)⟩⟩
  rename_i hstay
  cases h
  refine ⟨_, .quiet fun cv m x hx => ?_⟩
  simp only [Bool.or_eq_true, decide_eq_true_eq, not_or, not_not] at hstay
  obtain rfl : c = r := by
    have hc : c.cls = r.cls := (currentReg_eq_some.mp hr).2.2 ▸ hcls
    have hi : c.index = r.index := hstay.1
    cases r
    cases hc
    cases hi
    rfl
  rw [hval, returnedAs, if_neg hstay.2] at hx
  exact some.inj hx

theorem emitReturnVar_sends_home (hv : s.vars.get? ref.id = some v) (hid : v.id = ref.id) (ht : v.ty.cls = some r.cls)
    (hr : v.currentReg = none) (h : emitReturnVar v ty r s = .ok () s') : ∃ code, Sends s (.var ref)
    (ty, r) code s' := by
  simp only [emitReturnVar, check_ok, hr] at h
  obtain ⟨-, h⟩ := h
  split at h
  · rename_i hmem
    obtain ⟨home, t, hh, h⟩ := bind_ok.mp h
    simp only [homeOperand, bind_ok, getVar_ok] at hh
    obtain ⟨a, _, ha, y, _, ⟨-, rfl⟩, ⟨⟩⟩ := hh
    have hyields := resolveHome_yields _ _ _ ha
    obtain ⟨x, hx, rfl, rfl⟩ := resolveHome_ok ha
    rw [hid] at hx
    cases hv ▸ hx
    cases emitAll_ok h
    have hsame : (housed s v.id v).items = s.items ∧ (housed s v.id v).mark = s.mark := by
      unfold housed
      split <;> exact ⟨rfl, rfl⟩
    have hplace : ∀ {home : Home} {n : Nat}, (∀ v, home ≠ .var v) →
        (Operand.mem (.atHome home n)).place? = some (.home home) := fun {home n} hn => by
      cases home with
      | var v => exact absurd rfl (hn v)
      | _ => rfl
    refine ⟨_, .single hsame.1 hsame.2 (housed_lodges (hid ▸ hv)) fun cv m =>
      ⟨_, deliver_returnMove ht rfl (hplace hyields), fun x hx => ?_⟩⟩
    simp only [result?, hv, bind_eq_bind, bind_some, bind_eq_some_iff] at hx
    obtain ⟨p, hp, hx⟩ := hx
    obtain ⟨b, hb, rfl⟩ : ∃ b, v.home? = some b ∧ Place.home b = p := by
      simpa [place?, hmem] using hp
    simpa [hb] using hx
  · rename_i hmem
    cases h
    refine ⟨_, .quiet fun cv m x hx => ?_⟩
    have hnone : v.place? = none := by
      unfold place?
      split
      · rw [hr, map_none]
      · rename_i hs
        exact absurd hs hmem
      · rfl
    simp [result?, hv, hnone] at hx

end Variable

theorem emitReturnValue_sends (ho : s.Matches o ret.2) (h : emitReturnValue o ret s = .ok () s') :
    ∃ code, Sends s o ret code s' := by
  obtain ⟨ty, r⟩ := ret
  simp only [emitReturnValue, bind_ok] at h
  obtain ⟨_, t, hm, h⟩ := h
  cases hm
  -- that the register is marked changes nothing for the value
  suffices hs : ∃ code, Sends { s with ctx := s.ctx.markModified r } o (ty, r) code s' by
    obtain ⟨code, hs⟩ := hs
    exact ⟨code, hs.items, hs.mark, hs.houses, hs.runs⟩
  rcases ho with ⟨n, rfl⟩ | ⟨ref, v, rfl, hv, hid, ht, hcls⟩
  · obtain ⟨hgp, h⟩ := check_ok.mp h
    cases emitAll_ok h
    obtain ⟨c, i⟩ := r
    obtain rfl : c = .gp := by simpa using hgp
    exact ⟨_, .single rfl rfl (.of_vars rfl) fun cv m => ⟨_, deliver_imm rfl, fun x => some.inj⟩⟩
  simp only [bind_ok, getVar_ok] at h
  obtain ⟨v', _, ⟨hv', rfl⟩, h⟩ := h
  cases hv ▸ hv'
  cases hr : v.currentReg with
  | some c => exact emitReturnVar_sends_register hv ht hcls hr h
  | none => exact emitReturnVar_sends_home hv hid ht hr h

theorem Sends.append {t : Session} {a b : Operand} {code code' : List Instruction}
    (h : Sends s a ret code t) (h' : Sends t b ret' code' s') (hne : ret.2 ≠ ret'.2) :
    s'.items = s.items.generateAll s.mark (code ++ code') ∧
      ∀ {w : Nat} (cv : Opcode → BitVec w → BitVec w) (m : Place → BitVec w),
        ∃ m', deliverAll cv m (code ++ code') = some m' ∧ (∀ x, s.result? cv m ret.1 a = some x → m' (.reg ret.2) = x) ∧
          (s.regOf? b ≠ some ret.2 → ∀ x, s.result? cv m ret'.1 b = some x → m' (.reg ret'.2) = x) ∧
          ∀ x, (∀ m1, deliverAll cv m code = some m1 → t.result? cv m1 ret'.1 b = some x) → m' (.reg ret'.2) = x := by
  refine ⟨by rw [h'.items, h.items, h.mark, ItemSeq.generateAll_append], fun cv m => ?_⟩
  obtain ⟨m1, hrun, hout, hval⟩ := h.runs cv m
  obtain ⟨m2, hrun', hout', hval'⟩ := h'.runs cv m1
  refine ⟨m2, by rw [deliverAll_append, hrun]; exact hrun', fun x hx => ?_, fun hb x hx => ?_, fun x hx => ?_⟩
  · rw [hout' _ (by simpa using hne), hval x hx]
  · exact hval' x (h.houses.result ((result?_congr hout hb).trans hx))
  · exact hval' x (hx m1 hrun)

/-- The two results are in vector registers and have to change places. -/
def Crossed (s : Session) (a b : Operand) (r q : Reg) : Prop :=
  s.regOf? a = some q ∧ s.regOf? b = some r ∧ r.cls ≠ .gp

/-- The code leaves each of two results in its register, whatever the values are and whatever conversions compute. -/
def DeliversPair (s : Session) (a b : Operand) (ret ret' : VarType × Reg) (code : List Instruction) : Prop :=
  ∀ {w : Nat} (cv : Opcode → BitVec w → BitVec w) (m : Place → BitVec w),
    ∃ m', deliverAll cv m code = some m' ∧
      (∀ x, s.result? cv m ret.1 a = some x → m' (.reg ret.2) = x) ∧
      ∀ x, s.result? cv m ret'.1 b = some x → m' (.reg ret'.2) = x

theorem operandReg_ok {r : Option Reg} (ho : s.Matches o q) (h : operandReg o s = .ok r s') :
    r = s.regOf? o ∧ s' = s := by
  rcases ho with ⟨n, rfl⟩ | ⟨ref, v, rfl, hv, -⟩
  · cases h
    exact ⟨rfl, rfl⟩
  rw [operandReg, getVar_bind hv] at h
  cases h
  exact ⟨by rw [regOf?, hv, bind_some], rfl⟩

theorem emitReturnPair_delivers_iff {a b : Operand} (ha : s.Matches a ret.2)
    (hb : s.Matches b ret'.2) (hne : ret.2 ≠ ret'.2) (h : emitReturnPair a b ret ret' s = .ok () s') :
    ∃ code, s'.items = s.items.generateAll s.mark code ∧
      (DeliversPair s a b ret ret' code ↔ ¬ Crossed s a b ret.2 ret'.2) := by
  simp only [emitReturnPair, bind_ok] at h
  obtain ⟨r, _, h1, q, _, h2, h⟩ := h
  obtain ⟨rfl, rfl⟩ := operandReg_ok ha h1
  obtain ⟨rfl, rfl⟩ := operandReg_ok hb h2
  split at h
  · rename_i hswap
    simp only [Bool.and_eq_true, decide_eq_true_eq] at hswap
    obtain ⟨⟨hat, hat'⟩, hgp⟩ := hswap
    obtain ⟨hcls, source, hs, hval⟩ := ha.result_of_reg hat
    obtain ⟨-, source', hs', hval'⟩ := hb.result_of_reg hat'
    cases emitAll_ok h
    refine ⟨_, rfl, iff_of_true (fun cv m => ?_) fun hx => hx.2.2 hgp⟩
    obtain ⟨ty, _, i⟩ := ret
    obtain ⟨ty', _, k⟩ := ret'
    cases hgp
    cases hcls
    refine ⟨_, rfl, fun x hx => ?_, fun x hx => ?_⟩
    · rw [hval, returnedAs_of_gp hs] at hx
      exact (update_of_ne (fun he => hne (Place.reg.inj he)) _ _).trans ((update_self ..).trans (some.inj hx))
    · rw [hval', returnedAs_of_gp hs'] at hx
      exact (update_self ..).trans (some.inj hx)
  · rename_i hswap
    split at h
    · simp only [bind_ok] at h
      obtain ⟨_, t, h1, h2⟩ := h
      obtain ⟨c1, hc1⟩ := emitReturnValue_sends hb h1
      have hat : t.Matches a ret.2 := hc1.houses.matches ha
      obtain ⟨c2, hc2⟩ := emitReturnValue_sends hat h2
      obtain ⟨hi, hrun⟩ := hc1.append hc2 hne.symm
      refine ⟨c1 ++ c2, hi, fun hpair hx => ?_, fun hx w cv m => ?_⟩
      · -- the second value has taken the place of the first one before that is moved
        obtain ⟨hra, hrb, -⟩ := hx
        let m : Place → BitVec 1 := fun p => if p = .reg ret'.2 then 1 else 0
        have hsame : ∀ source ty (x : BitVec 1), returnedAs (fun _ x => x) source ty x = x := by simp [returnedAs]
        obtain ⟨m', hm, hfirst, -⟩ := hpair (fun _ x => x) m
        obtain ⟨m'', hm', hsecond, -, hover⟩ := hrun (fun _ x => x) m
        cases hm ▸ hm'
        obtain ⟨-, source, -, hval⟩ := ha.result_of_reg hra
        obtain ⟨-, source', -, hval'⟩ := hb.result_of_reg hrb
        obtain ⟨-, source'', -, hval''⟩ := hat.result_of_reg (hc1.houses.regOf hra)
        have hone : m' (.reg ret.2) = 1 := hfirst 1 (by rw [hval, hsame]; simp [m])
        have hzero : m' (.reg ret.2) = 0 := by
          refine hover 0 fun m1 hm1 => ?_
          obtain ⟨m2, hm2, -, hv⟩ := hc1.runs (fun _ x => x) m
          cases hm1 ▸ hm2
          rw [hval'', hsame, hv 0 (by rw [hval', hsame]; simp [m, hne])]
        exact absurd (hone ▸ hzero) (by decide)
      · obtain ⟨m', hm, hy, hx', -⟩ := hrun cv m
        refine ⟨m', hm, hx' fun hra => hx ⟨hra, ‹_›, fun hgp => hswap ?_⟩, hy⟩
        simp [*]
    · rename_i hat
      simp only [bind_ok] at h
      obtain ⟨_, t, h1, h2⟩ := h
      obtain ⟨c1, hc1⟩ := emitReturnValue_sends ha h1
      obtain ⟨c2, hc2⟩ := emitReturnValue_sends (hc1.houses.matches hb) h2
      obtain ⟨hi, hrun⟩ := hc1.append hc2 hne
      refine ⟨c1 ++ c2, hi, iff_of_true (fun cv m => ?_) fun hx => hat hx.2.1⟩
      obtain ⟨m', hm, hx, hy, -⟩ := hrun cv m
      exact ⟨m', hm, hx, hy hat⟩

theorem sysv_returns_ne {args tys : List VarType}
    (h : Prototype.sysv args tys = .ok p) (hr : p.returns = [ret, ret']) : ret.2 ≠ ret'.2 := by
  obtain ⟨-, -, hplaced, -⟩ := Prototype.sysv_ok h
  have hn := (Assigner.assignRets_later hplaced).1
  rw [hr] at hn
  exact fun he => (List.nodup_cons.mp hn).1 (by simp [he])

/-- A return of two values moves them at once, unless they are in vector registers and have to change places. -/
theorem translateReturn_delivers_iff {item : ItemId} {r : ReturnItem} {next : Option ItemId} {args tys : List VarType}
    {p : Prototype} {a b : Operand} {ret ret' : VarType × Reg} (hc : Coherent (s.holdings r.function))
    (hp : Prototype.sysv args tys = .ok p) (hrets : p.returns = [ret, ret'])
    (hreturns : s.returnsOf r.function = .ok p.returns) (hops : r.operands = [a, b])
    (ha : (s.holdings r.function).Matches a ret.2) (hb : (s.holdings r.function).Matches b ret'.2)
    (h : translateReturn item r s = .ok next s') :
    ∃ code emitJump, s'.items = (s.items.generateAll s.mark code).modify item
        ({ · with kind := .ret { r with emitJump } }) ∧
      (DeliversPair s a b ret ret' code ↔ ¬ Crossed s a b ret.2 ret'.2) := by
  simp only [translateReturn, bind_ok, get_ok, lift_ok, labelTarget_ok, getFunction_ok, setKind_ok, when_ok, pure_ok,
    modifyContext_ok] at h
  obtain ⟨_, _, ⟨rfl, rfl⟩, returns, _, ⟨hreturns', rfl⟩, s₁, hn, _, t, hvals, _, _, ⟨-, rfl⟩, exit, _, ⟨-, rfl⟩, _, _,
    ⟨rfl, rfl⟩, _, _, ⟨-, rfl⟩, w, hw, _, _, hretire, _, _, ⟨rfl, rfl⟩, rfl, rfl⟩ := h
  cases hreturns.symm.trans hreturns'
  obtain rfl : s₁ = s := by
    split at hn
    · exact (usage_ok.mp hn).elim
    · exact hn
  rw [hops, hrets] at hvals
  obtain ⟨code, hi, hiff⟩ := emitReturnPair_delivers_iff (.of_holdings hc ha) (.of_holdings hc hb)
    (sysv_returns_ne hp hrets) hvals
  -- the variables that are retired leave no code
  obtain ⟨c, hnone, hc⟩ := ((retireActiveAt_plain (D := .all) (E := fun _ => False) (A := fun _ => True)
    fun _ => trivial).gains _ _ _ hretire).1.code
  obtain rfl : c = [] := List.eq_nil_iff_forall_not_mem.mpr hnone
  refine ⟨code, !t.items.fallsThroughTo exit (t.items.suffixFrom item).tail, ?_, hiff⟩
  rw [hc, ← hi]
  split at hw
  · rw [← hw]
    rfl
  · rw [hw]
    rfl

end Build

namespace Builder

/-- Two values are passed in, put into registers and handed back the other way round. -/
def returnSwapped (y : VarType) (n : Nat) (r q : Reg) : List Call :=
  let v : VarRef := ⟨⟨0⟩, n⟩
  let w : VarRef := ⟨⟨1⟩, n⟩
  [.newFunction [y, y] [y, y] {}, .hint v .alloc (some r), .hint w .alloc (some q), .ret [.var w, .var v],
    .endFunction]

/-- Two variables are in the registers of the results, each in that of the other. -/
def Swapping (y : VarType) (n : Nat) (r q : Reg) (s : Session) : Prop :=
  (s.returnsOf ⟨0⟩).toOption = some [(y, r), (y, q)] ∧ s.regOf? (.var ⟨⟨1⟩, n⟩) = some q ∧
    s.regOf? (.var ⟨⟨0⟩, n⟩) = some r ∧
    (((s.holdings ⟨0⟩).vars ⟨1⟩).any fun v => v.cls = r.cls) ∧ ((s.holdings ⟨0⟩).vars ⟨0⟩).any fun v => v.cls = q.cls

instance (y : VarType) (n : Nat) (r q : Reg) (s : Session) : Decidable (Swapping y n r q s) :=
  inferInstanceAs (Decidable (_ ∧ _))

theorem swapping_visited {P : Session → Bool}
    (h : (momentAfter 4 (returnSwapped y n r q)).any (fun (_, m) => m.task = .walk (some ⟨5⟩) ∧
      Swapping y n r q m.session ∧ P m.session = true) = true) :
    ∃ s t u record stop, ∃ p : Prototype, Build.prepareFunction ⟨0⟩ record stop p s = .ok () t ∧
      t.Visits record.item ⟨.walk (some ⟨5⟩), u⟩ ∧ Coherent (u.holdings ⟨0⟩) ∧ Swapping y n r q u ∧ P u = true := by
  obtain ⟨⟨⟨s, record, stop, p, t⟩, ⟨task, u⟩⟩, hq, hd⟩ := any_eq_true _ _ |>.mp h
  obtain ⟨hp, hm, body, hs, hj⟩ := momentAfter_ok hq
  obtain ⟨rfl, hsw, hP⟩ := of_decide_eq_true hd
  exact ⟨s, t, u, record, stop, p, hp, hm, (hm.sound (hs.launch hp hj)).midway.coherent, hsw, hP⟩

theorem Swapping.returns (h : Swapping y n r q s) : s.returnsOf ⟨0⟩ = .ok [(y, r), (y, q)] := by
  obtain ⟨h, -⟩ := h
  revert h
  cases s.returnsOf ⟨0⟩ <;> simp [Except.toOption]

theorem Swapping.matches (h : Swapping y n r q s) :
    (s.holdings ⟨0⟩).Matches (.var ⟨⟨1⟩, n⟩) r ∧ (s.holdings ⟨0⟩).Matches (.var ⟨⟨0⟩, n⟩) q := by
  obtain ⟨-, -, -, ha, hb⟩ := h
  obtain ⟨v, hv, hcls⟩ := any_eq_true _ _ |>.mp ha
  obtain ⟨v', hv', hcls'⟩ := any_eq_true _ _ |>.mp hb
  exact ⟨.inr ⟨_, v, rfl, hv, of_decide_eq_true hcls⟩, .inr ⟨_, v', rfl, hv', of_decide_eq_true hcls'⟩⟩

end Builder

namespace Build

/-- Two integers that are in each other's registers are exchanged. -/
theorem translateReturn_delivers_iff_integers : ∃ (s t u s' : Session) (record : FunctionRecord) (stop : ItemId)
    (p : Prototype) (r : ReturnItem) (next : Option ItemId) (code : List Instruction) (emitJump : Bool),
    prepareFunction ⟨0⟩ record stop p s = .ok () t ∧ t.Visits record.item ⟨.walk (some ⟨5⟩), u⟩ ∧
    r.operands = [.var ⟨⟨1⟩, 8⟩, .var ⟨⟨0⟩, 8⟩] ∧ u.regOf? (.var ⟨⟨1⟩, 8⟩) = some ⟨.gp, 2⟩ ∧
    u.regOf? (.var ⟨⟨0⟩, 8⟩) = some ⟨.gp, 0⟩ ∧ translateReturn ⟨5⟩ r u = .ok next s' ∧
    s'.items = (u.items.generateAll u.mark code).modify ⟨5⟩ ({ · with kind := .ret { r with emitJump } }) ∧
    DeliversPair u (.var ⟨⟨1⟩, 8⟩) (.var ⟨⟨0⟩, 8⟩) (.gpq, ⟨.gp, 0⟩) (.gpq, ⟨.gp, 2⟩) code := by
  let r : ReturnItem := { function := ⟨0⟩, operands := [.var ⟨⟨1⟩, 8⟩, .var ⟨⟨0⟩, 8⟩] }
  obtain ⟨s, t, u, record, stop, p, hp, hm, hc, hsw, hok⟩ := Builder.swapping_visited (y := .gpq) (n := 8)
    (r := ⟨.gp, 0⟩) (q := ⟨.gp, 2⟩) (P := fun u => (after? (translateReturn ⟨5⟩ r) u).isSome) (by decide +kernel)
  obtain ⟨s', hok⟩ := Option.isSome_iff_exists.mp hok
  obtain ⟨next, hr⟩ := after?_ok hok
  obtain ⟨code, emitJump, hi, hiff⟩ := translateReturn_delivers_iff (r := r) hc
    (show Prototype.sysv [] [.gpq, .gpq] = .ok _ from rfl) rfl hsw.returns rfl hsw.matches.1 hsw.matches.2 hr
  exact ⟨s, t, u, s', record, stop, p, r, next, code, emitJump, hp, hm, rfl, hsw.2.1, hsw.2.2.1, hr, hi,
    hiff.mpr fun hcross => hcross.2.2 rfl⟩

/-- Two numbers that are in each other's registers are not: one of them is lost. -/
theorem swapped_numbers_lost : ∃ (s t u s' : Session) (record : FunctionRecord) (stop : ItemId) (p : Prototype)
    (code : List Instruction), prepareFunction ⟨0⟩ record stop p s = .ok () t ∧
    t.Visits record.item ⟨.walk (some ⟨5⟩), u⟩ ∧
    emitReturnPair (.var ⟨⟨1⟩, 16⟩) (.var ⟨⟨0⟩, 16⟩) (.xmmDouble, ⟨.xmm, 0⟩) (.xmmDouble, ⟨.xmm, 1⟩) u = .ok () s' ∧
    s'.items = u.items.generateAll u.mark code ∧
    ¬ DeliversPair u (.var ⟨⟨1⟩, 16⟩) (.var ⟨⟨0⟩, 16⟩) (.xmmDouble, ⟨.xmm, 0⟩) (.xmmDouble, ⟨.xmm, 1⟩) code := by
  obtain ⟨s, t, u, record, stop, p, hp, hm, hc, hsw, hok⟩ := Builder.swapping_visited (y := .xmmDouble) (n := 16)
    (r := ⟨.xmm, 0⟩) (q := ⟨.xmm, 1⟩) (P := fun u => (after? (emitReturnPair (.var ⟨⟨1⟩, 16⟩) (.var ⟨⟨0⟩, 16⟩)
        (.xmmDouble, ⟨.xmm, 0⟩) (.xmmDouble, ⟨.xmm, 1⟩)) u).isSome) (by decide +kernel)
  obtain ⟨s', hok⟩ := Option.isSome_iff_exists.mp hok
  obtain ⟨_, hr⟩ := after?_ok hok
  obtain ⟨code, hi, hiff⟩ := emitReturnPair_delivers_iff (.of_holdings hc hsw.matches.1) (.of_holdings hc hsw.matches.2)
    (by decide) hr
  exact ⟨s, t, u, s', record, stop, p, code, hp, hm, hr, hi, fun h => hiff.mp h ⟨hsw.2.1, hsw.2.2.1, by decide⟩⟩

end Build

end Codegen
