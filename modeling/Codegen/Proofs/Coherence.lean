import Codegen.Proofs.Holdings

/-! Coherence of the register file with the variables: a register is occupied by a variable exactly
when the variable says so. Every effect of the allocator keeps it. -/
namespace Codegen
open List Option Variable Holdings RegMask
variable {may : Effect → Prop} {h h' : Holdings} {m : RegMask}
variable {w : Variable}

namespace RegMask

theorem lt_of_contains_firstN (hn : n < 32) (h : (firstN n).contains i = true) : i < n := by
  by_contra hge
  have hb : (firstN n).bits.toNat < 2 ^ i := by
    have hp : (2 : Nat) ^ n ≤ 2 ^ i := Nat.pow_le_pow_right (by decide) (Nat.le_of_not_lt hge)
    have h1 : (1 : Nat) ≤ 2 ^ n := Nat.one_le_two_pow
    have h32 : (2 : Nat) ^ n < 2 ^ 32 := Nat.pow_lt_pow_right (by decide) hn
    have : (firstN n).bits.toNat = 2 ^ n - 1 := by
      simp only [firstN, BitVec.toNat_sub, BitVec.toNat_shiftLeft, BitVec.toNat_ofNat, Nat.shiftLeft_eq]
      omega
    omega
  have : (firstN n).contains i = false := by
    exact Nat.testBit_lt_two_pow hb
  simp [this] at h

theorem contains_of_first? (h : m.first? = some i) : m.contains i = true := mem_toList.mp (mem_of_head? h)

theorem contains_of_firstPreferred? (h : m.firstPreferred? p = some i) : m.contains i = true := by
  unfold firstPreferred? at h
  cases hf : (m.inter p).first? with
  | some j =>
    simp only [hf, orElse_some] at h
    have := contains_of_first? (hf.trans h)
    rw [contains_inter, Bool.and_eq_true] at this
    exact this.1
  | none =>
    simp only [hf, orElse_none] at h
    exact contains_of_first? h

theorem isEmpty_of_contains (h : m.contains i = true) : m.isEmpty = false := by
  rw [← Bool.not_eq_true, isEmpty, beq_iff_eq]
  intro he
  simp [contains, he] at h

theorem exists_contains (h : m.isEmpty = false) : ∃ i, m.contains i = true := by
  by_contra hn
  have : m = empty := ext_contains fun i => by simp [not_exists.mp hn i]
  simp [this, isEmpty, empty] at h

theorem exists_first? (h : m.contains i = true) : ∃ j, m.first? = some j := by
  cases hf : m.first? with
  | some j => exact ⟨j, rfl⟩
  | none =>
    rw [first?, head?_eq_none_iff] at hf
    have hi := mem_toList.mpr h
    rw [hf] at hi
    cases hi

theorem exists_firstPreferred? (h : m.contains i = true) : ∃ j, m.firstPreferred? p = some j := by
  unfold firstPreferred?
  cases (m.inter p).first? with
  | some j => exact ⟨j, rfl⟩
  | none => exact exists_first? h

theorem first?_inter_of_diff (hm : m.isEmpty = false) (hd : (m.diff used).firstPreferred? p = none) :
    (m.inter used).first? ≠ none := by
  obtain ⟨i, hi⟩ := exists_contains hm
  by_cases hu : used.contains i = true
  · obtain ⟨j, hj⟩ := exists_first? (m := m.inter used) (i := i) (by simp [hi, hu])
    simp [hj]
  · obtain ⟨j, hj⟩ := exists_firstPreferred? (p := p) (contains_diff.mpr ⟨hi, Bool.eq_false_iff.mpr hu⟩)
    simp [hj] at hd

end RegMask

theorem RegFile.contains_used {f : RegFile} {c : RegClass} :
    (f.used c).contains i = true ↔ ∃ v, f.occupant ⟨c, i⟩ = some v := by
  rw [used, f.mirrors, isSome_iff_exists]
  rfl

namespace Holdings
variable {id : VarId}

@[simp] theorem setVar_vars_self : (h.setVar id v).vars id = some v := by simp [setVar]

theorem setVar_vars_of_ne (hx : x ≠ id) : (h.setVar id v).vars x = h.vars x := by simp [setVar, hx]

theorem setVar_vars_eq_some : (h.setVar id v).vars x = some w ↔ (x = id ∧ w = v) ∨ (x ≠ id ∧ h.vars x = some w) := by
  by_cases hx : x = id
  · subst hx
    simp [eq_comm]
  · simp [setVar_vars_of_ne hx, hx]

theorem setVar_vacate {state : VarState} : (h.setVar id w).vacate id v state = h.vacate id v state := by
  unfold vacate
  cases v.currentReg <;> simp [setVar, release]

theorem Usable.lt (hu : h.Usable r) : r.index < 16 := by
  unfold Usable Context.allocable at hu
  cases hc : r.cls with
  | gp =>
    rw [hc] at hu
    have hg : (firstN 16).contains r.index = true := by
      dsimp only at hu
      split at hu
      · exact contains_of_erase hu
      · exact contains_of_erase (contains_of_erase hu)
    exact lt_of_contains_firstN (by decide) hg
  | mm =>
    rw [hc] at hu
    exact Nat.lt_of_lt_of_le (lt_of_contains_firstN (by decide) hu) (by decide)
  | xmm =>
    rw [hc] at hu
    exact lt_of_contains_firstN (by decide) hu

end Holdings

theorem Action.vars_eq {id : VarId} (ha : Action h e c h') (hid : id ∉ e.changes) : h'.vars id = h.vars id := by
  cases ha with
  | swap | displace =>
    simp only [Effect.changes, mem_cons, not_mem_nil, or_false, not_or] at hid
    unfold exchange assign
    rw [setVar_vars_of_ne hid.1]
    exact setVar_vars_of_ne hid.2
  | spill | await | forget =>
    simp only [Effect.changes, mem_singleton] at hid
    unfold vacate
    rw [setVar_vars_of_ne hid]
    split <;> rfl
  | other => rfl
  | _ =>
    simp only [Effect.changes, mem_singleton] at hid
    exact setVar_vars_of_ne hid

theorem Run.vars_eq {id : VarId}
    (hr : Run may h c h') (hid : ∀ e, may e → id ∉ e.changes) : h'.vars id = h.vars id := by
  induction hr with
  | refl => rfl
  | step he ha _ ih => exact ih.trans (ha.vars_eq (hid _ he))

/-- What the allocator never changes about a variable. -/
def Variable.static (v : Variable) : VarId × VarType × RegClass × FunctionId × Passing :=
  (v.id, v.ty, v.cls, v.function, v.passing)

theorem Holdings.static_update {id : VarId}
    (hu : h'.vars = Function.update h.vars id (some w)) (hv : h.vars id = some v)
    (hw : w.static = v.static) (x : VarId) :
    (h'.vars x).map static = (h.vars x).map static := by
  rw [hu]
  by_cases hx : x = id
  · subst hx
    simp [hv, hw]
  · rw [Function.update_of_ne hx]

theorem Action.static_eq (ha : Action h e c h') (x : VarId) : (h'.vars x).map static = (h.vars x).map static := by
  cases ha with
  | @swap id other v w r q hv hw _ _ _ hne | @displace id other v w r q hv hw _ _ _ hne =>
    have hv' : ((h.assign r other).setVar other { w with reg := some r.index }).vars id = some v :=
      (setVar_vars_of_ne hne).trans hv
    refine (static_update rfl hv' ?_ x).trans (static_update rfl hw ?_ x) <;> rfl
  | spill hv | await hv | forget hv =>
    unfold vacate
    split <;> (refine static_update rfl hv ?_ x; rfl)
  | other => rfl
  | _ =>
    refine static_update rfl ‹_› ?_ x
    rfl

theorem Run.static_eq (hr : Run may h c h') (x : VarId) : (h'.vars x).map static = (h.vars x).map static := by
  induction hr with
  | refl => rfl
  | step _ ha _ ih => exact ih.trans (ha.static_eq x)

/-- Registers and variables agree on who is where. -/
structure Coherent (h : Holdings) : Prop where
  named : ∀ {id v}, h.vars id = some v → v.id = id
  typed : ∀ {id v}, h.vars id = some v → v.ty.cls = some v.cls
  occupied : ∀ {r id}, h.registers.occupant r = some id →
    h.Usable r ∧ ∃ v, h.vars id = some v ∧ v.currentReg = some r
  settled : ∀ {id v}, h.vars id = some v → v.state = .register →
    ∃ r, v.currentReg = some r ∧ h.registers.occupant r = some id
  outside : ∀ {id v}, h.vars id = some v → v.state ≠ .register → v.reg = none ∧ v.changed = false

namespace Coherent
variable {id other : VarId}

theorem occupant_of_currentReg (hc : Coherent h) (hv : h.vars id = some v)
    (hr : v.currentReg = some r) : h.registers.occupant r = some id := by
  obtain ⟨r', hr', ho⟩ := hc.settled hv (currentReg_eq_some.mp hr).1
  cases hr ▸ hr'
  exact ho

theorem currentReg_of_occupant (hc : Coherent h) (hv : h.vars id = some v)
    (ho : h.registers.occupant r = some id) : v.currentReg = some r := by
  obtain ⟨-, v', hv', hr⟩ := hc.occupied ho
  cases hv ▸ hv'
  exact hr

theorem withSlots (hc : Coherent h) (slots : SlotPool) : Coherent { h with slots } :=
  ⟨hc.named, hc.typed, hc.occupied, hc.settled, hc.outside⟩

section
variable (hc : Coherent h) (hv : h.vars id = some v)
include hc hv

theorem occupant_iff : h.registers.occupant r = some id ↔ v.currentReg = some r :=
  ⟨hc.currentReg_of_occupant hv, hc.occupant_of_currentReg hv⟩

theorem update (hid : w.id = v.id) (hty : w.ty = v.ty) (hcls : w.cls = v.cls)
    (hocc : ∀ p x, R.occupant p = some x ↔
      (x = id ∧ w.currentReg = some p) ∨ (x ≠ id ∧ h.registers.occupant p = some x))
    (hus : ∀ p, w.currentReg = some p → h.Usable p)
    (hin : w.state = .register → ∃ p, w.currentReg = some p)
    (hout : w.state ≠ .register → w.reg = none ∧ w.changed = false) :
    Coherent ({ h with registers := R }.setVar id w) := by
  constructor
  · intro x y hx
    rcases setVar_vars_eq_some.mp hx with ⟨rfl, rfl⟩ | ⟨-, hx⟩
    · rw [hid, hc.named hv]
    · exact hc.named hx
  · intro x y hx
    rcases setVar_vars_eq_some.mp hx with ⟨rfl, rfl⟩ | ⟨-, hx⟩
    · rw [hty, hcls, hc.typed hv]
    · exact hc.typed hx
  · intro p x ho
    rcases (hocc p x).mp ho with ⟨rfl, hp⟩ | ⟨hx, ho⟩
    · exact ⟨hus p hp, w, setVar_vars_self, hp⟩
    · obtain ⟨hu, y, hy, hp⟩ := hc.occupied ho
      exact ⟨hu, y, (setVar_vars_of_ne hx).trans hy, hp⟩
  · intro x y hx hs
    rcases setVar_vars_eq_some.mp hx with ⟨rfl, rfl⟩ | ⟨hne, hx⟩
    · obtain ⟨p, hp⟩ := hin hs
      exact ⟨p, hp, (hocc p x).mpr (.inl ⟨rfl, hp⟩)⟩
    · obtain ⟨p, hp, ho⟩ := hc.settled hx hs
      exact ⟨p, hp, (hocc p x).mpr (.inr ⟨hne, ho⟩)⟩
  · intro x y hx hs
    rcases setVar_vars_eq_some.mp hx with ⟨rfl, rfl⟩ | ⟨-, hx⟩
    · exact hout hs
    · exact hc.outside hx hs

theorem setVar (hid : w.id = v.id) (hty : w.ty = v.ty)
    (hcls : w.cls = v.cls) (hst : w.state = v.state) (hreg : w.reg = v.reg)
    (hch : v.state ≠ .register → w.changed = v.changed) : Coherent (h.setVar id w) := by
  have hcur : w.currentReg = v.currentReg := by simp [currentReg, hcls, hst, hreg]
  refine hc.update hv hid hty hcls ?_ ?_ ?_ ?_
  · intro p x
    by_cases hx : x = id
    · subst hx
      simp [hcur, hc.occupant_iff hv]
    · simp [hx]
  · intro p hp
    exact (hc.occupied (hc.occupant_of_currentReg hv (hcur ▸ hp))).1
  · intro hs
    obtain ⟨p, hp, -⟩ := hc.settled hv (hst ▸ hs)
    exact ⟨p, hcur.trans hp⟩
  · intro hs
    obtain ⟨h1, h2⟩ := hc.outside hv (hst ▸ hs)
    exact ⟨hreg.trans h1, (hch (hst ▸ hs)).trans h2⟩

theorem vacate {state : VarState} (hs : state ≠ .register) : Coherent (h.vacate id v state) := by
  have hcur : ({ v with state, reg := none, changed := false } : Variable).currentReg = none :=
    currentReg_of_state_ne hs
  unfold Holdings.vacate
  cases hr : v.currentReg with
  | none =>
    refine hc.update hv rfl rfl rfl ?_ (by simp [hcur]) (fun hs' => absurd hs' hs) fun _ => ⟨rfl, rfl⟩
    intro p x
    by_cases hx : x = id
    · subst hx
      simp [hcur, hc.occupant_iff hv, hr]
    · simp [hx]
  | some r =>
    refine hc.update hv rfl rfl rfl ?_ (by simp [hcur]) (fun hs' => absurd hs' hs) fun _ => ⟨rfl, rfl⟩
    have ho := hc.occupant_of_currentReg hv hr
    intro p x
    by_cases hp : p = r
    · subst hp
      rw [RegFile.occupant_release_self, ho, hcur]
      simp [eq_comm]
    rw [RegFile.occupant_release_of_ne _ hp, hcur]
    by_cases hx : x = id
    · subst hx
      simp [hc.occupant_iff hv, hr, Ne.symm hp]
    · simp [hx]

theorem settle (hs : v.state ≠ .register) (hf : h.registers.occupant ⟨v.cls, i⟩ = none) (hu : h.Usable ⟨v.cls, i⟩) :
    Coherent (h.settle id v i) := by
  have hcur : ({ v with state := .register, reg := some i } : Variable).currentReg = some ⟨v.cls, i⟩ := rfl
  refine hc.update hv rfl rfl rfl ?_ (by simp [hcur, hu]) (fun _ => ⟨_, hcur⟩) (absurd rfl)
  intro p x
  rw [hcur]
  by_cases hp : p = ⟨v.cls, i⟩
  · subst hp
    rw [RegFile.occupant_assign_self _ hu.lt, hf]
    simp [eq_comm]
  rw [RegFile.occupant_assign_of_ne _ hp]
  by_cases hx : x = id
  · subst hx
    simp [hc.occupant_iff hv, currentReg_of_state_ne hs, Ne.symm hp]
  · simp [hx]

theorem transfer (hr : v.currentReg = some r) (hf : h.registers.occupant ⟨v.cls, i⟩ = none) (hu : h.Usable ⟨v.cls, i⟩) :
    Coherent (h.transfer id v r i) := by
  have hst : v.state = .register := (currentReg_eq_some.mp hr).1
  have hcur : ({ v with reg := some i } : Variable).currentReg = some ⟨v.cls, i⟩ := by
    simp [currentReg, hst]
  have ho := hc.occupant_of_currentReg hv hr
  refine hc.update hv rfl rfl rfl (R := (h.registers.release r).assign ⟨v.cls, i⟩ id) ?_
    (by simp [hcur, hu]) (fun _ => ⟨_, hcur⟩) (absurd hst)
  intro p x
  rw [hcur]
  by_cases hp : p = ⟨v.cls, i⟩
  · subst hp
    rw [RegFile.occupant_assign_self _ hu.lt, hf]
    simp [eq_comm]
  rw [RegFile.occupant_assign_of_ne _ hp]
  by_cases hpr : p = r
  · subst hpr
    rw [RegFile.occupant_release_self, ho]
    simp [Ne.symm hp, eq_comm (a := id)]
  rw [RegFile.occupant_release_of_ne _ hpr]
  by_cases hx : x = id
  · subst hx
    simp [hc.occupant_iff hv, hr, Ne.symm hp, Ne.symm hpr]
  · simp [hx]

/-- Two variables of one class change places. -/
theorem exchange (hw : h.vars other = some w)
    (hr : v.currentReg = some r) (hq : w.currentReg = some q) (hcls : r.cls = q.cls)
    (hne : id ≠ other) : Coherent (h.exchange id other v w r q) := by
  have hor := hc.occupant_of_currentReg hv hr
  have hoq := hc.occupant_of_currentReg hw hq
  have hur := (hc.occupied hor).1
  have huq := (hc.occupied hoq).1
  have hrq : r ≠ q := fun e => hne (some.inj ((e ▸ hor) ▸ hoq))
  obtain ⟨hvs, -, hvc⟩ := currentReg_eq_some.mp hr
  obtain ⟨hws, -, hwc⟩ := currentReg_eq_some.mp hq
  have hv' : ({ v with reg := some q.index } : Variable).currentReg = some q :=
    currentReg_eq_some.mpr ⟨hvs, rfl, hvc.trans hcls⟩
  have hw' : ({ w with reg := some r.index } : Variable).currentReg = some r :=
    currentReg_eq_some.mpr ⟨hws, rfl, hwc.trans hcls.symm⟩
  have hocc : ∀ p, (h.exchange id other v w r q).registers.occupant p =
      if p = q then some id else if p = r then some other else h.registers.occupant p := by
    intro p
    change ((h.registers.assign r other).assign q id).occupant p = _
    by_cases hpq : p = q
    · rw [if_pos hpq, hpq, RegFile.occupant_assign_self _ huq.lt]
    rw [if_neg hpq, RegFile.occupant_assign_of_ne _ hpq]
    by_cases hpr : p = r
    · rw [if_pos hpr, hpr, RegFile.occupant_assign_self _ hur.lt]
    · rw [if_neg hpr, RegFile.occupant_assign_of_ne _ hpr]
  have hvars : ∀ x y, (h.exchange id other v w r q).vars x = some y ↔ (x = id ∧ y = { v with reg := some q.index }) ∨
      (x ≠ id ∧ x = other ∧ y = { w with reg := some r.index }) ∨
      (x ≠ id ∧ x ≠ other ∧ h.vars x = some y) := by
    intro x y
    refine setVar_vars_eq_some.trans ?_
    refine or_congr Iff.rfl ?_
    rw [← and_or_left]
    exact and_congr Iff.rfl setVar_vars_eq_some
  constructor
  · intro x y hx
    rcases (hvars x y).mp hx with ⟨rfl, rfl⟩ | ⟨-, rfl, rfl⟩ | ⟨-, -, hx⟩
    · exact (hc.named hv :)
    · exact (hc.named hw :)
    · exact hc.named hx
  · intro x y hx
    rcases (hvars x y).mp hx with ⟨rfl, rfl⟩ | ⟨-, rfl, rfl⟩ | ⟨-, -, hx⟩
    · exact (hc.typed hv :)
    · exact (hc.typed hw :)
    · exact hc.typed hx
  · intro p x ho
    rw [hocc] at ho
    split at ho
    · next hp =>
      cases ho
      exact ⟨hp ▸ huq, _, (hvars _ _).mpr (.inl ⟨rfl, rfl⟩), hp ▸ hv'⟩
    next hpq =>
    split at ho
    · next hp =>
      cases ho
      exact ⟨hp ▸ hur, _, (hvars _ _).mpr (.inr (.inl ⟨hne.symm, rfl, rfl⟩)), hp ▸ hw'⟩
    next hpr =>
    obtain ⟨hu, y, hy, hp⟩ := hc.occupied ho
    have h1 : x ≠ id := by
      rintro rfl
      cases hv ▸ hy
      exact hpr (some.inj (hp ▸ hr))
    have h2 : x ≠ other := by
      rintro rfl
      cases hw ▸ hy
      exact hpq (some.inj (hp ▸ hq))
    exact ⟨hu, y, (hvars _ _).mpr (.inr (.inr ⟨h1, h2, hy⟩)), hp⟩
  · intro x y hx hs
    rcases (hvars x y).mp hx with ⟨rfl, rfl⟩ | ⟨-, rfl, rfl⟩ | ⟨h1, h2, hx⟩
    · exact ⟨q, hv', by rw [hocc, if_pos rfl]⟩
    · exact ⟨r, hw', by rw [hocc, if_neg hrq, if_pos rfl]⟩
    obtain ⟨p, hp, ho⟩ := hc.settled hx hs
    have hpq : p ≠ q := fun e => h2 (some.inj ((e ▸ ho) ▸ hoq))
    have hpr : p ≠ r := fun e => h1 (some.inj ((e ▸ ho) ▸ hor))
    exact ⟨p, hp, by rw [hocc, if_neg hpq, if_neg hpr, ho]⟩
  · intro x y hx hs
    rcases (hvars x y).mp hx with ⟨rfl, rfl⟩ | ⟨-, rfl, rfl⟩ | ⟨-, -, hx⟩
    · exact absurd hvs hs
    · exact absurd hws hs
    · exact hc.outside hx hs

end

theorem action (hc : Coherent h) (ha : Action h e c h') : Coherent h' := by
  cases ha with
  | acquire hv _ | retire hv _ _ _ => exact (hc.withSlots _).setVar hv rfl rfl rfl rfl rfl fun _ => rfl
  | save hv hr _ | touch hv hr =>
    exact hc.setVar hv rfl rfl rfl rfl rfl fun hs => absurd (currentReg_eq_some.mp hr).1 hs
  | spill hv _ _ | await hv _ => exact hc.vacate hv (by decide)
  | forget hv hs => exact hc.vacate hv hs
  | load hv hs _ hf hu | enter hv hs hf hu | reuse hv hs hf hu => exact hc.settle hv (by simp [hs]) hf hu
  | move hv hr hf hu | shift hv hr hf hu => exact hc.transfer hv hr hf hu
  | swap hv hw hr hq hcls hne | displace hv hw hr hq hcls hne => exact hc.exchange hv hw hr hq hcls hne
  | other => exact hc

theorem run (hc : Coherent h) (hr : Run may h c h') : Coherent h' := hr.keeps (fun _ ha hc => hc.action ha) hc

theorem vacated (hc : Coherent h) (hc' : Coherent h') (ho : h.registers.occupant r = some id)
    (hid : ∀ v, h'.vars id = some v → v.currentReg ≠ some r)
    (hrest : ∀ x, x ≠ id → h'.vars x = h.vars x) : h'.registers.occupant r = none := by
  cases ho' : h'.registers.occupant r with
  | none => rfl
  | some x =>
    obtain ⟨-, y, hy, hr⟩ := hc'.occupied ho'
    by_cases hx : x = id
    · subst hx
      exact absurd hr (hid y hy)
    · have := hc.occupant_of_currentReg (hrest x hx ▸ hy) hr
      exact absurd (some.inj (this ▸ ho)) hx

theorem occupant_eq (hc : Coherent h) (hc' : Coherent h')
    (hrest : ∀ x, x ≠ id → h'.vars x = h.vars x) (hid : ∀ v, h.vars id = some v → v.currentReg ≠ some r)
    (hid' : ∀ v, h'.vars id = some v → v.currentReg ≠ some r) :
    h'.registers.occupant r = h.registers.occupant r := by
  refine ext fun x => ⟨fun ho => ?_, fun ho => ?_⟩
  · obtain ⟨-, v, hv, hr⟩ := hc'.occupied ho
    have hx : x ≠ id := by
      rintro rfl
      exact hid' v hv hr
    exact hc.occupant_of_currentReg (hrest x hx ▸ hv) hr
  · obtain ⟨-, v, hv, hr⟩ := hc.occupied ho
    have hx : x ≠ id := by
      rintro rfl
      exact hid v hv hr
    exact hc'.occupant_of_currentReg ((hrest x hx).trans hv) hr

end Coherent

end Codegen
