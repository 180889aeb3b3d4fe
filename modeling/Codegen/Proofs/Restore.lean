import Codegen.Proofs.Lowering
import Codegen.Proofs.Replay
import Mathlib.Data.List.Sort

/-! Restoring a snapshot, as a sequence of effects. Whatever the allocator holds before, it has exactly the
registers and the memory variables of the snapshot afterwards. -/
namespace Codegen
open List Option Session Variable Effect Holdings RegMask Function Snapshot
variable {h : Holdings} {s s' : Session} {st : Snapshot}

attribute [ext] PerClass Snapshot

theorem Reg.mem_all : r ∈ Reg.all ↔ r.index < r.cls.count := by
  obtain ⟨c, i⟩ := r
  simp only [Reg.all, RegClass.regs, mem_flatMap, List.mem_map, mem_range, Reg.mk.injEq]
  constructor
  · rintro ⟨d, -, j, hj, rfl, rfl⟩
    exact hj
  · intro hi
    exact ⟨c, by cases c <;> decide, i, hi, rfl, rfl⟩

theorem Holdings.Usable.mem_all (hu : h.Usable r) : r ∈ Reg.all := by
  rw [Reg.mem_all]
  have hlt := hu.lt
  cases hc : r.cls with
  | mm =>
    unfold Usable Context.allocable at hu
    rw [hc] at hu
    exact lt_of_contains_firstN (by decide) hu
  | _ => exact hlt

theorem Occupants.mem_toList {o : Occupants} : (r, v) ∈ o.toList ↔ o.occupant r = some v := by
  obtain ⟨c, i⟩ := r
  simp only [toList, mem_flatMap, mem_filterMap, mem_range, map_eq_some_iff, Prod.mk.injEq, Reg.mk.injEq]
  constructor
  · rintro ⟨d, -, j, -, w, hw, ⟨rfl, rfl⟩, rfl⟩
    exact hw
  intro ho
  have hi : i < 16 := by
    by_contra hge
    simp [occupant, Vector.getElem?_eq_none (not_lt.mp hge)] at ho
  exact ⟨c, by cases c <;> decide, i, hi, v, ho, ⟨rfl, rfl⟩, rfl⟩

namespace Snapshot

theorem stateOf_eq_memory : st.stateOf v = .memory ↔ v ∈ st.memVars := by
  unfold stateOf
  by_cases hm : v ∈ st.memVars
  · simp [hm]
  · simp only [contains_eq_mem, hm, decide_false, Bool.false_eq_true, if_false, iff_false]
    split <;> simp

theorem stateOf_eq_register : st.stateOf v = .register ↔ v ∉ st.memVars ∧ ∃ r, st.occupant r = some v := by
  unfold stateOf
  by_cases hm : v ∈ st.memVars
  · simp [hm]
  simp only [contains_eq_mem, hm, decide_false, Bool.false_eq_true, if_false, not_false_eq_true, true_and]
  split
  all_goals
    rename_i hany
    simp only [List.any_eq_true, beq_iff_eq, Prod.exists, exists_eq_right, Occupants.mem_toList] at hany
  · exact iff_of_true rfl hany
  · exact iff_of_false (by decide) hany

/-- The snapshot is one of the function whose variables these are: it has them in registers of their classes,
no two in one place, and the others in memory. -/
structure Fits (st : Snapshot) (h : Holdings) : Prop where
  occupied : ∀ {r id}, st.occupant r = some id → h.Usable r ∧ ∃ v, h.vars id = some v ∧ v.cls = r.cls
  distinct : ∀ {r q id}, st.occupant r = some id → st.occupant q = some id → r = q
  memory : ∀ {id}, id ∈ st.memVars → (∃ v, h.vars id = some v) ∧ ∀ r, st.occupant r ≠ some id
  sorted : st.memVars.Pairwise (·.index < ·.index)
  changed : ∀ {r}, st.isChanged r = true → ∃ id, st.occupant r = some id

theorem Fits.congr (hst : st.Fits h) (hvars : ∀ id, (h'.vars id).map static = (h.vars id).map static)
    (hrbp : h'.allocableRbp = h.allocableRbp) : st.Fits h' := by
  have hvar : ∀ {id v}, h.vars id = some v → ∃ v', h'.vars id = some v' ∧ v'.cls = v.cls := by
    intro id v hv
    have he := hvars id
    rw [hv, map_some, map_eq_some_iff] at he
    obtain ⟨v', hv', he⟩ := he
    exact ⟨v', hv', (congrArg (·.2.2.1) he :)⟩
  refine ⟨fun ho => ?_, hst.distinct, fun hm => ?_, hst.sorted, hst.changed⟩
  · obtain ⟨hu, v, hv, hc⟩ := hst.occupied ho
    obtain ⟨v', hv', hc'⟩ := hvar hv
    refine ⟨?_, v', hv', hc'.trans hc⟩
    unfold Usable
    rwa [hrbp]
  · obtain ⟨⟨v, hv⟩, hn⟩ := hst.memory hm
    obtain ⟨v', hv', -⟩ := hvar hv
    exact ⟨⟨v', hv'⟩, hn⟩

theorem Fits.stateOf_of_occupant (hst : st.Fits h) (ho : st.occupant r = some v) : st.stateOf v = .register :=
  stateOf_eq_register.mpr ⟨fun hm => (hst.memory hm).2 r ho, r, ho⟩

end Snapshot

theorem Coherent.numbered (hc : Coherent (s.holdings f)) : s.vars.Numbered f := by
  intro id x hx hf
  exact (hc.named (holdings_vars_of_get? hx hf) :)

theorem Snapshot.Fits.kept (hst : st.Fits (s.holdings f))
    (hk : ∀ id, (s'.vars.get? id).map fixed = (s.vars.get? id).map fixed)
    (hrbp : s'.ctx.allocableRbp = s.ctx.allocableRbp) : st.Fits (s'.holdings f) := by
  refine hst.congr (fun id => ?_) hrbp
  have hfix := hk id
  unfold holdings
  cases hx : s.vars.get? id with
  | none =>
    rw [hx, map_none, map_eq_none_iff] at hfix
    simp [hfix, hx]
  | some x =>
    rw [hx, map_some, map_eq_some_iff] at hfix
    obtain ⟨y, hy, hyx⟩ := hfix
    have hfn := function_eq hyx
    have hstatic : y.static = x.static := congrArg Prod.fst hyx
    by_cases hf : x.function = f
    · simp only [hx, hy, filter_some, hfn, hf, decide_true, if_true, map_some]
      exact congrArg some hstatic
    · simp [hx, hy, hf, hfn, filter_some]

theorem Snapshot.Fits.moves (hst : st.Fits (s.holdings f)) (hm : s.Moves f may s') : st.Fits (s'.holdings f) :=
  hst.kept hm.vars.fixed (by rw [hm.ctx])

namespace Session

theorem isDirty_iff : s.isDirty r = true ↔
    ∃ id v, s.ctx.registers.occupant r = some id ∧ s.vars.get? id = some v ∧ v.changed = true := by
  unfold isDirty
  cases ho : s.ctx.registers.occupant r with
  | none => simp
  | some id => cases hv : s.vars.get? id <;> simp [hv]

theorem snapshot_isChanged : (s.snapshot f).isChanged r = true ↔ r ∈ Reg.all ∧ s.isDirty r = true := by
  have hmask : (s.snapshot f).changed.get r.cls = RegMask.ofList ((r.cls.regs.filter s.isDirty).map (·.index)) := by
    cases r.cls <;> rfl
  rw [isChanged, hmask, RegMask.contains_ofList, Reg.mem_all]
  simp only [RegClass.regs, List.mem_map, mem_filter, mem_range]
  constructor
  · rintro ⟨⟨q, ⟨⟨i, hi, rfl⟩, hd⟩, hq⟩, -⟩
    subst hq
    exact ⟨hi, hd⟩
  · rintro ⟨hi, hd⟩
    refine ⟨⟨r, ⟨⟨r.index, hi, rfl⟩, hd⟩, rfl⟩, hi.trans_le ?_⟩
    cases r.cls <;> decide

theorem memoryVars_sorted (hn : s.vars.Numbered f) : (s.memoryVars f).Pairwise (·.index < ·.index) :=
  hn.sorted fun v hv => by simp only [Bool.and_eq_true, beq_iff_eq] at hv; exact hv.1

theorem memoryVars_eq (hn : s.vars.Numbered f) (hl : l.Pairwise (·.index < ·.index))
    (h : ∀ x, (∃ v, s.vars.get? x = some v ∧ v.function = f ∧ v.state = .memory) ↔ x ∈ l) :
    s.memoryVars f = l := by
  exact (memoryVars_sorted hn).eq_of_mem_iff hl fun x => (mem_memoryVars hn).trans (h x)

theorem snapshot_fits (hc : Coherent (s.holdings f)) : (s.snapshot f).Fits (s.holdings f) where
  occupied ho := by
    obtain ⟨hu, v, hv, hr⟩ := hc.occupied ho
    exact ⟨hu, v, hv, (currentReg_eq_some.mp hr).2.2⟩
  distinct hr hq := by
    obtain ⟨-, v, hv, hvr⟩ := hc.occupied hr
    exact some.inj (hvr ▸ hc.currentReg_of_occupant hv hq)
  memory hm := by
    obtain ⟨x, hx, hf, hs⟩ := (mem_memoryVars hc.numbered).mp hm
    have hv := holdings_vars_of_get? hx hf
    refine ⟨⟨_, hv⟩, fun r ho => ?_⟩
    have hr := hc.currentReg_of_occupant hv ho
    cases hs ▸ (currentReg_eq_some.mp hr).1
  sorted := memoryVars_sorted hc.numbered
  changed hch := by
    obtain ⟨id, _, ho, -⟩ := isDirty_iff.mp (snapshot_isChanged.mp hch).2
    exact ⟨id, ho⟩

theorem snapshot_eq (hregs : s.ctx.registers.banks = st.regs)
    (hch : ∀ r, (s.snapshot f).isChanged r = true ↔ st.isChanged r = true) (hmem : s.memoryVars f = st.memVars) :
    s.snapshot f = st := by
  have hmask : ∀ c, (s.snapshot f).changed.get c = st.changed.get c := fun c => ext_contains fun i => hch ⟨c, i⟩
  have hchanged : (s.snapshot f).changed = st.changed := PerClass.ext (hmask .gp) (hmask .mm) (hmask .xmm)
  exact Snapshot.ext hregs hchanged hmem

/-- The allocator has exactly the registers and memory variables of the snapshot, and no register is newer
than its home that is not so in the snapshot. -/
structure Meets (s : Session) (f : FunctionId) (st : Snapshot) : Prop where
  registers : ∀ r, s.ctx.registers.occupant r = st.occupant r
  memory : s.memoryVars f = st.memVars
  dirty : ∀ r, s.isDirty r = true → st.isChanged r = true

end Session

namespace Effect

/-- Effects on the variables in `P` that restoring a snapshot has. Only variables that the snapshot does not
mention are given up. -/
def restores (st : Snapshot) (P : VarId → Prop) : Effect → Prop
  | acquire v | save v | spill v | load v | enter v | await v => P v
  | forget v state => P v ∧ state = .unused ∧ st.stateOf v = .unused
  | _ => False

variable {e : Effect} {id : VarId}

theorem restores.mono (hP : ∀ v, P v → Q v) (h : e.restores st P) : e.restores st Q := by
  cases e <;> first | exact h.elim | exact hP _ h | exact ⟨hP _ h.1, h.2⟩

theorem restores.changes (h : e.restores st (· = id)) (hx : x ≠ id) : x ∉ e.changes := by
  cases e <;> first
    | exact h.elim
    | (cases h; simpa [changes] using hx)
    | (cases h.1; simpa [changes] using hx)

theorem enters.restores (h : e.enters id .read) : e.restores st (· = id) := by
  cases e <;> first | exact h.elim | exact h | exact h.1 | (cases h.2)

end Effect

/-- The occupant of the register, if there is one, is that of the snapshot, and newer than its home only if
it is so in the snapshot. -/
def Holdings.Suits (h : Holdings) (st : Snapshot) (r : Reg) : Prop :=
  ∀ id, h.registers.occupant r = some id → st.occupant r = some id ∧
    ∀ v, h.vars id = some v → v.changed = true → st.isChanged r = true

theorem Holdings.Suits.of_others {id : VarId} (hs : h.Suits st r)
    (hc : Coherent h) (hc' : Coherent h') (hrest : ∀ x, x ≠ id → h'.vars x = h.vars x)
    (hid : ∀ v, h'.vars id = some v → v.currentReg ≠ some r) : h'.Suits st r := by
  intro x ho
  obtain ⟨-, v, hv, hr⟩ := hc'.occupied ho
  have hx : x ≠ id := by
    rintro rfl
    exact hid v hv hr
  rw [hrest x hx] at hv ⊢
  exact hs x (hc.occupant_of_currentReg hv hr)

namespace Build
variable {id : VarId}

section
variable (hc : Coherent (s.holdings f))
include hc

private theorem evict_ok (hv : (s.holdings f).vars id = some v)
    (hr : v.currentReg = some r) (hm : s.Moves f (restores st (· = id)) s')
    (hv' : ∃ v', (s'.holdings f).vars id = some v' ∧ v'.currentReg = none) :
    (s'.holdings f).Suits st r ∧ ∀ q, (s.holdings f).Suits st q → (s'.holdings f).Suits st q := by
  obtain ⟨v', hv', hn⟩ := hv'
  have hrest : ∀ x, x ≠ id → (s'.holdings f).vars x = (s.holdings f).vars x :=
    fun x hx => hm.vars_eq fun e he => he.changes hx
  have hout : ∀ q w, (s'.holdings f).vars id = some w → w.currentReg ≠ some q := by
    intro q w hw
    cases hv' ▸ hw
    simp [hn]
  refine ⟨fun x ho => ?_, fun q hq => hq.of_others hc (hm.coherent hc) hrest (hout q)⟩
  have hfree := hc.vacated (hm.coherent hc) (hc.occupant_of_currentReg hv hr) (hout r) hrest
  cases hfree ▸ ho

/-- Clearing a register makes it suit the snapshot, and keeps those that suit it already. -/
theorem evictFor_moves (h : evictFor st r s = .ok u s') :
    s.Moves f (restores st fun _ => True) s' ∧ (s'.holdings f).Suits st r ∧
      ∀ q, (s.holdings f).Suits st q → (s'.holdings f).Suits st q := by
  simp only [evictFor, bind_ok] at h
  obtain ⟨_, _, ⟨⟩, h⟩ := h
  have widen : ∀ {t : Session} {id : VarId}, s.Moves f (restores st (· = id)) t →
      s.Moves f (restores st fun _ => True) t :=
    fun hm => hm.mono fun e he => he.mono fun _ _ => trivial
  cases ho : s.ctx.registers.occupant r with
  | none =>
    simp only [ho] at h
    cases h
    refine ⟨.refl s, fun id hid => ?_, fun _ hq => hq⟩
    cases ho ▸ hid
  | some id =>
    simp only [ho] at h
    obtain ⟨-, v, hv, hr⟩ := hc.occupied ho
    by_cases hst : st.occupant r = some id
    · obtain ⟨x, hx, hfn, rfl⟩ := holdings_vars.mp hv
      simp only [hst, if_true, getVar_bind hx] at h
      by_cases hch : (x.changed && !st.isChanged r) = true
      · rw [if_pos hch] at h
        have hacq : (acquire id).restores st (· = id) := rfl
        have hsave : (save id).restores st (· = id) := rfl
        have hm := saveVar_moves hacq hsave hv h
        obtain ⟨t, r', slot, a, -, -, -, -, -, -, hh⟩ := saveVar_ok hacq hv h
        have hv' : (s'.holdings f).vars id = some { x.core with homeSlot := slot, changed := false } :=
          hh ▸ setVar_vars_self
        have hrest : ∀ y, y ≠ id → (s'.holdings f).vars y = (s.holdings f).vars y :=
          fun y hy => hm.vars_eq fun e he => he.changes hy
        have hself : (s'.holdings f).Suits st r := by
          intro y hy
          obtain ⟨-, w, hw, hwr⟩ := (hm.coherent hc).occupied hy
          by_cases hyi : y = id
          · subst hyi
            refine ⟨hst, fun w' hw' hch' => ?_⟩
            cases hv' ▸ hw'
            cases hch'
          · rw [hrest y hyi] at hw
            cases hc.occupant_of_currentReg hw hwr ▸ ho
            exact absurd rfl hyi
        refine ⟨widen hm, hself, fun q hq => ?_⟩
        by_cases hqr : q = r
        · exact hqr ▸ hself
        · refine hq.of_others hc (hm.coherent hc) hrest fun w hw hwq => hqr ?_
          cases hv' ▸ hw
          exact some.inj (hwq ▸ hr)
      · rw [if_neg hch] at h
        cases h
        refine ⟨.refl s, fun y hy => ?_, fun _ hq => hq⟩
        cases ho ▸ hy
        refine ⟨hst, fun w hw hwc => ?_⟩
        cases hv ▸ hw
        simpa [show x.changed = true from hwc] using hch
    · rw [if_neg hst] at h
      by_cases hun : st.stateOf id = .unused
      · rw [if_pos hun] at h
        obtain ⟨hf, hi, hh⟩ := unuseVar_ok (by decide) hv h
        have hm : s.Moves f (restores st (· = id)) s' :=
          .of_action (e := .forget id .unused) ⟨rfl, rfl, hun⟩ hf (c := []) (hh ▸ .forget hv (by decide)) hi (.inl rfl)
        have hv' : (s'.holdings f).vars id = some { v with state := .unused, reg := none, changed := false } := by
          rw [hh]
          exact setVar_vars_self
        exact ⟨widen hm, evict_ok hc hv hr hm ⟨_, hv', rfl⟩⟩
      · rw [if_neg hun] at h
        have hacq : (acquire id).restores st (· = id) := rfl
        obtain ⟨hm, slot, hv'⟩ := spillVar_moves hacq rfl hv h
        exact ⟨widen hm, evict_ok hc hv hr hm ⟨_, hv', rfl⟩⟩

section
variable (hst : st.Fits (s.holdings f)) (hsuit : ∀ q, (s.holdings f).Suits st q)
include hst hsuit

theorem absent_of_suits (ho : st.occupant r = some id) (hne : s.ctx.registers.occupant r ≠ some id) :
    s.ctx.registers.occupant r = none ∧ ∃ x, s.vars.get? id = some x ∧ x.function = f ∧ x.cls = r.cls ∧
      x.currentReg = none := by
  obtain ⟨-, v, hv, hcls⟩ := hst.occupied ho
  obtain ⟨x, hx, hfn, rfl⟩ := holdings_vars.mp hv
  refine ⟨?_, x, hx, hfn, hcls, ?_⟩
  · cases hr : s.ctx.registers.occupant r with
    | none => rfl
    | some y =>
      cases ho ▸ (hsuit r y hr).1
      exact absurd hr hne
  cases hr : x.currentReg with
  | none => rfl
  | some q =>
    have hq := hc.occupant_of_currentReg hv hr
    cases hst.distinct ho (hsuit q id hq).1
    exact absurd hq hne

/-- Filling a register brings its occupant of the snapshot there, and keeps all registers suitable. -/
theorem fillFor_moves (h : fillFor st r s = .ok u s') :
    s.Moves f (restores st fun _ => True) s' ∧ (∀ q, (s'.holdings f).Suits st q) ∧
      s'.ctx.registers.occupant r = st.occupant r ∧
      ∀ q, s.ctx.registers.occupant q = st.occupant q → s'.ctx.registers.occupant q = st.occupant q := by
  unfold fillFor at h
  cases ho : st.occupant r with
  | none =>
    simp only [ho] at h
    cases h
    refine ⟨.refl s, hsuit, ?_, fun _ hq => hq⟩
    cases hr : s.ctx.registers.occupant r with
    | none => rfl
    | some id => exact (hsuit r id hr).1 ▸ ho
  | some id =>
    simp only [ho, bind_ok] at h
    obtain ⟨_, _, ⟨⟩, h⟩ := h
    by_cases hne : s.ctx.registers.occupant r = some id
    · simp only [hne, ne_eq, not_true_eq_false, if_false] at h
      cases h
      exact ⟨.refl s, hsuit, hne, fun _ hq => hq⟩
    rw [if_pos hne] at h
    have hu := (hst.occupied ho).1
    obtain ⟨hfree, x, hx, hfn, hcls, hn⟩ := absent_of_suits hc hst hsuit ho hne
    have hv := holdings_vars_of_get? hx hfn
    have hout : x.core.state ≠ .register := by
      intro hs
      obtain ⟨q, hq, -⟩ := hc.settled hv hs
      cases hn ▸ hq
    have henter := (allocVar_free_ok hx hn hcls hu hfree).mp h
    rw [show r = ⟨x.core.cls, r.index⟩ by rw [show x.core.cls = r.cls from hcls]] at hfree hu
    obtain ⟨hm, v', hv', hr', hch⟩ := enterReg_moves hv rfl hout hfree hu henter
    rw [show (⟨x.core.cls, r.index⟩ : Reg) = r by rw [show x.core.cls = r.cls from hcls]] at hr'
    have hm : s.Moves f (restores st (· = id)) s' := hm.mono fun e he => he.restores
    have hc' := hm.coherent hc
    have hrest : ∀ y, y ≠ id → (s'.holdings f).vars y = (s.holdings f).vars y :=
      fun y hy => hm.vars_eq fun e he => he.changes hy
    have hself : s'.ctx.registers.occupant r = some id := hc'.occupant_of_currentReg hv' hr'
    refine ⟨hm.mono fun e he => he.mono fun _ _ => trivial, fun q => ?_, hself, fun q hq => ?_⟩
    · by_cases hqr : q = r
      · subst hqr
        intro y hy
        cases hself ▸ hy
        refine ⟨ho, fun w hw hwc => ?_⟩
        cases hv' ▸ hw
        rw [hch, (hc.outside hv hout).2] at hwc
        cases hwc
      · refine (hsuit q).of_others hc hc' hrest fun w hw hwq => hqr ?_
        cases hv' ▸ hw
        exact some.inj (hwq ▸ hr')
    · by_cases hqr : q = r
      · rw [hqr, hself, ho]
      refine (hc.occupant_eq hc' hrest (fun w hw => ?_) fun w hw hwq => hqr ?_).trans hq
      · cases hv ▸ hw
        simp [hn]
      · cases hv' ▸ hw
        exact some.inj (hwq ▸ hr')

end

/-- A variable that the snapshot has in no register, and that is in none, is put where the snapshot says. -/
theorem placeOutside_moves (hv : (s.holdings f).vars id = some v)
    (hout : st.stateOf id ≠ .register → v.state ≠ .register) (h : placeOutside st id s = .ok u s') :
    s.Moves f (restores st fun _ => True) s' ∧ (s'.holdings f).vars = update (s.holdings f).vars id
      (some (if st.stateOf id = .register then v else { v with state := st.stateOf id, reg := none, changed := false })) := by
  simp only [placeOutside] at h
  by_cases hreg : st.stateOf id = .register
  · simp only [hreg, ne_eq, not_true_eq_false, if_false] at h
    cases h
    exact ⟨.refl s, by rw [if_pos hreg, ← hv, update_eq_self]⟩
  rw [if_pos hreg] at h
  obtain ⟨-, rfl⟩ := modifyVar_ok.mp h
  obtain ⟨x, hx, hfn, rfl⟩ := holdings_vars.mp hv
  have hh := holdings_modifyVar hx (g := ({ · with state := st.stateOf id, reg := none, changed := false })) hfn
  have hframe : ∀ g : Variable → Variable, (∀ x, (g x).fixed = x.fixed) →
      s.Confines f { s with vars := s.vars.modify id g } := fun g hg => .of_modify ⟨rfl, rfl, .modify hg⟩ rfl hx hfn fun h => h
  have hvac : ∀ state, (s.holdings f).vacate id x.core state =
      (s.holdings f).setVar id { x.core with state, reg := none, changed := false } := by
    intro state
    unfold vacate
    rw [currentReg_of_state_ne (hout hreg)]
  refine ⟨?_, by rw [hh, if_neg hreg]; rfl⟩
  cases hto : st.stateOf id with
  | register => exact absurd hto hreg
  | unused =>
    refine .of_action (e := .forget id .unused) ⟨trivial, rfl, hto⟩ (hframe _ fun _ => rfl) (c := []) ?_ rfl (.inl rfl)
    rw [hto] at hh
    rw [hh]
    exact hvac .unused ▸ .forget hv (by decide)
  | memory =>
    cases hs : x.state with
    | register => exact absurd hs (hout hreg)
    | unused =>
      refine .of_action (e := .await id) trivial (hframe _ fun _ => rfl) (c := []) ?_ rfl (.inl rfl)
      rw [hto] at hh
      rw [hh]
      exact hvac .memory ▸ .await hv hs
    | memory =>
      refine .quiet (hframe _ fun _ => rfl) ?_ rfl
      rw [hto] at hh
      rw [hh]
      exact hvac .memory ▸ hc.vacate_memory hv hs

end

section Restore
variable (hc : Coherent (s.holdings f)) (hst : st.Fits (s.holdings f))
include hc

theorem evictAll_moves (h : Reg.all.forM (evictFor st) s = .ok u s') :
    s.Moves f (restores st fun _ => True) s' ∧ ∀ r, (s'.holdings f).Suits st r := by
  have key := forM_induct (P := fun rest t => s.Moves f (restores st fun _ => True) t ∧
    ∀ r ∈ Reg.all, r ∈ rest ∨ (t.holdings f).Suits st r) ?_ h ⟨.refl s, fun r => .inl⟩
  · obtain ⟨hm, hall⟩ := key
    refine ⟨hm, fun r id ho => ?_⟩
    exact (hall r ((hm.coherent hc).occupied ho).1.mem_all).resolve_left (by simp) id ho
  rintro r rest t t' ⟨hm, hall⟩ ht
  obtain ⟨hm', hself, hkeep⟩ := evictFor_moves (hm.coherent hc) ht
  refine ⟨hm.trans hm', fun q hq => ?_⟩
  rcases hall q hq with hq | hq
  · rcases mem_cons.mp hq with rfl | hq
    · exact .inr hself
    · exact .inl hq
  · exact .inr (hkeep q hq)

include hst

theorem fillAll_moves (hsuit : ∀ r, (s.holdings f).Suits st r) (h : Reg.all.forM (fillFor st) s = .ok u s') :
    s.Moves f (restores st fun _ => True) s' ∧ (∀ r, (s'.holdings f).Suits st r) ∧
      ∀ r, s'.ctx.registers.occupant r = st.occupant r := by
  have key := forM_induct (P := fun rest t => (s.Moves f (restores st fun _ => True) t ∧
    ∀ r, (t.holdings f).Suits st r) ∧ ∀ r ∈ Reg.all, r ∈ rest ∨ t.ctx.registers.occupant r = st.occupant r) ?_ h
    ⟨⟨.refl s, hsuit⟩, fun r => .inl⟩
  · obtain ⟨⟨hm, hsuit'⟩, hall⟩ := key
    refine ⟨hm, hsuit', fun r => ?_⟩
    by_cases hr : r ∈ Reg.all
    · exact (hall r hr).resolve_left (by simp)
    -- such a register is occupied neither now nor in the snapshot
    have hnow : s'.ctx.registers.occupant r = none := by
      rw [eq_none_iff_forall_ne_some]
      exact fun id ho => hr ((hm.coherent hc).occupied ho).1.mem_all
    have hthen : st.occupant r = none := by
      rw [eq_none_iff_forall_ne_some]
      exact fun id ho => hr (hst.occupied ho).1.mem_all
    rw [hnow, hthen]
  · rintro r rest t t' ⟨⟨hm, hsuit⟩, hall⟩ ht
    obtain ⟨hm', hsuit', hself, hkeep⟩ := fillFor_moves (hm.coherent hc) (hst.moves hm) hsuit ht
    refine ⟨⟨hm.trans hm', hsuit'⟩, fun q hq => ?_⟩
    rcases hall q hq with hq | hq
    · rcases mem_cons.mp hq with rfl | hq
      · exact .inr hself
      · exact .inl hq
    · exact .inr (hkeep q hq)

theorem placeAll_moves (hregs : ∀ r, s.ctx.registers.occupant r = st.occupant r)
    (h : (s.vars.ofFunction f).forM (placeOutside st) s = .ok u s') :
    s.Moves f (restores st fun _ => True) s' := by
  have hout : ∀ id v, (s.holdings f).vars id = some v → st.stateOf id ≠ .register → v.state ≠ .register := by
    intro id v hv hne hs
    obtain ⟨r, -, ho⟩ := hc.settled hv hs
    exact hne (hst.stateOf_of_occupant (hregs r ▸ ho))
  refine (forM_induct (P := fun rest t => (rest ⊆ s.vars.ofFunction f ∧ s.Moves f (restores st fun _ => True) t) ∧
    ∀ id v, (t.holdings f).vars id = some v → st.stateOf id ≠ .register → v.state ≠ .register) ?_ h
    ⟨⟨fun _ h => h, .refl s⟩, hout⟩).1.2
  rintro id rest t t' ⟨⟨hsub, hm⟩, hout⟩ ht
  obtain ⟨x, hx, hfn⟩ := hc.numbered.mem_ofFunction.mp (hsub mem_cons_self)
  obtain ⟨v, hv⟩ := hm.owns ⟨_, holdings_vars_of_get? hx hfn⟩
  obtain ⟨hm', hvars⟩ := placeOutside_moves (hm.coherent hc) hv (hout id v hv) ht
  refine ⟨⟨fun _ h => hsub (mem_cons_of_mem _ h), hm.trans hm'⟩, fun y w hw hne => ?_⟩
  rw [hvars] at hw
  by_cases hy : y = id
  · subst hy
    rw [update_self, if_neg hne] at hw
    cases hw
    exact hne
  · rw [update_of_ne hy] at hw
    exact hout y w hw hne

/-- Restoring a snapshot of the function ends in the registers and the memory variables of the snapshot. -/
theorem restoreState_moves (hf : s.ctx.function = some f) (h : restoreState st s = .ok u s') :
    s.Moves f (restores st fun _ => True) s' ∧ s'.Meets f st := by
  simp only [restoreState, bind_ok, compiling_ok, modifyStats_ok] at h
  obtain ⟨g, _, ⟨hg, rfl⟩, _, t1, h1, _, t2, h2, _, _, ⟨⟩, _, t3, h3, rfl⟩ := h
  cases hf ▸ hg
  obtain ⟨m1, suit1⟩ := evictAll_moves hc h1
  have c1 := m1.coherent hc
  obtain ⟨m2, suit2, regs2⟩ := fillAll_moves c1 (hst.moves m1) suit1 h2
  have c2 := m2.coherent c1
  have fit2 := hst.moves (m1.trans m2)
  have m3 := placeAll_moves c2 fit2 regs2 h3
  obtain ⟨vars, rfl, hget⟩ := placeOutside_each_ok c2.numbered h3
  have c3 := m3.coherent c2
  refine ⟨((m1.trans m2).trans m3).trans (.quiet (.of_vars ⟨rfl, rfl, .refl _⟩ rfl id) rfl rfl), regs2, ?_, fun r hd => ?_⟩
  · refine memoryVars_eq c3.numbered hst.sorted fun x => Iff.trans ?_ stateOf_eq_memory
    have hstate : ∀ y, t2.vars.get? x = some y → y.function = f → (st.place f x y).state = st.stateOf x := by
      intro y hy hfn
      refine place_state hfn fun hreg => ?_
      obtain ⟨-, r, ho⟩ := stateOf_eq_register.mp hreg
      have hr := c2.currentReg_of_occupant (holdings_vars_of_get? hy hfn) ((regs2 r).trans ho)
      exact (currentReg_eq_some.mp hr).1
    constructor
    · rintro ⟨w, hw, hfn, hs⟩
      rw [hget] at hw
      obtain ⟨y, hy, rfl⟩ := map_eq_some_iff.mp hw
      exact (hstate y hy (function_eq place_fixed ▸ hfn)).symm.trans hs
    intro hs
    obtain ⟨⟨v, hv⟩, -⟩ := fit2.memory (stateOf_eq_memory.mp hs)
    obtain ⟨y, hy, hfn, -⟩ := holdings_vars.mp hv
    refine ⟨st.place f x y, by rw [hget, hy, map_some], ?_, (hstate y hy hfn).trans hs⟩
    exact (function_eq place_fixed).trans hfn
  · obtain ⟨id, v, ho, hv, hch⟩ := isDirty_iff.mp hd
    obtain ⟨-, w, hw, -⟩ := c2.occupied ho
    obtain ⟨y, hy, hfn, rfl⟩ := holdings_vars.mp hw
    have hplace : st.place f id y = y := by
      rw [place, if_neg]
      simp [hst.stateOf_of_occupant (regs2 r ▸ ho)]
    rw [hget, hy, map_some, hplace] at hv
    cases hv
    exact (suit2 r id ho).2 _ hw hch

end Restore

section Adopt
variable (hn : s.vars.Numbered f) (hty : ∀ {id v}, (s.holdings f).vars id = some v → v.ty.cls = some v.cls)
variable (hst : st.Fits (s.holdings f))

include hst in
private theorem adopted_cases (hx : s.vars.get? id = some x) (hfn : x.function = f) :
    (∃ r, st.occupant r = some id ∧ (st.adopt f id x).currentReg = some r ∧
      (st.adopt f id x).changed = st.isChanged r) ∨
    (∀ r, st.occupant r ≠ some id) ∧ (st.adopt f id x).reg = none ∧ (st.adopt f id x).changed = false ∧
      (st.adopt f id x).state = if id ∈ st.memVars then .memory else .unused := by
  by_cases ho : ∃ r, st.occupant r = some id
  · obtain ⟨r, ho⟩ := ho
    obtain ⟨hu, v, hv, hcls⟩ := hst.occupied ho
    obtain ⟨y, hy, -, rfl⟩ := holdings_vars.mp hv
    cases hx.symm.trans hy
    rw [adopt_of_occupant hu.mem_all ho fun q hq => hst.distinct hq ho]
    exact .inl ⟨r, ho, currentReg_eq_some.mpr ⟨rfl, rfl, hcls⟩, rfl⟩
  · rw [not_exists] at ho
    rw [adopt_of_not_occupant hfn ho]
    exact .inr ⟨ho, rfl, rfl, rfl⟩

variable (hregs : s'.ctx.registers = .load st.regs) (hrbp : s'.ctx.allocableRbp = s.ctx.allocableRbp)
variable (hget : ∀ x, s'.vars.get? x = (s.vars.get? x).map (st.adopt f x))

include hget in
private theorem adopted_vars (hv : (s'.holdings f).vars id = some v) :
    ∃ x, s.vars.get? id = some x ∧ x.function = f ∧ v = (st.adopt f id x).core := by
  obtain ⟨w, hw, hfn, rfl⟩ := holdings_vars.mp hv
  rw [hget] at hw
  obtain ⟨x, hx, rfl⟩ := map_eq_some_iff.mp hw
  exact ⟨x, hx, (function_eq adopt_fixed).symm.trans hfn, rfl⟩

include hget in
private theorem adopted_of_vars (hv : (s.holdings f).vars id = some v) :
    ∃ x, s.vars.get? id = some x ∧ x.function = f ∧ s'.vars.get? id = some (st.adopt f id x) ∧
      (s'.holdings f).vars id = some (st.adopt f id x).core := by
  obtain ⟨x, hx, hfn, -⟩ := holdings_vars.mp hv
  have hw : s'.vars.get? id = some (st.adopt f id x) := by rw [hget, hx, map_some]
  exact ⟨x, hx, hfn, hw, holdings_vars_of_get? hw ((function_eq adopt_fixed).trans hfn)⟩

include hn hty hst hregs hrbp hget in
private theorem adopted_coherent : Coherent (s'.holdings f) := by
  have hadopt : ∀ {id v}, (s'.holdings f).vars id = some v → v.state = .register →
      ∃ r, st.occupant r = some id ∧ v.currentReg = some r := by
    intro id v hv hs
    obtain ⟨x, hx, hxf, rfl⟩ := adopted_vars hget hv
    rcases adopted_cases hst hx hxf with ⟨q, hq, hcur, -⟩ | ⟨-, -, -, hstate⟩
    · exact ⟨q, hq, hcur⟩
    · rw [show (st.adopt f id x).core.state = (st.adopt f id x).state from rfl, hstate] at hs
      split at hs <;> cases hs
  refine ⟨fun hv => ?_, fun {id v} hv => ?_, fun {r id} ho => ?_, fun hv hs => ?_, fun {id v} hv hs => ?_⟩
  · obtain ⟨x, hx, hxf, rfl⟩ := adopted_vars hget hv
    exact (congrArg (·.1.1) (adopt_fixed (v := x)) :).trans (hn _ x hx hxf)
  · obtain ⟨x, hx, hxf, rfl⟩ := adopted_vars hget hv
    have hty' : (st.adopt f id x).ty = x.ty := congrArg (·.1.2.1) adopt_fixed
    have hcls : (st.adopt f id x).cls = x.cls := congrArg (·.1.2.2.1) adopt_fixed
    change (st.adopt f id x).ty.cls = some (st.adopt f id x).cls
    rw [hty', hcls]
    exact (hty (holdings_vars_of_get? hx hxf) :)
  · rw [show (s'.holdings f).registers = .load st.regs from hregs] at ho
    obtain ⟨hu, v, hv, -⟩ := hst.occupied ho
    obtain ⟨x, hx, hxf, -, hw⟩ := adopted_of_vars hget hv
    refine ⟨?_, _, hw, ?_⟩
    · unfold Usable at hu ⊢
      rwa [show (s'.holdings f).allocableRbp = (s.holdings f).allocableRbp from hrbp]
    rcases adopted_cases hst hx hxf with ⟨q, hq, hcur, -⟩ | ⟨hn, -⟩
    · exact hst.distinct hq ho ▸ hcur
    · exact absurd ho (hn r)
  · obtain ⟨r, ho, hcur⟩ := hadopt hv hs
    exact ⟨r, hcur, (congrArg (·.occupant r) hregs).trans ho⟩
  · obtain ⟨x, hx, hxf, rfl⟩ := adopted_vars hget hv
    rcases adopted_cases hst hx hxf with ⟨q, -, hcur, -⟩ | ⟨-, hreg, hch, -⟩
    · exact absurd (currentReg_eq_some.mp hcur).1 hs
    · exact ⟨hreg, hch⟩

include hst hregs hget in
private theorem adopted_isChanged : (s'.snapshot f).isChanged r = true ↔ st.isChanged r = true := by
  rw [snapshot_isChanged, isDirty_iff, hregs]
  have key : ∀ {id}, st.occupant r = some id → ∃ w, s'.vars.get? id = some w ∧ w.changed = st.isChanged r := by
    intro id ho
    obtain ⟨-, v, hv, -⟩ := hst.occupied ho
    obtain ⟨x, hx, hxf, hw, -⟩ := adopted_of_vars hget hv
    rcases adopted_cases hst hx hxf with ⟨q, hq, -, hch⟩ | ⟨hn, -⟩
    · exact ⟨_, hw, hst.distinct hq ho ▸ hch⟩
    · exact absurd ho (hn r)
  constructor
  · rintro ⟨-, id, w, ho, hw, hch⟩
    obtain ⟨w', hw', hch'⟩ := key ho
    cases hw.symm.trans hw'
    exact hch'.symm.trans hch
  · intro hch
    obtain ⟨id, ho⟩ := hst.changed hch
    obtain ⟨w, hw, hch'⟩ := key ho
    exact ⟨(hst.occupied ho).1.mem_all, id, w, ho, hw, hch'.trans hch⟩

include hst hget in
private theorem adopted_memoryVars (hn : s'.vars.Numbered f) : s'.memoryVars f = st.memVars := by
  refine memoryVars_eq hn hst.sorted fun id => ?_
  constructor
  · rintro ⟨w, hw, hfn, hs⟩
    obtain ⟨x, hx, hxf, hcore⟩ := adopted_vars hget (holdings_vars_of_get? hw hfn)
    have hs : (st.adopt f id x).state = .memory := (congrArg state hcore).symm.trans hs
    rcases adopted_cases hst hx hxf with ⟨q, hq, hcur, -⟩ | ⟨-, -, -, hstate⟩
    · cases hs.symm.trans (currentReg_eq_some.mp hcur).1
    rw [hstate] at hs
    split at hs
    · assumption
    · cases hs
  · intro hm
    obtain ⟨⟨v, hv⟩, hout⟩ := hst.memory hm
    obtain ⟨x, hx, hxf, hw, -⟩ := adopted_of_vars hget hv
    rcases adopted_cases hst hx hxf with ⟨q, hq, -⟩ | ⟨-, -, -, hstate⟩
    · exact absurd hq (hout q)
    · exact ⟨_, hw, (function_eq adopt_fixed).trans hxf, by rw [hstate, if_pos hm]⟩

include hn hty hst in
theorem assignState_adopts (hf : s.ctx.function = some f) (h : assignState st s = .ok u s') :
    Coherent (s'.holdings f) ∧ s'.snapshot f = st := by
  obtain ⟨vars, rfl, -, hget⟩ := assignState_ok hf hn h
  have hc' : Coherent (({ s with vars, ctx := { s.ctx with registers := .load st.regs } } : Session).holdings f) :=
    adopted_coherent hn hty hst rfl rfl hget
  exact ⟨hc', snapshot_eq rfl (fun r => adopted_isChanged hst rfl hget) (adopted_memoryVars hst hget hc'.numbered)⟩

end Adopt

end Build

end Codegen
