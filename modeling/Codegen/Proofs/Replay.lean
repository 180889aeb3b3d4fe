import Codegen.Proofs.Extension

/-! Adopting a snapshot and restoring one: what becomes of the variables of the function. -/
namespace Codegen
open List Option
variable {l : List Reg} {st : Snapshot} {v : Variable}

namespace VarTable
variable {t : VarTable}

/-- The variables of the function stand where their handles say. -/
def Numbered (t : VarTable) (f : FunctionId) : Prop :=
  ∀ id v, t.get? id = some v → v.function = f → v.id = id

theorem Kept.numbered (h : t.Kept t') (hn : t.Numbered f) : t'.Numbered f := by
  intro id v hv hf
  obtain ⟨w, hw, hwv⟩ := h.get? hv
  exact (congrArg (·.1.1) hwv :).symm.trans (hn id w hw ((Variable.function_eq hwv).trans hf))

theorem Kept.of_map {g : VarId → Variable → Variable} (hg : ∀ x v, (g x v).fixed = v.fixed)
    (ha : t'.ring = t.ring) (h : ∀ x, t'.get? x = (t.get? x).map (g x)) : t.Kept t' where
  fixed x := by
    rw [h, Option.map_map]
    exact map_congr fun v _ => hg x v
  active _ hx := by rwa [VarTable.active, ← ha]

theorem Numbered.mem_filter (hn : t.Numbered f) (hp : ∀ v, p v = true → v.function = f) :
    x ∈ (t.vars.toList.filter p).map (·.id) ↔ ∃ v, t.get? x = some v ∧ p v = true := by
  simp only [List.mem_map, List.mem_filter]
  constructor
  · rintro ⟨v, ⟨hv, hpv⟩, rfl⟩
    obtain ⟨i, hi⟩ := mem_iff_getElem?.mp hv
    have hg : t.get? ⟨i⟩ = some v := by simpa [get?] using hi
    exact ⟨v, (hn _ v hg (hp v hpv)).symm ▸ hg, hpv⟩
  · rintro ⟨v, hv, hpv⟩
    refine ⟨v, ⟨?_, hpv⟩, hn x v hv (hp v hpv)⟩
    exact mem_iff_getElem?.mpr ⟨x.index, by simpa [get?] using hv⟩

theorem Numbered.sorted (hn : t.Numbered f) (hp : ∀ v, p v = true → v.function = f) :
    ((t.vars.toList.filter p).map (·.id)).Pairwise (·.index < ·.index) := by
  have hid : ∀ i (h : i < t.vars.toList.length), p t.vars.toList[i] = true → t.vars.toList[i].id = ⟨i⟩ :=
    fun i h hi => hn ⟨i⟩ _ (by simp [get?, Array.getElem?_eq_getElem (by simpa using h)]) (hp _ hi)
  rw [pairwise_map, pairwise_filter, pairwise_iff_getElem]
  intro i j hi hj hlt hpi hpj
  rwa [hid i hi hpi, hid j hj hpj]

theorem Numbered.mem_ofFunction (hn : t.Numbered f) : x ∈ t.ofFunction f ↔ ∃ v, t.get? x = some v ∧ v.function = f := by
  rw [ofFunction, hn.mem_filter fun v => by simp]
  simp

end VarTable

namespace Snapshot

/-- A variable as it is once the snapshot is adopted for a function. -/
def adopt (st : Snapshot) (f : FunctionId) (id : VarId) (v : Variable) : Variable :=
  let dropped := if v.function = f then { v with state := .unused, reg := none, changed := false } else v
  let homed := if id ∈ st.memVars then { dropped with state := .memory } else dropped
  Reg.all.foldl
    (fun v r => if st.occupant r = some id then
      { v with state := .register, reg := some r.index, changed := st.isChanged r } else v) homed

variable {id : VarId}

private theorem foldl_occupant (st : Snapshot) (id : VarId) (l : List Reg) (v : Variable) :
    let w := l.foldl (fun v r => if st.occupant r = some id then
      { v with state := .register, reg := some r.index, changed := st.isChanged r } else v) v
    (∃ r ∈ l, st.occupant r = some id ∧
      w = { v with state := .register, reg := some r.index, changed := st.isChanged r }) ∨
    (∀ r ∈ l, st.occupant r ≠ some id) ∧ w = v := by
  induction l generalizing v with
  | nil => exact .inr ⟨by simp, rfl⟩
  | cons q l ih =>
    rw [foldl_cons]
    by_cases hq : st.occupant q = some id
    · rw [if_pos hq]
      rcases ih _ with ⟨r, hr, ho, hw⟩ | ⟨-, hw⟩
      · exact .inl ⟨r, mem_cons_of_mem q hr, ho, hw⟩
      · exact .inl ⟨q, mem_cons_self, hq, hw⟩
    · rw [if_neg hq]
      rcases ih v with ⟨r, hr, ho, hw⟩ | ⟨hn, hw⟩
      · exact .inl ⟨r, mem_cons_of_mem q hr, ho, hw⟩
      · exact .inr ⟨forall_mem_cons.mpr ⟨hq, hn⟩, hw⟩

/-- The snapshot has the variable in a register, or it says where else the variable is. -/
theorem adopt_cases (st : Snapshot) (f : FunctionId) (id : VarId) (v : Variable) :
    (∃ r ∈ Reg.all, st.occupant r = some id ∧
      st.adopt f id v = { v with state := .register, reg := some r.index, changed := st.isChanged r }) ∨
    (∀ r ∈ Reg.all, st.occupant r ≠ some id) ∧
      (v.function = f → st.adopt f id v =
        { v with state := if id ∈ st.memVars then .memory else .unused, reg := none, changed := false }) ∧
      (v.function ≠ f → st.adopt f id v = if id ∈ st.memVars then { v with state := .memory } else v) := by
  rcases foldl_occupant st id Reg.all _ with ⟨r, hr, ho, hw⟩ | ⟨hn, hw⟩
  · refine .inl ⟨r, hr, ho, hw.trans ?_⟩
    split <;> split <;> rfl
  · refine .inr ⟨hn, fun hf => hw.trans ?_, fun hf => hw.trans ?_⟩
    · split <;> rfl
    · rw [if_neg hf]

theorem adopt_of_occupant (hr : r ∈ Reg.all) (ho : st.occupant r = some id)
    (hd : ∀ q, st.occupant q = some id → q = r) :
    st.adopt f id v = { v with state := .register, reg := some r.index, changed := st.isChanged r } := by
  obtain ⟨q, -, hq, hv⟩ | ⟨hn, -⟩ := st.adopt_cases f id v
  · rwa [hd q hq] at hv
  · exact absurd ho (hn r hr)

theorem adopt_of_not_occupant (hf : v.function = f) (h : ∀ r, st.occupant r ≠ some id) : st.adopt f id v =
      { v with state := if id ∈ st.memVars then .memory else .unused, reg := none, changed := false } := by
  obtain ⟨r, -, ho, -⟩ | ⟨-, hv, -⟩ := st.adopt_cases f id v
  · exact absurd ho (h r)
  · exact hv hf

theorem adopt_of_other (hf : v.function ≠ f) (h : ∀ r, st.occupant r ≠ some id) (hm : id ∉ st.memVars) :
    st.adopt f id v = v := by
  obtain ⟨r, -, ho, -⟩ | ⟨-, -, hv⟩ := st.adopt_cases f id v
  · exact absurd ho (h r)
  · rw [hv hf, if_neg hm]

theorem adopt_fixed : (st.adopt f id v).fixed = v.fixed := by
  obtain ⟨r, -, -, hv⟩ | ⟨-, hv, hv'⟩ := st.adopt_cases f id v
  · rw [hv]
    rfl
  by_cases hf : v.function = f
  · rw [hv hf]
    rfl
  · rw [hv' hf]
    split <;> rfl

theorem adopt_state_ne_unused (hf : v.function = f) :
    (st.adopt f id v).state ≠ .unused ↔ id ∈ st.memVars ∨ ∃ r ∈ Reg.all, st.occupant r = some id := by
  obtain ⟨r, hr, ho, hv⟩ | ⟨hn, hv, -⟩ := st.adopt_cases f id v
  · exact iff_of_true (by simp [hv]) (.inr ⟨r, hr, ho⟩)
  · rw [hv hf, or_iff_left fun ⟨r, hr, ho⟩ => hn r hr ho]
    by_cases hm : id ∈ st.memVars <;> simp [hm]

/-- A variable as it is once the snapshot is restored, if it was not put into a register for that. -/
def place (st : Snapshot) (f : FunctionId) (id : VarId) (v : Variable) : Variable :=
  if v.function = f ∧ st.stateOf id ≠ .register then
    { v with state := st.stateOf id, reg := none, changed := false }
  else v

theorem place_fixed : (st.place f id v).fixed = v.fixed := by
  unfold place
  split <;> rfl

theorem place_state (hf : v.function = f) (hr : st.stateOf id = .register → v.state = .register) :
    (st.place f id v).state = st.stateOf id := by
  unfold place
  by_cases hs : st.stateOf id = .register
  · simp [hs, hr hs]
  · simp [hs, hf]

end Snapshot

namespace Build
variable {α : Type} {s : Session}

theorem modifyEach_ok {l : List α} (target : α → Option VarId) {g : α → Variable → Variable}
    {body : α → Build Unit} (hbody : ∀ a, body a = match target a with
      | some id => modifyVar id (g a)
      | none => pure ())
    (h : l.forM body s = .ok u s') :
    ∃ vars, s' = { s with vars } ∧ vars.ring = s.vars.ring ∧ ∀ x, vars.get? x =
      (s.vars.get? x).map fun v => l.foldl (fun v a => if target a = some x then g a v else v) v := by
  induction l generalizing s with
  | nil =>
    obtain rfl := forM_nil_ok.mp h
    exact ⟨s.vars, rfl, rfl, fun x => by simp⟩
  | cons a l ih =>
    obtain ⟨t, ha, hl⟩ := forM_cons_ok.mp h
    obtain ⟨vars, rfl, hact, hget⟩ := ih hl
    rw [hbody] at ha
    cases hta : target a with
    | none =>
      simp only [hta] at ha
      cases ha
      exact ⟨vars, rfl, hact, fun x => by simp [hget, hta]⟩
    | some id =>
      simp only [hta] at ha
      obtain ⟨-, rfl⟩ := modifyVar_ok.mp ha
      refine ⟨vars, rfl, hact, fun x => ?_⟩
      rw [hget]
      by_cases hx : id = x
      · subst hx
        rw [VarTable.get?_modify_self, Option.map_map]
        exact map_congr fun v _ => by simp [hta]
      · simp [VarTable.get?_modify_of_ne _ hx, hta, hx]

theorem foldl_own {target : VarId → Option VarId} {g : VarId → Variable → Variable}
    (ht : ∀ a, target a = some x → a = x) (hg : ∀ v, g x (g x v) = g x v) (l : List VarId) (v : Variable) :
    l.foldl (fun v a => if target a = some x then g a v else v) v = if x ∈ l ∧ target x = some x then g x v else v := by
  induction l generalizing v with
  | nil => simp
  | cons a l ih =>
    rw [foldl_cons, ih]
    by_cases ha : target a = some x
    · cases ht a ha
      simp [ha, hg]
    have hax : x ∈ a :: l ∧ target x = some x ↔ x ∈ l ∧ target x = some x := by
      refine and_congr_left fun hx => ⟨fun h => ?_, mem_cons_of_mem a⟩
      refine (mem_cons.mp h).resolve_left fun e => ha (e ▸ hx)
    rw [if_neg ha]
    simp only [hax]

theorem assignState_ok (hf : s.ctx.function = some f) (hn : s.vars.Numbered f) (h : assignState st s = .ok u s') :
    ∃ vars, s' = { s with vars, ctx := { s.ctx with registers := .load st.regs } } ∧
      vars.ring = s.vars.ring ∧ ∀ x, vars.get? x = (s.vars.get? x).map (st.adopt f x) := by
  simp only [assignState, forgetVars, bind_ok, compiling_ok] at h
  obtain ⟨g, _, ⟨hg, rfl⟩, _, t1, ⟨_, _, ⟨⟩, h1⟩, _, t2, h2, _, _, ⟨⟩, h3⟩ := h
  cases hf ▸ hg
  obtain ⟨vars1, rfl, ha1, hg1⟩ := modifyEach_ok some (fun _ => rfl) h1
  obtain ⟨vars2, rfl, ha2, hg2⟩ := modifyEach_ok some (fun _ => rfl) h2
  obtain ⟨vars3, rfl, ha3, hg3⟩ := modifyEach_ok st.occupant (fun _ => rfl) h3
  refine ⟨vars3, rfl, ha3.trans (ha2.trans ha1), fun x => ?_⟩
  rw [hg3, hg2, hg1, Option.map_map, Option.map_map]
  refine map_congr fun v hv => ?_
  have hmem : x ∈ s.vars.ofFunction f ↔ v.function = f := by
    rw [hn.mem_ofFunction, hv]
    simp
  have hdrop := foldl_own (x := x) (g := fun _ => ({ · with state := .unused, reg := none, changed := false }))
    (fun _ => some.inj) (fun _ => rfl) (s.vars.ofFunction f) v
  have hhome := foldl_own (x := x) (g := fun _ => ({ · with state := .memory }))
    (fun _ => some.inj) (fun _ => rfl) st.memVars
  simp only [hmem, and_true] at hdrop hhome
  simp only [Function.comp, hdrop, hhome, Snapshot.adopt]

theorem evictFor_plain [Stores E] (hD : ∀ v, st.stateOf v = .unused → D.drops v) : Plain D E A (evictFor st r) := by
  refine .bind .get fun s => ?_
  split
  · exact .pure _
  split
  · refine .bind .getVar fun v => ?_
    split
    · exact saveVar_plain
    · exact .pure _
  · split
    · rename_i hu
      exact unuseVar_plain fun _ => hD _ hu
    · exact spillVar_plain

theorem fillFor_plain (hr : r ∈ Reg.all) : Ordinary D (fillFor st r) := by
  unfold fillFor
  split
  · refine .bind .get fun s => ?_
    split
    · have hlt : ∀ r ∈ Reg.all, r.index < 32 := by decide
      exact allocVar_plain (.inl (RegMask.isEmpty_of_contains (i := r.index) (by simp [RegMask.contains_single, hlt r hr])))
    · exact .pure _
  · exact .pure _

theorem assignState_plain (hD : ∀ v, D.drops v) : Ordinary D (assignState st) := by
  refine compiling_plain.bind fun f => .bind ?_ fun _ => .bind ?_ fun _ => .bind ?_ fun _ => ?_
  · exact .bind .get fun _ => .forM fun _ => .modifyVar (fun _ => ⟨rfl, rfl⟩) fun _ => .inl (hD _)
  · exact .forM fun _ => .modifyVar (fun _ => ⟨rfl, rfl⟩) fun _ => .inl (hD _)
  · exact .context (fun _ => rfl) (fun _ _ h => h) fun _ _ _ _ => .inl trivial
  refine .forM fun r => ?_
  split
  · exact .modifyVar (fun _ => ⟨rfl, rfl⟩) fun _ => .inl (hD _)
  · exact .pure _

theorem placeOutside_plain {E : Instruction → Prop} {A : Reg → Prop} {v : VarId}
    (hD : D.drops v) : Plain D E A (placeOutside st v) := by
  unfold placeOutside
  dsimp only
  split
  · exact .modifyVar (fun _ => ⟨rfl, rfl⟩) fun _ => .inl hD
  · exact .pure _

theorem restoreState_plain (hD : ∀ v, D.drops v) : Ordinary D (restoreState st) :=
  compiling_plain.bind fun _ => .bind (.forM fun _ => evictFor_plain fun v _ => hD v) fun _ =>
    .bind (.forM_mem fun _ => fillFor_plain) fun _ => .bind .get fun _ =>
    .bind (.forM fun v => placeOutside_plain (hD v)) fun _ => .stats

theorem assignState_extending : Extending (fun _ => True) (assignState st) :=
  (assignState_plain (D := .all) fun _ => trivial).extending

theorem restoreState_extending : Extending (fun _ => True) (restoreState st) :=
  (restoreState_plain (D := .all) fun _ => trivial).extending

theorem placeOutside_each_ok (hn : s.vars.Numbered f) (h : (s.vars.ofFunction f).forM (placeOutside st) s = .ok u s') :
    ∃ vars, s' = { s with vars } ∧ ∀ x, vars.get? x = (s.vars.get? x).map (st.place f x) := by
  have hbody : ∀ a, placeOutside st a = match (if st.stateOf a ≠ .register then some a else none) with
      | some id => modifyVar id ({ · with state := st.stateOf a, reg := none, changed := false })
      | none => pure () := by
    intro a
    unfold placeOutside
    by_cases ha : st.stateOf a = .register <;> simp [ha]
  obtain ⟨vars, rfl, -, hget⟩ := modifyEach_ok _ hbody h
  refine ⟨vars, rfl, fun x => ?_⟩
  rw [hget]
  refine map_congr fun v hv => ?_
  have hmem : x ∈ s.vars.ofFunction f ↔ v.function = f := by
    rw [hn.mem_ofFunction, hv]
    simp
  rw [foldl_own ?_ fun _ => rfl]
  · simp [Snapshot.place, hmem]
  intro a ha
  split at ha
  · exact some.inj ha
  · cases ha

section
variable (hf : s.ctx.function = some f) (hn : s.vars.Numbered f)
include hf hn

theorem restoreState_ok (h : restoreState st s = .ok u s') : ∃ t vars, s.Extends (fun v => st.stateOf v = .unused) t ∧
      (∀ x, vars.get? x = (t.vars.get? x).map (st.place f x)) ∧ s' = { t with vars, stats := s'.stats } := by
  simp only [restoreState, bind_ok, compiling_ok, modifyStats_ok] at h
  obtain ⟨g, _, ⟨hg, rfl⟩, _, t1, h1, _, t, h2, _, _, ⟨⟩, _, t3, h3, rfl⟩ := h
  cases hf ▸ hg
  have hext : s.Extends (fun v => st.stateOf v = .unused) t :=
    (Plain.forM (D := .drop fun v => st.stateOf v = .unused) fun _ => evictFor_plain fun _ h => h).extending _ _ _ h1
      |>.trans ((Plain.forM_mem fun _ => fillFor_plain).extending _ _ _ h2)
  obtain ⟨vars, rfl, hget⟩ := placeOutside_each_ok (hext.vars.numbered hn) h3
  exact ⟨t, vars, hext, hget, rfl⟩

theorem assignState_live (hv : s.vars.get? x = some v) (hvf : v.function = f) (h : assignState st s = .ok u s') :
    s'.Live x ↔ x ∈ st.memVars ∨ ∃ r ∈ Reg.all, st.occupant r = some x := by
  obtain ⟨vars, rfl, -, hget⟩ := assignState_ok hf hn h
  rw [← Snapshot.adopt_state_ne_unused hvf]
  simp [Session.Live, hget, hv]

theorem restoreState_live (hv : s.vars.get? x = some v) (hvf : v.function = f)
    (hs : v.state ≠ .unused) (h : restoreState st s = .ok u s') :
    s'.Live x ↔ st.stateOf x ≠ .unused := by
  obtain ⟨t, vars, hext, hget, hs'⟩ := restoreState_ok hf hn h
  have hvars : s'.vars = vars := by rw [hs']
  obtain ⟨w, hw, hwv⟩ := hext.vars.get?_new hv
  have hwf : w.function = f := (Variable.function_eq hwv).trans hvf
  have hplace : s'.Live x ↔ (st.place f x w).state ≠ .unused := by
    simp [Session.Live, hvars, hget, hw]
  rw [hplace, Snapshot.place]
  by_cases hreg : st.stateOf x = .register
  · -- the variable was not evicted for good, since the snapshot has it
    have hlive := hext.live x (by simp [hreg]) ⟨v, hv, hs⟩
    obtain ⟨w', hw', hws⟩ := hlive
    cases hw ▸ hw'
    simp [hreg, hws]
  · simp [hreg, hwf]

end

end Build

theorem Session.mem_memoryVars {s : Session} (hn : s.vars.Numbered f) :
    x ∈ s.memoryVars f ↔ ∃ v, s.vars.get? x = some v ∧ v.function = f ∧ v.state = .memory := by
  rw [memoryVars, hn.mem_filter fun v => by simp +contextual]
  simp

end Codegen
