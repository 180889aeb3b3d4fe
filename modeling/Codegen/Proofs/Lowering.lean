import Codegen.Proofs.Allocator
import Codegen.Proofs.Program

/-! Lowering of plain instructions and of directives, as sequences of effects. -/
namespace Codegen.Build
open List Session Effect Holdings
variable {records : List AllocRecord} {s : Session}
variable {may : Effect → Prop} {id : VarId}

private theorem freeSlot_moves {x y : Variable} (hy : s.vars.get? id = some y)
    (hv : (s.holdings f).vars id = some { x with state := .unused, reg := none, changed := false })
    (h : (match y.isMemArgument, y.homeSlot with
      | false, some slot => do
        modifyVar id ({ · with homeSlot := none })
        modifyContext fun c => { c with slots := c.slots.release slot }
      | _, _ => pure () : Build Unit) s = .ok () s') : s.Moves f (retires id) s' := by
  obtain ⟨y', hy', hfn, hcore⟩ := holdings_vars.mp hv
  obtain rfl : y = y' := Option.some.inj (hy ▸ hy')
  cases hm : y.isMemArgument with
  | true =>
    simp only [hm] at h
    cases h
    exact .refl _
  | false =>
    cases hs : y.homeSlot with
    | none =>
      simp only [hm, hs] at h
      cases h
      exact .refl _
    | some slot =>
      simp only [hm, hs, bind_ok, modifyContext_ok] at h
      obtain ⟨_, t, ht, rfl⟩ := h
      obtain ⟨-, rfl⟩ := modifyVar_ok.mp ht
      have hh := holdings_modifyVar hy (g := ({ · with homeSlot := none })) hfn
      have hst : y.core.state = .unused := by rw [hcore]
      have ha : Action (s.holdings f) (.retire id) [] _ := .retire (holdings_vars_of_get? hy hfn) hst hm hs
      refine .of_action (e := .retire id) rfl (.of_modify ⟨rfl, rfl, .modify fun _ => rfl⟩ rfl hy hfn fun h => h)
        (c := []) ?_ rfl (.inl rfl)
      have hh' := congrArg (fun h : Holdings => { h with slots := h.slots.release slot }) hh
      rw [show ({ s with
          vars := s.vars.modify id ({ · with homeSlot := none })
          ctx := { s.ctx with slots := s.ctx.slots.release slot } } : Session).holdings f = _ from hh']
      exact ha

theorem retireAt_moves (hx : s.vars.get? id = some x)
    (hf : x.function = f) (h : retireAt item id s = .ok () s') :
    s.Moves f (retires id) s' ∧ (x.lastItem ≠ some item → s' = s) := by
  have hv := holdings_vars_of_get? hx hf
  simp only [retireAt, getVar_bind hx] at h
  by_cases hlast : x.lastItem = some item
  · refine ⟨?_, (absurd hlast)⟩
    simp only [hlast, if_true, bind_ok, modify_ok] at h
    obtain ⟨_, t, ht, _, _, rfl, _, _, ⟨⟩, h⟩ := h
    obtain ⟨hfr, hi, hh⟩ := unuseVar_ok (by decide) hv ht
    have hmv : s.Moves f (retires id) { t with vars := t.vars.deactivate id } :=
      .of_action (e := .forget id .unused) ⟨rfl, rfl⟩ (hfr.trans ⟨⟨rfl, rfl, .deactivate ..⟩, fun _ _ h _ => h,
      fun h => h⟩) (c := [])
        (by
          have : Action (s.holdings f) (.forget id .unused) [] ((s.holdings f).vacate id x.core .unused) :=
            .forget hv (by decide)
          rwa [← hh] at this) hi (.inl rfl)
    refine hmv.trans ?_
    have hv' : (({ t with vars := t.vars.deactivate id } : Session).holdings f).vars id =
        some { x.core with state := .unused, reg := none, changed := false } := by
      change (t.holdings f).vars id = _
      rw [hh]
      exact setVar_vars_self
    generalize ({ t with vars := t.vars.deactivate id } : Session) = u at h hv'
    split at h
    · simp only [bind_ok, getVar_ok] at h
      obtain ⟨y, _, ⟨hy, rfl⟩, h⟩ := h
      exact freeSlot_moves hy hv' h
    · cases h
      exact .refl _
  · rw [if_neg hlast] at h
    cases h
    exact ⟨.refl _, fun _ => rfl⟩

theorem retireEach_moves {α : Type} {g : α → VarId} {l : List α}
    (h : l.forM (fun a => retireAt item (g a)) s = .ok u s') (ho : ∀ a ∈ l, s.Owns f (g a)) :
    s.Moves f (fun e => ∃ a ∈ l, s.LastAt item (g a) ∧ e.retires (g a)) s' := by
  refine .loop (fun a ha t t' hmv ht => ?_) h
  obtain ⟨v, hv⟩ := hmv.owns (ho a ha)
  obtain ⟨x, hx, hf, -⟩ := holdings_vars.mp hv
  obtain ⟨hr, hother⟩ := retireAt_moves hx hf ht
  by_cases hl : x.lastItem = some item
  · have hlast : t.LastAt item (g a) := by rw [LastAt, hx, Option.bind_some, hl]
    exact hr.mono fun e he => ⟨a, ha, hmv.lastAt.mp hlast, he⟩
  · rw [hother hl]
    exact .refl _

theorem moveHome_moves (hc : Coherent (s.holdings f)) (hv : (s.holdings f).vars id = some v)
    (h : moveHome id s = .ok () s') :
    s.Moves f (homes id) s' ∧ ∃ v', (s'.holdings f).vars id = some v' ∧ v'.state = .memory := by
  obtain ⟨x, hx, hfn, rfl⟩ := holdings_vars.mp hv
  simp only [moveHome, getVar_bind hx] at h
  have hacq : (acquire id).homes id := rfl
  cases hs : x.state with
  | register =>
    simp only [hs, when_ok] at h
    obtain ⟨t, ht, hu⟩ := h
    obtain ⟨r, hr, -⟩ := hc.settled hv hs
    obtain ⟨hmv, slot, hv'⟩ := flush_moves hacq rfl hv hr ht hu
    exact ⟨hmv, _, hv', rfl⟩
  | unused =>
    simp only [hs] at h
    obtain ⟨t, slot, a, hmv, -, hvt, -, hfr, hi, hh⟩ := unuseVar_memory_ok hacq hv h
    refine ⟨hmv.trans (.of_action (e := .await id) rfl hfr (c := []) (hh ▸ .await hvt hs) hi (.inl rfl)),
      { x.core with state := .memory, reg := none, changed := false, homeSlot := slot }, ?_, rfl⟩
    rw [hh]
    exact setVar_vars_self
  | memory =>
    simp only [hs] at h
    cases h
    exact ⟨.refl _, _, hv, hs⟩

private theorem memory_homes (he : e.homes x)
    (ha : Action h e c h') (hm : ∃ y, h.vars id = some y ∧ y.state = .memory) :
    ∃ y, h'.vars id = some y ∧ y.state = .memory := by
  obtain ⟨y, hy, hs⟩ := hm
  by_cases hid : id ∈ e.changes
  · cases ha with
    | @acquire z v hv _ =>
      cases mem_singleton.mp hid
      cases hv ▸ hy
      exact ⟨_, setVar_vars_self, hs⟩
    | @spill z v _ _ hv _ _ | @await z v hv _ =>
      cases mem_singleton.mp hid
      exact ⟨_, setVar_vars_self, rfl⟩
    | _ => exact he.elim
  · exact ⟨y, (ha.vars_eq hid).trans hy, hs⟩

theorem moveHomes_moves {l : List VarId} (hc : Coherent (s.holdings f))
    (ho : ∀ id ∈ l, s.Owns f id) (h : l.forM moveHome s = .ok u s') :
    s.Moves f (fun e => ∃ id ∈ l, e.homes id) s' ∧
      ∀ id ∈ l, ∃ v, (s'.holdings f).vars id = some v ∧ v.state = .memory := by
  induction l generalizing s with
  | nil =>
    cases forM_nil_ok.mp h
    exact ⟨.refl _, by simp⟩
  | cons id rest ih =>
    obtain ⟨t, ht, h⟩ := forM_cons_ok.mp h
    obtain ⟨v, hv⟩ := ho id mem_cons_self
    obtain ⟨hmv, hmem⟩ := moveHome_moves hc hv ht
    obtain ⟨hmv', hrest⟩ := ih (hmv.coherent hc) (fun x hx => hmv.owns (ho x (mem_cons_of_mem _ hx))) h
    refine ⟨(hmv.mono fun e he => ⟨id, mem_cons_self, he⟩).trans
      (hmv'.mono fun e ⟨x, hx, he⟩ => ⟨x, mem_cons_of_mem _ hx, he⟩),
      forall_mem_cons.mpr ⟨?_, hrest⟩⟩
    obtain ⟨c, hrun, -⟩ := hmv'.run
    exact hrun.keeps (fun ⟨x, _, he⟩ ha hm => memory_homes he ha hm) hmem

theorem claimVar_moves (ho : s.Owns f id) (h : claimVar id s = .ok () s') : s.Moves f may s' := by
  obtain ⟨v, hv⟩ := ho
  obtain ⟨x, hx, hfn, -⟩ := holdings_vars.mp hv
  simp only [claimVar, bind_ok, modifyVar_ok] at h
  obtain ⟨_, _, ⟨⟩, -, rfl⟩ := h
  exact .quiet (.of_modify ⟨rfl, rfl, .modify fun _ => rfl⟩ rfl hx hfn fun h => h) (holdings_modifyVar_same hx rfl) rfl

theorem reserve_moves (h : reserve r s = .ok () s') : s.Moves f may s' := by
  unfold reserve at h
  cases hr : r.fixed with
  | none =>
    simp only [hr] at h
    cases h
    exact .refl _
  | some fixed =>
    simp only [hr, bind_ok, getVar_ok, modifyContext_ok] at h
    obtain ⟨_, _, ⟨-, rfl⟩, rfl⟩ := h
    exact .quiet (.of_vars ⟨rfl, rfl, .refl _⟩ rfl id) rfl rfl

/-- In a register, the variable is newer than its home. -/
def Dirty (h : Holdings) (id : VarId) : Prop :=
  ∀ v, h.vars id = some v → v.state = .register → v.changed = true

theorem Dirty.setVar (hd : Dirty h id)
    (hw : x = id → w.state = .register → w.changed = true) : Dirty (h.setVar x w) id := by
  intro y hy hs
  rcases setVar_vars_eq_some.mp hy with ⟨rfl, rfl⟩ | ⟨-, hy⟩
  · exact hw rfl hs
  · exact hd y hy hs

theorem Dirty.update (hd : Dirty h id)
    (hv : h.vars x = some v) (hs : w.state = v.state) (hch : w.changed = v.changed) :
    Dirty (h.setVar x w) id := by
  refine hd.setVar fun hx hw => ?_
  subst hx
  exact hch.trans (hd v hv (hs ▸ hw))

theorem Dirty.action (hd : Dirty h id) (he : e.allocates x access) (hx : x ≠ id)
    (ha : Action h e c h') : Dirty h' id := by
  cases ha with
  | save | await | forget | retire | other => exact he.elim
  | load | reuse | shift | touch => exact hd.setVar fun e => absurd (he.1 ▸ e) hx
  | enter => exact hd.setVar fun e => absurd (he ▸ e) hx
  | acquire hv _ | move hv _ _ _ => exact Dirty.update hd hv rfl rfl
  | spill => exact Dirty.setVar (by unfold release; split <;> exact hd) fun _ hs => by cases hs
  | @swap x y v w r q hv hw _ _ _ hne | @displace x y v w r q hv hw _ _ _ hne =>
    have hd' : Dirty ((h.assign r y).setVar y { w with reg := some r.index }) id := Dirty.update hd hw rfl rfl
    exact Dirty.update hd' ((setVar_vars_of_ne hne).trans hv) rfl rfl

/-- Allocate for a record, if `mask` picks it. -/
def allocIf (mask : AllocRecord → Option RegMask) (r : AllocRecord) : Build Unit :=
  match mask r with
  | some m => allocVar r.var m r.access
  | none => pure ()

/-- Allocating for the records that `mask` picks: those that write leave their variables newer than
the homes. -/
theorem allocEach_moves (hc : Coherent (s.holdings f)) (ho : ∀ r ∈ records, s.Owns f r.var)
    (hn : (records.map (·.var)).Nodup) (h : records.forM (allocIf mask) s = .ok u s') :
    s.Moves f (fun e => ∃ r ∈ records, (mask r).isSome ∧ e.allocates r.var r.access) s' ∧
      ∀ r ∈ records, (mask r).isSome → r.access.writes = true → Dirty (s'.holdings f) r.var := by
  induction records generalizing s with
  | nil =>
    cases forM_nil_ok.mp h
    exact ⟨.refl _, by simp⟩
  | cons r rest ih =>
    obtain ⟨t, ht, h⟩ := forM_cons_ok.mp h
    obtain ⟨hr, hn⟩ := nodup_cons.mp hn
    obtain ⟨v, hv⟩ := ho r mem_cons_self
    obtain ⟨hmv, hdirty⟩ : s.Moves f (fun e => (mask r).isSome ∧ e.allocates r.var r.access) t ∧
        ((mask r).isSome → r.access.writes = true → Dirty (t.holdings f) r.var) := by
      unfold allocIf at ht
      cases hm : mask r with
      | none =>
        simp only [hm] at ht
        cases ht
        exact ⟨.refl _, by simp⟩
      | some m =>
        simp only [hm] at ht
        obtain ⟨hmv, v', hv', hch⟩ := allocVar_moves hc hv ht
        refine ⟨hmv.mono fun e he => ⟨rfl, he⟩, fun _ hw y hy _ => ?_⟩
        cases hv' ▸ hy
        exact hch hw
    obtain ⟨hmv', hrest⟩ := ih (hmv.coherent hc) (fun q hq => hmv.owns (ho q (mem_cons_of_mem _ hq))) hn h
    refine ⟨(hmv.mono fun e he => ⟨r, mem_cons_self, he⟩).trans
      (hmv'.mono fun e ⟨q, hq, he⟩ => ⟨q, mem_cons_of_mem _ hq, he⟩), ?_⟩
    intro q hq hm hw
    rcases mem_cons.mp hq with rfl | hq
    · obtain ⟨c, hrun, -⟩ := hmv'.run
      refine hrun.keeps (P := fun h => Dirty h q.var) ?_ (hdirty hm hw)
      rintro h1 e c h2 ⟨p, hp, -, he⟩ ha hd
      exact hd.action he (fun hpq => hr (mem_map.mpr ⟨p, hp, hpq⟩)) ha
    · exact hrest q hq hm hw

theorem allocRecords_eq : allocRecords records = (do
    records.forM fun r => claimVar r.var
    records.forM reserve
    records.forM (allocIf (·.fixed.map .single))
    modifyContext ({ · with reserved := .all .empty })
    records.forM (allocIf fun r => if r.fixed.isNone then some .empty else none) : Build Unit) := by
  refine bind_congr fun _ => bind_congr fun _ => ?_
  congr 1
  · congr 1
    funext r
    cases hr : r.fixed <;> simp only [allocIf, hr] <;> rfl
  funext _
  refine bind_congr fun _ => ?_
  congr 1
  funext r
  cases hr : r.fixed <;> simp only [allocIf, hr] <;> rfl

theorem allocRecords_ok (h : allocRecords records s = .ok () s') :
    ∃ t1 t2 t3, records.forM (fun r => claimVar r.var) s = .ok () t1 ∧ records.forM reserve t1 = .ok () t2 ∧
      records.forM (allocIf (·.fixed.map .single)) t2 = .ok () t3 ∧
      records.forM (allocIf fun r => if r.fixed.isNone then some .empty else none)
        { t3 with ctx := { t3.ctx with reserved := .all .empty } } = .ok () s' := by
  simp only [allocRecords_eq, bind_ok] at h
  obtain ⟨_, t1, h1, _, t2, h2, _, t3, h3, _, _, ⟨⟩, h5⟩ := h
  exact ⟨t1, t2, t3, h1, h2, h3, h5⟩

section
variable (hc : Coherent (s.holdings f)) (ho : ∀ r ∈ records, s.Owns f r.var)
include hc ho

theorem allocRecords_moves (hn : (records.map (·.var)).Nodup) (h : allocRecords records s = .ok () s') :
    s.Moves f (fun e => ∃ r ∈ records, e.allocates r.var r.access) s' ∧
      ∀ r ∈ records, r.access.writes = true → Dirty (s'.holdings f) r.var := by
  obtain ⟨t1, t2, t3, h1, h2, h3, h5⟩ := allocRecords_ok h
  generalize h4 : ({ t3 with ctx := { t3.ctx with reserved := .all .empty } } : Session) = t4 at h5
  have m1 : s.Moves f (fun e => ∃ r ∈ records, e.allocates r.var r.access) t1 :=
    .loop (fun r hr _ _ hm hg => claimVar_moves (hm.owns (ho r hr)) hg) h1
  have m2 := m1.trans (.loop (fun _ _ _ _ _ => reserve_moves) h2)
  obtain ⟨m3, d3⟩ := allocEach_moves (m2.coherent hc) (fun r hr => m2.owns (ho r hr)) hn h3
  have m4 : s.Moves f (fun e => ∃ r ∈ records, e.allocates r.var r.access) t4 := by
    refine (m2.trans (m3.mono fun e ⟨r, hr, _, he⟩ => ⟨r, hr, he⟩)).trans ?_
    subst h4
    exact .quiet (.of_vars ⟨rfl, rfl, .refl _⟩ rfl id) rfl rfl
  obtain ⟨m5, d5⟩ := allocEach_moves (m4.coherent hc) (fun r hr => m4.owns (ho r hr)) hn h5
  refine ⟨m4.trans (m5.mono fun e ⟨r, hr, _, he⟩ => ⟨r, hr, he⟩), fun r hr hw => ?_⟩
  cases hr' : r.fixed with
  | none => exact d5 r hr (by simp [hr']) hw
  | some i =>
    have hd : Dirty (t4.holdings f) r.var := by
      subst h4
      exact d3 r hr (by simp [hr']) hw
    obtain ⟨c, hrun, -⟩ := m5.run
    refine hrun.keeps (P := fun h => Dirty h r.var) ?_ hd
    rintro h1 e c h2 ⟨p, hp, hpm, he⟩ ha hd
    refine hd.action he (fun hpr => ?_) ha
    obtain rfl : p = r := inj_on_of_nodup_map hn hp hr hpr
    simp [hr'] at hpm

/-- On the way every record with a fixed register has its variable there. -/
theorem allocRecords_passes
    (h : allocRecords records s = .ok () s') (hr : r ∈ records) (hn : n < 32)
    (hfix : r.fixed = some n) : ∃ w y, s.Moves f (· ≠ .other) w ∧ w.Moves f (· ≠ .other) s' ∧
      (w.holdings f).vars r.var = some y ∧ y.currentReg = some ⟨y.cls, n⟩ := by
  obtain ⟨t1, t2, t3, h1, h2, h3, h4⟩ := allocRecords_ok h
  have m2 : s.Moves f (· ≠ .other) t2 := .trans (.loop (fun r hr _ _ hm hg => claimVar_moves (hm.owns (ho r hr)) hg) h1)
    (.loop (fun _ _ _ _ _ => reserve_moves) h2)
  have halloc : ∀ {l mask} {w w' : Session}, l ⊆ records → s.Moves f (· ≠ .other) w →
      l.forM (allocIf mask) w = .ok () w' → w.Moves f (· ≠ .other) w' := by
    intro l mask w w' hl hw hg
    refine .loop (fun q hq x x' hx hg => ?_) hg
    obtain ⟨v, hv⟩ := (hw.trans hx).owns (ho q (hl hq))
    cases hm : mask q with
    | none =>
      simp only [allocIf, hm] at hg
      cases hg
      exact .refl _
    | some m =>
      simp only [allocIf, hm] at hg
      exact (allocVar_moves ((hw.trans hx).coherent hc) hv hg).1.mono fun e he => by rintro rfl; exact he
  -- the rounds of the loop around the one for the record
  obtain ⟨A, B, w, w', rfl, hA, hw, hB⟩ := forM_split h3 hr
  have m3 := m2.trans (halloc (subset_append_left ..) m2 hA)
  simp only [allocIf, hfix, Option.map_some] at hw
  obtain ⟨y, hy⟩ := m3.owns (ho r hr)
  obtain ⟨hm, y', q, hy', hq, -, hin⟩ := allocVar_within (m3.coherent hc) hy hw
  have m4 := m3.trans (hm.mono fun e he => by rintro rfl; exact he.1)
  have m5 : w'.Moves f (· ≠ .other) { t3 with ctx := { t3.ctx with reserved := .all .empty } } :=
    (halloc (fun x hx => mem_append_right _ (.tail _ hx)) m4 hB).trans (.quiet (.of_vars ⟨rfl, rfl, .refl _⟩ rfl id) rfl rfl)
  refine ⟨w', y', m4, m5.trans (halloc (Subset.refl _) (m4.trans m5) h4), hy', ?_⟩
  have hself : (RegMask.single n).contains n = true := by simp [RegMask.contains_single, hn]
  have hidx := hin (RegMask.isEmpty_of_contains hself)
  obtain ⟨-, rfl⟩ : _ ∧ n = q.index := by simpa [RegMask.contains_single] using hidx
  rw [hq, (Variable.currentReg_eq_some.mp hq).2.2]

end

end Codegen.Build

namespace Codegen

/-- The register of a variable, in the place of the variable as part of an address. -/
def AddressPart.Resolved (h : Holdings) : Option AddressPart → Option AddressPart → Prop
  | some (.var id), p => ∃ v r, h.vars id = some v ∧ v.currentReg = some r ∧ p = some (.reg r)
  | o, p => p = o

/-- The operand with registers and homes in the place of variables. -/
def Operand.Resolved (h : Holdings) : Operand → Operand → Prop
  | .var x, o => ∃ v r, h.vars x.id = some v ∧ v.currentReg = some r ∧ o = .ofReg r x.size
  | .mem m, o => ∃ base index home, AddressPart.Resolved h m.base base ∧
      AddressPart.Resolved h m.index index ∧
      (match m.homeVar with
        | some id => ∃ v a, h.vars id = some v ∧ v.home? = some a ∧ home = some a
        | none => home = m.home) ∧
      o = .mem { m with base, index, home }
  | a, o => o = a

theorem getElem?_of_forall₂ {α β : Type} {R : α → β → Prop} {l : List α} {l' : List β}
    (h : List.Forall₂ R l l') {k : Nat} {b : β} (hb : l'[k]? = some b) : ∃ a, l[k]? = some a ∧ R a b := by
  induction h generalizing k with
  | nil => cases hb
  | cons hr _ ih =>
    cases k with
    | zero =>
      cases hb
      exact ⟨_, rfl, hr⟩
    | succ k => exact ih hb

/-- Effects that give variables homes. -/
def Effect.acquires (e : Effect) : Prop := ∃ v, e = .acquire v

theorem Run.acquires (hr : Run Effect.acquires h c h') : c = [] ∧ ∀ {id v}, h.vars id = some v →
      ∃ v', h'.vars id = some v' ∧ v'.currentReg = v.currentReg ∧ v'.state = v.state ∧
        v'.changed = v.changed ∧ (∀ a, v.home? = some a → v'.home? = some a) := by
  induction hr with
  | refl => exact ⟨rfl, fun hv => ⟨_, hv, rfl, rfl, rfl, fun _ h => h⟩⟩
  | step he ha _ ih =>
    obtain ⟨x, rfl⟩ := he
    obtain ⟨rfl, ih⟩ := ih
    cases ha with
    | @acquire _ w hw hn =>
      refine ⟨rfl, fun {id v} hv => ?_⟩
      by_cases hid : id = x
      · subst hid
        cases hw ▸ hv
        obtain ⟨v', hv', hcur, hst, hch, -⟩ := ih Holdings.setVar_vars_self
        exact ⟨v', hv', hcur, hst, hch, fun a ha => by rw [hn] at ha; cases ha⟩
      · exact ih ((Holdings.setVar_vars_of_ne hid).trans hv)

theorem AddressPart.Resolved.run (hp : AddressPart.Resolved h p q) (hr : Run Effect.acquires h c h') :
    AddressPart.Resolved h' p q := by
  match p, hp with
  | some (.var id), ⟨v, r, hv, hc, hq⟩ =>
    obtain ⟨v', hv', hcur, -⟩ := hr.acquires.2 hv
    exact ⟨v', r, hv', hcur.trans hc, hq⟩
  | some (.reg _), hq | none, hq => exact hq

theorem Operand.Resolved.run
    (ho : Operand.Resolved h o o') (hr : Run Effect.acquires h c h') : Operand.Resolved h' o o' := by
  cases o with
  | var x =>
    obtain ⟨v, r, hv, hc, hq⟩ := ho
    obtain ⟨v', hv', hcur, -⟩ := hr.acquires.2 hv
    exact ⟨v', r, hv', hcur.trans hc, hq⟩
  | mem m =>
    obtain ⟨base, index, home, hb, hi, hh, hq⟩ := ho
    refine ⟨base, index, home, hb.run hr, hi.run hr, ?_, hq⟩
    cases hm : m.homeVar with
    | none => simpa only [hm] using hh
    | some id =>
      simp only [hm] at hh
      obtain ⟨v, a, hv, ha, hq⟩ := hh
      obtain ⟨v', hv', -, -, -, hhome⟩ := hr.acquires.2 hv
      exact ⟨v', a, hv', hhome a ha, hq⟩
  | reg | imm | label => exact ho

end Codegen

namespace Codegen.Build

theorem resolveAddress_ok (h : resolveAddress p s = .ok q s') (ho : ∀ id, p = some (.var id) → s.Owns f id) :
    s' = s ∧ AddressPart.Resolved (s.holdings f) p q := by
  match p, h, ho with
  | some (.var id), h, ho =>
    obtain ⟨v, hv⟩ := ho id rfl
    obtain ⟨x, hx, -, rfl⟩ := Session.holdings_vars.mp hv
    simp only [resolveAddress, getVar_bind hx] at h
    cases hr : x.currentReg with
    | none => simp only [hr, usage_ok] at h
    | some r =>
      simp only [hr, check_ok] at h
      obtain ⟨-, ⟨⟩⟩ := h
      exact ⟨rfl, x.core, r, hv, hr, rfl⟩
  | some (.reg _), h, _ | none, h, _ =>
    cases h
    exact ⟨rfl, rfl⟩

theorem resolveOperand_moves (ho : ∀ id ∈ o.vars, s.Owns f id) (h : resolveOperand o s = .ok o' s') :
    s.Moves f Effect.acquires s' ∧ Operand.Resolved (s'.holdings f) o o' := by
  cases o with
  | var x =>
    obtain ⟨v, hv⟩ := ho x.id List.mem_cons_self
    obtain ⟨y, hy, -, rfl⟩ := Session.holdings_vars.mp hv
    simp only [resolveOperand, getVar_bind hy] at h
    cases hr : y.currentReg with
    | none => simp only [hr, usage_ok] at h
    | some r =>
      simp only [hr, pure_ok] at h
      obtain ⟨rfl, rfl⟩ := h
      exact ⟨.refl _, y.core, r, hv, hr, rfl⟩
  | mem m =>
    simp only [resolveOperand, bind_ok] at h
    obtain ⟨base, _, hb, index, _, hi, home, t, hh, ⟨⟩⟩ := h
    obtain ⟨rfl, hb⟩ := resolveAddress_ok hb fun id hid =>
      ho id (List.mem_append_left _ (by simp [Mem.addressVars, hid, AddressPart.var?]))
    obtain ⟨rfl, hi⟩ := resolveAddress_ok hi fun id hid =>
      ho id (List.mem_append_left _ (by simp [Mem.addressVars, hid, AddressPart.var?]))
    unfold resolveHomePart at hh
    cases hm : m.homeVar with
    | none =>
      simp only [hm, pure_ok] at hh
      obtain ⟨rfl, rfl⟩ := hh
      exact ⟨.refl _, base, index, m.home, hb, hi, by simp only [hm], rfl⟩
    | some id =>
      simp only [hm, bind_ok] at hh
      obtain ⟨a, _, ha, ⟨⟩⟩ := hh
      obtain ⟨v, hv⟩ := ho id (List.mem_append_right _ (by simp [hm]))
      have hacq : (Effect.acquire id).acquires := ⟨id, rfl⟩
      obtain ⟨hmv, -, -, slot, hv', ha'⟩ := resolveHome_moves hacq hv ha
      obtain ⟨c, hr, -⟩ := hmv.run
      refine ⟨hmv, base, index, some a, hb.run hr, hi.run hr, ?_, rfl⟩
      simp only [hm]
      exact ⟨_, a, hv', ha', rfl⟩
  | reg | imm | label =>
    cases h
    exact ⟨.refl _, rfl⟩

theorem resolveOperands_moves (ho : ∀ o ∈ l, ∀ id ∈ o.vars, s.Owns f id)
    (h : l.mapM resolveOperand s = .ok l' s') :
    s.Moves f Effect.acquires s' ∧ List.Forall₂ (Operand.Resolved (s'.holdings f)) l l' := by
  induction l generalizing s l' with
  | nil =>
    obtain ⟨rfl, rfl⟩ := mapM_nil_ok.mp h
    exact ⟨.refl _, .nil⟩
  | cons o l ih =>
    obtain ⟨o', t, rest, h1, h2, rfl⟩ := mapM_cons_ok.mp h
    obtain ⟨m1, r1⟩ := resolveOperand_moves (ho o List.mem_cons_self) h1
    obtain ⟨m2, r2⟩ := ih (fun p hp id hid => m1.owns (ho p (List.mem_cons_of_mem _ hp) id hid)) h2
    obtain ⟨c, hr, -⟩ := m2.run
    exact ⟨m1.trans m2, .cons (r1.run hr) r2⟩

end Codegen.Build

namespace Codegen

/-- Effects of a directive about a variable. -/
def Effect.directed (id : VarId) : Directive → Effect → Prop
  | .alloc, e => e.allocates id .read
  | .spill, e | .saveAndUnuse, e => e.evicts id
  | .save, e => e = .acquire id ∨ e = .save id
  | .unuse, e => e.retires id

theorem Holdings.setVar_eq_self {h : Holdings} {id : VarId} (hv : h.vars id = some v) : h.setVar id v = h := by
  unfold setVar
  rw [← hv, Function.update_eq_self]

theorem Coherent.vacate_memory {id : VarId} (hc : Coherent h)
    (hv : h.vars id = some v) (hs : v.state = .memory) : h.vacate id v .memory = h := by
  obtain ⟨hr, hch⟩ := hc.outside hv (by simp [hs])
  have he : { v with state := .memory, reg := none, changed := false } = v := by
    cases v
    simp_all
  unfold Holdings.vacate
  rw [Variable.currentReg_of_state_ne (by simp [hs]), he]
  exact Holdings.setVar_eq_self hv

end Codegen

namespace Codegen.Build

/-- Carrying out a directive. -/
theorem applyDirective_moves (hc : Coherent (s.holdings f)) (ho : s.Owns f d.var)
    (h : applyDirective d s = .ok () s') : s.Moves f (Effect.directed d.var d.directive) s' := by
  obtain ⟨v, hv⟩ := ho
  obtain ⟨x, hx, hfn, rfl⟩ := Session.holdings_vars.mp hv
  simp only [applyDirective, getVar_bind hx] at h
  have hacq : (Effect.acquire d.var).evicts d.var := rfl
  have hspill : (Effect.spill d.var).evicts d.var := rfl
  cases hd : d.directive with
  | alloc =>
    simp only [hd] at h
    exact (allocVar_moves hc hv h).1
  | spill =>
    simp only [hd] at h
    by_cases hr : x.currentReg.isSome
    · rw [if_pos hr] at h
      exact (spillVar_moves hacq hspill hv h).1
    rw [if_neg hr] at h
    cases h
    exact .refl _
  | save =>
    simp only [hd] at h
    by_cases hr : (x.currentReg.isSome && x.changed) = true
    · rw [if_pos hr] at h
      exact saveVar_moves (.inl rfl) (.inr rfl) hv h
    rw [if_neg hr] at h
    cases h
    exact .refl _
  | saveAndUnuse =>
    simp only [hd, when_ok] at h
    obtain ⟨t, ht, h⟩ := h
    have hidle : x.state ≠ .register → t = s := fun hs => by
      rw [Variable.currentReg_of_state_ne hs] at ht
      simpa using ht
    cases hs : x.state with
    | register =>
      obtain ⟨r, hr, -⟩ := hc.settled hv hs
      simp only [hs, show x.currentReg = some r from hr, Option.isSome_some, Bool.true_and] at ht h
      exact (flush_moves hacq hspill hv hr ht h).1
    | memory =>
      cases hidle (by simp [hs])
      simp only [hs] at h
      obtain ⟨t, slot, a, hmv, -, hvt, -, hfr, hi, hh⟩ := unuseVar_memory_ok hacq hv h
      rw [(hmv.coherent hc).vacate_memory hvt hs] at hh
      exact hmv.trans (.quiet hfr hh hi)
    | unused =>
      cases hidle (by simp [hs])
      simp only [hs] at h
      cases h
      exact .refl _
  | unuse =>
    simp only [hd] at h
    obtain ⟨hfr, hi, hh⟩ := unuseVar_ok (by decide) hv h
    refine .of_action (e := .forget d.var .unused) ⟨rfl, rfl⟩ hfr (c := []) ?_ hi (.inl rfl)
    rw [hh]
    exact .forget hv (by decide)

end Codegen.Build
