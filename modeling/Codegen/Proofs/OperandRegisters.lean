import Codegen.Proofs.Moments
import Mathlib.Data.List.Pairwise

/-! Bringing variables into registers. What is done for one variable keeps the values of all, and what is done for an
instruction has all its operands in registers at once, where the hardware wants them. -/
namespace Codegen
open List Build Option Session Variable RegMask VarTable Instruction
variable {access : Access} {s : Session}

theorem Effect.allocates.loses {e : Effect} {id : VarId} (h : e.allocates id access) (hl : e.loses y) :
    y = id ∧ access.reads = false := by
  cases e with
  | forget => exact h.elim
  | reuse | shift | displace =>
    obtain ⟨rfl, rfl⟩ := h
    exact ⟨hl, rfl⟩
  | _ => exact hl.elim

namespace Build
variable {id : VarId} {mask : RegMask}

/-- Allocating one variable keeps every value. Let a coherent allocator agree with a machine on where the values of the
variables are, and let no two variables share a home. If a variable is brought into a register, then into an allocable one,
and into one of the mask unless the mask is empty. The emitted code takes the machine to one that agrees with the allocator
on the values of all other variables, and on that of the variable itself if the access reads it. A variable that was in a
register is still in one, or it is in memory and its value in its home. -/
theorem allocVar_keeps_values {w : Nat} {m : Place → BitVec w} {σ : VarId → Option (BitVec w)}
    (hc : Coherent (s.holdings f)) (hp : (s.holdings f).Apart) (ho : s.Owns f id)
    (hg : Agree (fun _ => True) (s.holdings f) m σ) (h : allocVar id mask access s = .ok () s') :
    ∃ v r code m', (s'.holdings f).vars id = some v ∧ v.currentReg = some r ∧
      (s.ctx.allocable r.cls).contains r.index = true ∧ (mask.isEmpty = false → mask.contains r.index = true) ∧
      s'.items = s.items.generateAll s.mark code ∧ Instruction.execAll code m = some m' ∧
      Coherent (s'.holdings f) ∧ (s'.holdings f).Apart ∧
      Agree (fun y => y = id → access.reads = true) (s'.holdings f) m' σ ∧
      ∀ y u q, (s.holdings f).vars y = some u → u.currentReg = some q → y ≠ id →
        ∃ u', (s'.holdings f).vars y = some u' ∧ (u'.state = .register ∨
          u'.state = .memory ∧ ∀ x, σ y = some x → ∃ a, u'.home? = some a ∧ m' (.home a) = x) := by
  obtain ⟨v₀, hv₀⟩ := ho
  obtain ⟨hm, v, r, hv, hr, -, hmask⟩ := allocVar_within hc hv₀ h
  obtain ⟨code, hrun, hi⟩ := hm.run
  have hc' := hm.coherent hc
  obtain ⟨m', hexec, hg'⟩ : ∃ m', Instruction.execAll code m = some m' ∧
      Agree (fun y => y = id → access.reads = true) (s'.holdings f) m' σ :=
    Agree.run hc hp hrun (fun h => h.1) (fun e y he hy hlive => by
      obtain ⟨hy, hreads⟩ := he.1.loses hy
      rw [hlive hy] at hreads
      cases hreads) (hg.mono fun _ _ => trivial)
  refine ⟨v, r, code, m', hv, hr, hm.usable.mp (hc'.occupied (hc'.occupant_of_currentReg hv hr)).1, hmask, hi, hexec, hc',
    hp.run hrun, hg', fun y u q hu hq hy => ?_⟩
  obtain ⟨u', hu'⟩ := hm.owns ⟨u, hu⟩
  obtain ⟨z, hz, -, rfl⟩ := Session.holdings_vars.mp hu
  obtain ⟨z', hz', -, rfl⟩ := Session.holdings_vars.mp hu'
  refine ⟨_, hu', ?_⟩
  -- no variable falls out of use
  have hlive : z'.state ≠ .unused := by
    have hext := (allocVar_plain (D := .keep) (.inr trivial)).extending _ _ _ h
    have hreg : z.state = .register := (Variable.currentReg_eq_some.mp hq).1
    obtain ⟨x, hx, hl⟩ := hext.live y (fun h => h) ⟨z, hz, by simp [hreg]⟩
    cases hx.symm.trans hz'
    exact hl
  cases hs : z'.state with
  | unused => exact absurd hs hlive
  | register => exact .inl hs
  | memory =>
    refine .inr ⟨hs, fun x hx => ?_⟩
    obtain ⟨z₂, hz₂, hh⟩ := hg' y x (fun h => absurd h hy) hx
    cases hu'.symm.trans hz₂
    obtain ⟨p, hp, hval⟩ := hh.here
    rw [Variable.place?, show z'.core.state = .memory from hs] at hp
    obtain ⟨a, ha, rfl⟩ := Option.map_eq_some_iff.mp hp
    exact ⟨a, ha, hval⟩

/-- The first argument of two goes to the register of the second, which takes its place. Both keep their values. -/
theorem allocVar_keeps_values_swapped : ∃ (s s' : Session) (code : List Instruction) (m m' : Place → BitVec 8),
    allocVar ⟨0⟩ (.single Gp.rsi) .read s = .ok () s' ∧ s'.items = s.items.generateAll s.mark code ∧
      Instruction.execAll code m = some m' ∧ s'.ctx.registers.occupant (.gp Gp.rdi) = some ⟨1⟩ ∧
      m' (.reg (.gp Gp.rsi)) = 7 ∧ m' (.reg (.gp Gp.rdi)) = 9 := by
  let f : FunctionId := ⟨0⟩
  let calls : List Builder.Call := [.newFunction [.gpq, .gpq] [] {}, .endFunction]
  obtain ⟨⟨s, record, stop, p, t⟩, hq, hd⟩ := Option.any_eq_true _ _ |>.mp
    (show (Builder.prepareFirst calls).any (fun q => (after? (q.record.args.forM receiveArg) q.after).any fun u =>
      decide ((⟨0⟩ : VarId) ∈ q.record.args ∧ (⟨1⟩ : VarId) ∈ q.record.args) &&
        (after? (allocVar ⟨0⟩ (.single Gp.rsi) .read) u).any fun u' => decide
          (u'.ctx.registers.occupant (.gp Gp.rsi) = some ⟨0⟩ ∧ u'.ctx.registers.occupant (.gp Gp.rdi) = some ⟨1⟩)) = true
      by decide +kernel)
  obtain ⟨hprep, body, hs⟩ := Builder.prepareFirst_ok hq
  obtain ⟨hc, hapart, hidle⟩ := hs.prepared hprep
  have hpasses := hs.passes_prepared hprep
  obtain ⟨u, hu, hd⟩ := Option.any_eq_true _ _ |>.mp hd
  obtain ⟨_, hu⟩ := after?_ok hu
  simp only [Bool.and_eq_true, decide_eq_true_eq] at hd
  obtain ⟨⟨harg₀, harg₁⟩, hd⟩ := hd
  obtain ⟨u', hu', hd⟩ := Option.any_eq_true _ _ |>.mp hd
  obtain ⟨_, hu'⟩ := after?_ok hu'
  obtain ⟨h₀, h₁⟩ := of_decide_eq_true hd
  have hrec := Session.Received.all hc hidle hpasses hu
  obtain ⟨_, hrun, -⟩ := hrec.moves.run
  obtain ⟨m, harr⟩ := hpasses.exists_arrives (w := 8) fun v => if v = ⟨0⟩ then 7 else 9
  obtain ⟨x, _, hx, hxf, -⟩ := hpasses.arrives _ harg₀
  obtain ⟨_, _, code, m', -, -, -, -, hi, hexec, hc', -, hg, -⟩ := allocVar_keeps_values (hrec.moves.coherent hc)
    (hapart.run hrun) (hrec.moves.owns ⟨_, Session.holdings_vars_of_get? hx hxf⟩) (hrec.agree hpasses harr) hu'
  have hval : ∀ v r, v ∈ record.args → u'.ctx.registers.occupant r = some v → m' (.reg r) = if v = ⟨0⟩ then 7 else 9 := by
    intro v r hv hr
    obtain ⟨y, hy, hh⟩ := hg v _ (fun _ => rfl) (if_pos hv)
    exact hh.in_reg (hc'.currentReg_of_occupant hy hr)
  exact ⟨u, u', code, m, m', hu', hi, hexec, h₁, hval _ _ harg₀ h₀, hval _ _ harg₁ h₁⟩

end Build

namespace Session
variable {id : VarId}

/-- The variable is marked as an operand of the current item. -/
def Claimed (s : Session) (id : VarId) : Prop := ∃ x, s.vars.get? id = some x ∧ x.workOffset = some s.ctx.currentOffset

theorem Claimed.kept (h : s.Claimed id) (hm : s.MarksOnly C t) (hid : ¬ C id)
    (ho : t.ctx.currentOffset = s.ctx.currentOffset) : t.Claimed id := by
  obtain ⟨x, hx, hw⟩ := h
  have hmap := hm id hid
  rw [hx, map_some] at hmap
  obtain ⟨y, hy, hyx⟩ := map_eq_some_iff.mp hmap
  exact ⟨y, hy, by rw [hyx, hw, ho]⟩

end Session

namespace Build
variable {id : VarId} {mask : RegMask} {records : List AllocRecord}

theorem allocVar_claimed (hy : s.Claimed y) (h : allocVar id mask access s = .ok () s') : s'.Claimed y := by
  have hp : Ordinary .keep (allocVar id mask access) := allocVar_plain (.inr trivial)
  refine hy.kept (hp.undergoes _ _ _ h).works (fun h => h) ?_
  rw [(hp.gains _ _ _ h).1.ctx]

theorem allocVar_leaves (hc : Coherent (s.holdings f))
    (hv : (s.holdings f).vars id = some v) (h : allocVar id mask access s = .ok () s') (hy : y ≠ id)
    (hn : ¬ s.Yields v.cls mask y) (hp : s.ctx.registers.occupant p = some y) :
    s'.ctx.registers.occupant p = some y := by
  obtain ⟨hm, -⟩ := allocVar_within hc hv h
  obtain ⟨-, x, hx, hr⟩ := hc.occupied hp
  have hsame : (s'.holdings f).vars y = (s.holdings f).vars y := hm.vars_eq fun e he hch => (he.2 y hch).elim hy hn
  exact (hm.coherent hc).occupant_of_currentReg (hsame.trans hx) hr

/-- The operands of the current instruction while they are brought into registers: those that are `done` are in theirs. -/
structure Placing (f : FunctionId) (records : List AllocRecord) (done : AllocRecord → Prop) (u : Session) : Prop where
  coherent : Coherent (u.holdings f)
  owned : ∀ r ∈ records, ∃ v, (u.holdings f).vars r.var = some v ∧ ∀ n, r.fixed = some n → v.cls = .gp ∧ n < 32
  claimed : ∀ r ∈ records, u.Claimed r.var
  placed : ∀ r ∈ records, done r → ∃ p, u.ctx.registers.occupant p = some r.var ∧ ∀ n, r.fixed = some n → p = .gp n

namespace Placing
variable {done done' : AllocRecord → Prop}

theorem mono (h : Placing f records done u) (hd : ∀ q ∈ records, done' q → done q) : Placing f records done' u :=
  { h with placed := fun q hq hq' => h.placed q hq (hd q hq hq') }

theorem alloc (h : Placing f records done u) (hn : (records.map (·.var)).Nodup) (hr : r ∈ records)
    (hmask : ∀ n, r.fixed = some n → mask = .single n)
    (hstay : ∀ q ∈ records, done q → q ≠ r → ∀ v, (u.holdings f).vars r.var = some v → ¬ u.Yields v.cls mask q.var)
    (ha : allocVar r.var mask access u = .ok () u') : Placing f records (fun q => done q ∨ q = r) u' := by
  obtain ⟨v, hv, hfix⟩ := h.owned r hr
  obtain ⟨hm, v', p, hv', hp, -, hin⟩ := allocVar_within h.coherent hv ha
  have hc' := hm.coherent h.coherent
  refine ⟨hc', fun q hq => ?_, fun q hq => allocVar_claimed (h.claimed q hq) ha, fun q hq hd => ?_⟩
  · obtain ⟨x, hx, hxf⟩ := h.owned q hq
    obtain ⟨y, hy, hcls⟩ := hm.vars.cls_eq hx
    exact ⟨y, hy, (hcls ▸ hxf)⟩
  by_cases hqr : q = r
  · subst hqr
    refine ⟨p, hc'.occupant_of_currentReg hv' hp, fun n hn => ?_⟩
    obtain ⟨hcls, hlt⟩ := hfix n hn
    cases hmask n hn
    have hone := hin (isEmpty_of_contains (i := n) (by simp [contains_single, hlt]))
    simp only [contains_single, Bool.and_eq_true, decide_eq_true_eq] at hone
    obtain ⟨y, hy, hycls⟩ := hm.vars.cls_eq hv
    cases hy ▸ hv'
    obtain ⟨-, -, hpc⟩ := currentReg_eq_some.mp hp
    cases p
    cases hone.2
    cases hpc ▸ hycls.trans hcls
    rfl
  · have hd := hd.resolve_right hqr
    obtain ⟨p, hp, hpf⟩ := h.placed q hq hd
    have hne : q.var ≠ r.var := fun he => hqr (inj_on_of_nodup_map hn hq hr he)
    exact ⟨p, allocVar_leaves h.coherent hv ha hne (hstay q hq hd hqr v hv) hp, hpf⟩

/-- The operands with fixed registers. One that is in its register is not asked for it. -/
theorem fixed (hn : (records.map (·.var)).Nodup) (hd : (records.filterMap (·.fixed)).Nodup)
    (h : Placing f records (fun _ => False) u) (hr : records.forM (allocIf (·.fixed.map .single)) u = .ok () u') :
    Placing f records (·.fixed.isSome = true) u' := by
  have h' := forM_induct (P := fun rest t => rest ⊆ records ∧ Placing f records (fun q => q.fixed.isSome ∧ q ∉ rest) t) ?_ hr
    ⟨fun _ h => h, h.mono fun q hq hq' => hq'.2 hq⟩
  · exact h'.2.mono fun q _ hq => ⟨hq, by simp⟩
  rintro r rest t t' ⟨hsub, ht⟩ ha
  obtain ⟨hmem, hsub⟩ := cons_subset.mp hsub
  refine ⟨hsub, ?_⟩
  cases hf : r.fixed with
  | none =>
    simp only [allocIf, hf, map_none] at ha
    cases ha
    refine ht.mono fun q _ hq => ⟨hq.1, fun hm => ?_⟩
    rcases mem_cons.mp hm with rfl | hm
    · simp [hf] at hq
    · exact hq.2 hm
  | some n =>
    simp only [allocIf, hf, map_some] at ha
    refine (ht.alloc hn hmem (fun k hk => ?_) (fun q hq hdone hqr v hv hy => hqr ?_) ha).mono fun q _ hq => ?_
    · cases hf ▸ hk
      rfl
    · -- a register that both are bound to
      obtain ⟨x, hx, hxf⟩ := ht.owned r hmem
      cases hx ▸ hv
      obtain ⟨hcls, hlt⟩ := hxf n hf
      obtain ⟨k, hk⟩ := isSome_iff_exists.mp hdone.1
      obtain ⟨p, hp, hpf⟩ := ht.placed q hq hdone
      cases hpf k hk
      rw [Session.Yields, if_neg (by simp [RegMask.isEmpty_of_contains (i := n), RegMask.contains_single, hlt])] at hy
      obtain ⟨i, hi, ho⟩ := hy
      simp only [RegMask.contains_single, Bool.and_eq_true, decide_eq_true_eq] at hi
      obtain ⟨-, z, hz, hzp⟩ := ht.coherent.occupied hp
      have hzi := ht.coherent.currentReg_of_occupant hz ho
      rw [hzp, hcls] at hzi
      obtain rfl : k = n := by
        cases hzi
        exact hi.2.symm
      have : Std.Symm fun a b : AllocRecord => ∀ x, a.fixed = some x → ∀ y, b.fixed = some y → x ≠ y :=
        ⟨fun a b hab x hx y hy he => hab y hy x hx he.symm⟩
      by_contra hne
      exact (pairwise_filterMap.mp hd).forall hq hmem hne k hk k hf rfl
    · by_cases hqr : q = r
      · exact .inr hqr
      · exact .inl ⟨hq.1, fun hm => (mem_cons.mp hm).elim hqr hq.2⟩

theorem free (hn : (records.map (·.var)).Nodup) (h : Placing f records (·.fixed.isSome = true) u)
    (hr : records.forM (allocIf fun r => if r.fixed.isNone then some .empty else none) u = .ok () u') :
    Placing f records (fun _ => True) u' := by
  have h' := forM_induct (P := fun rest t => rest ⊆ records ∧ Placing f records (fun q => q.fixed.isSome ∨ q ∉ rest) t) ?_ hr
    ⟨fun _ h => h, h.mono fun q hq hq' => hq'.resolve_right fun hm => hm hq⟩
  · exact h'.2.mono fun q _ _ => .inr (by simp)
  rintro r rest t t' ⟨hsub, ht⟩ ha
  obtain ⟨hmem, hsub⟩ := cons_subset.mp hsub
  refine ⟨hsub, ?_⟩
  cases hf : r.fixed with
  | some n =>
    simp only [allocIf, hf, isNone_some, Bool.false_eq_true, if_false] at ha
    cases ha
    refine ht.mono fun q _ hq => ?_
    by_cases hqr : q = r
    · exact .inl (by simp [hqr, hf])
    · exact hq.imp_right fun hm hm' => (mem_cons.mp hm').elim hqr hm
  | none =>
    simp only [allocIf, hf, isNone_none, if_true] at ha
    refine (ht.alloc hn hmem (fun k hk => ?_) (fun q hq _ _ v _ hy => ?_) ha).mono fun q _ hq => ?_
    · cases hf ▸ hk
    · obtain ⟨x, hx, hw⟩ := ht.claimed q hq
      obtain ⟨y, hy, hne⟩ := hy
      cases hx ▸ hy
      exact hne hw
    · by_cases hqr : q = r
      · exact .inr hqr
      · exact .inl (hq.imp_right fun hm hm' => (mem_cons.mp hm').elim hqr hm)

end Placing

theorem claimVar_claimed (h : claimVar id s = .ok () s') : s'.Claimed id ∧ ∀ y, s.Claimed y → s'.Claimed y := by
  simp only [claimVar, bind_ok, modifyVar_ok] at h
  obtain ⟨_, _, ⟨⟩, ⟨x, hx⟩, rfl⟩ := h
  have hself : Claimed { s with vars := s.vars.modify id ({ · with workOffset := some s.ctx.currentOffset }) } id :=
    ⟨_, by rw [get?_modify_self, hx, map_some], rfl⟩
  refine ⟨hself, fun y hy => ?_⟩
  by_cases hid : id = y
  · exact hid ▸ hself
  · obtain ⟨z, hz, hw⟩ := hy
    exact ⟨z, by rw [get?_modify_of_ne _ hid, hz], hw⟩

theorem claimEach_claimed (h : records.forM (fun r => claimVar r.var) s = .ok () s') :
    ∀ r ∈ records, s'.Claimed r.var := by
  intro r hr
  have := forM_induct (P := fun rest t => r ∈ rest ∨ t.Claimed r.var) (fun q rest t t' ht hq => ?_) h (.inl hr)
  · exact this.resolve_left (by simp)
  obtain ⟨hself, hother⟩ := claimVar_claimed hq
  rcases ht with ht | ht
  · rcases mem_cons.mp ht with rfl | ht
    · exact .inr hself
    · exact .inl ht
  · exact .inr (hother _ ht)

section
variable (hc : Coherent (s.holdings f))
  (ho : ∀ r ∈ records, ∃ v, (s.holdings f).vars r.var = some v ∧ ∀ n, r.fixed = some n → v.cls = .gp ∧ n < 32)
include hc ho

theorem placing_of_claims (h1 : records.forM (fun r => claimVar r.var) s = .ok () t1)
    (h2 : records.forM reserve t1 = .ok () t2) :
    Placing f records (fun _ => False) t2 := by
  have m1 : s.Moves f (fun _ => True) t1 :=
    .loop (fun r hr _ _ hm hg => claimVar_moves (hm.owns ⟨_, (ho r hr).choose_spec.1⟩) hg) h1
  have m2 := m1.trans (.loop (fun _ _ _ _ _ => reserve_moves) h2)
  have hp : Plain .keep Emitted (fun _ => True) (records.forM reserve) := .forM fun _ => reserve_plain
  refine ⟨m2.coherent hc, fun r hr => ?_, fun r hr => ?_, fun _ _ h => h.elim⟩
  · obtain ⟨v, hv, hfix⟩ := ho r hr
    obtain ⟨w, hw, hcls⟩ := m2.vars.cls_eq hv
    exact ⟨w, hw, (hcls ▸ hfix)⟩
  · refine (claimEach_claimed h1 r hr).kept (hp.undergoes _ _ _ h2).works id ?_
    rw [(hp.gains _ _ _ h2).1.ctx]

theorem allocRecords_places (hn : (records.map (·.var)).Nodup) (hd : (records.filterMap (·.fixed)).Nodup)
    (h : allocRecords records s = .ok () s') : Placing f records (fun _ => True) s' := by
  obtain ⟨t1, t2, t3, h1, h2, h3, h4⟩ := allocRecords_ok h
  have hfixed := (placing_of_claims hc ho h1 h2).fixed hn hd h3
  have hfixed' : Placing f records (·.fixed.isSome = true) { t3 with ctx := { t3.ctx with reserved := .all .empty } } :=
    ⟨hfixed.coherent, hfixed.owned, hfixed.claimed, hfixed.placed⟩
  exact hfixed'.free hn h4

end

section Resolve

theorem resolveAddress_error (hr : ∀ v, part = some (.var v) → ∃ x r, s.vars.get? v = some x ∧ x.currentReg = some r)
    (h : resolveAddress part s = .error e s') : ∃ id, e = .usage (.addressNotGp id) := by
  cases part with
  | none => cases h
  | some a =>
    cases a with
    | reg => cases h
    | var v =>
      obtain ⟨x, r, hx, hr⟩ := hr v rfl
      rw [resolveAddress, bind_eq_of_ok (getVar_ok.mpr ⟨hx, rfl⟩)] at h
      simp only [hr] at h
      split at h
      · cases h
        exact ⟨v, rfl⟩
      · cases h

theorem resolveOperand_error (ho : ∀ v ∈ o.vars, s.Owns f v)
    (hr : ∀ v ∈ o.registerVars, ∃ x r, s.vars.get? v = some x ∧ x.currentReg = some r)
    (h : resolveOperand o s = .error e s') : ∃ id, e = .usage (.addressNotGp id) := by
  cases o with
  | var v =>
    obtain ⟨x, r, hx, hr⟩ := hr v.id mem_cons_self
    rw [resolveOperand, bind_eq_of_ok (getVar_ok.mpr ⟨hx, rfl⟩)] at h
    simp only [hr] at h
    cases h
  | mem m =>
    have haddr : ∀ v, m.base = some (.var v) ∨ m.index = some (.var v) → v ∈ m.addressVars := by
      rintro v (hv | hv) <;> simp [Mem.addressVars, hv, AddressPart.var?]
    have hown : ∀ v, m.base = some (.var v) ∨ m.index = some (.var v) → s.Owns f v := fun v hv =>
      ho v (by simp [Operand.vars, haddr v hv])
    rcases bind_error.mp h with h1 | ⟨base, t, hb, h1⟩
    · exact resolveAddress_error (fun v hv => hr v (haddr v (.inl hv))) h1
    obtain ⟨rfl, -⟩ := resolveAddress_ok hb fun v hv => hown v (.inl hv)
    rcases bind_error.mp h1 with h2 | ⟨index, t, hi, h2⟩
    · exact resolveAddress_error (fun v hv => hr v (haddr v (.inr hv))) h2
    obtain ⟨rfl, -⟩ := resolveAddress_ok hi fun v hv => hown v (.inr hv)
    rcases bind_error.mp h2 with h3 | ⟨home, t, -, h3⟩
    · unfold resolveHomePart at h3
      cases hh : m.homeVar with
      | none =>
        simp only [hh] at h3
        cases h3
      | some v =>
        simp only [hh] at h3
        obtain ⟨x, hx, -⟩ : ∃ x, _ := holdings_vars.mp (ho v (by simp [Operand.vars, hh])).choose_spec
        obtain ⟨a, t, ha⟩ := resolveHome_total hx
        rw [bind_eq_of_ok ha] at h3
        cases h3
    · cases h3
  | reg | imm | label => cases h

theorem resolveOperands_error {ops : List Operand} (ho : ∀ o ∈ ops, ∀ v ∈ o.vars, s.Owns f v)
    (hr : ∀ o ∈ ops, ∀ v ∈ o.registerVars, ∃ x r, s.vars.get? v = some x ∧ x.currentReg = some r)
    (h : ops.mapM resolveOperand s = .error e s') : ∃ id, e = .usage (.addressNotGp id) := by
  induction ops generalizing s with
  | nil => cases h
  | cons o ops ih =>
    rw [mapM_cons] at h
    rcases bind_error.mp h with h | ⟨o', t, hx, h⟩
    · exact resolveOperand_error (ho o mem_cons_self) (hr o mem_cons_self) h
    rcases bind_error.mp h with h | ⟨_, _, -, h⟩
    · obtain ⟨hm, -⟩ := resolveOperand_moves (ho o mem_cons_self) hx
      obtain ⟨code, hrun, -⟩ := hm.run
      refine ih (fun q hq v hv => hm.owns (ho q (mem_cons_of_mem _ hq) v hv)) (fun q hq v hv => ?_) h
      obtain ⟨y, hy⟩ := ho q (mem_cons_of_mem _ hq) v (ItemKind.registerVars_subset hv)
      obtain ⟨x, r, hx, hxr⟩ := hr q (mem_cons_of_mem _ hq) v hv
      obtain ⟨x', hx', -, rfl⟩ := holdings_vars.mp hy
      cases hx ▸ hx'
      obtain ⟨z, hz, hreg, -⟩ := hrun.acquires.2 hy
      obtain ⟨z', hz', -, rfl⟩ := holdings_vars.mp hz
      exact ⟨z', r, hz', hreg.trans hxr⟩
    · cases h

end Resolve

end Build

/-- The instruction is as the first walk leaves it: its accesses are recorded, its variables are those of the function,
and those that must be in fixed registers are general purpose ones. -/
structure InstructionItem.Arranged (i : InstructionItem) (f : FunctionId) (s : Session) : Prop where
  collected : Collected i i.records i.memVars
  owned : ∀ v ∈ i.operands.flatMap Operand.vars, s.Owns f v
  fixed : ∀ r ∈ i.records, ∀ n, r.fixed = some n → n < 16 ∧ ∃ x, s.vars.get? r.var = some x ∧ x.cls = .gp

namespace InstructionItem.Arranged
variable {i : InstructionItem}

theorem kept (h : i.Arranged f s) (hk : s.vars.Kept t.vars) : i.Arranged f t where
  collected := h.collected
  owned v hv := hk.owns_iff.mpr (h.owned v hv)
  fixed r hr n hn := by
    obtain ⟨hlt, x, hx, hcls⟩ := h.fixed r hr n hn
    have hfix := hk.fixed r.var
    rw [hx, map_some] at hfix
    obtain ⟨y, hy, hyx⟩ := map_eq_some_iff.mp hfix
    exact ⟨hlt, y, hy, (congrArg (·.1.2.2.1) hyx :).trans hcls⟩

theorem records (h : i.Arranged f s) (hr : r ∈ i.records) :
    ∃ v, (s.holdings f).vars r.var = some v ∧ ∀ n, r.fixed = some n → v.cls = .gp ∧ n < 32 := by
  obtain ⟨v, hv⟩ := h.owned r.var ((h.collected.named _).mp (.inl (mem_map_of_mem hr)))
  refine ⟨v, hv, fun n hn => ?_⟩
  obtain ⟨hlt, x, hx, hcls⟩ := h.fixed r hr n hn
  obtain ⟨x', hx', -, rfl⟩ := holdings_vars.mp hv
  cases hx ▸ hx'
  exact ⟨hcls, by omega⟩

theorem recorded (h : i.Arranged f s) (ho : o ∈ i.operands) (hv : v ∈ o.registerVars) :
    ∃ r ∈ i.records, r.var = v := by
  obtain ⟨k, hk⟩ := mem_iff_getElem?.mp ho
  have hrec := h.collected.recorded k o hk
  cases o with
  | var ref =>
    cases mem_singleton.mp hv
    rcases hrec with ⟨hz, rfl⟩ | ⟨r, hr, hrv, -⟩
    · -- an instruction that clears a variable records it with the first operand
      obtain ⟨-, a, b, hab, hid⟩ := operands_of_isZeroing hz
      rw [hab] at hk
      cases hk
      obtain ⟨hz', h0⟩ | ⟨r, hr, hrv, -⟩ : Recorded i i.records i.memVars 0 (.var a) :=
        h.collected.recorded 0 (.var a) (by rw [hab]; rfl)
      · cases h0
      · exact ⟨r, hr, hrv.trans hid⟩
    · exact ⟨r, hr, hrv⟩
  | mem m =>
    obtain ⟨r, hr, hrv, -⟩ := hrec.1 v hv
    exact ⟨r, hr, hrv⟩
  | reg | imm | label => cases hv

end InstructionItem.Arranged

namespace Session.Ready
variable {record : FunctionRecord} {stop : ItemId} {body : List ItemId}
variable {item : Item} {next : Option ItemId}

theorem arranged (h : s.Ready f record stop body) (hp : prepareFunction f record stop p s = .ok () t) (hx : x ∈ body)
    (hi : t.items.get? x = some item) (hk : item.kind = .instruction i) :
    i.Arranged f t ∧ ∃ i0 : InstructionItem, s.items.get? x = some { kind := .instruction i0 } ∧ i.operands = i0.operands := by
  obtain ⟨kind, item', hs, hi', -, hprep, -, hown⟩ := h.prepared_inside hp hx
  cases hi ▸ hi'
  rw [hk] at hprep
  cases kind with
  | instruction i0 =>
    obtain ⟨records, memVars, hcol, he⟩ := hprep
    cases he
    refine ⟨⟨⟨hcol.nodup, hcol.apart, hcol.recorded, hcol.named⟩, hown, fun r hr n hn => ?_⟩, i0, hs, rfl⟩
    obtain ⟨k, ref, hop, hid, hfix⟩ := (hcol.binds r.var n).mp ⟨r, hr, rfl, hn⟩
    obtain ⟨y, hy, -, hcls⟩ := h.fixed_gp hp hx hs hop hfix
    exact ⟨Opcode.fixed_lt hfix, y, hid ▸ hy, hcls⟩
  | jump =>
    obtain ⟨_, he⟩ := hprep
    cases he
  | _ => cases hprep

theorem arranged_at (h : s.Ready f record stop body) (hj : s.Closed body)
    (hp : prepareFunction f record stop p s = .ok () t) (hv : t.Visits record.item ⟨.walk next, u⟩)
    (hx : x ∈ body)
    (hi : u.items.get? x = some item) (htr : item.translated = false) (hk : item.kind = .instruction i) :
    i.Arranged f u ∧ ∃ i0 : InstructionItem, s.items.get? x = some { kind := .instruction i0 } ∧ i.operands = i0.operands := by
  have hmid := (Visits.sound hv (h.launch hp hj)).1
  obtain ⟨-, item0, -, hi0, -⟩ := h.prepared_inside hp hx
  have hbec := (hmid.becomes hx hi0 hi).2
  have hsame := hmid.waiting hx id hi0 hi htr (by rw [← hbec.isTarget_eq, hk]; rfl)
  obtain ⟨harr, hops⟩ := h.arranged hp hx hi0 (hsame ▸ hk)
  exact ⟨harr.kept hmid.continues.vars, hops⟩

end Session.Ready

/-- The register that a variable is in. -/
def Session.varReg? (s : Session) (v : VarId) : Option Reg := (s.vars.get? v).bind currentReg

namespace Build

/-- All operands of an instruction are in registers at once, and where the hardware wants them. Let the allocator be
coherent, and let the records of a prepared instruction bind distinct registers. When its operands have been brought into
place, every variable of a record is in a register, different variables are in different ones, and a variable that must be
in a fixed register is there, so that no other operand is. Resolving the operands then does not find one outside the
registers: the only complaint left is about an address that is not in a general purpose register. -/
theorem operands_in_registers {i : InstructionItem} (hc : Coherent (s.holdings f)) (hi : i.Arranged f s)
    (hd : (i.records.filterMap (·.fixed)).Nodup)
    (h : (do allocRecords i.records; i.memVars.forM moveHome : Build Unit) s = .ok () s') :
    (∀ r ∈ i.records, ∃ p, s'.varReg? r.var = some p ∧ (∀ n, r.fixed = some n → p = .gp n) ∧
      (r.fixed = none → ∀ q ∈ i.records, ∀ n, q.fixed = some n → p ≠ .gp n)) ∧
    (∀ q ∈ i.records, ∀ r ∈ i.records, q.var ≠ r.var → s'.varReg? q.var ≠ s'.varReg? r.var) ∧
    ∀ e u, i.operands.mapM resolveOperand s' = .error e u → ∃ id, e = .usage (.addressNotGp id) := by
  obtain ⟨_, t, h₁, h₂⟩ := bind_ok.mp h
  have hpl := allocRecords_places hc (fun r hr => hi.records hr) hi.collected.nodup hd h₁
  obtain ⟨m₁, -⟩ := allocRecords_moves hc (fun r hr => ⟨_, (hi.records hr).choose_spec.1⟩) hi.collected.nodup h₁
  have hmem : ∀ v ∈ i.memVars, t.Owns f v := fun v hv => m₁.owns (hi.owned v ((hi.collected.named v).mp (.inr hv)))
  obtain ⟨m₂, -⟩ := moveHomes_moves hpl.coherent hmem h₂
  have hc' := m₂.coherent hpl.coherent
  -- the operands that are moved to memory are others
  have hin : ∀ r ∈ i.records, ∃ p, (s'.holdings f).registers.occupant p = some r.var ∧ s'.varReg? r.var = some p ∧
      ∀ n, r.fixed = some n → p = .gp n := by
    intro r hr
    obtain ⟨p, ho, hfix⟩ := hpl.placed r hr trivial
    obtain ⟨-, v, hv, hp⟩ := hpl.coherent.occupied ho
    have hv' : (s'.holdings f).vars r.var = some v := by
      refine (m₂.vars_eq fun e ⟨x, hx, he⟩ => he.changes ?_).trans hv
      rintro rfl
      exact hi.collected.apart r hr hx
    obtain ⟨y, hy, -, rfl⟩ := Session.holdings_vars.mp hv'
    exact ⟨p, hc'.occupant_of_currentReg hv' hp, by rw [Session.varReg?, hy]; exact hp, hfix⟩
  have hinj : ∀ q ∈ i.records, ∀ r ∈ i.records, s'.varReg? q.var = s'.varReg? r.var → q.var = r.var := by
    intro q hq r hr he
    obtain ⟨p, ho, hp, -⟩ := hin q hq
    obtain ⟨p', ho', hp', -⟩ := hin r hr
    rw [hp, hp'] at he
    cases he
    exact Option.some.inj (ho.symm.trans ho')
  refine ⟨fun r hr => ?_, fun q hq r hr hne he => hne (hinj q hq r hr he), fun e u he => ?_⟩
  · obtain ⟨p, -, hp, hfix⟩ := hin r hr
    refine ⟨p, hp, hfix, fun hnone q hq n hn hpn => ?_⟩
    obtain ⟨p', -, hp', hfix'⟩ := hin q hq
    have hvar := hinj q hq r hr (by rw [hp, hp', hpn, hfix' n hn])
    have hqr := List.inj_on_of_nodup_map hi.collected.nodup hq hr hvar
    rw [hqr, hnone] at hn
    cases hn
  · refine resolveOperands_error (f := f) (fun o ho v hv => ?_) (fun o ho v hv => ?_) he
    · exact m₂.owns (m₁.owns (hi.owned v (List.mem_flatMap.mpr ⟨o, ho, hv⟩)))
    · obtain ⟨r, hr, rfl⟩ := hi.recorded ho hv
      obtain ⟨p, -, hp, -⟩ := hin r hr
      obtain ⟨x, hx, hxp⟩ := Option.bind_eq_some_iff.mp hp
      exact ⟨x, p, hx, hxp⟩

/-- The product of the first and the third of three arguments is formed in the accumulator and in the register that the
third argument arrives in. The third argument is in another register then. -/
theorem operands_in_registers_of_mul : ∃ (s s' : Session) (i : InstructionItem), i.opcode = .mul ∧
    (do allocRecords i.records; i.memVars.forM moveHome : Build Unit) s = .ok () s' ∧
    s.varReg? ⟨2⟩ = some (.gp Gp.rdx) ∧ s'.varReg? ⟨3⟩ = some (.gp Gp.rdx) ∧ s'.varReg? ⟨0⟩ = some (.gp Gp.rax) ∧
    ∃ r, s'.varReg? ⟨2⟩ = some r ∧ r ≠ .gp Gp.rdx ∧ r ≠ .gp Gp.rax := by
  let operands : List Operand := [.var ⟨⟨3⟩, 8⟩, .var ⟨⟨0⟩, 8⟩, .var ⟨⟨2⟩, 8⟩]
  let calls : List Builder.Call := [.newFunction [.gpq, .gpq, .gpq] [] {}, .newVar .gpq, .emit .mul operands, .ret [],
    .endFunction]
  let i : InstructionItem := { opcode := .mul, operands := operands, records := [⟨⟨3⟩, .write, some Gp.rdx⟩,
    ⟨⟨0⟩, .readWrite, some Gp.rax⟩, ⟨⟨2⟩, .read, none⟩] }
  obtain ⟨⟨q, ⟨_, u⟩⟩, hq, hd⟩ := Option.any_eq_true _ _ |>.mp
    (show (Builder.momentAfter 2 calls).any (fun q => decide (q.2.task = .walk (some ⟨3⟩) ∧
        ⟨3⟩ ∈ (q.1.before.items.range q.1.record.item q.1.stop).tail.dropLast ∧
        q.2.session.varReg? ⟨2⟩ = some (.gp Gp.rdx) ∧ q.2.advance?.isSome) &&
      (q.2.session.items.get? ⟨3⟩).any fun item => decide (item.translated = false ∧ item.kind = .instruction i)) = true
      by decide +kernel)
  obtain ⟨hp, hv, body, hs, hj⟩ := Builder.momentAfter_ok hq
  simp only [Bool.and_eq_true, decide_eq_true_eq] at hd
  obtain ⟨⟨rfl, hx, h₂, hadv⟩, hd⟩ := hd
  rw [hs.range_eq, List.tail_cons, List.dropLast_concat] at hx
  obtain ⟨m', hadv⟩ := Option.isSome_iff_exists.mp hadv
  obtain ⟨item, hi, hd⟩ := Option.any_eq_true _ _ |>.mp hd
  obtain ⟨htr, hk⟩ := of_decide_eq_true hd
  cases Moment.advances_iff.mpr hadv with
  | item hr =>
    obtain ⟨item', w, hi', -, hkind, -⟩ := translateItem_ok hr
    cases hi.symm.trans hi'
    simp only [translateKind, hk, translateInstruction, bind_ok] at hkind
    obtain ⟨_, t₁, h₁, _, t₂, h₃, -⟩ := hkind
    have hdo : (do allocRecords i.records; i.memVars.forM moveHome : Build Unit) (u.entering ⟨3⟩ item) = .ok () t₂ :=
      bind_ok.mpr ⟨(), t₁, h₁, h₃⟩
    have hmid := (Session.Visits.sound hv (hs.launch hp hj)).1
    obtain ⟨hin, hne, -⟩ := operands_in_registers (f := ⟨0⟩) (s := u.entering ⟨3⟩ item) hmid.coherent
      ((hs.arranged_at hj hp hv hx hi htr hk).1.kept (.refl _)) (by decide) hdo
    obtain ⟨p₀, h₀, hf₀, -⟩ := hin ⟨⟨0⟩, .readWrite, some Gp.rax⟩ (by decide)
    obtain ⟨p₃, h₃, hf₃, -⟩ := hin ⟨⟨3⟩, .write, some Gp.rdx⟩ (by decide)
    obtain ⟨p₂, hp₂, -, hout⟩ := hin ⟨⟨2⟩, .read, none⟩ (by decide)
    rw [hf₀ _ rfl] at h₀
    rw [hf₃ _ rfl] at h₃
    exact ⟨_, t₂, i, rfl, hdo, h₂, h₃, h₀, p₂, hp₂, hout rfl ⟨⟨3⟩, .write, some Gp.rdx⟩ (by decide) _ rfl,
      hout rfl ⟨⟨0⟩, .readWrite, some Gp.rax⟩ (by decide) _ rfl⟩

end Build

end Codegen
