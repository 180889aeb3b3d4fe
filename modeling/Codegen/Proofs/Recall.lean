import Codegen.Proofs.Reconciliation

/-! Snapshots hold all that is needed to go back. Adopting one leaves nothing of the present state: the registers and
all variables of the function are as they were when it was taken. -/
namespace Codegen
open List Option Session Variable
variable {id : VarId} {s₀ : Session} {st : Snapshot}

attribute [ext] VarTable

/-- Adopting a snapshot puts a variable where it was when the snapshot was taken. -/
theorem Snapshot.adopt_snapshot (hc : Coherent (s₀.holdings f))
    (hv0 : (s₀.holdings f).vars id = some v0) (hfn : v.function = f) :
    (s₀.snapshot f).adopt f id v = { v with state := v0.state, reg := v0.reg, changed := v0.changed } := by
  obtain ⟨x, hx, hxf, rfl⟩ := holdings_vars.mp hv0
  by_cases hs : x.state = .register
  · obtain ⟨r, hr, ho⟩ := hc.settled hv0 hs
    have hall := (hc.occupied ho).1.mem_all
    have hchanged : (s₀.snapshot f).isChanged r = x.changed := by
      rw [Bool.eq_iff_iff, snapshot_isChanged, isDirty_iff]
      constructor
      · rintro ⟨-, y, w, hy, hw, hch⟩
        cases ho ▸ hy
        cases hx ▸ hw
        exact hch
      · exact fun hch => ⟨hall, id, x, ho, hx, hch⟩
    have hreg : x.reg = some r.index := (currentReg_eq_some.mp hr).2.1
    have hadopt : (s₀.snapshot f).adopt f id v = _ := adopt_of_occupant hall ho fun q hq =>
      (snapshot_fits hc).distinct hq ho
    rw [hadopt, hchanged, ← hreg, ← hs]
    rfl
  · have hout : ∀ r, (s₀.snapshot f).occupant r ≠ some id := fun r ho =>
      hs (currentReg_eq_some.mp (hc.currentReg_of_occupant hv0 ho)).1
    have hstate : (if id ∈ (s₀.snapshot f).memVars then VarState.memory else .unused) = x.state := by
      have hmem : id ∈ (s₀.snapshot f).memVars ↔ x.state = .memory := by
        rw [show (s₀.snapshot f).memVars = s₀.memoryVars f from rfl, mem_memoryVars hc.numbered, hx]
        simp [hxf]
      cases hst : x.state <;> simp_all
    obtain ⟨hreg, hch⟩ := hc.outside hv0 hs
    rw [adopt_of_not_occupant hfn hout, hstate, hreg, hch]
    rfl

namespace Build

theorem modifyEach_total {α : Type} {l : List α} (target : α → Option VarId) {g : α → Variable → Variable}
    {body : α → Build Unit} (hbody : ∀ a, body a = match target a with
      | some id => modifyVar id (g a)
      | none => pure ())
    (h : ∀ a ∈ l, ∀ id, target a = some id → (s.vars.get? id).isSome) :
    ∃ s', l.forM body s = .ok () s' ∧ ∀ x, (s'.vars.get? x).isSome = (s.vars.get? x).isSome := by
  induction l generalizing s with
  | nil => exact ⟨s, forM_nil_ok.mpr rfl, fun _ => rfl⟩
  | cons a l ih =>
    obtain ⟨ha, hl⟩ := forall_mem_cons.mp h
    cases hta : target a with
    | none =>
      obtain ⟨s', hs', hsome⟩ := ih hl
      exact ⟨s', forM_cons_ok.mpr ⟨s, by rw [hbody, hta]; rfl, hs'⟩, hsome⟩
    | some id =>
      have hkept : ∀ x, ((s.vars.modify id (g a)).get? x).isSome = (s.vars.get? x).isSome := by
        intro x
        by_cases hx : id = x
        · rw [← hx, VarTable.get?_modify_self, isSome_map]
        · rw [VarTable.get?_modify_of_ne _ hx]
      obtain ⟨s', hs', hsome⟩ := ih (s := { s with vars := s.vars.modify id (g a) }) fun b hb y hy =>
        (hkept y).trans (hl b hb y hy)
      refine ⟨s', forM_cons_ok.mpr ⟨_, ?_, hs'⟩, fun x => (hsome x).trans (hkept x)⟩
      rw [hbody, hta]
      exact modifyVar_ok.mpr ⟨isSome_iff_exists.mp (ha id hta), rfl⟩

/-- A snapshot of the function can always be adopted. -/
theorem assignState_total (hf : s.ctx.function = some f) (hn : s.vars.Numbered f) (hst : st.Fits (s.holdings f)) :
    ∃ s', assignState st s = .ok () s' := by
  have hvar : ∀ {x v}, (s.holdings f).vars x = some v → (s.vars.get? x).isSome := by
    intro x v hv
    obtain ⟨y, hy, -⟩ := holdings_vars.mp hv
    rw [hy, isSome_some]
  obtain ⟨s1, h1, hsome1⟩ := modifyEach_total some (fun _ => rfl) fun a ha x hx => by
      cases hx
      obtain ⟨v, hv, -⟩ := hn.mem_ofFunction.mp ha
      rw [hv, isSome_some]
  obtain ⟨s2, h2, hsome2⟩ := modifyEach_total some (fun _ => rfl) fun a ha x hx => by
      cases hx
      obtain ⟨⟨v, hv⟩, -⟩ := hst.memory ha
      exact (hsome1 a).trans (hvar hv)
  obtain ⟨s3, h3, -⟩ := modifyEach_total (s := { s2 with ctx := { s2.ctx with registers := .load st.regs } })
    st.occupant (fun _ => rfl)
    fun r _ x hx => by
      obtain ⟨-, v, hv, -⟩ := hst.occupied hx
      exact (hsome2 x).trans ((hsome1 x).trans (hvar hv))
  refine ⟨s3, bind_ok.mpr ⟨f, s, compiling_ok.mpr ⟨hf, rfl⟩, bind_ok.mpr ⟨(), s1, ?_, ?_⟩⟩⟩
  · exact bind_ok.mpr ⟨s, s, get_ok.mpr ⟨rfl, rfl⟩, h1⟩
  · exact bind_ok.mpr ⟨(), s2, h2, bind_ok.mpr ⟨(), _, modifyContext_ok.mpr rfl, h3⟩⟩

theorem SameFunction.var (h : SameFunction f s s₀) (hv : (s.holdings f).vars id = some v) :
    ∃ v0, (s₀.holdings f).vars id = some v0 ∧ v0.static = v.static := by
  have he := h.vars id
  rwa [hv, map_some, eq_comm, map_eq_some_iff] at he

/-- A snapshot is all that the allocator needs to go back. Adopted where it was taken, it changes nothing. Adopted
later in the same function, whatever state the allocator is in by then, it brings the registers, the masks of the used
ones and the state, register and dirty bit of every variable back to what they were; then the state is coherent, and
the snapshot that is taken there is the same one. -/
theorem assignState_recalls (hc : Coherent (s₀.holdings f)) (hf : s₀.ctx.function = some f)
    (hst : saveState s₀ = .ok st s₀) :
    assignState st s₀ = .ok () s₀ ∧
    ∀ s, SameFunction f s s₀ → ∃ s', assignState st s = .ok () s' ∧
      Coherent (s'.holdings f) ∧ saveState s' = .ok st s' ∧
      s'.ctx.registers.occupant = s₀.ctx.registers.occupant ∧ s'.ctx.registers.used = s₀.ctx.registers.used ∧
      ∀ x v₀, s₀.vars.get? x = some v₀ → v₀.function = f → ∃ v', s'.vars.get? x = some v' ∧
        v'.state = v₀.state ∧ v'.reg = v₀.reg ∧ v'.changed = v₀.changed := by
  obtain ⟨g, hg, rfl, -⟩ := saveState_ok.mp hst
  cases hf.symm.trans hg
  have hfit := snapshot_fits hc
  -- the masks are computed anew, and turn out as they were
  have hload : RegFile.load (s₀.snapshot f).regs = s₀.ctx.registers := s₀.ctx.registers.load_banks
  refine ⟨?_, fun s hsame => ?_⟩
  · obtain ⟨s', hs'⟩ := assignState_total hf hc.numbered hfit
    obtain ⟨vars, rfl, hact, hget⟩ := assignState_ok hf hc.numbered hs'
    have hvars : vars = s₀.vars := by
      refine VarTable.ext (Array.ext_getElem? fun i => ?_) hact
      refine (hget ⟨i⟩).trans ?_
      cases hx : s₀.vars.get? ⟨i⟩ with
      | none => exact hx.symm
      | some x =>
        refine Eq.trans (congrArg some ?_) hx.symm
        by_cases hxf : x.function = f
        · rw [Snapshot.adopt_snapshot hc (holdings_vars_of_get? hx hxf) hxf]
          rfl
        · have hout : ∀ v, (s₀.holdings f).vars ⟨i⟩ ≠ some v := fun v hv => by
            obtain ⟨y, hy, hyf, -⟩ := holdings_vars.mp hv
            cases hx.symm.trans hy
            exact hxf hyf
          refine Snapshot.adopt_of_other hxf (fun r ho => ?_) fun hm => ?_
          · obtain ⟨-, v, hv, -⟩ := hfit.occupied ho
            exact hout v hv
          · obtain ⟨⟨v, hv⟩, -⟩ := hfit.memory hm
            exact hout v hv
    rw [hs', hvars, hload]
  · have hn : s.vars.Numbered f := fun id v hv hvf => by
      obtain ⟨v₀, hv₀, he⟩ := hsame.var (holdings_vars_of_get? hv hvf)
      exact (congrArg Prod.fst he).symm.trans (hc.named hv₀)
    have hty : ∀ {id v}, (s.holdings f).vars id = some v → v.ty.cls = some v.cls := fun hv => by
      obtain ⟨v₀, hv₀, he⟩ := hsame.var hv
      have ht := hc.typed hv₀
      rw [static, static, Prod.mk.injEq, Prod.mk.injEq, Prod.mk.injEq] at he
      rwa [he.2.1, he.2.2.1] at ht
    have hfit' := hfit.congr hsame.vars hsame.rbp
    obtain ⟨s', hs'⟩ := assignState_total hsame.now hn hfit'
    obtain ⟨hc', hsnap⟩ := assignState_adopts hn hty hfit' hsame.now hs'
    obtain ⟨vars, rfl, -, hget⟩ := assignState_ok hsame.now hn hs'
    refine ⟨_, hs', hc', saveState_ok.mpr ⟨f, hsame.now, hsnap, rfl⟩, rfl, congrArg RegFile.used hload, fun x v₀ hv₀ hf₀ => ?_⟩
    have hold := holdings_vars_of_get? hv₀ hf₀
    have he := hsame.vars x
    rw [hold, map_some, map_eq_some_iff] at he
    obtain ⟨v, hv, -⟩ := he
    obtain ⟨y, hy, hyf, -⟩ := holdings_vars.mp hv
    refine ⟨_, by rw [hget, hy, map_some], ?_⟩
    rw [Snapshot.adopt_snapshot hc hold hyf]
    exact ⟨rfl, rfl, rfl⟩

/-- The snapshot has the argument in its register, and is adopted after the argument was spilled. -/
theorem assignState_recalls_spilled : ∃ (s₀ s s' : Session) (st : Snapshot), Coherent (s₀.holdings ⟨0⟩) ∧
    s₀.ctx.function = some ⟨0⟩ ∧ saveState s₀ = .ok st s₀ ∧ SameFunction ⟨0⟩ s s₀ ∧ s.snapshot ⟨0⟩ ≠ st ∧
    assignState st s₀ = .ok () s₀ ∧ assignState st s = .ok () s' ∧ saveState s' = .ok st s' ∧
    s'.ctx.registers.occupant = s₀.ctx.registers.occupant := by
  let f : FunctionId := ⟨0⟩
  let calls : List Builder.Call := [.newFunction [.gpq, .gpq] [] {}, .endFunction]
  obtain ⟨⟨s, record, stop, p, t⟩, hq, hd⟩ := any_eq_true _ _ |>.mp
    (show (Builder.prepareFirst calls).any (fun q => (after? (q.record.args.forM receiveArg) q.after).any fun u =>
      decide (u.ctx.function = some f ∧ (⟨0⟩ : VarId) ∈ q.record.args ∧ (⟨0⟩ : VarId) ∉ (u.snapshot f).memVars) &&
        (after? (spillVar ⟨0⟩) u).any fun u₀ => decide ((⟨0⟩ : VarId) ∈ (u₀.snapshot f).memVars)) = true by decide +kernel)
  obtain ⟨hprep, body, hs⟩ := Builder.prepareFirst_ok hq
  obtain ⟨hc, -, hidle⟩ := hs.prepared hprep
  have hpasses := hs.passes_prepared hprep
  obtain ⟨u, hu, hd⟩ := any_eq_true _ _ |>.mp hd
  obtain ⟨_, hu⟩ := after?_ok hu
  simp only [Bool.and_eq_true, decide_eq_true_eq] at hd
  obtain ⟨⟨hfn, harg, habsent⟩, hd⟩ := hd
  obtain ⟨u₀, hu₀, hd⟩ := any_eq_true _ _ |>.mp hd
  obtain ⟨_, hu₀⟩ := after?_ok hu₀
  have hstored := of_decide_eq_true hd
  have hrec := Received.all hc hidle hpasses hu
  have hcu := hrec.moves.coherent hc
  obtain ⟨x, _, hx, hxf, -⟩ := hpasses.arrives _ harg
  obtain ⟨v, hv⟩ := hrec.moves.owns ⟨_, holdings_vars_of_get? hx hxf⟩
  obtain ⟨hm, -⟩ := evicts_moves hv hu₀
  obtain ⟨_, hrun, -⟩ := hm.run
  have hsame : SameFunction f u₀ u := ⟨by rw [hm.ctx]; exact hfn, hfn, hrun.static_eq, by rw [hm.ctx]⟩
  have hst : saveState u = .ok (u.snapshot f) u := saveState_ok.mpr ⟨f, hfn, rfl, rfl⟩
  obtain ⟨hback, hlater⟩ := assignState_recalls hcu hfn hst
  obtain ⟨s', hs', -, hsave, hocc, -⟩ := hlater u₀ hsame
  exact ⟨u, u₀, s', _, hcu, hfn, hst, hsame, fun e => habsent (e ▸ hstored), hback, hs', hsave, hocc⟩

end Build

end Codegen
