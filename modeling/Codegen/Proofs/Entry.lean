import Codegen.Proofs.Agreement
import Codegen.Proofs.LiveRange

/-! The entry of a function. No variable is in use before the opening item, which puts the arguments
where they arrive. -/
namespace Codegen
open List Build Option Variable Holdings
variable {s t : Session} {v : Variable}

theorem Variable.Fresh.unused {id : VarId} (h : v.Fresh id) :
    v.id = id ∧ v.state = .unused ∧ v.reg = none ∧ v.changed = false ∧ v.homeSlot = none := by
  rw [h.blank]
  exact ⟨rfl, rfl, rfl, rfl, rfl⟩

theorem Session.owns_iff {id : VarId} : s.Owns f id ↔ s.IsVarOf f id := by
  unfold Owns IsVarOf
  rw [map_eq_some_iff]
  constructor
  · rintro ⟨v, hv⟩
    obtain ⟨x, hx, hf, -⟩ := holdings_vars.mp hv
    exact ⟨x, hx, hf⟩
  · rintro ⟨x, hx, hf⟩
    exact ⟨x.core, holdings_vars_of_get? hx hf⟩

theorem Holdings.usable_of_always {h : Holdings} {r : Reg}
    (hr : (Context.empty.allocable r.cls).contains r.index = true) : h.Usable r := by
  obtain ⟨cls, i⟩ := r
  cases cls with
  | gp =>
    have he : ((RegMask.firstN RegClass.gp.count).erase Gp.rsp).contains i = true := RegMask.contains_of_erase hr
    unfold Usable Context.allocable
    cases h.allocableRbp with
    | true => exact he
    | false => exact hr
  | mm | xmm => exact hr

namespace Session
variable {record : FunctionRecord} {stop : ItemId}
variable {body : List ItemId}

namespace Ready

section
variable (h : s.Ready f record stop body)
include h

theorem begun_vars {id : VarId} (hv : ((s.begun f record stop p).holdings f).vars id = some v) :
    ∃ x, s.vars.get? id = some x ∧ x.function = f ∧ x.Fresh id ∧ x.core = v := by
  obtain ⟨x, hx, hf, hc⟩ := holdings_vars.mp hv
  exact ⟨x, hx, hf, h.fresh hx hf, hc⟩

theorem begun_coherent : Coherent ((s.begun f record stop p).holdings f) where
  named hv := by
    obtain ⟨x, -, -, hx, rfl⟩ := h.begun_vars hv
    exact hx.unused.1
  typed hv := by
    obtain ⟨x, -, -, hx, rfl⟩ := h.begun_vars hv
    exact hx.typed
  occupied ho := by
    rw [show ((s.begun f record stop p).holdings f).registers = .empty from rfl, RegFile.occupant_empty] at ho
    cases ho
  settled hv hs := by
    obtain ⟨x, -, -, hx, rfl⟩ := h.begun_vars hv
    cases hx.unused.2.1 ▸ hs
  outside hv _ := by
    obtain ⟨x, -, -, hx, rfl⟩ := h.begun_vars hv
    exact ⟨hx.unused.2.2.1, hx.unused.2.2.2.1⟩

theorem begun_home {id : VarId} (ha : ((s.begun f record stop p).holdings f).homeOf id = some a) :
    ∃ x offset, s.vars.get? id = some x ∧ x.function = f ∧ x.arrival = some (.home a) ∧ a = .argument offset := by
  obtain ⟨v, hv, ha⟩ := bind_eq_some_iff.mp ha
  obtain ⟨x, hx, hf, hfresh, rfl⟩ := h.begun_vars hv
  refine ⟨x, ?_⟩
  rw [core_home?, home?, hfresh.unused.2.2.2.2] at ha
  unfold arrival
  cases hp : x.passing with
  | onStack offset =>
    rw [hp] at ha
    cases ha
    exact ⟨offset, hx, hf, rfl, rfl⟩
  | _ =>
    rw [hp] at ha
    cases ha

theorem begun_apart : ((s.begun f record stop p).holdings f).Apart where
  distinct ha hb := by
    obtain ⟨x, -, hx, hf, hxa, -⟩ := h.begun_home ha
    obtain ⟨y, -, hy, hg, hya, -⟩ := h.begun_home hb
    exact h.passes.distinct hx hf hxa hy hg hya
  taken ha := by
    obtain ⟨x, offset, -, -, -, ha⟩ := h.begun_home ha
    cases ha
  sound := ⟨nodup_nil, by rintro _ ⟨⟩⟩

end

end Ready

/-- No variable of the function is in use. -/
def Idle (t : Session) (f : FunctionId) : Prop := ∀ id v, (t.holdings f).vars id = some v → v.state = .unused

namespace Ready

theorem prepared (h : s.Ready f record stop body) (hp : prepareFunction f record stop p s = .ok () t) :
    Coherent (t.holdings f) ∧ (t.holdings f).Apart ∧ t.Idle f := by
  obtain ⟨c, hr⟩ := (h.walked hp).run
  refine ⟨h.begun_coherent.run hr, h.begun_apart.run hr, ?_⟩
  refine hr.keeps (P := fun h => ∀ id v, h.vars id = some v → v.state = .unused) ?_ fun id v hv => ?_
  · rintro h e c h' ⟨x, rfl⟩ ha hidle id v hv
    cases ha with
    | @acquire _ y hx hn =>
      rcases setVar_vars_eq_some.mp hv with ⟨rfl, rfl⟩ | ⟨-, hv⟩
      · exact hidle id y hx
      · exact hidle id v hv
  · obtain ⟨x, -, -, hx, rfl⟩ := h.begun_vars hv
    exact hx.unused.2.1

end Ready

end Session

/-- Effects that receive an argument. -/
def Effect.receives : Effect → Prop
  | enter _ | touch _ | await _ | other => True
  | _ => False

theorem Variable.arrival_cases (h : v.arrival = some p) :
    (∃ i, v.passing = .inRegister ∧ v.homeReg = some i ∧ p = .reg ⟨v.cls, i⟩) ∨
      ∃ offset, v.passing = .onStack offset ∧ p = .home (.argument offset) := by
  unfold arrival at h
  cases hp : v.passing with
  | notPassed => simp [hp] at h
  | inRegister =>
    cases hr : v.homeReg with
    | none => simp [hp, hr] at h
    | some i =>
      simp only [hp, hr, some.injEq] at h
      exact .inl ⟨i, rfl, rfl, h.symm⟩
  | onStack offset =>
    simp only [hp, some.injEq] at h
    exact .inr ⟨offset, rfl, h.symm⟩

namespace Session
variable {ids args : List VarId} {id : VarId}

/-- The arguments in `ids` are received: each is where it arrives. -/
structure Received (f : FunctionId) (t : Session) (ids : List VarId) (u : Session) : Prop where
  moves : t.Moves f Effect.receives u
  items : u.items = t.items
  here : ∀ id ∈ ids, ∀ x, t.vars.get? id = some x → ∃ x', u.vars.get? id = some x' ∧
    x'.place? = x.arrival ∧ (x'.state = .register → x'.changed = true)
  rest : ∀ id, id ∉ ids → u.vars.get? id = t.vars.get? id

namespace Received

theorem free (h : Received f t ids u) (hc : Coherent (t.holdings f)) (hidle : t.Idle f)
    (hr : ∀ y ∈ ids, ∀ z, t.vars.get? y = some z → z.arrival ≠ some (.reg r)) :
    (u.holdings f).registers.occupant r = none := by
  by_contra hn
  obtain ⟨y, hy⟩ := ne_none_iff_exists'.mp hn
  obtain ⟨-, v, hv, hcur⟩ := (h.moves.coherent hc).occupied hy
  obtain ⟨z, hz, hf, rfl⟩ := holdings_vars.mp hv
  by_cases hin : y ∈ ids
  · obtain ⟨z0, hz0, -⟩ := h.moves.vars.get? hz
    obtain ⟨z', hz', hplace, -⟩ := h.here y hin z0 hz0
    cases hz ▸ hz'
    exact hr y hin z0 hz0 (hplace ▸ place?_of_currentReg hcur)
  · have hs := hidle y z.core (holdings_vars_of_get? (h.rest y hin ▸ hz) hf)
    rw [(currentReg_eq_some.mp hcur).1] at hs
    cases hs

private theorem more (h : Received f t ids u) (hid : id ∉ ids) (hx : t.vars.get? id = some x)
    (hm : u.Moves f Effect.receives u')
    (hu' : u' = { u with vars := u.vars.modify id g, ctx := c }) (hplace : (g x).place? = x.arrival)
    (hch : (g x).state = .register → (g x).changed = true) : Received f t (ids ++ [id]) u' where
  moves := h.moves.trans hm
  items := by rw [hu', ← h.items]
  here y hy z hz := by
    subst hu'
    rcases mem_append.mp hy with hy | hy
    · have hne : id ≠ y := fun e => hid (e ▸ hy)
      rw [VarTable.get?_modify_of_ne _ hne]
      exact h.here y hy z hz
    · cases mem_singleton.mp hy
      cases hx ▸ hz
      exact ⟨g x, by rw [VarTable.get?_modify_self, h.rest id hid, hx, map_some], hplace, hch⟩
  rest y hy := by
    subst hu'
    obtain ⟨hy, hyid⟩ := not_or.mp (mt mem_append.mpr hy)
    have hne : id ≠ y := fun e => hyid (mem_singleton.mpr e.symm)
    rw [VarTable.get?_modify_of_ne _ hne]
    exact h.rest y hy

theorem step (h : Received f t ids u) (hc : Coherent (t.holdings f)) (hidle : t.Idle f)
    (hid : id ∉ ids) (hx : t.vars.get? id = some x) (hf : x.function = f) (ha : x.arrival = some p)
    (husable : ∀ r, p = .reg r → (t.holdings f).Usable r)
    (hother : ∀ y ∈ ids, ∀ z, t.vars.get? y = some z → z.arrival ≠ some p)
    (hr : receiveArg id u = .ok () u') : Received f t (ids ++ [id]) u' := by
  have hux : u.vars.get? id = some x := (h.rest id hid).trans hx
  have hv := holdings_vars_of_get? hux hf
  have hstate : x.core.state = .unused := hidle id _ (holdings_vars_of_get? hx hf)
  simp only [receiveArg, getVar_bind hux] at hr
  rcases arrival_cases ha with ⟨i, hpass, hreg, rfl⟩ | ⟨offset, hpass, rfl⟩
  · simp only [isRegArgument, hpass, hreg, beq_self_eq_true, if_true, bind_ok, modifyVar_ok, modifyContext_ok] at hr
    obtain ⟨_, _, ⟨-, rfl⟩, rfl⟩ := hr
    have hh := congrArg (fun h : Holdings => h.assign ⟨x.cls, i⟩ id) (holdings_modifyVar hux
        (g := ({ · with state := .register, reg := some i, changed := true })) hf)
    have henter : Action (u.holdings f) (.enter id) [] ((u.holdings f).settle id x.core i) :=
      .enter hv hstate (h.free hc hidle hother) (h.moves.usable.mpr (husable _ rfl))
    have htouch : Action ((u.holdings f).settle id x.core i) (.touch id) [] _ := .touch setVar_vars_self rfl
    refine h.more hid hx ⟨.of_modify ⟨rfl, rfl, .modify fun _ => rfl⟩ rfl hux hf fun h => h, ⟨[], ?_, rfl⟩,
      (absurd trivial)⟩ rfl ?_
      fun _ => rfl
    · refine .step trivial henter (.step trivial htouch ?_)
      refine cast (congrArg (Run _ _ []) ?_) (Run.refl _)
      refine Eq.trans ?_ hh.symm
      simp [settle, setVar, assign, core]
    · rw [ha]
      rfl
  · have hne : (Passing.onStack offset == Passing.inRegister) = false := rfl
    simp only [isRegArgument, hpass, hne, Bool.false_eq_true, if_false, modifyVar_ok] at hr
    obtain ⟨-, rfl⟩ := hr
    have hh := holdings_modifyVar hux (g := ({ · with state := .memory })) hf
    obtain ⟨hreg, hch⟩ := (h.moves.coherent hc).outside hv (by simp [hstate])
    have hawait : Action (u.holdings f) (.await id) [] ((u.holdings f).vacate id x.core .memory) := .await hv hstate
    refine h.more hid hx ⟨.of_modify ⟨rfl, rfl, .modify fun _ => rfl⟩ rfl hux hf fun h => h, ⟨[], ?_, rfl⟩,
      (absurd trivial)⟩ rfl ?_
      fun hs => by cases hs
    · refine .single (e := .await id) trivial ?_
      convert hawait using 1
      rw [hh]
      unfold vacate
      rw [currentReg_of_state_ne (by simp [hstate])]
      exact congrArg _ (by rw [← hreg, ← hch]; rfl)
    · rw [ha]
      exact place?_of_memory rfl (by simp [home?, hpass])

theorem all (hc : Coherent (t.holdings f)) (hidle : t.Idle f) (hp : t.Passes f args)
    (h : args.forM receiveArg t = .ok n u) : Received f t args u := by
  have key := forM_induct (P := fun rest u => ∃ ids, ids ++ rest = args ∧ Received f t ids u) ?_ h
    ⟨[], rfl, .refl t, rfl, by simp, fun _ _ => rfl⟩
  · obtain ⟨ids, hL, hr⟩ := key
    rwa [← hL, append_nil]
  rintro id rest u u' ⟨ids, hL, hr⟩ hu
  refine ⟨ids ++ [id], by rw [← hL]; simp, ?_⟩
  have hn := hp.nodup
  rw [← hL] at hn
  have hid : id ∉ ids := fun hm => (nodup_append.mp hn).2.2 _ hm _ mem_cons_self rfl
  obtain ⟨x, p, hx, hf, ha, hreg⟩ := hp.arrives id (hL ▸ by simp)
  refine hr.step hc hidle hid hx hf ha (fun r hr => usable_of_always (hreg r hr)) ?_ hu
  intro y hy z hz hza
  obtain ⟨z', -, hz', hzf, -⟩ := hp.arrives y (hL ▸ mem_append_left _ hy)
  cases hz ▸ hz'
  exact hid (hp.distinct hx hf ha hz hzf hza ▸ hy)

end Received

/-- The machine has the values of the arguments where they arrive, and no other variable has a value. -/
def Arrives {w : Nat} (s : Session) (args : List VarId) (m : Place → BitVec w)
    (σ : VarId → Option (BitVec w)) : Prop :=
  ∀ id x, σ id = some x → id ∈ args ∧ ∃ v p, s.vars.get? id = some v ∧ v.arrival = some p ∧ m p = x

theorem Passes.exists_arrives (hp : t.Passes f args) (values : VarId → BitVec w) :
    ∃ m, t.Arrives args m fun id => if id ∈ args then some (values id) else none := by
  classical
  refine ⟨fun p => if h : ∃ id ∈ args, ∃ v, t.vars.get? id = some v ∧ v.arrival = some p then values h.choose
    else 0, fun id x hx => ?_⟩
  obtain ⟨hid, hx⟩ := ite_none_right_eq_some.mp hx
  obtain ⟨v, p, hv, hf, ha, -⟩ := hp.arrives id hid
  refine ⟨hid, v, p, hv, ha, ?_⟩
  have h : ∃ id ∈ args, ∃ v, t.vars.get? id = some v ∧ v.arrival = some p := ⟨id, hid, v, hv, ha⟩
  obtain ⟨hy, y, hyv, hya⟩ := h.choose_spec
  obtain ⟨y', -, hyv', hyf, -⟩ := hp.arrives _ hy
  cases hyv ▸ hyv'
  refine (dif_pos h).trans ?_
  rw [hp.distinct hyv hyf hya hv hf ha]
  exact some.inj hx

theorem Received.agree (h : Received f t args u) (hp : t.Passes f args) (harr : t.Arrives args m σ) :
    Agree live (u.holdings f) m σ := by
  intro id x _ hx
  obtain ⟨hid, v, p, hv, ha, hm⟩ := harr id x hx
  obtain ⟨v', -, hv', hf, -⟩ := hp.arrives id hid
  cases hv ▸ hv'
  obtain ⟨y, hy, hplace, hch⟩ := h.here id hid v hv
  have hyf : y.function = f := by
    have := h.moves.fixed id
    rw [hy, hv, map_some, map_some, some.injEq] at this
    exact (function_eq this).trans hf
  refine ⟨y.core, holdings_vars_of_get? hy hyf, ⟨p, hplace.trans ha, hm⟩, fun hs hn => ?_⟩
  cases hch hs ▸ hn

end Session

namespace Session.Ready
variable {record : FunctionRecord} {stop : ItemId}
variable {body : List ItemId}

section
variable (h : s.Ready f record stop body) (hp : prepareFunction f record stop p s = .ok () t)
include h hp

theorem passes_prepared : t.Passes f record.args := by
  have hothers : ∀ {id v}, t.vars.get? id = some v → v.function = f → id ∉ record.args → v.passing = .notPassed := by
    intro id v hv hf hid
    obtain ⟨c, hr⟩ := (h.walked hp).run
    have hst := hr.static_eq id
    rw [holdings_vars_of_get? hv hf, map_some] at hst
    obtain ⟨w, hw, hst⟩ := map_eq_some_iff.mp hst.symm
    obtain ⟨x, hx, hxf, -, rfl⟩ := h.begun_vars hw
    have hpass : x.passing = v.passing := (congrArg (·.2.2.2.2) hst :)
    exact hpass ▸ h.passes.others hx hxf hid
  have harr : ∀ {id v q}, t.vars.get? id = some v → v.function = f → v.arrival = some q →
      ∃ x, s.vars.get? id = some x ∧ x.function = f ∧ x.arrival = some q := by
    intro id v q hv hf ha
    have hid : id ∈ record.args := by
      by_contra hid
      have := hothers hv hf hid
      rcases arrival_cases ha with ⟨i, hp, -⟩ | ⟨o, hp, -⟩ <;> cases this ▸ hp
    obtain ⟨x, q', hx, hxf, hxa, -⟩ := h.passes.arrives id hid
    obtain ⟨x', hx', -, ha', -⟩ := (h.walked hp).vars hx
    cases hv ▸ hx'
    cases ha' hxa ▸ ha
    exact ⟨x, hx, hxf, hxa⟩
  refine ⟨h.passes.nodup, fun id hid => ?_, fun hv hf hva hw hg hwa => ?_, hothers⟩
  · obtain ⟨v, q, hv, hf, ha, hreg⟩ := h.passes.arrives id hid
    obtain ⟨x', hx', hf', ha', -⟩ := (h.walked hp).vars hv
    exact ⟨x', q, hx', hf'.trans hf, ha' ha, hreg⟩
  · obtain ⟨x, hx, hxf, hxa⟩ := harr hv hf hva
    obtain ⟨y, hy, hyf, hya⟩ := harr hw hg hwa
    exact h.passes.distinct hx hxf hxa hy hyf hya

theorem arrives_prepared (harr : s.Arrives record.args m σ) : t.Arrives record.args m σ := by
  intro id x hx
  obtain ⟨hid, v, q, hv, ha, hm⟩ := harr id x hx
  obtain ⟨v', hv', -, ha', -⟩ := (h.walked hp).vars hv
  exact ⟨hid, v', q, hv', ha' ha, hm⟩

end

end Session.Ready

end Codegen
