import Codegen.Proofs.BuilderSteps
import Codegen.Proofs.Framing

/-! Where the stack parameters of a function live: right above the return address, at the offsets that the prototype of
the function gives them. Opening a function puts them there, and neither building nor compiling the rest of the program
moves them. -/
namespace Codegen
open List Session VarTable Context

/-- What a function takes over from the prototype that it is opened with. -/
def FunctionRecord.signature (r : FunctionRecord) : List VarId × PrototypeId := (r.args, r.prototype)

namespace Session
variable {s t : Session} {args : List VarId}

/-- A step from one session to another that keeps the stack parameters and the prototypes of functions. -/
structure Builds (s s' : Session) : Prop where
  vars : ∀ {v x}, s.vars.get? v = some x → ∃ x', s'.vars.get? v = some x' ∧
    ∀ offset, x.passing = .onStack offset → x'.passing = .onStack offset
  prototypes : s'.prototypes = s.prototypes
  functions : s'.functions.map FunctionRecord.signature = s.functions.map FunctionRecord.signature

theorem Builds.trans (h : s.Builds t) (h' : t.Builds u) : s.Builds u where
  vars hv := by
    obtain ⟨x', hx', hk⟩ := h.vars hv
    obtain ⟨x'', hx'', hk'⟩ := h'.vars hx'
    exact ⟨x'', hx'', fun o ho => hk' o (hk o ho)⟩
  prototypes := h'.prototypes.trans h.prototypes
  functions := h'.functions.trans h.functions

theorem Builds.quiet (hv : t.vars.vars = s.vars.vars) (hp : t.prototypes = s.prototypes)
    (hf : t.functions = s.functions) :
    s.Builds t where
  vars h := ⟨_, by rwa [get?, hv], fun _ ho => ho⟩
  prototypes := hp
  functions := by rw [hf]

/-- Each stack parameter lives above the return address, at its offset in the prototype. -/
def Seats (s : Session) (args : List VarId) (p : Prototype) : Prop :=
  Forall₂ (fun v info => ∀ offset : Nat, info.location = .stack offset →
    ∃ x, s.vars.get? v = some x ∧ x.passing = .onStack (offset + 8)) args p.args

/-- The arguments of every function arrive where its prototype places them. -/
def Receives (s : Session) : Prop :=
  ∀ g ∈ s.functions.map FunctionRecord.signature, ∃ p, s.prototypes[g.2.index]? = some p ∧
    Forall₂ s.vars.Brings g.1 p.args

theorem Receives.mono (h : s.Receives) (hv : ∀ {v info}, s.vars.Brings v info → t.vars.Brings v info)
    (hp : ∀ {i : Nat} {p}, s.prototypes[i]? = some p → t.prototypes[i]? = some p)
    (hf : t.functions.map FunctionRecord.signature = s.functions.map FunctionRecord.signature) : t.Receives := by
  intro g hg
  rw [hf] at hg
  obtain ⟨p, hproto, hargs⟩ := h g hg
  exact ⟨p, hp hproto, hargs.imp fun _ _ => hv⟩

theorem Seats.passing {k offset : Nat} {info : ArgumentInfo} (h : s.Seats args p) (hy : args[k]? = some y)
    (hi : p.args[k]? = some info) (hl : info.location = .stack offset) :
    ∃ x, s.vars.get? y = some x ∧ x.passing = .onStack (offset + 8) := by
  obtain ⟨hk, rfl⟩ := List.getElem?_eq_some_iff.mp hy
  obtain ⟨hk', rfl⟩ := List.getElem?_eq_some_iff.mp hi
  exact List.Forall₂.get h hk hk' offset hl

theorem Seats.builds (h : s.Seats args p) (hb : s.Builds t) : t.Seats args p := by
  refine Forall₂.imp (fun v info hv offset ho => ?_) h
  obtain ⟨x, hx, hp⟩ := hv offset ho
  obtain ⟨x', hx', hk⟩ := hb.vars hx
  exact ⟨x', hx', hk _ hp⟩

theorem Seats.of_brings (h : Forall₂ s.vars.Brings args p.args) : s.Seats args p := by
  refine h.imp fun v info ⟨x, hx, harr⟩ offset ho => ⟨x, hx, ?_⟩
  rw [ho] at harr
  rcases Variable.arrival_cases harr with ⟨_, -, -, he⟩ | ⟨_, hpass, he⟩
  · cases he
  · cases he
    exact hpass

end Session

namespace Builder

theorem Act.receives (h : Act c s s') (hs : s.Receives) : s'.Receives := by
  cases h with
  | append | bind | label | target => exact hs.mono id id rfl
  | var => exact hs.mono (fun ⟨x, hx, ha⟩ => ⟨x, (get?_push_of_lt (lt_size_of_get? hx)).trans hx, ha⟩) id rfl
  | priority id priority =>
    refine hs.mono (fun {v _} ⟨x, hx, ha⟩ => ?_) (fun h => h) rfl
    by_cases hv : v = id
    · subst hv
      exact ⟨_, (get?_modify_self ..).trans (congrArg (Option.map _) hx), ha⟩
    · exact ⟨x, (get?_modify_of_ne _ (Ne.symm hv) _).trans hx, ha⟩
  | prototype => exact hs.mono id (fun h => by grind) rfl
  | @opens record vars entry p _ _ _ _ _ _ _ _ hold _ _ hproto hargs =>
    have hvars : ({ s with vars } : Session).Receives := hs.mono (fun ⟨x, hx, ha⟩ => ⟨x, hold hx, ha⟩) id rfl
    intro g hg
    simp only [Array.map_push, Array.mem_push] at hg
    rcases hg with hg | rfl
    · exact hvars g hg
    · exact ⟨p, hproto, hargs⟩
  | closes =>
    refine hs.mono id id (Array.ext (by simp) fun i _ _ => ?_)
    simp only [Array.getElem_map, Array.getElem_modify]
    split <;> rfl

theorem program_receives {calls : List Call} {options : Options} (h : program calls { options } = .ok u s) : s.Receives :=
  (program_induct (fun _ _ _ _ ha _ => ha.receives) (fun g hg => by simp at hg) h).2

end Builder

namespace Build
variable {u : Session} {record : FunctionRecord} {start stop last : ItemId}
variable {frame : FrameLayout}

theorem prepareItem_builds {id : ItemId} (hf : u.ctx.function = some f) (h : prepareItem id u = .ok () v) :
    u.Builds v ∧ v.ctx.function = some f ∧ (u.ctx.CallSpace → v.ctx.CallSpace) := by
  obtain ⟨item, args, -, hp⟩ := exists_prepares hf h
  refine ⟨⟨fun {id x} hx => ?_, ?_, ?_⟩, (congrArg Context.function hp.ctx :).trans hf, hp.calls⟩
  · obtain ⟨x', hx', -, harr, -⟩ := hp.vars hx
    refine ⟨x', hx', fun offset ho => ?_⟩
    have harr' := harr (p := .home (.argument offset)) (by simp [Variable.arrival, ho])
    rcases Variable.arrival_cases harr' with ⟨_, -, -, he⟩ | ⟨_, hpass, he⟩
    · cases he
    · cases he
      exact hpass
  · exact (congrArg prototypes hp.rest :)
  · rw [show v.functions = u.functions from (congrArg functions hp.rest :)]

theorem prepareFunction_builds (h : prepareFunction f record stop p u = .ok () v) : u.Builds v ∧ v.ctx.CallSpace := by
  simp only [prepareFunction, beginFunction, bind_ok, modify_ok] at h
  obtain ⟨_, t, ht, _, _, ⟨⟩, h⟩ := h
  have hbegin : u.Builds t := by
    rw [← ht]
    exact .quiet rfl rfl rfl
  obtain ⟨hb, -, hc⟩ := forM_induct (P := fun _ w => u.Builds w ∧ w.ctx.function = some f ∧ w.ctx.CallSpace)
    (fun _ _ w w' hw hi => by
      obtain ⟨hb, hf, hc⟩ := prepareItem_builds hw.2.1 hi
      exact ⟨hw.1.trans hb, hf, hc hw.2.2⟩) h ⟨hbegin, by rw [← ht], by rw [← ht]; exact fun _ => rfl⟩
  exact ⟨hb, hc⟩

theorem builds_of_continues (h : u.Continues v) : u.Builds v := by
  refine ⟨fun {id x} hx => ?_, ?_, ?_⟩
  · obtain ⟨x', hx', he⟩ := h.vars.get?_new hx
    exact ⟨x', hx', fun offset ho => (congrArg (·.1.2.2.2.2) he : x'.passing = x.passing).trans ho⟩
  · exact (congrArg prototypes h.rest :)
  · rw [show v.functions = u.functions from (congrArg functions h.rest :)]

theorem translateAll_continues (h : translateAll start v = .ok () w) :
    v.Builds w ∧ w.ctx.isCaller = v.ctx.isCaller ∧ w.ctx.callStackSize = v.ctx.callStackSize := by
  obtain ⟨m, hv, rfl⟩ := translateAll_visits h
  have hc := hv.continues
  have hstart : v.Builds v.activated := .quiet rfl rfl rfl
  refine ⟨hstart.trans ((builds_of_continues hc).trans (.quiet rfl rfl rfl)), ?_, ?_⟩
  · exact (congrArg isCaller hc.ctx :)
  · exact (congrArg callStackSize hc.ctx :)

theorem lowerFunction_builds (hp : u.Prepared f record stop v)
    (h : lowerFunction f u = .ok (start, last, frame) t) :
    ∃ p w a b, u.prototypes[record.prototype.index]? = some p ∧ translateAll start v = .ok () w ∧
      layOutFrame record p w = .ok frame a ∧ insertFrameCode record frame a = .ok () b ∧
      (b.items.range start last).forM (bindHomes frame) b = .ok () t ∧ u.Builds b ∧
      b.Builds t ∧ w.ctx.CallSpace := by
  obtain ⟨-, p, w, a, b, hproto, hw, ha, hb, -, hbind⟩ := lowerFunction_ok hp h
  obtain ⟨q, -, hv⟩ := hp.prepared
  obtain ⟨hprep, hcalls⟩ := prepareFunction_builds hv
  obtain ⟨htrans, hcaller, hsize⟩ := translateAll_continues hw
  have hlay : w.Builds a := by
    obtain ⟨_, _, ⟨rfl, rfl⟩, _, _, rfl, _, _, ⟨rfl, rfl⟩, -, rfl⟩ := ha
    exact .quiet rfl rfl rfl
  have hins : a.Builds b := by
    rw [insertFrameCode_rest hb]
    exact .quiet rfl rfl rfl
  refine ⟨p, w, a, b, hproto, hw, ha, hb, hbind, hprep.trans (htrans.trans (hlay.trans hins)), ?_, ?_⟩
  · rw [(bindAll_rest hbind).1]
    exact .quiet rfl rfl rfl
  unfold CallSpace
  rwa [hcaller, hsize]

end Build

namespace Compile
open Encoder (Shows)
variable [Encoder ε] [Shows ε] {c' : Compilation ε} {m : Delivery ε}

theorem compileFunction_builds (h : compileFunction f c = .ok last c') : c.session.Builds c'.session := by
  obtain ⟨start, frame, t, ht, ⟨stats, hs⟩, -⟩ := compileFunction_ok h
  obtain ⟨record, stop, v, hp⟩ := Build.exists_prepared ht
  obtain ⟨-, -, -, b, -, -, -, -, -, hb, hb', -⟩ := Build.lowerFunction_builds hp ht
  refine (hb.trans hb').trans ?_
  rw [hs]
  refine ⟨fun h => ⟨_, h, fun _ ho => ho⟩, rfl, Array.ext (by simp) fun i _ _ => ?_⟩
  simp only [Array.getElem_map, Array.getElem_modify]
  split <;> rfl

theorem Reaches.builds (h : Reaches s m) : s.Builds m.state.session := by
  obtain ⟨d, hd, hrun⟩ := h
  induction hrun with
  | refl =>
    obtain ⟨stats, hs⟩ := (defineLabels_hands hd).session
    rw [hs]
    exact .quiet rfl rfl rfl
  | tail _ ha ih =>
    refine ih.trans ?_
    cases ha with
    | item _ he =>
      obtain ⟨stats, hs⟩ := (emitItem_hands he).session
      rw [hs]
      exact .quiet rfl rfl rfl
    | function _ hcomp => exact compileFunction_builds hcomp

end Compile

end Codegen
