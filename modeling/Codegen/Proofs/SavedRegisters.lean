import Codegen.Proofs.HomeAddresses
import Codegen.Proofs.Intact
import Codegen.Proofs.RegisterAccount
import Codegen.Proofs.SystemV

/-! The registers that a compiled function saves. Of the registers that a caller counts on, the code between the prologue
and the epilogue writes only those that the frame saves; it leaves the stack pointer alone, and the base pointer too where
the frame needs it. -/
namespace Codegen
open List Build Session Operand Builder Holdings RegMask Context
variable {frame : FrameLayout} {record : FunctionRecord} {s t : Session}
variable {args returns : List VarType} {slots : SlotPool}

theorem Opcode.implicitWrites_of_isJump {op : Opcode} (h : op.isJump = true) : op.implicitWrites = [] := by
  cases op <;> first | rfl | cases h

theorem Opcode.destinations_congr (op : Opcode) {operands operands' : List Operand}
    (h : operands'.map reg? = operands.map reg?) :
    op.destinations operands' = op.destinations operands := by
  have hexplicit : (op.explicitOperands operands').map reg? = (op.explicitOperands operands).map reg? := by
    unfold explicitOperands
    split <;> simp only [map_drop, map_nil, h]
  have hwritten : (op.writtenOperands (op.explicitOperands operands')).map reg? =
      (op.writtenOperands (op.explicitOperands operands)).map reg? := by
    unfold writtenOperands
    split <;> simp only [map_take, map_nil, hexplicit]
  have hreg : ∀ l : List Operand, l.filterMap reg? = (l.map reg?).filterMap id := fun l => by
    rw [filterMap_map]
    rfl
  rw [destinations, destinations, hreg, hreg, hwritten]

/-- The item names registers only through variables, a jump has the opcode of one, and no call passes an argument in the
stack or base pointer, as no prototype of the convention does. -/
def ItemKind.Plain (s : Session) : ItemKind → Prop
  | instruction i => i.Plain
  | jump j => j.opcode.isJump = true
  | call c => (∀ o ∈ c.args, o.reg? = none) ∧ ∀ p, s.prototypes[c.prototype.index]? = some p →
    ∀ info ∈ p.args, ∀ r, info.location = .register r → (Context.empty.allocable r.cls).contains r.index = true
  | _ => True

namespace Session
variable {stop : ItemId} {body : List ItemId}

/-- Moving the stack pointer back after a call in the body whose callee pops its arguments. -/
def Readjusts (s : Session) (body : List ItemId) (i : Instruction) : Prop :=
  ∃ x ∈ body, ∃ c p, s.items.get? x = some { kind := .call c } ∧ s.prototypes[c.prototype.index]? = some p ∧
    p.calleePopsStack = true ∧ i = p.readjustment

theorem Receives.arrives {f : FunctionId} (h : s.Receives) (hf : s.functions[f.index]? = some record)
    (hp : s.prototypes[record.prototype.index]? = some p) (hv : v ∈ record.args) :
    ∃ info ∈ p.args, ∃ x, s.vars.get? v = some x ∧ x.arrival = some info.location.place := by
  obtain ⟨q, hq, hargs⟩ := h record.signature (Array.mem_map_of_mem (Array.mem_of_getElem? hf))
  cases hp.symm.trans hq
  obtain ⟨k, hk, rfl⟩ := getElem_of_mem hv
  have hk' : k < p.args.length := hargs.length_eq ▸ hk
  exact ⟨_, getElem_mem hk', hargs.get hk hk'⟩

/-- A function whose items are plain gives the account of the registers what it needs. -/
theorem Ready.orderly (h : u.Ready f record stop body)
    (hp : u.prototypes[record.prototype.index]? = some p) (hsysv : Prototype.sysv args returns = .ok p)
    (hargs : ∀ v ∈ record.args, ∃ info ∈ p.args, u.vars.Brings v info)
    (hplain : ∀ x ∈ body, ∀ kind, u.items.get? x = some { kind } → kind.Plain u)
    (hprep : prepareFunction f record stop p u = .ok () v) :
    v.activated.Orderly f record body (u.Readjusts body) := by
  obtain ⟨hpres, hregs, hrets⟩ := Prototype.sysv_registers hsysv
  have hw := h.walked hprep
  have hctx := hw.ctx
  have hpreserved : v.activated.ctx.preserved = Assigner.calleeSaved := (congrArg preserved hctx :).trans hpres
  have hprototypes : v.activated.prototypes = u.prototypes := (congrArg prototypes hw.rest :)
  have hfunctions : v.activated.functions = u.functions := (congrArg functions hw.rest :)
  have hun : ∀ {r : Reg}, (Assigner.calleeSaved.get r.cls).contains r.index = false → v.activated.Unpromised r :=
    fun hr => by rw [Unpromised, hpreserved]; exact hr
  refine ⟨fun x hx item i hi hk => ?_, fun x hx item j hi hk => ?_, fun x hx item c hi hk => ?_,
    fun rets hr ret hret => ?_, fun id hid x r hx ha => ?_, fun x hx => (h.stateless hprep hx :),
    (congrArg forwardJumps hctx :)⟩
  · obtain ⟨kind, item', hu, hv, -, hpa, -⟩ := h.prepared_inside hprep hx
    cases hi ▸ hv
    cases kind with
    | instruction i0 =>
      obtain ⟨records, memVars, hbound, hpa⟩ := hpa
      cases hk ▸ hpa
      have hpl : i0.Plain := hplain x hx _ hu
      refine ⟨⟨hpl.stack, hpl.registers, hpl.implicit⟩, fun k ref n hop hn => ?_⟩
      obtain ⟨y, hy, hyf, hcls⟩ := h.fixed_gp hprep hx hu hop hn
      exact ⟨(hbound.binds ref.id n).mpr ⟨k, ref, hop, rfl, hn⟩, _, holdings_vars_of_get? hy hyf, hcls⟩
    | jump j =>
      obtain ⟨taken, hpa⟩ := hpa
      cases hk ▸ hpa
    | _ => cases hk ▸ hpa
  · obtain ⟨kind, item', hu, hv, -, hpa, -⟩ := h.prepared_inside hprep hx
    cases hi ▸ hv
    cases kind with
    | jump j0 =>
      obtain ⟨taken, hpa⟩ := hpa
      cases hk ▸ hpa
      exact Opcode.implicitWrites_of_isJump (hplain x hx _ hu)
    | instruction i =>
      obtain ⟨_, _, -, hpa⟩ := hpa
      cases hk ▸ hpa
    | _ => cases hk ▸ hpa
  · obtain ⟨kind, item', hu, hv, -, hpa, -⟩ := h.prepared_inside hprep hx
    cases hi ▸ hv
    cases kind with
    | call c0 =>
      cases hk ▸ hpa
      obtain ⟨hargs, hproto⟩ : (ItemKind.call c).Plain u := hplain x hx _ hu
      refine ⟨hargs, fun q hq => ?_⟩
      rw [hprototypes] at hq
      exact ⟨fun info hinfo r hr => usable_of_always (hproto q hq info hinfo r hr),
        fun hpop => ⟨x, hx, c, q, hu, hq, hpop, rfl⟩⟩
    | instruction i =>
      obtain ⟨_, _, -, hpa⟩ := hpa
      cases hk ▸ hpa
    | jump j =>
      obtain ⟨taken, hpa⟩ := hpa
      cases hk ▸ hpa
    | _ => cases hk ▸ hpa
  · have hreturns : v.activated.returnsOf f = .ok p.returns := by
      simp only [returnsOf, Session.function, prototype, hfunctions, hprototypes, h.function,
        except_bind_ok, except_pure_ok]
      exact ⟨_, rfl, p, by rw [hp], rfl⟩
    cases Except.ok.inj (hreturns ▸ hr)
    obtain ⟨hal, hal', hun1, hun2⟩ := Assigner.returning_free (hrets ret hret)
    exact ⟨⟨usable_of_always hal, hun hun1⟩, usable_of_always hal', hun hun2⟩
  · obtain ⟨info, hinfo, y, hy, hya⟩ := hargs id hid
    obtain ⟨x', hx', -, hkeep, -⟩ := hw.vars hy
    cases hx ▸ hx'
    have hloc : info.location.place = .reg r := Option.some.inj (hkeep hya ▸ ha)
    refine hun (hregs info hinfo r ?_)
    cases hl : info.location with
    | register q =>
      rw [hl] at hloc
      cases hloc
      rfl
    | stack offset =>
      rw [hl] at hloc
      cases hloc

/-- Registers that may be written, under a frame that is laid out for the registers that are marked. -/
theorem Cleared.kept {i : FrameInput} {r : Reg} (h : t.Cleared f u r) (hm : i.modified = u.ctx.modified)
    (hp : i.preserved = t.ctx.preserved) (hn : i.hints.naked = t.ctx.allocableRbp) :
    r ≠ .gp Gp.rsp ∧ (r = .gp Gp.rbp → i.hints.naked = true) ∧
      ((t.ctx.preserved.get r.cls).contains r.index = true → (i.layout.saved.get r.cls).contains r.index = true) := by
  obtain ⟨husable, hmark⟩ := h
  have hrsp : r ≠ .gp Gp.rsp := by
    rintro rfl
    have hu : ((firstN RegClass.gp.count).erase Gp.rsp).contains Gp.rsp = true := by
      unfold Usable at husable
      generalize (t.holdings f).allocableRbp = allocableRbp at husable
      cases allocableRbp with
      | true => exact husable
      | false => exact contains_of_erase husable
    cases hu
  have hrbp : r = .gp Gp.rbp → i.hints.naked = true := by
    rintro rfl
    by_contra hno
    have hoff : t.ctx.allocableRbp = false := by rw [← hn]; simpa using hno
    simp only [Usable, allocable, holdings, Reg.gp, hoff, Bool.false_eq_true, if_false, contains_erase_self] at husable
  refine ⟨hrsp, hrbp, fun hpres => ?_⟩
  have hmod : (u.ctx.modified.get r.cls).contains r.index = true := hmark.resolve_right fun hun => by
    rw [Unpromised, hpres] at hun
    cases hun
  rw [← hm] at hmod
  rw [← hp] at hpres
  obtain ⟨cls, n⟩ := r
  cases cls with
  | gp =>
    have hne : Gp.rsp ≠ n := fun he => hrsp (by rw [← he]; rfl)
    have hboth : ((i.modified.gp.inter i.preserved.gp).erase Gp.rsp).contains n = true := by
      rw [contains_erase_of_ne _ hne, contains_inter, Bool.and_eq_true]
      exact ⟨hmod, hpres⟩
    show (if i.hints.naked then _ else _ : RegMask).contains n = true
    split
    · exact hboth
    rename_i hnaked
    rw [contains_erase_of_ne _ fun he => hnaked (hrbp (by rw [← he]; rfl))]
    exact hboth
  | mm | xmm =>
    exact (contains_inter ..).trans (Bool.and_eq_true .. ▸ ⟨hmod, hpres⟩)

end Session

namespace Build
variable {ids : List ItemId}

theorem bindOperand_reg? (h : bindOperand frame slots o = .ok o') : o'.reg? = o.reg? := by
  obtain ⟨-, rfl | ⟨m, base, disp, rfl, rfl⟩⟩ := bindOperand_ok h <;> rfl

theorem bindOperands_reg? (h : Forall₂ (fun o o' => bindOperand frame slots o = .ok o') l l') :
    l'.map reg? = l.map reg? := by
  induction h with
  | nil => rfl
  | cons ho _ ih => rw [map_cons, map_cons, bindOperand_reg? ho, ih]

theorem bindHomes_accounted
    (hE : ∀ i, E i → i.operands.any hasHome = false) (h : ids.forM (bindHomes frame) s = .ok () t)
    (hs : ∀ item, s.items.get? x = some item → item.kind.Accounted E P true) :
    ∀ item, t.items.get? x = some item → item.kind.Accounted E P true := by
  refine forM_induct (P := fun _ u => ∀ item, u.items.get? x = some item → item.kind.Accounted E P true)
    (fun id _ u u' hu hid => ?_) h hs
  rcases bindHomes_ok hid with ⟨rfl, -⟩ | ⟨item, i, operands, hi, hk, hhome, hbind, rfl⟩
  · exact hu
  intro item' hi'
  by_cases hx : x = id
  · subst hx
    rw [withKind, ItemSeq.get?_modify_self, hi] at hi'
    cases hi'
    have hacc := hu item hi
    rw [hk] at hacc
    intro _
    rcases hacc rfl with he | hd
    · rw [hE _ he] at hhome
      cases hhome
    · exact .inr fun r hr => hd r (Opcode.destinations_congr _ (bindOperands_reg? hbind) ▸ hr)
  · rw [withKind, ItemSeq.get?_modify_of_ne _ (Ne.symm hx)] at hi'
    exact hu item' hi'

end Build

theorem ItemKind.Accounted.writes {kind : ItemKind}
    (h : kind.Accounted E P true) (hg : g ∈ s.codeOf kind) (hr : g.Writes r) :
    (∃ i, E i ∧ g = i.given) ∨ P r := by
  cases kind with
  | instruction i =>
    cases mem_singleton.mp hg
    exact (h rfl).imp (fun he => ⟨_, he, rfl⟩) fun hd => hd r hr
  | jump j =>
    cases mem_singleton.mp hg
    rcases mem_append.mp hr with hr | hr
    · rw [h.1] at hr
      cases hr
    obtain ⟨o, ho, hr⟩ := mem_filterMap.mp hr
    cases mem_singleton.mp (Opcode.writtenOperands_subset _ _ ho)
    cases hr
  | target g =>
    cases mem_singleton.mp hg
    cases hr
  | ret q =>
    simp only [codeOf] at hg
    split at hg
    · obtain ⟨record, -, rfl⟩ := mem_map.mp hg
      cases hr
    · cases hg
  | _ => cases hg

namespace Session
variable {stop last : ItemId} {body : List ItemId}

/-- The code that lowering a function leaves, but for that of the frame, writes registers that may be written when the
frame is laid out. -/
theorem Ready.lowered_accounted (h : u.Ready f record stop body) (hclosed : u.Closed body)
    (hlab : u.Labelled) (hproto : u.prototypes[record.prototype.index]? = some p)
    (hsysv : Prototype.sysv args returns = .ok p) (hargs : ∀ v ∈ record.args, ∃ info ∈ p.args, u.vars.Brings v info)
    (hplain : ∀ x ∈ body, ∀ kind, u.items.get? x = some { kind } → kind.Plain u)
    (hp : u.Prepared f record stop v) (hl : lowerFunction f u = .ok (record.item, last, frame) t) :
    ∃ entry exit P E, t.labels[record.entryLabel.index]? = some entry ∧ t.labels[record.exitLabel.index]? = some exit ∧
      t.Framed entry exit frame P E ∧ ∃ (w : Session) (i : FrameInput), frame = i.layout ∧ i.hints = record.hints ∧
        i.modified = w.ctx.modified ∧ i.preserved = v.ctx.preserved ∧
        ∀ x ∈ t.items.order, x ∈ body ∨ u.items.size ≤ x.index → x ∉ P → x ∉ E → ∀ item, t.items.get? x = some item →
          item.kind.Accounted (u.Readjusts body) (v.activated.Cleared f w) true := by
  obtain ⟨q, w, a, b, hw, ha, hb, hbind, entry, exit, P, E, hentry, hexit, hframed, hold⟩ :=
    lowerFunction_framed hlab hp hl
  obtain ⟨p', hproto', hv⟩ := hp.prepared
  cases hproto ▸ hproto'
  obtain ⟨z, hz, rfl⟩ := translateAll_visits hw
  have hlaunch := h.launch hv hclosed
  have hmid := (hz.sound hlaunch).1
  have hacc := hz.accountable hlaunch (h.orderly hproto hsysv hargs hplain hv)
  obtain ⟨hitems, i, rfl, hhints, hmod, hpres⟩ := layOutFrame_ok ha
  refine ⟨entry, exit, P, E, hentry, hexit, hframed, z, i, rfl, hhints, hmod, ?_, ?_⟩
  · rw [hpres]
    exact (congrArg preserved hmid.continues.ctx :)
  intro x hx hin hP hE
  obtain ⟨hlt, hxz⟩ := hold x hx hP hE
  refine bindHomes_accounted ?_ hbind fun item hi => ?_
  · rintro _ ⟨y, -, c, q, -, -, -, rfl⟩
    rfl
  rw [insertFrameCode_get?_of_lt hb (by rwa [hitems]), hitems] at hi
  have hin' : x ∈ body ∨ v.activated.items.size ≤ x.index := hin.imp_right ((h.walked hv).order.2 ▸ ·)
  have hdone : item.translated = true := by
    rcases hin' with hbody | hge
    · obtain ⟨item', hi', htr⟩ := hz.done hlaunch (h.blocks hv) (h.position hv) hbody hxz
      cases hi ▸ hi'
      exact htr
    · exact (hmid.generated hge hi).1
  exact hdone ▸ hacc.items hin' hi

/-- Writing the register does no harm to the caller. Of the registers that the System V convention promises to it, this is
one that the frame saves. It is not the stack pointer, except to take back what a callee popped, nor the base pointer unless
the function is naked. -/
def Harmless (s : Session) (body : List ItemId) (record : FunctionRecord) (frame : FrameLayout) (g : Given) (r : Reg) :
    Prop :=
  (∃ i, s.Readjusts body i ∧ g = i.given ∧ r = .gp Gp.rsp) ∨
    r ≠ .gp Gp.rsp ∧ (r = .gp Gp.rbp → record.hints.naked = true) ∧
      ((Assigner.calleeSaved.get r.cls).contains r.index = true → (frame.saved.get r.cls).contains r.index = true)

/-- The code of a function, but for that of its frame, writes registers only where this is harmless. -/
theorem Ready.lowered_writes (h : u.Ready f record stop body) (hclosed : u.Closed body) (hlab : u.Labelled)
    (hproto : u.prototypes[record.prototype.index]? = some p) (hsysv : Prototype.sysv args returns = .ok p)
    (hargs : ∀ v ∈ record.args, ∃ info ∈ p.args, u.vars.Brings v info)
    (hplain : ∀ x ∈ body, ∀ kind, u.items.get? x = some { kind } → kind.Plain u)
    (hp : u.Prepared f record stop v) (hl : lowerFunction f u = .ok (record.item, last, frame) t) :
    ∃ entry exit P E, t.labels[record.entryLabel.index]? = some entry ∧ t.labels[record.exitLabel.index]? = some exit ∧
      t.Framed entry exit frame P E ∧
      ∀ x ∈ t.items.range record.item last, x ∉ P → x ∉ E → ∀ g ∈ t.codeAt x, ∀ r, g.Writes r →
        u.Harmless body record frame g r := by
  obtain ⟨p', hproto', hv⟩ := hp.prepared
  cases hproto.symm.trans hproto'
  obtain ⟨entry, exit, P, E, hentry, hexit, hframed, w, i, rfl, hhints, hmod, hpres, hacc⟩ :=
    h.lowered_accounted hclosed hlab hproto hsysv hargs hplain hp hl
  have hctx := (h.walked hv).ctx
  have hpreserved : v.ctx.preserved = Assigner.calleeSaved :=
    (congrArg Context.preserved hctx :).trans (Prototype.sysv_registers hsysv).1
  have hnaked : i.hints.naked = v.activated.ctx.allocableRbp := by
    rw [hhints]
    exact (congrArg Context.allocableRbp hctx :).symm
  refine ⟨entry, exit, P, E, hentry, hexit, hframed, fun x hx hP hE g hg r hr => ?_⟩
  rcases h.lowered_range hp hl hx with hnil | ⟨hin, hmem⟩
  · rw [hnil] at hg
    cases hg
  cases hi : t.items.get? x with
  | none =>
    simp only [codeAt, hi] at hg
    cases hg
  | some item =>
    rw [codeAt_of_get? hi] at hg
    rcases (hacc x hmem hin hP hE item hi).writes hg hr with ⟨j, hj, rfl⟩ | hclear
    · obtain ⟨y, -, call, q, -, -, -, rfl⟩ := id hj
      exact .inl ⟨_, hj, rfl, List.mem_singleton.mp hr⟩
    · obtain ⟨hrsp, hrbp, hsaved⟩ := hclear.kept hmod hpres hnaked
      refine .inr ⟨hrsp, fun he => hhints ▸ hrbp he, fun hr => hsaved ?_⟩
      show (v.ctx.preserved.get r.cls).contains r.index = true
      rwa [hpreserved]

end Session

/-- Callee-saved registers are not clobbered, in a program whose jumps stay inside their functions: the code that is handed
over for a function, but for that of its frame, writes registers only where this is harmless. -/
theorem Compile.Lowers.writes_saved {ε : Type} [Encoder ε] [Encoder.Shows ε] {calls : List Call} {options : Options}
    {stop last : ItemId} (hb : program calls { options } = .ok () s) (hsec : s.Secluded)
    (h : Lowers ε s f record stop last frame u v t) (hproto : u.prototypes[record.prototype.index]? = some p)
    (hsysv : Prototype.sysv args returns = .ok p)
    (hplain : ∀ x ∈ s.bodyOf record stop, ∀ kind, s.items.get? x = some { kind } → kind.Plain s) :
    (∀ c c' : Compilation ε, c.session = u → compileFunction f c = .ok last c' →
      (c'.session.functions[f.index]?).bind FunctionRecord.frame = some frame ∧
      Encoder.Gives Encoder.Shows.given ((t.items.range record.item last).flatMap t.codeAt) c.encoder c'.encoder) ∧
    ∃ entry exit P E, t.labels[record.entryLabel.index]? = some entry ∧ t.labels[record.exitLabel.index]? = some exit ∧
      t.Framed entry exit frame P E ∧
      ∀ x ∈ t.items.range record.item last, x ∉ P → x ∉ E → ∀ g ∈ t.codeAt x, ∀ r, g.Writes r →
        s.Harmless (s.bodyOf record stop) record frame g r := by
  have hs := program_fresh hb
  obtain ⟨rest, e, hr⟩ := h.comes
  have hu := hr.untouched hs hsec
  have hprotos : u.prototypes = s.prototypes := hr.builds.prototypes
  obtain ⟨site, record, w, -, -, -, rfl, hready, hru, -, hclosed, -⟩ := hu.lowered hs hsec (hu.opens h.opens) h.lowered
  cases hru.function ▸ h.prepared.function
  cases hru.closed ▸ h.prepared.closed
  rw [hready.bodyOf_eq] at hplain ⊢
  have hitem : ∀ x ∈ site.body, u.items.get? x = s.items.get? x := fun x hx => hu.items x (by simp [hx])
  have hargs : ∀ v ∈ record.args, ∃ info ∈ p.args, u.vars.Brings v info := fun v hv => by
    obtain ⟨info, hinfo, x, hx, harr⟩ := (program_receives hb).arrives hready.function (hprotos ▸ hproto) hv
    obtain ⟨y, -, hy, hyf, -⟩ := hready.passes.arrives v hv
    cases hx ▸ hy
    exact ⟨info, hinfo, x, (hu.vars hready.function mem_cons_self hyf).mpr hx, harr⟩
  have hplain' : ∀ x ∈ site.body, ∀ kind, u.items.get? x = some { kind } → kind.Plain u := fun x hx kind hi => by
    have hpl := hplain x hx kind (hitem x hx ▸ hi)
    cases kind with
    | call c => exact ⟨hpl.1, fun q hq => hpl.2 q (hprotos ▸ hq)⟩
    | _ => exact hpl
  refine ⟨fun c c' hc hcomp => ?_, ?_⟩
  · subst hc
    obtain ⟨frame', v', t', hknown, -, hl, hgives⟩ := Ready.compiled (c := c) hru hcomp
    cases hl ▸ h.lowered
    exact ⟨hknown, hgives⟩
  obtain ⟨entry, exit, P, E, hentry, hexit, hframed, hwrites⟩ :=
    hru.lowered_writes hclosed hu.labelled hproto hsysv hargs hplain' h.prepared h.lowered
  refine ⟨entry, exit, P, E, hentry, hexit, hframed, fun x hx hP hE g hg r hr => ?_⟩
  refine (hwrites x hx hP hE g hg r hr).imp_left ?_
  rintro ⟨i, ⟨y, hy, call, q, hi, hq, hpops⟩, he⟩
  exact ⟨i, ⟨y, hy, call, q, hitem y hy ▸ hi, hprotos ▸ hq, hpops⟩, he⟩

instance : (o : Option Operand) → Decidable (∃ ref, o = some (.var ref))
  | some (.var ref) => .isTrue ⟨ref, rfl⟩
  | none | some (.reg _) | some (.mem _) | some (.imm _) | some (.label _) => .isFalse (by simp)

instance (i : InstructionItem) : Decidable i.Plain :=
  decidable_of_iff (i.opcode.movesStack = false ∧ (∀ o ∈ i.operands, o.reg? = none) ∧
      ∀ k < i.opcode.implicitCount, ∃ ref, i.operands[k]? = some (.var ref))
    ⟨fun ⟨hs, hr, hi⟩ => ⟨hs, hr, hi⟩, fun h => ⟨h.stack, h.registers, h.implicit⟩⟩

/-- A function that asks for what the processor is, which takes a register that the caller counts on. -/
def Builder.readsCpu : List Call :=
  let a : VarRef := ⟨⟨0⟩, 8⟩
  let b : VarRef := ⟨⟨1⟩, 8⟩
  let c : VarRef := ⟨⟨2⟩, 8⟩
  let d : VarRef := ⟨⟨3⟩, 8⟩
  [.newFunction [.gpq] [.gpq] { pushPop := true }, .newVar .gpq, .newVar .gpq, .newVar .gpq, .emit .mov [.var c, .imm 0],
    .emit .cpuid [.var a, .var b, .var c, .var d], .ret [.var b], .endFunction]

/-- Asking for what the processor is writes `rbx`, which the frame therefore saves. -/
theorem Compile.Lowers.writes_saved_readsCpu : ∃ s record stop last frame u v t p,
    program readsCpu { options := {} } = .ok () s ∧ s.Secluded ∧ Lowers Recorder s ⟨0⟩ record stop last frame u v t ∧
    u.prototypes[record.prototype.index]? = some p ∧ Prototype.sysv [.gpq] [.gpq] = .ok p ∧
    (∃ x ∈ t.items.range record.item last, t.codeAt x = [.instruction .cpuid []]) ∧
    (frame.saved.get .gp).contains Gp.rbx = true := by
  obtain ⟨q, hq, hd⟩ := Option.any_eq_true _ _ |>.mp (show (lowerFirst readsCpu).any (fun q =>
      q.source.items.order.head? = some q.record.item ∧ opens? q.start.session q.record.item = some ⟨0⟩ ∧
      q.source.Secluded ∧ Prototype.sysv [.gpq] [.gpq] = .ok q.prototype ∧
      (∀ x ∈ q.source.bodyOf q.record q.stop, (q.source.items.get? x).all (fun item =>
        match item.kind with
        | .instruction i => decide i.Plain
        | .jump _ | .call _ => false
        | _ => true) = true) ∧
      ∃ x ∈ q.lowered.items.range q.record.item q.last, q.lowered.codeAt x = [.instruction .cpuid []] ∧
        .instruction .cpuid [] ∉ (q.frame.prologue ++ q.frame.epilogue).map Instruction.given) = true by decide +kernel)
  obtain ⟨hhead, hopens, hsec, hsysv, hplain, x, hx, hcode, hnone⟩ := of_decide_eq_true hd
  obtain ⟨hp, hl, hproto⟩ := lowerFirst_ok hq hhead hopens
  have hplain' : ∀ x ∈ q.source.bodyOf q.record q.stop, ∀ kind, q.source.items.get? x = some { kind } →
      kind.Plain q.source := by
    intro x hx kind hi
    have hk := hplain x hx
    rw [hi] at hk
    cases kind with
    | instruction i => exact (of_decide_eq_true hk : i.Plain)
    | jump j => cases hk
    | call c => cases hk
    | _ => trivial
  obtain ⟨-, entry, exit, P, E, -, -, hframed, hsaved⟩ := writes_saved hp hsec hl hproto hsysv hplain'
  have hg : Given.instruction .cpuid [] ∈ q.lowered.codeAt x := by simp [hcode]
  refine ⟨_, _, _, _, _, _, _, _, _, hp, hsec, hl, hproto, hsysv, ⟨x, hx, hcode⟩, ?_⟩
  rcases hsaved x hx (fun hP => hnone (hframed.given_mem (.inl hP) hg)) (fun hE => hnone (hframed.given_mem (.inr hE) hg))
      _ hg (.gp Gp.rbx) (by decide) with ⟨_, -, -, h⟩ | ⟨-, -, h⟩
  · exact absurd h (by decide)
  · exact h (by decide)

/-- A function that jumps into the next one and, behind that, to a label in front of it. -/
def Builder.intrudes : List Call :=
  let v : VarRef := ⟨⟨0⟩, 8⟩
  [.newLabel, .newLabel, .bind ⟨0⟩, .newFunction [] [] {}, .jump .jmp ⟨1⟩ .none, .jump .jmp ⟨0⟩ .none, .endFunction,
    .newFunction [] [.gpq] {}, .newVar .gpq, .bind ⟨1⟩, .hint v .alloc (some (.gp Gp.rbx)), .emit .mov [.var v, .imm 5],
    .ret [.var v], .endFunction]

/-- A jump into a function may cost the caller a register: what the code writes is put down to the function that jumps,
and the frame around the code does not save it. -/
theorem Compile.intruded_function_clobbers : ∃ s, ∃ c : Compilation Recorder,
    program intrudes { options := {} } = .ok () s ∧ serialize ⟨s, Encoder.fresh⟩ = .ok () c ∧
    (∃ frame ∈ (c.session.functions[1]?).bind FunctionRecord.frame, (frame.saved.get .gp).contains Gp.rbx = false) ∧
    [.instruction .push [gpq Gp.rbp], .instruction .mov [gpq Gp.rbp, gpq Gp.rsp], .label ⟨1⟩,
      .instruction .mov [gpq Gp.rbx, .imm 5]] <:+: c.encoder.entries.toList := by
  obtain ⟨⟨s, c⟩, hsc, hd⟩ := Option.any_eq_true _ _ |>.mp
    (show (recorded intrudes).any (fun (_, c) =>
      (∃ frame ∈ (c.session.functions[1]?).bind FunctionRecord.frame, (frame.saved.get .gp).contains Gp.rbx = false) ∧
      [.instruction .push [gpq Gp.rbp], .instruction .mov [gpq Gp.rbp, gpq Gp.rsp], .label ⟨1⟩,
        .instruction .mov [gpq Gp.rbx, .imm 5]] <:+: c.encoder.entries.toList) = true by decide +kernel)
  obtain ⟨hp, hs⟩ := recorded_ok hsc
  exact ⟨s, c, hp, hs, of_decide_eq_true hd⟩

end Codegen
