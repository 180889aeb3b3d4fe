import Codegen.Proofs.Resolution
import Codegen.Proofs.Transcript

/-! What a recorder accepts. An instruction is turned down if an operand is not resolved, or names a label that was not
defined, and a label if it was not defined, or was marked before. None of that happens in a program whose jumps stay inside
their functions, as long as nothing outside of functions stands for a place in a frame. -/
namespace Codegen
variable {c : Compilation Recorder} {rest : List ItemId}

/-- The operand stands for a place in a frame, without a variable. -/
def Operand.isRaw : Operand → Bool
  | .mem m => match m.home with
    | some (.slot _) | some (.argument _) => true
    | _ => false
  | _ => false

theorem Operand.isResolved_of_vars {o : Operand} (hv : o.vars = []) (hr : o.isRaw = false) : o.isResolved = true := by
  cases o with
  | var v => cases hv
  | mem m =>
    obtain ⟨haddr, hhome⟩ := List.append_eq_nil_iff.mp hv
    have hnone : m.home = none := by
      cases hm : m.home with
      | none => rfl
      | some home =>
        cases home with
        | var v => simp [Mem.homeVar, hm] at hhome
        | slot | argument => simp [isRaw, hm] at hr
    simp [isResolved, Mem.isResolved, haddr, hnone]
  | _ => rfl

/-- The item is an instruction with a raw operand. -/
def ItemKind.IsRaw (k : ItemKind) : Prop := ∃ i, k = .instruction i ∧ ∃ o ∈ i.operands, o.isRaw = true

instance : ItemKind.OfCode ItemKind.IsRaw where
  code := fun ⟨_, hk, _⟩ => hk ▸ rfl

namespace Session

/-- If the item is an instruction, its operands are resolved. -/
def ResolvedAt (u : Session) (x : ItemId) : Prop :=
  ∀ item i, u.items.get? x = some item → item.kind = .instruction i → ∀ o ∈ i.operands, o.isResolved = true

end Session

namespace Recorder
variable {r : Recorder} {op : Opcode} {operands : List Operand}

theorem emit_ok (h : ∀ o ∈ operands, o.isResolved = true ∧ ∀ l, o = .label l → r.labels.isDefined l = true) :
    r.emit op operands = (.ok (), r.push (.instruction op operands)) := by
  have hcheck : operands.forM r.checkOperand = .ok () := by
    induction operands with
    | nil => rfl
    | cons o operands ih =>
      have ho : r.checkOperand o = .ok () := by
        obtain ⟨hres, hlab⟩ := h o List.mem_cons_self
        cases o with
        | label l => simp [checkOperand, hlab l rfl]
        | _ => simp [checkOperand, hres]
      have hrest := ih fun o' ho' => h o' (.tail _ ho')
      show (r.checkOperand o >>= fun _ => operands.forM r.checkOperand) = _
      rwa [ho]
  simp only [emit, hcheck]

theorem markLabel_ok (hd : r.labels.isDefined l = true) (hm : r.labels.isMarked l = false) :
    ∃ r', r.markLabel l = .ok r' := by
  simp [markLabel, LabelBook.mark, hd, hm, bind, Except.bind, pure, Except.pure]

end Recorder

namespace Delivery

/-- All labels are known to the recorder. -/
def Knows (m : Delivery Recorder) : Prop :=
  ∀ {l : LabelId}, l.index < m.state.session.labels.size → m.state.encoder.labels.isDefined l = true

/-- The recorder knows all labels, and those are marked whose targets it was given. -/
structure Fit (m : Delivery Recorder) : Prop where
  labelled : m.state.session.Labelled
  order : ∃ done, m.state.session.items.order = done ++ m.rest
  named : m.state.session.Named
  marks : m.Marks
  knows : m.Knows

end Delivery

namespace Compile
open Build (UnhinderedAt Unhindered)
open Session

theorem emitInstruction_unhinderedAt
    (h : ∀ o ∈ operands, o.isResolved = true ∧ ∀ l, o = .label l → c.encoder.labels.isDefined l = true) :
    UnhinderedAt S (emitInstruction op operands) c := by
  have hemit : Encoder.emit c.encoder op operands = (.ok (), c.encoder.push (.instruction op operands)) := Recorder.emit_ok h
  have hok : emitInstruction op operands c = onSession (Build.modifyStats (·.recordInstruction op))
      { c with encoder := c.encoder.push (.instruction op operands) } := by
    unfold emitInstruction
    rw [Build.bind_eq_of_ok (Build.get_ok.mpr ⟨rfl, rfl⟩)]
    simp only [hemit]
    rfl
  intro e c' he
  rw [hok] at he
  exact onSession_unhindered .modifyStats _ _ _ he

theorem onEncoder_unhinderedAt (h : ∃ r, request c.encoder = .ok r) : UnhinderedAt S (onEncoder request) c := by
  obtain ⟨r, hr⟩ := h
  intro e c' he
  unfold onEncoder at he
  rw [Build.bind_eq_of_ok (Build.get_ok.mpr ⟨rfl, rfl⟩)] at he
  simp only [hr] at he
  cases he

/-- An item that comes up is not turned down. -/
theorem emitItem_unhinderedAt (h : Delivery.Fit ⟨x :: rest, c⟩) (hx : c.session.ResolvedAt x) :
    UnhinderedAt (· ≠ .encoding) (emitItem x) c := by
  refine UnhinderedAt.bind (onSession_unhindered (S := (· ≠ .encoding)) .getItem c) fun item c0 hc0 => ?_
  obtain ⟨_, hget, rfl⟩ := onSession_ok.mp hc0
  obtain ⟨hi, rfl⟩ := Build.getItem_ok.mp hget
  have hdef : ∀ {l}, l ∈ item.kind.names → c.encoder.labels.isDefined l = true := fun hl => h.knows (h.named.items hi hl)
  cases hk : item.kind with
  | instruction i =>
    have hres : ∀ o ∈ i.opcode.explicitOperands i.operands, o.isResolved = true := fun o ho =>
      hx item i hi hk o (i.opcode.explicitOperands_subset i.operands ho)
    have hall : (i.opcode.explicitOperands i.operands).all Operand.isResolved = true := List.all_eq_true.mpr hres
    simp only [hall, Bool.not_true, Bool.false_eq_true, if_false]
    refine emitInstruction_unhinderedAt fun o ho => ⟨hres o ho, fun l hl => hdef ?_⟩
    rw [hk]
    exact List.mem_filterMap.mpr ⟨o, i.opcode.explicitOperands_subset i.operands ho, by rw [hl]; rfl⟩
  | jump j =>
    refine emitInstruction_unhinderedAt fun o ho => ?_
    cases List.mem_singleton.mp ho
    refine ⟨rfl, fun l hl => hdef ?_⟩
    cases hl
    rw [hk]
    exact List.mem_singleton_self _
  | target t =>
    have hrole : c.session.roleAt x = .binds t.label := by simp [roleAt, hi, hk, ItemKind.role]
    refine onEncoder_unhinderedAt (Recorder.markLabel_ok (hdef ?_) (Bool.eq_false_iff.mpr fun hm => ?_))
    · rw [hk]
      exact List.mem_singleton_self _
    · exact ((h.marks hrole).mp hm).2 List.mem_cons_self
  | ret r =>
    simp only
    split
    · refine UnhinderedAt.bind (onSession_unhindered (S := (· ≠ .encoding)) .getFunction _) fun record c1 hc1 => ?_
      obtain ⟨_, hget, rfl⟩ := onSession_ok.mp hc1
      obtain ⟨hr, rfl⟩ := Build.getFunction_ok.mp hget
      refine emitInstruction_unhinderedAt fun o ho => ?_
      cases List.mem_singleton.mp ho
      refine ⟨rfl, fun l hl => ?_⟩
      cases hl
      exact h.knows (h.named.functions hr).2
    · exact fun _ _ he => by cases he
  | align | data => exact onEncoder_unhinderedAt ⟨_, rfl⟩
  | comment text =>
    refine UnhinderedAt.bind (Unhindered.get (S := (· ≠ .encoding)) _) fun c1 c2 _ => ?_
    split
    · exact Unhindered.modify (S := (· ≠ .encoding)) _
    · exact fun _ _ he => by cases he
  | _ => exact fun _ _ he => by cases he

theorem defineLabels_defined (h : defineLabels first count c = .ok () c') : c'.encoder.labels.isDefined l = true ↔
      c.encoder.labels.isDefined l = true ∨ first ≤ l.index ∧ l.index < first + count := by
  have hdefine : ∀ {b : LabelBook} {i : Nat}, (b.define ⟨i⟩).isDefined l = true ↔ b.isDefined l = true ∨ l.index = i := by
    intro b i
    have hi : l = ⟨i⟩ ↔ l.index = i := by cases l; simp
    unfold LabelBook.define
    split
    · rename_i hb
      exact ⟨.inl, fun h => h.elim id fun h => hi.mpr h ▸ hb⟩
    · simp [LabelBook.isDefined, hi, or_comm]
  have hrange : first ≤ l.index ∧ l.index < first + count ↔ l.index ∈ List.range' first count := by
    rw [List.mem_range'_1]
  rw [hrange]
  unfold defineLabels at h
  generalize List.range' first count = ls at h
  induction ls generalizing c with
  | nil =>
    cases Build.forM_nil_ok.mp h
    simp
  | cons i ls ih =>
    obtain ⟨d, hd, hrest⟩ := Build.forM_cons_ok.mp h
    cases Build.modify_ok.mp hd
    refine (ih hrest).trans ?_
    show (c.encoder.labels.define ⟨i⟩).isDefined l = true ∨ _ ↔ _
    rw [hdefine, List.mem_cons, or_assoc]

theorem defineLabels_all {d : Compilation Recorder}
    (h : defineLabels c.session.labelCount (t.labelCount - c.session.labelCount) ⟨t, c.encoder⟩ = .ok () d)
    (hk : ∀ {l : LabelId}, l.index < c.session.labels.size → c.encoder.labels.isDefined l = true)
    (hl : l.index < t.labels.size) : d.encoder.labels.isDefined l = true := by
  refine (defineLabels_defined h).mpr ?_
  by_cases hlt : l.index < c.session.labels.size
  · exact .inl (hk hlt)
  · exact .inr ⟨not_lt.mp hlt, by simp only [labelCount]; omega⟩

theorem Offers.defined (h : Offers f start last c t c')
    (hk : ∀ {l : LabelId}, l.index < c.session.labels.size → c.encoder.labels.isDefined l = true)
    (hl : l.index < t.labels.size) : c'.encoder.labels.isDefined l = true := by
  obtain ⟨frame, c1, -, hdef, hemit⟩ := h
  have hsame : c'.encoder.labels.defined = c1.encoder.labels.defined := Build.forM_induct
      (fun _ _ _ _ hd he => (emitItem_records he).2.trans hd) hemit rfl
  rw [LabelBook.isDefined, hsame]
  exact defineLabels_all hdef hk hl

end Compile

namespace Delivery

theorem Fit.item (h : Fit ⟨x :: rest, c⟩) (he : Compile.emitItem x c = .ok () c') : Fit ⟨rest, c'⟩ := by
  obtain ⟨stats, hst⟩ := (Compile.emitItem_hands he).session
  obtain ⟨done, hdone⟩ := h.order
  refine ⟨?_, ⟨done ++ [x], ?_⟩, ?_, Marks.item h.marks h.labelled h.order he, fun {l} hl => ?_⟩
  · rw [hst]
    exact ⟨⟨h.labelled.nodup, h.labelled.made⟩, h.labelled.targets⟩
  · rw [hst]
    simpa using hdone
  · exact h.named.congr (fun _ => by rw [hst]) (by rw [hst]) (by rw [hst])
  rw [LabelBook.isDefined, (Compile.emitItem_records he).2]
  rw [hst] at hl
  exact h.knows hl

end Delivery

namespace Compile
open Build (UnhinderedAt Unhindered)
open Session

theorem Reaches.knows (h : Reaches s m) : m.Knows := by
  obtain ⟨d, hd, hrun⟩ := h
  induction hrun with
  | refl =>
    intro l hl
    obtain ⟨stats, hst⟩ := (defineLabels_hands hd).session
    refine (defineLabels_defined hd).mpr (.inr ⟨Nat.zero_le _, ?_⟩)
    have hlt : l.index < d.session.labels.size := hl
    rw [hst] at hlt
    simpa [labelCount] using hlt
  | tail _ ha ih =>
    cases ha with
    | item _ he =>
      intro l hl
      obtain ⟨stats, hst⟩ := (emitItem_hands he).session
      rw [hst] at hl
      rw [LabelBook.isDefined, (emitItem_records he).2]
      exact ih hl
    | function _ hcomp =>
      intro l hl
      obtain ⟨start, frame, t, d', hlow, hoff, henc⟩ := compileFunction_offers hcomp
      obtain ⟨start', frame', t', hlow', ⟨stats, hst⟩, -⟩ := compileFunction_ok hcomp
      cases hlow ▸ hlow'
      rw [hst] at hl
      rw [henc]
      exact hoff.defined ih hl

theorem Reaches.fit (h : Reaches s m) (hs : s.Fresh) (hsec : s.Secluded) : m.Fit where
  labelled := (h.untouched hs hsec).labelled
  order := (h.untouched hs hsec).order
  named := (h.marks hs hsec).2
  marks := (h.marks hs hsec).1
  knows := h.knows

/-- When a function has been lowered, its code is fit to be handed over. -/
theorem Reaches.fit_lowered {p : Site} {record : FunctionRecord}
    (h : Reaches s ⟨p.start :: (p.body ++ p.stop :: p.back), c⟩) (hs : s.Fresh)
    (hsec : s.Secluded) (hr : c.session.Ready f record p.stop p.body) (hst : c.session.Stands p)
    (hp : c.session.Prepared f record p.stop v) (hat : c.session.LowersAt p f last v t)
    (hlow : Build.lowerFunction f c.session = .ok (record.item, last, frame) t)
    (hdef : defineLabels c.session.labelCount (t.labelCount - c.session.labelCount) ⟨t, c.encoder⟩ = .ok () c1) :
    Delivery.Fit ⟨t.items.range p.start last ++ p.back, c1⟩ := by
  have hfit := h.fit hs hsec
  have hret := Build.lowerFunction_retains hp hlow
  have hlab := hret.labelled hfit.labelled
  obtain ⟨⟨stats, hst1⟩, hg⟩ := defineLabels_hands hdef
  obtain ⟨B, E, ho, hrange, -⟩ := hat.keeps.range hat.linear
  have hord : t.items.order = p.front ++ (t.items.range p.start last ++ p.back) := by
    rw [ho, hrange]
    simp
  refine ⟨?_, ⟨p.front, ?_⟩, ?_, fun {y l} hy => ?_, fun {l} hl => ?_⟩
  · rw [hst1]
    exact ⟨⟨hlab.nodup, hlab.made⟩, hlab.targets⟩
  · rwa [hst1]
  · obtain ⟨proto, -, hprep⟩ := hp.prepared
    have hv : v.Named := (hr.walked hprep).named (hfit.named.congr (fun _ => rfl) rfl rfl)
    exact (Edits.named hat.edits hv).congr (fun _ => by rw [hst1]) (by rw [hst1]) (by rw [hst1])
  · have hrole : t.roleAt y = .binds l := by
      rw [roleAt, ← (show c1.session.items = t.items by rw [hst1])]
      exact hy
    rw [hg.marked]
    simp only [List.not_mem_nil, or_false, hst1]
    rw [Delivery.Marks.front hfit.marks (h.sound hs.built hs.contoured) hst rfl hret hlab hrole]
    have hn := hlab.nodup
    rw [hord] at hn ⊢
    exact ⟨fun hf => ⟨List.mem_append_left _ hf, fun hb => (List.nodup_append.mp hn).2.2 y hf y hb rfl⟩,
      fun hf => (List.mem_append.mp hf.1).resolve_right hf.2⟩
  · have hlt : l.index < t.labels.size := by
      have hl' : l.index < c1.session.labels.size := hl
      rwa [hst1] at hl'
    exact defineLabels_all hdef hfit.knows hlt

section
variable (h : Reaches s ⟨x :: rest, c⟩) (hs : s.Fresh) (hsec : s.Secluded)
include h hs hsec

/-- A function that comes up is not turned down by the recorder. -/
theorem compileFunction_unhinderedAt
    (ho : opens? c.session x = some f) : UnhinderedAt (· ≠ .encoding) (compileFunction f) c := by
  have hu := h.untouched hs hsec
  have hlow : UnhinderedAt (· ≠ .encoding) (Build.lowerFunction f) c.session :=
    hu.lowerFunction_unhinderedAt hs hsec (hu.opens ho) (h.fit hs hsec).named (by decide) (by decide)
  refine UnhinderedAt.bind (Unhindered.get (S := (· ≠ .encoding)) c) fun c0 c0' hget => ?_
  obtain ⟨rfl, rfl⟩ := Build.get_ok.mp hget
  refine UnhinderedAt.bind (onSession_unhinderedAt hlow) fun r c1 hr => ?_
  obtain ⟨t, hlower, rfl⟩ := onSession_ok.mp hr
  obtain ⟨start, last, frame⟩ := r
  obtain ⟨p, record, v, hstart, rfl, rfl, rfl, hready, hru, hstand, -, hprep, hat, hback⟩ :=
    hu.lowered hs hsec (hu.opens ho) hlower
  refine UnhinderedAt.bind (Unhindered.get (S := (· ≠ .encoding)) _) fun c0 c0' hget => ?_
  obtain ⟨rfl, rfl⟩ := Build.get_ok.mp hget
  refine UnhinderedAt.bind (defineLabels_unhindered (S := (· ≠ .encoding)) _) fun _ c1 hdef => ?_
  refine UnhinderedAt.bind (Unhindered.get (S := (· ≠ .encoding)) _) fun c2 c2' hget => ?_
  obtain ⟨rfl, rfl⟩ := Build.get_ok.mp hget
  obtain ⟨stats, hst1⟩ := (defineLabels_hands hdef).session
  have hitems : c1.session.items = t.items := by rw [hst1]
  rw [← hstart] at h
  have hfit := h.fit_lowered hs hsec hru hstand hprep hat hlower hdef
  simp only [hitems, ← hstart]
  refine UnhinderedAt.bind ?_ fun _ d hemit => ?_
  · refine UnhinderedAt.forM (I := fun P d => ∃ R, t.items.range p.start last = P ++ R ∧
      Delivery.Fit ⟨R ++ p.back, d⟩ ∧ d.session.items = t.items) ⟨_, rfl, hfit, hitems⟩ fun P y R d hl hI => ?_
    obtain ⟨R', hR, hd, hdi⟩ := hI
    obtain rfl : R' = y :: R := List.append_cancel_left (hR ▸ hl)
    have hres : d.session.ResolvedAt y := fun item i hi hk =>
      hat.resolved hru hstand hstart hprep (Build.lowerFunction_retains hprep hlower) (by simp [hl]) (hdi ▸ hi) hk
    refine ⟨emitItem_unhinderedAt hd hres, fun d' hd' => ⟨R, by simp [hl], Delivery.Fit.item hd hd', ?_⟩⟩
    obtain ⟨stats', hst'⟩ := (emitItem_hands hd').session
    rwa [hst']
  · refine UnhinderedAt.bind (Unhindered.forM (S := (· ≠ .encoding)) (fun _ => checkItem_unhindered (by decide)) _)
      fun _ d' _ => ?_
    exact noteCompiled_unhindered (S := (· ≠ .encoding)) d'

/-- An instruction that stands between the functions names no variables, so its operands are resolved unless they are raw. -/
theorem Reaches.resolvedAt (hcur : s.current = none)
    (hraw : ∀ item i, s.items.get? x = some item → item.kind = .instruction i → ∀ o ∈ i.operands, o.isRaw = false) :
    c.session.ResolvedAt x := by
  have hu := h.untouched hs hsec
  intro item i hi hk o ho
  have hsi : s.items.get? x = some item := by
    rwa [← hu.items x List.mem_cons_self]
  refine Operand.isResolved_of_vars (List.eq_nil_iff_forall_not_mem.mpr fun v hv => ?_) (hraw item i hsi hk o ho)
  have hvar : v ∈ item.kind.vars := by
    rw [hk]
    exact List.mem_flatMap.mpr ⟨o, ho, hv⟩
  obtain ⟨front, hfront⟩ := hu.suffix
  have hlin : s.items.Linear := ⟨hs.built.nodup, hs.built.made⟩
  obtain ⟨g, r, hg, hbefore, hafter⟩ := hs.admitted.housed (by rw [← hfront]; simp) hsi hvar
  -- the function is closed, so the item stands inside it and cannot come up before it
  cases hstop : r.stop with
  | none =>
    obtain ⟨-, _, _, -, hshape⟩ := hs.built.shape hg
    rw [hstop] at hshape
    rw [hcur] at hshape
    cases hshape.1
  | some stop =>
    obtain ⟨body, hready⟩ := hs.ready hg hstop
    have hbody : x ∈ body := by
      obtain ⟨A, C, horder⟩ := hready.order
      have hn := hlin.nodup
      have hstopx := hafter stop hstop
      rw [horder] at hn hbefore hstopx
      exact (ItemSeq.mem_between hn).mpr ⟨hbefore, hstopx⟩
    have hitem := hu.whole hready x (List.mem_append_left _ hbody) List.mem_cons_self
    have hn := hlin.nodup
    rw [← hfront] at hn hbefore
    rcases List.mem_cons.mp hitem with he | hrest
    · rw [he] at hbefore
      exact (List.nodup_cons.mp (hn.sublist hbefore)).1 List.mem_cons_self
    · exact ItemSeq.not_before hn hbefore ((ItemSeq.before_iff hn).mpr hrest)

end

end Compile

namespace Builder

/-- The operands that a call brings. -/
def Call.operands : Call → List Operand
  | .emit _ operands | .ret operands => operands
  | .call target _ args _ => target :: args
  | _ => []

theorem program_unraw (h : program calls { options } = .ok u s)
    (hraw : ∀ c ∈ calls, ∀ o ∈ c.operands, o.isRaw = false) {item : Item}
    (hi : s.items.get? x = some item) (hk : item.kind = .instruction i) : ∀ o ∈ i.operands, o.isRaw = false := by
  have hspares : ∀ c ∈ calls, c.Spares ItemKind.IsRaw := by
    rintro c hc kind happ - ⟨i', rfl, o, ho, hr⟩
    cases c with
    | emit opcode operands =>
      obtain ⟨-, ⟨⟩⟩ := happ
      exact Bool.false_ne_true (hraw _ hc o ho ▸ hr)
    | _ => first | (obtain ⟨_, h⟩ := happ; cases h) | cases happ
  exact fun o ho => Bool.eq_false_iff.mpr fun hr => program_clean hspares h hi ⟨i, hk, o, ho, hr⟩

end Builder

namespace Compile

/-- In a program that brings no raw operands, and whose jumps stay inside their functions, the recorder turns nothing
down. -/
theorem serialize_not_turned_down {calls : List Builder.Call} {options : Options}
    (hb : Builder.program calls { options } = .ok () s) (hraw : ∀ c ∈ calls, ∀ o ∈ c.operands, o.isRaw = false)
    (hsec : s.Secluded) (e : EncodingError) (c : Compilation Recorder) :
    serialize ⟨s, Encoder.fresh⟩ ≠ .error (.encoding e) c := by
  intro h
  have hs := Builder.program_fresh hb
  have hcur : s.current = none := current_of_serialize_error h (by simp)
  obtain ⟨m, hm, hf⟩ := (serialize_fails_iff hs hsec hcur).mp h
  cases hf with
  | item _ he =>
    have hres := hm.resolvedAt hs hsec hcur fun _ _ hi hk => Builder.program_unraw hb hraw hi hk
    exact emitItem_unhinderedAt (hm.fit hs hsec) hres _ _ he rfl
  | function ho hcomp => exact compileFunction_unhinderedAt hm hs hsec ho _ _ hcomp rfl

theorem serialize_not_turned_down_skips : ∃ s, Builder.program Builder.skips { options := {} } = .ok () s ∧
    (∀ c ∈ Builder.skips, ∀ o ∈ c.operands, o.isRaw = false) ∧ s.Secluded ∧
    ∀ (e : EncodingError) (c : Compilation Recorder), serialize ⟨s, Encoder.fresh⟩ ≠ .error (.encoding e) c := by
  obtain ⟨⟨s, c⟩, hsc, hd⟩ := Option.any_eq_true _ _ |>.mp
    (show (recorded Builder.skips).any (fun (s, _) => s.Secluded) = true by decide +kernel)
  obtain ⟨hp, -⟩ := recorded_ok hsc
  have hsec := of_decide_eq_true hd
  have hraw : ∀ c ∈ Builder.skips, ∀ o ∈ c.operands, o.isRaw = false := by decide
  exact ⟨s, hp, hraw, hsec, serialize_not_turned_down hp hraw hsec⟩

end Compile

end Codegen
