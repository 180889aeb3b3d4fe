import Codegen.Proofs.Moments

/-! The account of the registers over a whole translation. At every moment the registers in use, those of all stored
states and those that the code so far writes are ones that the allocator may hand out, and each of them that the caller
counts on is marked. -/
namespace Codegen
open List Build ItemSeq Option ItemKind

/-- The snapshot has variables only in registers that `P` allows. -/
def Snapshot.Within (P : Reg → Prop) (st : Snapshot) : Prop := ∀ r v, st.occupant r = some v → P r

theorem Snapshot.Within.mono {st : Snapshot} (h : st.Within P) (hP : ∀ r, P r → P' r) : st.Within P' :=
  fun r v ho => hP r (h r v ho)

/-- Code that is done writes only registers that `P` allows, but for the instructions in `E`, and stored states keep to
these registers. -/
def ItemKind.Accounted (E : Instruction → Prop) (P : Reg → Prop) (done : Bool) : ItemKind → Prop
  | instruction i => done = true → E ⟨i.opcode, i.operands⟩ ∨ ∀ r ∈ i.opcode.destinations i.operands, P r
  | jump j => j.opcode.implicitWrites = [] ∧ ∀ st, j.state = some st → st.Within P
  | target g => ∀ st, g.state = some st → st.Within P
  | _ => True

namespace ItemKind.Accounted
variable {done done' : Bool} {kind : ItemKind}

theorem mono (h : kind.Accounted E P done) (hP : ∀ r, P r → P' r) (hd : done' = true → done = true) :
    kind.Accounted E P' done' := by
  cases kind with
  | instruction i => exact fun ht => (h (hd ht)).imp_right fun hw r hr => hP r (hw r hr)
  | jump j => exact ⟨h.1, fun st hst => (h.2 st hst).mono hP⟩
  | target g => exact fun st hst => (h st hst).mono hP
  | _ => trivial

theorem finish (h : kind.Accounted E P done) (hk : ∀ i, kind ≠ .instruction i) : kind.Accounted E P true := by
  cases kind with
  | instruction i => exact absurd rfl (hk i)
  | jump j | target g => exact h
  | _ => trivial

end ItemKind.Accounted

/-- The instruction names registers only through variables, and has one for each register that it writes on its own. -/
structure InstructionItem.Plain (i : InstructionItem) : Prop where
  stack : i.opcode.movesStack = false
  registers : ∀ o ∈ i.operands, o.reg? = none
  implicit : ∀ k < i.opcode.implicitCount, ∃ ref, i.operands[k]? = some (.var ref)

namespace Session
variable {t u : Session} {record : FunctionRecord} {start stop : ItemId}
  {body : List ItemId}
variable {id : ItemId} {next : Option ItemId} {busy : ItemId → Prop}

/-- The caller does not count on the register. -/
def Unpromised (t : Session) (r : Reg) : Prop := (t.ctx.preserved.get r.cls).contains r.index = false

/-- The register may be written: the allocator hands it out, and it is marked if the caller counts on it. -/
def Cleared (t : Session) (f : FunctionId) (u : Session) (r : Reg) : Prop :=
  (t.holdings f).Usable r ∧ (u.Marked r ∨ t.Unpromised r)

/-- The registers in use, in stored states and in the code of the function are accounted for. -/
structure Accountable (t : Session) (f : FunctionId) (body : List ItemId) (E : Instruction → Prop) (u : Session) :
    Prop where
  held : ∀ {r}, u.Occupied r → t.Cleared f u r
  items : ∀ {x item}, x ∈ body ∨ t.items.size ≤ x.index → u.items.get? x = some item →
    item.kind.Accounted E (t.Cleared f u) item.translated
  queued : ∀ q ∈ u.ctx.forwardJumps, q.state.Within (t.Cleared f u)

theorem Midway.usable (h : t.Midway f start stop body busy u) : (u.holdings f).Usable r ↔ (t.holdings f).Usable r := by
  rw [usable_iff, usable_iff, h.continues.ctx]
  rfl

theorem Cleared.mono (h : t.Cleared f u r) (hm : u.Marked r → u'.Marked r) : t.Cleared f u' r := ⟨h.1, h.2.imp_left hm⟩

theorem Midway.restore_guards {st : Snapshot} (hmid : t.Midway f start stop body busy u) (hst : st.Fits (t.holdings f))
    (hf : u.ctx.function = some f) (hr : restoreState st u = .ok () u') :
    u.Guards f E (t.holdings f).Usable t.Unpromised u' := by
  have hmay : ¬ Effect.restores st (fun _ => True) .other := id
  exact .of_moves hmay hmid.coherent (fun _ => hmid.usable.mp)
    (restoreState_moves hmid.coherent (hmid.continues.fits hst) hf hr).1

namespace Accountable

section
variable (h : t.Accountable f body E u)
include h

theorem step (hm : ∀ {r}, u.Marked r → u'.Marked r) (hheld : ∀ {r}, u'.Occupied r → u.Occupied r ∨ t.Cleared f u' r)
    (hitems : ∀ {x item'}, x ∈ body ∨ t.items.size ≤ x.index → u'.items.get? x = some item' →
      (∃ item, u.items.get? x = some item ∧ item'.kind = item.kind ∧ (item'.translated = true → item.translated = true)) ∨
        item'.kind.Accounted E (t.Cleared f u') item'.translated)
    (hq : ∀ q ∈ u'.ctx.forwardJumps, q ∈ u.ctx.forwardJumps ∨ q.state.Within (t.Cleared f u')) :
    t.Accountable f body E u' := by
  refine ⟨fun hr => ?_, fun hx hi => ?_, fun q hmem => ?_⟩
  · exact (hheld hr).elim (fun ho => (h.held ho).mono hm) id
  · rcases hitems hx hi with ⟨item, hu, hk, ht⟩ | ha
    · rw [hk]
      exact (h.items hx hu).mono (fun r hr => hr.mono hm) ht
    · exact ha
  · exact (hq q hmem).elim (fun ho => (h.queued q ho).mono fun r hr => hr.mono hm) id

theorem quiet (hi : ∀ x, u'.items.get? x = u.items.get? x)
    (hr : u'.ctx.registers = u.ctx.registers) (hm : u'.ctx.modified = u.ctx.modified)
    (hq : ∀ q ∈ u'.ctx.forwardJumps, q ∈ u.ctx.forwardJumps ∨ q.state.Within (t.Cleared f u')) :
    t.Accountable f body E u' := by
  refine h.step (fun hr => ?_) (fun ho => .inl ?_) (fun {x item'} _ hx => .inl ⟨item', ?_, rfl, id⟩) hq
  · unfold Marked
    rwa [hm]
  · unfold Occupied
    rwa [← hr]
  · rwa [← hi]

theorem atCursor (cursor : Option ItemId) : t.Accountable f body E (u.atCursor cursor) :=
  h.quiet (fun _ => rfl) rfl rfl fun _ => .inl

theorem guards (hmid : t.Midway f start stop body busy u)
    (hg : u.Guards f E (t.holdings f).Usable t.Unpromised u') : t.Accountable f body E u' := by
  refine h.step hg.marks (fun hr => ?_) (fun {x item'} hx hi => ?_) fun q hq => .inl ?_
  · refine (hg.held hr).imp_right fun hm => ⟨?_, hm⟩
    obtain ⟨v, hv⟩ := hr
    exact hmid.usable.mp (hg.moves.usable.mp ((hg.moves.coherent hmid.coherent).occupied hv).1)
  · obtain ⟨c, hc, hdest⟩ := hg.code
    obtain ⟨c', hc', husb⟩ := hg.usable
    by_cases hold : x.index < u.items.size
    · rw [hc, get?_generateAll_of_lt _ _ hold] at hi
      exact .inl ⟨item', hi, rfl, id⟩
    refine .inr ?_
    obtain ⟨-, i, hi1, hk1⟩ := get?_generateAll_new (not_lt.mp hold) (hc ▸ hi)
    obtain ⟨-, i', hi2, hk2⟩ := get?_generateAll_new (not_lt.mp hold) (hc' ▸ hi)
    obtain rfl : i = i' := by
      have := hk1 ▸ hk2
      cases i
      cases i'
      simpa using this
    rw [hk1]
    intro _
    rcases hdest i hi1 with he | hd
    · exact .inl he
    · refine (husb i hi2).imp_right fun hu r hr => ⟨hu r hr, ?_⟩
      exact (hd r hr).elim (fun ho => (h.held ho).2.imp_left hg.marks) id
  · have : u'.ctx.forwardJumps = u.ctx.forwardJumps := by rw [hg.ctx]
    rwa [← this]

theorem snapshot : (u.snapshot f).Within (t.Cleared f u) := fun _ _ ho => h.held ⟨_, ho⟩

theorem adopt {st : Snapshot} (hmid : t.Midway f start stop body busy u) (hst : st.Within (t.Cleared f u))
    (ha : assignState st u = .ok () u') :
    t.Accountable f body E u' ∧ u'.ctx.modified = u.ctx.modified := by
  obtain ⟨vars, rfl, -⟩ := assignState_ok hmid.function hmid.coherent.numbered ha
  refine ⟨?_, rfl⟩
  exact h.step id (fun ⟨v, ho⟩ => .inr (hst _ v ho)) (fun {_ item'} _ hi => .inl ⟨item', hi, rfl, id⟩)
    fun _ => .inl

theorem withKind {kind : ItemKind}
    (hk : ∀ item, u.items.get? id = some item → kind.Accounted E (t.Cleared f u) item.translated) :
    t.Accountable f body E (u.withKind id kind) := by
  refine h.step (fun h => h) .inl (fun {x item'} _ hi => ?_) fun _ => .inl
  rcases get?_modify_cases hi with ⟨-, hi⟩ | ⟨rfl, item, hx, rfl⟩
  · exact .inl ⟨item', hi, rfl, fun h => h⟩
  · exact .inr (hk item hx)

theorem leaving (hfin : ∀ item', u.items.get? id = some item' → item'.kind.Accounted E (t.Cleared f u) true) :
    t.Accountable f body E (u.leaving id item) := by
  unfold Session.leaving
  split
  · exact h
  refine h.step (fun h => h) .inl (fun {x item'} _ hi => ?_) fun _ => .inl
  rcases get?_modify_cases hi with ⟨-, hi⟩ | ⟨rfl, item1, hx, rfl⟩
  · exact .inl ⟨item', hi, rfl, fun h => h⟩
  · exact .inr (hfin item1 hx)

theorem dropping : t.Accountable f body E (u.dropping id) := by
  refine h.step (fun h => h) .inl (fun {x item'} _ hi => .inl ?_) fun _ => .inl
  rcases get?_modify_cases hi with ⟨-, hx⟩ | ⟨rfl, item, hx, rfl⟩ <;> exact ⟨_, hx, rfl, fun h => h⟩

theorem detour (hj : (jump j).Accounted E (t.Cleared f u) true) : t.Accountable f body E (u.detour id j extra) := by
  unfold Session.detour
  split
  · exact h
  refine withKind ?_ fun _ _ => hj
  refine h.step (fun h => h) .inl (fun {x item'} _ hi => ?_) fun _ => .inl
  by_cases hold : x.index < u.items.size
  · simp only [closeBlock, get?_closeBlock_of_lt hold] at hi
    exact .inl ⟨item', hi, rfl, fun h => h⟩
  refine .inr ?_
  rcases get?_closeBlock_new (not_lt.mp hold) hi with rfl | ⟨-, hk⟩
  · exact fun st hst => by cases hst
  · rw [hk]
    exact fun _ => .inr fun r hr => by cases hr

/-- The code for a jump. -/
theorem doJump (hmid : t.Midway f start stop body busy u)
    (hid : id ∈ body) (hb : busy id) (hd : doJump id u = .ok () u') :
    t.Accountable f body E u' ∧ ∀ {r}, u.Marked r → u'.Marked r := by
  obtain ⟨j, target, st, v, hj, hl, hst, hr, hcase⟩ := doJump_ok hd
  obtain ⟨-, hfit⟩ := hmid.leads hid hj hl hst
  have hf := hmid.function
  rcases hcase with ⟨hp, rfl⟩ | ⟨hp, extra, own, he, hown, ha⟩
  · rw [reconciling, if_pos hp] at hr
    have hg := hmid.restore_guards (E := E) hfit hf hr
    exact ⟨h.guards hmid hg, hg.marks⟩
  rw [reconciling, if_neg (by simp [hp]), he] at hr
  obtain ⟨m1, -⟩ := hmid.atCursor (some extra)
  have hg := m1.restore_guards (E := E) hfit hf hr
  have h1 := (h.atCursor (some extra)).guards m1 hg
  have hown' : (jump j).Accounted E (t.Cleared f v) true := by
    obtain ⟨item, hi, hk⟩ := jump?_eq_some.mp hj
    rw [← hk]
    exact ((h.items (.inl hid) hi).mono (fun r hr => hr.mono hg.marks) fun h => h).finish fun i hi => by
      cases hk.symm.trans hi
  have hmod : (v.detour id j extra).ctx.modified = v.ctx.modified := by
    unfold Session.detour
    split <;> rfl
  obtain ⟨m2, -⟩ := hmid.outOfLine he hfit hr hid hb hj
  obtain ⟨m3, -⟩ := m2.atCursor u.items.cursor
  have hmarks : ∀ {r}, v.Marked r → ((v.detour id j extra).atCursor u.items.cursor).Marked r := fun hm => by
    unfold Marked at hm
    rwa [← hmod] at hm
  obtain ⟨h2, hmod'⟩ := ((h1.detour hown').atCursor u.items.cursor).adopt m3
    ((hown'.2 own hown).mono fun r hr => hr.mono hmarks) ha
  refine ⟨h2, fun hm => ?_⟩
  unfold Marked
  rw [hmod']
  exact hmarks (hg.marks hm)

theorem reach (b : Bool) : t.Accountable f body E { u with ctx := { u.ctx with unreachable := b } } :=
  h.quiet (fun _ => rfl) rfl rfl fun _ => .inl

theorem retire (hmid : t.Midway f start stop body busy u)
    (hr : retireActiveAt id u = .ok () u') : t.Accountable f body E u' :=
  h.guards hmid (.of_plain (retireActiveAt_working (V := fun _ => False) _ _ _ hr
    (hmid.tends fun _ h => h.elim)) (retireActiveAt_plain fun _ => trivial) hr)

theorem note {j : JumpItem} (hj : j.opcode.implicitWrites = []) :
    t.Accountable f body E (u.withKind id (.jump { j with state := some (u.snapshot f) })) :=
  h.withKind fun _ _ => ⟨hj, fun _ hst => some.inj hst ▸ h.snapshot⟩

theorem queueing {j : JumpItem} {target : ItemId} {kind : ItemKind} (hj : j.opcode.implicitWrites = []) :
    t.Accountable f body E (u.queueing id target j kind (u.snapshot f)) := by
  have hnote : t.Accountable f body E (u.withKind id (.jump { j with state := some (u.snapshot f) })) := h.note hj
  have hqueue : t.Accountable f body E { u.withKind id (.jump { j with state := some (u.snapshot f) }) with
      ctx := { u.ctx with forwardJumps := u.ctx.forwardJumps ++ [⟨id, u.snapshot f⟩] } } := by
    refine hnote.quiet (fun _ => rfl) rfl rfl fun q hq => ?_
    refine (mem_append.mp hq).imp_right fun hq => ?_
    cases mem_singleton.mp hq
    exact h.snapshot
  unfold Session.queueing
  cases kind with
  | target r =>
    dsimp only
    split
    · exact hqueue.withKind fun _ _ st hst => some.inj hst ▸ h.snapshot
    · exact hqueue
  | _ => exact hqueue

theorem jump {item : Item} (hmid : t.Midway f start stop body (· = id) u) (hid : id ∈ body)
    (hi : u.items.get? id = some item) (hk : item.kind = .jump j) (hr : translateJump id j u = .ok next u') :
    t.Accountable f body E u' := by
  obtain ⟨target, titem, hl, hti, -, hcase⟩ := translateJump_ok hr
  have hj : j.opcode.implicitWrites = [] := by
    have hacc := h.items (.inl hid) hi
    rw [hk] at hacc
    exact hacc.1
  rcases hcase with ⟨-, -, rfl, rfl⟩ | ⟨g, w, hg, hw, hret, rfl⟩
  · exact h.quiet (fun _ => rfl) rfl rfl fun _ => .inl
  cases hmid.function ▸ hg
  obtain ⟨hmw, haw⟩ : t.Midway f start stop body (· = id) w ∧ t.Accountable f body E w := by
    rcases hw with ⟨-, hd⟩ | ⟨htr, hcond, rfl⟩
    · obtain ⟨h1, -⟩ := hmid.note hid hi hk
      exact ⟨(h1.doJump hid rfl hd).1, ((h.note hj).doJump h1 hid rfl hd).1⟩
    have htarget : target ∈ body := (hmid.landing hid (jump?_eq_some.mpr ⟨item, hi, hk⟩) hl).resolve_right
      fun hnew => by
        rw [(hmid.generated hnew hti).1] at htr
        cases htr
    exact ⟨(hmid.queueing hid hi hk hcond htarget hti htr).1, h.queueing hj⟩
  obtain ⟨h2, -⟩ := hmw.reach (decide (j.opcode = .jmp) || w.ctx.unreachable)
  exact (haw.reach _).retire h2 hret

theorem target {item : Item} (hmid : t.Midway f start stop body busy u) (hid : id ∈ body)
    (hi : u.items.get? id = some item) (hk : item.kind = .target r)
    (hr : translateTarget id r item.translated u = .ok next u') : t.Accountable f body E u' := by
  have hf := hmid.function
  have hstate := h.items (.inl hid) hi
  rw [hk] at hstate
  rcases translateTarget_ok hr with ⟨-, rfl, st, hst, hres⟩ | ⟨-, -, -, hrem⟩ | ⟨-, -, rfl, st, hst, ha⟩ |
    ⟨-, -, rfl, g, item', r', hg, hi', hk', rfl⟩
  · exact h.guards hmid (hmid.restore_guards (hmid.targets hid (stateAt_eq_some.mpr ⟨item, r, hi, hk, hst⟩)) hf hres)
  · exact removeUntilTarget_induct (fun _ _ h => h.dropping) hrem h
  · obtain ⟨h1, -⟩ := hmid.reach false
    exact ((h.reach false).adopt h1 (hstate st hst) ha).1
  · exact h.withKind fun _ _ st hst => some.inj hst ▸ h.snapshot

end

end Accountable

/-- The variables of operands that must be in fixed registers are general purpose ones, and have records that say so. -/
def Pins (f : FunctionId) (i : InstructionItem) (s : Session) : Prop :=
  ∀ k ref n, i.operands[k]? = some (.var ref) → (i.opcode.constraint k i.operands.length).fixed = some n →
    AllocRecord.Binds i.records ref.id n ∧ ∃ v, (s.holdings f).vars ref.id = some v ∧ v.cls = .gp

/-- The code of the function names registers through variables, also those that an instruction writes on its own, and
values are passed and returned in registers that may be written. -/
structure Orderly (t : Session) (f : FunctionId) (record : FunctionRecord) (body : List ItemId)
    (E : Instruction → Prop) : Prop where
  instructions : ∀ x ∈ body, ∀ item i, t.items.get? x = some item → item.kind = .instruction i →
    i.Plain ∧ Pins f i t
  jumps : ∀ x ∈ body, ∀ item j, t.items.get? x = some item → item.kind = .jump j → j.opcode.implicitWrites = []
  calls : ∀ x ∈ body, ∀ item c, t.items.get? x = some item → item.kind = .call c →
    (∀ o ∈ c.args, o.reg? = none) ∧ ∀ p, t.prototypes[c.prototype.index]? = some p →
      (∀ info ∈ p.args, ∀ r, info.location = .register r → (t.holdings f).Usable r) ∧
        (p.calleePopsStack = true → E p.readjustment)
  returns : ∀ returns, t.returnsOf f = .ok returns →
    ∀ ret ∈ returns, Returnable (t.holdings f).Usable t.Unpromised ret
  arguments : ∀ v ∈ record.args, ∀ x r, t.vars.get? v = some x → x.arrival = some (.reg r) → t.Unpromised r
  stateless : ∀ x ∈ body, t.stateAt x = none ∧ ∀ j, t.jump? x = some j → j.state = none
  unqueued : t.ctx.forwardJumps = []

theorem Guards.get?_eq (hg : u.Guards f E U R u') (hx : x.index < u.items.size) :
    u'.items.get? x = u.items.get? x := by
  obtain ⟨c, hc, -⟩ := hg.code
  rw [hc, get?_generateAll_of_lt _ _ hx]

namespace Accountable

section
variable (h : t.Accountable f body E u)
include h

/-- The registers that an instruction writes once its operands are resolved. -/
theorem destinations_cleared
    (hmid : t.Midway f start stop body busy u) (hplain : i.Plain)
    (hbound : Pins f i t) (hg : u.Guards f E (t.holdings f).Usable t.Unpromised v)
    (hres : Forall₂ (Operand.Resolved (v.holdings f)) i.operands operands)
    (hfix : ∀ r ∈ i.records, ∀ n < 32, r.fixed = some n → ∃ w y, u.Moves f (· ≠ .other) w ∧ w.Moves f (· ≠ .other) v ∧
      (w.holdings f).vars r.var = some y ∧ y.currentReg = some ⟨y.cls, n⟩) :
    ∀ r ∈ i.opcode.destinations operands, t.Cleared f v r := by
  have hafter := h.guards hmid hg
  intro r hr
  rcases mem_append.mp hr with hr | hr
  · -- the register of an operand that the hardware binds
    obtain ⟨k, hk, n, hn, hfixed, rfl⟩ := Opcode.exists_fixed hplain.stack hr i.operands.length
    obtain ⟨ref, href⟩ := hplain.implicit k hk
    obtain ⟨⟨record, hrec, hvar, hrf⟩, x, hx, hcls⟩ := hbound k ref n href hfixed
    obtain ⟨w, y, hm, hm', hy, hcur⟩ := hfix record hrec n hn hrf
    obtain ⟨y', hy', hycls⟩ := (hmid.continues.vars.trans hm.vars).cls_eq hx
    cases (hvar ▸ hy) ▸ hy'
    rw [hycls, hcls] at hcur
    have hw := h.guards hmid (.of_moves (fun h => h rfl) hmid.coherent (fun _ => hmid.usable.mp) hm)
    exact (hw.held ⟨_, (hm.coherent hmid.coherent).occupant_of_currentReg hy hcur⟩).mono hm'.marks
  · -- the register of a variable
    obtain ⟨o, ho, hr⟩ := mem_filterMap.mp hr
    obtain ⟨k, hk⟩ := mem_iff_getElem?.mp (Opcode.explicitOperands_subset _ _ (Opcode.writtenOperands_subset _ _ ho))
    obtain ⟨o0, hk0, hres⟩ := getElem?_of_forall₂ hres hk
    cases o0 with
    | var ref =>
      obtain ⟨x, q, hx, hcur, rfl⟩ := hres
      cases hr
      exact hafter.held ⟨_, (hg.moves.coherent hmid.coherent).occupant_of_currentReg hx hcur⟩
    | mem m =>
      obtain ⟨base, index, home, -, -, -, rfl⟩ := hres
      cases hr
    | reg q =>
      have := hplain.registers _ (mem_of_getElem? hk0)
      cases this
    | imm | label =>
      cases hres
      cases hr

/-- An item of the body is translated, and what it has become is accounted for. -/
theorem kind {item : Item} (hord : t.Orderly f record body E)
    (hmid : t.Midway f start stop body (· = id) u) (hid : id ∈ body)
    (hi : u.items.get? id = some item)
    (hwait : ∀ item0, t.items.get? id = some item0 → item0.kind.isTarget = false → item.kind = item0.kind)
    (hr : translateKind id item u = .ok next u') :
    t.Accountable f body E u' ∧
      ∀ item', u'.items.get? id = some item' → item'.kind.Accounted E (t.Cleared f u') true := by
  obtain ⟨hmid', -⟩ := hmid.kind hid hi hwait hr
  obtain ⟨kind, item0, hi0, -, hprep, hin, hown⟩ := hmid.outline.inside id hid
  obtain ⟨item1, hi1, -, hbec⟩ := hmid'.items hid hi0
  have hte := hmid.tends hown
  have hU : ∀ r, (u.holdings f).Usable r → (t.holdings f).Usable r := fun _ => hmid.usable.mp
  -- items that are no instructions are accounted for as they were before
  have hfin : t.Accountable f body E u' → (∀ i, item1.kind ≠ .instruction i) → t.Accountable f body E u' ∧
      ∀ item', u'.items.get? id = some item' → item'.kind.Accounted E (t.Cleared f u') true := by
    refine fun h' hk => ⟨h', fun item' hi' => ?_⟩
    cases hi1 ▸ hi'
    exact (h'.items (.inl hid) hi1).finish hk
  have hsame : u.Guards f E (t.holdings f).Usable t.Unpromised u' → (∀ i, item.kind ≠ .instruction i) →
      t.Accountable f body E u' ∧
        ∀ item', u'.items.get? id = some item' → item'.kind.Accounted E (t.Cleared f u') true := by
    refine fun hg hk => hfin (h.guards hmid hg) ?_
    cases hi.symm.trans (hg.get?_eq (lt_size_of_get? hi) ▸ hi1)
    exact hk
  cases kind with
  | instruction i =>
    obtain ⟨records, memVars, hcol, hk0⟩ := hprep
    simp only [translateKind, hwait item0 hi0 (by rw [hk0]; rfl), hk0] at hr
    have hcol' : Build.Collected { i with records, memVars } records memVars :=
      ⟨hcol.nodup, hcol.apart, hcol.recorded, hcol.named⟩
    obtain ⟨hplain, hbound⟩ := hord.instructions id hid item0 _ hi0 hk0
    obtain ⟨w, operands, m1, hres, -, -, hfix, m2, rfl⟩ := translateInstruction_ok hte.coherent hcol' hte.owns hr
    have g1 : u.Guards f E (t.holdings f).Usable t.Unpromised w := .of_moves
      (by rintro (⟨_, -, h⟩ | ⟨_, -, h⟩ | ⟨_, h⟩) <;> cases h) hte.coherent hU m1
    have hdest := h.destinations_cleared hmid hplain hbound g1 hres hfix
    obtain ⟨h1, -⟩ := hmid.moves g1.moves
    obtain ⟨h2, -⟩ := h1.settle (.instruction { i with operands, records, memVars }) hid hi0
      (by simp [hk0, ItemKind.isTarget]) ⟨rfl, fun j hj => by cases hj⟩
    have hset : t.Accountable f body E (w.withKind id (.instruction { i with operands, records, memVars })) :=
      (h.guards hmid g1).withKind fun _ _ _ => .inr hdest
    have g2 := Guards.of_moves (E := E) (R := t.Unpromised) (by rintro ⟨_, -, h⟩; exact h) h2.coherent
      (fun _ => h2.usable.mp) m2
    refine ⟨hset.guards h2 g2, fun item' hi' => ?_⟩
    obtain ⟨item2, hi2, -⟩ := h1.items hid hi0
    rw [g2.get?_eq (h2.old hid).2, Session.withKind, get?_modify_self, hi2] at hi'
    cases hi'
    exact fun _ => .inr fun r hr => (hdest r hr).mono g2.marks
  | jump j =>
    obtain ⟨taken, hk0⟩ := hprep
    have hk := (hwait item0 hi0 (by rw [hk0]; rfl)).trans hk0
    simp only [translateKind, hk] at hr
    refine hfin (h.jump hmid hid hi hk hr) fun i hk' => ?_
    rw [hk0, hk'] at hbec
    obtain ⟨target, state, hj, -⟩ := hbec
    cases hj
  | target r =>
    have hk0 : item0.kind = .target r := hprep
    have hbec' := (hmid.becomes hid hi0 hi).2
    obtain ⟨state, hk⟩ : (ItemKind.target r).Becomes t.labels.size item.kind := hk0 ▸ hbec'
    simp only [translateKind, hk] at hr
    refine hfin (h.target hmid hid hi hk hr) fun i hk' => ?_
    rw [hk0, hk'] at hbec
    obtain ⟨state, hj⟩ := hbec
    cases hj
  | hint d =>
    have hk0 : item0.kind = .hint d := hprep
    have hk := (hwait item0 hi0 (by rw [hk0]; rfl)).trans hk0
    simp only [translateKind, hk] at hr
    obtain ⟨w, m1, m2, -⟩ := translateHint_ok hte.coherent (hte.owns d.var mem_cons_self) hr
    have g1 : u.Guards f E (t.holdings f).Usable t.Unpromised w := .of_moves
      (by cases d.directive <;> simp [Effect.directed, Effect.allocates, Effect.evicts, Effect.retires]) hte.coherent hU m1
    have g2 := Guards.of_moves (E := E) (R := t.Unpromised) (by rintro ⟨_, -, h⟩; exact h) (m1.coherent hte.coherent)
      (fun r hr => hU r (m1.usable.mp hr)) m2
    exact hsame (g1.trans g2) fun i hk' => by cases hk ▸ hk'
  | ret r =>
    have hk0 : item0.kind = .ret r := hprep
    simp only [translateKind, hwait item0 hi0 (by rw [hk0]; rfl), hk0] at hr
    have hrets : ∀ returns, u.returnsOf r.function = .ok returns →
        ∀ ret ∈ returns, Build.Returnable (t.holdings f).Usable t.Unpromised ret := by
      have hrest := hmid.continues.rest
      rw [show r.function = f from hin]
      exact fun returns hret => hord.returns returns (by rw [hrest] at hret; exact hret)
    obtain ⟨w, emitJump, g1, g2, -⟩ := translateReturn_guards hte hU (fun _ hv => hv) hrets hr
    obtain ⟨h1, -⟩ := hmid.moves g1.moves
    obtain ⟨h2, -⟩ := h1.settle (.ret { r with emitJump }) hid hi0 (by simp [hk0, ItemKind.isTarget])
      ⟨rfl, fun j hj => by cases hj⟩
    obtain ⟨h3, -⟩ := h2.reach (emitJump || w.ctx.unreachable)
    have hset : t.Accountable f body E (w.withKind id (.ret { r with emitJump })) :=
      (h.guards hmid g1).withKind fun _ _ => trivial
    refine hfin ((hset.reach _).guards h3 g2) fun i hk' => ?_
    obtain ⟨item2, hi2, -⟩ := h1.items hid hi0
    rw [g2.get?_eq (h3.old hid).2, get?_modify_self, hi2] at hi1
    cases hi1
    cases hk'
  | call c =>
    have hk0 : item0.kind = .call c := hprep
    have hk := (hwait item0 hi0 (by rw [hk0]; rfl)).trans hk0
    simp only [translateKind, hk] at hr
    obtain ⟨hregs, hproto⟩ := hord.calls id hid item0 c hi0 hk0
    have hrest := hmid.continues.rest
    refine hsame (translateCall_guards hte hU (fun _ hv => hv) (.inr hregs) (fun p hp => ?_) hr)
      fun i hk' => by cases hk ▸ hk'
    obtain ⟨hargs, hpop⟩ := hproto p (by rw [hrest] at hp; exact hp)
    exact ⟨fun info hinfo r hr => ⟨hargs info hinfo r hr, .inl (lt_trans (hargs info hinfo r hr).lt (by decide))⟩, hpop⟩
  | function | functionEnd => exact hin.elim
  | align | comment | data =>
    have hk0 : item0.kind = _ := hprep
    have hk := (hwait item0 hi0 (by rw [hk0]; rfl)).trans hk0
    simp only [translateKind, hk, bind_ok] at hr
    obtain ⟨_, _, ⟨⟩, ⟨⟩⟩ := hr
    exact hsame (.refl _) fun i hk' => by cases hk ▸ hk'

theorem entering (id : ItemId) (item : Item) : t.Accountable f body E (u.entering id item) :=
  h.quiet (fun _ => rfl) rfl rfl fun _ => .inl

theorem item (hord : t.Orderly f record body E)
    (hmid : t.Midway f start stop body (fun _ => False) u) (hw : Midway.Within t stop body (some id))
    (hr : translateItem id u = .ok next u') :
    t.Accountable f body E u' := by
  obtain ⟨item, w, hi, ht, hk, rfl⟩ := translateItem_ok hr
  have hmid' := (hmid.entering id item).1.mono fun x hx => (hx.elim : x = id)
  rcases hw id rfl with hid | rfl | hnew
  · obtain ⟨h1, hfin⟩ := (h.entering id item).kind hord hmid' hid hi (hmid.fresh hid hi ht).2 hk
    exact h1.leaving hfin
  · obtain ⟨item', hi', hke⟩ := hmid.closes
    cases hi ▸ hi'
    simp only [translateKind, hke, pure_ok] at hk
    obtain ⟨rfl, rfl⟩ := hk
    refine (h.entering id item).leaving fun item' hi' => ?_
    cases hi ▸ hi'
    rw [hke]
    trivial
  · exact absurd hk (hmid.not_generated hnew hi ht)

theorem reconcile (hmid : t.Midway f start stop body (fun _ => True) u)
    (hq : ∀ x ∈ q :: rest, t.Queues f body x ∧ x.state.Within (t.Cleared f u))
    (ha : assignState q.state (u.resolving q rest) = .ok () v)
    (hd : Build.doJump q.jump (v.atCursor (u.items.prev? q.jump)) = .ok () w) :
    t.Accountable f body E w.resolved ∧ ∀ {r}, u.Marked r → w.resolved.Marked r := by
  obtain ⟨m1, -⟩ := hmid.resolving fun x hx => (hq x hx).1
  have h1 : t.Accountable f body E (u.resolving q rest) :=
    h.quiet (fun _ => rfl) rfl rfl fun x hx => .inr (hq x (.tail _ hx)).2
  obtain ⟨h2, hmod⟩ := h1.adopt m1 (hq q mem_cons_self).2 ha
  obtain ⟨m2, -⟩ := hmid.resolve (u.items.prev? q.jump) (fun x hx => (hq x hx).1) ha
  obtain ⟨h3, hmarks⟩ := (h2.atCursor _).doJump m2 (hq q mem_cons_self).1.inside trivial hd
  refine ⟨h3.quiet (fun _ => rfl) rfl rfl fun _ => .inl, fun hm => hmarks ?_⟩
  unfold Marked
  rwa [show (v.atCursor (u.items.prev? q.jump)).ctx.modified = u.ctx.modified from hmod]

end

end Accountable

namespace Launch

/-- The opening item is translated. Arguments arrive in registers that the caller does not count on. -/
theorem accountable_first (h : t.Launch f record stop body) (hord : t.Orderly f record body E)
    (hr : translateItem record.item t = .ok next u') : t.Accountable f body E u' := by
  obtain ⟨item, w, v, hi, -, hrec, howns, hret, rfl, rfl⟩ := h.opening hr
  obtain ⟨m0, -⟩ := h.midway.entering record.item item
  obtain ⟨m1, -⟩ := m0.moves hrec.moves
  have hitems := hrec.items
  have hw : t.Accountable f body E w := by
    refine ⟨fun {r} ho => ⟨?_, .inr ?_⟩, fun {x item'} hx hi => ?_, fun q hmem => ?_⟩
    · obtain ⟨v, hv⟩ := ho
      exact m1.usable.mp (m1.coherent.occupied hv).1
    · by_contra hpro
      have hfree := hrec.free m0.coherent h.idle fun y hy z hz ha => hpro (hord.arguments y hy z r hz ha)
      obtain ⟨v, hv⟩ := ho
      cases hfree ▸ hv
    · rw [hitems] at hi
      rcases hx with hx | hx
      · obtain ⟨kind, item0, hi0, htr0, -⟩ := h.inside x hx
        cases hi0 ▸ hi
        obtain ⟨hstate, hjump⟩ := hord.stateless x hx
        cases hk : item'.kind with
        | instruction i => exact fun ht => by cases htr0 ▸ ht
        | jump j => exact ⟨hord.jumps x hx item' j hi0 hk, fun st hst => by
            cases hjump j (jump?_eq_some.mpr ⟨item', hi0, hk⟩) ▸ hst⟩
        | target r => exact fun st hst => by cases hstate ▸ (stateAt_eq_some.mpr ⟨item', r, hi0, hk, hst⟩)
        | _ => trivial
      · exact absurd (lt_size_of_get? hi) (not_lt.mpr hx)
    · have : w.ctx.forwardJumps = t.ctx.forwardJumps := by rw [hrec.moves.ctx]; rfl
      rw [this, hord.unqueued] at hmem
      cases hmem
  have hg : w.Guards f E (t.holdings f).Usable t.Unpromised v :=
    .of_moves (by rintro ⟨_, -, -, h⟩; exact h) m1.coherent (fun _ => m1.usable.mp) (retireEach_moves hret howns)
  refine (hw.guards m1 hg).leaving fun item' hi' => ?_
  obtain ⟨item0, hi0, hk0, -⟩ := h.opens
  rw [hg.get?_eq (hitems ▸ lt_size_of_get? hi), hitems] at hi'
  cases hi0 ▸ hi'
  rw [hk0]
  trivial

end Launch

end Session

namespace Moment
variable {record : FunctionRecord} {stop : ItemId}
  {body : List ItemId} {m : Moment}

/-- The registers are accounted for, also those of the jumps that are left. -/
def Accounted (t : Session) (f : FunctionId) (record : FunctionRecord) (body : List ItemId) (E : Instruction → Prop) :
    Moment → Prop
  | ⟨.walk next, u⟩ => t.Accountable f body E u ∨ next = some record.item ∧ u = t
  | ⟨.drain rest, u⟩ => t.Accountable f body E u ∧ ∀ q ∈ rest, q.state.Within (t.Cleared f u)

theorem Accounted.advance (h : m.Accounted t f record body E) (hs : m.Sound t f record stop body)
    (hl : t.Launch f record stop body) (hord : t.Orderly f record body E) (ha : m.Advances m') :
    m'.Accounted t f record body E := by
  cases ha with
  | item hr =>
    rcases h with h | ⟨hid, rfl⟩
    · rcases hs with ⟨hmid, hin | ⟨hid, rfl⟩⟩
      · exact .inl (h.item hord hmid hin hr)
      · cases some.inj hid
        exact .inl (hl.accountable_first hord hr)
    · cases some.inj hid
      exact .inl (hl.accountable_first hord hr)
  | resume hj hr =>
    obtain ⟨rfl, -⟩ := resumeBehind_ok hr
    refine .inl ((h.resolve_right fun he => by cases he.1).quiet (fun _ => rfl) rfl rfl fun _ => .inl)
  | finish hj =>
    have h' := h.resolve_right fun he => by cases he.1
    exact ⟨h', h'.queued⟩
  | reconcile ha hd =>
    obtain ⟨h', hm⟩ := h.1.reconcile hs.1 (fun x hx => ⟨hs.2 x hx, h.2 x hx⟩) ha hd
    exact ⟨h', fun q hq => (h.2 q (.tail _ hq)).mono fun r hr => hr.mono hm⟩

end Moment

theorem Session.Visits.accountable {t : Session} {record : FunctionRecord} (hv : t.Visits record.item ⟨.drain [], u⟩)
    (hl : t.activated.Launch f record stop body) (hord : t.activated.Orderly f record body E) :
    t.activated.Accountable f body E u := by
  have run : ∀ {m}, t.Visits record.item m → m.Accounted t.activated f record body E := fun hv => by
    induction hv with
    | refl => exact .inr ⟨rfl, rfl⟩
    | tail hv ha ih => exact ih.advance (Visits.sound hv hl) hl hord ha
  exact (run hv).1

end Codegen
