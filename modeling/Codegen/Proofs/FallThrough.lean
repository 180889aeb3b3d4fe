import Codegen.Proofs.Convergence

/-! What the reconciliation of a jump does to the code that control falls into behind the jump: which values it loses, and
where its code goes. -/
namespace Codegen
open Build ItemSeq Option

theorem Effect.retires.changes {id : VarId} {e : Effect} (h : e.retires id) (hx : x ≠ id) : x ∉ e.changes := by
  cases e with
  | forget v state =>
    obtain ⟨rfl, -⟩ := h
    simpa [Effect.changes] using hx
  | retire v =>
    cases h
    simpa [Effect.changes] using hx
  | _ => exact h.elim

namespace Session
variable {t u u' : Session} {start stop : ItemId} {body : List ItemId}
  {busy : ItemId → Prop}
variable {id : ItemId} {next : Option ItemId} {st : Snapshot}

instance (u : Session) (x : VarId) : Decidable (u.Live x) :=
  decidable_of_iff ((u.vars.get? x).any fun y => y.state ≠ .unused) (by simp [Live, any_eq_true])

theorem live_iff_holdings (hx : u.Owns f x) : u.Live x ↔ ∃ a, (u.holdings f).vars x = some a ∧ a.state ≠ .unused := by
  obtain ⟨a, ha⟩ := hx
  obtain ⟨y, hy, hf, rfl⟩ := holdings_vars.mp ha
  simp [Live, hy, ha, Variable.core]

theorem live_retire (hte : u.Tends f fun _ => False) (hx : u.Owns f x) (hlast : ¬ u.LastAt id x)
    (hr : retireActiveAt id u = .ok () u') : u'.Live x ↔ u.Live x := by
  simp only [retireActiveAt, bind_ok] at hr
  obtain ⟨_, _, ⟨⟩, hr⟩ := hr
  have hm := retireEach_moves hr hte.active
  have hsame : (u'.holdings f).vars x = (u.holdings f).vars x := by
    refine hm.vars_eq fun e he => ?_
    obtain ⟨a, -, hl, he⟩ := he
    refine he.changes ?_
    rintro rfl
    exact hlast hl
  rw [live_iff_holdings (hm.owns hx), live_iff_holdings hx, hsame]

theorem mentions_snapshot (hc : Coherent (u.holdings f)) (hx : u.Owns f x) :
    (x ∈ (u.snapshot f).memVars ∨ ∃ r ∈ Reg.all, (u.snapshot f).occupant r = some x) ↔ u.Live x := by
  obtain ⟨a, ha⟩ := hx
  obtain ⟨y, hy, hf, rfl⟩ := holdings_vars.mp ha
  have hlive : u.Live x ↔ y.state ≠ .unused := by simp [Live, hy]
  rw [hlive]
  constructor
  · rintro (hm | ⟨r, -, ho⟩) hs
    · obtain ⟨y', hy', -, hs'⟩ := (mem_memoryVars hc.numbered).mp hm
      cases hy ▸ hy'
      cases hs ▸ hs'
    · have hr := hc.currentReg_of_occupant ha ho
      cases hs ▸ (Variable.currentReg_eq_some.mp hr).1
  · intro hs
    cases hstate : y.state with
    | unused => exact absurd hstate hs
    | memory => exact .inl ((mem_memoryVars hc.numbered).mpr ⟨y, hy, hf, hstate⟩)
    | register =>
      obtain ⟨r, -, ho⟩ := hc.settled ha hstate
      exact .inr ⟨r, (hc.occupied ho).1.mem_all, ho⟩

theorem queueing_vars : (u.queueing id T j kind st).vars = u.vars := by
  unfold queueing
  split
  · split <;> rfl
  · rfl

theorem stateAt_of_jump (h : u.jump? id = some j) : u.stateAt id = none := by
  obtain ⟨item, hi, hk⟩ := jump?_eq_some.mp h
  simp [stateAt, hi, hk]

theorem isBackward_congr (h : ∀ x, u'.items.offset? x = u.items.offset? x) :
    u'.isBackward T id = u.isBackward T id := by
  rw [isBackward, isBackward, h, h]

theorem offset?_withKind (u : Session) (id : ItemId) (kind : ItemKind) (x : ItemId) :
    (u.withKind id kind).items.offset? x = u.items.offset? x := by
  unfold withKind offset?
  by_cases hx : id = x
  · subst hx
    rw [get?_modify_self]
    cases u.items.get? id <;> rfl
  · rw [get?_modify_of_ne _ hx]

namespace Midway

theorem owned (h : t.Midway f start stop body busy u) (hx : t.Owns f x) (hy : u.vars.get? x = some y) :
    y.function = f := by
  obtain ⟨a, ha⟩ := h.continues.vars.owns_iff.mpr hx
  obtain ⟨y', hy', hf, -⟩ := holdings_vars.mp ha
  cases hy ▸ hy'
  exact hf

theorem doJump_live {own : Snapshot} (h : t.Midway f start stop body busy u)
    (hid : id ∈ body) (hb : busy id) (hj : u.jump? id = some j)
    (hl : u.labels[j.target.index]? = some T) (hown : j.state = some own) (hx : t.Owns f x) (hlive : u.Live x)
    (hd : Build.doJump id u = .ok () u') :
    ∃ st, u.stateAt T = some st ∧ (u'.Live x ↔ if u.inPlace T id j then st.stateOf x ≠ .unused
      else x ∈ own.memVars ∨ ∃ r ∈ Reg.all, own.occupant r = some x) := by
  obtain ⟨j', T', st, v, hj', hl', hst, hr, hcase⟩ := doJump_ok hd
  cases hj ▸ hj'
  cases hl ▸ hl'
  obtain ⟨-, hfit⟩ := h.leads hid hj hl hst
  refine ⟨st, hst, ?_⟩
  rcases hcase with ⟨hp, rfl⟩ | ⟨hp, extra, own', he, hown', ha⟩
  · obtain ⟨y, hy, hs⟩ := hlive
    have hyf := (h.owned hx hy)
    rw [reconciling, if_pos hp] at hr
    rw [if_pos hp]
    exact restoreState_live h.function h.coherent.numbered hy hyf hs hr
  cases hown ▸ hown'
  rw [reconciling, if_neg (by simp [hp]), he] at hr
  obtain ⟨h1, -⟩ := h.outOfLine he hfit hr hid hb hj
  obtain ⟨h2, -⟩ := h1.atCursor u.items.cursor
  obtain ⟨a, ha'⟩ := h2.continues.vars.owns_iff.mpr hx
  obtain ⟨y, hy, hyf, -⟩ := holdings_vars.mp ha'
  rw [if_neg (by simp [hp])]
  exact assignState_live h2.function h2.coherent.numbered hy hyf ha

theorem jump_next (h : t.Midway f start stop body (fun _ => False) u) (hid : id ∈ body)
    (ht : t.JumpsTo id T) (hj : u.jump? id = some j) (hcond : j.opcode ≠ .jmp)
    (hr : translateItem id u = .ok next u') : next = u'.items.next? id := by
  obtain ⟨item, j', w, hi, hk, -, hkind, rfl⟩ := h.jump_item hid ht hr
  obtain ⟨item', hi', hk'⟩ := jump?_eq_some.mp hj
  cases hi ▸ hi'
  cases hk ▸ hk'
  rw [leaving_next?]
  obtain ⟨_, _, -, -, -, ⟨hjmp, -⟩ | ⟨_, _, -, -, -, hnext⟩⟩ := translateJump_ok hkind
  · exact absurd hjmp hcond
  · exact hnext

/-- What a conditional jump leaves in use, of the variables that live on. -/
theorem jump_live (h : t.Midway f start stop body (fun _ => False) u) (hout : t.Outline f start stop body)
    (hid : id ∈ body) (ht : t.JumpsTo id T) (hj : u.jump? id = some j) (hcond : j.opcode ≠ .jmp)
    (hr : Build.translateItem id u = .ok next u') (hx : t.Owns f x) (hlive : u.Live x) (hlast : ¬ t.LastAt id x) :
    u'.Live x ↔ (u.isTranslated T = true → j.taken = true → u.isBackward T id = true →
      ∃ st, u.stateAt T = some st ∧ st.stateOf x ≠ .unused) := by
  obtain ⟨item, j', w, hi, hk, hl, hkind, rfl⟩ := h.jump_item hid ht hr
  obtain ⟨item', hi', hk'⟩ := jump?_eq_some.mp hj
  cases hi ▸ hi'
  cases hk ▸ hk'
  obtain ⟨h1, -⟩ := h.entering id item
  have h1' := h1.mono fun x hx => (hx.elim : x = id)
  obtain ⟨target, titem, hl', hti, -, hcase⟩ := translateJump_ok hkind
  cases hl ▸ hl'
  have htr : u.isTranslated T = titem.translated := by
    have hti' : u.items.get? T = some titem := hti
    simp [isTranslated, hti']
  have hgone : ∀ v : Session, (v.leaving id item).Live x ↔ v.Live x := fun v => by
    unfold Session.leaving
    split <;> rfl
  have hretired : ∀ {w0 : Session} {b : Bool}, t.Midway f start stop body (· = id) w0 →
      retireActiveAt id { w0 with ctx := { w0.ctx with unreachable := b } } = .ok () w → (w.Live x ↔ w0.Live x) := by
    intro w0 b h0 hret
    obtain ⟨h2, -⟩ := h0.reach b
    have hte := h2.tends (V := fun _ => False) fun _ hf => hf.elim
    have hiff := live_retire hte (h2.continues.vars.owns_iff.mpr hx)
      (fun hl => hlast ((lastAt_congr (h2.continues.vars.fixed x)).mp hl)) hret
    exact hiff
  rcases hcase with ⟨hjmp, -⟩ | ⟨g, w0, hg, hw0, hret, -⟩
  · exact absurd hjmp hcond
  cases h1.function ▸ hg
  rw [hgone]
  rcases hw0 with ⟨hyes, hd⟩ | ⟨hnt, -, rfl⟩
  · obtain ⟨h2, -⟩ := h1'.note hid hi hk
    obtain ⟨h3, -⟩ := h2.doJump hid rfl hd
    have hj2 : ((u.entering id item).withKind id
          (.jump { j with state := some ((u.entering id item).snapshot f) })).jump? id =
        some { j with state := some ((u.entering id item).snapshot f) } :=
      jump?_eq_some.mpr ⟨_, (get?_modify_self _ _ _).trans (congrArg (Option.map _) hi), rfl⟩
    obtain ⟨st, hst, hiff⟩ := h2.doJump_live hid rfl hj2 hl rfl hx hlive hd
    have hne : T ≠ id := by
      intro he
      rw [he, stateAt_of_jump hj2] at hst
      cases hst
    rw [stateAt_withKind_of_ne hne] at hst
    have hplace : ((u.entering id item).withKind id
          (.jump { j with state := some ((u.entering id item).snapshot f) })).inPlace
        T id { j with state := some ((u.entering id item).snapshot f) } = (j.taken && u.isBackward T id) := by
      rw [inPlace, isBackward_congr (offset?_withKind _ _ _)]
      simp [hcond]
      rfl
    rw [hretired h3 hret, hiff, hplace, htr, hyes]
    cases hb : j.taken && u.isBackward T id with
    | true =>
      simp only [Bool.and_eq_true] at hb
      simp only [if_true, hb.1, hb.2, forall_const]
      refine ⟨fun hne => ⟨st, hst, hne⟩, fun h => ?_⟩
      obtain ⟨st', hst', hne⟩ := h
      exact some.inj (hst ▸ hst') ▸ hne
    | false =>
      refine iff_of_true ((mentions_snapshot h1.coherent (h1.continues.vars.owns_iff.mpr hx)).mpr hlive)
        fun _ h1 h2 => ?_
      rw [h1, h2] at hb
      cases hb
  · obtain ⟨h2, -⟩ := h1'.queueing hid hi hk hcond (hout.jumps id hid T ht) hti hnt
    rw [hretired h2 hret, Live, queueing_vars]
    refine iff_of_true hlive fun hyes => ?_
    cases hyes ▸ htr.trans hnt

end Midway

/-- Behind a conditional jump, a variable that lives on is still in use, unless the jump goes back to a translated target,
is expected to be taken, and the snapshot of the target does not mention the variable. -/
theorem fallThrough_live_iff {record : FunctionRecord} {p : Prototype} {J : ItemId} {j : JumpItem}
    (hs : s.Ready f record stop body) (hp : Build.prepareFunction f record stop p s = .ok () t) (hj : s.Closed body)
    (hv : t.Visits record.item ⟨.walk (some J), u⟩) (hJ : J ∈ body) (hJT : s.JumpsTo J T) (hjump : u.jump? J = some j)
    (hcond : j.opcode ≠ .jmp) (hr : Build.translateItem J u = .ok next u') :
    next = u'.items.next? J ∧ ∀ x y, u.vars.get? x = some y → y.function = f → y.state ≠ .unused → y.lastItem ≠ some J →
      (u'.Live x ↔ (u.isTranslated T = true → j.taken = true → u.isBackward T J = true →
        ∃ st, u.stateAt T = some st ∧ st.stateOf x ≠ .unused)) := by
  have hl := hs.launch hp hj
  have hmid := (hv.sound hl).1
  have ht : t.activated.JumpsTo J T := (hs.jumpsTo_iff hp hJ).mpr hJT
  refine ⟨hmid.jump_next hJ ht hjump hcond hr, fun x y hy hf hlive hlast => ?_⟩
  refine hmid.jump_live hl.toOutline hJ ht hjump hcond hr ?_ ⟨y, hy, hlive⟩ fun hla => hlast ?_
  · exact hmid.continues.vars.owns_iff.mp ⟨_, holdings_vars_of_get? hy hf⟩
  · have hla' : u.LastAt J x := (lastAt_congr (hmid.continues.vars.fixed x)).mpr hla
    rwa [LastAt, hy, Option.bind_some] at hla'

end Session

namespace Builder

/-- A value that is first computed in a loop and used behind it. -/
def valueFromLoop : List Call :=
  let a : VarRef := ⟨⟨0⟩, 8⟩
  let v : VarRef := ⟨⟨1⟩, 8⟩
  let w : VarRef := ⟨⟨2⟩, 8⟩
  [.newFunction [.gpq] [.gpq] {}, .newVar .gpq, .newVar .gpq, .newLabel,
    .bind ⟨2⟩, .emit .mov [.var v, .imm 5], .emit .dec [.var a], .jump (.jcc .ne) ⟨2⟩ .none,
    .emit .mov [.var w, .imm 7], .emit .add [.var a, .var v], .emit .add [.var a, .var w], .ret [.var a], .endFunction]

end Builder

namespace Session

/-- The loop counter is known at the head of the loop, and behind the loop too. -/
theorem fallThrough_live_iff_counter : ∃ s t u u' record stop body, ∃ p : Prototype, ∃ next j,
    s.Ready ⟨0⟩ record stop body ∧ Build.prepareFunction ⟨0⟩ record stop p s = .ok () t ∧ s.Closed body ∧
    t.Visits record.item ⟨.walk (some ⟨6⟩), u⟩ ∧ ⟨6⟩ ∈ body ∧ s.JumpsTo ⟨6⟩ ⟨3⟩ ∧ u.jump? ⟨6⟩ = some j ∧
    j.opcode ≠ .jmp ∧
    Build.translateItem ⟨6⟩ u = .ok next u' ∧ u.isTranslated ⟨3⟩ = true ∧ j.taken = true ∧
    u.isBackward ⟨3⟩ ⟨6⟩ = true ∧ u'.Live ⟨0⟩ := by
  obtain ⟨⟨⟨s, record, stop, p, t⟩, ⟨task, u⟩⟩, hq, hd⟩ := Option.any_eq_true _ _ |>.mp
    (show (Builder.momentAfter 5 Builder.valueFromLoop).any (fun (q, m) => m.task = .walk (some ⟨6⟩) ∧
      ⟨6⟩ ∈ (q.before.items.range q.record.item q.stop).tail.dropLast ∧ q.before.JumpsTo ⟨6⟩ ⟨3⟩ ∧
      m.session.isTranslated ⟨3⟩ = true ∧ m.session.isBackward ⟨3⟩ ⟨6⟩ = true ∧ m.advance?.isSome = true ∧
      ((m.session.jump? ⟨6⟩).any fun j => j.opcode ≠ .jmp ∧ j.taken = true) ∧
      ((m.session.vars.get? ⟨0⟩).any fun y => y.function = ⟨0⟩ ∧ y.state ≠ .unused ∧ y.lastItem ≠ some ⟨6⟩) ∧
      ((m.session.stateAt ⟨3⟩).any fun st => st.stateOf ⟨0⟩ ≠ .unused)) = true by decide +kernel)
  obtain ⟨hp, hm, body, hs, hj⟩ := Builder.momentAfter_ok hq
  obtain ⟨rfl, hJ, hJT, htr, hback, hsome, hjump, hy, hst⟩ := of_decide_eq_true hd
  rw [hs.range_eq, List.tail_cons, List.dropLast_concat] at hJ
  obtain ⟨m', hstep⟩ := Option.isSome_iff_exists.mp hsome
  obtain ⟨j, hjump, hd⟩ := Option.any_eq_true _ _ |>.mp hjump
  obtain ⟨hcond, htaken⟩ := of_decide_eq_true hd
  obtain ⟨y, hy, hd⟩ := Option.any_eq_true _ _ |>.mp hy
  obtain ⟨hf, hlive, hlast⟩ := of_decide_eq_true hd
  obtain ⟨st, hst, hd⟩ := Option.any_eq_true _ _ |>.mp hst
  have hne : st.stateOf ⟨0⟩ ≠ .unused := of_decide_eq_true hd
  cases Moment.advances_iff.mpr hstep with
  | item hr =>
    obtain ⟨-, hiff⟩ := fallThrough_live_iff hs hp hj hm hJ hJT hjump hcond hr
    exact ⟨s, t, u, _, record, stop, body, p, _, j, hs, hp, hj, hm, hJ, hJT, hjump, hcond, hr, htr, htaken, hback,
      (hiff ⟨0⟩ y hy hf hlive hlast).mpr fun _ _ _ => ⟨st, hst, hne⟩⟩

/-- The value from the loop is lost: it is in a register in front of the jump back and in use further on, but the jump
takes it away also when control falls through. -/
theorem value_lost_behind_loop : ∃ s t u u' record stop body, ∃ p : Prototype, ∃ next j y,
    s.Ready ⟨0⟩ record stop body ∧ Build.prepareFunction ⟨0⟩ record stop p s = .ok () t ∧ s.Closed body ∧
    t.Visits record.item ⟨.walk (some ⟨6⟩), u⟩ ∧ ⟨6⟩ ∈ body ∧ u.jump? ⟨6⟩ = some j ∧ j.opcode ≠ .jmp ∧
    Build.translateItem ⟨6⟩ u = .ok next u' ∧ u.vars.get? ⟨1⟩ = some y ∧ y.function = ⟨0⟩ ∧ y.state = .register ∧
    y.lastItem = some ⟨8⟩ ∧ u.items.order.idxOf ⟨6⟩ < u.items.order.idxOf ⟨8⟩ ∧ next = some ⟨7⟩ ∧ ¬ u'.Live ⟨1⟩ := by
  obtain ⟨⟨⟨s, record, stop, p, t⟩, ⟨task, u⟩⟩, hq, hd⟩ := Option.any_eq_true _ _ |>.mp
    (show (Builder.momentAfter 5 Builder.valueFromLoop).any (fun (q, m) => m.task = .walk (some ⟨6⟩) ∧
      ⟨6⟩ ∈ (q.before.items.range q.record.item q.stop).tail.dropLast ∧
      m.session.items.order.idxOf ⟨6⟩ < m.session.items.order.idxOf ⟨8⟩ ∧
      ((m.session.jump? ⟨6⟩).any fun j => j.opcode ≠ .jmp) ∧
      ((m.session.vars.get? ⟨1⟩).any fun y => y.function = ⟨0⟩ ∧ y.state = .register ∧ y.lastItem = some ⟨8⟩) ∧
      (m.advance?.any fun m' => m'.task = .walk (some ⟨7⟩) ∧ ¬ m'.session.Live ⟨1⟩)) = true by decide +kernel)
  obtain ⟨hp, hm, body, hs, hj⟩ := Builder.momentAfter_ok hq
  obtain ⟨rfl, hJ, horder, hjump, hy, hstep⟩ := of_decide_eq_true hd
  rw [hs.range_eq, List.tail_cons, List.dropLast_concat] at hJ
  obtain ⟨j, hjump, hd⟩ := Option.any_eq_true _ _ |>.mp hjump
  have hcond : j.opcode ≠ .jmp := of_decide_eq_true hd
  obtain ⟨y, hy, hd⟩ := Option.any_eq_true _ _ |>.mp hy
  obtain ⟨hf, hreg, hlast⟩ := of_decide_eq_true hd
  obtain ⟨m', hstep, hd⟩ := Option.any_eq_true _ _ |>.mp hstep
  obtain ⟨htask, hdead⟩ := of_decide_eq_true hd
  cases Moment.advances_iff.mpr hstep with
  | item hr =>
    cases htask
    exact ⟨s, t, u, _, record, stop, body, p, _, j, y, hs, hp, hj, hm, hJ, hjump, hcond, hr, hy, hf, hreg, hlast,
      horder, rfl, hdead⟩

end Session

end Codegen
