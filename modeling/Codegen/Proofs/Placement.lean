import Codegen.Proofs.Convergence

/-! Where the code goes that reconciles the jumps that were left. -/
namespace Codegen
open List Build ItemSeq

namespace ItemSeq
variable {q : ItemSeq} {body : List ItemId} {start stop extra : ItemId}

/-- All that is new stands behind `stop`, and nothing has changed from `start` to `stop`. -/
structure GrowsBehind (start stop : ItemId) (q q' : ItemSeq) : Prop where
  same : q'.range start stop = q.range start stop
  behind : ∀ x ∈ q'.order, q.size ≤ x.index → ∃ P Q, q'.order = P ++ stop :: Q ∧ x ∈ Q

theorem GrowsBehind.of_order_eq (h : q'.order = q.order) (hm : ∀ x ∈ q.order, x.index < q.size) :
    GrowsBehind start stop q q' where
  same := range_congr h start
  behind x hx hnew := absurd (hm x (h ▸ hx)) (not_lt.mpr hnew)

theorem growsBehind_setCursor {cursor : Option ItemId} :
    GrowsBehind start stop (q.setCursor cursor) q' ↔ GrowsBehind start stop q q' :=
  ⟨fun h => ⟨h.same, h.behind⟩, fun h => ⟨h.same, h.behind⟩⟩

theorem not_growsBehind (ho : q'.order = P ++ N ++ Q) (hn : q'.order.Nodup)
    (hstop : stop ∈ Q) (hx : x ∈ N) (hnew : q.size ≤ x.index) : ¬ GrowsBehind start stop q q' := by
  intro h
  obtain ⟨P', Q', ho', hx'⟩ := h.behind x (by simp [ho, hx]) hnew
  obtain ⟨Q₁, Q₂, rfl⟩ := append_of_mem hstop
  have hsplit : (P ++ N ++ Q₁) ++ stop :: Q₂ = P' ++ stop :: Q' := by rw [← ho', ho]; simp
  rw [ho'] at hn
  obtain ⟨rfl, rfl⟩ := split_unique (hsplit ▸ hn) hsplit
  exact (nodup_append.mp hn).2.2 x (by simp [hx]) x (mem_cons_of_mem _ hx') rfl

theorem Spans.growsBehind (h : q.Spans n body start stop extra) (ho : q.order = X ++ extra :: Y)
    (ho' : q'.order = X ++ extra :: (N ++ Y)) (hn : q'.order.Nodup) : GrowsBehind start stop q q' := by
  obtain ⟨A, B, C, hq, -, -, he⟩ := h.order
  obtain ⟨C₁, C₂, hC⟩ := append_of_mem he
  have hsplit : X ++ extra :: Y = (A ++ start :: (B ++ C₁)) ++ extra :: C₂ := by simp [← ho, hq, hC]
  obtain ⟨rfl, rfl⟩ := split_unique (ho ▸ h.nodup) hsplit
  obtain ⟨C', hC'⟩ : ∃ C', C₁ ++ extra :: (N ++ Y) = stop :: C' := by
    cases C₁ with
    | nil => exact ⟨N ++ Y, by simp_all⟩
    | cons a C₁ => exact ⟨C₁ ++ extra :: (N ++ Y), by simp_all⟩
  have hq' : q'.order = A ++ start :: (B ++ stop :: C') := by simp [ho', ← hC']
  have hrange : ∀ {q : ItemSeq} {C : List ItemId}, q.order = A ++ start :: (B ++ stop :: C) → q.order.Nodup →
      q.range start stop = start :: (B ++ [stop]) := fun {q C} ho hn =>
    range_eq (A := A) (C := C) (by simp [ho]) hn rfl (by rw [getLast?_cons]; simp)
  refine ⟨?_, fun x hx hnew => ⟨A ++ start :: B, C', by simp [hq'], ?_⟩⟩
  · rw [hrange hq' hn, hrange hq h.nodup]
  by_contra hxC
  have hold : x ∈ q.order := by
    rw [hq'] at hx
    rw [hq]
    simp only [mem_append, mem_cons] at hx ⊢
    tauto
  exact not_lt.mpr hnew (h.made x hold)

theorem cursor_generateAll
    (h : (q.generateAll mark code).cursor = some c) : code = [] ∨ q.size ≤ c.index := by
  induction code generalizing q with
  | nil => exact .inl rfl
  | cons i code ih =>
    right
    rcases ih h with rfl | hc
    · cases h
      exact le_refl _
    · exact le_trans (by simp) hc

end ItemSeq

namespace Session
variable {t : Session} {start stop : ItemId} {body : List ItemId}
  {busy : ItemId → Prop}
variable {id : ItemId} {may : Effect → Prop}

namespace Midway

theorem inFront_placement (h : t.Midway f start stop body busy u) (hid : id ∈ body)
    (hc : u.items.cursor = u.items.prev? id) (hm : u.Moves f may v) :
    u.items.GrowsBehind start stop v.items ↔ v.items.size = u.items.size := by
  obtain ⟨extra, -, hs⟩ := h.spans
  obtain ⟨code, -, hi⟩ := hm.run
  have hsize : v.items.size = u.items.size + code.length := by rw [hi, size_generateAll]
  obtain ⟨P, Q, hcut, hstop⟩ : ∃ P Q, u.items.Cut P Q ∧ stop ∈ Q := by
    by_cases hmem : id ∈ u.items.order
    · obtain ⟨X, L, Z, ho, hX, -⟩ := hs.around hid h.outline.outer.1 h.outline.outer.2 hmem
      have hn := ho ▸ hs.nodup
      have hL : id ∉ L ++ stop :: Z := (nodup_cons.mp (nodup_append.mp hn).2.1).1
      refine ⟨X, id :: (L ++ stop :: Z), ⟨ho, ?_, hn, ho ▸ hs.made⟩, by simp⟩
      rw [hc, prev?_eq_preceding, ho, preceding_append hX hL]
    · obtain ⟨A, B, C, ho, -⟩ := hs.order
      refine ⟨[], u.items.order, ⟨rfl, ?_, hs.nodup, hs.made⟩, by simp [ho]⟩
      rw [hc, prev?_eq_preceding, preceding_of_not_mem hmem]
      rfl
  constructor
  · intro hg
    by_contra hne
    have hcut' := hcut.generateAll u.mark code
    rw [← hi] at hcut'
    refine not_growsBehind (x := ⟨u.items.size⟩) hcut'.order (hcut'.order ▸ hcut'.nodup) hstop ?_ (le_refl _) hg
    exact mem_newIds.mpr ⟨le_refl _, by simp only; omega⟩
  · intro heq
    obtain rfl : code = [] := length_eq_zero_iff.mp (by omega)
    exact .of_order_eq (by rw [hi]; rfl) hs.made

theorem outOfLine_placement (id : ItemId) (j : JumpItem) (h : t.Midway f start stop body busy u)
    (he : u.ctx.extraBlock = some extra) (hm : (u.atCursor (some extra)).Moves f may v) :
    u.items.GrowsBehind start stop (v.detour id j extra).items := by
  obtain ⟨e, he', hs⟩ := h.spans
  cases he ▸ he'
  obtain ⟨code, -, hi⟩ := hm.run
  have hs' : (u.items.setCursor (some extra)).Spans t.items.size body start stop extra := hs.congr rfl rfl
  have hmem : extra ∈ u.items.order := by
    obtain ⟨A, B, C, ho, -, -, hex⟩ := hs.order
    rw [ho]
    exact mem_append_right _ (mem_cons_of_mem _ (mem_append_right _ hex))
  unfold detour
  split
  · rename_i hc
    rw [hi] at hc
    cases (cursor_generateAll hc).resolve_right (not_le.mpr (hs.made extra hmem))
    exact .of_order_eq (by rw [hi]; rfl) hs.made
  obtain ⟨X, Y, hXY⟩ := append_of_mem hmem
  have hord : (v.closeBlock j.target extra).items.order =
      X ++ extra :: (⟨u.items.size + code.length + 1⟩ :: u.items.newIds (code.length + 1) ++ Y) := by
    simp only [Session.closeBlock]
    rw [hi, ← hm.mark_eq]
    exact order_closeBlock hXY rfl hs'.nodup hs'.made
  have hnodup : (v.closeBlock j.target extra).items.order.Nodup := by
    simp only [Session.closeBlock]
    rw [hi, ← hm.mark_eq]
    exact (hs'.closeBlock rfl).nodup
  have hg : u.items.GrowsBehind start stop (v.closeBlock j.target extra).items := hs.growsBehind hXY hord hnodup
  exact ⟨hg.same, hg.behind⟩

/-- A jump that was left is reconciled behind the function, unless it goes back, is expected to be taken, and takes code
to reconcile. -/
theorem drain_placement (h : t.Midway f start stop body (fun _ => True) u)
    (hout : t.Outline f start stop body) (hq : ∀ x ∈ q :: rest, t.Queues f body x)
    (ha : assignState q.state (u.resolving q rest) = .ok () v)
    (hd : Build.doJump q.jump (v.atCursor (u.items.prev? q.jump)) = .ok () w) :
    ∃ j T, u.jump? q.jump = some j ∧ j.opcode ≠ .jmp ∧ t.JumpsTo q.jump T ∧ (u.items.GrowsBehind start stop w.items ↔
      (j.taken = true → u.isBackward T q.jump = true → w.items.size = u.items.size)) := by
  have hid := (hq q mem_cons_self).inside
  obtain ⟨h1, -⟩ := h.resolve (u.items.prev? q.jump) hq ha
  obtain ⟨vars, rfl, -⟩ := assignState_ok (s := u.resolving q rest) (h.continues.function_eq.trans hout.function)
    h.coherent.numbered ha
  obtain ⟨j, T, st, c, hj, hl, hst, hr, hcase⟩ := doJump_ok hd
  obtain ⟨hT, hfit⟩ := h1.leads hid hj hl hst
  obtain ⟨hm, -⟩ := h1.arrives hfit hr
  obtain ⟨j0, hj0, hop, -⟩ := h.origin hid hj
  have hcond : j.opcode ≠ .jmp := hop ▸ (hq q mem_cons_self).conditional j0 hj0
  have hplace : u.inPlace T q.jump j = (j.taken && u.isBackward T q.jump) := by simp [inPlace, hcond]
  refine ⟨j, T, hj, hcond, h1.jumpsTo hid hj hl hT, ?_⟩
  rcases hcase with ⟨hp, rfl⟩ | ⟨hp, extra, own, he, -, ha'⟩
  · rw [reconciling, if_pos hp] at hm
    have hiff := h1.inFront_placement hid rfl hm
    obtain ⟨ht, hb⟩ := Bool.and_eq_true _ _ |>.mp (hplace ▸ hp)
    refine (growsBehind_setCursor.symm.trans hiff).trans ?_
    exact ⟨fun hsize _ _ => hsize, fun hsize => hsize ht hb⟩
  rw [reconciling, if_neg (by simp [hp]), he] at hm hr
  obtain ⟨h2, -⟩ := h1.outOfLine he hfit hr hid trivial hj
  obtain ⟨h3, -⟩ := h2.atCursor (u.items.prev? q.jump)
  obtain ⟨vars', rfl, -⟩ := assignState_ok h3.function h3.coherent.numbered ha'
  have hg := h1.outOfLine_placement q.jump j he hm
  refine iff_of_true ⟨hg.same, hg.behind⟩ fun ht hb => ?_
  have hp' := hplace ▸ hp
  rw [ht, hb] at hp'
  cases hp'

end Midway

/-- The code that reconciles a jump that was left stands behind the function and leaves the rest of it alone, unless the
jump goes back, is expected to be taken, and takes code to reconcile. -/
theorem drained_behind_iff {record : FunctionRecord} {p : Prototype} {q : ForwardJump} {rest : List ForwardJump}
    {m : Moment} (hs : s.Ready f record stop body) (hp : Build.prepareFunction f record stop p s = .ok () t)
    (hj : s.Closed body) (hv : t.Visits record.item ⟨.drain (q :: rest), u⟩)
    (hm : Moment.Advances ⟨.drain (q :: rest), u⟩ m) :
    ∃ j T, u.jump? q.jump = some j ∧ j.opcode ≠ .jmp ∧ s.JumpsTo q.jump T ∧
      (u.items.GrowsBehind record.item stop m.session.items ↔
        (j.taken = true → u.isBackward T q.jump = true → m.session.items.size = u.items.size)) := by
  have hl := hs.launch hp hj
  obtain ⟨hmid, hq⟩ := hv.sound hl
  cases hm with
  | reconcile ha hd =>
    obtain ⟨j, T, hjump, hcond, ht, hiff⟩ := hmid.drain_placement hl.toOutline hq ha hd
    exact ⟨j, T, hjump, hcond, (hs.jumpsTo_iff hp (hq q List.mem_cons_self).inside).mp ht, hiff⟩

end Session

/-- The jumps that a task is still to reconcile. -/
def Task.left : Task → List ForwardJump
  | walk _ => []
  | drain rest => rest

theorem Task.left_eq_singleton {task : Task} {jump : ItemId} (h : task.left.map ForwardJump.jump = [jump]) :
    ∃ q, task = .drain [q] ∧ q.jump = jump := by
  cases task with
  | walk next => cases h
  | drain rest =>
    obtain ⟨q, rfl, hq⟩ := map_eq_singleton_iff.mp h
    exact ⟨q, rfl, hq⟩

namespace Session

/-- The jump over the spill is reconciled behind the function. -/
theorem drained_behind_iff_forward : ∃ s t u record stop body, ∃ p : Prototype, ∃ q m j,
    s.Ready ⟨0⟩ record stop body ∧ Build.prepareFunction ⟨0⟩ record stop p s = .ok () t ∧ s.Closed body ∧
    t.Visits record.item ⟨.drain [q], u⟩ ∧ Moment.Advances ⟨.drain [q], u⟩ m ∧ u.jump? q.jump = some j ∧
    j.taken = false ∧ u.items.size < m.session.items.size ∧ u.items.GrowsBehind record.item stop m.session.items := by
  obtain ⟨⟨⟨s, record, stop, p, t⟩, ⟨task, u⟩⟩, hq, hd⟩ := Option.any_eq_true _ _ |>.mp
    (show (Builder.momentAfter 12 Builder.jumpOverSpill).any (fun (_, m) =>
      m.task.left.map ForwardJump.jump = [⟨6⟩] ∧ ((m.session.jump? ⟨6⟩).any fun j => j.taken = false) ∧
      (m.advance?.any fun m' => m.session.items.size < m'.session.items.size)) = true by decide +kernel)
  obtain ⟨hp, hv, body, hs, hj⟩ := Builder.momentAfter_ok hq
  obtain ⟨hleft, hjump, hstep⟩ := of_decide_eq_true hd
  obtain ⟨q, rfl, hid⟩ := Task.left_eq_singleton hleft
  obtain ⟨j, hjump, hd⟩ := Option.any_eq_true _ _ |>.mp hjump
  have htaken : j.taken = false := of_decide_eq_true hd
  obtain ⟨m, hstep, hd⟩ := Option.any_eq_true _ _ |>.mp hstep
  have hm := Moment.advances_iff.mpr hstep
  obtain ⟨j', T, hjump', -, -, hiff⟩ := drained_behind_iff hs hp hj hv hm
  rw [← hid] at hjump
  cases hjump.symm.trans hjump'
  refine ⟨s, t, u, record, stop, body, p, q, m, j, hs, hp, hj, hv, hm, hjump, htaken, of_decide_eq_true hd, ?_⟩
  exact hiff.mpr fun ht => by cases htaken.symm.trans ht

end Session

namespace Builder

/-- Two conditional jumps back to code that is translated after them; between the two, a variable is spilled. -/
def lateJumpBack : List Call :=
  let a : VarRef := ⟨⟨0⟩, 8⟩
  let v : VarRef := ⟨⟨1⟩, 8⟩
  let w : VarRef := ⟨⟨2⟩, 8⟩
  [.newFunction [.gpq] [.gpq] {}, .newVar .gpq, .newVar .gpq, .newLabel, .newLabel,
    .emit .mov [.var v, .imm 5], .jump .jmp ⟨3⟩ .none,
    .bind ⟨2⟩, .emit .add [.var a, .var v], .ret [.var a],
    .bind ⟨3⟩, .emit .dec [.var a], .jump (.jcc .ne) ⟨2⟩ .none, .hint v .spill none,
    .emit .mov [.var w, .imm 7], .emit .dec [.var a], .jump (.jcc .ne) ⟨2⟩ .none,
    .emit .add [.var a, .var w], .ret [.var a], .endFunction]

end Builder

namespace Session

/-- Late reconciliation disturbs code that is translated: what reconciles the second jump back stands in front of it, where
control comes by that falls through. -/
theorem fallThrough_disturbed : ∃ s t u record stop body, ∃ p : Prototype, ∃ q m j,
    s.Ready ⟨0⟩ record stop body ∧ Build.prepareFunction ⟨0⟩ record stop p s = .ok () t ∧ s.Closed body ∧
    t.Visits record.item ⟨.drain [q], u⟩ ∧ Moment.Advances ⟨.drain [q], u⟩ m ∧ u.jump? q.jump = some j ∧
    j.opcode ≠ .jmp ∧ u.items.size < m.session.items.size ∧ m.session.items.prev? q.jump = some ⟨u.items.size⟩ ∧
    ¬ u.items.GrowsBehind record.item stop m.session.items := by
  obtain ⟨⟨⟨s, record, stop, p, t⟩, ⟨task, u⟩⟩, hq, hd⟩ := Option.any_eq_true _ _ |>.mp
    (show (Builder.momentAfter 22 Builder.lateJumpBack).any (fun (q, m) =>
      m.task.left.map ForwardJump.jump = [⟨14⟩] ∧ ((m.session.jump? ⟨14⟩).any fun j => j.opcode ≠ .jmp) ∧
      (m.advance?.any fun m' => m.session.items.size < m'.session.items.size ∧
        m'.session.items.prev? ⟨14⟩ = some ⟨m.session.items.size⟩ ∧
        m'.session.items.range q.record.item q.stop ≠ m.session.items.range q.record.item q.stop)) = true by decide +kernel)
  obtain ⟨hp, hv, body, hs, hj⟩ := Builder.momentAfter_ok hq
  obtain ⟨hleft, hjump, hstep⟩ := of_decide_eq_true hd
  obtain ⟨q, rfl, hid⟩ := Task.left_eq_singleton hleft
  obtain ⟨j, hjump, hd⟩ := Option.any_eq_true _ _ |>.mp hjump
  obtain ⟨m, hstep, hd'⟩ := Option.any_eq_true _ _ |>.mp hstep
  obtain ⟨hsize, hprev, hrange⟩ := of_decide_eq_true hd'
  rw [← hid] at hjump hprev
  exact ⟨s, t, u, record, stop, body, p, q, m, j, hs, hp, hj, hv, Moment.advances_iff.mpr hstep, hjump,
    of_decide_eq_true hd, hsize, hprev, fun h => hrange h.same⟩

end Session

end Codegen
