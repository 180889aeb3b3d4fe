import Codegen.Proofs.ItemStep

/-! The translation of a function, one step after the other: an item is translated, the code behind a followed jump is
taken up, or a jump that was left is reconciled. What is known between two steps is kept by each of them. -/
namespace Codegen
open List Build Option
variable {record : FunctionRecord} {start stop : ItemId} {rest : List ForwardJump}
variable {body : List ItemId} {m : Moment} {next : Option ItemId} {t : Session}

/-- What the translation does next: go on with an item, or reconcile the jumps that were left. -/
inductive Task where
  | walk (next : Option ItemId)
  | drain (rest : List ForwardJump)
  deriving DecidableEq

/-- A point between two steps of the translation. -/
structure Moment where
  task : Task
  session : Session
  deriving DecidableEq

namespace Session

/-- The code behind the next followed jump is taken up; nothing is known to lead there. -/
def resuming (s : Session) : Session :=
  { s with ctx := { s.ctx with backwardPos := s.ctx.backwardPos + 1, unreachable := true } }

/-- A jump that was left is taken from the queue. -/
def resolving (s : Session) (q : ForwardJump) (rest : List ForwardJump) : Session :=
  { s with ctx := { s.ctx with forwardJumps := rest, currentOffset := (s.items.offset? q.jump).getD 0 } }

def resolved (s : Session) : Session :=
  { s with stats := { s.stats with forwardJumpsResolved := s.stats.forwardJumpsResolved + 1 } }

end Session

namespace Moment

/-- The steps of the translation. -/
inductive Advances : Moment → Moment → Prop
  | item {u u' : Session} {id : ItemId} {next : Option ItemId} (h : translateItem id u = .ok next u') :
    Advances ⟨.walk (some id), u⟩ ⟨.walk next, u'⟩
  | resume {u u' : Session} {jump : ItemId} {next : Option ItemId}
    (hj : u.ctx.backwardCode[u.ctx.backwardPos]? = some jump) (h : resumeBehind jump u.resuming = .ok next u') :
    Advances ⟨.walk none, u⟩ ⟨.walk next, u'⟩
  | finish {u : Session} (hj : u.ctx.backwardCode[u.ctx.backwardPos]? = none) :
    Advances ⟨.walk none, u⟩ ⟨.drain u.ctx.forwardJumps, u⟩
  | reconcile {u v w : Session} {q : ForwardJump} {rest : List ForwardJump}
    (ha : assignState q.state (u.resolving q rest) = .ok () v)
    (hd : doJump q.jump (v.atCursor (u.items.prev? q.jump)) = .ok () w) :
    Advances ⟨.drain (q :: rest), u⟩ ⟨.drain rest, w.resolved⟩

/-- The next moment, unless the translation is over or fails. -/
def advance? : Moment → Option Moment
  | ⟨.walk (some id), u⟩ =>
    match translateItem id u with
    | .ok next u' => some ⟨.walk next, u'⟩
    | .error _ _ => none
  | ⟨.walk none, u⟩ =>
    match u.ctx.backwardCode[u.ctx.backwardPos]? with
    | none => some ⟨.drain u.ctx.forwardJumps, u⟩
    | some jump =>
      match resumeBehind jump u.resuming with
      | .ok next u' => some ⟨.walk next, u'⟩
      | .error _ _ => none
  | ⟨.drain (q :: rest), u⟩ =>
    match assignState q.state (u.resolving q rest) with
    | .ok _ v =>
      match doJump q.jump (v.atCursor (u.items.prev? q.jump)) with
      | .ok _ w => some ⟨.drain rest, w.resolved⟩
      | .error _ _ => none
    | .error _ _ => none
  | ⟨.drain [], _⟩ => none

theorem advances_iff : m.Advances m' ↔ m.advance? = some m' := by
  constructor
  · rintro (h | ⟨hj, h⟩ | hj | ⟨ha, hd⟩)
    · simp only [advance?, h]
    · simp only [advance?, hj, h]
    · simp only [advance?, hj]
    · simp only [advance?, ha, hd]
  intro h
  unfold advance? at h
  split at h
  · split at h
    · rename_i hr
      cases h
      exact .item hr
    · cases h
  · split at h
    · rename_i hj
      cases h
      exact .finish hj
    rename_i hj
    split at h
    · rename_i hr
      cases h
      exact .resume hj hr
    · cases h
  · split at h
    · rename_i ha
      split at h
      · rename_i hd
        cases h
        exact .reconcile ha hd
      · cases h
    · cases h
  · cases h

theorem Advances.rightUnique : Relator.RightUnique Advances := fun _ _ _ hb hc =>
  some.inj (advances_iff.mp hb ▸ advances_iff.mp hc)

/-- The moment some steps later. -/
def after : Nat → Moment → Option Moment
  | 0, m => some m
  | n + 1, m => m.advance?.bind (after n)

theorem reaches_after (h : m.after n = some m') : Relation.ReflTransGen Advances m m' := by
  induction n generalizing m with
  | zero =>
    cases h
    exact .refl
  | succ n ih =>
    obtain ⟨m1, h1, h⟩ := bind_eq_some_iff.mp h
    exact .head (advances_iff.mpr h1) (ih h)

end Moment

open Moment Relation

namespace Build

theorem translateFrom_advances (h : translateFrom fuel next u = .ok () u') :
    ReflTransGen Advances ⟨.walk next, u⟩ ⟨.drain u'.ctx.forwardJumps, u'⟩ := by
  induction fuel generalizing next u with
  | zero => exact (throw_ok.mp h).elim
  | succ fuel ih =>
    cases next with
    | some id =>
      simp only [translateFrom, bind_ok] at h
      obtain ⟨next, u1, h1, h⟩ := h
      exact .head (.item h1) (ih h)
    | none =>
      simp only [translateFrom, bind_ok] at h
      obtain ⟨_, _, ⟨⟩, h⟩ := h
      cases hj : u.ctx.backwardCode[u.ctx.backwardPos]? with
      | none =>
        simp only [hj] at h
        cases h
        exact .single (.finish hj)
      | some jump =>
        simp only [hj, bind_ok] at h
        obtain ⟨_, _, ⟨⟩, next, u1, h1, h⟩ := h
        exact .head (.resume hj h1) (ih h)

theorem reconcileForward_advances (h : reconcileForward rest u = .ok () u') :
    ReflTransGen Advances ⟨.drain rest, u⟩ ⟨.drain [], u'⟩ := by
  induction rest generalizing u with
  | nil =>
    cases h
    exact .refl
  | cons q rest ih =>
    simp only [reconcileForward, bind_ok] at h
    obtain ⟨_, _, ⟨⟩, _, _, ⟨⟩, _, _, ⟨⟩, _, v, ha, _, _, ⟨⟩, _, w, hd, _, _, ⟨⟩, h⟩ := h
    exact .head (.reconcile ha hd) (ih h)

end Build

/-- The translation of a prepared function comes through the moment. -/
def Session.Visits (t : Session) (start : ItemId) (m : Moment) : Prop :=
  ReflTransGen Advances ⟨.walk (some start), t.activated⟩ m

theorem Build.translateAll_visits (h : translateAll start t = .ok () t') :
    ∃ u, t.Visits start ⟨.drain [], u⟩ ∧ t' = { u with ctx := { u.ctx with active := false } } := by
  simp only [translateAll, bind_ok, modifyContext_ok] at h
  obtain ⟨_, _, rfl, _, _, ⟨⟩, _, v, hv, _, _, ⟨⟩, _, u, hu, rfl⟩ := h
  exact ⟨u, (translateFrom_advances hv).trans (reconcileForward_advances hu), rfl⟩

theorem Session.Visits.reaches (h : t.Visits start m)
    (hu : t.Visits start ⟨.drain [], u⟩) : ReflTransGen Advances m ⟨.drain [], u⟩ := by
  rcases ReflTransGen.total_of_right_unique Advances.rightUnique h hu with hm | hm
  · exact hm
  rcases hm.cases_head with rfl | ⟨_, hstep, -⟩
  · exact .refl
  · cases hstep

/-- The walk comes to an item only once with what any later visit of the item finds established. -/
theorem Session.Visits.first_unique {P : Session → Prop} (hv : t.Visits start ⟨.walk (some x), u⟩)
    (hv1 : t.Visits start ⟨.walk (some x), u1⟩) (hu : ¬ P u) (hu1 : ¬ P u1)
    (hlater : ∀ {a next a' b}, t.Visits start ⟨.walk (some x), a⟩ → ¬ P a → translateItem x a = .ok next a' →
      ReflTransGen Advances ⟨.walk next, a'⟩ ⟨.walk (some x), b⟩ → P b) : u1 = u := by
  have key : ∀ {a b : Session}, t.Visits start ⟨.walk (some x), a⟩ → ¬ P a → ¬ P b →
      ReflTransGen Advances ⟨.walk (some x), a⟩ ⟨.walk (some x), b⟩ → b = a := by
    intro a b ha hna hnb h
    rcases h.cases_head with h | ⟨m1, h1, h⟩
    · cases h
      rfl
    cases h1 with
    | item hr => exact absurd (hlater ha hna hr h) hnb
  rcases ReflTransGen.total_of_right_unique Advances.rightUnique hv hv1 with h | h
  · exact key hv hu hu1 h
  · exact (key hv1 hu1 hu h).symm

namespace Session

/-- The jumps among some items stay among them. -/
def Closed (s : Session) (body : List ItemId) : Prop := ∀ x ∈ body, ∀ target, s.JumpsTo x target → target ∈ body

instance (s : Session) (body : List ItemId) : Decidable (s.Closed body) :=
  decidable_of_iff (∀ x ∈ body, ∀ target ∈ s.labels.toList, s.JumpsTo x target → target ∈ body)
    ⟨fun h x hx target ht => h x hx target (by
        obtain ⟨_, j, -, -, hl⟩ := ht
        exact Array.mem_toList_iff.mpr (Array.mem_of_getElem? hl)) ht,
      fun h x hx target _ => h x hx target⟩

/-- What is known of a prepared function whose jumps stay inside it. -/
structure Launch (t : Session) (f : FunctionId) (record : FunctionRecord) (stop : ItemId) (body : List ItemId) : Prop
    extends t.Outline f record.item stop body where
  midway : t.Midway f record.item stop body (fun _ => False) t
  opens : ∃ item, t.items.get? record.item = some item ∧ item.kind = .function f ∧ item.translated = false
  known : t.functions[f.index]? = some record
  idle : t.Idle f
  passes : t.Passes f record.args

namespace Ready

section
variable (h : s.Ready f record stop body) (hp : prepareFunction f record stop p s = .ok () t)
include h hp

theorem prepared_inside (hx : x ∈ body) : ∃ (kind : ItemKind) (item : Item), s.items.get? x = some { kind } ∧
      t.items.get? x = some item ∧ item.translated = false ∧ kind.PreparedAs item.kind ∧ kind.Inside f ∧
      ∀ v ∈ kind.vars, t.Owns f v := by
  have hw := h.walked hp
  obtain ⟨kind, hi, hin, hvars⟩ := h.inside x hx
  obtain ⟨kind', o, hprep, hi', -⟩ := hw.done (by simp [hx]) hi
  refine ⟨kind, _, hi, hi', rfl, hprep, hin, fun v hv => ?_⟩
  obtain ⟨y, hy, hf⟩ := map_eq_some_iff.mp (hvars v hv)
  obtain ⟨y', hy', hf', -⟩ := hw.vars hy
  exact ⟨_, holdings_vars_of_get? hy' (hf'.trans hf)⟩

theorem jumpsTo_iff (hx : x ∈ body) : t.JumpsTo x target ↔ s.JumpsTo x target := by
  obtain ⟨kind, item, hi, hit, -, hk, -⟩ := h.prepared_inside hp hx
  have hjump : ∀ l, (∃ j, item.kind = .jump j ∧ j.target = l) ↔ ∃ j, kind = .jump j ∧ j.target = l := by
    intro l
    cases kind with
    | jump j0 =>
      obtain ⟨taken, hk⟩ := hk
      simp [hk]
    | instruction i =>
      obtain ⟨_, _, -, hk⟩ := hk
      simp [hk]
    | _ => simp [show item.kind = _ from hk]
  have hl := (h.walked hp).labelsEq
  constructor
  · rintro ⟨item', j, hi', hkj, hlt⟩
    cases hit ▸ hi'
    obtain ⟨j', hk', hj'⟩ := (hjump j.target).mp ⟨j, hkj, rfl⟩
    exact ⟨_, j', hi, hk', by rw [hj']; exact hl ▸ hlt⟩
  · rintro ⟨item', j, hi', hkj, hlt⟩
    cases hi ▸ hi'
    obtain ⟨j', hk', hj'⟩ := (hjump j.target).mpr ⟨j, hkj, rfl⟩
    exact ⟨_, j', hit, hk', by rw [hj', hl]; exact hlt⟩

theorem outline (hj : s.Closed body) : t.activated.Outline f record.item stop body where
  function := (h.walked hp).functionEq
  active := rfl
  outer := by
    have hn := h.nodup_items
    simp only [nodup_cons, mem_append, nodup_append, mem_singleton] at hn
    exact ⟨fun hx => hn.1 (.inl hx), fun hx => hn.2.2.2 _ hx _ rfl rfl⟩
  made x hx := by
    obtain ⟨A, C, ho⟩ := h.order
    have hmem : x ∈ s.items.order := by
      rw [ho]
      simp only [mem_cons, mem_append] at hx ⊢
      tauto
    exact lt_of_lt_of_eq (h.made x hmem) (h.walked hp).order.2.symm
  inside x hx := by
    obtain ⟨kind, item, -, hi, htr, hk, hin, hvars⟩ := h.prepared_inside hp hx
    exact ⟨kind, item, hi, htr, hk, hin, hvars⟩
  jumps x hx target ht := hj x hx target ((h.jumpsTo_iff hp hx).mp ht)
  owned v hv := ((h.walked hp).owned hv).resolve_left (by simp [begun])

theorem stateless (hx : x ∈ body) : t.stateAt x = none ∧ ∀ j, t.jump? x = some j → j.state = none := by
  obtain ⟨kind, item, -, hi, -, hk, hin, -⟩ := h.prepared_inside hp hx
  simp only [stateAt, jump?, hi, bind_some]
  cases kind with
  | jump j0 =>
    obtain ⟨taken, hk⟩ := hk
    rw [hk]
    exact ⟨rfl, fun j hj => some.inj hj ▸ hin⟩
  | target r =>
    rw [show item.kind = .target r from hk]
    exact ⟨hin, fun j hj => by cases hj⟩
  | instruction i =>
    obtain ⟨_, _, -, hk⟩ := hk
    rw [hk]
    exact ⟨rfl, fun j hj => by cases hj⟩
  | _ =>
    rw [show item.kind = _ from hk]
    exact ⟨rfl, fun j hj => by cases hj⟩

theorem launch (hj : s.Closed body) : t.activated.Launch f record stop body := by
  have hw := h.walked hp
  have hctx := hw.ctx
  have hout := h.outline hp hj
  obtain ⟨A, C, ho⟩ := h.order
  obtain ⟨hc, -, hidle⟩ := h.prepared hp
  have hmade : ∀ x ∈ t.items.order, x.index < t.items.size := fun x hx =>
    lt_of_lt_of_eq (h.made x (hw.order.1 ▸ hx)) hw.order.2.symm
  have hspans : t.items.Spans t.items.size body record.item stop stop := by
    refine ⟨⟨hw.order.1 ▸ h.nodup, hmade⟩, ⟨A, body, C, hw.order.1.trans ho, fun x => .inl, fun x hx hxb => ?_,
      mem_cons_self⟩, fun x hx => hout.made x (by simp [hx]), le_refl _⟩
    have hn := h.nodup
    rw [ho] at hn
    simp only [nodup_append, nodup_cons, mem_append, mem_cons] at hn hx
    rcases hx with hx | hx
    · exact hn.2.2 x hx x (.inr (.inl hxb)) rfl
    · exact hn.2.1.2.2.2 x hxb x (.inr hx) rfl
  obtain ⟨_, _, hprep, hopens, -⟩ := hw.done mem_cons_self h.opens
  cases hprep
  obtain ⟨_, _, hprep, hcloses, -⟩ := hw.done (by simp) h.closes
  cases hprep
  refine { hout with
    midway := ?_
    opens := ⟨_, hopens, rfl, rfl⟩
    known := hw.functionsEq ▸ h.function
    idle := hidle
    passes := ?_ }
  · refine ⟨.refl _, hc, ⟨stop, (congrArg Context.extraBlock hctx :), hspans⟩, fun hx hi => ?_, fun hl hi => ?_,
      fun hx hi => ⟨_, hi, rfl, ?_⟩, fun _ _ hi0 hi _ _ => ?_, ⟨_, hcloses, rfl⟩, fun hx hst => ?_, fun hx hj hst => ?_,
      fun q hq => ?_, fun x hx => ?_, .refl _, hout⟩
    · exact absurd (ItemSeq.lt_size_of_get? hi) (not_lt.mpr hx)
    · rw [Array.getElem?_eq_none hl] at hi
      cases hi
    · exact .refl _ _
    · cases hi0 ▸ hi
      rfl
    · cases (h.stateless hp hx).1 ▸ hst
    · cases ((h.stateless hp hx).2 _ hj) ▸ hst
    · rw [show t.activated.ctx.forwardJumps = [] from (congrArg Context.forwardJumps hctx :)] at hq
      cases hq
    · rw [show t.activated.ctx.backwardCode = #[] from (congrArg Context.backwardCode hctx :)] at hx
      simp at hx
  · have hpass := h.passes_prepared hp
    exact ⟨hpass.nodup, hpass.arrives, hpass.distinct, hpass.others⟩

end

end Ready

namespace Launch
open Midway

section
variable (h : t.Launch f record stop body) (hr : translateItem record.item t = .ok next u')
include h hr

theorem opening : ∃ item w v, t.items.get? record.item = some item ∧ item.translated = false ∧
      Received f (t.entering record.item item) record.args w ∧ (∀ id ∈ record.args, w.Owns f id) ∧
      record.args.forM (retireAt record.item) w = .ok () v ∧ next = v.items.next? record.item ∧
      u' = v.leaving record.item item := by
  obtain ⟨item, hi, hk, htr⟩ := h.opens
  obtain ⟨item', v, hi', -, hkind, rfl⟩ := translateItem_ok hr
  cases hi ▸ hi'
  simp only [translateKind, hk, translateFunction, bind_ok, getFunction_ok] at hkind
  obtain ⟨_, _, ⟨hfn, rfl⟩, _, w, h1, _, v, h2, _, _, ⟨⟩, ⟨⟩⟩ := hkind
  cases h.known ▸ hfn
  obtain ⟨m0, -⟩ := h.midway.entering record.item item
  have hrec : Received f (t.entering record.item item) record.args w :=
    .all m0.coherent h.idle ⟨h.passes.nodup, h.passes.arrives, h.passes.distinct, h.passes.others⟩ h1
  refine ⟨item, w, v, hi, htr, hrec, fun id hid => ?_, h2, rfl, rfl⟩
  obtain ⟨x, -, hx, hf, -⟩ := h.passes.arrives id hid
  exact hrec.moves.owns ⟨_, holdings_vars_of_get? hx hf⟩

theorem first :
    t.Midway f record.item stop body (fun _ => False) u' ∧ t.Keeps True body u' ∧ Within t stop body next := by
  obtain ⟨item, w, v, -, htr, hrec, howns, hret, rfl, rfl⟩ := h.opening hr
  obtain ⟨m0, k0⟩ := h.midway.entering record.item item
  obtain ⟨m1, k1⟩ := m0.moves hrec.moves
  obtain ⟨m2, k2⟩ := m1.moves (retireEach_moves hret howns)
  obtain ⟨m3, k3⟩ := (m2.mono fun x hx => (hx.elim : x = record.item)).leaving fun _ _ (ht : item.translated = true) => by
    cases htr ▸ ht
  refine ⟨m3, (k0.trans (k1.trans (k2.trans k3))).weaken, fun x hx => ?_⟩
  obtain ⟨extra, -, hs⟩ := m2.spans
  exact hs.next_start hx

end

end Launch

namespace Midway
variable {busy : ItemId → Prop}

theorem resume {jump : ItemId} (h : t.Midway f start stop body busy u)
    (hj : u.ctx.backwardCode[u.ctx.backwardPos]? = some jump)
    (hr : resumeBehind jump u.resuming = .ok next u') :
    t.Midway f start stop body busy u' ∧ u.Keeps True body u' ∧ Within t stop body next := by
  obtain ⟨rfl, hnext⟩ := resumeBehind_ok hr
  obtain ⟨h1, k1⟩ : t.Midway f start stop body busy u.resuming ∧ u.Keeps False body u.resuming :=
    h.quiet rfl rfl ⟨rfl, rfl, .refl _, prefix_refl _⟩ h.coherent rfl h.queued h.followed (.refl _)
  refine ⟨h1, k1.weaken, fun x hx => ?_⟩
  exact h1.within_next (h.followed jump (Array.mem_of_getElem? hj)) x (hnext x hx)

theorem resolving (h : t.Midway f start stop body busy u) (hq : ∀ x ∈ q :: rest, t.Queues f body x) :
    t.Midway f start stop body busy (u.resolving q rest) ∧ u.Keeps False body (u.resolving q rest) :=
  h.quiet rfl rfl ⟨rfl, rfl, .refl _, prefix_refl _⟩ h.coherent rfl (fun x hx => hq x (.tail _ hx)) h.followed (.refl _)

theorem resolve (cursor : Option ItemId)
    (h : t.Midway f start stop body busy u) (hq : ∀ x ∈ q :: rest, t.Queues f body x)
    (ha : assignState q.state (u.resolving q rest) = .ok () v) :
    t.Midway f start stop body busy (v.atCursor cursor) ∧ u.Keeps False body (v.atCursor cursor) ∧
      (v.atCursor cursor).snapshot f = q.state := by
  obtain ⟨h1, k1⟩ := h.resolving hq
  obtain ⟨h2, k2, hsnap⟩ := h1.adopt (hq q mem_cons_self).fits ha
  obtain ⟨h3, k3⟩ := h2.atCursor cursor
  exact ⟨h3, k1.trans (k2.trans k3), hsnap⟩

theorem resolved (h : t.Midway f start stop body busy u) :
    t.Midway f start stop body busy u.resolved ∧ u.Keeps False body u.resolved :=
  h.quiet rfl rfl ⟨rfl, rfl, .refl _, prefix_refl _⟩ h.coherent rfl h.queued h.followed (.refl _)

end Midway

end Session

namespace Moment
open Session.Midway

/-- Items are still being translated. -/
def walks (m : Moment) : Prop := ∃ next, m.task = .walk next

/-- What is known at a moment of the translation that started in `t`. -/
def Sound (t : Session) (f : FunctionId) (record : FunctionRecord) (stop : ItemId) (body : List ItemId) : Moment → Prop
  | ⟨.walk next, u⟩ => t.Midway f record.item stop body (fun _ => False) u ∧
      (Within t stop body next ∨ next = some record.item ∧ u = t)
  | ⟨.drain rest, u⟩ => t.Midway f record.item stop body (fun _ => True) u ∧
      ∀ q ∈ rest, t.Queues f body q

section
variable (h : m.Sound t f record stop body)
include h

theorem Sound.midway : t.Midway f record.item stop body (fun _ => True) m.session := by
  obtain ⟨task, u⟩ := m
  cases task with
  | walk next => exact h.1.mono fun _ hx => hx.elim
  | drain rest => exact h.1

theorem Sound.advance (hl : t.Launch f record stop body) (ha : m.Advances m') :
    m'.Sound t f record stop body ∧ m.session.Keeps m.walks body m'.session := by
  cases ha with
  | item hr =>
    obtain ⟨hmid, hin | ⟨hid, rfl⟩⟩ := h
    · obtain ⟨h', k', hn⟩ := hmid.item hin hr
      exact ⟨⟨h', .inl hn⟩, k'.mono fun _ => ⟨_, rfl⟩⟩
    cases some.inj hid
    obtain ⟨h', k', hn⟩ := hl.first hr
    exact ⟨⟨h', .inl hn⟩, k'.mono fun _ => ⟨_, rfl⟩⟩
  | resume hj hr =>
    obtain ⟨h', k', hn⟩ := h.1.resume hj hr
    exact ⟨⟨h', .inl hn⟩, k'.mono fun _ => ⟨_, rfl⟩⟩
  | finish hj => exact ⟨⟨h.midway, h.1.queued⟩, .refl _⟩
  | reconcile ha hd =>
    obtain ⟨h1, k1, -⟩ := h.1.resolve _ h.2 ha
    obtain ⟨h2, k2⟩ := h1.doJump (h.2 _ mem_cons_self).inside trivial hd
    obtain ⟨h3, k3⟩ := h2.resolved
    exact ⟨⟨h3, fun q hq => h.2 q (.tail _ hq)⟩, (k1.trans (k2.trans k3)).weaken⟩

theorem Sound.run (hl : t.Launch f record stop body)
    (hr : ReflTransGen Advances m m') : m'.Sound t f record stop body ∧ m.session.Keeps True body m'.session := by
  induction hr with
  | refl => exact ⟨h, .refl _⟩
  | tail _ ha ih =>
    obtain ⟨h', k'⟩ := ih.1.advance hl ha
    exact ⟨h', ih.2.trans (k'.mono fun _ => trivial)⟩

end

end Moment

namespace Session

theorem Visits.sound (hv : t.Visits record.item m) (hl : t.activated.Launch f record stop body) :
    m.Sound t.activated f record stop body := by
  have h : Sound t.activated f record stop body ⟨.walk (some record.item), t.activated⟩ := ⟨hl.midway, .inr ⟨rfl, rfl⟩⟩
  exact (h.run hl hv).1

end Session

namespace Builder

/-- The moment some steps after the start, in the translation of the first function of a program, if the jumps of the
function stay inside it. -/
def momentAfter (n : Nat) (calls : List Call) : Option (Prepared × Moment) := do
  let q ← prepareFirst calls
  if q.before.Closed (q.before.items.range q.record.item q.stop).tail.dropLast then
    (Moment.after n ⟨.walk (some q.record.item), q.after.activated⟩).map (q, ·)
  else none

theorem momentAfter_ok (h : momentAfter n calls = some (q, m)) :
    prepareFunction ⟨0⟩ q.record q.stop q.prototype q.before = .ok () q.after ∧
      q.after.Visits q.record.item m ∧ ∃ body, q.before.Ready ⟨0⟩ q.record q.stop body ∧ q.before.Closed body := by
  obtain ⟨q, hq, h⟩ := bind_eq_some_iff.mp h
  obtain ⟨hcl, h⟩ := ite_none_right_eq_some.mp h
  obtain ⟨m, hm, hqm⟩ := map_eq_some_iff.mp h
  cases hqm
  obtain ⟨hp, body, hs⟩ := prepareFirst_ok hq
  rw [hs.range_eq, tail_cons, dropLast_concat] at hcl
  exact ⟨hp, reaches_after hm, body, hs, hcl⟩

/-- The session at the end of the translation. -/
def translated? (q : Prepared) : Option Session :=
  match translateAll q.record.item q.after with
  | .ok _ t => some t
  | .error _ _ => none

theorem translated?_ok (h : translated? q = some t) : translateAll q.record.item q.after = .ok () t := by
  unfold translated? at h
  split at h
  · rename_i ht
    cases h
    exact ht
  · cases h

/-- A jump over code that moves a variable to memory. -/
def jumpOverSpill : List Call :=
  let a : VarRef := ⟨⟨0⟩, 8⟩
  let v : VarRef := ⟨⟨1⟩, 8⟩
  [.newFunction [.gpq] [.gpq] {}, .newVar .gpq, .newLabel,
    .emit .mov [.var v, .imm 5], .emit .dec [.var a], .jump (.jcc .ne) ⟨2⟩ .none, .hint v .spill none,
    .bind ⟨2⟩, .emit .add [.var a, .var v], .ret [.var a], .endFunction]

end Builder

end Codegen
