import Codegen.Proofs.Contour
import Codegen.Proofs.Coverage
import Codegen.Proofs.Succession

/-! The translation of a function comes to an end. Every step of the walk finishes an item, takes up the code behind a
followed jump, or arrives at a target that is translated; and at the end nothing is left to do. -/
namespace Codegen
open List Build Option
variable {record : FunctionRecord} {start stop : ItemId} {body : List ItemId}
variable {m : Moment} {next : Option ItemId} {t u u' : Session}

namespace Build

theorem forM_cons_error {g : α → EStateM Error σ Unit} {a : α} {l : List α} {s s' : σ} :
    (a :: l).forM g s = .error e s' ↔ g a s = .error e s' ∨ ∃ t, g a s = .ok () t ∧ l.forM g t = .error e s' := by
  refine bind_error.trans (or_congr_right ?_)
  exact ⟨fun ⟨_, t, h⟩ => ⟨t, h⟩, fun ⟨t, h⟩ => ⟨(), t, h⟩⟩

theorem modifyContext_error : ¬ modifyContext g s = .error e s' := nofun

theorem modifyStats_error : ¬ modifyStats g s = .error e s' := nofun

theorem setCursor_error : ¬ setCursor c s = .error e s' := nofun

end Build

namespace Session
variable {id : ItemId}

theorem done_iff : u.Done x ↔ u.isTranslated x = true := by
  simp [Done, isTranslated, Option.any_eq_true]

/-- How many of some items are not translated. -/
def undone (u : Session) (L : List ItemId) : Nat := L.countP fun x => !u.isTranslated x

theorem undone_le (h : ∀ x ∈ L, u.Done x → u'.Done x) : u'.undone L ≤ u.undone L := by
  refine countP_mono_left fun x hx hn => ?_
  simp only [done_iff] at h
  by_contra htr
  simp [h x hx (by simpa using htr)] at hn

theorem undone_lt (h : ∀ x ∈ L, u.Done x → u'.Done x) (hid : id ∈ L) (hd : ¬ u.Done id) (hd' : u'.Done id) :
    u'.undone L < u.undone L := by
  obtain ⟨A, C, rfl⟩ := append_of_mem hid
  have hA : u'.undone A ≤ u.undone A := undone_le fun x hx => h x (by simp [hx])
  have hC : u'.undone C ≤ u.undone C := undone_le fun x hx => h x (by simp [hx])
  rw [done_iff] at hd hd'
  simp only [undone, countP_append, countP_cons, hd', hd] at hA hC ⊢
  simp only [Bool.not_true, Bool.not_false, if_true, Bool.false_eq_true, if_false]
  omega

end Session

open Session Relation

namespace Moment

/-- The step that comes next fails. -/
inductive Fails : Moment → Error → Session → Prop
  | item {u u' : Session} {id : ItemId} {e : Error} (h : translateItem id u = .error e u') :
    Fails ⟨.walk (some id), u⟩ e u'
  | resume {u u' : Session} {jump : ItemId} {e : Error} (hj : u.ctx.backwardCode[u.ctx.backwardPos]? = some jump)
    (h : resumeBehind jump u.resuming = .error e u') : Fails ⟨.walk none, u⟩ e u'
  | assign {u u' : Session} {q : ForwardJump} {rest : List ForwardJump} {e : Error}
    (h : assignState q.state (u.resolving q rest) = .error e u') : Fails ⟨.drain (q :: rest), u⟩ e u'
  | jump {u u' v : Session} {q : ForwardJump} {rest : List ForwardJump} {e : Error}
    (ha : assignState q.state (u.resolving q rest) = .ok () v)
    (h : doJump q.jump (v.atCursor (u.items.prev? q.jump)) = .error e u') : Fails ⟨.drain (q :: rest), u⟩ e u'

theorem Fails.not_advances (h : m.Fails e u) : ¬ m.Advances m' := fun ha => by
  cases h with
  | item h =>
    cases ha with
    | item h' => cases h ▸ h'
  | resume hj h =>
    cases ha with
    | resume hj' h' =>
      cases hj ▸ hj'
      cases h ▸ h'
    | finish hj' => cases hj ▸ hj'
  | assign h =>
    cases ha with
    | reconcile h' => cases h ▸ h'
  | jump ha' h =>
    cases ha with
    | reconcile ha h' =>
      cases ha' ▸ ha
      cases h ▸ h'

variable {id : ItemId}

/-- What is left for the walk to do. -/
def work (L : List ItemId) (next : Option ItemId) (u : Session) : Nat :=
  3 * u.undone L + 2 * (u.ctx.backwardCode.size - u.ctx.backwardPos) + if next.isSome then 1 else 0

theorem work_passage (hid : id ∈ L) (hp : u.Passage id next u') : work L next u' < work L (some id) u := by
  have hundone : ∀ {item : Item}, u.items.get? id = some item → item.translated = false → ¬ u.Done id :=
    fun hi htr ⟨item', hi', htr'⟩ => by
      cases hi ▸ hi'
      cases htr ▸ htr'
  have hone : (if next.isSome then 1 else 0) ≤ 1 := by split <;> omega
  unfold work
  cases hp with
  | onward hi htr h hd' | close hi htr _ h hd' =>
    have := undone_lt (fun _ _ => h.done) hid (hundone hi htr) hd'
    rw [h.followed, h.position]
    omega
  | @follow v item titem j T hi htr hk ho hl hT htt hlink h hd' =>
    have : v.undone L < u.undone L := undone_lt (fun _ _ => h.done) hid (hundone hi htr) hd'
    have hsame : ({ v with ctx := { v.ctx with backwardCode := v.ctx.backwardCode.push id } } : Session).undone L =
      v.undone L := rfl
    rw [hsame]
    simp only [Array.size_push, h.followed, h.position, isSome_some, if_true]
    omega
  | again hi htr hk h =>
    have := undone_le (L := L) fun _ _ => h.done
    rw [h.followed, h.position]
    simp only [isSome_some, isSome_none, if_true]
    simp only [Bool.false_eq_true, if_false]
    omega
  | clear hd hu hc =>
    have := undone_lt (fun _ _ hx => hc.done.mpr (.inl hx)) hid hd (hc.done.mpr (.inr rfl))
    rw [hc.ctx.1, hc.ctx.2.1]
    omega

theorem work_resume {jump : ItemId} (hj : u.ctx.backwardCode[u.ctx.backwardPos]? = some jump)
    (hr : resumeBehind jump u.resuming = .ok next u') : work L next u' < work L none u := by
  obtain ⟨rfl, -⟩ := resumeBehind_ok hr
  have hlt := (Array.getElem?_eq_some_iff.mp hj).1
  have hone : (if next.isSome then 1 else 0) ≤ 1 := by split <;> omega
  have hsame : u.resuming.undone L = u.undone L := rfl
  unfold work
  rw [hsame]
  simp only [resuming, isSome_none, Bool.false_eq_true, if_false]
  omega

end Moment

open Moment
variable (hl : t.activated.Launch f record stop body) (ht : t.activated.Sequence record.item stop body)

namespace Build

include hl in
theorem translateFrom_fails {fuel : Nat} (hv : t.Visits record.item ⟨.walk next, u⟩)
    (hw : work (record.item :: (body ++ [stop])) next u < fuel) (h : translateFrom fuel next u = .error e u') :
    ∃ m, t.Visits record.item m ∧ m.Fails e u' := by
  induction fuel generalizing next u with
  | zero => exact absurd hw (Nat.not_lt_zero _)
  | succ fuel ih =>
    cases next with
    | some id =>
      simp only [translateFrom, bind_error] at h
      obtain h | ⟨next, u1, h1, h⟩ := h
      · exact ⟨_, hv, .item h⟩
      have hpass := translateItem_passage h1
      have hless := work_passage ((hv.sound hl).mem_of_item h1) hpass
      exact ih (hv.tail (.item h1)) (hless.trans_le (Nat.lt_succ_iff.mp hw)) h
    | none =>
      simp only [translateFrom, bind_error, get_error, false_or] at h
      obtain ⟨_, _, ⟨⟩, h⟩ := h
      cases hj : u.ctx.backwardCode[u.ctx.backwardPos]? with
      | none =>
        simp only [hj] at h
        exact absurd h pure_error
      | some jump =>
        simp only [hj, bind_error, modifyContext_error, false_or] at h
        obtain ⟨_, _, ⟨⟩, h | ⟨next, u1, h1, h⟩⟩ := h
        · exact ⟨_, hv, .resume hj h⟩
        · have hless := work_resume (L := record.item :: (body ++ [stop])) hj h1
          exact ih (hv.tail (.resume hj h1)) (hless.trans_le (Nat.lt_succ_iff.mp hw)) h

theorem reconcileForward_fails (h : reconcileForward rest u = .error e u') :
    ∃ m, ReflTransGen Advances ⟨.drain rest, u⟩ m ∧ m.Fails e u' := by
  induction rest generalizing u with
  | nil => exact absurd h pure_error
  | cons q rest ih =>
    simp only [reconcileForward, bind_error, modifyContext_error, get_error, setCursor_error, modifyStats_error, false_or] at h
    obtain ⟨_, _, ⟨⟩, _, _, ⟨⟩, _, _, ⟨⟩, ha | ⟨_, v, ha, _, _, ⟨⟩, hd | ⟨_, w, hd, _, _, ⟨⟩, h⟩⟩⟩ := h
    · exact ⟨_, .refl, .assign ha⟩
    · exact ⟨_, .refl, .jump ha hd⟩
    · obtain ⟨m, hm, hf⟩ := ih h
      exact ⟨m, .head (.reconcile ha hd) hm, hf⟩

end Build

namespace Session

theorem Sequence.work_lt (ht : t.activated.Sequence record.item stop body) :
    work (record.item :: (body ++ [stop])) (some record.item) t.activated < 3 * t.items.size + 3 := by
  have hsub := (ht.infix_order infix_rfl).sublist
  have hlen : (record.item :: (body ++ [stop])).length ≤ t.items.size := by
    have hn : ((record.item :: (body ++ [stop])).map ItemId.index).Nodup :=
      (ht.blocks.nodup.sublist hsub).map fun a b hab => by cases a; cases b; simpa using hab
    have hmem : (record.item :: (body ++ [stop])).map ItemId.index ⊆ range t.items.size := fun i hi => by
      obtain ⟨x, hx, rfl⟩ := mem_map.mp hi
      exact mem_range.mpr (ht.made hx)
    simpa using (hn.subperm hmem).length_le
  have hundone : t.activated.undone (record.item :: (body ++ [stop])) ≤ _ := countP_le_length
  simp only [work, ht.unfollowed.1, Array.size_empty, isSome_some, if_true]
  omega

end Session

include hl ht in
theorem Build.translateAll_fails (h : translateAll record.item t = .error e t') :
    ∃ m, t.Visits record.item m ∧ m.Fails e t' := by
  simp only [translateAll, bind_error, modifyContext_error, get_error, false_or, or_false, and_false, exists_false] at h
  obtain ⟨_, _, ⟨⟩, _, _, ⟨⟩, h | ⟨_, v, hv, _, _, ⟨⟩, h⟩⟩ := h
  · exact translateFrom_fails hl .refl ht.work_lt h
  · obtain ⟨m, hm, hf⟩ := reconcileForward_fails h
    exact ⟨m, (translateFrom_advances hv).trans hm, hf⟩

namespace Session

theorem done_of_run (hr : ReflTransGen Advances m m') (hx : m.session.Done x) : m'.session.Done x := by
  induction hr with
  | refl => exact hx
  | tail _ ha ih => exact ha.proceeds.done ih

include hl ht in
theorem Visits.exists_first (hv : t.Visits record.item m) (hx : x ∈ body) (hd : m.session.Done x) :
    ∃ u, t.Visits record.item ⟨.walk (some x), u⟩ ∧ ¬ u.Done x := by
  induction hv with
  | refl => exact absurd hd (ht.undone x hx)
  | @tail m1 m2 hv ha ih =>
    have hin := Visits.inTurn hv hl ht
    by_cases hd1 : m1.session.Done x
    · exact ih hd1
    have hlt := hin.lt_size (show x ∈ record.item :: (body ++ [stop]) by simp [hx])
    have htask := (ha.proceeds.undone hlt hd).resolve_left hd1
    obtain ⟨task, u1⟩ := m1
    cases htask
    exact ⟨u1, hv, hd1⟩

theorem done_after (hr : translateItem x u = .ok next u') (h : ReflTransGen Advances ⟨.walk next, u'⟩ m) :
    m.session.Done x :=
  done_of_run h (translateItem_passage hr).done_self

include hl ht in
theorem Visits.linked_or_drops (hv : t.Visits record.item m) (hd : m.session.Done x)
    (hmem : x ∈ record.item :: (body ++ [stop])) : x ∈ m.session.items.order ∨ t.Drops record.item x := by
  by_cases hin : (t.activated.roleAt x).stays = true
  · by_contra hno
    have hno := not_or.mp hno
    have hlink : x ∈ t.items.order := (ht.infix_order infix_rfl).subset hmem
    exact hno.1 ((hv.lays.edits ht.blocks.toLinear).linked x hlink fun h => hno.2 (h hin))
  · exact .inl ((hv.inTurn hl ht).kept hmem (by simpa using hin) hd)

end Session

theorem Build.doJump_forwardJumps {id : ItemId} (h : doJump id s = .ok () s') :
    s'.ctx.forwardJumps = s.ctx.forwardJumps := by
  obtain ⟨j, target, st, v, -, -, -, hr, hcase⟩ := doJump_ok h
  have hext := restoreState_extending _ _ _ hr
  have hv : v.ctx.forwardJumps = s.ctx.forwardJumps := by
    rw [hext.ctx]
    unfold reconciling
    split <;> rfl
  rcases hcase with ⟨-, rfl⟩ | ⟨-, extra, own, -, -, ha⟩
  · exact hv
  have hext' := assignState_extending _ _ _ ha
  rw [hext'.ctx]
  refine Eq.trans ?_ hv
  unfold detour
  split <;> rfl

namespace Moment

/-- Once only jumps are left, no followed jump is, and the jumps that are left are in the queue. -/
def Queued : Moment → Prop
  | ⟨.walk _, _⟩ => True
  | ⟨.drain rest, u⟩ => u.ctx.backwardPos = u.ctx.backwardCode.size ∧ u.ctx.forwardJumps = rest

theorem Queued.advance (h : m.Queued) (hc : m.Covered t record body) (ha : m.Advances m') : m'.Queued := by
  cases ha with
  | item hr | resume hj hr => trivial
  | finish hj =>
    refine ⟨le_antisymm ?_ (Array.getElem?_eq_none_iff.mp hj), rfl⟩
    exact hc.position
  | @reconcile u v w q rest ha hd =>
    have hadds : u.Adds (fun _ => False) False w.resolved := reconcile_adds ha hd
    refine ⟨by rw [hadds.position, hadds.followed]; exact h.1, ?_⟩
    have hw : w.ctx.forwardJumps = (v.atCursor (u.items.prev? q.jump)).ctx.forwardJumps := doJump_forwardJumps hd
    exact hw.trans (congrArg Context.forwardJumps (assignState_extending _ _ _ ha).ctx :)

end Moment

namespace Session

include hl ht in
theorem Visits.queued (hv : t.Visits record.item m) : m.Queued := by
  induction hv with
  | refl => trivial
  | tail hv ha ih => exact ih.advance (Visits.covered hv hl ht.blocks.inactive ht.position) ha

/-- The translation of the items from `start` to `stop` is over, and nothing is left to do. -/
structure Completed (t : Session) (start stop : ItemId) (body : List ItemId) (t' : Session) : Prop where
  /-- Every item that stands in the function is translated. -/
  covered : ∀ x, [start, x].Sublist t'.items.order → [x, stop].Sublist t'.items.order → t'.isTranslated x = true
  /-- Each item of the program that is left was come to exactly once when it was not translated. -/
  once : ∀ x ∈ body, x ∈ t'.items.order → ∃! u, t.Visits start ⟨.walk (some x), u⟩ ∧ u.isTranslated x = false
  /-- An item that was come to is left, unless it is a target that was taken out then. -/
  kept : ∀ x u, t.Visits start ⟨.walk (some x), u⟩ → x ∈ t'.items.order ∨ t.Drops start x
  /-- The code behind each followed jump was taken up. -/
  resumed : t'.ctx.backwardPos = t'.ctx.backwardCode.size
  /-- Each jump that was left is reconciled. -/
  drained : t'.ctx.forwardJumps = []

include hl ht in
/-- When the translation has got to its end, nothing is left to do. -/
theorem Visits.completed (hv : t.Visits record.item ⟨.drain [], u⟩) :
    t.Completed record.item stop body { u with ctx := { u.ctx with active := false } } := by
  have hmid := (hv.sound hl).midway
  obtain ⟨hresumed, hdrained⟩ := hv.queued hl ht
  refine ⟨fun x hsx hxs => done_iff.mp ?_, fun x hx hlink => ?_, fun x v hx => ?_, hresumed, hdrained⟩
  · obtain ⟨extra, -, hs⟩ := hmid.spans
    obtain ⟨A, B, C, ho, hB, -⟩ := hs.order
    have hn := hs.nodup
    have hlink : x ∈ u.items.order := hsx.subset (by simp)
    rw [ho] at hn hsx hxs
    rcases hB x ((ItemSeq.mem_between hn).mpr ⟨hsx, hxs⟩) with hx | hnew
    · exact hv.done hl ht.blocks.inactive ht.position hx hlink
    · obtain ⟨item, hi⟩ := ItemSeq.get?_of_lt_size (hs.made x hlink)
      exact ⟨item, hi, (hmid.generated hnew hi).1⟩
  · obtain ⟨v, hv', hd⟩ := hv.exists_first hl ht hx (hv.done hl ht.blocks.inactive ht.position hx hlink)
    refine ⟨v, ⟨hv', by simpa [done_iff] using hd⟩, fun w hw => ?_⟩
    exact hv'.first_unique hw.1 hd (by simpa [done_iff] using hw.2) fun _ _ => done_after
  · rcases (hx.reaches hv).cases_head with h | ⟨m', ha, hrun⟩
    · cases h
    cases ha with
    | item hr =>
      have hd := done_after hr hrun
      exact hv.linked_or_drops hl ht hd ((hx.sound hl).mem_of_item hr)

/-- The steps of a translation come to an end, whatever the control flow. The translation of a function fails only where
one of them does, and if none does, then every item of the function that is left was translated once. -/
theorem translation_completes (hs : s.Ready f record stop body)
    (hp : Build.prepareFunction f record stop p s = .ok () t)
    (hj : s.Closed body) (hb : s.Labelled) :
    (∃ m, t.Visits record.item m ∧ ∀ m', ¬ m.Advances m') ∧
    (∀ e t', Build.translateAll record.item t = .error e t' → ∃ m, t.Visits record.item m ∧ m.Fails e t') ∧
    ∀ t', Build.translateAll record.item t = .ok () t' → t.Completed record.item stop body t' := by
  have hl := hs.launch hp hj
  have ht := hs.sequence hp hb
  refine ⟨?_, fun e t' h => Build.translateAll_fails hl ht h, fun t' h => ?_⟩
  · cases h : Build.translateAll record.item t with
    | ok _ t' =>
      obtain ⟨u, hv, -⟩ := Build.translateAll_visits h
      exact ⟨_, hv, fun m' ha => by cases ha⟩
    | error e t' =>
      obtain ⟨m, hv, hf⟩ := Build.translateAll_fails hl ht h
      exact ⟨m, hv, fun _ => hf.not_advances⟩
  · obtain ⟨u, hv, rfl⟩ := Build.translateAll_visits h
    exact hv.completed hl ht

end Session

namespace Builder

theorem momentAfter_labelled (h : momentAfter n calls = some (q, m)) : q.before.Labelled := by
  obtain ⟨q, hq, h⟩ := bind_eq_some_iff.mp h
  obtain ⟨-, h⟩ := ite_none_right_eq_some.mp h
  obtain ⟨m, _, hqm⟩ := map_eq_some_iff.mp h
  cases hqm
  obtain ⟨hb, hc⟩ := program_contoured (prepareFirst_program hq).1
  exact hc.labelled hb

/-- A jump that is followed past dead code and past the target of a jump that is left. -/
def crossedJumps : List Call :=
  let a : VarRef := ⟨⟨0⟩, 8⟩
  [.newFunction [.gpq] [.gpq] {}, .newLabel, .newLabel, .newLabel,
    .emit .cmp [.var a, .imm 0], .jump (.jcc .e) ⟨3⟩ .none, .jump .jmp ⟨2⟩ .none,
    .bind ⟨4⟩, .emit .inc [.var a], .bind ⟨3⟩, .emit .dec [.var a], .bind ⟨2⟩, .ret [.var a], .endFunction]

end Builder

/-- The dead code between a followed jump and its target is taken out, and all else is translated. -/
theorem Session.translation_completes_crossed : ∃ s t t' record stop body, ∃ p : Prototype,
    s.Ready ⟨0⟩ record stop body ∧ Build.prepareFunction ⟨0⟩ record stop p s = .ok () t ∧ s.Closed body ∧ s.Labelled ∧
    Build.translateAll record.item t = .ok () t' ∧ ⟨5⟩ ∈ body ∧ ⟨5⟩ ∉ t'.items.order ∧ t'.ctx.backwardCode.size = 1 ∧
    t.Completed record.item stop body t' := by
  obtain ⟨⟨⟨s, record, stop, p, t⟩, m⟩, hq, hd⟩ := Option.any_eq_true _ _ |>.mp
    (show (Builder.momentAfter 0 Builder.crossedJumps).any (fun q =>
      ⟨5⟩ ∈ (q.1.before.items.range q.1.record.item q.1.stop).tail.dropLast ∧
      (Builder.translated? q.1).any fun t' => ⟨5⟩ ∉ t'.items.order ∧ t'.ctx.backwardCode.size = 1) = true by decide +kernel)
  obtain ⟨hp, -, body, hs, hj⟩ := Builder.momentAfter_ok hq
  have hb := Builder.momentAfter_labelled hq
  obtain ⟨hmem, hend⟩ := of_decide_eq_true hd
  obtain ⟨t', hend, hd⟩ := Option.any_eq_true _ _ |>.mp hend
  obtain ⟨hgone, hsize⟩ := of_decide_eq_true hd
  rw [hs.range_eq, List.tail_cons, List.dropLast_concat] at hmem
  have hend : Build.translateAll record.item t = .ok () t' := Builder.translated?_ok (q := ⟨s, record, stop, p, t⟩) hend
  exact ⟨s, t, t', record, stop, body, p, hs, hp, hj, hb, hend, hmem, hgone, hsize,
    (translation_completes hs hp hj hb).2.2 t' hend⟩

end Codegen
