import Codegen.Proofs.Passage

/-! The items of a block are translated in turn. An item that no label leads to is come to from the item in front of it,
and both are in the program or neither is. -/
namespace Codegen
open List Build ItemSeq
variable {record : FunctionRecord} {stop : ItemId} {body : List ItemId}
  {t : Session}

namespace ItemSeq
variable {q : ItemSeq} {may : ItemId → Prop}

theorem not_between (h : [x, y] <:+: q.order) (hxz : [x, z].Sublist q.order) :
    ¬ [z, y].Sublist q.order := fun hzy => by
  obtain ⟨A, C, ho⟩ := h
  have ho : q.order = A ++ x :: ([] ++ y :: C) := by rw [← ho]; simp
  rw [ho] at hxz hzy
  cases (mem_between (ho ▸ q.nodup_order)).mpr ⟨hxz, hzy⟩

theorem mem_of_neighbours (h : [x, y] <:+: z :: l) : y ∈ l := by
  cases h.sublist with
  | cons _ h | cons_cons _ h => exact h.subset (by simp)

theorem Edits.eq_of_neighbours (h : q.Edits may q') (hq : q.Linear) (hxy : [x, y] <:+: q.order) (hx : x ∈ q'.order)
    (ho : q'.order = P ++ z :: y :: Q) (hz : z.index < q.size) : z = x := by
  by_contra hne
  have hold : ∀ w ∈ [x, y], w.index < q.size := fun w hw => hq.made w (hxy.subset hw)
  have hy : y ∈ q'.order := by rw [ho]; simp
  have hzy : [z, y] <:+: q'.order := ⟨P, Q, by rw [ho]; simp⟩
  rcases before_or hx (show z ∈ q'.order by rw [ho]; simp) (Ne.symm hne) with hxz | hzx
  · exact not_between hxy (h.before (hold x (by simp)) hz hxz) (h.before hz (hold y (by simp)) hzy.sublist)
  · exact not_between hzy hzx (h.before_of_mem hq hxy.sublist hx hy)

end ItemSeq

namespace Session
variable {u : Session} {start id : ItemId} {next : Option ItemId}

/-- A function stands in one piece, nothing of it is translated, and the labels are bound by their targets. -/
structure Sequence (t : Session) (start stop : ItemId) (body : List ItemId) : Prop where
  labelled : t.Labelled
  blocks : t.Blocks t.items.size stop
  order : ∃ A C, t.items.order = A ++ start :: (body ++ stop :: C)
  undone : ∀ x ∈ body, ¬ t.Done x
  unfollowed : t.ctx.backwardCode = #[] ∧ t.ctx.backwardPos = 0

namespace Sequence

theorem position (h : t.Sequence start stop body) : t.ctx.backwardPos ≤ t.ctx.backwardCode.size := by
  simp [h.unfollowed]

theorem infix_order (h : t.Sequence start stop body) (hl : l <:+: start :: (body ++ [stop])) :
    l <:+: t.items.order := by
  obtain ⟨A, C, ho⟩ := h.order
  exact hl.trans ⟨A, C, by rw [ho]; simp⟩

section
variable (h : t.Sequence start stop body) (hx : x ∈ start :: (body ++ [stop]))
include h hx

theorem made : x.index < t.items.size :=
  h.blocks.made x ((h.infix_order infix_rfl).subset hx)

theorem before_stop (hne : x ≠ stop) : [x, stop].Sublist t.items.order := by
  have hx' : x ∈ start :: body := by simpa [hne] using hx
  refine Sublist.trans ?_ (h.infix_order infix_rfl).sublist
  exact (singleton_sublist.mpr hx').append (Sublist.refl [stop])

end

end Sequence

/-- The items of a block are translated in turn, and they are in the program together. -/
structure InTurn (t : Session) (start stop : ItemId) (body : List ItemId) (next : Option ItemId) (u : Session) : Prop where
  sequence : t.Sequence start stop body
  lays : t.Lays (fun _ => True) u
  outlying : u.Outlying t.items.size stop
  together : ∀ {x y}, [x, y] <:+: start :: (body ++ [stop]) → (t.roleAt y).stays = false →
    (x ∈ u.items.order ↔ y ∈ u.items.order)
  done : ∀ {x y}, [x, y] <:+: start :: (body ++ [stop]) → (t.roleAt y).stays = false → u.Done y → u.Done x
  led : ∀ {x y}, next = some y → [x, y] <:+: start :: (body ++ [stop]) → (t.roleAt y).stays = false → u.Done x
  followed : ∀ x ∈ u.ctx.backwardCode, x ∈ start :: body ∧ u.Done x
  linked : ∀ {y}, next = some y → y ∈ u.items.order
  kept : ∀ {y}, y ∈ start :: (body ++ [stop]) → (t.roleAt y).stays = false → u.Done y → y ∈ u.items.order

namespace InTurn

section
variable (h : t.InTurn start stop body next u)
include h

theorem edits :
    t.items.Edits (fun x => (t.roleAt x).stays = true → True) u.items := h.lays.edits h.sequence.blocks.toLinear

theorem linear : u.items.Linear := h.edits.linear

theorem role (hx : x ∈ start :: (body ++ [stop])) : u.roleAt x = t.roleAt x := h.lays.kept (h.sequence.made hx)

theorem lt_size (hx : x ∈ start :: (body ++ [stop])) : x.index < u.items.size :=
  (h.sequence.made hx).trans_le h.lays.size

theorem eq_of_next_of_mem (hxy : [x, y] <:+: start :: (body ++ [stop])) (hx : x ∈ u.items.order)
    (hz : z ∈ start :: (body ++ [stop]))
    (hn : u.items.next? z = some y) : z = x := by
  have hmem : z ∈ u.items.order := by
    by_contra hz
    rw [next?_eq_following, following_of_not_mem hz] at hn
    cases hn
  obtain ⟨P, Q, ho⟩ := append_of_mem hmem
  rw [next?_eq ho] at hn
  obtain ⟨Q, rfl⟩ := head?_eq_some_iff.mp hn
  exact h.edits.eq_of_neighbours h.sequence.blocks.toLinear (h.sequence.infix_order hxy) hx ho (h.sequence.made hz)

theorem eq_of_next (hxy : [x, y] <:+: start :: (body ++ [stop])) (hy : (t.roleAt y).stays = false)
    (hz : z ∈ start :: (body ++ [stop]))
    (hn : u.items.next? z = some y) : z = x :=
  h.eq_of_next_of_mem hxy ((h.together hxy hy).mpr (mem_of_next? hn)) hz hn

theorem adds {cut : Prop} (ha : u.Adds fin cut u') (hf : ∀ x, fin x → next = some x) :
    t.InTurn start stop body none u' := by
  have hlin := h.linear
  have hmem : ∀ {x}, x ∈ start :: (body ++ [stop]) → (x ∈ u'.items.order ↔ x ∈ u.items.order) := fun hx =>
    ⟨(ha.adds hlin).mem_order (h.lt_size hx), fun hx' => (ha.adds hlin).linked _ hx' id⟩
  refine ⟨h.sequence, h.lays.trans (ha.toLays.mono fun _ => False.elim),
    ha.outlying (h.lays.blocks h.sequence.blocks) h.outlying,
    fun {x y} hxy hy => ?_, fun {x y} hxy hy hd => ?_, fun hn => (by cases hn), fun x hx => ?_,
    fun hn => (by cases hn), fun {y} hy hin hd => ?_⟩
  · rw [hmem (hxy.subset (by simp)), hmem (hxy.subset (by simp))]
    exact h.together hxy hy
  · rcases ha.undone (h.lt_size (hxy.subset (by simp))) hd with hd | hd
    · exact ha.done (h.done hxy hy hd)
    · exact ha.done (h.led (hf y hd) hxy hy)
  · rw [ha.followed] at hx
    exact (h.followed x hx).imp_right ha.done
  refine (hmem hy).mpr ?_
  rcases ha.undone (h.lt_size hy) hd with hd | hd
  · exact h.kept hy hin hd
  · exact h.linked (hf y hd)

theorem onward (hid : id ∈ start :: (body ++ [stop])) (hd : u.Done id) :
    t.InTurn start stop body (u.items.next? id) u :=
  { h with
    led := fun hn hxy hy => h.eq_of_next hxy hy hid hn ▸ hd
    linked := mem_of_next? }

theorem at_head (hn : ∀ y, next' = some y → (u.roleAt y).stays = true ∧ y ∈ u.items.order) :
    t.InTurn start stop body next' u := by
  refine { h with led := fun {x y} hy hxy hst => ?_, linked := fun hy => (hn _ hy).2 }
  have hstays := (hn y hy).1
  rw [h.role (hxy.subset (by simp)), hst] at hstays
  cases hstays

end

/-- A piece of code that is taken out holds all of a block, or nothing of it. -/
theorem clears_iff (h : t.InTurn start stop body (some id) u)
    (hid : id ∈ start :: (body ++ [stop])) (hc : u.Clears id R Y u') (hst : (u.roleAt id).stays = true)
    (hxy : [x, y] <:+: start :: (body ++ [stop])) (hy : (t.roleAt y).stays = false) (hx : x ∈ u.items.order) :
    x ∈ id :: R ↔ y ∈ id :: R := by
  have ht := h.sequence
  have hlin := h.linear
  have hyu := (h.together hxy hy).mp hx
  obtain ⟨X, ho, -⟩ := hc.order
  have hbefore : [x, y].Sublist u.items.order :=
    h.edits.before_of_mem ht.blocks.toLinear (ht.infix_order hxy).sublist hx hyu
  have hold : ∀ w ∈ [x, y], w ∈ start :: (body ++ [stop]) := fun w hw => hxy.subset hw
  -- what stands between the two is new
  have hbetween : ∀ z, [x, z].Sublist u.items.order → [z, y].Sublist u.items.order → t.items.size ≤ z.index :=
    fun z hxz hzy => by
      by_contra hz
      have hz := Nat.lt_of_not_le hz
      exact not_between (ht.infix_order hxy)
        (h.edits.before (ht.made (hold x (by simp))) hz hxz) (h.edits.before hz (ht.made (hold y (by simp))) hzy)
  have hyu' : (u.roleAt y).stays = false := by rw [h.role (hold y (by simp)), hy]
  have hyid : y ≠ id := fun e => by
    rw [← e, hyu'] at hst
    cases hst
  have hmem : ∀ {w}, w ∈ u.items.order → w ∈ X ∨ w ∈ id :: R ∨ w ∈ Y := fun hw => by
    rw [ho] at hw
    simpa [or_assoc] using hw
  have hseq : ∀ {A B : List ItemId} {a b : ItemId}, u.items.order = A ++ B → a ∈ A → b ∈ B → [a, b].Sublist u.items.order :=
    fun ho ha hb => ho ▸ (singleton_sublist.mpr ha).append (singleton_sublist.mpr hb)
  constructor
  · intro hxR
    rcases hmem hyu with hyX | hyR | hyY
    · exact absurd (hseq ho hyX (mem_append_left Y hxR)) (not_before hlin.nodup hbefore)
    · exact hyR
    obtain ⟨w, Y, rfl⟩ := exists_cons_of_ne_nil (ne_nil_of_mem hyY)
    have hw := hc.ends w rfl
    have hne : y ≠ w := fun e => by
      rw [← e, hyu'] at hw
      cases hw
    have hyY := (mem_cons.mp hyY).resolve_left hne
    have hxw : [x, w].Sublist u.items.order :=
      hseq (A := X ++ id :: R) (B := w :: Y) (by rw [ho]; simp) (mem_append_right _ hxR) (by simp)
    have hwy : [w, y].Sublist u.items.order := hseq (A := X ++ id :: (R ++ [w])) (by rw [ho]; simp) (by simp) hyY
    -- a label that came later is bound behind the function
    rcases h.lays.fresh (hbetween w hxw hwy) with hin | ⟨l, hl⟩
    · rw [hin] at hw
      cases hw
    have hstop := before_trans hlin.nodup (h.outlying (hbetween w hxw hwy) hl) hwy
    have hstopy := h.edits.before (ht.made (by simp)) (ht.made (hold y (by simp))) hstop
    refine absurd hstopy (not_before ht.blocks.nodup (ht.before_stop (hold y (by simp)) fun e => ?_))
    obtain ⟨g, hg⟩ := ht.blocks.closes
    rw [e, hg] at hy
    cases hy
  · intro hyR
    have hyR := (mem_cons.mp hyR).resolve_left hyid
    rcases hmem hx with hxX | hxR | hxY
    · refine absurd (ht.made hid) (not_lt.mpr (hbetween id ?_ ?_))
      · exact hseq ho hxX (by simp)
      · exact hseq (A := X ++ [id]) (B := R ++ Y) (by rw [ho]; simp) (by simp) (mem_append_left _ hyR)
    · exact hxR
    · have hyx := hseq (A := X ++ id :: R) (by rw [ho]; simp) (mem_append_right _ (.tail _ hyR)) hxY
      exact absurd hyx (not_before hlin.nodup hbefore)

end InTurn

theorem Clears.mem_iff (hc : u.Clears id R Y u') :
    x ∈ u'.items.order ↔ x ∈ u.items.order ∧ x ∉ id :: R := by
  obtain ⟨X, ho, ho'⟩ := hc.order
  have hn := u.items.nodup_order
  grind

namespace InTurn

section
variable (h : t.InTurn start stop body (some id) u) (hid : id ∈ start :: (body ++ [stop]))
include h hid

theorem start_not_mem (hc : u.Clears id R Y u') (hst : (u.roleAt id).stays = true) : start ∉ R := by
  have ht := h.sequence
  intro hR
  have hne : start ≠ id := fun e => by
    have hin := hc.inner start hR
    rw [e, hst] at hin
    cases hin
  have hbefore : [start, id].Sublist t.items.order := by
    refine Sublist.trans ?_ (ht.infix_order infix_rfl).sublist
    exact (singleton_sublist.mpr ((mem_cons.mp hid).resolve_left (Ne.symm hne))).cons_cons start
  have hbehind : [id, start].Sublist u.items.order := by
    obtain ⟨X, ho, -⟩ := hc.order
    rw [ho]
    exact ((singleton_sublist.mpr (mem_append_left _ hR)).cons_cons id).trans (sublist_append_right _ _)
  have hbehind := h.edits.before (ht.made hid) (ht.made (by simp)) hbehind
  exact not_before ht.blocks.nodup hbefore hbehind

theorem clears_undone (hc : u.Clears id R Y u') (hst : (u.roleAt id).stays = true)
    (hd : ¬ u.Done id) (hy : y ∈ start :: (body ++ [stop])) (hR : y ∈ R) : ¬ u.Done y := by
  -- from the last item of the piece to its first
  obtain ⟨A, C, hL⟩ := append_of_mem hy
  induction A using reverseRecOn generalizing y C with
  | nil =>
    obtain ⟨rfl, -⟩ := cons.inj hL
    exact absurd hR (h.start_not_mem hid hc hst)
  | append_singleton A x ih =>
    have hxy : [x, y] <:+: start :: (body ++ [stop]) := ⟨A, C, by rw [hL]; simp⟩
    have hin : (t.roleAt y).stays = false := by
      rw [← h.role hy]
      exact hc.inner y hR
    have hyu : y ∈ u.items.order := by
      obtain ⟨X, ho, -⟩ := hc.order
      rw [ho]
      simp [hR]
    have hx := (h.clears_iff hid hc hst hxy hin ((h.together hxy hin).mpr hyu)).mpr (.tail _ hR)
    intro hdy
    have hdx := h.done hxy hin hdy
    rcases mem_cons.mp hx with rfl | hx
    · exact hd hdx
    · exact ih (hxy.subset (by simp)) hx (C := y :: C) (by rw [hL]; simp) hdx

/-- Code that nothing is known to lead to is taken out. -/
theorem clears (hc : u.Clears id R Y u') (hb : u.roleAt id = .binds b)
    (hd : ¬ u.Done id) : t.InTurn start stop body Y.head? u' := by
  have hlin := h.linear
  have hst : (u.roleAt id).stays = true := by rw [hb]; rfl
  have hlays : t.Lays (fun _ => True) u' := h.lays.trans (hc.toLays.mono fun _ _ => trivial)
  refine ⟨h.sequence, hlays, fun {x l} hx hr => ?_, fun {x y} hxy hy => ?_, fun {x y} hxy hy hd => ?_,
    fun {x y} hy hxy hin => ?_,
    fun x hx => ?_, fun {y} hy => ?_, fun {y} hy hin hdy => ?_⟩
  · rw [hc.roles] at hr
    have hbefore := h.outlying hx hr
    obtain ⟨g, hg⟩ := h.sequence.blocks.closes
    rw [← h.role (by simp)] at hg
    have hout : ∀ w ∈ [stop, x], w ∉ id :: R := fun w hw hwR => by
      rcases mem_cons.mp hwR with rfl | hwR
      · rcases mem_pair.mp hw with rfl | rfl
        · cases hb ▸ hg
        · exact absurd (h.sequence.made hid) (not_lt.mpr hx)
      have hin := hc.inner w hwR
      rcases mem_pair.mp hw with rfl | rfl
      · rw [hg] at hin
        cases hin
      · rw [hr] at hin
        cases hin
    refine (hc.edits hlin).before_of_mem hlin hbefore ?_ ?_ <;>
      exact hc.mem_iff.mpr ⟨hbefore.subset (by simp), hout _ (by simp)⟩
  · rw [hc.mem_iff, hc.mem_iff]
    constructor
    · rintro ⟨hx, hxR⟩
      exact ⟨(h.together hxy hy).mp hx, fun hyR => hxR ((h.clears_iff hid hc hst hxy hy hx).mpr hyR)⟩
    rintro ⟨hyu, hyR⟩
    have hx := (h.together hxy hy).mpr hyu
    exact ⟨hx, fun hxR => hyR ((h.clears_iff hid hc hst hxy hy hx).mp hxR)⟩
  · rcases hc.done.mp hd with hd | rfl
    · exact hc.done.mpr (.inl (h.done hxy hy hd))
    · rw [h.role hid, hy] at hst
      cases hst
  · have hstays := hc.ends y hy
    rw [h.role (hxy.subset (by simp)), hin] at hstays
    cases hstays
  · rw [hc.ctx.1] at hx
    exact (h.followed x hx).imp_right fun hd => hc.done.mpr (.inl hd)
  · obtain ⟨X, -, ho'⟩ := hc.order
    rw [ho']
    exact mem_append_right _ (mem_of_mem_head? hy)
  · rw [← h.role hy] at hin
    have hne : y ≠ id := fun e => by
      rw [e, hst] at hin
      cases hin
    have hdy := (hc.done.mp hdy).resolve_right hne
    refine hc.mem_iff.mpr ⟨h.kept hy (by rw [← h.role hy]; exact hin) hdy, fun hR => ?_⟩
    exact h.clears_undone hid hc hst hd hy ((mem_cons.mp hR).resolve_left hne) hdy

theorem step (hp : u.Passage id next u') : t.InTurn start stop body next u' := by
  have hfin : ∀ x, x = id → some id = some x := fun x hx => by rw [hx]
  cases hp with
  | onward hi hd ha hd' => exact (h.adds ha hfin).onward hid hd'
  | @follow v item titem j T hi hd hk ho hl hT htr hlink ha hd' =>
    have hv := h.adds ha hfin
    have hbinds : v.roleAt T = .binds j.target := by
      rw [ha.kept (lt_size_of_get? hT)]
      exact (h.lays.labelled h.sequence.labelled).targets.mp hl
    have hstop : id ≠ stop := fun e => by
      obtain ⟨g, hg⟩ := h.sequence.blocks.closes
      rw [← h.role (by simp), ← e, roleAt_of_get? hi, hk] at hg
      cases hg
    have hpush : t.InTurn start stop body none
        { v with ctx := { v.ctx with backwardCode := v.ctx.backwardCode.push id } } := by
      refine ⟨hv.sequence, hv.lays.trans (.quiet rfl rfl rfl rfl), hv.outlying, hv.together, hv.done, hv.led,
        fun x hx => ?_,
        hv.linked, hv.kept⟩
      rcases Array.mem_push.mp hx with hx | rfl
      · exact hv.followed x hx
      · exact ⟨by simpa [hstop] using hid, hd'⟩
    refine hpush.at_head fun y hy => ?_
    cases hy
    refine ⟨?_, (ha.adds h.linear).linked _ hlink fun h => h⟩
    show (v.roleAt T).stays = true
    rw [hbinds]
    rfl
  | again hi hd hk ha => exact h.adds ha fun _ => False.elim
  | close hi hd hk ha hd' => exact h.adds ha hfin
  | clear hd hu hc =>
    obtain ⟨-, -, l, hl⟩ := hu
    exact h.clears hid hc hl hd

end

theorem resume (h : t.InTurn start stop body none u)
    (hj : u.ctx.backwardCode[u.ctx.backwardPos]? = some jump) (hr : resumeBehind jump u.resuming = .ok next u') :
    t.InTurn start stop body next u' := by
  obtain ⟨rfl, hnext⟩ := resumeBehind_ok hr
  obtain ⟨hjump, hd⟩ := h.followed jump (Array.mem_of_getElem? hj)
  have hjump : jump ∈ start :: (body ++ [stop]) := mem_append_left [stop] hjump
  refine ⟨h.sequence, h.lays.trans (.quiet rfl rfl rfl rfl), h.outlying, h.together, h.done,
    fun {x y} hy hxy hin => ?_, h.followed,
    fun hy => mem_of_next? (hnext _ hy), h.kept⟩
  exact h.eq_of_next hxy hin hjump (hnext y hy) ▸ hd

end InTurn

theorem Sequence.inTurn (h : t.Sequence start stop body) : t.InTurn start stop body (some start) t := by
  have hn : (start :: (body ++ [stop])).Nodup := h.blocks.nodup.sublist (h.infix_order infix_rfl).sublist
  have hmem : ∀ {x}, x ∈ start :: (body ++ [stop]) → x ∈ t.items.order := fun hx =>
    (h.infix_order infix_rfl).subset hx
  refine ⟨h, .refl t, fun {x l} hx hr => ?_, fun {x y} hxy _ => ?_, fun {x y} hxy hy hd => ?_, fun {x y} hy hxy _ => ?_,
    fun x hx => ?_, fun hy => ?_, fun hy _ _ => hmem hy⟩
  · rw [roleAt_of_size_le hx] at hr
    cases hr
  · exact iff_of_true (hmem (hxy.subset (by simp))) (hmem (hxy.subset (by simp)))
  · rcases mem_append.mp (mem_of_neighbours hxy) with hyb | hstop
    · exact absurd hd (h.undone y hyb)
    obtain ⟨g, hg⟩ := h.blocks.closes
    rw [mem_singleton.mp hstop, hg] at hy
    cases hy
  · exact absurd (Option.some.inj hy ▸ mem_of_neighbours hxy) (nodup_cons.mp hn).1
  · rw [h.unfollowed.1] at hx
    simp at hx
  · exact Option.some.inj hy ▸ hmem mem_cons_self

theorem Ready.sequence
    (h : s.Ready f record stop body) (hp : prepareFunction f record stop p s = .ok () t) (hl : s.Labelled) :
    t.activated.Sequence record.item stop body := by
  have hw := h.walked hp
  have hact : t.Lays (fun _ => False) t.activated := .quiet rfl rfl rfl rfl
  have hret : s.Retains (fun _ => True) t := prepareFunction_retains hp
  obtain ⟨A, C, ho⟩ := h.order
  refine ⟨hact.labelled (hret.labelled hl), hact.blocks (h.blocks hp), ⟨A, C, hw.order.1.trans ho⟩, fun x hx hd => ?_,
    (congrArg Context.backwardCode hw.ctx :), (congrArg Context.backwardPos hw.ctx :)⟩
  obtain ⟨-, item, -, hi, htr, -⟩ := h.prepared_inside hp hx
  obtain ⟨item', hi', htr'⟩ := hd
  cases hi ▸ hi'
  cases htr ▸ htr'

end Session

namespace Moment
variable {next : Option ItemId} {m : Moment}

/-- The item that the walk goes on with. -/
def next? : Moment → Option ItemId
  | ⟨.walk next, _⟩ => next
  | ⟨.drain _, _⟩ => none

theorem inTurn_advance (h : t.InTurn record.item stop body m.next? m.session)
    (hs : m.Sound t f record stop body) (ha : m.Advances m') : t.InTurn record.item stop body m'.next? m'.session := by
  cases ha with
  | item hr => exact h.step (hs.mem_of_item hr) (translateItem_passage hr)
  | resume hj hr => exact h.resume hj hr
  | finish hj => exact h
  | @reconcile u v w q rest ha hd =>
    have hadds : u.Adds (fun _ => False) False w.resolved := reconcile_adds ha hd
    exact h.adds hadds fun _ => False.elim

end Moment

open Moment in
theorem Session.Visits.inTurn (hv : t.Visits record.item m) (hl : t.activated.Launch f record stop body)
    (ht : t.activated.Sequence record.item stop body) :
    t.activated.InTurn record.item stop body m.next? m.session := by
  induction hv with
  | refl => exact ht.inTurn
  | tail hv ha ih => exact inTurn_advance ih (Visits.sound hv hl) ha

end Codegen
