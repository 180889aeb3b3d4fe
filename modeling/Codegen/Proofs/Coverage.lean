import Codegen.Proofs.Passage

/-! The walk over a function leaves nothing out: from every item that is translated it went on to the item behind it, or
it will. So in the end every item that is linked is translated. -/
namespace Codegen
open List Build ItemSeq Option ItemKind
variable {record : FunctionRecord} {stop : ItemId} {busy : ItemId → Prop}
  {body : List ItemId}
variable {t u : Session}

namespace Session
variable {u' : Session} {start : ItemId}
variable {id : ItemId} {next : Option ItemId}

/-- The code behind the jump is still to be taken up. -/
def Pending (u : Session) (x : ItemId) : Prop := ∃ k, u.ctx.backwardPos ≤ k ∧ u.ctx.backwardCode[k]? = some x

theorem pending_congr (hb : u'.ctx.backwardCode = u.ctx.backwardCode)
    (hpos : u'.ctx.backwardPos = u.ctx.backwardPos) : u'.Pending x ↔ u.Pending x := by
  unfold Pending
  rw [hb, hpos]

/-- From an item of the function the walk got to the item of the body behind it, or it will. The items that came later
have numbers from `n` on. -/
def Leads (n : Nat) (start : ItemId) (body : List ItemId) (next : Option ItemId) (u : Session) (x y : ItemId) : Prop :=
  x = start ∨ x ∈ body ∨ n ≤ x.index → y ∈ body → u.Done x → u.Done y ∨ next = some y ∨ u.Pending x

/-- The walk over a function goes on with `next`, and nothing is left out. -/
structure Covers (t : Session) (start : ItemId) (body : List ItemId) (next : Option ItemId) (u : Session) : Prop where
  chain : u.items.order.IsChain (u.Leads t.items.size start body next)
  linked : ∀ y, next = some y → y ∈ u.items.order
  opened : u.Done start ∨ next = some start
  position : u.ctx.backwardPos ≤ u.ctx.backwardCode.size

theorem resumeBehind_next {jump : ItemId} (h : resumeBehind jump u = .ok next u')
    (hy : u.items.next? jump = some y) : u'.Done y ∨ next = some y := by
  simp only [resumeBehind, bind_ok] at h
  obtain ⟨_, _, ⟨⟩, h⟩ := h
  simp only [hy, bind_ok, getItem_ok] at h
  obtain ⟨item, _, ⟨hi, rfl⟩, ⟨⟩⟩ := h
  by_cases ht : item.translated = true
  · exact .inl ⟨item, hi, ht⟩
  · exact .inr (if_neg ht)

theorem Blocks.inactive (h : t.activated.Blocks n stop) : t.Blocks n stop :=
  ⟨h.toLinear, h.closes, h.size, h.targets, h.trails⟩

theorem Midway.ahead (h : t.Midway f start stop body busy u) (hy : y ∈ start :: body) (hlink : y ∈ u.items.order) :
    [y, stop].Sublist u.items.order := by
  obtain ⟨extra, -, hs⟩ := h.spans
  obtain ⟨A, B, C, ho, -, hAC, -⟩ := hs.order
  suffices hB : y ∈ start :: B by
    rw [ho, show A ++ start :: (B ++ stop :: C) = A ++ (start :: B) ++ stop :: C by simp]
    exact (singleton_sublist.mpr (mem_append_right _ hB)).append (singleton_sublist.mpr mem_cons_self)
  rcases mem_cons.mp hy with rfl | hyb
  · exact mem_cons_self
  rw [ho] at hlink
  simp only [mem_append, mem_cons] at hlink ⊢
  rcases hlink with hm | hm | hm | rfl | hm
  · exact absurd hyb (hAC _ (mem_append_left _ hm))
  · exact .inl hm
  · exact .inr hm
  · exact absurd hyb h.outline.outer.2
  · exact absurd hyb (hAC _ (mem_append_right _ hm))

namespace Covers

section
variable (h : t.Covers start body (some id) u)
include h

theorem adds {cut : Prop}
    (ha : u.Adds fin cut v) (hfin : ∀ x, fin x → x = id) (hd : v.Done id) (hl : u.items.Linear)
    (hb : ∀ {x y}, [x, y] <:+: v.items.order → y ∈ body → y ≠ id → [x, y] <:+: u.items.order)
    (ho : u'.items = v.items) (hp : ∀ x, v.Pending x → u'.Pending x)
    (hpos : u'.ctx.backwardPos ≤ u'.ctx.backwardCode.size)
    (hnext : ∀ y, [id, y] <:+: v.items.order → y ∈ body → ¬ u.Done id → next = some y ∨ u'.Pending id)
    (hlink : ∀ y, next = some y → y ∈ v.items.order) : t.Covers start body next u' := by
  have hdone : ∀ {x}, u'.Done x ↔ v.Done x := by
    unfold Done
    rw [ho]
  refine ⟨isChain_iff_neighbours.mpr fun {x y} hxy hx hy hdx => ?_, (ho ▸ hlink), .inl (hdone.mpr ?_), hpos⟩
  · rw [ho] at hxy
    by_cases hne : y = id
    · exact .inl (hdone.mpr (hne ▸ hd))
    have hxy' := hb hxy hy hne
    have hlead : u.Done x → u'.Done y ∨ next = some y ∨ u'.Pending x := fun hdx => by
      rcases isChain_iff_neighbours.mp h.chain hxy' hx hy hdx with hdy | hy' | hpx
      · exact .inl (hdone.mpr (ha.done hdy))
      · exact absurd (some.inj hy').symm hne
      · exact .inr (.inr (hp x ((pending_congr ha.followed ha.position).mpr hpx)))
    by_cases hold : u.Done x
    · exact hlead hold
    · cases hfin x ((ha.undone (hl.made x (hxy'.subset (by simp))) (hdone.mp hdx)).resolve_left hold)
      exact .inr (hnext y hxy hy hold)
  · rcases h.opened with hs | hs
    · exact ha.done hs
    · exact some.inj hs ▸ hd

theorem clears (hc : u.Clears id R Y u') (hl : u.items.Linear) : t.Covers start body Y.head? u' := by
  obtain ⟨X, ho, ho'⟩ := hc.order
  have hn := hl.nodup
  rw [ho] at hn
  have hidX : id ∉ X := fun hm => (nodup_append.mp hn).2.2 _ hm _ mem_cons_self rfl
  have hidY : id ∉ Y := fun hm => (nodup_cons.mp (nodup_append.mp hn).2.1).1 (mem_append_right _ hm)
  have hstep : ∀ {x y}, x ≠ id → y ≠ id → u.Leads t.items.size start body (some id) x y →
      u'.Leads t.items.size start body Y.head? x y := by
    intro x y hx hy hxy hin hyb hdone
    rcases hxy hin hyb ((hc.done.mp hdone).resolve_right hx) with hd | hd | hd
    · exact .inl (hc.done.mpr (.inl hd))
    · exact absurd (some.inj hd).symm hy
    · exact .inr (.inr ((pending_congr hc.ctx.1 hc.ctx.2.1).mpr hd))
  have hchain := h.chain
  rw [ho, show X ++ id :: (R ++ Y) = X ++ (id :: R ++ Y) by simp] at hchain
  obtain ⟨hX, hRY, -⟩ := isChain_append.mp hchain
  obtain ⟨-, hY, -⟩ := isChain_append.mp hRY
  refine ⟨?_, fun y hy => ?_, .inl (hc.done.mpr ?_), by rw [hc.ctx.1, hc.ctx.2.1]; exact h.position⟩
  · rw [ho']
    refine isChain_append.mpr ⟨?_, ?_, fun x _ y hy _ _ _ => .inr (.inl hy)⟩
    · exact hX.imp_of_mem_imp fun {x y} hx hy hxy => hstep (fun e => hidX (e ▸ hx)) (fun e => hidX (e ▸ hy)) hxy
    · exact hY.imp_of_mem_imp fun {x y} hx hy hxy => hstep (fun e => hidY (e ▸ hx)) (fun e => hidY (e ▸ hy)) hxy
  · rw [ho']
    exact mem_append_right _ (mem_of_mem_head? hy)
  · exact h.opened.imp_right fun he => (some.inj he).symm

/-- Translating an item that the walk comes to. -/
theorem step (hb : u.Blocks t.items.size stop) (hmid : t.Midway f start stop body busy u')
    (hid : [id, stop].Sublist u.items.order ∨ id = stop) (hend : ∀ g, u.roleAt id = .closes g → id = stop)
    (hp : u.Passage id next u') : t.Covers start body next u' := by
  have hold : ∀ y ∈ body, y.index < t.items.size := fun y hy => by
    obtain ⟨extra, -, hs⟩ := hmid.spans
    exact hs.old y hy
  -- the neighbours of an item of the body are those that it had
  have hborders : ∀ {item : Item}, u.items.get? id = some item → item.kind.isFunctionEnd = false → u.Borders id u' →
      ∀ {x y}, [x, y] <:+: u'.items.order → y ∈ body → y ≠ id → [x, y] <:+: u.items.order := by
    intro item hi hk hbo x y hxy hy hne
    refine hbo hb (hid.resolve_right ?_) hxy (hold y hy) hne (hmid.ahead (.tail _ hy) (hxy.subset (by simp)))
    rintro rfl
    obtain ⟨g, hg⟩ := hb.closes
    rw [roleAt_of_get? hi] at hg
    cases hik : item.kind <;> simp_all [role, isFunctionEnd]
  cases hp with
  | onward hi hd ha hd' ht hj hbo hk =>
    refine h.adds ha (fun _ h => h) hd' hb.toLinear (hborders hi hk hbo) rfl (fun _ h => h)
      (by rw [ha.followed, ha.position]; exact h.position) (fun y hy _ _ => .inl ?_) fun y => mem_of_next?
    obtain ⟨A, C, ho⟩ := hy
    exact next?_eq (Q := y :: C) (P := A) (by rw [← ho]; simp)
  | @follow v item titem j T hi hd hk ho hl hT htr hlink ha hd' ho' =>
    refine h.adds ha (fun _ h => h) hd' hb.toLinear (fun hxy _ _ => ho' ▸ hxy) rfl (fun x hx => ?_) ?_
      (fun _ _ _ _ => .inr ⟨v.ctx.backwardCode.size, ?_, Array.getElem?_push_size⟩) fun y hy => ?_
    · obtain ⟨k, hk, hx⟩ := hx
      refine ⟨k, hk, ?_⟩
      rwa [Array.getElem?_push, if_neg (ne_of_lt (Array.getElem?_eq_some_iff.mp hx).1)]
    · have hle : v.ctx.backwardPos ≤ v.ctx.backwardCode.size := by
        rw [ha.followed, ha.position]
        exact h.position
      simpa using Nat.le_succ_of_le hle
    · rw [ha.followed, ha.position]
      exact h.position
    · cases hy
      exact ho' ▸ hlink
  | @again _ item hi hd ht ha hbo =>
    have hk : item.kind.isFunctionEnd = false := by
      cases hik : item.kind <;> simp_all [ItemKind.isTarget, isFunctionEnd]
    refine h.adds ha (fun _ h => h.elim) (ha.done ⟨_, hi, hd⟩) hb.toLinear (hborders hi hk hbo) rfl (fun _ h => h)
      (by rw [ha.followed, ha.position]; exact h.position) (fun y hy _ hnd => absurd ⟨_, hi, hd⟩ hnd) fun _ h => by cases h
  | @close _ item hi hd hk ha hd' ho =>
    obtain rfl : id = stop := by
      cases hik : item.kind with
      | functionEnd g => exact hend g ((roleAt_of_get? hi).trans (by rw [hik]; rfl))
      | _ => simp [hik, isFunctionEnd] at hk
    refine h.adds ha (fun _ h => h) hd' hb.toLinear (fun hxy _ _ => ho ▸ hxy) rfl (fun _ h => h)
      (by rw [ha.followed, ha.position]; exact h.position) (fun y hy hyb _ => ?_) fun _ h => by cases h
    exact absurd (hmid.ahead (.tail _ hyb) (hy.subset (by simp))) (not_before u'.items.nodup_order hy.sublist)
  | clear hd hu hc => exact h.clears hc hb.toLinear

end

theorem resume {jump : ItemId} (h : t.Covers start body none u)
    (hj : u.ctx.backwardCode[u.ctx.backwardPos]? = some jump)
    (hr : resumeBehind jump u.resuming = .ok next u') : t.Covers start body next u' := by
  obtain ⟨rfl, hnext⟩ := resumeBehind_ok hr
  refine ⟨?_, fun y hy => ?_, .inl (h.opened.resolve_right fun he => by cases he), (Array.getElem?_eq_some_iff.mp hj).1⟩
  · rw [isChain_iff_forall_rel_of_append_cons_cons]
    intro x y A C ho hfn hyb hdone
    rcases (isChain_iff_forall_rel_of_append_cons_cons.mp h.chain) ho hfn hyb hdone with hxy | hxy | ⟨k, hk, hx⟩
    · exact .inl hxy
    · cases hxy
    rcases eq_or_lt_of_le hk with rfl | hk
    · cases hj ▸ hx
      exact (resumeBehind_next hr (next?_eq ho)).imp_right .inl
    · exact .inr (.inr ⟨k, hk, hx⟩)
  · have hy := hnext y hy
    by_cases hx : jump ∈ u.items.order
    · obtain ⟨P, Q, ho⟩ := append_of_mem hx
      rw [show u.resuming.items.next? jump = u.items.next? jump from rfl, next?_eq ho] at hy
      show y ∈ u.items.order
      rw [ho]
      exact mem_append_right _ (mem_cons_of_mem _ (mem_of_mem_head? hy))
    · rw [next?_eq_following, following_of_not_mem (show jump ∉ u.resuming.items.order from hx)] at hy
      cases hy

/-- When there is nothing left to take up, the items that are linked are translated. -/
theorem finish (h : t.Covers start body none u) (hmid : t.Midway f start stop body busy u)
    (hj : u.ctx.backwardCode[u.ctx.backwardPos]? = none) :
    ∀ x ∈ body, x ∈ u.items.order → u.Done x := by
  obtain ⟨extra, -, hs⟩ := hmid.spans
  obtain ⟨A, B, C, ho, hB, hAC, -⟩ := hs.order
  have hpending : ∀ x, ¬ u.Pending x := fun x ⟨k, hk, hx⟩ =>
    not_lt.mpr ((Array.getElem?_eq_none_iff.mp hj).trans hk) (Array.getElem?_eq_some_iff.mp hx).1
  have hchain := h.chain
  rw [ho] at hchain
  have hrun : ∀ (l : List ItemId) (x : ItemId), (x :: l).IsChain (u.Leads t.items.size start body none) →
      (x = start ∨ x ∈ body ∨ t.items.size ≤ x.index) → u.Done x → (∀ y ∈ l, y ∈ body ∨ t.items.size ≤ y.index) →
      (∀ y ∈ l, y ∈ u.items.order) → ∀ y ∈ l, u.Done y := by
    intro l
    induction l with
    | nil => exact fun _ _ _ _ _ _ _ hy => by cases hy
    | cons z l ih =>
      intro x hc hx hd hl hlink y hy
      obtain ⟨hxz, hc⟩ := isChain_cons_cons.mp hc
      have hz : u.Done z := by
        rcases hl z mem_cons_self with hzb | hnew
        · exact (hxz hx hzb hd).resolve_right fun hp => hp.elim (fun he => by cases he) (hpending x)
        · obtain ⟨item, hi⟩ := get?_of_lt_size (hs.made z (hlink z mem_cons_self))
          exact ⟨item, hi, (hmid.generated hnew hi).1⟩
      rcases mem_cons.mp hy with rfl | hy
      · exact hz
      · exact ih z hc (.inr (hl z mem_cons_self)) hz (fun y hy => hl y (.tail _ hy))
          (fun y hy => hlink y (.tail _ hy)) y hy
  intro x hxb hx
  have hxB : x ∈ B := by
    rw [ho] at hx
    simp only [mem_append, mem_cons] at hx
    rcases hx with hx | rfl | hx | rfl | hx
    · exact absurd hxb (hAC _ (mem_append_left _ hx))
    · exact absurd hxb hmid.outline.outer.1
    · exact hx
    · exact absurd hxb hmid.outline.outer.2
    · exact absurd hxb (hAC _ (mem_append_right _ hx))
  have hBchain : (start :: B).IsChain (u.Leads t.items.size start body none) := by
    exact (isChain_append.mp (isChain_append.mp hchain).2.1).1
  exact hrun B start hBchain (.inl rfl) (h.opened.resolve_right fun he => by cases he) hB
    (fun y hy => by rw [ho]; simp [hy]) x hxB

end Covers

theorem Launch.covers (h : t.Launch f record stop body) (hpos : t.ctx.backwardPos ≤ t.ctx.backwardCode.size) :
    t.Covers record.item body (some record.item) t := by
  obtain ⟨item, hi, -, htr⟩ := h.opens
  obtain ⟨extra, -, hs⟩ := h.midway.spans
  refine ⟨?_, fun y hy => ?_, .inr rfl, hpos⟩
  · refine isChain_iff_forall_rel_of_append_cons_cons.mpr fun {x y A C} ho hx _ hd => ?_
    obtain ⟨item', hi', htr'⟩ := hd
    rcases hx with rfl | hx | hx
    · cases hi ▸ hi'
      cases htr ▸ htr'
    · obtain ⟨kind, item0, hi0, htr0, -⟩ := h.inside x hx
      cases hi0 ▸ hi'
      cases htr0 ▸ htr'
    · exact absurd (lt_size_of_get? hi') (not_lt.mpr hx)
  · cases hy
    obtain ⟨A, B, C, ho, -⟩ := hs.order
    rw [ho]
    simp

end Session

namespace Moment
open Session
variable {m : Moment}

/-- Nothing is left out; when only jumps are left, every item that is linked is translated. -/
def Covered (t : Session) (record : FunctionRecord) (body : List ItemId) : Moment → Prop
  | ⟨.walk next, u⟩ => t.Covers record.item body next u
  | ⟨.drain _, u⟩ => ∀ x ∈ body, x ∈ u.items.order → u.Done x

theorem Covered.advance (h : m.Covered t record body) (hs : m.Sound t f record stop body)
    (hl : t.Launch f record stop body) (hb : m.session.Blocks t.items.size stop)
    (hk : ∀ {x : ItemId}, x.index < t.items.size → m.session.roleAt x = t.roleAt x) (ha : m.Advances m') :
    m'.Covered t record body := by
  have hs' := (hs.advance hl ha).1.midway
  cases ha with
  | @item u u' id next hr =>
    have hmem := hs.mem_of_item hr
    refine Covers.step h hb hs' ?_ ?_ (translateItem_passage hr)
    · rcases mem_cons.mp hmem with rfl | hin
      · exact .inl (hs.midway.ahead mem_cons_self (h.linked _ rfl))
      · exact (mem_append.mp hin).imp (fun hin => hs.midway.ahead (.tail _ hin) (h.linked _ rfl)) mem_singleton.mp
    intro g hg
    rcases mem_cons.mp hmem with rfl | hin
    · obtain ⟨item, hi, hkind, -⟩ := hl.opens
      rw [hk (lt_size_of_get? hi), roleAt_of_get? hi, hkind] at hg
      cases hg
    refine mem_singleton.mp ((mem_append.mp hin).resolve_left fun hin => ?_)
    obtain ⟨kind, item, hi, -, hprep, hinside, -⟩ := hl.inside id hin
    rw [hk (lt_size_of_get? hi), roleAt_of_get? hi, hprep.role_eq] at hg
    cases kind with
    | functionEnd => exact hinside
    | _ => cases hg
  | resume hj hr => exact Covers.resume h hj hr
  | finish hj => exact Covers.finish h hs.1 hj
  | @reconcile u v w q rest ha hd =>
    intro x hx hlink
    have hadds : u.Adds (fun _ => False) False w.resolved := reconcile_adds ha hd
    exact hadds.done (h x hx ((hadds.adds hb.toLinear).mem_order (hs.1.old hx).2 hlink))

end Moment

namespace Session

theorem Visits.covered (hv : t.Visits record.item m) (hl : t.activated.Launch f record stop body)
    (hb : t.Blocks t.items.size stop) (hpos : t.ctx.backwardPos ≤ t.ctx.backwardCode.size) :
    m.Covered t.activated record body := by
  induction hv with
  | refl => exact hl.covers hpos
  | tail hv ha ih => exact ih.advance (Visits.sound hv hl) hl ((Visits.lays hv).blocks hb) (Visits.lays hv).kept ha

theorem Visits.done (hv : t.Visits record.item ⟨.drain [], u⟩) (hl : t.activated.Launch f record stop body)
    (hb : t.Blocks t.items.size stop) (hpos : t.ctx.backwardPos ≤ t.ctx.backwardCode.size) (hx : x ∈ body)
    (hlink : x ∈ u.items.order) : u.Done x :=
  hv.covered hl hb hpos x hx hlink

end Session

end Codegen
