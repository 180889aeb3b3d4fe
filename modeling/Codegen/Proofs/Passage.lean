import Codegen.Proofs.Convergence
import Codegen.Proofs.Lowered
import Mathlib.Data.List.Chain

/-! What a step of the walk does to the items that are there. Most steps add code and finish the item that they are about.
A jump may be followed instead, and code that nothing is known to lead to is taken out. -/
namespace Codegen
open List Build ItemSeq Option Session ItemKind Context
variable {record : FunctionRecord} {extra stop : ItemId} {fin : ItemId → Prop}
variable {body : List ItemId} {next : Option ItemId} {s t u : Session}

/-- The item is an instruction that returns. Returning a value is not: it jumps to the exit of the function. -/
def ItemKind.isReturn : ItemKind → Bool
  | instruction i => i.opcode == .ret
  | jump j => j.opcode == .ret
  | _ => false

namespace ItemSeq
variable {Q : List ItemId}

theorem next?_eq {q : ItemSeq} (ho : q.order = P ++ x :: Q) : q.next? x = Q.head? := by
  have hn := ho ▸ q.nodup_order
  rw [next?_eq_following, ho, following_append fun hm => (nodup_append.mp hn).2.2 _ hm _ mem_cons_self rfl]

theorem mem_of_next? {q : ItemSeq} (h : q.next? x = some y) : y ∈ q.order := by
  by_cases hx : x ∈ q.order
  · obtain ⟨P, Q, ho⟩ := append_of_mem hx
    rw [next?_eq ho] at h
    rw [ho]
    exact mem_append_right _ (mem_cons_of_mem _ (mem_of_mem_head? h))
  · rw [next?_eq_following, following_of_not_mem hx] at h
    cases h

theorem isChain_iff_neighbours : l.IsChain R ↔ ∀ {x y}, [x, y] <:+: l → R x y := by
  rw [isChain_iff_forall_rel_of_append_cons_cons]
  refine ⟨fun h x y ⟨A, C, hl⟩ => h (by simpa using hl.symm), fun h x y A C hl => h ⟨A, C, by simpa using hl.symm⟩⟩

theorem infix_of_insert (h : [x, y] <:+: P ++ N ++ Q) (hN : y ∉ N) (hQ : Q.head? ≠ some y) : [x, y] <:+: P ++ Q := by
  have hchain : (P ++ N ++ Q).IsChain fun x y => y ∉ N → Q.head? ≠ some y → [x, y] <:+: P ++ Q := by
    refine isChain_append.mpr ⟨isChain_append.mpr ⟨isChain_iff_neighbours.mpr ?_, isChain_iff_neighbours.mpr ?_, ?_⟩,
      isChain_iff_neighbours.mpr ?_, fun x _ y hy _ => absurd hy⟩
    · exact fun h _ _ => h.trans (prefix_append P Q).isInfix
    · exact fun h hN => absurd (h.subset (by simp)) hN
    · exact fun x _ y hy hN => absurd (mem_of_mem_head? hy) hN
    · exact fun h _ _ => h.trans (suffix_append P Q).isInfix
  exact isChain_iff_neighbours.mp hchain h hN hQ

end ItemSeq

namespace Session
variable {id : ItemId} {fin' : ItemId → Prop} {cut cut' : Prop}

/-- The labels that came later are bound behind `stop`. -/
def Outlying (n : Nat) (stop : ItemId) (s : Session) : Prop :=
  ∀ {x l}, n ≤ x.index → s.roleAt x = .binds l → [stop, x].Sublist s.items.order

/-- The item is an instruction that returns. -/
def ReturnsAt (s : Session) (x : ItemId) : Prop := ∃ item, s.items.get? x = some item ∧ item.kind.isReturn = true

/-- A step that adds code and takes nothing out. Of the items that are there, it finishes at most those in `fin`, and
control goes on behind it unless it is `cut`. No code is added that returns. -/
structure Adds (fin : ItemId → Prop) (cut : Prop) (s s' : Session) : Prop extends s.Lays (fun _ => False) s' where
  adds : s.items.Linear → s.items.Edits (fun _ => False) s'.items
  done : ∀ {x}, s.Done x → s'.Done x
  undone : ∀ {x}, x.index < s.items.size → s'.Done x → s.Done x ∨ fin x
  states : ∀ {x}, s.stateAt x ≠ none → s'.stateAt x ≠ none
  outlying : ∀ {n stop}, s.Blocks n stop → s.Outlying n stop → s'.Outlying n stop
  followed : s'.ctx.backwardCode = s.ctx.backwardCode
  position : s'.ctx.backwardPos = s.ctx.backwardPos
  reach : s'.ctx.unreachable = true → s.ctx.unreachable = true ∨ cut
  returns : ∀ {x}, s'.ReturnsAt x → s.ReturnsAt x
  continues : s.Continues s'

/-- What a step does that may also take code out. -/
structure Proceeds (fin : ItemId → Prop) (s s' : Session) : Prop where
  done : ∀ {x}, s.Done x → s'.Done x
  undone : ∀ {x}, x.index < s.items.size → s'.Done x → s.Done x ∨ fin x
  outlying : ∀ {n stop}, s.Blocks n stop → s.Outlying n stop → s'.Outlying n stop
  returns : ∀ {x}, s'.ReturnsAt x → s.ReturnsAt x
  continues : s.Continues s'

theorem Adds.proceeds {fin : ItemId → Prop} {cut : Prop} (h : s.Adds fin cut s') : s.Proceeds fin s' :=
  ⟨h.done, h.undone, h.outlying, h.returns, h.continues⟩

theorem Done.lt_size (h : s.Done x) : x.index < s.items.size := by
  obtain ⟨item, hi, -⟩ := h
  exact lt_size_of_get? hi

section
variable (hb : s.Blocks n stop) (he : s.ctx.extraBlock = some extra) (hv : (s.atCursor (some extra)).Extends D v)
include hb he hv

theorem Blocks.order_closeBlock :
    ∃ X Y M N, s.items.order = X ++ extra :: Y ∧ stop ∈ X ++ [extra] ∧ v.items.order = X ++ extra :: (M ++ Y) ∧
      (v.closeBlock l extra).items.order = X ++ extra :: (⟨v.items.size + 1⟩ :: N ++ Y) := by
  obtain ⟨e, hee, A, B, C, ho, hlast, -⟩ := hb.trails
  cases he ▸ hee
  obtain ⟨B', hB'⟩ := getLast?_eq_some_iff.mp hlast
  have hXY : s.items.order = (A ++ B') ++ extra :: C := by
    rw [ho, ← cons_append, hB']
    simp
  obtain ⟨M, N, hM, -, -, hN⟩ := order_closed hb.toLinear hXY hv l
  refine ⟨A ++ B', C, M, N, hXY, ?_, hM, hN⟩
  rw [append_assoc, ← hB']
  simp

theorem Blocks.order_detour : ∃ X Y N, s.items.order = X ++ extra :: Y ∧ stop ∈ X ++ [extra] ∧
      (v.detour id j extra).items.order = X ++ extra :: (N ++ Y) := by
  obtain ⟨X, Y, M, N, ho, hstop, hv, hclose⟩ := hb.order_closeBlock he hv
  unfold detour
  split
  · exact ⟨X, Y, M, ho, hstop, hv⟩
  · exact ⟨X, Y, _ :: N, ho, hstop, hclose⟩

end

theorem returnsAt_of_closeBlock (h : (s.closeBlock l extra).ReturnsAt x) : s.ReturnsAt x := by
  obtain ⟨item, hi, hr⟩ := h
  by_cases hx : x.index < s.items.size
  · exact ⟨item, get?_closeBlock_of_lt hx ▸ hi, hr⟩
  rcases get?_closeBlock_new (not_lt.mp hx) hi with rfl | ⟨-, hk⟩
  · cases hr
  · rw [hk] at hr
    cases hr

theorem closeBlock_continues (s : Session) (l : LabelId) (extra : ItemId) : s.Continues (s.closeBlock l extra) :=
  ⟨rfl, rfl, .refl _, by simp [closeBlock]⟩

namespace Adds

theorem refl (s : Session) : s.Adds fin cut s :=
  ⟨.refl s, .refl, id, fun _ => .inl, id, fun _ h => h, rfl, rfl, .inl, id, .refl s⟩

theorem trans (h : s.Adds fin cut t) (h' : t.Adds fin cut u) : s.Adds fin cut u where
  toLays := h.toLays.trans h'.toLays
  adds hs := (h.adds hs).trans (h'.adds (h.adds hs).linear) fun _ _ hx => hx
  done hx := h'.done (h.done hx)
  undone hx hd := (h'.undone (hx.trans_le h.size) hd).elim (h.undone hx) .inr
  states hx := h'.states (h.states hx)
  outlying hb ho := h'.outlying (h.blocks hb) (h.outlying hb ho)
  followed := h'.followed.trans h.followed
  position := h'.position.trans h.position
  reach hu := (h'.reach hu).elim h.reach .inr
  returns hr := h.returns (h'.returns hr)
  continues := h.continues.trans h'.continues

theorem mono (h : s.Adds fin cut s') (hf : ∀ x, fin x → fin' x) (hc : cut → cut') : s.Adds fin' cut' s' :=
  { h with
    undone := fun hx hd => (h.undone hx hd).imp_right (hf _)
    reach := fun hu => (h.reach hu).imp_right hc }

theorem of_edits (hl : s.Lays (fun _ => False) s') (he : s.items.Linear → s.items.Edits (fun _ => False) s'.items)
    (hnew : ∀ {x}, s.items.size ≤ x.index → s'.roleAt x = .inner) (hdone : ∀ {x}, s.Done x → s'.Done x)
    (hundone : ∀ {x}, x.index < s.items.size → s'.Done x → s.Done x ∨ fin x)
    (hst : ∀ {x}, s.stateAt x ≠ none → s'.stateAt x ≠ none) (hb : s'.ctx.backwardCode = s.ctx.backwardCode)
    (hpos : s'.ctx.backwardPos = s.ctx.backwardPos)
    (hu : s'.ctx.unreachable = true → s.ctx.unreachable = true ∨ cut)
    (hret : ∀ {x}, s'.ReturnsAt x → s.ReturnsAt x) (hc : s.Continues s') : s.Adds fin cut s' := by
  refine ⟨hl, he, hdone, hundone, hst, fun {n stop} hbl ho {x l} hx hr => ?_, hb, hpos, hu, hret, hc⟩
  have hlt : x.index < s.items.size := by
    by_contra hlt
    cases hnew (not_lt.mp hlt) ▸ hr
  have hbefore := ho hx (hl.kept hlt ▸ hr)
  have hed := he hbl.toLinear
  exact hed.before_of_mem hbl.toLinear hbefore (hed.linked _ (hbefore.subset (by simp)) id)
    (hed.linked _ (hbefore.subset (by simp)) id)

theorem of_gains (h : s.Gains P s') (hP : ∀ i, P i → i.opcode ≠ .ret) : s.Adds fin cut s' := by
  have hget : ∀ {x}, x.index < s.items.size → s'.items.get? x = s.items.get? x := h.get?_of_lt
  obtain ⟨code, hcode, hi⟩ := h.code
  refine of_edits (.of_gains h) (fun hs => hi ▸ .generateAll hs s.mark code) (fun {x} hx => ?_) (fun hd => ?_)
    (fun hx hd => .inl ?_) (fun hst => ?_) (congrArg backwardCode h.ctx :)
    (congrArg backwardPos h.ctx :)
    (fun hu => .inl ((congrArg unreachable h.ctx : _) ▸ hu)) (fun {x} ⟨item, hg, hr⟩ => ?_)
    (.of_frame h.toFrame)
  · cases hg : s'.items.get? x with
    | none => simp [roleAt, hg]
    | some item =>
      obtain ⟨-, i, -, hk⟩ := get?_generateAll_new hx (hi ▸ hg)
      rw [roleAt_of_get? hg, hk]
      rfl
  · unfold Done
    rwa [hget hd.lt_size]
  · unfold Done at hd
    rwa [hget hx] at hd
  · rwa [stateAt, hget (lt_size_of_stateAt hst)]
  · by_cases hx : x.index < s.items.size
    · exact ⟨item, hget hx ▸ hg, hr⟩
    obtain ⟨-, i, hmem, hk⟩ := get?_generateAll_new (not_lt.mp hx) (hi ▸ hg)
    rw [hk] at hr
    exact absurd (by simpa [isReturn] using hr) (hP i (hcode i hmem))

theorem of_extends (h : s.Extends D s') : s.Adds fin cut s' := of_gains h.toGains fun _ hi =>
    (Opcode.passesOn_iff.mp hi.opcode).2.1

theorem quiet (hi : s'.items = s.items) (hf : s'.functions = s.functions) (hl : s'.labels = s.labels)
    (he : s'.ctx.extraBlock = s.ctx.extraBlock) (hb : s'.ctx.backwardCode = s.ctx.backwardCode)
    (hpos : s'.ctx.backwardPos = s.ctx.backwardPos)
    (hu : s'.ctx.unreachable = true → s.ctx.unreachable = true ∨ cut) (hc : s.Continues s') : s.Adds fin cut s' := by
  refine of_edits (.quiet hi hf hl he) (fun hs => .of_order hs (by rw [hi]) (by rw [hi])) (fun hx => ?_) (fun hd => ?_)
    (fun _ hd => .inl ?_) (fun hst => ?_) hb hpos hu (fun ⟨item, hg, hr⟩ => ⟨item, hi ▸ hg, hr⟩) hc
  · exact roleAt_of_size_le (hi ▸ hx)
  · unfold Done
    rwa [hi]
  · unfold Done at hd
    rwa [hi] at hd
  · rwa [stateAt, hi]

theorem atCursor (s : Session) (cursor : Option ItemId) : s.Adds fin cut (s.atCursor cursor) :=
  of_edits (.atCursor s cursor) (fun hs => .of_order hs rfl (le_refl _)) (roleAt_of_size_le)
    id (fun _ => .inl) id rfl rfl .inl
    id ⟨rfl, rfl, .refl _, prefix_refl _⟩

/-- A change of one item that keeps its role and the state that is asked for. -/
theorem modify (hg : ∀ item, s.items.get? id = some item →
      (g item).kind.role = item.kind.role ∧ (item.translated = true → (g item).translated = true) ∧
      ((g item).translated = true → item.translated = true ∨ fin id) ∧
      ((g item).kind.isReturn = true → item.kind.isReturn = true))
    (hst : ∀ item r st, s.items.get? id = some item → item.kind = .target r → r.state = some st →
      ∃ r', (g item).kind = .target r' ∧ r'.state ≠ none) : s.Adds fin cut { s with items := s.items.modify id g } := by
  have hself : ∀ {item}, s.items.get? id = some item → (s.items.modify id g).get? id = some (g item) := fun hi => by
    rw [get?_modify_self, hi]
    rfl
  have hother : ∀ {x}, x ≠ id → (s.items.modify id g).get? x = s.items.get? x := fun hx =>
    get?_modify_of_ne _ (Ne.symm hx) g
  have hsize : (s.items.modify id g).size = s.items.size := by simp [ItemSeq.modify, size]
  refine of_edits (.modify fun item hi => ⟨(hg item hi).1, (hg item hi).2.1⟩)
    (fun hs => .of_order hs rfl (le_of_eq hsize.symm)) (fun {x} hx => ?_) (fun {x} hd => ?_)
    (fun {x} _ hd => ?_) (fun {x} hx => ?_) rfl rfl .inl (fun {x} hr => ?_)
    ⟨rfl, rfl, .refl _, prefix_refl _⟩
  · exact roleAt_of_size_le (hsize.symm ▸ hx)
  · obtain ⟨item, hi, ht⟩ := hd
    by_cases hx : x = id
    · subst hx
      exact ⟨g item, hself hi, (hg item hi).2.1 ht⟩
    · exact ⟨item, (hother hx).trans hi, ht⟩
  · obtain ⟨item', hi', ht⟩ := hd
    rcases get?_modify_cases hi' with ⟨-, hi⟩ | ⟨rfl, item, hi, rfl⟩
    · exact .inl ⟨item', hi, ht⟩
    · exact ((hg item hi).2.2.1 ht).imp_left fun ht => ⟨item, hi, ht⟩
  · by_cases he : x = id
    · subst he
      obtain ⟨st, hst'⟩ := ne_none_iff_exists'.mp hx
      obtain ⟨item, r, hi, hk, hr⟩ := stateAt_eq_some.mp hst'
      obtain ⟨r', hk', hr'⟩ := hst item r st hi hk hr
      simpa [stateAt, hself hi, hk'] using hr'
    · rwa [stateAt, hother he]
  · obtain ⟨item', hi', hr⟩ := hr
    rcases get?_modify_cases hi' with ⟨-, hi⟩ | ⟨rfl, item, hi, rfl⟩
    · exact ⟨item', hi, hr⟩
    · exact ⟨item, hi, (hg item hi).2.2.2 hr⟩

theorem withKind {kind : ItemKind} (h : kind.role = s.roleAt id)
    (hst : s.stateAt id ≠ none → ∃ r, kind = .target r ∧ r.state ≠ none)
    (hret : ∀ item, s.items.get? id = some item → kind.isReturn = true → item.kind.isReturn = true) :
    s.Adds fin cut (s.withKind id kind) := by
  refine modify (fun item hi => ⟨h.trans (roleAt_of_get? hi), fun h => h, .inl, hret item hi⟩)
    fun item r st hi hk hr => hst ?_
  rw [stateAt_eq_some.mpr ⟨item, r, hi, hk, hr⟩]
  simp

theorem withKind_inner {kind : ItemKind} {item : Item} (hi : s.items.get? id = some item)
    (hr : kind.role = item.kind.role) (ht : item.kind.isTarget = false)
    (hret : kind.isReturn = true → item.kind.isReturn = true) : s.Adds fin cut (s.withKind id kind) := by
  refine withKind (hr.trans (roleAt_of_get? hi).symm) (fun hst => ?_) fun item' hi' => ?_
  · obtain ⟨st, hst⟩ := ne_none_iff_exists'.mp hst
    obtain ⟨item', r, hi', hk, -⟩ := stateAt_eq_some.mp hst
    cases hi ▸ hi'
    rw [hk] at ht
    cases ht
  · cases hi ▸ hi'
    exact hret

/-- The code of a block goes behind the blocks that are there, the block is closed, and a jump is sent there. -/
theorem detour (hj : s.jump? id = some j)
    (he : s.ctx.extraBlock = some extra) (hv : (s.atCursor (some extra)).Extends D v) :
    s.Adds fin cut (v.detour id j extra) := by
  obtain ⟨item, hi, hk⟩ := jump?_eq_some.mp hj
  have hlt := lt_size_of_get? hi
  have hin : s.Adds fin cut v := (atCursor s _).trans (of_extends hv)
  have hlays : s.Lays (fun _ => False) (v.detour id j extra) :=
    .detour hlt ((roleAt_of_get? hi).trans (by rw [hk]; rfl)) he hv
  unfold Session.detour at hlays ⊢
  split
  · exact hin
  rw [if_neg ‹_›] at hlays
  obtain ⟨code, -, hcode⟩ := hv.code
  have hgetv : ∀ {x}, x.index < s.items.size → v.items.get? x = s.items.get? x := fun hx => by
    rw [hcode]
    exact get?_generateAll_of_lt _ _ hx
  have hiv : v.items.get? id = some item := (hgetv hlt).trans hi
  have hclose : ∀ {x}, x.index < v.items.size → (v.closeBlock j.target extra).items.get? x = v.items.get? x :=
    get?_closeBlock_of_lt
  have hkind : (v.closeBlock j.target extra).Adds fin cut
      ((v.closeBlock j.target extra).withKind id (.jump { j with target := ⟨v.labelCount⟩ })) :=
    withKind_inner ((hclose (lt_size_of_get? hiv)).trans hiv) (by rw [hk]; rfl) (by rw [hk]; rfl)
      (by rw [hk]; exact fun h => h)
  have hblock : s.items.Linear → v.items.Edits (fun _ => False) (v.closeBlock j.target extra).items := fun hs =>
    .closeBlock (hin.adds hs).linear
  refine ⟨hlays, fun hs => ?_, fun hd => hkind.done ?_, fun {x} hx hd => ?_, fun {x} hst => hkind.states ?_,
    fun {n stop} hb ho {x l} hx hr => ?_, hin.followed, hin.position, hin.reach, fun hr => hin.returns ?_,
    hin.continues.trans ((closeBlock_continues v j.target extra).trans hkind.continues)⟩
  · exact (hin.adds hs).trans ((hblock hs).trans (hkind.adds (hblock hs).linear) fun _ _ hx => hx) fun _ _ hx => hx
  · obtain ⟨y, hy, ht⟩ := hin.done hd
    exact ⟨y, (hclose (lt_size_of_get? hy)).trans hy, ht⟩
  · have hxv : x.index < v.items.size := hx.trans_le hin.size
    refine (hkind.undone (hxv.trans_le ?_) hd).elim (fun ⟨y, hy, ht⟩ => ?_) .inr
    · rw [show (v.closeBlock j.target extra).items.size = v.items.size + 2 from size_closeBlock]
      omega
    · exact hin.undone hx ⟨y, hclose hxv ▸ hy, ht⟩
  · have hst' := hin.states hst
    rwa [stateAt, hclose (lt_size_of_stateAt hst')]
  · have hlt' := lt_size_of_binds hr
    simp only [Session.withKind, ItemSeq.modify, size, Array.size_modify] at hlt'
    have hrole := hkind.kept hlt' ▸ hr
    rw [roleAt_closeBlock] at hrole
    show [stop, x].Sublist (v.closeBlock j.target extra).items.order
    split at hrole
    · obtain ⟨X, Y, -, N, -, hstop, -, hord⟩ := hb.order_closeBlock he hv
      subst x
      rw [hord, show X ++ extra :: (⟨v.items.size + 1⟩ :: N ++ Y) = (X ++ [extra]) ++ (⟨v.items.size + 1⟩ :: (N ++ Y)) by simp]
      exact (singleton_sublist.mpr hstop).append (singleton_sublist.mpr mem_cons_self)
    have hbefore := hin.outlying hb ho hx hrole
    have hlinked : ∀ y ∈ [stop, x], y ∈ (v.closeBlock j.target extra).items.order := fun y hy =>
      (hblock hb.toLinear).linked y (hbefore.subset hy) fun h => h
    exact (hblock hb.toLinear).before_of_mem (hin.adds hb.toLinear).linear hbefore (hlinked _ (by simp))
      (hlinked _ (by simp))
  · exact returnsAt_of_closeBlock (hkind.returns hr)

end Adds

theorem Change.adds (h : s.Change id T cut s') : s.Adds fin cut s' := by
  cases h with
  | emit hg hP =>
    refine .of_gains hg fun i hi => (hP i hi).elim (fun he => (Opcode.passesOn_iff.mp he.opcode).2.1) ?_
    rintro ⟨l, -, rfl⟩
    nofun
  | note hs hn =>
    refine .quiet (by rw [hs]) (by rw [hs]) (by rw [hs]) (by rw [hn.rest]) (by rw [hn.rest]) (by rw [hn.rest]) hn.reach ?_
    rw [hs]
    exact ⟨by rw [hn.rest], rfl, .refl _, prefix_refl _⟩
  | @settle x item kind hx hi hk =>
    refine .withKind (hk.role_eq.trans (roleAt_of_get? hi).symm) (fun hst => ?_) fun item' hi' hret => ?_
    · obtain ⟨st, hst⟩ := ne_none_iff_exists'.mp hst
      obtain ⟨item', r, hi', hk', -⟩ := stateAt_eq_some.mp hst
      cases hi ▸ hi'
      rw [hk'] at hk
      cases hk
      exact ⟨_, rfl, by simp⟩
    · cases hi ▸ hi'
      generalize item.kind = k at hk
      cases hk <;> exact hret
  | detour hx he hj hv => exact (Adds.detour hj he hv).trans (.atCursor _ _)

theorem Changes.adds (h : s.Changes id T cut s') : s.Adds fin cut s' := by
  induction h with
  | refl => exact .refl s
  | tail _ h ih => exact ih.trans h.adds

/-- New code goes in front of the item `id`, or behind the function. So an old item of the function, other than `id`, has
the same item in front of it as before. -/
def Borders (id : ItemId) (s s' : Session) : Prop :=
  ∀ {n stop}, s.Blocks n stop → [id, stop].Sublist s.items.order → ∀ {x y}, [x, y] <:+: s'.items.order → y.index < n →
    y ≠ id → [y, stop].Sublist s'.items.order → [x, y] <:+: s.items.order

theorem Change.borders (h : s.Change id T cut s') (hcut : ∃ P Q, s.items.Cut P (id :: Q)) :
    (s.Blocks n stop → [id, stop].Sublist s.items.order → ∃ P Q, s'.items.Cut P (id :: Q)) ∧ s.Borders id s' := by
  obtain ⟨P, Q, hcut⟩ := hcut
  have hadds : s.Adds (fun _ => False) cut s' := h.adds
  cases h with
  | emit hg =>
    obtain ⟨code, -, hi⟩ := hg.code
    have hcut' := hcut.generateAll s.mark code
    refine ⟨fun _ _ => ⟨_, Q, hi ▸ hcut'⟩, fun {n stop} hb _ {x y} hxy hy hne _ => ?_⟩
    rw [hi, hcut'.order] at hxy
    rw [hcut.order]
    refine infix_of_insert hxy (fun hm => ?_) (by simpa using hne.symm)
    exact not_lt.mpr ((hb.size).trans (mem_newIds.mp hm).1) hy
  | note hs =>
    have hi : s'.items = s.items := by rw [hs]
    exact ⟨fun _ _ => ⟨P, Q, hi ▸ hcut⟩, fun _ _ _ _ hxy _ _ _ => hi ▸ hxy⟩
  | settle =>
    refine ⟨fun _ _ => ⟨P, Q, hcut.order, hcut.cursor, hcut.nodup, fun x hx => ?_⟩, fun _ _ _ _ hxy _ _ _ => hxy⟩
    simpa [withKind, ItemSeq.modify, size] using hcut.made x hx
  | @detour v D j extra hx he hj hv =>
    refine ⟨fun hb ha => ?_, fun {n stop} hb ha {x y} hxy hy hne hys => ?_⟩
    · -- the block stands behind the end of the function, and so behind the item
      obtain ⟨X, Y, N, ho, hstop, ho'⟩ := hb.order_detour he hv
      have hn := hcut.nodup
      have hextra : extra ∈ Q := by
        rw [hcut.order] at ho ha
        rcases mem_append.mp hstop with hX | hX
        · refine (before_iff hn).mp (before_trans hn ha ?_)
          rw [ho]
          exact (singleton_sublist.mpr hX).append (singleton_sublist.mpr mem_cons_self)
        · exact mem_singleton.mp hX ▸ (before_iff hn).mp ha
      obtain ⟨Q₁, Q₂, rfl⟩ := append_of_mem hextra
      obtain ⟨rfl, rfl⟩ : X = P ++ id :: Q₁ ∧ Y = Q₂ :=
        split_unique (ho ▸ hb.nodup) (ho ▸ (by rw [hcut.order]; simp))
      have hl := (hadds.adds hb.toLinear).linear
      have hord : ((v.detour id j extra).atCursor s.items.cursor).items.order =
          P ++ id :: (Q₁ ++ extra :: (N ++ Y)) := ho'.trans (by simp)
      exact ⟨P, _, hord, hcut.cursor, hord ▸ hl.nodup, fun x hx => hl.made x (hord ▸ hx)⟩
    · obtain ⟨X, Y, N, ho, hstop, ho'⟩ := hb.order_detour he hv
      have hed := hadds.adds hb.toLinear
      have hn := hed.linear.nodup
      have hord : ((v.detour id j extra).atCursor s.items.cursor).items.order = X ++ [extra] ++ N ++ Y :=
        ho'.trans (by simp)
      have hold := hed.mem_order (hy.trans_le hb.size) (hys.subset mem_cons_self)
      rw [hord] at hxy hys hn
      rw [ho] at hold ⊢
      rw [show X ++ extra :: Y = X ++ [extra] ++ Y by simp] at hold ⊢
      refine infix_of_insert hxy (fun hN => ?_) fun hY => ?_
      · rcases mem_append.mp hold with hX | hY
        · exact (nodup_append.mp (nodup_append.mp hn).1).2.2 _ hX _ hN rfl
        · exact (nodup_append.mp hn).2.2 _ (mem_append_right _ hN) _ hY rfl
      · refine not_before hn hys ?_
        exact (singleton_sublist.mpr (mem_append_left _ hstop)).append (singleton_sublist.mpr (mem_of_mem_head? hY))

theorem Changes.borders (h : s.Changes id T cut s') (hcut : ∃ P Q, s.items.Cut P (id :: Q)) : s.Borders id s' := by
  intro n stop hb ha
  refine And.right (a := ∃ P Q, s'.items.Cut P (id :: Q)) ?_
  induction h with
  | refl => exact ⟨hcut, fun h _ _ _ => h⟩
  | @tail u w hs h ih =>
    obtain ⟨hcu, hold⟩ := ih
    have hadds : s.Adds (fun _ => False) cut u := Changes.adds hs
    have hadds' : u.Adds (fun _ => False) cut w := h.adds
    have hed := hadds.adds hb.toLinear
    have hbu := hadds.blocks hb
    have hau := hed.before_of_mem hb.toLinear ha (hed.linked _ (ha.subset (by simp)) fun h => h)
      (hed.linked _ (ha.subset (by simp)) fun h => h)
    obtain ⟨hcw, hnew⟩ := h.borders hcu
    refine ⟨hcw hbu hau, fun hxy hy hne hys => hold (hnew hbu hau hxy hy hne hys) hy hne ?_⟩
    exact (hadds'.adds hbu.toLinear).before (hy.trans_le hbu.size) (hbu.made _ (hau.subset (by simp))) hys

end Session

namespace Session
variable {id : ItemId}

/-- An item is taken out with those behind it, up to one that a removal ends at. -/
structure Clears (id : ItemId) (R Y : List ItemId) (u u' : Session) : Prop extends u.Lays (· = id) u' where
  order : ∃ X, u.items.order = X ++ id :: (R ++ Y) ∧ u'.items.order = X ++ Y
  inner : ∀ x ∈ R, (u.roleAt x).stays = false
  ends : ∀ y ∈ Y.head?, (u.roleAt y).stays = true
  roles : ∀ x, u'.roleAt x = u.roleAt x
  done : ∀ {x}, u'.Done x ↔ u.Done x ∨ x = id
  states : ∀ {x}, u'.stateAt x = u.stateAt x
  returns : ∀ {x}, u'.ReturnsAt x → u.ReturnsAt x
  continues : u.Continues u'
  ctx : u'.ctx.backwardCode = u.ctx.backwardCode ∧ u'.ctx.backwardPos = u.ctx.backwardPos ∧
    u'.ctx.unreachable = u.ctx.unreachable

/-- What translating an item comes to. -/
inductive Passage (id : ItemId) (u : Session) : Option ItemId → Session → Prop
  /-- The item is finished, and the walk goes on behind it. -/
  | onward {u' : Session} {item : Item} (hi : u.items.get? id = some item) (hd : item.translated = false)
      (h : u.Adds (· = id) (item.kind.fallsThrough = false) u') (hd' : u'.Done id)
      (ht : item.kind.isTarget = true → u'.ctx.unreachable = false)
      (hj : ∀ j, item.kind = .jump j → ∃ T titem, u.labels[j.target.index]? = some T ∧ u.items.get? T = some titem ∧
        (u'.Done T ∨ (titem.kind.isTarget = true → u'.stateAt T ≠ none))) (hb : u.Borders id u')
      (he : item.kind.isFunctionEnd = false) : Passage id u (u'.items.next? id) u'
  /-- A jump is followed. -/
  | follow {u' : Session} {item titem : Item} {j : JumpItem} {T : ItemId} (hi : u.items.get? id = some item)
      (hd : item.translated = false) (hk : item.kind = .jump j) (ho : j.opcode = .jmp)
      (hl : u.labels[j.target.index]? = some T) (hT : u.items.get? T = some titem) (htr : titem.translated = false)
      (hlink : T ∈ u.items.order) (h : u.Adds (· = id) False u') (hd' : u'.Done id)
      (ho' : u'.items.order = u.items.order) :
      Passage id u (some T) { u' with ctx := { u'.ctx with backwardCode := u'.ctx.backwardCode.push id } }
  /-- Control comes to a target that is translated. -/
  | again {u' : Session} {item : Item} (hi : u.items.get? id = some item) (hd : item.translated = true)
      (ht : item.kind.isTarget = true) (h : u.Adds (fun _ => False) False u') (hb : u.Borders id u') :
      Passage id u none u'
  /-- The function ends. -/
  | close {u' : Session} {item : Item} (hi : u.items.get? id = some item) (hd : item.translated = false)
      (hk : item.kind.isFunctionEnd = true) (h : u.Adds (· = id) False u') (hd' : u'.Done id)
      (ho : u'.items.order = u.items.order) : Passage id u none u'
  /-- Nothing is known to lead to a target. -/
  | clear {u' : Session} {R Y : List ItemId} (hd : ¬ u.Done id) (hu : u.Doomed id) (h : u.Clears id R Y u') :
      Passage id u Y.head? u'

end Session

namespace Build
open Session (Adds Passage Clears)
variable {id : ItemId} {item : Item} {cut : Prop}

theorem entering_adds (fin : ItemId → Prop) (cut : Prop) (s : Session) (id : ItemId) (item : Item) :
    s.Adds fin cut (s.entering id item) :=
  (Adds.atCursor s (s.items.prev? id)).trans (.quiet rfl rfl rfl rfl rfl rfl .inl ⟨rfl, rfl, .refl _, prefix_refl _⟩)

theorem entering_cut (hl : s.items.Linear) (hid : id ∈ s.items.order) :
    ∃ P Q, (s.entering id item).items.Cut P (id :: Q) := by
  obtain ⟨P, Q, ho⟩ := append_of_mem hid
  have hn := hl.nodup
  rw [ho] at hn
  refine ⟨P, Q, ho, ?_, hn, fun x hx => hl.made x (ho ▸ hx)⟩
  show s.items.prev? id = P.getLast?
  rw [prev?_eq_preceding, ho, preceding_append]
  · exact fun hm => (nodup_append.mp hn).2.2 _ hm _ mem_cons_self rfl
  · exact (nodup_cons.mp (nodup_append.mp hn).2.1).1

theorem leaving_borders (h : (s.entering id item).Changes id T cut w) : s.Borders id (w.leaving id item) := by
  intro n stop hb ha x y hxy hy hne hys
  rw [leaving_order] at hxy hys
  have hbe : (s.entering id item).Blocks n stop := (entering_adds (fun _ => False) False s id item).blocks hb
  exact Changes.borders h (entering_cut hb.toLinear (ha.subset (by simp))) hbe ha hxy hy hne hys

theorem leaving_adds (cut : Prop) (s : Session) (id : ItemId) (item : Item) : s.Adds (· = id) cut
    (s.leaving id item) := by
  unfold leaving
  split
  · exact .refl s
  have hmark : s.Adds (· = id) cut { s with items := s.items.modify id ({ · with translated := true }) } :=
    .modify (fun _ _ => ⟨rfl, fun _ => rfl, fun _ => .inr rfl, fun h => h⟩) fun _ r st _ hk hst => ⟨r, hk, by simp [hst]⟩
  exact hmark.trans (.quiet rfl rfl rfl rfl rfl rfl .inl ⟨rfl, rfl, .refl _, prefix_refl _⟩)

theorem finishing_adds (hi : s.items.get? id = some item) (htr : item.translated = false)
    (hw : (s.entering id item).Adds (· = id) cut w) :
    s.Adds (· = id) cut (w.leaving id item) ∧ (w.leaving id item).Done id := by
  obtain ⟨item', hi'⟩ := get?_of_lt_size ((lt_size_of_get? hi).trans_le hw.size)
  exact ⟨(entering_adds _ _ s id item).trans (hw.trans (leaving_adds _ w id item)),
    (done_leaving htr hi' id).mpr (.inr rfl)⟩

/-- Code that nothing is known to lead to is taken out. -/
theorem removeUntilTarget_clears (hi : s.items.get? id = some item) (hk : item.kind.isTarget = true)
    (htr : item.translated = false)
    (h : removeUntilTarget id ((s.entering id item).items.suffixFrom id) (s.entering id item) = .ok next w) :
    ∃ R Y, s.Clears id R Y (w.leaving id item) ∧ next = Y.head? := by
  have hlays : (s.entering id item).Lays (· = id) w := removeUntilTarget_lays rfl hi hk htr h
  obtain ⟨hctx, hsame⟩ := removeUntilTarget_same h
  have hcont : (s.entering id item).Continues w := by
    obtain ⟨items, stats, rfl, -⟩ := removeUntilTarget_rest h
    exact ⟨rfl, rfl, .refl _, prefix_refl _⟩
  have hget : ∀ x, s.items.get? x = none ∧ w.items.get? x = none ∨ ∃ y y', s.items.get? x = some y ∧
      w.items.get? x = some y' ∧ y'.kind = y.kind ∧ y'.translated = y.translated := fun x => by
    cases hw : w.items.get? x with
    | some y' =>
      obtain ⟨y, hy, hk, ht⟩ := hsame hw
      exact .inr ⟨y, y', hy, rfl, hk, ht⟩
    | none =>
      refine .inl ⟨?_, rfl⟩
      by_contra hne
      obtain ⟨y, hy⟩ := ne_none_iff_exists'.mp hne
      obtain ⟨y', hw'⟩ := get?_of_lt_size ((lt_size_of_get? hy).trans_le hlays.size)
      cases hw ▸ hw'
  have hends : ∀ {item1}, (s.entering id item).items.get? id = some item1 → endsRemoval id id item1.kind ≠ true :=
    fun hi1 => by
      cases hi ▸ hi1
      cases hik : item.kind <;> simp_all [endsRemoval, isFunctionEnd, ItemKind.isTarget]
  have hmem : id ∈ s.items.order := by
    obtain ⟨item1, hi1, ⟨he, -⟩ | ⟨-, hmem, -⟩⟩ := removeUntilTarget_cons_ok h
    · exact absurd he (hends hi1)
    · exact hmem
  obtain ⟨X, L, ho, hX⟩ := eq_append_cons_of_mem hmem
  rw [show (s.entering id item).items.suffixFrom id = id :: L from suffixFrom_eq ho hX] at h
  obtain ⟨item1, hi1, ⟨he, -⟩ | ⟨-, -, h⟩⟩ := removeUntilTarget_cons_ok h
  · exact absurd he (hends hi1)
  have ho' := order_dropping (s := s.entering id item) ho
  have hidL : id ∉ L := (nodup_cons.mp (nodup_append.mp (ho ▸ nodup_order s.items)).2.1).1
  obtain ⟨R, Y, rfl, hY, rfl, hR, hends, -⟩ := removeUntilTarget_piece ho' h
  simp only [roleAt_dropping] at hR hends
  have hinner : ∀ x ∈ R, (s.roleAt x).stays = false := fun x hx => Bool.eq_false_iff.mpr fun hs =>
    hidL ((hR x hx hs).1 ▸ mem_append_left Y hx)
  obtain ⟨item', hi'⟩ := get?_of_lt_size ((lt_size_of_get? hi).trans_le hlays.size)
  have hleave := leaving_adds False w id item
  refine ⟨R, Y, ⟨?_, ⟨X, ho, (w.leaving_order id item).trans hY⟩, hinner, hends, fun x => ?_, fun {x} => ?_, fun {x} => ?_,
    fun {x} hr => ?_, ?_, ?_⟩, rfl⟩
  · have hin := (entering_adds (fun _ => False) False s id item).toLays
    exact (hin.mono fun _ => False.elim).trans (hlays.trans (hleave.toLays.mono fun _ => False.elim))
  · by_cases hx : x.index < w.items.size
    · rw [hleave.kept hx]
      rcases hget x with ⟨h, h'⟩ | ⟨y, y', h, h', hk, -⟩ <;> simp_all [roleAt]
    have hsize : s.items.size ≤ w.items.size := hlays.size
    rw [roleAt_of_size_le (by rw [leaving_size]; exact not_lt.mp hx),
      roleAt_of_size_le (hsize.trans (not_lt.mp hx))]
  · refine (done_leaving htr hi' x).trans (or_congr_left ?_)
    rcases hget x with ⟨h, h'⟩ | ⟨y, y', h, h', -, ht⟩ <;> simp_all [Session.Done]
  · rw [leaving_stateAt]
    rcases hget x with ⟨h, h'⟩ | ⟨y, y', h, h', hk, -⟩ <;> simp_all [stateAt]
  · obtain ⟨y', hy', hret⟩ := hleave.returns hr
    obtain ⟨y, hy, hky, -⟩ := hsame hy'
    exact ⟨y, hy, hky ▸ hret⟩
  · exact (entering_adds (fun _ => False) False s id item).continues.trans (hcont.trans hleave.continues)
  · simp [leaving, htr, hctx, entering]

/-- What translating an item comes to, whatever the item is. -/
theorem translateItem_passage (h : translateItem id s = .ok next s') :
    Passage id s next s' := by
  obtain ⟨item, w, hi, ht, hcourse, -, rfl⟩ := translateItem_course h
  have htr : item.kind.isTarget = false → item.translated = false := fun hnt => by
    by_contra htr
    rw [ht (by simpa using htr)] at hnt
    cases hnt
  cases hcourse with
  | onward hc hu hj he =>
    have htr : item.translated = false := by
      by_cases hti : item.kind.isTarget = true
      · exact (hu hti).1
      · exact htr (by simpa using hti)
    obtain ⟨hadds, hdone⟩ := finishing_adds hi htr (Session.Changes.adds hc)
    rw [← leaving_next? w id item]
    refine .onward hi htr hadds hdone (fun hti => by simpa [leaving, htr] using (hu hti).2) (fun j hk => ?_)
      (leaving_borders hc) he
    obtain ⟨T, titem, hl, hT, hcase⟩ := hj j hk
    exact ⟨T, titem, hl, hT, hcase.imp (fun htt => hadds.done ⟨titem, hT, htt⟩) fun hst ht =>
      (leaving_adds False w id item).states (hst ht)⟩
  | follow hk ho hl hT htt hlink =>
    have htr : item.translated = false := htr (by rw [hk]; rfl)
    have hw : (s.entering id item).Adds (· = id) False (s.entering id item) := .refl _
    obtain ⟨hadds, hdone⟩ := finishing_adds hi htr hw
    have heq : { (s.entering id item).leaving id item with ctx := { ((s.entering id item).leaving id item).ctx with
        backwardCode := ((s.entering id item).leaving id item).ctx.backwardCode.push id } } =
        ({ s.entering id item with ctx := { (s.entering id item).ctx with
          backwardCode := (s.entering id item).ctx.backwardCode.push id } } : Session).leaving id item := by
      simp [leaving, htr]
    exact heq ▸ .follow hi htr hk ho hl hT htt hlink hadds hdone (leaving_order ..)
  | again htr ht hc =>
    refine .again hi htr ht ?_ (leaving_borders hc)
    rw [leaving, if_pos htr]
    exact (entering_adds _ _ s id item).trans (Session.Changes.adds hc)
  | close hk =>
    have htr : item.translated = false := htr (by cases hik : item.kind <;> simp_all [isFunctionEnd, ItemKind.isTarget])
    have hw : (s.entering id item).Adds (· = id) False (s.entering id item) := .refl _
    obtain ⟨hadds, hdone⟩ := finishing_adds hi htr hw
    exact .close hi htr hk hadds hdone (leaving_order ..)
  | remove htr hr =>
    obtain ⟨l, hl⟩ := hr.1.2.2
    obtain ⟨R, Y, hc, rfl⟩ := removeUntilTarget_clears hi
      (isTarget_iff.mpr ⟨l, roleAt_of_get? hi ▸ hl⟩) htr hr.2.2
    exact .clear hr.2.1 hr.1 hc

theorem reconcile_adds (ha : assignState q.state (u.resolving q rest) = .ok () v)
    (hd : doJump q.jump (v.atCursor (u.items.prev? q.jump)) = .ok () w) : u.Adds fin cut w.resolved := by
  have hstart : u.Adds fin cut (u.resolving q rest) := .quiet rfl rfl rfl rfl rfl rfl .inl ⟨rfl, rfl, .refl _, prefix_refl _⟩
  have hend : w.Adds fin cut w.resolved := .quiet rfl rfl rfl rfl rfl rfl .inl ⟨rfl, rfl, .refl _, prefix_refl _⟩
  have hjump : Changes _ (fun _ => True) cut _ w := doJump_changes trivial hd
  exact hstart.trans (.trans (.of_extends (assignState_extending _ _ _ ha))
    (.trans (.atCursor _ _) (hjump.adds.trans hend)))

end Build

theorem Session.Clears.outlying {id : ItemId} (hc : u.Clears id R Y u') (hd : ¬ u.Done id)
    (hdoom : u.Doomed id)
    (hb : u.Blocks n stop) (ho : u.Outlying n stop) : u'.Outlying n stop := by
  intro x l hx hr
  rw [hc.roles] at hr
  have hbefore := ho hx hr
  obtain ⟨f, hclose⟩ := hb.closes
  obtain ⟨l', hid⟩ : ∃ l, u.roleAt id = .binds l := hdoom.2.2
  obtain ⟨X, hX, hX'⟩ := hc.order
  -- a new label is translated, so it is not the one that is taken out, and the removal ends at it
  have hmem : ∀ y ∈ u.items.order, y ≠ id → (u.roleAt y).stays = true → y ∈ u'.items.order := fun y hy hne hst => by
    rw [hX] at hy
    rw [hX']
    simp only [mem_append, mem_cons] at hy ⊢
    rcases hy with hy | hy | hy | hy
    · exact .inl hy
    · exact absurd hy hne
    · rw [hc.inner y hy] at hst
      cases hst
    · exact .inr hy
  refine (hc.edits hb.toLinear).before_of_mem hb.toLinear hbefore (hmem stop (hbefore.subset (by simp)) ?_ ?_)
    (hmem x (hbefore.subset (by simp)) ?_ ?_)
  · rintro rfl
    cases hclose ▸ hid
  · rw [hclose]
    rfl
  · rintro rfl
    obtain ⟨item, hi⟩ := get?_of_lt_size (lt_size_of_roleAt (by rw [hr]; simp))
    refine hd ⟨item, hi, hb.targets hx hi (isTarget_iff.mpr ⟨l, ?_⟩)⟩
    rw [← roleAt_of_get? hi, hr]
  · rw [hr]
    rfl

namespace Session.Passage
variable {id : ItemId}

section
variable (h : Passage id u next u')
include h

theorem done_self : u'.Done id := by
  cases h with
  | onward _ _ _ hd | follow _ _ _ _ _ _ _ _ _ hd | close _ _ _ _ hd => exact hd
  | again hi hd _ h => exact h.done ⟨_, hi, hd⟩
  | clear _ _ hc => exact hc.done.mpr (.inr rfl)

theorem proceeds : u.Proceeds (· = id) u' := by
  cases h with
  | onward _ _ h | close _ _ _ h => exact h.proceeds
  | follow _ _ _ _ _ _ _ _ h =>
    exact ⟨h.done, h.undone, h.outlying, h.returns, h.continues.trans ⟨rfl, rfl, .refl _, prefix_refl _⟩⟩
  | again _ _ _ h => exact { h.proceeds with undone := fun hlt hx => (h.undone hlt hx).imp_right False.elim }
  | clear hd hu hc => exact ⟨fun hx => hc.done.mpr (.inl hx), fun _ => hc.done.mp, hc.outlying hd hu, hc.returns,
      hc.continues⟩

end

end Session.Passage

namespace Moment
variable {m : Moment}

theorem Sound.mem_of_item {id : ItemId} (h : Sound t f record stop body ⟨.walk (some id), u⟩)
    (hr : translateItem id u = .ok next u') : id ∈ record.item :: (body ++ [stop]) := by
  obtain ⟨hmid, hin | ⟨hid, -⟩⟩ := h
  · obtain ⟨item, w, hi, ht, hk, -⟩ := translateItem_ok hr
    rcases hin id rfl with hid | rfl | hnew
    · simp [hid]
    · simp
    · exact absurd hk (hmid.not_generated hnew hi ht)
  · simp [some.inj hid]

theorem Advances.proceeds (ha : m.Advances m') :
    m.session.Proceeds (fun x => m.task = .walk (some x)) m'.session := by
  cases ha with
  | item h =>
    have hp := (translateItem_passage h).proceeds
    exact { hp with undone := fun hlt hx => (hp.undone hlt hx).imp_right fun h => by rw [h] }
  | resume hj hr =>
    obtain ⟨rfl, -⟩ := resumeBehind_ok hr
    exact ⟨id, fun _ => .inl, fun _ h => h, id, ⟨rfl, rfl, .refl _, prefix_refl _⟩⟩
  | finish hj => exact ⟨id, fun _ => .inl, fun _ h => h, id, .refl _⟩
  | @reconcile u _ w _ _ ha hd => exact (reconcile_adds ha hd : u.Adds _ False w.resolved).proceeds

end Moment

namespace Session
variable {start : ItemId}

theorem Visits.returns (hv : t.Visits start m) (hx : m.session.ReturnsAt x) : t.ReturnsAt x := by
  induction hv with
  | refl => exact hx
  | tail hv ha ih => exact ih (ha.proceeds.returns hx)

section
variable (h : s.Ready f record stop body) (hp : prepareFunction f record stop p s = .ok () t)
include h hp

theorem Ready.blocks : t.Blocks t.items.size stop := by
  have hstop : stop ∈ s.items.order := by
    obtain ⟨A, C, ho⟩ := h.order
    rw [ho]
    simp
  rw [show t.items.size = s.items.size from (h.walked hp).order.2]
  exact prepareFunction_blocks hp ⟨h.nodup, h.made⟩ hstop (roleAt_of_get? h.closes)

theorem Ready.position : t.ctx.backwardPos ≤ t.ctx.backwardCode.size := by
  rw [show t.ctx.backwardPos = 0 from (congrArg backwardPos (h.walked hp).ctx :)]
  exact Nat.zero_le _

end

theorem Visits.outlying (hv : t.Visits start m) (hb : t.Blocks t.items.size stop) :
    m.session.Outlying t.items.size stop := by
  induction hv with
  | refl =>
    intro x l hx hr
    have hnone : t.activated.roleAt x = .inner := roleAt_of_size_le hx
    cases hnone ▸ hr
  | tail hv ha ih =>
    have hb' := (Visits.lays hv).blocks hb
    exact @fun _ _ => ha.proceeds.outlying hb' ih

theorem Visits.continues (hv : t.Visits start m) : t.activated.Continues m.session := by
  induction hv with
  | refl => exact .refl _
  | tail hv ha ih => exact ih.trans ha.proceeds.continues

end Session

end Codegen
