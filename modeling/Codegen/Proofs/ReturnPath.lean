import Codegen.Proofs.Coverage
import Codegen.Proofs.FrameOnce

/-! What runs between a return and the exit of its function. A return that jumps leads to the exit at once. Otherwise
control falls through to the exit, and on the way it only meets code that was added for what stands there. -/
namespace Codegen
open List Build ItemSeq Option Opcode
variable {item : Item} {stop : ItemId} {t u : Session}

/-- Control passes the item: there is no code for it, or it is code that came later. -/
def ItemKind.Smooth (later : Prop) (kind : ItemKind) : Prop :=
  kind.isTransparent = true ∨ later ∧ ∃ i, kind = .instruction i ∧ i.opcode.passesOn = true

theorem ItemKind.Turns.smooth {k k' : ItemKind} {later : Prop} (h : k.Turns m n k') (hs : k.Smooth later) :
    k'.Smooth later := by
  cases h with
  | same => exact hs
  | settles h => cases h <;> simp_all [Smooth, isTransparent]
  | detours | binds => simp_all [Smooth, isTransparent]

namespace Session
variable {s s' : Session} {id : ItemId} {gone : ItemId → Prop} {cut : Prop}

/-- From the item `x` control falls through to `e`. The items that came later have numbers from `n` on. -/
structure Falls (n : Nat) (x e : ItemId) (s : Session) : Prop where
  before : [x, e].Sublist s.items.order
  smooth : ∀ {y item}, [x, y].Sublist s.items.order → [y, e].Sublist s.items.order → s.items.get? y = some item →
    item.kind.Smooth (n ≤ y.index)

section
variable (h : Falls n x e s)
  (hl : s.items.Linear)
  (hed : s.items.Edits gone s'.items)
  (hx : x ∈ s'.items.order)
  (he : e ∈ s'.items.order)
include h hl hed hx he

theorem Falls.of_edits (hk : ∀ {y item'}, [y, e].Sublist s'.items.order → s'.items.get? y = some item' →
      (∃ item, s.items.get? y = some item ∧ (item.kind.Smooth (n ≤ y.index) → item'.kind.Smooth (n ≤ y.index))) ∨
        item'.kind.Smooth (n ≤ y.index)) : Falls n x e s' := by
  refine ⟨hed.before_of_mem hl h.before hx he, fun {y item'} hxy hye hi' => ?_⟩
  rcases hk hye hi' with ⟨item, hi, hs⟩ | hs
  · have hlt := lt_size_of_get? hi
    have hmade := fun z hz => hl.made z (h.before.subset hz)
    exact hs (h.smooth (hed.before (hmade x (by simp)) hlt hxy) (hed.before hlt (hmade e (by simp)) hye) hi)
  · exact hs

theorem Falls.of_same
    (hk : ∀ {y item'}, s'.items.get? y = some item' → ∃ item, s.items.get? y = some item ∧ item'.kind = item.kind) :
    Falls n x e s' := by
  refine h.of_edits hl hed hx he fun _ hi' => .inl ?_
  obtain ⟨item, hi, hkind⟩ := hk hi'
  exact ⟨item, hi, fun hs => hkind ▸ hs⟩

end

theorem Change.smooth_new (h : s.Change id T cut s') (hb : s.Blocks n stop) (hnew : s.items.size ≤ y.index)
    (hy : [y, stop].Sublist s'.items.order) (hi : s'.items.get? y = some item) : item.kind.Smooth (n ≤ y.index) := by
  have hadds : s.Adds (fun _ => False) cut s' := h.adds
  cases h with
  | emit hg hP =>
    obtain ⟨code, hcode, hc⟩ := hg.code
    obtain ⟨-, i, hmem, hk⟩ := get?_generateAll_new hnew (hc ▸ hi)
    refine .inr ⟨hb.size.trans hnew, _, hk, ?_⟩
    rcases hP i (hcode i hmem) with he | ⟨l, -, rfl⟩
    · exact he.opcode
    · rfl
  | note hs =>
    rw [hs] at hi
    exact absurd (lt_size_of_get? hi) (not_lt.mpr hnew)
  | settle =>
    have hlt := lt_size_of_get? hi
    simp only [withKind, ItemSeq.modify, size, Array.size_modify] at hlt
    exact absurd hlt (not_lt.mpr hnew)
  | @detour v D j extra _ he hj hv =>
    obtain ⟨X, Y, N, ho, hstop, (ho' : ((v.detour id j extra).atCursor s.items.cursor).items.order = _)⟩ :=
      hb.order_detour he hv
    have hn := (hadds.adds hb.toLinear).linear.nodup
    have hord := ho'.trans (show X ++ extra :: (N ++ Y) = X ++ [extra] ++ (N ++ Y) by simp)
    have hmem : y ∈ X ++ [extra] ++ (N ++ Y) := hord ▸ hy.subset mem_cons_self
    rw [hord] at hn hy
    refine absurd hy (not_before hn ((singleton_sublist.mpr hstop).append (singleton_sublist.mpr ?_)))
    refine (mem_append.mp hmem).resolve_left fun hX => not_lt.mpr hnew (hb.made y ?_)
    rw [ho]
    simp only [mem_append, mem_cons, not_mem_nil, or_false] at hX ⊢
    tauto

theorem Changes.falls (h : s.Changes id T cut s') (hb : s.Blocks n stop) (he : [e, stop].Sublist s.items.order)
    (hf : Falls n x e s) : Falls n x e s' := by
  refine And.right (a := s'.Blocks n stop ∧ [e, stop].Sublist s'.items.order) ?_
  induction h with
  | refl => exact ⟨⟨hb, he⟩, hf⟩
  | @tail u w _ h ih =>
    obtain ⟨⟨hb, he⟩, hf⟩ := ih
    have hadds : u.Adds (fun _ => False) cut w := h.adds
    have hed := hadds.adds hb.toLinear
    have hlink : ∀ z ∈ u.items.order, z ∈ w.items.order := fun z hz => hed.linked z hz fun h => h
    have he' := hed.before_of_mem hb.toLinear he (hlink _ (he.subset (by simp))) (hlink _ (he.subset (by simp)))
    refine ⟨⟨hadds.blocks hb, he'⟩, hf.of_edits hb.toLinear hed (hlink _ (hf.before.subset (by simp)))
      (hlink _ (hf.before.subset (by simp))) fun {y item'} hye hi' => ?_⟩
    rcases h.items hi' with ⟨item, hi, hturn, -⟩ | ⟨hnew, -⟩
    · exact .inl ⟨item, hi, hturn.smooth⟩
    · exact .inr (h.smooth_new hb hnew (before_trans hed.linear.nodup hye he') hi')

theorem falls_of_fallsThroughTo (hl : s.items.Linear) (hx : x ∈ s.items.order)
    (h : s.items.fallsThroughTo e (s.items.suffixFrom x).tail = true) : Falls n x e s := by
  have hsplit : ∀ {l : List ItemId}, s.items.fallsThroughTo e l = true → ∃ M Y, l = M ++ e :: Y ∧
      ∀ y ∈ M, ∃ item, s.items.get? y = some item ∧ item.kind.isTransparent = true := fun {l} h => by
    induction l with
    | nil => cases h
    | cons y l ih =>
      rw [fallsThroughTo] at h
      split at h
      · exact ⟨[], l, by simp_all, by simp⟩
      split at h
      · obtain ⟨htr, h⟩ := Bool.and_eq_true _ _ ▸ h
        obtain ⟨M, Y, rfl, hM⟩ := ih h
        exact ⟨y :: M, Y, rfl, forall_mem_cons.mpr ⟨⟨_, by assumption, htr⟩, hM⟩⟩
      · cases h
  obtain ⟨P, Q, ho, hP⟩ := eq_append_cons_of_mem hx
  rw [suffixFrom_eq ho hP] at h
  obtain ⟨M, Y, rfl, hM⟩ := hsplit h
  have hn := hl.nodup
  rw [ho] at hn
  refine ⟨ho ▸ (before_iff hn).mpr (by simp), fun {y item} hxy hye hi => .inl ?_⟩
  obtain ⟨item', hi', htr⟩ := hM y ((mem_between hn).mpr (ho ▸ ⟨hxy, hye⟩))
  cases hi ▸ hi'
  exact htr

theorem kind_of_returns (hi : s.items.get? x = some item) (hr : s.roleAt x = .returns g) :
    ∃ r, item.kind = .ret r := by
  rw [roleAt_of_get? hi] at hr
  cases hk : item.kind with
  | ret r => exact ⟨r, rfl⟩
  | _ =>
    rw [hk] at hr
    cases hr

theorem Falls.leaving (h : Falls n x e s) (hl : s.items.Linear) : Falls n x e (s.leaving id item) := by
  have hed := (leaving_adds False s id item).adds hl
  have hlink : ∀ y ∈ s.items.order, y ∈ (s.leaving id item).items.order := fun y hy => hed.linked y hy fun h => h
  refine h.of_same hl hed (hlink x (h.before.subset (by simp))) (hlink e (h.before.subset (by simp)))
    fun {y item'} hi' => ?_
  by_cases hy : y = id
  · subst hy
    have hk := s.leaving_kind y item
    rw [hi'] at hk
    obtain ⟨item0, hi, hk⟩ := map_eq_some_iff.mp hk.symm
    exact ⟨item0, hi, hk.symm⟩
  · exact ⟨item', s.leaving_get? id item hy ▸ hi', rfl⟩

end Session

namespace Build
open Session
variable {id : ItemId} {next : Option ItemId}

/-- Translating another item leaves a return as it is, and keeps the way to the exit. -/
theorem translateItem_elsewhere (h : translateItem id u = .ok next u') (hl : u.Labelled) (hb : u.Blocks n stop)
    (he : [e, stop].Sublist u.items.order) (hne : x ≠ id) (hx : x.index < u.items.size) (hlx : x ∈ u'.items.order)
    (hle : e ∈ u'.items.order) (hi : u'.items.get? x = some item) (hk : item.kind = .ret r) :
    (∃ item0, u.items.get? x = some item0 ∧ item0.kind = .ret r ∧ item0.translated = item.translated) ∧
      (Falls n x e u → Falls n x e u') := by
  obtain ⟨item1, w, hi1, -, hcourse, -, rfl⟩ := translateItem_course h
  have hbe : (u.entering id item1).Blocks n stop := (entering_adds (fun _ => False) False u id item1).blocks hb
  rw [leaving_order] at hlx hle
  rw [leaving_get? _ _ _ hne] at hi
  suffices hw : (∃ item0, u.items.get? x = some item0 ∧ item0.kind = .ret r ∧ item0.translated = item.translated) ∧
      w.items.Linear ∧ (Falls n x e u → Falls n x e w) from ⟨hw.1, fun hf => (hw.2.2 hf).leaving hw.2.1⟩
  have hchanges : ∀ {cut : Prop}, (u.entering id item1).Changes id (u.Concerns id) cut w → (∃ item0, u.items.get? x =
      some item0 ∧ item0.kind = .ret r ∧ item0.translated = item.translated) ∧ w.items.Linear ∧
        (Falls n x e u → Falls n x e w) := fun {cut} hc => by
    have hadds : (u.entering id item1).Adds (fun _ => False) cut w := Changes.adds hc
    have hT : ¬ u.Concerns id x := by
      rintro (rfl | ⟨_, j, -, -, hlabel⟩)
      · exact hne rfl
      have hw : w.roleAt x = u.roleAt x := hadds.kept hx
      rw [hl.targets.mp hlabel, roleAt_of_get? hi, hk] at hw
      cases hw
    exact ⟨⟨item, Changes.get?_of_lt hc hx hT ▸ hi, hk, rfl⟩, (hadds.adds hbe.toLinear).linear,
      fun hf => Changes.falls hc hbe he ⟨hf.before, hf.smooth⟩⟩
  cases hcourse with
  | onward hc | again _ _ hc => exact hchanges hc
  | follow | close => exact ⟨⟨item, hi, hk, rfl⟩, hbe.toLinear, fun hf => ⟨hf.before, hf.smooth⟩⟩
  | remove htr hr =>
    obtain ⟨-, hsame⟩ := removeUntilTarget_same hr.2.2
    obtain ⟨item0, hi0, hk0, htr0⟩ := hsame hi
    obtain ⟨l, hl⟩ := hr.1.2.2
    have hlays : (u.entering id item1).Lays (· = id) w := removeUntilTarget_lays rfl hi1
      (ItemKind.isTarget_iff.mpr ⟨l, roleAt_of_get? hi1 ▸ hl⟩) htr hr.2.2
    have hed := hlays.edits hbe.toLinear
    refine ⟨⟨item0, hi0, hk0 ▸ hk, htr0.symm⟩, hed.linear, fun hf => ?_⟩
    refine Falls.of_same (s := u.entering id item1) ⟨hf.before, hf.smooth⟩ hbe.toLinear hed hlx hle fun hi' => ?_
    obtain ⟨item', hi', hk', -⟩ := hsame hi'
    exact ⟨item', hi', hk'⟩

/-- A return that is not left by a jump falls through to the exit. -/
theorem translateItem_returns {item' : Item} (h : translateItem x u = .ok next u')
    (hi : u.items.get? x = some item) (hk : item.kind = .ret r) (hb : u.Blocks n stop) (hx : x ∈ u.items.order)
    (hexit : ∀ record, u.functions[r.function.index]? = some record → u.labels[record.exitLabel.index]? = some e)
    (he : [e, stop].Sublist u.items.order) (hi' : u'.items.get? x = some item') (hk' : item'.kind = .ret r')
    (hj : r'.emitJump = false) : Falls n x e u' := by
  obtain ⟨item1, w, hi1, -, hkind, rfl⟩ := translateItem_ok h
  cases hi ▸ hi1
  simp only [translateKind, hk] at hkind
  obtain ⟨t, record, exit, hvals, hr, hl, -, hend⟩ := translateReturn_settles hkind
  have hlt := lt_size_of_get? hi
  have hit : t.items.get? x = some item := (hvals.toGains.get?_of_lt hlt).trans hi
  have hadds : u.Adds (fun _ => False) False t := (entering_adds _ _ u x item).trans (.of_extends hvals)
  have hed := hadds.adds hb.toLinear
  have hlink : ∀ y ∈ u.items.order, y ∈ t.items.order := fun y hy => hed.linked y hy id
  obtain rfl : exit = e := by
    have hlabel := hexit record (by rw [← hr, hvals.rest]; rfl)
    rw [hvals.rest] at hl
    exact some.inj (hl ▸ hlabel)
  have hthrough : t.items.fallsThroughTo exit (t.items.suffixFrom x).tail = true := by
    have hw := Changes.get?_of_lt (hend fun _ => False)
      (by simpa [withKind, ItemSeq.modify, size] using lt_size_of_get? hit) id
    have hkw := w.leaving_kind x item
    rw [hi', hw, withKind, get?_modify_self, hit, map_some, hk'] at hkw
    cases hkw
    simpa using hj
  have hchanges : t.Changes x (fun _ => True) True w := by
    refine .head ?_ (hend _)
    exact .settle trivial hit (hk ▸ .ret)
  have haddw : t.Adds (fun _ => False) True w := Changes.adds hchanges
  have hbt := hadds.blocks hb
  refine (Changes.falls hchanges hbt ?_ (falls_of_fallsThroughTo hbt.toLinear (hlink x hx) hthrough)).leaving
    (haddw.adds hbt.toLinear).linear
  exact hed.before_of_mem hb.toLinear he (hlink _ (he.subset (by simp))) (hlink _ (he.subset (by simp)))

/-- A jump that was left is reconciled, which leaves a return as it is, and keeps the way to the exit. -/
theorem reconcile_elsewhere (ha : assignState q.state (u.resolving q rest) = .ok () v)
    (hd : doJump q.jump (v.atCursor (u.items.prev? q.jump)) = .ok () w) (hb : u.Blocks n stop)
    (he : [e, stop].Sublist u.items.order) (hx : x.index < u.items.size) (hr : u.roleAt x = .returns g) :
    w.items.get? x = u.items.get? x ∧ (Falls n x e u → Falls n x e w.resolved) := by
  have hext := assignState_extending _ _ _ ha
  have hstart : u.Adds (fun _ => False) False (u.resolving q rest) :=
    .quiet rfl rfl rfl rfl rfl rfl .inl ⟨rfl, rfl, .refl _, prefix_refl _⟩
  have hv : u.Adds (fun _ => False) False v := hstart.trans (.of_extends hext)
  have hget : v.items.get? x = u.items.get? x := hext.toGains.get?_of_lt hx
  have hjump : (v.atCursor (u.items.prev? q.jump)).Changes q.jump (· = q.jump) False w := doJump_changes rfl hd
  constructor
  · refine (Changes.get?_of_lt hjump (hx.trans_le hv.size) ?_).trans hget
    rintro rfl
    obtain ⟨j, -, -, -, hj, -⟩ := doJump_ok hd
    obtain ⟨item, hi, hk⟩ := jump?_eq_some.mp hj
    obtain ⟨r, hk'⟩ := kind_of_returns (hget ▸ hi) hr
    cases hk ▸ hk'
  · intro hf
    have hed := hv.adds hb.toLinear
    have hev := hed.before_of_mem hb.toLinear he (hed.linked _ (he.subset (by simp)) id)
      (hed.linked _ (he.subset (by simp)) id)
    have hassign : (u.resolving q rest).Changes q.jump (fun _ => True) False v := .of_extends hext
    have hfv := Changes.falls hassign (hstart.blocks hb) he ⟨hf.before, hf.smooth⟩
    have hfw := Changes.falls hjump ((hv.trans (.atCursor v (u.items.prev? q.jump))).blocks hb) hev
      ⟨hfv.before, hfv.smooth⟩
    exact ⟨hfw.before, hfw.smooth⟩

end Build

namespace Session
variable {record : FunctionRecord} {body : List ItemId}

section
variable (hv : t.Visits record.item m) (hl : t.activated.Launch f record stop body)
include hv hl

theorem Visits.exit_of_return (hx : x ∈ body)
    (hexit : t.labels[record.exitLabel.index]? = some e) (hi : m.session.items.get? x = some item)
    (hk : item.kind = .ret r) (record' : FunctionRecord) (hr : m.session.functions[r.function.index]? = some record') :
    m.session.labels[record'.exitLabel.index]? = some e := by
  obtain ⟨kind, item0, hi0, -, hprep, hin, -⟩ := hl.inside x hx
  have hrole := (Visits.lays hv).kept (lt_size_of_get? hi0)
  rw [roleAt_of_get? hi, show t.roleAt x = item0.kind.role from roleAt_of_get? hi0, hprep.role_eq, hk] at hrole
  have hcont := Visits.continues hv
  cases kind with
  | ret r0 =>
    rw [show r.function = f from (Role.returns.inj hrole).trans hin, (congrArg functions hcont.rest :)] at hr
    cases hl.known ▸ hr
    exact (hcont.labels_eq (Array.getElem?_eq_some_iff.mp hexit).1).trans hexit
  | _ => cases hrole

/-- A return that is translated and is not left by a jump falls through to the exit. -/
theorem Visits.falls (hlab : t.Labelled) (hb : t.Blocks t.items.size stop) (hx : x ∈ body)
    (he : e ∈ body) (hexit : t.labels[record.exitLabel.index]? = some e)
    (hi : m.session.items.get? x = some item) (hd : item.translated = true) (hk : item.kind = .ret r)
    (hj : r.emitJump = false)
    (hlx : x ∈ m.session.items.order) (hle : e ∈ m.session.items.order) : Falls t.items.size x e m.session := by
  induction hv generalizing item with
  | refl =>
    obtain ⟨-, item0, hi0, htr, -⟩ := hl.inside x hx
    cases hi0 ▸ hi
    cases htr ▸ hd
  | @tail m m' hv ha ih =>
    have hlays := Visits.lays hv
    have hbm := hlays.blocks hb
    have hold : ∀ y ∈ body, y.index < m.session.items.size := fun y hy =>
      (hl.made y (by simp [hy])).trans_le hlays.size
    have hed := ha.lays.edits hbm.toLinear
    have hlx' := hed.mem_order (hold x hx) hlx
    have hle' := hed.mem_order (hold e he) hle
    have hahead := (Visits.sound hv hl).midway.ahead (.tail _ he) hle'
    have hrole : m.session.roleAt x = .returns r.function := by
      rw [← ha.lays.kept (hold x hx), roleAt_of_get? hi, hk]
      rfl
    cases ha with
    | @item u u' id next h =>
      by_cases hne : x = id
      · subst hne
        obtain ⟨item0, hi0⟩ := get?_of_lt_size (hold x hx)
        obtain ⟨r0, hk0⟩ := kind_of_returns hi0 hrole
        exact translateItem_returns h hi0 hk0 hbm hlx' (Visits.exit_of_return hv hl hx hexit hi0 hk0)
          hahead hi hk hj
      · obtain ⟨⟨item0, hi0, hk0, htr⟩, hkeep⟩ :=
          translateItem_elsewhere h (hlays.labelled hlab) hbm hahead hne (hold x hx) hlx hle hi hk
        exact hkeep (ih hi0 (htr.trans hd) hk0 hlx' hle')
    | resume hj hr =>
      obtain ⟨rfl, -⟩ := resumeBehind_ok hr
      have hf := ih hi hd hk hlx' hle'
      exact ⟨hf.before, hf.smooth⟩
    | finish => exact ih hi hd hk hlx' hle'
    | @reconcile u v w q rest ha hd' =>
      obtain ⟨hget, hkeep⟩ := reconcile_elsewhere ha hd' hbm hahead (hold x hx) hrole
      exact hkeep (ih (hget ▸ hi) hd hk hlx' hle')

end

end Session

namespace Given
variable {code : List Given}

/-- Control can come from the place `k` to the place `j` before it gets to `e`. -/
def Runs (code : List Given) (k e j : Nat) : Prop :=
  j ≠ e ∧ Relation.ReflTransGen (fun a b => a ≠ e ∧ Follows code a b) k j

/-- Control goes on to the next place, and to no other. -/
def PassesOn : Given → Prop
  | .instruction op _ => op.passesOn = true
  | .label _ => True

theorem PassesOn.follows_iff (h : g.PassesOn) (hg : code[k]? = some g) : Follows code k j ↔ j = k + 1 := by
  cases g with
  | label l => simp [Follows, hg]
  | instruction op operands =>
    have hj : op.isJump = false := by cases op <;> first | rfl | cases h
    obtain ⟨h1, h2, -⟩ := passesOn_iff.mp h
    simp [Follows, hg, hj, h1, h2]

theorem runs_writes_iff (hM : ∀ g ∈ M, g.PassesOn) :
    (∃ j g, Runs (A ++ M ++ B) A.length (A.length + M.length) j ∧ (A ++ M ++ B)[j]? = some g ∧ g.Writes q) ↔
      ∃ g ∈ M, g.Writes q := by
  have hget : ∀ {i}, i < M.length → (A ++ M ++ B)[A.length + i]? = M[i]? := fun {i} hi => by
    rw [append_assoc, getElem?_append_right (Nat.le_add_right _ _), Nat.add_sub_cancel_left, getElem?_append_left hi]
  have hstep : ∀ {i}, i < M.length → ∀ {j}, Follows (A ++ M ++ B) (A.length + i) j ↔ j = A.length + i + 1 :=
    fun {i} hi {j} => (hM _ (getElem_mem hi)).follows_iff ((hget hi).trans (getElem?_eq_getElem hi))
  constructor
  · rintro ⟨j, g, ⟨hne, hrun⟩, hg, hw⟩
    have hj : ∃ i ≤ M.length, j = A.length + i := by
      clear hg hne
      induction hrun with
      | refl => exact ⟨0, Nat.zero_le _, rfl⟩
      | tail _ h ih =>
        obtain ⟨i, hi, rfl⟩ := ih
        have hi' : i < M.length := by have := h.1; omega
        exact ⟨i + 1, hi', (hstep hi').mp h.2⟩
    obtain ⟨i, hi, rfl⟩ := hj
    rw [hget (by omega)] at hg
    exact ⟨g, mem_of_getElem? hg, hw⟩
  · rintro ⟨g, hg, hw⟩
    obtain ⟨i, hi, rfl⟩ := mem_iff_getElem.mp hg
    refine ⟨A.length + i, _, ⟨by omega, ?_⟩, (hget hi).trans (getElem?_eq_getElem hi), hw⟩
    clear hg hw
    induction i with
    | zero => exact .refl
    | succ i ih => exact (ih (by omega)).tail ⟨by omega, (hstep (by omega)).mpr rfl⟩

theorem not_runs_of_jump (hk : code[k]? = some (.instruction .jmp [.label l]))
    (hl : ∀ j, code[j]? = some (.label l) → j = e) : ¬ ∃ j g, Runs code k e j ∧ code[j]? = some g ∧ g.Writes q := by
  rintro ⟨j, g, ⟨hne, hrun⟩, hg, hw⟩
  rcases Relation.ReflTransGen.cases_head hrun with rfl | ⟨i, ⟨-, hi⟩, hrun⟩
  · cases hk ▸ hg
    simp [Writes, implicitWrites, writtenOperands] at hw
  obtain rfl : i = e := hl i (by simpa [Follows, hk, isJump, Operand.label?] using hi)
  rcases Relation.ReflTransGen.cases_head hrun with rfl | ⟨_, ⟨hno, -⟩, -⟩
  · exact hne rfl
  · exact hno rfl

end Given

namespace Session
variable {record : FunctionRecord} {last exit : ItemId} {body : List ItemId}
variable {frame : FrameLayout}

/-- In the lowered function, a return that is not left by a jump falls through to the exit. -/
theorem Ready.lowered_falls (h : u.Ready f record stop body) (hlab : u.Labelled) (hclosed : u.Closed body)
    (hp : u.Prepared f record stop v) (hl : lowerFunction f u = .ok (record.item, last, frame) t) (hx : x ∈ body)
    (he : exit ∈ body) (hexit : u.labels[record.exitLabel.index]? = some exit) (hi : t.items.get? x = some item)
    (hk : item.kind = .ret r) (hj : r.emitJump = false) (hlx : x ∈ t.items.order) (hle : exit ∈ t.items.order) :
    Falls u.items.size x exit t := by
  obtain ⟨q, w, a, b, hw, ha, hb, hbind, entry, exit', P, E, -, hexit', hframed, hold⟩ :=
    lowerFunction_framed hlab hp hl
  obtain ⟨p, -, hv⟩ := hp.prepared
  obtain ⟨hitems, i, rfl, -⟩ := layOutFrame_ok ha
  have hlaunch := h.launch hv hclosed
  have hprep : u.Retains (fun _ => False) v := prepareFunction_retains hv
  have hvlab := hprep.labelled hlab
  have hrest : w.Lays (fun _ => False) t :=
    (layOutFrame_lays ha).trans ((insertFrameCode_lays hb).trans (bindAll_lays hbind))
  have hwlin : w.items.Linear := ((translateAll_lays hw).edits hvlab.toLinear).linear
  obtain ⟨z, hz, rfl⟩ := translateAll_visits hw
  have hed := hrest.edits hwlin
  have hget : ∀ {y : ItemId}, y.index < z.items.size → b.items.get? y = z.items.get? y := fun hy => by
    rw [insertFrameCode_get?_of_lt hb (by rw [hitems]; exact hy), hitems]
  have hsize : ∀ y ∈ body, y.index < z.items.size := fun y hy =>
    (hlaunch.made y (by simp [hy])).trans_le (Visits.lays hz).size
  have hf : Falls u.items.size x exit z := by
    obtain ⟨item0, hi0, hk0 | ⟨_, _, -, hk0⟩⟩ := bindAll_kind hbind hi
    · rw [hget (hsize x hx)] at hi0
      rw [← show v.items.size = u.items.size from (h.walked hv).order.2]
      have hlinked := hed.mem_order (hsize x hx) hlx
      obtain ⟨_, hi1, htr⟩ := hz.done hlaunch (h.blocks hv) (h.position hv) hx hlinked
      cases hi0 ▸ hi1
      exact hz.falls hlaunch hvlab (h.blocks hv) hx he (hprep.label hlab hexit) hi0 htr (hk0 ▸ hk)
        hj hlinked (hed.mem_order (hsize exit he) hle)
    · cases hk ▸ hk0
  have hfw : Falls u.items.size x exit { z with ctx := { z.ctx with active := false } } := ⟨hf.before, hf.smooth⟩
  refine hfw.of_edits hwlin hed hlx hle fun {y item'} hye hi' => ?_
  by_cases hy : y.index < z.items.size
  · obtain ⟨item0, hi0, hk0⟩ := bindAll_kind hbind hi'
    refine .inl ⟨item0, hget hy ▸ hi0, fun hs => ?_⟩
    rcases hk0 with hk0 | ⟨i0, operands, hk0, hk'⟩
    · rwa [hk0]
    · rw [hk0] at hs
      simpa [hk', ItemKind.Smooth, ItemKind.isTransparent] using hs
  -- what came with the frame stands behind the entry or behind the exit
  have hymem : y ∈ t.items.order := hye.subset mem_cons_self
  have hnew : u.items.size ≤ y.index := by
    have hzle : v.items.size ≤ z.items.size := (Visits.lays hz).size
    rw [show v.items.size = u.items.size from (h.walked hv).order.2] at hzle
    exact hzle.trans (not_lt.mp hy)
  by_cases hP : y ∈ P
  · rcases hframed.prologue.kind_cases hP hi' with ⟨text, hk'⟩ | ⟨c, hc, hk'⟩
    · exact .inr (.inl (by rw [hk']; rfl))
    obtain ⟨op, operands, hg, hop⟩ := i.prologue_passed c hc
    cases hg
    exact .inr (.inr ⟨hnew, _, hk', passesOn_of_not_controlFlow hop⟩)
  have hE : y ∈ E := by
    by_contra hE
    exact hy (hold y hymem hP hE).1
  have hret := lowerFunction_retains hp hl
  cases hexit'.symm.trans (hret.label hlab hexit)
  obtain ⟨-, X, Y, ho⟩ := hframed.epilogue hle
  refine absurd hye (not_before hed.linear.nodup ?_)
  rw [ho]
  exact (before_iff (ho ▸ hed.linear.nodup)).mpr (mem_append_left _ hE)

theorem smooth_codeAt {later : Prop} (hi : t.items.get? y = some item)
    (hs : item.kind.Smooth later) (hg : g ∈ t.codeAt y) : g.PassesOn ∧ (g.Writes q → later) := by
  rw [codeAt_of_get? hi] at hg
  rcases hs with htr | ⟨hl, i, hk, hop⟩
  · cases hk : item.kind with
    | target r =>
      rw [hk] at hg
      cases mem_singleton.mp hg
      exact ⟨trivial, fun hw => hw.elim⟩
    | comment | hint | align =>
      rw [hk] at hg
      cases hg
    | _ =>
      rw [hk] at htr
      cases htr
  · rw [hk] at hg
    cases mem_singleton.mp hg
    exact ⟨hop, fun _ => hl⟩

section Range
variable {range : List ItemId}

theorem not_overwritten_of_jump (hlab : t.Labelled) (hn : range.Nodup) (hl : t.labels[l.index]? = some exit)
    (hx : t.codeAt x = [.instruction .jmp [.label l]]) (hA : range = A ++ x :: B) (hA' : range = A' ++ exit :: B') :
    ¬ ∃ j g, Given.Runs (range.flatMap t.codeAt) (A.flatMap t.codeAt).length (A'.flatMap t.codeAt).length j ∧
      (range.flatMap t.codeAt)[j]? = some g ∧ g.Writes q := by
  refine Given.not_runs_of_jump (l := l) (by simp [hA, hx]) fun j hj => ?_
  have hcode : range.flatMap t.codeAt = A'.flatMap t.codeAt ++ .label l :: B'.flatMap t.codeAt := by
    simp [hA', Delivery.codeAt_of_binds (hlab.targets.mp hl)]
  have hout : ∀ y ∈ A' ++ B', .label l ∉ t.codeAt y := fun y hy hmem => by
    cases hl ▸ hlab.targets.mpr (Delivery.binds_of_codeAt hmem)
    rw [hA'] at hn
    exact (nodup_cons.mp (nodup_middle.mp hn)).1 hy
  rw [hcode] at hj
  rcases Given.getElem?_cases hj with ⟨-, hm⟩ | ⟨hk, -⟩ | ⟨-, hm⟩
  · obtain ⟨y, hy, hm⟩ := mem_flatMap.mp hm
    exact absurd hm (hout y (mem_append_left _ hy))
  · exact hk
  · obtain ⟨y, hy, hm⟩ := mem_flatMap.mp (mem_of_getElem? hm)
    exact absurd hm (hout y (mem_append_right _ hy))

/-- On the way to the exit, control passes all that stands there. -/
theorem Falls.overwritten_iff (hf : Falls n x exit t) (hn : t.items.order.Nodup) (hrange : range <:+: t.items.order)
    (hx : t.codeAt x = []) (hxr : x ∈ range) (her : exit ∈ range) :
    ∃ A B A' B', range = A ++ x :: B ∧ range = A' ++ exit :: B' ∧
      ∀ q, (∃ j g, Given.Runs (range.flatMap t.codeAt) (A.flatMap t.codeAt).length (A'.flatMap t.codeAt).length j ∧
          (range.flatMap t.codeAt)[j]? = some g ∧ g.Writes q) ↔
        ∃ y, [x, y].Sublist range ∧ [y, exit].Sublist range ∧ n ≤ y.index ∧ ∃ g ∈ t.codeAt y, g.Writes q := by
  have hn' := hn.sublist hrange.sublist
  have hbefore : [x, exit].Sublist range := by
    have hne : x ≠ exit := fun h => by simpa [h] using hn.sublist hf.before
    exact (before_or hxr her hne).resolve_right fun h =>
      not_before hn hf.before (h.trans hrange.sublist)
  obtain ⟨A, B, rfl⟩ := append_of_mem hxr
  obtain ⟨M, B', rfl⟩ := append_of_mem ((before_iff hn').mp hbefore)
  have hM : ∀ y ∈ M, ∀ g ∈ t.codeAt y, ∀ q, g.PassesOn ∧ (g.Writes q → n ≤ y.index) := fun y hy g hg q => by
    obtain ⟨hxy, hye⟩ := (mem_between hn').mp hy
    cases hi : t.items.get? y with
    | none => simp [codeAt, hi] at hg
    | some item => exact smooth_codeAt hi (hf.smooth (hxy.trans hrange.sublist) (hye.trans hrange.sublist) hi) hg
  refine ⟨A, _, A ++ x :: M, B', rfl, by simp, fun q => ?_⟩
  have hcode : (A ++ x :: (M ++ exit :: B')).flatMap t.codeAt =
      A.flatMap t.codeAt ++ M.flatMap t.codeAt ++ (exit :: B').flatMap t.codeAt := by simp [hx]
  have hlen : ((A ++ x :: M).flatMap t.codeAt).length = (A.flatMap t.codeAt).length + (M.flatMap t.codeAt).length := by
    simp [hx]
  rw [hcode, hlen, Given.runs_writes_iff fun g hg => ?_]
  · constructor
    · rintro ⟨g, hg, hw⟩
      obtain ⟨y, hy, hg⟩ := mem_flatMap.mp hg
      obtain ⟨hxy, hye⟩ := (mem_between hn').mp hy
      exact ⟨y, hxy, hye, (hM y hy g hg q).2 hw, g, hg, hw⟩
    · rintro ⟨y, hxy, hye, -, g, hg, hw⟩
      exact ⟨g, mem_flatMap.mpr ⟨y, (mem_between hn').mpr ⟨hxy, hye⟩, hg⟩, hw⟩
  · obtain ⟨y, hy, hg⟩ := mem_flatMap.mp hg
    exact (hM y hy g hg q).1

end Range

theorem Ready.returned (h : u.Ready f record stop body) (hret : u.Retains gone t) (hx : x ∈ body)
    (hi : t.items.get? x = some item) (hk : item.kind = .ret r) :
    ∃ record', t.functions[r.function.index]? = some record' ∧ record'.exitLabel = record.exitLabel := by
  obtain ⟨kind, hi0, hin, -⟩ := h.inside x hx
  have hrole := hret.kept (lt_size_of_get? hi0)
  rw [roleAt_of_get? hi, roleAt_of_get? hi0, hk] at hrole
  have hmap := congrArg (·[f.index]?) hret.functions
  simp only [Array.getElem?_map, h.function, map_some] at hmap
  obtain ⟨record', hr, hbare⟩ := map_eq_some_iff.mp hmap
  cases kind with
  | ret r0 =>
    rw [show r.function = f from (Role.returns.inj hrole).trans hin]
    exact ⟨record', hr, (congrArg FunctionRecord.exitLabel hbare :)⟩
  | _ => cases hrole

/-- What runs between the moves of a return and the exit, and so the epilogue. A return that jumps leads there at once.
Otherwise a register is written on the way exactly if code writes it that was added between the return and the exit. -/
theorem return_overwritten_iff {ε : Type} [Encoder ε] [Encoder.Shows ε] {c c' : Compilation ε}
    (h : c.session.Ready f record stop body) (hlab : c.session.Labelled) (hclosed : c.session.Closed body)
    (he : exit ∈ body) (hexit : c.session.labels[record.exitLabel.index]? = some exit)
    (hc : Compile.compileFunction f c = .ok last c') :
    ∃ t frame range code, Build.lowerFunction f c.session = .ok (record.item, last, frame) t ∧
      range = t.items.range record.item last ∧ code = range.flatMap t.codeAt ∧
      Encoder.Gives Encoder.Shows.given code c.encoder c'.encoder ∧
      ∀ x ∈ body, ∀ item r, t.items.get? x = some item → item.kind = .ret r → x ∈ range → exit ∈ range →
        ∃ A B A' B', range = A ++ x :: B ∧ range = A' ++ exit :: B' ∧
          ∀ q, (∃ j g, Given.Runs code (A.flatMap t.codeAt).length (A'.flatMap t.codeAt).length j ∧
              code[j]? = some g ∧ g.Writes q) ↔
            r.emitJump = false ∧ ∃ y, [x, y].Sublist range ∧ [y, exit].Sublist range ∧
              c.session.items.size ≤ y.index ∧ ∃ g ∈ t.codeAt y, g.Writes q := by
  obtain ⟨frame, v, t, -, hp, hl, hgives⟩ := h.compiled hc
  refine ⟨t, frame, _, _, hl, rfl, rfl, hgives, fun x hx item r hi hk hxr her => ?_⟩
  have hret := Build.lowerFunction_retains hp hl
  have htlab := hret.labelled hlab
  have hlies : ∃ A D B C, t.items.Lies c.session.items.size record.item stop last A D B C := by
    by_cases hs : record.item ∈ t.items.order
    · obtain ⟨A, D, B, C, hlies, -⟩ := h.lowered_lies hp hl hs
      exact ⟨A, D, B, C, hlies⟩
    · cases List.mem_singleton.mp (ItemSeq.range_of_not_mem hs hxr)
      obtain ⟨A, C, ho⟩ := h.order
      have hn := h.nodup
      rw [ho] at hn
      exact absurd (List.mem_append_left _ hx) (List.nodup_cons.mp (List.nodup_append.mp hn).2.1).1
  obtain ⟨A₀, D₀, B₀, C₀, hlies⟩ := hlies
  have hwithin : t.items.range record.item last <:+: t.items.order :=
    ⟨A₀, C₀, by rw [hlies.order, hlies.range, List.append_assoc]⟩
  by_cases hj : r.emitJump = true
  · obtain ⟨A, B, hA⟩ := List.append_of_mem hxr
    obtain ⟨A', B', hA'⟩ := List.append_of_mem her
    refine ⟨A, B, A', B', hA, hA', fun q => iff_of_false ?_ fun h => by simp [hj] at h⟩
    have hrole := hlab.targets.mp hexit
    have hlabel := htlab.targets.mpr ((hret.kept (lt_size_of_roleAt (by rw [hrole]; simp))).trans hrole)
    refine not_overwritten_of_jump htlab (htlab.nodup.sublist hwithin.sublist) hlabel ?_ hA hA'
    obtain ⟨record', hr, hbare⟩ := h.returned hret hx hi hk
    simp [codeAt_of_get? hi, hk, codeOf, hj, hr, hbare]
  · obtain ⟨A, B, A', B', hA, hA', hiff⟩ := (h.lowered_falls hlab hclosed hp hl hx he hexit hi hk (by simpa using hj)
      (hwithin.subset hxr) (hwithin.subset her)).overwritten_iff htlab.nodup hwithin
      (by simp [codeAt_of_get? hi, hk, codeOf, hj]) hxr her
    exact ⟨A, B, A', B', hA, hA', fun q => (hiff q).trans (by simp [hj])⟩

end Session

namespace Builder

/-- One argument is returned, and behind the return the other one is put into a register. -/
def allocatesBehind (r : Reg) : List Call :=
  [.newFunction [.gpq, .gpq] [.gpq] {}, .ret [.var ⟨⟨0⟩, 8⟩], .hint ⟨⟨1⟩, 8⟩ .alloc (some r), .endFunction]

end Builder

namespace Session

/-- An argument that is put into another register leaves the result alone. -/
theorem return_overwritten_iff_elsewhere : ∃ (q : Compiled) (body : List ItemId) (t : Session) (frame : FrameLayout)
    (code : List Given) (k e : Nat), q.before.session.Ready ⟨0⟩ q.record q.stop body ∧ q.before.session.Closed body ∧
    Build.lowerFunction ⟨0⟩ q.before.session = .ok (q.record.item, q.last, frame) t ∧
    code = (t.items.range q.record.item q.last).flatMap t.codeAt ∧
    (∃ j g, Given.Runs code k e j ∧ code[j]? = some g ∧ g.Writes ⟨.gp, 1⟩) ∧
    ¬ ∃ j g, Given.Runs code k e j ∧ code[j]? = some g ∧ g.Writes ⟨.gp, 0⟩ := by
  obtain ⟨q, hq, hd⟩ := Option.any_eq_true _ _ |>.mp
    (show (Builder.compileFirst (Builder.allocatesBehind ⟨.gp, 1⟩)).any (fun q =>
      q.before.session.Closed (q.before.session.items.range q.record.item q.stop).tail.dropLast ∧
      q.before.session.labels[q.record.exitLabel.index]? = some ⟨1⟩ ∧
      ⟨3⟩ ∈ (q.before.session.items.range q.record.item q.stop).tail.dropLast ∧
      (match Build.lowerFunction ⟨0⟩ q.before.session with
      | .error _ _ => false
      | .ok (_, last, _) t =>
        let range := t.items.range q.record.item last
        decide (((t.items.get? ⟨3⟩).map Item.kind = some (.ret ⟨⟨0⟩, [.var ⟨⟨0⟩, 8⟩], false⟩) ∧ ⟨3⟩ ∈ range ∧
            ⟨1⟩ ∈ range) ∧
        ([⟨3⟩, ⟨7⟩].Sublist range ∧ [⟨7⟩, ⟨1⟩].Sublist range ∧ q.before.session.items.size ≤ 7 ∧
          ∃ g ∈ t.codeAt ⟨7⟩, g.Writes ⟨.gp, 1⟩) ∧
        ∀ y ∈ range, [y, ⟨1⟩].Sublist range → q.before.session.items.size ≤ y.index → [⟨3⟩, y].Sublist range →
          ∀ g ∈ t.codeAt y, ¬ g.Writes ⟨.gp, 0⟩)) = true) = true by decide +kernel)
  obtain ⟨hclosed, hlabel, hx, hd⟩ := of_decide_eq_true hd
  obtain ⟨hp, hr, hstop, -, hc⟩ := Builder.compileFirst_ok hq
  obtain ⟨hlab, body, hready, hent⟩ := Builder.program_enters hp (by decide) hr hstop
  obtain ⟨exit, hexit, hexit'⟩ := hent.exit
  cases hexit'.symm.trans hlabel
  rw [hready.range_eq] at hclosed hx
  obtain ⟨t, frame, _, _, hl, rfl, rfl, -, hreturn⟩ :=
    return_overwritten_iff hready hlab (by simpa using hclosed) hexit hexit' hc
  rw [hl] at hd
  obtain ⟨⟨hk, hxr, her⟩, ⟨hxy, hye, hnew, hg⟩, hnot⟩ := of_decide_eq_true hd
  obtain ⟨item, hi, hk⟩ := Option.map_eq_some_iff.mp hk
  obtain ⟨A, B, A', B', -, -, hiff⟩ := hreturn ⟨3⟩ (by simpa using hx) item _ hi hk hxr her
  refine ⟨q, body, t, frame, _, _, _, hready, by simpa using hclosed, hl, rfl,
    (hiff _).mpr ⟨rfl, ⟨7⟩, hxy, hye, hnew, hg⟩, ?_⟩
  rw [hiff]
  rintro ⟨-, y, hxy, hye, hnew, g, hg, hw⟩
  exact hnot y (hxy.subset (by simp)) hye hnew hxy g hg hw

/-- An argument that is put into the register of the result replaces it: the code behind the move of the result, which
is right in front of the exit, writes that register. -/
theorem returned_value_overwritten : ∃ q : Compiled, Builder.compileFirst (Builder.allocatesBehind ⟨.gp, 0⟩) = some q ∧
    (Recorder.given q.after.encoder)[3]? = some (.instruction .mov [.gpq Gp.rax, .gpq Gp.rdi]) ∧
    (Recorder.given q.after.encoder)[4]? = some (.instruction .mov [.gpq Gp.rax, .gpq Gp.rsi]) ∧
    (Recorder.given q.after.encoder)[5]? = some (.label q.record.exitLabel) ∧
    Given.Follows (Recorder.given q.after.encoder) 3 4 ∧ Given.Runs (Recorder.given q.after.encoder) 4 5 4 := by
  obtain ⟨q, hq, hd⟩ := Option.any_eq_true _ _ |>.mp
    (show (Builder.compileFirst (Builder.allocatesBehind ⟨.gp, 0⟩)).any (fun q =>
      let code := Recorder.given q.after.encoder
      code[3]? = some (.instruction .mov [.gpq Gp.rax, .gpq Gp.rdi]) ∧
      code[4]? = some (.instruction .mov [.gpq Gp.rax, .gpq Gp.rsi]) ∧
      code[5]? = some (.label q.record.exitLabel) ∧ Given.Follows code 3 4) = true by decide +kernel)
  obtain ⟨h₃, h₄, h₅, hf⟩ := of_decide_eq_true hd
  exact ⟨q, hq, h₃, h₄, h₅, hf, by decide, .refl⟩

end Session

end Codegen
