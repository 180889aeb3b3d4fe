import Codegen.Proofs.Contour
import Codegen.Proofs.Lowered

/-! The labels that are marked when a whole program has been handed over, and the functions whose exits are among
them. -/
namespace Codegen
open List Build ItemSeq Option Session Builder Instruction Compile Encoder
variable {frame : FrameLayout} {f : FunctionId} {record : FunctionRecord} {last stop : ItemId}
variable {s u : Session}
open Relation

namespace ItemSeq
variable {q : ItemSeq} {start : ItemId}

/-- The items of a lowered function: what is left of it, and the blocks behind it. -/
structure Lies (n : Nat) (start stop last : ItemId) (q : ItemSeq) (A D B C : List ItemId) : Prop where
  order : q.order = A ++ (start :: (D ++ stop :: B) ++ C)
  range : q.range start last = start :: (D ++ stop :: B)
  last : (stop :: B).getLast? = some last
  blocks : ∀ x ∈ B, n ≤ x.index

theorem Trails.tail_eq (h : Trails n stop last q.order) (hq : q.Linear) :
    ∃ A B, q.order = A ++ (stop :: B) ++ (q.suffixFrom last).tail ∧ (stop :: B).getLast? = some last ∧
      ∀ x ∈ B, n ≤ x.index := by
  obtain ⟨A, B, C, ho, hlast, hB⟩ := h
  obtain ⟨B', hB'⟩ := getLast?_eq_some_iff.mp hlast
  have ho' : q.order = (A ++ B') ++ last :: C := by
    rw [ho, ← cons_append, hB']
    simp
  have hnot : last ∉ A ++ B' := by
    have hn := hq.nodup
    rw [ho'] at hn
    exact fun hm => (nodup_append.mp hn).2.2 _ hm _ mem_cons_self rfl
  refine ⟨A, B, ?_, hlast, hB⟩
  rw [suffixFrom_eq ho' hnot, tail_cons, ho]
  simp

theorem Trails.lies (h : Trails n stop last q.order) (hq : q.Linear) (hs : [start, stop].Sublist q.order) :
    ∃ A D B, q.Lies n start stop last A D B (q.suffixFrom last).tail := by
  obtain ⟨A, B, ho, hlast, hB⟩ := h.tail_eq hq
  have ho' : q.order = A ++ stop :: (B ++ (q.suffixFrom last).tail) := by simpa using ho
  have hn := hq.nodup
  -- The end is behind the first item, so the first item is in front of the blocks.
  have hstart : start ∈ A := by
    have hmem : start ∈ q.order := hs.subset (by simp)
    rw [ho'] at hmem hn hs
    rcases mem_append.mp hmem with hA | hrest
    · exact hA
    rcases mem_cons.mp hrest with rfl | hrest
    · simpa using hn.sublist hs
    · exact absurd hs (not_before hn ((before_iff hn).mpr hrest))
  obtain ⟨A₁, D, rfl⟩ := append_of_mem hstart
  have ho2 : q.order = A₁ ++ (start :: (D ++ stop :: B) ++ (q.suffixFrom last).tail) := by simpa using ho
  refine ⟨A₁, D, B, ho2, range_eq ho2 hq.nodup rfl ?_, hlast, hB⟩
  rw [← cons_append, getLast?_append, hlast]
  rfl

theorem Lies.mem_iff (h : q.Lies n start stop last A D B C) (hq : q.Linear) :
    x ∈ D ↔ [start, x].Sublist q.order ∧ [x, stop].Sublist q.order := by
  have hn := hq.nodup
  have ho : q.order = A ++ start :: (D ++ stop :: (B ++ C)) := by simpa using h.order
  rw [ho] at hn ⊢
  exact mem_between hn

theorem Lies.last_not_mem (h : q.Lies n start stop last A D B C) (hq : q.Linear) : last ∉ D := by
  intro hD
  have hn := hq.nodup
  rw [h.order] at hn
  have hn' := (nodup_append.mp (nodup_append.mp hn).2.1).1
  exact (nodup_append.mp (nodup_cons.mp hn').2).2.2 _ hD _ (mem_of_getLast? h.last) rfl

end ItemSeq

namespace Session

/-- The item is a target, if it is one of the program's. -/
def Target (s : Session) (x : ItemId) : Prop := x.index < s.items.size → ∃ l, s.roleAt x = .binds l

theorem Retains.record_bare (hu : s.Retains gone u) (hr : u.functions[f.index]? = some record) :
    ∃ r, s.functions[f.index]? = some r ∧ r.bare = record.bare := by
  have hmap := congrArg (·[f.index]?) hu.functions
  simp only [Array.getElem?_map, hr, map_some] at hmap
  exact map_eq_some_iff.mp hmap.symm

theorem Retains.function (hu : s.Retains s.Target u) (hb : s.WellBuilt) (hc : s.Contoured)
    (hr : u.functions[f.index]? = some record) (hs : record.stop = some stop) :
    u.Labelled ∧ u.roleAt stop = .closes f ∧ stop ∈ u.items.order ∧
      ∃ exit, u.labels[record.exitLabel.index]? = some exit ∧ [record.item, exit, stop].Sublist s.items.order := by
  obtain ⟨r, hr', hbare⟩ := hu.record_bare hr
  have hitem : r.item = record.item := (congrArg FunctionRecord.item hbare :)
  have hstop : r.stop = some stop := (congrArg FunctionRecord.stop hbare :).trans hs
  have hlabel : r.exitLabel = record.exitLabel := (congrArg FunctionRecord.exitLabel hbare :)
  have hlab := hc.labelled hb
  obtain ⟨exit, hexit, hsub⟩ := hc.exits hr' hstop
  obtain ⟨-, A, body, -, hm⟩ := hb.shape hr'
  simp only [hstop] at hm
  have hclose : s.roleAt stop = .closes f := roleAt_of_get? hm.1
  have hlt := lt_size_of_get? hm.1
  refine ⟨hu.labelled hlab, (hu.kept hlt).trans hclose, ?_, exit, ?_, hitem ▸ hsub⟩
  · refine (hu.edits hlab.toLinear).linked stop (hsub.subset (by simp)) fun hg => ?_
    obtain ⟨l, hl⟩ := hg (by rw [hclose]; rfl) hlt
    cases hclose ▸ hl
  · rw [← hlabel]
    exact hu.label hlab hexit

theorem Retains.lower (hu : s.Retains s.Target u)
    (hp : u.Prepared f record stop v) (h : lowerFunction f u = .ok (start, last, frame) t) :
    s.Retains s.Target t := by
  refine hu.trans ((lowerFunction_retains hp h).mono fun x ⟨w, hw, _, _, l, hl⟩ hx => ⟨l, ?_⟩)
  obtain ⟨_, -, hv⟩ := hp.prepared
  have hprep : u.Retains (fun _ => False) v := prepareFunction_retains hv
  have hxu := hx.trans_le hu.size
  have hxv := hxu.trans_le hprep.size
  rw [← hu.kept hx, ← hprep.kept hxu, ← hw.lays.kept hxv, hl]

end Session

namespace Compile
open Encoder (Shows isLabelMarked)
variable [Encoder ε] [Shows ε] {c' : Compilation ε}

theorem opens?_eq_some : opens? s x = some f ↔ s.roleAt x = .opens f := by
  unfold opens? roleAt
  cases s.items.get? x with
  | none => simp
  | some item =>
    obtain ⟨kind, _, _, _⟩ := item
    cases kind <;> simp [ItemKind.role]

theorem compileFunction_lowers (h : compileFunction f c = .ok last c') :
    ∃ record stop frame v t, c.session.Prepared f record stop v ∧
      lowerFunction f c.session = .ok (record.item, last, frame) t ∧
      c'.session.items = t.items ∧ t.Retains (fun _ => False) c'.session ∧
      Encoder.Gives Shows.given ((t.items.range record.item last).flatMap t.codeAt) c.encoder c'.encoder ∧
      ∀ x ∈ t.items.range record.item last, ∀ item, t.items.get? x = some item → ∀ l ∈ labelsOf item.kind,
        isLabelMarked c'.encoder l = true := by
  obtain ⟨start, frame, t, ht, ⟨stats, hs⟩, hgives, hmarked⟩ := compileFunction_ok h
  obtain ⟨record, stop, v, hp⟩ := exists_prepared ht
  obtain ⟨rfl, -⟩ := lowerFunction_ok hp ht
  refine ⟨record, stop, frame, v, t, hp, ht, by rw [hs], .quiet (by rw [hs]) ?_ (by rw [hs]), hgives, hmarked⟩
  rw [hs]
  refine Array.ext_getElem? fun i => ?_
  simp only [Array.getElem?_map, Array.getElem?_modify]
  split
  · rw [Option.map_map]
    rfl
  · rfl

end Compile

namespace Delivery
open Encoder (Shows isLabelMarked)
variable [Encoder ε] {m : Delivery ε} {c : Compilation ε} {rest : List ItemId}

/-- What holds at every stage while the program `s` is handed over. A target that was handed over stands in front of
all that is left. -/
structure Sound (s : Session) (m : Delivery ε) : Prop where
  retains : s.Retains s.Target m.state.session
  rest : ∃ done, m.state.session.items.order = done ++ m.rest
  marked : ∀ {l}, isLabelMarked m.state.encoder l = true → ∃ y, m.state.session.roleAt y = .binds l ∧
    (y.index < s.items.size → ∀ z ∈ m.rest, z.index < s.items.size → [y, z].Sublist s.items.order)

theorem binds_of_codeAt (h : .label l ∈ u.codeAt y) : u.roleAt y = .binds l := by
  cases hi : u.items.get? y with
  | none => simp [codeAt, hi] at h
  | some item =>
    rw [codeAt_of_get? hi] at h
    rw [roleAt_of_get? hi]
    cases hk : item.kind with
    | target t =>
      rw [hk] at h
      cases mem_singleton.mp h
      rfl
    | ret r =>
      simp only [hk, codeOf] at h
      split at h <;> simp at h
    | _ => simp [hk, codeOf, given] at h

theorem codeAt_of_binds (h : u.roleAt y = .binds l) : u.codeAt y = [.label l] := by
  obtain ⟨item, hi⟩ := get?_of_lt_size (lt_size_of_binds h)
  rw [codeAt_of_get? hi]
  rw [roleAt_of_get? hi] at h
  cases hk : item.kind with
  | target t =>
    rw [hk] at h
    cases h
    rfl
  | _ =>
    rw [hk] at h
    cases h

section Function

theorem Sound.item_eq (h : Sound s ⟨x :: rest, c⟩) (hc : s.Contoured) (ho : opens? c.session x = some f)
    (hr : c.session.functions[f.index]? = some record) : x.index < s.items.size ∧ record.item = x := by
  have hrole := opens?_eq_some.mp ho
  have hlt : x.index < s.items.size := by
    by_contra hx
    rcases h.retains.fresh (not_lt.mp hx) with hi | ⟨l, hi⟩ <;> cases hrole ▸ hi
  obtain ⟨r, hr', rfl⟩ := hc.opened (h.retains.kept hlt ▸ hrole)
  obtain ⟨r2, hr2, hbare⟩ := h.retains.record_bare hr
  cases hr' ▸ hr2
  exact ⟨hlt, (congrArg FunctionRecord.item hbare.symm :)⟩

section
variable (h : Sound s ⟨x :: rest, c⟩) (hb : s.WellBuilt) (hc : s.Contoured) (ho : opens? c.session x = some f)
include h hb hc ho

theorem Sound.before (hr : c.session.functions[f.index]? = some record)
    (hs : record.stop = some stop) : [x, stop].Sublist c.session.items.order := by
  obtain ⟨-, -, hstop, exit, -, hsub⟩ := h.retains.function hb hc hr hs
  obtain ⟨done, hdone⟩ := h.rest
  have hx : x ∈ c.session.items.order := by
    rw [hdone]
    simp
  have hlin := (hc.labelled hb).toLinear
  have hsub' : [record.item, stop].Sublist s.items.order :=
    (((nil_sublist [exit]).append (.refl [stop])).cons_cons record.item).trans hsub
  rw [(h.item_eq hc ho hr).2] at hsub'
  exact (h.retains.edits hlin).before_of_mem hlin hsub' hx hstop

section
variable (hp : c.session.Prepared f record stop v) (ht : lowerFunction f c.session = .ok (x, last, frame) t)
include hp ht

theorem Sound.range_cases : t.items.range x last ⊆ [x] ∨
      ∃ A D B, t.items.Lies c.session.items.size x stop last A D B (t.items.suffixFrom last).tail := by
  obtain ⟨hlab, hclose, hstop, -⟩ := h.retains.function hb hc hp.function hp.closed
  have hret := lowerFunction_retains hp ht
  have hedits := hret.edits hlab.toLinear
  have htr := lowerFunction_trails hp ht hlab.toLinear hstop hclose
  by_cases hx : x ∈ t.items.order
  · refine .inr (htr.lies hedits.linear (hedits.before_of_mem hlab.toLinear ?_ hx ?_))
    · exact h.before hb hc ho hp.function hp.closed
    obtain ⟨A, B, C, hord, -⟩ := htr
    rw [hord]
    simp
  · exact .inl (range_of_not_mem hx)

theorem Sound.lies (hy : y ∈ t.items.range x last) (hne : t.roleAt y ≠ .opens f) :
    ∃ A D B, t.items.Lies c.session.items.size x stop last A D B (t.items.suffixFrom last).tail := by
  refine (h.range_cases hb hc ho hp ht).resolve_left fun hrange => hne ?_
  cases mem_singleton.mp (hrange hy)
  have hrole := opens?_eq_some.mp ho
  exact ((lowerFunction_retains hp ht).kept (lt_size_of_roleAt (by rw [hrole]; simp))).trans hrole

end

end

end Function

variable [Shows ε]

section
variable (h : Sound s ⟨x :: rest, c⟩) (hb : s.WellBuilt) (hc : s.Contoured)
include h hb hc

theorem Sound.item (he : emitItem x c = .ok () c') : Sound s ⟨rest, c'⟩ := by
  have hh := emitItem_hands he
  obtain ⟨stats, hs⟩ := hh.session
  have hret : s.Retains s.Target c'.session := h.retains.trans (.quiet (by rw [hs]) (by rw [hs]) (by rw [hs]))
  have hroles : c'.session.roleAt = c.session.roleAt := by
    rw [hs]
    rfl
  obtain ⟨done, hdone⟩ := h.rest
  have hlab := hc.labelled hb
  refine ⟨hret, ⟨done ++ [x], by rw [hs]; simpa using hdone⟩, fun {l} hl => ?_⟩
  simp only [hroles]
  rcases (hh.gives.marked l).mp hl with hl | hl
  · obtain ⟨y, hy, hfront⟩ := h.marked hl
    exact ⟨y, hy, fun hlt z hz => hfront hlt z (mem_cons_of_mem _ hz)⟩
  refine ⟨x, binds_of_codeAt hl, fun hlt z hz hz' => (h.retains.edits hlab.toLinear).before hlt hz' ?_⟩
  have hn := (h.retains.labelled hlab).nodup
  rw [hdone] at hn ⊢
  exact (before_iff hn).mpr hz

theorem Sound.function (ho : opens? c.session x = some f) (hcomp : compileFunction f c = .ok last c') :
    Sound s ⟨(c'.session.items.suffixFrom last).tail, c'⟩ := by
  obtain ⟨record, stop, frame, v, t, hp, ht, hitems, hq, hgives, -⟩ := compileFunction_lowers hcomp
  obtain ⟨-, rfl⟩ := h.item_eq hc ho hp.function
  obtain ⟨hlab, hclose, hstop, -⟩ := h.retains.function hb hc hp.function hp.closed
  have hret := lowerFunction_retains hp ht
  have hedits := hret.edits hlab.toLinear
  have hlow := h.retains.lower hp ht
  have hroles : c'.session.roleAt = t.roleAt := by
    funext y
    rw [roleAt, roleAt, hitems]
  obtain ⟨A, B, hord, -⟩ := (lowerFunction_trails hp ht hlab.toLinear hstop hclose).tail_eq hedits.linear
  have hord' : t.items.order = A ++ stop :: (B ++ (t.items.suffixFrom last).tail) := by simpa using hord
  refine ⟨hlow.trans (hq.mono fun _ => False.elim), ⟨A ++ stop :: B, by simpa only [hitems] using hord⟩, fun {l} hl => ?_⟩
  simp only [hroles, hitems]
  rcases (hgives.marked l).mp hl with hl | hl
  · obtain ⟨y, hy, hfront⟩ := h.marked hl
    refine ⟨y, hret.binds hy, fun hlt z hz hz' => ?_⟩
    refine hfront hlt z (mem_cons_of_mem _ ?_) hz'
    -- What is left behind the blocks was behind the function before.
    have hsz : [stop, z].Sublist t.items.order := by
      have hn := hedits.linear.nodup
      rw [hord'] at hn ⊢
      exact (before_iff hn).mpr (mem_append_right _ hz)
    have hxz := before_trans hlab.nodup (h.before hb hc ho hp.function hp.closed)
      (hedits.before (hlab.made _ hstop) (hz'.trans_le h.retains.size) hsz)
    obtain ⟨done, hdone⟩ := h.rest
    have hn := hlab.nodup
    rw [hdone] at hxz hn
    exact (before_iff hn).mp hxz
  · obtain ⟨y, hy, hl⟩ := mem_flatMap.mp hl
    have hbinds := binds_of_codeAt hl
    refine ⟨y, hbinds, fun hlt z hz hz' => (hlow.edits (hc.labelled hb).toLinear).before hlt hz' ?_⟩
    obtain ⟨A, D, B, hlies⟩ := h.lies hb hc ho hp ht hy (by rw [hbinds]; simp)
    rw [hlies.range] at hy
    rw [hlies.order]
    exact ((singleton_sublist.mpr hy).append (singleton_sublist.mpr hz)).trans (sublist_append_right A _)

end

theorem Sound.advance (h : Sound s m) (hb : s.WellBuilt) (hc : s.Contoured) (ha : m.Advances m') : Sound s m' := by
  cases ha with
  | item ho he => exact h.item hb hc he
  | function ho hcomp => exact h.function hb hc ho hcomp

theorem Advances.gives (h : m.Advances m') : ∃ code, Gives Shows.given code m.state.encoder m'.state.encoder := by
  cases h with
  | item ho he => exact ⟨_, (emitItem_hands he).gives⟩
  | function ho hcomp =>
    obtain ⟨_, _, _, -, -, hgives, -⟩ := compileFunction_ok hcomp
    exact ⟨_, hgives⟩

theorem gives_of_run (h : ReflTransGen Advances m m') :
    ∃ code, Gives Shows.given code m.state.encoder m'.state.encoder := by
  induction h with
  | refl => exact ⟨[], .refl _⟩
  | tail _ ha ih =>
    obtain ⟨code, hcode⟩ := ih
    obtain ⟨code', hcode'⟩ := ha.gives
    exact ⟨code ++ code', hcode.trans hcode'⟩

/-- A label whose target is not linked any more is never marked. -/
structure Lost (l : LabelId) (e : ItemId) (m : Delivery ε) : Prop where
  role : m.state.session.roleAt e = .binds l
  unlinked : e ∉ m.state.session.items.order
  unmarked : isLabelMarked m.state.encoder l = false

section
variable (h : Lost l e m) (hm : Sound s m) (hb : s.WellBuilt) (hc : s.Contoured)
include h hm hb hc

theorem Lost.advance (ha : m.Advances m') : Lost l e m' := by
  have hlab := hm.retains.labelled (hc.labelled hb)
  have hlt := lt_size_of_binds h.role
  cases ha with
  | @item c c' x rest ho he =>
    have hh := emitItem_hands he
    obtain ⟨stats, hs⟩ := hh.session
    refine ⟨by rw [hs]; exact h.role, by rw [hs]; exact h.unlinked, Bool.eq_false_iff.mpr fun hl => ?_⟩
    rcases (hh.gives.marked l).mp hl with hl | hl
    · exact absurd hl (by simpa using h.unmarked)
    have hx := hlab.targets.mpr (binds_of_codeAt hl)
    cases hx ▸ hlab.targets.mpr h.role
    obtain ⟨done, hdone⟩ := hm.rest
    exact h.unlinked (by rw [hdone]; simp)
  | @function c c' x rest f last ho hcomp =>
    obtain ⟨record, stop, frame, v, t, hp, ht, hitems, hq, hgives, -⟩ := compileFunction_lowers hcomp
    obtain ⟨-, rfl⟩ := hm.item_eq hc ho hp.function
    have hret := lowerFunction_retains hp ht
    have hroles : c'.session.roleAt e = t.roleAt e := by
      rw [roleAt, roleAt, hitems]
    have hrole := hret.binds h.role
    have hout : e ∉ t.items.order := fun hmem => h.unlinked ((hret.edits hlab.toLinear).mem_order hlt hmem)
    refine ⟨hroles.trans hrole, by simpa only [hitems] using hout, Bool.eq_false_iff.mpr fun hl => ?_⟩
    rcases (hgives.marked l).mp hl with hl | hl
    · exact absurd hl (by simpa using h.unmarked)
    obtain ⟨y, hy, hl⟩ := mem_flatMap.mp hl
    have hbinds := binds_of_codeAt hl
    obtain ⟨A, D, B, hlies⟩ := hm.lies hb hc ho hp ht hy (by rw [hbinds]; simp)
    have htlab := hret.labelled hlab
    cases htlab.targets.mpr hbinds ▸ htlab.targets.mpr hrole
    rw [hlies.range] at hy
    exact hout (by rw [hlies.order]; exact mem_append_right _ (mem_append_left _ hy))

theorem Lost.run (hrun : ReflTransGen Advances m m') : Lost l e m' := by
  suffices Lost l e m' ∧ Sound s m' from this.1
  induction hrun with
  | refl => exact ⟨h, hm⟩
  | tail _ ha ih => exact ⟨ih.1.advance ih.2 hb hc ha, ih.2.advance hb hc ha⟩

end

end Delivery

namespace Compile
open Encoder (Shows isLabelMarked)
variable [Encoder ε] [Shows ε] {m : Delivery ε}

theorem Reaches.sound (h : Reaches s m) (hb : s.WellBuilt) (hc : s.Contoured) : Delivery.Sound s m := by
  obtain ⟨d, hd, hrun⟩ := h
  induction hrun with
  | refl =>
    have hh := defineLabels_hands hd
    obtain ⟨stats, hs⟩ := hh.session
    refine ⟨.quiet (by rw [hs]) (by rw [hs]) (by rw [hs]), ⟨[], by rw [hs]; rfl⟩, fun {l} hl => ?_⟩
    rcases (hh.gives.marked l).mp hl with hl | hl
    · rw [Shows.marked_fresh] at hl
      cases hl
    · cases hl
  | tail _ ha ih => exact ih.advance hb hc ha

theorem Reaches.marked_iff (h : Reaches s m) (l : LabelId) :
    isLabelMarked m.state.encoder l = true ↔ .label l ∈ Shows.given m.state.encoder := by
  obtain ⟨d, hd, hrun⟩ := h
  obtain ⟨code, hcode⟩ := Delivery.gives_of_run hrun
  have hall := (defineLabels_hands hd).gives.trans hcode
  rw [hall.marked, hall.given, Shows.given_fresh, Shows.marked_fresh]
  simp

end Compile

/-- While the program `s` is handed over, the function comes up in `u`. It is prepared as `v` and lowered to `t`, which
ends with the item `last`, and this is its frame. -/
structure Compile.Lowers (ε : Type) [Encoder ε] (s : Session) (f : FunctionId) (record : FunctionRecord)
    (stop last : ItemId) (frame : FrameLayout) (u v t : Session) : Prop where
  comes : ∃ rest, ∃ e : ε, Reaches s ⟨record.item :: rest, ⟨u, e⟩⟩
  opens : opens? u record.item = some f
  prepared : u.Prepared f record stop v
  lowered : lowerFunction f u = .ok (record.item, last, frame) t

namespace Session

/-- A return in the function is handed over as a jump to the exit. -/
def LeavesByJump (t : Session) (start last : ItemId) : Prop :=
  ∃ x ∈ t.items.range start last, ∃ item r, t.items.get? x = some item ∧ item.kind = .ret r ∧ r.emitJump = true

/-- The exit of the function is linked, and the walk over the function, prepared as `v`, does not take it out. -/
def KeepsExit (u v : Session) (record : FunctionRecord) : Prop :=
  ∃ exit, u.labels[record.exitLabel.index]? = some exit ∧ exit ∈ u.items.order ∧ ¬ v.Drops record.item exit

end Session

namespace Compile
open Encoder (Shows isLabelMarked)
variable [Encoder ε] [Shows ε] {c : Compilation ε} {m : Delivery ε}

/-- Each piece of code was handed over for an item outside the functions, or in a function. In a function, the labels
that the items refer to are marked by then. -/
theorem Reaches.handed (h : Reaches s m) (hb : s.WellBuilt) (hc : s.Contoured) (hg : g ∈ Shows.given m.state.encoder) :
    (∃ x rest, ∃ d : Compilation ε, Reaches s ⟨x :: rest, d⟩ ∧ opens? d.session x = none ∧ g ∈ d.session.codeAt x) ∨
    ∃ f record stop last frame u v t, Lowers ε s f record stop last frame u v t ∧
      ∃ x ∈ t.items.range record.item last, g ∈ t.codeAt x ∧ ∀ item, t.items.get? x = some item →
        ∀ l ∈ labelsOf item.kind, isLabelMarked m.state.encoder l = true := by
  obtain ⟨d, hd, hrun⟩ := h
  induction hrun with
  | refl =>
    rw [(defineLabels_hands hd).gives.given, Shows.given_fresh] at hg
    cases hg
  | @tail m1 m2 hm ha ih =>
    have hsound := Reaches.sound ⟨d, hd, hm⟩ hb hc
    obtain ⟨code, hcode⟩ := ha.gives
    by_cases hold : g ∈ Shows.given m1.state.encoder
    · rcases ih hold with hout | ⟨f, record, stop, last, frame, u, v, t, hl, x, hx, hgx, hmarked⟩
      · exact .inl hout
      · refine .inr ⟨f, record, stop, last, frame, u, v, t, hl, x, hx, hgx, fun item hi l hlab => ?_⟩
        exact (hcode.marked l).mpr (.inl (hmarked item hi l hlab))
    cases ha with
    | @item c0 c1 x rest ho he =>
      rw [(emitItem_hands he).gives.given, mem_append] at hg
      exact .inl ⟨x, rest, c0, ⟨d, hd, hm⟩, ho, hg.resolve_left hold⟩
    | @function c0 c1 x rest f last ho hcomp =>
      obtain ⟨record, stop, frame, v, t, hp, ht, -, -, hgives, hmarked⟩ := compileFunction_lowers hcomp
      obtain ⟨-, rfl⟩ := hsound.item_eq hc ho hp.function
      rw [hgives.given, mem_append] at hg
      obtain ⟨x, hx, hgx⟩ := mem_flatMap.mp (hg.resolve_left hold)
      exact .inr ⟨f, record, stop, last, frame, c0.session, v, t, ⟨⟨rest, c0.encoder, d, hd, hm⟩, ho, hp, ht⟩, x, hx,
        hgx, hmarked x hx⟩

section Function

theorem Lowers.gives (h : Lowers ε s f record stop last frame u v t) (he : Reaches s ⟨[], c⟩) :
    ∃ rest, ∃ c0 c1 : Compilation ε, c0.session = u ∧ Reaches s ⟨record.item :: rest, c0⟩ ∧
      Delivery.Advances ⟨record.item :: rest, c0⟩ ⟨(c1.session.items.suffixFrom last).tail, c1⟩ ∧
      c1.session.items = t.items ∧
      Gives Shows.given ((t.items.range record.item last).flatMap t.codeAt) c0.encoder c1.encoder ∧
      ReflTransGen Delivery.Advances ⟨(c1.session.items.suffixFrom last).tail, c1⟩ ⟨[], c⟩ := by
  obtain ⟨rest, e, hm⟩ := h.comes
  refine ⟨rest, ⟨u, e⟩, ?_⟩
  rcases (hm.leads he).cases_head with heq | ⟨m', ha, hrun⟩
  · cases heq
  have ha' := ha
  cases ha with
  | item ho _ => cases ho ▸ h.opens
  | @function _ c1 _ _ f' last' ho hcomp =>
    cases ho ▸ h.opens
    obtain ⟨record', stop', frame', v', t', hp, ht, hitems, -, hgives, -⟩ := compileFunction_lowers hcomp
    cases hp.function ▸ h.prepared.function
    cases ht ▸ h.lowered
    exact ⟨c1, rfl, hm, ha', hitems, hgives, hrun⟩

section
variable (h : Lowers ε s f record stop last frame u v t) (hb : s.WellBuilt) (hc : s.Contoured)
include h hb hc

/-- The returns that are handed over for a function are its own. -/
theorem Lowers.returns_own (hx : x ∈ t.items.range record.item last) (hrole : t.roleAt x = .returns g) : g = f := by
  obtain ⟨rest, e, hm⟩ := h.comes
  have hsound := hm.sound hb hc
  obtain ⟨A, D, B, hlies⟩ := hsound.lies hb hc h.opens h.prepared h.lowered hx (by rw [hrole]; simp)
  have hlow := hsound.retains.lower h.prepared h.lowered
  have hlin := (hc.labelled hb).toLinear
  have hedits := hlow.edits hlin
  have hlt : x.index < s.items.size := by
    by_contra hge
    rcases hlow.fresh (not_lt.mp hge) with hi | ⟨l, hi⟩ <;> cases hrole ▸ hi
  -- The return is between the first item of the function and its end, and was so in the program.
  obtain ⟨r, hr, hbare⟩ := hsound.retains.record_bare h.prepared.function
  have hitem : r.item = record.item := (congrArg FunctionRecord.item hbare :)
  have hstop : r.stop = some stop := (congrArg FunctionRecord.stop hbare :).trans h.prepared.closed
  obtain ⟨hopen, A', body, hin, hshape⟩ := hb.shape hr
  simp only [hstop] at hshape
  obtain ⟨hclose, C', ho⟩ := hshape
  rw [hitem] at hopen ho
  have hlt1 := lt_size_of_get? hopen
  have hlt2 := lt_size_of_get? hclose
  have hxD : x ∈ D := by
    rw [hlies.range] at hx
    rcases mem_cons.mp hx with rfl | hx
    · rw [hlow.kept hlt1, roleAt_of_get? hopen] at hrole
      cases hrole
    rcases mem_append.mp hx with hD | hx
    · exact hD
    rcases mem_cons.mp hx with rfl | hB
    · rw [hlow.kept hlt2, roleAt_of_get? hclose] at hrole
      cases hrole
    · exact absurd (hlt.trans_le hsound.retains.size) (not_lt.mpr (hlies.blocks x hB))
  obtain ⟨hfront, hbehind⟩ := (hlies.mem_iff hedits.linear).mp hxD
  have hbody : x ∈ body := by
    have hn := hlin.nodup
    have hfront' := hedits.before hlt1 hlt hfront
    have hbehind' := hedits.before hlt hlt2 hbehind
    rw [ho] at hn hfront' hbehind'
    exact (mem_between hn).mpr ⟨hfront', hbehind'⟩
  obtain ⟨kind, hi, hinside, -⟩ := hin x hbody
  rw [hlow.kept hlt, roleAt_of_get? hi] at hrole
  cases kind with
  | ret r' =>
    cases hrole
    exact hinside
  | _ => cases hrole

theorem Lowers.exitLabel_eq {item : Item} (hx : x ∈ t.items.range record.item last)
    (hi : t.items.get? x = some item)
    (hk : item.kind = .ret r) :
    ∃ record', t.functions[r.function.index]? = some record' ∧ record'.exitLabel = record.exitLabel := by
  have hown : r.function = f := h.returns_own hb hc hx (by rw [roleAt_of_get? hi, hk]; rfl)
  have hmap := congrArg (·[f.index]?) (lowerFunction_retains h.prepared h.lowered).functions
  simp only [Array.getElem?_map, h.prepared.function, map_some] at hmap
  obtain ⟨record', hr, hbare⟩ := map_eq_some_iff.mp hmap
  exact ⟨record', hown ▸ hr, (congrArg FunctionRecord.exitLabel hbare :)⟩

theorem Lowers.keepsExit_iff :
    ∃ exit, u.labels[record.exitLabel.index]? = some exit ∧ [record.item, exit, stop].Sublist s.items.order ∧
      (u.KeepsExit v record ↔ exit ∈ t.items.order) := by
  obtain ⟨rest, e, hm⟩ := h.comes
  obtain ⟨hlab, -, -, exit, hexit, hsub⟩ := (hm.sound hb hc).retains.function hb hc h.prepared.function h.prepared.closed
  refine ⟨exit, hexit, hsub, ?_⟩
  rw [mem_lowerFunction_iff h.prepared h.lowered hlab.toLinear (hlab.targets.mp hexit)]
  constructor
  · rintro ⟨exit', hexit', hkeeps⟩
    cases hexit ▸ hexit'
    exact hkeeps
  · exact fun hkeeps => ⟨exit, hexit, hkeeps⟩

/-- An exit that is not kept is not marked in the end. -/
theorem Lowers.unmarked (he : Reaches s ⟨[], c⟩) (hk : ¬ u.KeepsExit v record) :
    isLabelMarked c.encoder record.exitLabel = false := by
  obtain ⟨exit, hexit, hsub, hiff⟩ := h.keepsExit_iff hb hc
  obtain ⟨rest, c0, c1, rfl, hm, ha, hitems, hgives, hrun⟩ := h.gives he
  have hsound := hm.sound hb hc
  have hprog := hc.labelled hb
  have hlab := hsound.retains.labelled hprog
  have hret := lowerFunction_retains h.prepared h.lowered
  have htlab := hret.labelled hlab
  have hbinds := hlab.targets.mp hexit
  have hrole := hret.binds hbinds
  have hlt : ∀ y ∈ [record.item, exit, stop], y.index < s.items.size := fun y hy => hprog.made y (hsub.subset hy)
  have hlost : Delivery.Lost record.exitLabel exit ⟨(c1.session.items.suffixFrom last).tail, c1⟩ := by
    refine ⟨by rw [roleAt, hitems]; exact hrole, by simpa only [hitems] using fun hmem => hk (hiff.mpr hmem),
      Bool.eq_false_iff.mpr fun hl => ?_⟩
    rcases (hgives.marked _).mp hl with hl | hl
    · -- Had the exit been marked before, it would stand in front of the function.
      obtain ⟨y, hy, hfront⟩ := hsound.marked hl
      cases hexit ▸ hlab.targets.mpr hy
      have hwrong := hfront (hlt exit (by simp)) record.item mem_cons_self (hlt record.item (by simp))
      exact not_before hprog.nodup hwrong (((nil_sublist [stop]).cons_cons exit |>.cons_cons record.item).trans hsub)
    obtain ⟨y, hy, hl⟩ := mem_flatMap.mp hl
    have hbinds' := Delivery.binds_of_codeAt hl
    obtain ⟨A, D, B, hlies⟩ := hsound.lies hb hc h.opens h.prepared h.lowered hy (by rw [hbinds']; simp)
    cases htlab.targets.mpr hbinds' ▸ htlab.targets.mpr hrole
    rw [hlies.range] at hy
    exact hk (hiff.mpr (by rw [hlies.order]; exact mem_append_right _ (mem_append_left _ hy)))
  exact (hlost.run (hsound.advance hb hc ha) hb hc hrun).unmarked

/-- An exit that is kept is handed over with the epilogue behind it. -/
theorem Lowers.handsExit (he : Reaches s ⟨[], c⟩) (hj : t.LeavesByJump record.item last) (hk : u.KeepsExit v record) :
    (.label record.exitLabel :: frame.epilogue.map given) <:+: Shows.given c.encoder := by
  obtain ⟨exit, hexit, hsub, hiff⟩ := h.keepsExit_iff hb hc
  obtain ⟨rest, c0, c1, rfl, hm, -, -, hgives, hrun⟩ := h.gives he
  have hsound := hm.sound hb hc
  have hmem := hiff.mp hk
  obtain ⟨hlab, hclose, hstop, -⟩ := hsound.retains.function hb hc h.prepared.function h.prepared.closed
  obtain ⟨X, E, Y, ho, hE, hbears⟩ := lowerFunction_bears h.prepared h.lowered hlab hstop hclose hexit hmem
  obtain ⟨x, hx, item, r, hi, hkind, -⟩ := hj
  obtain ⟨A, D, B, hlies⟩ := hsound.lies hb hc h.opens h.prepared h.lowered hx
    (by rw [roleAt_of_get? hi, hkind]; simp [ItemKind.role])
  have hret := lowerFunction_retains h.prepared h.lowered
  have htlab := hret.labelled hlab
  have hbinds := hlab.targets.mp hexit
  have hrole := hret.binds hbinds
  -- The exit is inside the function, so the epilogue is handed over with it.
  have hD : exit ∈ D := by
    have hlow := hsound.retains.lower h.prepared h.lowered
    have hprog := (hc.labelled hb).toLinear
    have hstart : record.item ∈ t.items.order := by
      rw [hlies.order]
      simp
    have hstop' : stop ∈ t.items.order := by
      rw [hlies.order]
      simp
    have hedits := hlow.edits hprog
    refine (hlies.mem_iff htlab.toLinear).mpr ⟨hedits.before_of_mem hprog ?_ hstart hmem,
      hedits.before_of_mem hprog ?_ hmem hstop'⟩
    · exact (((nil_sublist [stop]).cons_cons exit).cons_cons record.item).trans hsub
    · exact ((Sublist.refl [exit, stop]).cons record.item).trans hsub
  have hlast : last ∉ exit :: E := fun hl =>
    (mem_cons.mp hl).elim (fun he => hlies.last_not_mem htlab.toLinear (he ▸ hD)) hE
  have hrange : exit ∈ t.items.range record.item last := by
    rw [hlies.range]
    simp [hD]
  obtain ⟨P, Q, hPQ⟩ := range_split htlab.nodup ho hrange hlast
  have hcode : (.label record.exitLabel :: frame.epilogue.map given) <:+:
      (t.items.range record.item last).flatMap t.codeAt := by
    refine ⟨P.flatMap t.codeAt, Q.flatMap t.codeAt, ?_⟩
    rw [hPQ]
    simp [Delivery.codeAt_of_binds hrole, flatMap_codeAt hbears]
  obtain ⟨more, hmore⟩ := Delivery.gives_of_run hrun
  have hall := hgives.trans hmore
  rw [hall.given]
  exact hcode.trans ⟨Shows.given c0.encoder, more, by simp⟩

end

end Function

/-- When a program has been handed over, every label in its code is marked exactly if the labels outside the functions
are, and each function that leaves by a jump keeps its exit. Such a function is handed over with its exit, and the
epilogue behind it, exactly if it keeps the exit. -/
theorem labels_marked_iff_exits_kept {calls : List Builder.Call} {options : Options}
    (hp : Builder.program calls { options } = .ok () s) (h : serialize ⟨s, Encoder.fresh⟩ = .ok () c) :
    ((∀ g ∈ Shows.given c.encoder, ∀ l ∈ g.names, isLabelMarked c.encoder l = true) ↔
      (∀ x rest, ∀ d : Compilation ε, Reaches s ⟨x :: rest, d⟩ → opens? d.session x = none →
        ∀ g ∈ d.session.codeAt x, ∀ l ∈ g.names, isLabelMarked c.encoder l = true) ∧
      ∀ f record stop last frame u v t, Lowers ε s f record stop last frame u v t → t.LeavesByJump record.item last →
        u.KeepsExit v record) ∧
    ∀ f record stop last frame u v t, Lowers ε s f record stop last frame u v t → t.LeavesByJump record.item last →
      ((.label record.exitLabel :: frame.epilogue.map Instruction.given) <:+: Shows.given c.encoder ↔
        u.KeepsExit v record) := by
  obtain ⟨hb, hc⟩ := Builder.program_contoured hp
  have he := serialize_reaches h
  have hmarked : ∀ {f record stop last frame u v t}, Lowers ε s f record stop last frame u v t →
      isLabelMarked c.encoder record.exitLabel = true → u.KeepsExit v record := by
    intro f record stop last frame u v t hl hm
    by_contra hk
    rw [hl.unmarked hb hc he hk] at hm
    cases hm
  have hgiven : ∀ {l : LabelId} {code : List Given}, (.label l :: code) <:+: Shows.given c.encoder →
      isLabelMarked c.encoder l = true :=
    fun hi => (he.marked_iff _).mpr (hi.subset List.mem_cons_self)
  refine ⟨⟨fun hall => ⟨fun x rest d hm ho g hg => hall g ?_, fun f record stop last frame u v t hl hj => ?_⟩,
    fun ⟨hout, hin⟩ g hg l hl => ?_⟩, fun f record stop last frame u v t hl hj =>
      ⟨fun hi => hmarked hl (hgiven hi), hl.handsExit hb hc he hj⟩⟩
  · rcases (hm.leads he).cases_head with heq | ⟨m', ha, hrun⟩
    · cases heq
    · cases ha with
      | item _ hx =>
        obtain ⟨more, hmore⟩ := Delivery.gives_of_run hrun
        rw [((emitItem_hands hx).gives.trans hmore).given]
        simp [hg]
      | function ho' _ => cases ho.symm.trans ho'
  · obtain ⟨x, hx, item, r, hi, hk, hjump⟩ := hj
    obtain ⟨record', hr, hlabel⟩ := hl.exitLabel_eq hb hc hx hi hk
    obtain ⟨rest, c₀, c₁, -, -, -, -, hgives, hrun⟩ := hl.gives he
    obtain ⟨more, hmore⟩ := Delivery.gives_of_run hrun
    refine hmarked hl (hall (.instruction .jmp [.label record.exitLabel]) ?_ _ (by simp [Given.names, Operand.label?]))
    have hcode : Given.instruction .jmp [.label record.exitLabel] ∈ t.codeAt x := by
      rw [Session.codeAt_of_get? hi, hk]
      simp [Session.codeOf, hjump, hr, hlabel]
    rw [(hgives.trans hmore).given]
    exact List.mem_append_right _ (List.mem_append_left _ (List.mem_flatMap.mpr ⟨x, hx, hcode⟩))
  · rcases he.handed hb hc hg with ⟨x, rest, d, hm, ho, hgx⟩ |
      ⟨f, record, stop, last, frame, u, v, t, hlow, x, hx, hgx, hchecked⟩
    · exact hout x rest d hm ho g hgx l hl
    · cases hi : t.items.get? x with
      | none => simp [Session.codeAt, hi] at hgx
      | some item =>
        rw [Session.codeAt_of_get? hi] at hgx
        rcases Session.names_codeOf hgx hl with href | ⟨r, record', hk, hjump, hr, rfl⟩
        · exact hchecked item hi l href
        · obtain ⟨record₂, hr₂, hlabel⟩ := hlow.exitLabel_eq hb hc hx hi hk
          cases hr.symm.trans hr₂
          have hj : t.LeavesByJump record.item last := ⟨x, hx, item, r, hi, hk, hjump⟩
          have hexit := hgiven (hlow.handsExit hb hc he hj (hin _ _ _ _ _ _ _ _ hlow hj))
          rwa [hlabel]

/-- The program that some calls make, and what a recorder is given for it. -/
def recorded (calls : List Call) : Option (Session × Compilation Recorder) :=
  match program calls { options := {} } with
  | .ok _ s =>
    match serialize ⟨s, fresh⟩ with
    | .ok _ c => some (s, c)
    | .error _ _ => none
  | .error _ _ => none

theorem recorded_ok {calls : List Call} {c : Compilation Recorder} (h : recorded calls = some (s, c)) :
    program calls { options := {} } = .ok () s ∧ serialize ⟨s, fresh⟩ = .ok () c := by
  unfold recorded at h
  split at h
  · rename_i hp
    split at h
    · rename_i hs
      cases h
      exact ⟨hp, hs⟩
    · cases h
  · cases h

end Compile

namespace Builder

/-- A branch that returns on both sides. -/
def twoReturns : List Call :=
  let a : VarRef := ⟨⟨0⟩, 8⟩
  [.newFunction [.gpq] [.gpq] {}, .newLabel, .emit .cmp [.var a, .imm 0], .jump (.jcc .e) ⟨2⟩ .none, .ret [.var a],
    .bind ⟨2⟩, .ret [.var a], .endFunction]

/-- A branch that returns on one side, and goes round forever on the other. -/
def returnOrLoop : List Call :=
  let a : VarRef := ⟨⟨0⟩, 8⟩
  [.newFunction [.gpq] [.gpq] {}, .newLabel, .emit .cmp [.var a, .imm 0], .jump (.jcc .e) ⟨2⟩ .none, .ret [.var a],
    .bind ⟨2⟩, .jump .jmp ⟨2⟩ .none, .endFunction]

end Builder

namespace Compile
open Encoder (Shows isLabelMarked)

/-- The first of two returns jumps to an exit that is kept. -/
theorem labels_marked_iff_exits_kept_branch : ∃ s, ∃ c : Compilation Recorder,
    Builder.program Builder.twoReturns { options := {} } = .ok () s ∧ serialize ⟨s, Encoder.fresh⟩ = .ok () c ∧
    .instruction .jmp [.label ⟨1⟩] ∈ Shows.given c.encoder ∧
    ∀ f record stop last frame u v t, Lowers Recorder s f record stop last frame u v t →
      t.LeavesByJump record.item last → u.KeepsExit v record := by
  obtain ⟨⟨s, c⟩, hsc, hd⟩ := Option.any_eq_true _ _ |>.mp
    (show (recorded Builder.twoReturns).any (fun (_, c) =>
      .instruction .jmp [.label ⟨1⟩] ∈ Recorder.given c.encoder ∧
      ∀ g ∈ Recorder.given c.encoder, ∀ l ∈ g.names, isLabelMarked c.encoder l = true) = true by decide +kernel)
  obtain ⟨hp, hs⟩ := recorded_ok hsc
  obtain ⟨hjump, hall⟩ := of_decide_eq_true hd
  exact ⟨s, c, hp, hs, hjump, ((labels_marked_iff_exits_kept hp hs).1.mp hall).2⟩

/-- A jump to an exit that is not marked: the exit stands behind an endless loop, and is taken out. -/
theorem exit_dangles : ∃ s, ∃ c : Compilation Recorder,
    Builder.program Builder.returnOrLoop { options := {} } = .ok () s ∧ serialize ⟨s, Encoder.fresh⟩ = .ok () c ∧
    .instruction .jmp [.label ⟨1⟩] ∈ Shows.given c.encoder ∧ isLabelMarked c.encoder ⟨1⟩ = false := by
  obtain ⟨⟨s, c⟩, hsc, hd⟩ := Option.any_eq_true _ _ |>.mp
    (show (recorded Builder.returnOrLoop).any (fun (_, c) =>
      .instruction .jmp [.label ⟨1⟩] ∈ Recorder.given c.encoder ∧ isLabelMarked c.encoder ⟨1⟩ = false) = true
      by decide +kernel)
  obtain ⟨hp, hs⟩ := recorded_ok hsc
  obtain ⟨hjump, hmark⟩ := of_decide_eq_true hd
  exact ⟨s, c, hp, hs, hjump, hmark⟩

end Compile

end Codegen
