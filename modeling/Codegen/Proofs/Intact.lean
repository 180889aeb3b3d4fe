import Codegen.Proofs.Admission
import Codegen.Proofs.InPlace

/-! Handing over a program whose functions keep their jumps to themselves. What is left to hand over is as it was built,
so every function is compiled as if it were the first. -/
namespace Codegen
open List Compile
variable {record' : FunctionRecord} {stop' : ItemId} {body' : List ItemId}

namespace Session
variable {s : Session} {record : FunctionRecord} {stop : ItemId} {body : List ItemId}

/-- The items of a function between its first and its last. -/
def bodyOf (s : Session) (record : FunctionRecord) (stop : ItemId) : List ItemId :=
  (s.items.range record.item stop).tail.dropLast

theorem Ready.bodyOf_eq (h : s.Ready f record stop body) : s.bodyOf record stop = body := by
  rw [bodyOf, h.range_eq]
  simp

/-- The jumps of every function stay inside it. -/
def Secluded (s : Session) : Prop :=
  ∀ record ∈ s.functions.toList, ∀ stop ∈ record.stop.toList, s.Closed (s.bodyOf record stop)

instance (s : Session) : Decidable s.Secluded := inferInstanceAs (Decidable (∀ _ ∈ _, ∀ _ ∈ _, _))

theorem Secluded.closed (hs : s.Secluded) (h : s.Ready f record stop body) : s.Closed body := by
  have hc := hs record (Array.mem_toList_iff.mpr (Array.mem_of_getElem? h.function)) stop (by simp [h.closed])
  rwa [h.bodyOf_eq] at hc

/-- A program that was built, with nothing compiled yet. -/
structure Fresh (s : Session) : Prop where
  built : s.WellBuilt
  contoured : s.Contoured
  admitted : s.Admitted

theorem Fresh.ready (hs : s.Fresh) (hf : s.functions[f.index]? = some record) (hstop : record.stop = some stop) :
    ∃ body, s.Ready f record stop body := by
  obtain ⟨hi, A, body, hin, hm⟩ := hs.built.shape hf
  simp only [hstop] at hm
  obtain ⟨hk, C, ho⟩ := hm
  exact ⟨body, hf, hstop, ⟨A, C, ho⟩, hs.built.nodup, hs.built.made, hi, hk, hin, fun hv _ => (hs.built.vars hv).1,
    hs.built.passes hf⟩

section
variable (hr : s.Ready f record stop body) (hr' : s.Ready g record' stop' body')
include hr hr'

theorem Ready.eq_of_item (he : record'.item = record.item) :
    record' = record ∧ stop' = stop ∧ body' = body := by
  obtain rfl : g = f := by
    have ho := hr'.opens
    rw [he, hr.opens] at ho
    cases ho
    rfl
  cases hr.function ▸ hr'.function
  cases hr.closed ▸ hr'.closed
  exact ⟨rfl, rfl, hr'.bodyOf_eq ▸ hr.bodyOf_eq⟩

theorem Ready.item_not_mem : record'.item ∉ body ++ [stop] := by
  intro hmem
  rcases mem_append.mp hmem with hb | hs
  · obtain ⟨kind, hi, hin, -⟩ := hr.inside _ hb
    cases hr'.opens ▸ hi
    exact hin
  · have ho := hr'.opens
    rw [mem_singleton.mp hs, hr.closes] at ho
    cases ho

end

/-- The items `rest` stand at the end of the program `s`, between functions, and in `u` they are as they were built. -/
structure Untouched (s : Session) (rest : List ItemId) (u : Session) : Prop where
  labelled : u.Labelled
  order : ∃ done, u.items.order = done ++ rest
  suffix : rest <:+ s.items.order
  whole : ∀ {f record stop body}, s.Ready f record stop body → ∀ y ∈ body ++ [stop], y ∈ rest → record.item ∈ rest
  items : ∀ x ∈ rest, u.items.get? x = s.items.get? x
  functions : ∀ {f r}, s.functions[FunctionId.index f]? = some r → r.item ∈ rest → u.functions[f.index]? = some r
  vars : ∀ {f r}, s.functions[FunctionId.index f]? = some r → r.item ∈ rest → ∀ {id x}, x.function = f →
    (u.vars.get? id = some x ↔ s.vars.get? id = some x)
  labels : s.labels.toList <+: u.labels.toList
  options : u.options = s.options

namespace Untouched
variable {rest : List ItemId} {last : ItemId}

theorem labels_eq (h : s.Untouched rest u) (hl : l < s.labels.size) : u.labels[l]? = s.labels[l]? := by
  obtain ⟨k, hk⟩ := h.labels
  rw [← Array.getElem?_toList, ← hk, getElem?_append_left (by simpa using hl), Array.getElem?_toList]

theorem opens (h : s.Untouched (x :: rest) u) (ho : opens? u x = some f) : s.roleAt x = .opens f := by
  rw [roleAt, ← h.items x mem_cons_self]
  exact opens?_eq_some.mp ho

theorem tail (h : s.Untouched (x :: rest) u) (hx : ∀ f, s.roleAt x ≠ .opens f) : s.Untouched rest u where
  labelled := h.labelled
  order := by
    obtain ⟨done, ho⟩ := h.order
    exact ⟨done ++ [x], by simp [ho]⟩
  suffix := (suffix_cons x rest).trans h.suffix
  whole {f record stop body} hr y hy hmem := by
    refine (mem_cons.mp (h.whole hr y hy (.tail _ hmem))).resolve_left fun he => hx f ?_
    rw [← he]
    exact roleAt_of_get? hr.opens
  items y hy := h.items y (.tail _ hy)
  functions hr hm := h.functions hr (.tail _ hm)
  vars hr hm := h.vars hr (.tail _ hm)
  labels := h.labels
  options := h.options

theorem congr (h : s.Untouched rest u) (hi : u'.items = u.items) (hv : u'.vars = u.vars) (hl : u'.labels = u.labels)
    (ho : u'.options = u.options) (hf : ∀ {f r}, s.functions[FunctionId.index f]? = some r → r.item ∈ rest →
      u'.functions[f.index]? = u.functions[f.index]?) : s.Untouched rest u' where
  labelled := by
    have hroles : u'.roleAt = u.roleAt := by
      funext y
      rw [roleAt, roleAt, hi]
    refine ⟨h.labelled.toLinear.congr (by rw [hi]) (by rw [hi]), fun {l y} => ?_⟩
    rw [hroles, hl]
    exact h.labelled.targets
  order := by rw [hi]; exact h.order
  suffix := h.suffix
  whole := h.whole
  items y hy := by rw [hi]; exact h.items y hy
  functions hr hm := (hf hr hm).trans (h.functions hr hm)
  vars {f r} hr hm {id x} hx := by rw [hv]; exact h.vars hr hm hx
  labels := by rw [hl]; exact h.labels
  options := ho.trans h.options

theorem ready (h : s.Untouched (x :: rest) u) (hr : s.Ready f record stop body) (hx : record.item = x) :
    ∃ C, rest = body ++ stop :: C ∧ u.Ready f record stop body := by
  obtain ⟨D, hD⟩ := h.suffix
  obtain ⟨A, C, ho⟩ := hr.order
  subst hx
  obtain ⟨-, rfl⟩ := ItemSeq.split_unique (ho ▸ hr.nodup) (ho ▸ hD.symm)
  refine ⟨C, rfl, ?_⟩
  obtain ⟨done, hdone⟩ := h.order
  have hitem : ∀ y ∈ record.item :: (body ++ [stop]), u.items.get? y = s.items.get? y := fun y hy => by
    refine h.items y ?_
    simp only [mem_cons, mem_append, not_mem_nil, or_false] at hy ⊢
    tauto
  have hvars : ∀ {id x}, x.function = f → (u.vars.get? id = some x ↔ s.vars.get? id = some x) :=
    h.vars hr.function mem_cons_self
  refine ⟨h.functions hr.function mem_cons_self, hr.closed, ⟨done, C, hdone⟩, h.labelled.nodup, h.labelled.made,
    (hitem _ (by simp)).trans hr.opens, (hitem _ (by simp)).trans hr.closes, fun y hy => ?_, fun hv hf => ?_, ?_⟩
  · obtain ⟨kind, hi, hin, hk⟩ := hr.inside y hy
    refine ⟨kind, (hitem y (by simp [hy])).trans hi, hin, fun v hv => ?_⟩
    obtain ⟨z, hz, hzf⟩ := Option.map_eq_some_iff.mp (hk v hv)
    exact Option.map_eq_some_iff.mpr ⟨z, (hvars hzf).mpr hz, hzf⟩
  · exact hr.fresh ((hvars hf).mp hv) hf
  refine ⟨hr.passes.nodup, fun id hid => ?_, fun ha hfa hpa hb hfb hpb => ?_, fun hv hf hid => ?_⟩
  · obtain ⟨z, q, hz, hzf, hq⟩ := hr.passes.arrives id hid
    exact ⟨z, q, (hvars hzf).mpr hz, hzf, hq⟩
  · exact hr.passes.distinct ((hvars hfa).mp ha) hfa hpa ((hvars hfb).mp hb) hfb hpb
  · exact hr.passes.others ((hvars hf).mp hv) hf hid

theorem closed (h : s.Untouched (x :: rest) u) (hs : s.Fresh) (hr : s.Ready f record stop body) (hx : record.item = x)
    (hc : s.Closed body) : u.Closed body := by
  obtain ⟨C, rfl, -⟩ := h.ready hr hx
  rintro y hy target ⟨item, j, hi, hk, hl⟩
  rw [h.items y (by simp [hy])] at hi
  refine hc y hy target ⟨item, j, hi, hk, ?_⟩
  rwa [h.labels_eq (hs.admitted.named hi (by rw [hk]; exact mem_singleton_self _))] at hl

/-- What is behind the function is still as it was built when the function is lowered. -/
theorem lower (h : s.Untouched (p.start :: (p.body ++ p.stop :: p.back)) u) (hr : s.Ready f record p.stop p.body)
    (hstart : p.start = record.item) (hsize : p.size = u.items.size) (hl : u.LowersAt p f last v t)
    (hlab : t.Labelled) :
    s.Untouched p.back t := by
  have hnd : (p.start :: (p.body ++ p.stop :: p.back)).Nodup := (nodup_append.mp p.nodup).2.1
  have hback : ∀ {x}, x ∈ p.back → x ∈ p.start :: (p.body ++ p.stop :: p.back) := fun hx => by simp [hx]
  have hne : ∀ {g r}, s.functions[FunctionId.index g]? = some r → r.item ∈ p.back → g ≠ f := by
    rintro g r hg hm rfl
    cases hr.function ▸ hg
    exact (nodup_cons.mp hnd).1 (hstart ▸ by simp [hm])
  refine ⟨hlab, ?_, ?_, fun {g record' stop' body'} hr' y hy hmem => ?_, fun y hy => ?_, fun hg hm => ?_,
    fun {g r} hg hm {id x} hx => ?_, h.labels.trans hl.labels, hl.options.trans h.options⟩
  · obtain ⟨B, E, ho, -⟩ := hl.keeps
    exact ⟨p.front ++ p.start :: (B ++ p.stop :: E), by simp [ho]⟩
  · refine IsSuffix.trans ?_ h.suffix
    exact ⟨p.start :: (p.body ++ [p.stop]), by simp⟩
  · have hin := h.whole hr' y hy (hback hmem)
    rw [show p.start :: (p.body ++ p.stop :: p.back) = p.start :: ((p.body ++ [p.stop]) ++ p.back) by simp] at hin hnd
    rcases mem_cons.mp hin with he | hin
    · obtain ⟨-, rfl, rfl⟩ := hr.eq_of_item hr' (he.trans hstart)
      exact absurd hmem fun hm => (nodup_append.mp (nodup_cons.mp hnd).2).2.2 y hy y hm rfl
    · exact (mem_append.mp hin).resolve_left (hr.item_not_mem hr')
  · have hown := Site.not_own_back hy
    have hlt : y.index < v.items.size := by
      rw [← hl.prepared.1, ← hsize]
      exact p.made y (by simp [hy])
    rw [Edits.get?_of_not_own hl.edits hlt hown, hl.prepared.2 y hown]
    exact h.items y (hback hy)
  · rw [hl.functions]
    exact h.functions hg (hback hm)
  · rw [← h.vars hg (hback hm) hx]
    have hgf := hne hg hm
    refine ⟨fun hv => ?_, fun hv => hl.others id x hv (hx ▸ hgf)⟩
    obtain ⟨y, hy, hyf⟩ := hl.owners hv
    cases hl.others id y hy (by rw [hyf, hx]; exact hgf) ▸ hv
    exact hy

/-- A function that comes up is lowered in its place. -/
theorem lowered (h : s.Untouched (x :: rest) u) (hs : s.Fresh) (hsec : s.Secluded)
    (ho : s.roleAt x = .opens f) (hlow : Build.lowerFunction f u = .ok (start, last, frame) t) :
    ∃ (p : Site) (record : FunctionRecord) (v : Session), p.start = x ∧ record.item = x ∧ start = x ∧
      rest = p.body ++ p.stop :: p.back ∧ s.Ready f record p.stop p.body ∧ u.Ready f record p.stop p.body ∧ u.Stands p ∧
      u.Closed p.body ∧ u.Prepared f record p.stop v ∧ u.LowersAt p f last v t ∧ s.Untouched p.back t := by
  obtain ⟨record, hf, rfl⟩ := hs.contoured.opened ho
  obtain ⟨record', stop, v, hp⟩ := Build.exists_prepared hlow
  cases h.functions hf mem_cons_self ▸ hp.function
  obtain ⟨body, hr⟩ := hs.ready hf hp.closed
  obtain ⟨C, rfl, hru⟩ := h.ready hr rfl
  have hc := h.closed hs hr rfl (hsec.closed hr)
  obtain ⟨p, hstand, hstart, rfl, rfl⟩ := hru.stands
  obtain ⟨⟨entry, tail, hbody, hentry⟩, exit, hexit, hexit'⟩ := hs.contoured.bounds hs.built hr
  have hlabel : ∀ {l : LabelId} {e : ItemId}, s.labels[l.index]? = some e → u.labels[l.index]? = some e := fun hl =>
    (h.labels_eq (Array.getElem?_eq_some_iff.mp hl).1).trans hl
  obtain ⟨rfl, -⟩ := Build.lowerFunction_ok hp hlow
  have hat := hru.lowersAt hstand hstart hc h.labelled ⟨entry, by simp [hbody], hlabel hentry⟩ ⟨exit, hexit, hlabel hexit'⟩
    hp hlow
  have hback : C = p.back := by
    obtain ⟨done, hdone⟩ := h.order
    have hn := h.labelled.nodup
    have heq : done ++ record.item :: (p.body ++ p.stop :: C) = p.front ++ record.item :: (p.body ++ p.stop :: p.back) := by
      rw [← hdone, hstand.order, hstart]
    rw [hdone] at hn
    have htail := (ItemSeq.split_unique hn heq).2
    exact (cons.inj (append_cancel_left htail)).2
  subst hback
  refine ⟨p, record, v, hstart, rfl, rfl, rfl, hr, hru, hstand, hc, hp, hat, ?_⟩
  rw [← hstart] at h
  exact h.lower hr hstart hstand.size hat ((Build.lowerFunction_retains hp hlow).labelled h.labelled)

theorem initial (hs : s.Fresh) (hi : u.items = s.items) (hv : u.vars = s.vars) (hl : u.labels = s.labels)
    (hf : u.functions = s.functions) (ho : u.options = s.options) :
    s.Untouched s.items.order u :=
  have h : s.Untouched s.items.order s := {
    labelled := hs.contoured.labelled hs.built
    order := ⟨[], rfl⟩
    suffix := suffix_rfl
    whole := fun hr _ _ _ => by
      obtain ⟨A, C, ho⟩ := hr.order
      simp [ho]
    items := fun _ _ => rfl
    functions := fun hr _ => hr
    vars := fun _ _ _ _ _ => Iff.rfl
    labels := prefix_rfl
    options := rfl }
  h.congr hi hv hl ho fun _ _ => by rw [hf]

end Untouched

end Session

namespace Delivery
open Session
variable [Encoder ε] [Encoder.Shows ε] {s : Session} {m : Delivery ε}

theorem Advances.untouched (ha : m.Advances m') (h : s.Untouched m.rest m.state.session) (hs : s.Fresh)
    (hsec : s.Secluded) : s.Untouched m'.rest m'.state.session ∧ m'.rest <:+ m.rest.tail := by
  cases ha with
  | @item c c' x rest ho he =>
    obtain ⟨stats, hst⟩ := (emitItem_hands he).session
    refine ⟨(h.tail fun f hf => ?_).congr (by rw [hst]) (by rw [hst]) (by rw [hst]) (by rw [hst])
      fun _ _ => by rw [hst], suffix_rfl⟩
    rw [roleAt, ← h.items x mem_cons_self] at hf
    have hf := opens?_eq_some.mpr hf
    cases ho ▸ hf
  | @function c c' x rest f last ho hcomp =>
    obtain ⟨start, frame, t, hlow, ⟨stats, hst⟩, -⟩ := compileFunction_ok hcomp
    obtain ⟨p, record, v, hstart, rfl, -, rfl, hr, -, -, -, -, hat, hback⟩ := h.lowered hs hsec (h.opens ho) hlow
    obtain ⟨B, E, -, -, htail, -⟩ := hat.keeps.range hat.linear
    have hitems : c'.session.items = t.items := by rw [hst]
    rw [hitems, htail]
    refine ⟨hback.congr hitems (by rw [hst]) (by rw [hst]) (by rw [hst]) fun {g r} hg hm => ?_,
      p.body ++ [p.stop], by simp⟩
    have hne : f.index ≠ g.index := by
      rintro he
      obtain rfl : f = g := congrArg FunctionId.mk he
      cases hr.function ▸ hg
      exact Site.not_own_back hm (.inl (hstart ▸ mem_cons_self))
    rw [hst]
    simp [Array.getElem?_modify, hne]

end Delivery

namespace Compile
variable [Encoder ε] [Encoder.Shows ε] {m : Delivery ε}

theorem Reaches.untouched (h : Reaches s m) (hs : s.Fresh) (hsec : s.Secluded) :
    s.Untouched m.rest m.state.session := by
  obtain ⟨d, hd, hrun⟩ := h
  induction hrun with
  | refl =>
    obtain ⟨stats, hst⟩ := (defineLabels_hands hd).session
    exact .initial hs (by rw [hst]) (by rw [hst]) (by rw [hst]) (by rw [hst]) (by rw [hst])
  | tail _ ha ih => exact (ha.untouched ih hs hsec).1

end Compile

namespace Builder

theorem program_fresh (h : program calls { options } = .ok u s) : s.Fresh :=
  ⟨program_built h, (program_contoured h).2, program_admitted h⟩

end Builder

end Codegen
