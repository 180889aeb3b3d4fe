import Codegen.Proofs.Outcome

/-! When a label counts as unknown. The labels that a function names are looked up as soon as the function has been
handed over. So a label is known exactly if its target was not taken out, and does not stand behind the function. -/
namespace Codegen
open List Build ItemSeq Option Builder Compile Encoder
variable {last : ItemId} {s u : Session}

namespace Compile
open Build (bind_ok pure_ok get_ok bind_error forM_cons_error)
open Encoder (Shows isLabelMarked)
variable [Encoder ε] {c' d : Compilation ε} {ids : List ItemId}

theorem checkLabels_error {ls : List LabelId} (h : ls.forM checkLabel c = .error e c') :
    ∃ l ∈ ls, isLabelMarked c.encoder l = false ∧ e = .unknownLabel l := by
  induction ls with
  | nil => cases h
  | cons l ls ih =>
    have heq : checkLabel l c =
        (if !isLabelMarked c.encoder l then throw (.unknownLabel l) else pure () : Compile ε Unit) c := rfl
    rcases forM_cons_error.mp h with hfirst | ⟨t, ht, hrest⟩
    · rw [heq] at hfirst
      split at hfirst
      · rename_i hm
        cases hfirst
        exact ⟨l, mem_cons_self, by simpa using hm, rfl⟩
      · cases hfirst
    · rw [heq] at ht
      split at ht
      · cases ht
      cases ht
      obtain ⟨l', hl', hm⟩ := ih hrest
      exact ⟨l', .tail _ hl', hm⟩

theorem checkItem_unhindered [Lenient S] (hl : S .label) : Unhindered S (checkItem x : Compile ε Unit) := by
  refine .bind (onSession_unhindered .getItem) fun item => .forM fun l => .bind .get fun c => ?_
  split
  · exact .throw hl
  · exact .pure _

theorem checkItems_error (hids : ∀ x ∈ ids, ∃ item, c.session.items.get? x = some item)
    (h : ids.forM checkItem c = .error e c') : ∃ x ∈ ids, ∃ item, c.session.items.get? x = some item ∧
      ∃ l ∈ labelsOf item.kind, isLabelMarked c.encoder l = false ∧ e = .unknownLabel l := by
  induction ids with
  | nil => cases h
  | cons x ids ih =>
    rcases forM_cons_error.mp h with hfirst | ⟨d, hd, hrest⟩
    · obtain ⟨item, hi⟩ := hids x mem_cons_self
      have hget : (onSession (getItem x) : Compile ε Item) c = .ok item c :=
        onSession_ok.mpr ⟨_, getItem_ok.mpr ⟨hi, rfl⟩, rfl⟩
      rw [checkItem, bind_eq_of_ok hget] at hfirst
      obtain ⟨l, hl, hm⟩ := checkLabels_error hfirst
      exact ⟨x, mem_cons_self, item, hi, l, hl, hm⟩
    · have hone : [x].forM checkItem c = .ok () d := forM_cons_ok.mpr ⟨d, hd, forM_nil_ok.mpr rfl⟩
      obtain ⟨rfl, -⟩ := checkItems_ok hone
      obtain ⟨y, hy, hlab⟩ := ih (fun y hy => hids y (.tail _ hy)) hrest
      exact ⟨y, .tail _ hy, hlab⟩

theorem defineLabels_total (first count : Nat) (c : Compilation ε) : ∃ c', defineLabels first count c = .ok () c' := by
  cases h : defineLabels first count c with
  | ok _ c' => exact ⟨c', rfl⟩
  | error e c' => exact (defineLabels_unhindered (S := fun _ => False) _ _ _ h).elim

/-- The function is lowered to `t`, up to the item `last`, and handed over, which leads to `d`. -/
def Offers (f : FunctionId) (start last : ItemId) (c : Compilation ε) (t : Session) (d : Compilation ε) : Prop :=
  ∃ frame c₁, lowerFunction f c.session = .ok (start, last, frame) t ∧
    defineLabels c.session.labelCount (t.labelCount - c.session.labelCount) ⟨t, c.encoder⟩ = .ok () c₁ ∧
    (t.items.range start last).forM emitItem c₁ = .ok () d

/-- The end of compiling a function, when its code is handed over. -/
def noteCompiled (f : FunctionId) (frame : FrameLayout) (last : ItemId) : Compile ε ItemId := do
  onSession (modifyFunction f ({ · with frame := some frame }))
  let codeSize := codeSize (← get).encoder
  onSession (modifyStats fun s => { s with functionsCompiled := s.functionsCompiled + 1, totalCodeSize := codeSize })
  return last

theorem compileFunction_eq (hl : lowerFunction f c.session = .ok (start, last, frame) t)
    (hd : defineLabels c.session.labelCount (t.labelCount - c.session.labelCount) ⟨t, c.encoder⟩ = .ok () c1) :
    compileFunction f c = ((c1.session.items.range start last).forM emitItem >>= fun _ =>
      (c1.session.items.range start last).forM checkItem >>= fun _ =>
        (noteCompiled f frame last : Compile ε ItemId)) c1 := by
  unfold compileFunction
  rw [bind_eq_of_ok (get_ok.mpr ⟨rfl, rfl⟩), bind_eq_of_ok (onSession_ok.mpr ⟨t, hl, rfl⟩)]
  dsimp only
  rw [bind_eq_of_ok (get_ok.mpr ⟨rfl, rfl⟩), bind_eq_of_ok hd, bind_eq_of_ok (get_ok.mpr ⟨rfl, rfl⟩)]
  rfl

theorem noteCompiled_unhindered [Lenient S] : Unhindered S (noteCompiled f frame last : Compile ε ItemId) :=
  .bind (onSession_unhindered (.bind .getFunction fun _ => .modify)) fun _ => .bind .get fun _ =>
    .bind (onSession_unhindered .modifyStats) fun _ => .pure _

section Offers
variable {start : ItemId} [Shows ε]

theorem compileFunction_unknownLabel (hlow : UnhinderedAt (· ≠ .label) (lowerFunction f) c.session)
    (h : compileFunction f c = .error (.unknownLabel l) c') :
    ∃ start last t d, Offers f start last c t d ∧
      (t.items.range start last).forM checkItem d = .error (.unknownLabel l) c' := by
  cases hl : lowerFunction f c.session with
  | error e t =>
    unfold compileFunction at h
    rw [bind_eq_of_ok (get_ok.mpr ⟨rfl, rfl⟩)] at h
    rcases bind_error.mp h with h | ⟨r, c0, hr, -⟩
    · exact absurd rfl (onSession_unhinderedAt hlow _ _ h)
    · obtain ⟨t', ht', -⟩ := onSession_ok.mp hr
      cases hl ▸ ht'
  | ok r t =>
    obtain ⟨start, last, frame⟩ := r
    obtain ⟨c1, hd⟩ := defineLabels_total c.session.labelCount (t.labelCount - c.session.labelCount) ⟨t, c.encoder⟩
    obtain ⟨stats, hst⟩ := (defineLabels_hands hd).session
    have hitems : c1.session.items = t.items := by rw [hst]
    rw [compileFunction_eq hl hd, hitems] at h
    rcases bind_error.mp h with h | ⟨_, d, hemit, h⟩
    · exact absurd rfl (Unhindered.forM (fun _ => emitItem_unhindered (S := (· ≠ .label)) (by decide)) _ _ _ h)
    rcases bind_error.mp h with h | ⟨_, d', -, h⟩
    · exact ⟨start, last, t, d, ⟨frame, c1, hl, hd, hemit⟩, h⟩
    · exact absurd rfl (noteCompiled_unhindered (S := (· ≠ .label)) _ _ _ h)

theorem Offers.hands (h : Offers f start last c t d) : (∃ stats, d.session = { t with stats }) ∧
    Gives Shows.given ((t.items.range start last).flatMap t.codeAt) c.encoder d.encoder := by
  obtain ⟨frame, c1, -, hdef, hemit⟩ := h
  have h1 := defineLabels_hands hdef
  have h2 := emitItems_hands hemit
  rw [h1.codeAt_eq] at h2
  exact ⟨(h1.trans h2).session, (h1.trans h2).gives⟩

theorem Offers.fails (h : Offers f start last c t d) (hc : (t.items.range start last).forM checkItem d = .error e c') :
    compileFunction f c = .error e c' := by
  obtain ⟨frame, c1, hlow, hdef, hemit⟩ := h
  have hitems : c1.session.items = t.items := by
    obtain ⟨stats, hst⟩ := (defineLabels_hands hdef).session
    rw [hst]
  rw [compileFunction_eq hlow hdef, hitems, bind_eq_of_ok hemit]
  exact bind_error.mpr (.inl hc)

end Offers

end Compile

namespace Delivery
open Encoder (Shows isLabelMarked)
open Session
variable [Encoder ε] [Shows ε] {c : Compilation ε} {m : Delivery ε}
variable {rest : List ItemId}

/-- The labels that are marked are those whose targets were handed over. -/
def Marks (m : Delivery ε) : Prop := ∀ {y l}, m.state.session.roleAt y = .binds l →
  (isLabelMarked m.state.encoder l = true ↔ y ∈ m.state.session.items.order ∧ y ∉ m.rest)

theorem Marks.item (h : Marks ⟨x :: rest, c⟩) (hl : c.session.Labelled)
    (ho : ∃ done, c.session.items.order = done ++ x :: rest)
    (he : emitItem x c = .ok () c') : Marks ⟨rest, c'⟩ := by
  intro y l hrole
  obtain ⟨⟨stats, hst⟩, hg⟩ := emitItem_hands he
  have hitems : c'.session.items = c.session.items := by rw [hst]
  have hrole' : c.session.roleAt y = .binds l := by
    rwa [roleAt, ← hitems]
  have hat : .label l ∈ c.session.codeAt x ↔ y = x := by
    constructor
    · intro hmem
      exact some.inj (hl.targets.mpr hrole' ▸ hl.targets.mpr (binds_of_codeAt hmem))
    rintro rfl
    rw [codeAt_of_binds hrole']
    exact mem_singleton_self _
  obtain ⟨done, hdone⟩ := ho
  have hn := hl.nodup
  rw [hdone] at hn
  have hx : x ∉ rest := (nodup_cons.mp (nodup_append.mp hn).2.1).1
  rw [hg.marked, h hrole', hat, hitems]
  constructor
  · rintro (⟨hy, hyr⟩ | rfl)
    · exact ⟨hy, fun h => hyr (.tail _ h)⟩
    · exact ⟨by simp [hdone], hx⟩
  rintro ⟨hy, hyr⟩
  by_cases hyx : y = x
  · exact .inr hyx
  · exact .inl ⟨hy, fun h => (mem_cons.mp h).elim hyx hyr⟩

omit [Shows ε] in
theorem Marks.front (h : Marks ⟨p.start :: rest, c⟩) (hs : Sound s ⟨p.start :: rest, c⟩)
    (hst : c.session.Stands p) (hrest : rest = p.body ++ p.stop :: p.back) (hret : c.session.Retains gone t)
    (hl : t.Labelled) (hrole : t.roleAt y = .binds l) : isLabelMarked c.encoder l = true ↔ y ∈ p.front := by
  by_cases hy : y.index < c.session.items.size
  · have hrole' : c.session.roleAt y = .binds l := hret.kept hy ▸ hrole
    have hn := p.nodup
    rw [h hrole', hrest]
    rw [hst.order, mem_append]
    exact ⟨fun ⟨hin, hout⟩ => hin.resolve_right hout, fun hf =>
      ⟨.inl hf, fun hout => (nodup_append.mp hn).2.2 y hf y hout rfl⟩⟩
  · refine iff_of_false (fun hm => hy ?_) fun hf => hy ?_
    · -- a label that was marked before has a target of the program
      obtain ⟨y', hy', -⟩ := hs.marked hm
      have hlt := lt_size_of_binds hy'
      have hrole' := hret.binds hy'
      cases hl.targets.mpr hrole ▸ hl.targets.mpr hrole'
      exact hlt
    · rw [← hst.size]
      exact p.made y (by simp [hf])

theorem Marks.lowered (h : Marks ⟨p.start :: rest, c⟩)
    (hs : Sound s ⟨p.start :: rest, c⟩) (hst : c.session.Stands p) (hrest : rest = p.body ++ p.stop :: p.back)
    (hat : c.session.LowersAt p f last v t) (hret : c.session.Retains gone t) (hl : t.Labelled)
    (hg : Gives Shows.given ((t.items.range p.start last).flatMap t.codeAt) c.encoder e')
    (hrole : t.roleAt y = .binds l) : isLabelMarked e' l = true ↔ y ∈ t.items.order ∧ y ∉ p.back := by
  obtain ⟨B, E, ho, hrange, -⟩ := hat.keeps.range hat.linear
  have hmark := h.front hs hst hrest hret hl hrole
  have hgiven : .label l ∈ (t.items.range p.start last).flatMap t.codeAt ↔ y ∈ t.items.range p.start last := by
    rw [mem_flatMap]
    constructor
    · rintro ⟨z, hz, hcode⟩
      cases hl.targets.mpr hrole ▸ hl.targets.mpr (binds_of_codeAt hcode)
      exact hz
    · intro hy
      exact ⟨y, hy, by rw [codeAt_of_binds hrole]; exact mem_singleton_self _⟩
  have hn : (p.front ++ p.start :: (B ++ p.stop :: E) ++ p.back).Nodup := by
    have := hat.linear.nodup
    rw [ho] at this
    simpa using this
  have hmem : y ∈ t.items.order ↔ y ∈ p.front ++ p.start :: (B ++ p.stop :: E) ∨ y ∈ p.back := by
    rw [ho]
    simp only [mem_append, mem_cons]
    tauto
  rw [hg.marked, hmark, hgiven, hrange, hmem, ← mem_append]
  exact ⟨fun hy => ⟨.inl hy, fun hb => (nodup_append.mp hn).2.2 y hy y hb rfl⟩, fun ⟨hy, hb⟩ => hy.resolve_right hb⟩

theorem Advances.marks (ha : m.Advances m') (h : Marks m) (hm : Sound s m)
    (hu : s.Untouched m.rest m.state.session) (hs : s.Fresh) (hsec : s.Secluded) : Marks m' := by
  cases ha with
  | item _ he => exact h.item hu.labelled hu.order he
  | @function c c' x rest f last ho hcomp =>
    obtain ⟨start, frame, t, hlow, ⟨stats, hst⟩, hg, -⟩ := compileFunction_ok hcomp
    obtain ⟨p, record, v, rfl, -, rfl, hrest, -, -, hstand, -, hp, hat, hback⟩ := hu.lowered hs hsec (hu.opens ho) hlow
    obtain ⟨B, E, -, -, htail, -⟩ := hat.keeps.range hat.linear
    have hitems : c'.session.items = t.items := by rw [hst]
    intro y l hy
    rw [hitems, htail]
    refine h.lowered hm hstand hrest hat (lowerFunction_retains hp hlow) hback.labelled hg ?_
    rwa [roleAt, ← hitems]

theorem Advances.named (ha : m.Advances m') (h : m.state.session.Named)
    (hu : s.Untouched m.rest m.state.session) (hs : s.Fresh) (hsec : s.Secluded) : m'.state.session.Named := by
  cases ha with
  | item _ he =>
    obtain ⟨stats, hst⟩ := (emitItem_hands he).session
    exact h.congr (fun _ => by rw [hst]) (by rw [hst]) (by rw [hst])
  | @function c c' x rest f last ho hcomp =>
    obtain ⟨start, frame, t, hlow, ⟨stats, hst⟩, -⟩ := compileFunction_ok hcomp
    obtain ⟨p, record, v, -, -, -, -, -, hr, hstand, -, hp, hat, -⟩ := hu.lowered hs hsec (hu.opens ho) hlow
    obtain ⟨proto, -, hprep⟩ := hp.prepared
    have hv : v.Named := (hr.walked hprep).named (h.congr (fun _ => rfl) rfl rfl)
    have ht : t.Named := Edits.named hat.edits hv
    refine ⟨fun {x item l} hx hl => ?_, fun {g r} hr => ?_⟩
    · rw [hst] at hx ⊢
      exact ht.items hx hl
    rw [hst, Array.getElem?_modify] at hr
    rw [hst]
    split at hr
    · obtain ⟨r', hr', rfl⟩ := map_eq_some_iff.mp hr
      exact (ht.functions hr' :)
    · exact ht.functions hr

end Delivery

namespace Session

theorem Fresh.named (h : s.Fresh) : s.Named where
  items := h.admitted.named
  functions hr := by
    obtain ⟨-, e, he, -⟩ := h.contoured.entries hr
    exact ⟨(Array.getElem?_eq_some_iff.mp he).1, h.admitted.exits hr⟩

theorem Ready.cited {record : FunctionRecord}
    (h : u.Ready f record p.stop p.body) (hs : u.Stands p) (hstart : p.start = record.item)
    (hp : u.Prepared f record p.stop v) (hc : v.Cites p l) :
    ∃ y ∈ p.body, ∃ item, u.items.get? y = some item ∧ l ∈ item.kind.names := by
  obtain ⟨proto, -, hprep⟩ := hp.prepared
  have hw := h.walked hprep
  obtain ⟨y, item', hown, hy', hl⟩ := hc
  have hlt := lt_size_of_get? hy'
  rw [hw.order.2] at hlt
  have hmem : y ∈ record.item :: (p.body ++ [p.stop]) := hstart ▸ hown.resolve_right (by rw [hs.size]; exact not_le.mpr hlt)
  obtain ⟨item, hy⟩ : ∃ item, u.items.get? y = some item := get?_of_lt_size hlt
  obtain ⟨kind', o, hk, ht, -⟩ := hw.done hmem hy
  cases hy' ▸ ht
  rw [hk.names_eq] at hl
  simp only [mem_cons, mem_append, not_mem_nil, or_false] at hmem
  rcases hmem with rfl | hbody | rfl
  · cases h.opens ▸ hy
    cases hl
  · exact ⟨y, hbody, item, hy, hl⟩
  · cases h.closes ▸ hy
    cases hl

theorem Untouched.lowerFunction_unhinderedAt [Lenient S] (h : s.Untouched (x :: rest) u)
    (hs : s.Fresh) (hsec : s.Secluded)
    (ho : s.roleAt x = .opens f) (hn : u.Named) (hr : S .removal) (hp : S .pressure) :
    UnhinderedAt S (lowerFunction f) u := by
  obtain ⟨record, hf, rfl⟩ := hs.contoured.opened ho
  have hfu := h.functions hf mem_cons_self
  cases hstop : record.stop with
  | none =>
    refine .bind (Unhindered.getFunction u) fun record' _ hf' => ?_
    obtain ⟨hrec, rfl⟩ := getFunction_ok.mp hf'
    cases hfu ▸ hrec
    simp only [hstop]
    exact Unhindered.throw (Lenient.other) _
  | some stop =>
    obtain ⟨body, hready⟩ := hs.ready hf hstop
    obtain ⟨-, -, hru⟩ := h.ready hready rfl
    obtain ⟨p, hstand, hstart, rfl, rfl⟩ := hru.stands
    exact hru.lowerFunction_unhinderedAt hstand hstart (h.closed hs hready rfl (hsec.closed hready)) h.labelled
      (.inr hn) hr (.inl hp)

end Session

namespace Compile
open Encoder (Shows isLabelMarked)
open Session
variable {ε : Type} [Encoder ε] [Shows ε] {m : Delivery ε} {c d : Compilation ε}

theorem Reaches.marks (h : Reaches s m) (hs : s.Fresh) (hsec : s.Secluded) : m.Marks ∧ m.state.session.Named := by
  obtain ⟨d, hd, hrun⟩ := h
  induction hrun with
  | refl =>
    obtain ⟨⟨stats, hst⟩, hg⟩ := defineLabels_hands hd
    refine ⟨fun {y l} hy => ?_, hs.named.congr (fun _ => by rw [hst]) (by rw [hst]) (by rw [hst])⟩
    rw [hg.marked, Shows.marked_fresh]
    simp [hst]
  | @tail m1 m2 hm ha ih =>
    have hr : Reaches s m1 := ⟨d, hd, hm⟩
    have hu := hr.untouched hs hsec
    exact ⟨ha.marks ih.1 (hr.sound hs.built hs.contoured) hu hs hsec, ha.named ih.2 hu hs hsec⟩

/-- The function `f` comes up. It is lowered to `t`, up to the item `last`, and handed over. -/
structure Turn (s : Session) (f : FunctionId) (record : FunctionRecord) (stop last : ItemId) (c : Compilation ε)
    (t : Session) (d : Compilation ε) : Prop where
  reached : ∃ rest, Reaches s ⟨record.item :: rest, c⟩
  function : s.functions[f.index]? = some record
  closed : record.stop = some stop
  offers : Offers f record.item last c t d

/-- When a function ends with `stop` and was lowered to `t`, the target of the label is not linked, or it stands behind
the function. -/
def Astray (s t : Session) (stop : ItemId) (l : LabelId) : Prop :=
  ∃ e, s.labels[l.index]? = some e ∧ (e ∉ t.items.order ∨ [stop, e].Sublist s.items.order)

section Turn
variable {record : FunctionRecord} {stop : ItemId} {item : Item}

omit [Encoder ε] [Shows ε] in
theorem mem_names_of_labelsOf (h : l ∈ labelsOf k) : l ∈ k.names := by
  cases k <;> first | exact h | cases h

section
variable (h : Turn s f record stop last c t d) (hs : s.Fresh) (hsec : s.Secluded)
include h hs hsec

theorem Turn.opens? : opens? c.session record.item = some f := by
  obtain ⟨rest, hreach⟩ := h.reached
  obtain ⟨body, hready⟩ := hs.ready h.function h.closed
  have hitem := (hreach.untouched hs hsec).items record.item mem_cons_self
  exact opens?_eq_some.mpr (by simp [roleAt, (hitem.trans hready.opens :), ItemKind.role])

theorem Turn.lowered : ∃ (p : Site) (v : Session) (frame : FrameLayout), p.start = record.item ∧ p.stop = stop ∧
      Reaches s ⟨record.item :: (p.body ++ p.stop :: p.back), c⟩ ∧ s.Ready f record p.stop p.body ∧
      c.session.Ready f record p.stop p.body ∧ c.session.Stands p ∧ c.session.Prepared f record p.stop v ∧
      lowerFunction f c.session = .ok (record.item, last, frame) t ∧ c.session.LowersAt p f last v t ∧
      s.Untouched p.back t := by
  obtain ⟨rest, hreach⟩ := h.reached
  obtain ⟨body, hready⟩ := hs.ready h.function h.closed
  have hrole : s.roleAt record.item = .opens f := by simp [roleAt, hready.opens, ItemKind.role]
  obtain ⟨frame, c1, hlow, -⟩ := h.offers
  obtain ⟨p, record', v, hstart, hrec, -, rfl, hr', hru, hstand, -, hprep, hat, hback⟩ :=
    (hreach.untouched hs hsec).lowered hs hsec hrole hlow
  obtain ⟨rfl, hstop, -⟩ := hready.eq_of_item hr' hrec
  exact ⟨p, v, frame, hstart, hstop, hreach, hr', hru, hstand, hprep, hlow, hat, hback⟩

theorem Turn.made : ∀ x ∈ t.items.range record.item last, ∃ item, d.session.items.get? x = some item := by
  obtain ⟨p, v, frame, hstart, -, -, -, -, -, -, -, hat, -⟩ := h.lowered hs hsec
  obtain ⟨⟨stats, hst⟩, -⟩ := h.offers.hands
  intro x hx
  rw [← hstart] at hx
  rw [hst]
  exact get?_of_lt_size (hat.linear.made x (hat.keeps.mem_order hat.linear hx))

/-- The labels that a function names are marked when it has been handed over, unless their targets went astray. Then it was
an item of the program that named them. -/
theorem Turn.unmarked_iff
    (hx : x ∈ t.items.range record.item last) (hi : t.items.get? x = some item) (hl : l ∈ labelsOf item.kind) :
    (isLabelMarked d.encoder l = false ↔ Astray s t stop l) ∧ (isLabelMarked d.encoder l = false →
      ∃ y ∈ s.bodyOf record stop, ∃ item, s.items.get? y = some item ∧ l ∈ item.kind.names) := by
  obtain ⟨p, v, frame, hstart, rfl, hreach, hready, hru, hstand, hprep, hlow, hat, hback⟩ := h.lowered hs hsec
  have hu := hreach.untouched hs hsec
  obtain ⟨hmarks, hnamed⟩ := hreach.marks hs hsec
  obtain ⟨-, hg⟩ := h.offers.hands
  have hmark : ∀ {y}, t.roleAt y = .binds l → (isLabelMarked d.encoder l = true ↔ y ∈ t.items.order ∧ y ∉ p.back) := by
    intro y hy
    rw [← hstart] at hmarks hg hreach
    exact hmarks.lowered (hreach.sound hs.built hs.contoured) hstand rfl hat (lowerFunction_retains hprep hlow)
      hback.labelled hg hy
  obtain ⟨proto, -, hprepare⟩ := hprep.prepared
  have hvlabels : v.labels.size = c.session.labels.size :=
    congrArg Array.size ((congrArg labels (hru.walked hprepare).rest :).trans (rfl :))
  have hcites : t.Cites p l := ⟨x, item, hat.keeps.own_range hat.linear (hstart ▸ hx), hi, mem_names_of_labelsOf hl⟩
  rcases Edits.cites hat.edits hcites with hold | hnew
  · obtain ⟨y, hy, item', hi', hl'⟩ := hru.cited hstand hstart hprep hold
    have hy' : s.items.get? y = some item' := by
      rw [← hu.items y (by simp [hy])]
      exact hi'
    have hlt := hs.admitted.named hy' hl'
    have he := Array.getElem?_eq_getElem hlt
    generalize s.labels[l.index] = e at he
    refine ⟨?_, fun _ => ⟨y, by rwa [hready.bodyOf_eq], item', hy', hl'⟩⟩
    have hrole : t.roleAt e = .binds l := hback.labelled.targets.mp ((hback.labels_eq hlt).trans he)
    have hbehind : e ∈ p.back ↔ [p.stop, e].Sublist s.items.order := by
      obtain ⟨front, hfront⟩ := hu.suffix
      have ho : s.items.order = (front ++ record.item :: p.body) ++ p.stop :: p.back := by
        rw [← hfront]
        simp
      rw [ho, before_iff (ho ▸ hready.nodup)]
    rw [← Bool.not_eq_true, hmark hrole, not_and_or, not_not, hbehind]
    exact ⟨fun hor => ⟨e, he, hor⟩, fun ⟨e', he', hor⟩ => some.inj (he ▸ he') ▸ hor⟩
  · -- a label that was made for the function is bound inside it
    rw [hvlabels] at hnew
    have hnone : s.labels.size ≤ l.index := by
      have := hu.labels.length_le
      simp only [Array.length_toList] at this
      omega
    obtain ⟨y, hy⟩ : ∃ y, t.labels[l.index]? = some y :=
      ⟨_, Array.getElem?_eq_getElem ((Edits.named hat.edits ((hru.walked hprepare).named
        (hnamed.congr (fun _ => rfl) rfl rfl))).items hi
        (mem_names_of_labelsOf hl))⟩
    have hrole := hback.labelled.targets.mp hy
    have hyn : p.size ≤ y.index := by
      by_contra hlt
      rw [hstand.size, not_le] at hlt
      have hold := hu.labelled.targets.mpr (((lowerFunction_retains hprep hlow).kept hlt) ▸ hrole)
      exact absurd (Array.getElem?_eq_some_iff.mp hold).1 (not_lt.mpr hnew)
    have hin : isLabelMarked d.encoder l = true := (hmark hrole).mpr ⟨hat.bound hyn hrole, fun hb =>
      absurd (p.made y (by simp [hb])) (by omega)⟩
    have hno : ¬ Astray s t p.stop l := by
      rintro ⟨e, he, -⟩
      exact absurd (Array.getElem?_eq_some_iff.mp he).1 (by omega)
    simp [hin, hno]

end

variable (ε) in
/-- The label is missed: a function whose items name it was handed over with code that names it, and its target went
astray. -/
def Missed (s : Session) (l : LabelId) : Prop :=
  ∃ f record stop last, ∃ c d : Compilation ε, ∃ t, Turn s f record stop last c t d ∧ Astray s t stop l ∧
    (∃ x ∈ t.items.range record.item last, ∃ item, t.items.get? x = some item ∧ l ∈ labelsOf item.kind) ∧
    ∃ y ∈ s.bodyOf record stop, ∃ item, s.items.get? y = some item ∧ l ∈ item.kind.names

theorem Reaches.missed (h : Reaches s m) (hs : s.Fresh) (hsec : s.Secluded)
    (hf : m.Fails (.unknownLabel l) d) : Missed ε s l := by
  cases hf with
  | item _ he => exact absurd rfl (emitItem_unhindered (S := (· ≠ .label)) (by decide) _ _ _ he)
  | @function c _ x rest _ f ho hcomp =>
    have hu := h.untouched hs hsec
    have hlow : UnhinderedAt (· ≠ .label) (lowerFunction f) c.session :=
      hu.lowerFunction_unhinderedAt hs hsec (hu.opens ho) (h.marks hs hsec).2 (by decide) (by decide)
    obtain ⟨start, last, t, d', hoff, hcheck⟩ := compileFunction_unknownLabel hlow hcomp
    obtain ⟨frame, c1, hlower, -⟩ := id hoff
    obtain ⟨p, record, v, -, rfl, rfl, -, hr, -⟩ := hu.lowered hs hsec (hu.opens ho) hlower
    have hturn : Turn s f record p.stop last c t d' := ⟨⟨rest, h⟩, hr.function, hr.closed, hoff⟩
    obtain ⟨⟨stats, hst⟩, -⟩ := hoff.hands
    have hitems : d'.session.items = t.items := by rw [hst]
    obtain ⟨x, hx, item, hi, l', hl', hm, he⟩ := checkItems_error (hturn.made hs hsec) hcheck
    cases he
    rw [hitems] at hi
    obtain ⟨hiff, hcite⟩ := hturn.unmarked_iff hs hsec hx hi hl'
    exact ⟨f, record, p.stop, last, c, d', t, hturn, hiff.mp hm, ⟨x, hx, item, hi, hl'⟩, hcite hm⟩

theorem Missed.fails (h : Missed ε s l) (hs : s.Fresh) (hsec : s.Secluded) :
    ∃ m : Delivery ε, Reaches s m ∧ ∃ l' c, m.Fails (.unknownLabel l') c := by
  obtain ⟨f, record, stop, last, c, d, t, hturn, hastray, ⟨x, hx, item, hi, hl⟩, -⟩ := h
  have hm := (hturn.unmarked_iff hs hsec hx hi hl).1.mpr hastray
  obtain ⟨rest, hreach⟩ := hturn.reached
  obtain ⟨⟨stats, hst⟩, -⟩ := hturn.offers.hands
  refine ⟨_, hreach, ?_⟩
  cases hcheck : (t.items.range record.item last).forM checkItem d with
  | ok _ d' =>
    obtain ⟨-, hall⟩ := checkItems_ok hcheck
    rw [hall x hx item (by rw [hst]; exact hi) l hl] at hm
    cases hm
  | error e d' =>
    obtain ⟨-, -, -, -, l', -, -, rfl⟩ := checkItems_error (hturn.made hs hsec) hcheck
    exact ⟨l', d', .function (hturn.opens? hs hsec) (hturn.offers.fails hcheck)⟩

end Turn

end Compile

namespace Builder

/-- A function that calls the one behind it. -/
def callsAhead : List Call :=
  match Prototype.sysv [] [] with
  | .ok p => [.newLabel, .newFunction [] [] {}, .call (.label ⟨0⟩) p [] [], .ret [], .endFunction, .bind ⟨0⟩,
      .newFunction [] [] {}, .ret [], .endFunction]
  | .error _ => []

end Builder

namespace Compile
open Encoder (Shows)
variable [Encoder ε] [Shows ε]

/-- A label is reported as unknown if it is missed, and only then: a function was handed over that names it, and its
target was not linked any more, or stands behind the function. -/
theorem serialize_unknownLabel_iff_missed {calls : List Builder.Call} {options : Options}
    (hb : Builder.program calls { options } = .ok () s) (hsec : s.Secluded) :
    (∀ l, ∀ c : Compilation ε, serialize ⟨s, Encoder.fresh⟩ = .error (.unknownLabel l) c → Missed ε s l) ∧
      (s.current = none → (∃ l, Missed ε s l) →
        ∃ l, ∃ c : Compilation ε, serialize ⟨s, Encoder.fresh⟩ = .error (.unknownLabel l) c) := by
  have hs := Builder.program_fresh hb
  constructor
  · intro l c h
    have hcur : s.current = none := current_of_serialize_error h (by simp)
    obtain ⟨m, hm, hf⟩ := (serialize_fails_iff hs hsec hcur).mp h
    exact hm.missed hs hsec hf
  · rintro hcur ⟨l, hl⟩
    obtain ⟨m, hm, l', c, hf⟩ := hl.fails hs hsec
    exact ⟨l', c, (serialize_fails_iff hs hsec hcur).mpr ⟨m, hm, hf⟩⟩

/-- The program that some calls make, and how a recorder comes to refuse it. -/
def refused (calls : List Call) : Option (Session × Error × Compilation Recorder) :=
  match program calls { options := {} } with
  | .ok _ s =>
    match serialize ⟨s, fresh⟩ with
    | .ok _ _ => none
    | .error e c => some (s, e, c)
  | .error _ _ => none

theorem refused_eq_some (h : refused calls = some (s, e, c)) :
    program calls { options := {} } = .ok () s ∧ serialize ⟨s, fresh⟩ = .error e c := by
  unfold refused at h
  split at h
  · rename_i hp
    split at h
    · cases h
    rename_i hs
    cases h
    exact ⟨hp, hs⟩
  · cases h

private theorem callsAhead_refused : ∃ s, ∃ c : Compilation Recorder, refused callsAhead = some
    (s, .unknownLabel ⟨0⟩, c) ∧
    s.Secluded ∧ ∀ e ∈ s.labels.toList, e ∈ s.items.order ∧ e ∈ c.session.items.order := by
  obtain ⟨⟨s, e, c⟩, hsc, hd⟩ := any_eq_true _ _ |>.mp
    (show (refused callsAhead).any (fun (s, e, c) => e = .unknownLabel ⟨0⟩ ∧ s.Secluded ∧
      ∀ e ∈ s.labels.toList, e ∈ s.items.order ∧ e ∈ c.session.items.order) = true by decide +kernel)
  obtain ⟨rfl, hsec, hlab⟩ := of_decide_eq_true hd
  exact ⟨s, c, hsc, hsec, hlab⟩

theorem serialize_unknownLabel_iff_missed_callsAhead : ∃ s,
    Builder.program Builder.callsAhead { options := {} } = .ok () s ∧ s.Secluded ∧ Missed Recorder s ⟨0⟩ := by
  obtain ⟨s, c, hsc, hsec, -⟩ := callsAhead_refused
  obtain ⟨hp, hf⟩ := refused_eq_some hsc
  exact ⟨s, hp, hsec, (serialize_unknownLabel_iff_missed hp hsec).1 _ _ hf⟩

/-- A label that is bound, and whose target stays where it is, may be reported as unknown. -/
theorem bound_label_unknown : ∃ s, ∃ c : Compilation Recorder,
    Builder.program Builder.callsAhead { options := {} } = .ok () s ∧ s.Secluded ∧
    (∀ e ∈ s.labels.toList, e ∈ s.items.order ∧ e ∈ c.session.items.order) ∧
    serialize ⟨s, Encoder.fresh⟩ = .error (.unknownLabel ⟨0⟩) c := by
  obtain ⟨s, c, hsc, hsec, hlab⟩ := callsAhead_refused
  obtain ⟨hp, hf⟩ := refused_eq_some hsc
  exact ⟨s, c, hp, hsec, hlab, hf⟩

end Compile

end Codegen
