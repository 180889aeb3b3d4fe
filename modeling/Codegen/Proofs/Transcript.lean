import Codegen.Proofs.UnknownLabels

/-! What a recorder keeps of a program. The entries are those of the items, in the order in which they stand when the
program has been handed over. The items of the program that were not taken out stand there as they were built. -/
namespace Codegen
variable {c : Compilation Recorder} {last : ItemId} {s : Session}

/-- An entry without the operands. -/
def Entry.outline : Entry → Entry
  | .instruction op _ => .instruction op []
  | e => e

def ItemKind.leaves : ItemKind → Bool
  | .ret _ => true
  | _ => false

namespace Session
variable {s' : Session}

theorem entriesOf_congr (ho : s'.options = s.options)
    (hf : s'.functions.map FunctionRecord.bare = s.functions.map FunctionRecord.bare) : s'.entriesOf = s.entriesOf := by
  have hlabel : ∀ o : Option FunctionRecord, (o.toList.map fun record => Entry.instruction .jmp [.label record.exitLabel]) =
      (o.map FunctionRecord.bare).toList.map fun record => .instruction .jmp [.label record.exitLabel] := by
    intro o
    cases o <;> rfl
  funext kind
  cases kind with
  | ret r =>
    simp only [entriesOf]
    rw [hlabel s'.functions[r.function.index]?, hlabel s.functions[r.function.index]?, ← Array.getElem?_map,
      ← Array.getElem?_map, hf]
  | comment text => simp only [entriesOf, ho]
  | _ => rfl

theorem entriesAt_congr (hi : s'.items.get? x = s.items.get? x) (ho : s'.options = s.options)
    (hf : s'.functions.map FunctionRecord.bare = s.functions.map FunctionRecord.bare) :
    s'.entriesAt x = s.entriesAt x := by
  rw [entriesAt, entriesAt, hi, entriesOf_congr ho hf]

end Session

namespace Compile
open Build (bind_ok pure_ok get_ok modify_ok throw_ok when_ok forM_nil_ok forM_cons_ok)
open Session
variable [Encoder ε] {c : Compilation ε}

theorem compileFunction_offers [Encoder.Shows ε] (h : compileFunction f c = .ok last c') :
    ∃ start frame t d, Build.lowerFunction f c.session = .ok (start, last, frame) t ∧ Offers f start last c t d ∧
      c'.encoder = d.encoder := by
  cases hl : Build.lowerFunction f c.session with
  | error e t =>
    unfold compileFunction at h
    simp only [bind_ok, onSession_ok] at h
    obtain ⟨_, _, ⟨⟩, _, _, ⟨_, hl', -⟩, -⟩ := h
    cases hl ▸ hl'
  | ok r t =>
    obtain ⟨start, last', frame⟩ := r
    obtain ⟨c1, hd⟩ := defineLabels_total c.session.labelCount (t.labelCount - c.session.labelCount) ⟨t, c.encoder⟩
    obtain ⟨stats, hst⟩ := (defineLabels_hands hd).session
    have hitems : c1.session.items = t.items := by rw [hst]
    rw [compileFunction_eq hl hd, hitems] at h
    obtain ⟨_, d, hemit, h1⟩ := bind_ok.mp h
    obtain ⟨_, d', hcheck, h2⟩ := bind_ok.mp h1
    obtain ⟨rfl, -⟩ := checkItems_ok hcheck
    simp only [noteCompiled, bind_ok, onSession_ok, Build.modifyStats_ok] at h2
    obtain ⟨_, _, ⟨_, -, rfl⟩, _, _, ⟨⟩, _, _, ⟨_, -, rfl⟩, ⟨⟩⟩ := h2
    exact ⟨start, frame, t, d', rfl, ⟨frame, c1, hl, hd, hemit⟩, rfl⟩

section Recorder
variable {c : Compilation Recorder}

theorem hand_records (h : hand e c = .ok () c') : c'.encoder.entries.toList = c.encoder.entries.toList ++ [e] ∧
    c'.encoder.labels.defined = c.encoder.labels.defined := by
  cases e with
  | instruction op operands =>
    simp only [hand, emitInstruction, bind_ok] at h
    obtain ⟨_, _, ⟨⟩, h⟩ := h
    simp only [Encoder.emit, Recorder.emit] at h
    split at h
    · obtain ⟨_, d, hd, h⟩ := h
      cases hd
      obtain ⟨_, rfl, rfl⟩ := h
      simp [Recorder.push]
    · obtain ⟨_, d, hd, h⟩ := h
      simp only [bind_ok, throw_ok, false_and, exists_false] at h
  | label l =>
    rw [hand] at h
    obtain ⟨r, hr, rfl⟩ := onEncoder_ok.mp h
    simp only [Encoder.markLabel, Recorder.markLabel, LabelBook.mark] at hr
    split at hr
    · cases hr
    split at hr
    · cases hr
    · cases hr
      exact ⟨Array.toList_push, rfl⟩
  | align | data =>
    rw [hand] at h
    obtain ⟨r, hr, rfl⟩ := onEncoder_ok.mp h
    cases hr
    simp [Recorder.push]
  | comment text =>
    cases modify_ok.mp h
    simp [Encoder.comment, Recorder.push]

theorem emitItem_records (h : emitItem x c = .ok () c') :
    c'.encoder.entries.toList = c.encoder.entries.toList ++ c.session.entriesAt x ∧
      c'.encoder.labels.defined = c.encoder.labels.defined := by
  obtain ⟨he, rfl⟩ | ⟨e, he, h⟩ := emitItem_hand h
  · simp [he]
  · rw [he]
    exact hand_records h

theorem emitItems_record {ids : List ItemId} (h : ids.forM emitItem c = .ok () c') :
    c'.encoder.entries.toList = c.encoder.entries.toList ++ ids.flatMap c.session.entriesAt := by
  induction ids generalizing c with
  | nil =>
    cases forM_nil_ok.mp h
    simp
  | cons x ids ih =>
    obtain ⟨d, hd, h⟩ := forM_cons_ok.mp h
    obtain ⟨stats, hst⟩ := (emitItem_hands hd).session
    have hsame : d.session.entriesAt = c.session.entriesAt :=
      funext fun y => entriesAt_congr (by rw [hst]) (by rw [hst]) (by rw [hst])
    rw [ih h, (emitItem_records hd).1, hsame]
    simp

theorem defineLabels_entries (h : defineLabels first count c = .ok () c') : c'.encoder.entries = c.encoder.entries :=
  Build.forM_induct (P := fun _ d => d.encoder.entries = c.encoder.entries)
    (fun _ _ _ _ hd he => by
      cases modify_ok.mp he
      exact hd) h rfl

theorem Offers.records (h : Offers f start last c t c') :
    c'.encoder.entries.toList = c.encoder.entries.toList ++ (t.items.range start last).flatMap t.entriesAt := by
  obtain ⟨frame, c1, -, hdef, hemit⟩ := h
  obtain ⟨stats, hst⟩ := (defineLabels_hands hdef).session
  have hsame : c1.session.entriesAt = t.entriesAt :=
    funext fun y => entriesAt_congr (by rw [hst]) (by rw [hst]) (by rw [hst])
  rw [emitItems_record hemit, hsame, defineLabels_entries hdef]

end Recorder

end Compile

/-! The items of the program in a program that was lowered. -/

/-- The items read alike, operands aside. -/
def ItemKind.Resembles (k k' : ItemKind) : Prop :=
  k'.leaves = k.leaves ∧ (k.leaves = false → ∀ s : Session,
    (s.entriesOf k').map Entry.outline = (s.entriesOf k).map Entry.outline)

namespace ItemKind
variable {k : ItemKind}

theorem Resembles.refl (k : ItemKind) : k.Resembles k := ⟨rfl, fun _ _ => rfl⟩

theorem Resembles.trans (h : k.Resembles k') (h' : k'.Resembles k'') : k.Resembles k'' :=
  ⟨h'.1.trans h.1, fun hk s => (h'.2 (h.1.trans hk) s).trans (h.2 hk s)⟩

theorem Turns.resembles (h : k.Turns m n k') : k.Resembles k' := by
  cases h with
  | same => exact .refl k
  | settles h =>
    cases h with
    | ret => exact ⟨rfl, nofun⟩
    | _ => exact ⟨rfl, fun _ _ => rfl⟩
  | detours | binds => exact ⟨rfl, fun _ _ => rfl⟩

theorem PreparedAs.resembles (h : k.PreparedAs k') : k.Resembles k' := by
  cases k with
  | instruction i =>
    obtain ⟨records, memVars, -, rfl⟩ := h
    exact ⟨rfl, fun _ _ => rfl⟩
  | jump j =>
    obtain ⟨taken, rfl⟩ := h
    exact ⟨rfl, fun _ _ => rfl⟩
  | _ => cases h; exact .refl _

end ItemKind

namespace Session
variable {u : Session} {id : ItemId} {cut : Prop}

/-- The items that were there are still there. Those that are taken out are flagged as unreachable, and no others. -/
structure Carries (u u' : Session) : Prop where
  linear : u.items.Linear → u'.items.Linear
  items : u.items.Linear → ∀ {x item}, u.items.get? x = some item → ∃ item', u'.items.get? x = some item' ∧
    item.kind.Resembles item'.kind ∧ (item.unreachable = true → item'.unreachable = true) ∧
    (x ∈ u'.items.order → x ∈ u.items.order ∧ item'.unreachable = item.unreachable) ∧
    (x ∈ u.items.order → x ∉ u'.items.order → item'.unreachable = true)

namespace Carries

theorem trans (h : u.Carries u') (h' : u'.Carries v) : u.Carries v where
  linear hl := h'.linear (h.linear hl)
  items hl {x item} hi := by
    obtain ⟨item', hi', hk, hf, hin, hout⟩ := h.items hl hi
    obtain ⟨item'', hi'', hk', hf', hin', hout'⟩ := h'.items (h.linear hl) hi'
    refine ⟨item'', hi'', hk.trans hk', fun h => hf' (hf h), fun ho => ?_, fun ho ho'' => ?_⟩
    · obtain ⟨ho', he'⟩ := hin' ho
      obtain ⟨ho, he⟩ := hin ho'
      exact ⟨ho, he'.trans he⟩
    · by_cases ho' : x ∈ u'.items.order
      · exact hout' ho' ho''
      · exact hf' (hout ho ho')

theorem of_adds (ha : u.items.Linear → u.items.Edits (fun _ => False) u'.items)
    (hi : ∀ {x item item'}, u.items.get? x = some item → u'.items.get? x = some item' →
      item.kind.Resembles item'.kind ∧ item'.unreachable = item.unreachable) : u.Carries u' where
  linear hl := (ha hl).linear
  items hl {x item} hx := by
    have hlt := ItemSeq.lt_size_of_get? hx
    obtain ⟨item', hx'⟩ := ItemSeq.get?_of_lt_size (hlt.trans_le (ha hl).size)
    obtain ⟨hk, hf⟩ := hi hx hx'
    exact ⟨item', hx', hk, fun h => hf ▸ h, fun ho => ⟨(ha hl).mem_order hlt ho, hf⟩, fun ho ho' =>
      absurd ((ha hl).linked x ho not_false) ho'⟩

theorem refl (u : Session) : u.Carries u := of_adds .refl fun h h' => by
    cases h ▸ h'
    exact ⟨.refl _, rfl⟩

theorem modify (hu : u'.items = u.items.modify x g)
    (hg : ∀ {item}, u.items.get? x = some item → item.kind.Resembles (g item).kind ∧ (g item).unreachable = item.unreachable) :
    u.Carries u' :=
  of_adds (fun hl => .of_order hl (by rw [hu]; rfl) (by simp [hu, ItemSeq.modify, ItemSeq.size])) fun {y item item'} hi hi' => by
    rw [hu] at hi'
    rcases ItemSeq.get?_modify_cases hi' with ⟨-, hy⟩ | ⟨rfl, _, hy, rfl⟩ <;> cases hi ▸ hy
    · exact ⟨.refl _, rfl⟩
    · exact hg hi

theorem remove (hsize : u'.items.size = u.items.size) (ho : u.items.order = X ++ R ++ Y)
    (ho' : u'.items.order = X ++ Y) (hget : ∀ x, u'.items.get? x =
      if x ∈ R then (u.items.get? x).map ({ · with unreachable := true }) else u.items.get? x) : u.Carries u' where
  linear hl := by
    have hsub : (X ++ Y).Sublist (X ++ R ++ Y) := (List.sublist_append_left X R).append_right Y
    refine ⟨ho' ▸ (ho ▸ hl.nodup).sublist hsub, fun x hx => hsize ▸ hl.made x ?_⟩
    rw [ho]
    exact hsub.subset (ho' ▸ hx)
  items hl {x item} hi := by
    have hn := hl.nodup
    rw [ho, List.append_assoc, List.nodup_append, List.nodup_append] at hn
    rw [hget, hi, ho, ho']
    by_cases hx : x ∈ R
    · have hX : x ∉ X := fun h => hn.2.2 x h x (List.mem_append_left _ hx) rfl
      have hY : x ∉ Y := fun h => hn.2.1.2.2 x hx x h rfl
      exact ⟨{ item with unreachable := true }, by simp [hx], .refl _, fun _ => rfl,
        fun h => ((List.mem_append.mp h).elim hX hY).elim, fun _ _ => rfl⟩
    · exact ⟨item, by simp [hx], .refl _, id, fun h => ⟨by simpa [hx] using h, rfl⟩, fun h h' =>
        absurd (by simpa [hx] using h) h'⟩

end Carries

theorem Change.carries (h : u.Change id T cut u') : u.Carries u' := by
  have hadds : u.Adds (fun _ => False) cut u' := h.adds
  refine .of_adds hadds.adds fun {x item item'} hi hi' => ?_
  rcases h.items hi' with ⟨item0, hi0, hk, he⟩ | ⟨hx, -⟩
  · cases hi ▸ hi0
    rw [he]
    exact ⟨hk.resembles, rfl⟩
  · exact absurd (ItemSeq.lt_size_of_get? hi) (not_lt.mpr hx)

theorem Edit.carries (h : u.Edit p u') : u.Carries u' := by
  cases h with
  | change _ _ h => exact h.carries
  | remove hR hrest hsize ho ho' hget => exact .remove hsize ho ho' hget
  | @finish y item hy ht =>
    unfold leaving
    split
    · exact .refl u
    · exact .modify rfl fun _ => ⟨.refl _, rfl⟩
  | quiet hi =>
    exact .of_adds (fun hl => .of_order hl (by rw [hi]; rfl) (by rw [hi]; exact le_refl _)) fun hx hx' => by
      rw [hi] at hx'
      cases hx ▸ hx'
      exact ⟨.refl _, rfl⟩
  | @place _ anchor text code hlin hcode h =>
    refine .of_adds (fun hl => ?_) fun {x item item'} hx hx' => by
      cases (h.get?_of_lt (ItemSeq.lt_size_of_get? hx) ▸ hx').symm.trans hx
      exact ⟨.refl _, rfl⟩
    have hlays : Session.Lays (fun _ => False) _ _ := h.lays
    have he := hlays.edits hl
    refine ⟨he.size, he.linear, he.order, fun x hx _ => ?_⟩
    by_cases ha : anchor ∈ u.items.order
    · obtain ⟨X, Y, hXY⟩ := List.append_of_mem ha
      obtain ⟨E, -, -, horder⟩ := h.bears hl
      rw [hXY] at hx
      rw [horder X Y hXY]
      simp only [List.mem_append, List.mem_cons] at hx ⊢
      tauto
    · rwa [h.order_of_unlinked ha hl.made]
  | @bind y item i operands frame hy hi hk h =>
    refine .modify rfl fun {item0} hi0 => ?_
    cases hi ▸ hi0
    exact ⟨hk ▸ (ItemKind.Turns.binds (m := 0) (n := 0) h).resembles, rfl⟩

theorem Edits.carries (h : u.Edits p u') : u.Carries u' := by
  induction h with
  | refl => exact .refl u
  | tail _ h ih => exact ih.trans h.carries

theorem Walked.carries (h : u.Walked f args P v) : u.Carries v :=
  .of_adds (fun hl => .of_order hl h.order.1 (le_of_eq h.order.2.symm)) fun {x item item'} hi hi' => by
    by_cases hx : x ∈ P
    · obtain ⟨kind', o, hk, ht, -⟩ := h.done hx hi
      cases ht ▸ hi'
      exact ⟨hk.resembles, rfl⟩
    · rw [h.others hx, hi] at hi'
      cases hi'
      exact ⟨.refl _, rfl⟩

theorem Carries.congr (h : u.Carries u') (hi : v.items = u'.items) : u.Carries v where
  linear hl := hi ▸ h.linear hl
  items hl {_ _} hx := hi ▸ h.items hl hx

theorem LowersAt.carries (h : u.LowersAt p f last v t)
    (hr : u.Ready f record p.stop p.body) (hp : u.Prepared f record p.stop v) : u.Carries t := by
  obtain ⟨proto, -, hprep⟩ := hp.prepared
  have hbegun : u.Carries (u.begun f record p.stop proto) := (Carries.refl u).congr rfl
  exact hbegun.trans ((hr.walked hprep).carries.trans (Edits.carries h.edits))

end Session

namespace Delivery
open Session
variable {m : Delivery Recorder}

/-- The entries are those of the items that were handed over. -/
def Tells (m : Delivery Recorder) : Prop :=
  ∃ done, m.state.session.items.order = done ++ m.rest ∧
    m.state.encoder.entries.toList = done.flatMap m.state.session.entriesAt

theorem Advances.tells (ha : m.Advances m') (h : m.Tells) (hc : s.Carries m.state.session)
    (hu : s.Untouched m.rest m.state.session) (hs : s.Fresh) (hsec : s.Secluded) :
    m'.Tells ∧ s.Carries m'.state.session := by
  obtain ⟨done, ho, he⟩ := h
  cases ha with
  | @item c c' x rest hx hemit =>
    obtain ⟨stats, hst⟩ := (Compile.emitItem_hands hemit).session
    refine ⟨⟨done ++ [x], ?_, ?_⟩, hc.congr (by rw [hst])⟩
    · rw [hst]
      simpa using ho
    have hsame : c'.session.entriesAt = c.session.entriesAt :=
      funext fun y => entriesAt_congr (by rw [hst]) (by rw [hst]) (by rw [hst])
    rw [(Compile.emitItem_records hemit).1, hsame, he]
    simp
  | @function c c' x rest f last hx hcomp =>
    obtain ⟨start, frame, t, d, hlow, hoff, henc⟩ := Compile.compileFunction_offers hcomp
    obtain ⟨start', frame', t', hlow', ⟨stats, hst⟩, -⟩ := Compile.compileFunction_ok hcomp
    cases hlow ▸ hlow'
    obtain ⟨p, record, v, hstart, rfl, rfl, hrest, hr, hru, hstand, -, hp, hat, hback⟩ := hu.lowered hs hsec (hu.opens hx) hlow
    obtain ⟨B, E, horder, hrange, htail, -⟩ := hat.keeps.range hat.linear
    have hitems : c'.session.items = t.items := by rw [hst]
    have hbare : c'.session.functions.map FunctionRecord.bare = t.functions.map FunctionRecord.bare := by
      rw [hst]
      refine Array.ext_getElem? fun i => ?_
      simp only [Array.getElem?_map, Array.getElem?_modify]
      split
      · cases t.functions[i]? <;> rfl
      · rfl
    have hsame : c'.session.entriesAt = t.entriesAt := funext fun y => entriesAt_congr (by rw [hitems]) (by rw [hst]) hbare
    have hdone : done = p.front := by
      have hstands := hstand.order
      rw [hstart, ← hrest] at hstands
      exact List.append_cancel_right (ho.symm.trans hstands :)
    refine ⟨⟨p.front ++ p.start :: (B ++ p.stop :: E), ?_, ?_⟩, (hc.trans (hat.carries hru hp)).congr hitems⟩
    · rw [hitems, horder]
      rw [htail]
      simp
    -- what was handed over before is not changed any more
    have hfront : p.front.flatMap t.entriesAt = p.front.flatMap c.session.entriesAt := by
      refine List.flatMap_congr fun y hy => entriesAt_congr ?_ hat.options (by rw [hat.functions])
      have hown := p.not_own_front hy
      have hlt : y.index < v.items.size := by
        rw [← hat.prepared.1, ← hstand.size]
        exact p.made y (List.mem_append_left _ hy)
      exact (Edits.get?_of_not_own hat.edits hlt hown).trans (hat.prepared.2 y hown)
    rw [henc, hoff.records, hsame, he, hdone, List.flatMap_append, hfront, ← hrange, hstart]

end Delivery

namespace Compile
open Session

theorem Reaches.tells (h : Reaches s m) (hs : s.Fresh) (hsec : s.Secluded) : m.Tells ∧ s.Carries m.state.session := by
  obtain ⟨d, hd, hrun⟩ := h
  induction hrun with
  | refl =>
    obtain ⟨stats, hst⟩ := (defineLabels_hands hd).session
    refine ⟨⟨[], by rw [hst]; rfl, ?_⟩, (Carries.refl s).congr (by rw [hst])⟩
    rw [defineLabels_entries hd]
    rfl
  | @tail m1 m2 hm ha ih =>
    have hr : Reaches s m1 := ⟨d, hd, hm⟩
    exact ha.tells ih.1 ih.2 (hr.untouched hs hsec) hs hsec

end Compile

theorem ItemSeq.eq_filter_of_sublist {l o : List ItemId} (h : l.Sublist o) (hn : o.Nodup)
    (hq : ∀ x ∈ o, x ∈ l ↔ q x = true) : l = o.filter q := by
  induction h with
  | slnil => rfl
  | @cons l o x h ih =>
    obtain ⟨hx, hn⟩ := List.nodup_cons.mp hn
    have hqx : q x ≠ true := fun hq' => hx (h.subset ((hq x List.mem_cons_self).mpr hq'))
    rw [List.filter_cons_of_neg hqx]
    exact ih hn fun y hy => hq y (.tail _ hy)
  | @cons_cons l o x h ih =>
    obtain ⟨hx, hn⟩ := List.nodup_cons.mp hn
    rw [List.filter_cons_of_pos ((hq x List.mem_cons_self).mp List.mem_cons_self)]
    refine congrArg (x :: ·) (ih hn fun y hy => ?_)
    rw [← hq y (.tail _ hy), List.mem_cons, or_iff_right (fun he : y = x => hx (he ▸ hy))]

namespace Session

/-- The item was made by the builder, and it is not a return. -/
def supplies (s : Session) (x : ItemId) : Bool := (s.items.get? x).any fun item => !item.kind.leaves

/-- The item was taken out as unreachable. -/
def removed (s : Session) (x : ItemId) : Bool := (s.items.get? x).any Item.unreachable

end Session

namespace Compile
open Session

/-- In a program whose jumps stay inside their functions, what is recorded are the entries of the items as they stand at the
end. Without those of generated items and returns, they are the entries of the program that was built, in the order in
which it was built and operands aside, except for the items that were removed as unreachable. -/
theorem serialize_keeps_items {calls : List Builder.Call} {options : Options}
    (hb : Builder.program calls { options } = .ok () s) (hsec : s.Secluded)
    (h : serialize ⟨s, Encoder.fresh⟩ = .ok () c) :
    c.encoder.entries.toList = c.session.items.order.flatMap c.session.entriesAt ∧
      (c.session.items.order.filter s.supplies).flatMap (fun x => (c.session.entriesAt x).map Entry.outline) =
        (s.items.order.filter fun x => s.supplies x && !c.session.removed x).flatMap
          fun x => (s.entriesAt x).map Entry.outline := by
  have hs := Builder.program_fresh hb
  have hreach := serialize_reaches h
  obtain ⟨⟨done, ho, he⟩, hc⟩ := hreach.tells hs hsec
  have hlin : s.items.Linear := ⟨hs.built.nodup, hs.built.made⟩
  rw [List.append_nil] at ho
  refine ⟨ho ▸ he, ?_⟩
  have hedits := (hreach.sound hs.built hs.contoured).retains.edits hlin
  have hkept : c.session.items.order.filter s.supplies =
      s.items.order.filter fun x => s.supplies x && !c.session.removed x := by
    refine ItemSeq.eq_filter_of_sublist (.trans ?_ hedits.order) hlin.nodup fun x hx => ?_
    · refine List.monotone_filter_right _ fun x hx => ?_
      obtain ⟨item, hi, -⟩ := Option.any_eq_true _ _ |>.mp hx
      exact decide_eq_true (ItemSeq.lt_size_of_get? hi)
    · obtain ⟨item, hi⟩ := ItemSeq.get?_of_lt_size (hlin.made x hx)
      obtain ⟨item', hi', -, -, hin, hout⟩ := hc.items hlin hi
      have hflag : item.unreachable = false := congrArg Item.unreachable (hs.built.fresh hi)
      have hrem : c.session.removed x = item'.unreachable := by simp [removed, (hi' :)]
      rw [List.mem_filter, Bool.and_eq_true, Bool.not_eq_true', hrem, and_comm]
      refine and_congr_right fun _ => ⟨fun ho => (hin ho).2.trans hflag, fun hf => ?_⟩
      by_contra ho
      rw [hout hx ho] at hf
      cases hf
  rw [hkept]
  refine List.flatMap_congr fun x hx => ?_
  obtain ⟨item, hi, hl⟩ := Option.any_eq_true _ _ |>.mp (Bool.and_eq_true _ _ ▸ (List.mem_filter.mp hx).2).1
  obtain ⟨item', hi', ⟨-, hk⟩, -⟩ := hc.items hlin hi
  have hsame : c.session.entriesOf = s.entriesOf :=
    entriesOf_congr (hreach.untouched hs hsec).options (hreach.sound hs.built hs.contoured).retains.functions
  rw [entriesAt_of_get? hi, entriesAt_of_get? hi', hsame]
  exact hk (by simpa using hl) s

end Compile

namespace Builder

/-- A function that jumps over some code. -/
def skips : List Call :=
  let a : VarRef := ⟨⟨0⟩, 8⟩
  [.newFunction [.gpq] [.gpq] {}, .newLabel, .newLabel, .emit .inc [.var a], .jump .jmp ⟨3⟩ .none, .bind ⟨2⟩,
    .emit .dec [.var a], .bind ⟨3⟩, .align 16, .ret [.var a], .endFunction, .embed [7]]

/-- A function that ends with a jump to a label in front of it. -/
def leapsOut : List Call :=
  [.newLabel, .bind ⟨0⟩, .newFunction [] [] {}, .ret [], .jump .jmp ⟨0⟩ .none, .endFunction]

end Builder

namespace Compile

theorem serialize_keeps_items_skips : ∃ s, ∃ c : Compilation Recorder,
    Builder.program Builder.skips { options := {} } = .ok () s ∧ s.Secluded ∧ serialize ⟨s, Encoder.fresh⟩ = .ok () c ∧
    c.session.removed ⟨3⟩ = true ∧
    (c.session.items.order.filter s.supplies).flatMap (fun x => (c.session.entriesAt x).map Entry.outline) =
      (s.items.order.filter fun x => s.supplies x && !c.session.removed x).flatMap
        fun x => (s.entriesAt x).map Entry.outline := by
  obtain ⟨⟨s, c⟩, hsc, hd⟩ := Option.any_eq_true _ _ |>.mp
    (show (recorded Builder.skips).any (fun (s, c) => s.Secluded ∧ c.session.removed ⟨3⟩ = true) = true by decide +kernel)
  obtain ⟨hp, hs⟩ := recorded_ok hsc
  obtain ⟨hsec, hrem⟩ := of_decide_eq_true hd
  exact ⟨s, c, hp, hsec, hs, hrem, (serialize_keeps_items hp hsec hs).2⟩

/-- A jump out of a function may cost the function: nothing of it is recorded, though its items are not removed. -/
theorem leaping_function_lost : ∃ s, ∃ c : Compilation Recorder,
    Builder.program Builder.leapsOut { options := {} } = .ok () s ∧ serialize ⟨s, Encoder.fresh⟩ = .ok () c ∧
    c.encoder.entries.toList = [.label ⟨0⟩] ∧
    ∃ x ∈ s.items.order, s.supplies x = true ∧ c.session.removed x = false ∧
      s.entriesAt x = [.instruction .jmp [.label ⟨0⟩]] := by
  obtain ⟨⟨s, c⟩, hsc, hd⟩ := Option.any_eq_true _ _ |>.mp
    (show (recorded Builder.leapsOut).any (fun (s, c) => c.encoder.entries.toList = [.label ⟨0⟩] ∧
      ∃ x ∈ s.items.order, s.supplies x = true ∧ c.session.removed x = false ∧
        s.entriesAt x = [.instruction .jmp [.label ⟨0⟩]]) = true by decide +kernel)
  obtain ⟨hp, hs⟩ := recorded_ok hsc
  obtain ⟨hentries, hlost⟩ := of_decide_eq_true hd
  exact ⟨s, c, hp, hs, hentries, hlost⟩

end Compile

end Codegen
