import Codegen.Proofs.BuilderSteps
import Codegen.Proofs.FramePaths
import Codegen.Proofs.Framing
import Codegen.Proofs.Succession

/-! The code of the frame on the paths through a compiled function. Each time control comes to the entry, the frame is set
up before anything else is done; it is taken down once, on the way out. -/
namespace Codegen
open List Build ItemSeq Builder Instruction
variable {record : FunctionRecord} {last stop : ItemId} {body : List ItemId}
  {s t : Session}

namespace Session

theorem returnsAt_of_codeAt {operands : List Operand} (h : .instruction .ret operands ∈ s.codeAt x) :
    s.ReturnsAt x := by
  cases hi : s.items.get? x with
  | none => simp [codeAt, hi] at h
  | some item =>
    rw [codeAt_of_get? hi] at h
    refine ⟨item, hi, ?_⟩
    cases hk : item.kind with
    | instruction i =>
      simp_all [ItemKind.isReturn, codeOf, given]
    | jump j =>
      simp_all [ItemKind.isReturn, codeOf]
    | _ => simp_all [codeOf]

end Session

theorem ItemKind.PreparedAs.isReturn_eq {k k' : ItemKind} (h : k.PreparedAs k') : k'.isReturn = k.isReturn := by
  cases k with
  | instruction i =>
    obtain ⟨records, memVars, -, rfl⟩ := h
    rfl
  | jump j =>
    obtain ⟨taken, rfl⟩ := h
    rfl
  | _ =>
    cases h
    rfl

namespace Build
variable {frame : FrameLayout} {ids : List ItemId}

theorem returnsAt_of_bindAll (h : ids.forM (bindHomes frame) s = .ok () t) (hx : t.ReturnsAt x) : s.ReturnsAt x := by
  obtain ⟨item, hi, hr⟩ := hx
  obtain ⟨item0, hi0, hk | ⟨i, operands, hk0, hk⟩⟩ := bindAll_kind h hi
  · exact ⟨item0, hi0, hk ▸ hr⟩
  · rw [hk] at hr
    exact ⟨item0, hi0, hk0 ▸ hr⟩

end Build

namespace ItemSeq

theorem Lies.splits {q : ItemSeq}
    (h : q.Lies n start stop last A D B C) (hq : q.Linear) (hx : x ∈ D) (ho : q.order = X ++ x :: (P ++ Y))
    (hstop : stop ∉ P) : ∃ D₁ D₂, D = D₁ ++ x :: (P ++ D₂) := by
  obtain ⟨D₁, D', rfl⟩ := append_of_mem hx
  have horder : q.order = (A ++ start :: D₁) ++ x :: (D' ++ stop :: (B ++ C)) := by simpa using h.order
  obtain ⟨-, htail⟩ := split_unique (ho ▸ hq.nodup) (ho ▸ horder)
  rcases append_eq_append_iff.mp htail with ⟨Z, rfl, -⟩ | ⟨Z, rfl, hZ⟩
  · exact ⟨D₁, Z, rfl⟩
  cases Z with
  | nil => exact ⟨D₁, [], by simp⟩
  | cons z Z =>
    obtain ⟨rfl, -⟩ := cons.inj hZ
    exact absurd (by simp) hstop

theorem Bears.not_mem (h : t.items.Bears P code) (hx : t.roleAt x ≠ .inner) : x ∉ P := fun hP => by
  obtain ⟨item, hi⟩ := get?_of_lt_size (Session.lt_size_of_roleAt hx)
  rw [Session.roleAt_of_get? hi] at hx
  rcases h.kind_cases hP hi with ⟨text, hk⟩ | ⟨i, -, hk⟩ <;> rw [hk] at hx <;> exact hx rfl

end ItemSeq

namespace Session
variable {u : Session}
variable {frame : FrameLayout} {path : List Nat}

/-- The body of a function begins at its entry and holds its exit, and nothing in it returns. -/
structure Enters (s : Session) (record : FunctionRecord) (body : List ItemId) : Prop where
  entry : ∃ entry rest, body = entry :: rest ∧ s.labels[record.entryLabel.index]? = some entry
  exit : ∃ exit ∈ body, s.labels[record.exitLabel.index]? = some exit
  ne : record.entryLabel ≠ record.exitLabel
  returns : ∀ x ∈ body, ¬ s.ReturnsAt x

section
variable (h : u.Ready f record stop body)
include h

theorem Ready.returnsAt_of_prepared
    (hv : prepareFunction f record stop p u = .ok () v) (hx : v.ReturnsAt x) : u.ReturnsAt x := by
  obtain ⟨item, hi, hr⟩ := hx
  have hw := h.walked hv
  by_cases hP : x ∈ record.item :: (body ++ [stop])
  · obtain ⟨item', hi'⟩ : ∃ item', (u.begun f record stop p).items.get? x = some item' :=
      get?_of_lt_size (hw.order.2 ▸ lt_size_of_get? hi)
    obtain ⟨kind', o, hk, hx, -⟩ := hw.done hP hi'
    cases hi ▸ hx
    exact ⟨item', hi', hk.isReturn_eq ▸ hr⟩
  · exact ⟨item, hw.others hP ▸ hi, hr⟩

/-- A lowered function. Outside the epilogue nothing returns, and new labels are bound behind the function. -/
theorem Ready.lowered_frame (hlab : u.Labelled) (hent : u.Enters record body)
    (hp : u.Prepared f record stop v) (hl : lowerFunction f u = .ok (record.item, last, frame) t) :
    ∃ entry exit P E, t.labels[record.entryLabel.index]? = some entry ∧ t.labels[record.exitLabel.index]? = some exit ∧
      t.Framed entry exit frame P E ∧ (∃ i : FrameInput, frame = i.layout) ∧
      (∀ x ∈ t.items.range record.item last, x ∉ E → ∀ operands, .instruction .ret operands ∉ t.codeAt x) ∧
      ∀ x ∈ t.items.order, ∀ l, u.items.size ≤ x.index → t.roleAt x = .binds l → [stop, x].Sublist t.items.order := by
  obtain ⟨q, w, a, b, hw, ha, hb, hbind, entry, exit, P, E, hentry, hexit, hframed, hold⟩ :=
    lowerFunction_framed hlab hp hl
  obtain ⟨p, -, hv⟩ := hp.prepared
  obtain ⟨hitems, i, rfl, -⟩ := layOutFrame_ok ha
  have hprep : u.Retains (fun _ => False) v := prepareFunction_retains hv
  have hvlin : v.items.Linear := (hprep.labelled hlab).toLinear
  have hrest : w.Lays (fun _ => False) t :=
    (layOutFrame_lays ha).trans ((insertFrameCode_lays hb).trans (bindAll_lays hbind))
  have hwlin : w.items.Linear := ((translateAll_lays hw).edits hvlin).linear
  obtain ⟨z, hz, rfl⟩ := translateAll_visits hw
  refine ⟨entry, exit, P, E, hentry, hexit, hframed, ⟨i, rfl⟩, fun x hx hE operands hr => ?_, fun x hx l hge hr => ?_⟩
  · by_cases hP : x ∈ P
    · have hmem : Given.instruction .ret operands ∈ P.flatMap t.codeAt := mem_flatMap.mpr ⟨x, hP, hr⟩
      rw [flatMap_codeAt hframed.prologue] at hmem
      obtain ⟨c, hc, hce⟩ := mem_map.mp hmem
      obtain ⟨op, os, hg, hop⟩ := i.prologue_passed c hc
      cases hg ▸ hce
      cases hop
    · rcases h.lowered_range hp hl hx with hnil | ⟨hin, hmem⟩
      · rw [hnil] at hr
        cases hr
      obtain ⟨item, hi, hr⟩ := returnsAt_of_bindAll hbind (returnsAt_of_codeAt hr)
      rw [insertFrameCode_get?_of_lt hb (by rw [hitems]; exact (hold x hmem hP hE).1), hitems] at hi
      have hzx : z.ReturnsAt x := ⟨item, hi, hr⟩
      obtain ⟨item', hi', hr'⟩ := h.returnsAt_of_prepared hv (hz.returns hzx)
      rcases hin with hbody | hge
      · exact hent.returns x hbody ⟨item', hi', hr'⟩
      · exact absurd (lt_size_of_get? hi') (not_lt.mpr hge)
  · have hP : x ∉ P := hframed.prologue.not_mem (by rw [hr]; simp)
    have hE : x ∉ E := by
      rcases hframed.bears with rfl | hE
      · simp
      · exact hE.not_mem (by rw [hr]; simp)
    obtain ⟨hlt, -⟩ := hold x hx hP hE
    have hblocks := h.blocks hv
    rw [show u.items.size = v.items.size from (h.walked hv).order.2.symm] at hge
    have hbefore := hz.outlying hblocks hge (hrest.kept hlt ▸ hr)
    obtain ⟨g, hclose⟩ := ((Visits.lays hz).blocks hblocks).closes
    have hstays : ∀ y ∈ [stop, x], (z.roleAt y).stays = true := fun y hy => by
      rcases mem_pair.mp hy with rfl | rfl
      · exact congrArg Role.stays hclose
      · exact congrArg Role.stays (hrest.kept hlt ▸ hr)
    have hlinked : ∀ y ∈ [stop, x], y ∈ t.items.order := fun y hy =>
      (hrest.edits hwlin).linked y (hbefore.subset hy) fun hg => hg (hstays y hy)
    exact (hrest.edits hwlin).before_of_mem hwlin hbefore (hlinked _ (by simp)) (hlinked _ (by simp))

/-- No label is bound between the beginning of a function and its entry. -/
theorem Ready.front_unlabelled (hbody : body = entry :: rest) (hret : u.Retains gone t)
    (hlies : t.items.Lies n record.item stop last A (D₁ ++ entry :: D₂) B C)
    (hin : ∀ x ∈ D₁, x ∈ body ∨ u.items.size ≤ x.index)
    (hout : ∀ x ∈ t.items.order, ∀ l, u.items.size ≤ x.index → t.roleAt x = .binds l →
      [stop, x].Sublist t.items.order) (hx : x ∈ record.item :: D₁) (l : LabelId) : .label l ∉ t.codeAt x := by
  intro hl
  have hrole := Delivery.binds_of_codeAt hl
  have hlin : u.items.Linear := ⟨h.nodup, h.made⟩
  have hedits := hret.edits hlin
  have hn := hedits.linear.nodup
  have ho : t.items.order = (A ++ [record.item]) ++ (D₁ ++ entry :: (D₂ ++ stop :: (B ++ C))) := by simpa using hlies.order
  rcases mem_cons.mp hx with rfl | hx
  · cases (hret.item h.opens).symm.trans hrole
  obtain ⟨X, Y, rfl⟩ := append_of_mem hx
  rw [ho] at hn
  have hassoc : (A ++ [record.item]) ++ (X ++ x :: Y ++ entry :: (D₂ ++ stop :: (B ++ C))) =
      (A ++ [record.item] ++ X) ++ x :: (Y ++ entry :: (D₂ ++ stop :: (B ++ C))) := by simp
  have hbehind : ∀ y ∈ Y ++ entry :: (D₂ ++ stop :: (B ++ C)), [x, y].Sublist t.items.order := fun y hy => by
    rw [ho, hassoc]
    exact (before_iff (hassoc ▸ hn)).mpr hy
  rcases hin x (by simp) with hxbody | hge
  · -- the entry comes first in the body
    have hentry : [entry, x].Sublist u.items.order := by
      obtain ⟨A', C', ho'⟩ := h.order
      have hne : x ≠ entry := fun he => by
        rw [hassoc, he] at hn
        simpa using (nodup_cons.mp (nodup_middle.mp hn)).1
      rw [hbody] at hxbody ho'
      have ho'' : u.items.order = (A' ++ [record.item]) ++ entry :: (rest ++ stop :: C') := by simpa using ho'
      rw [ho'']
      exact (before_iff (ho'' ▸ h.nodup)).mpr (mem_append_left _ ((mem_cons.mp hxbody).resolve_left hne))
    have hmem : ∀ y ∈ [entry, x], y ∈ t.items.order := by
      rw [ho]
      simp
    exact not_before hedits.linear.nodup (hbehind entry (by simp))
      (hedits.before_of_mem hlin hentry (hmem _ (by simp)) (hmem _ (by simp)))
  · have hmem : x ∈ t.items.order := by
      rw [ho]
      simp
    exact not_before hedits.linear.nodup (hbehind stop (by simp)) (hout x hmem l hge hrole)

end

/-- The code of the frame stands among the items of a function, right behind its entry and its exit. -/
structure FramedIn (t : Session) (record : FunctionRecord) (frame : FrameLayout) (range P E : List ItemId)
    (entry exit : ItemId) : Prop where
  nodup : range.Nodup
  labelled : t.Labelled
  enters : t.labels[record.entryLabel.index]? = some entry
  leaves : t.labels[record.exitLabel.index]? = some exit
  prologue : t.items.Bears P frame.prologue
  epilogue : t.items.Bears E frame.epilogue
  front : ∃ A B, range = A ++ entry :: (P ++ B) ∧ ∀ x ∈ A, ∀ l, .label l ∉ t.codeAt x
  back : ∃ A B, range = A ++ exit :: (E ++ B)
  returns : ∀ x ∈ range, x ∉ E → ∀ operands, .instruction .ret operands ∉ t.codeAt x

/-- The layout of the code is that of the items. -/
theorem FramedIn.layout {i : FrameInput} {range : List ItemId} {code : List Given}
    (h : t.FramedIn record i.layout range P E entry exit) (hcode : code = range.flatMap t.codeAt)
    (hne : record.entryLabel ≠ record.exitLabel) :
    ∃ e x, .label record.entryLabel :: i.layout.prologue.map given <+: code.drop e ∧
      .label record.exitLabel :: i.layout.epilogue.map given <+: code.drop x ∧
      Given.Layout code record.entryLabel record.exitLabel i.layout.prologue.length i.layout.epilogue.length e x := by
  obtain ⟨A, B, hrange, hA⟩ := h.front
  obtain ⟨A', B', hrange'⟩ := h.back
  have hentry : code = A.flatMap t.codeAt ++ .label record.entryLabel ::
      (i.layout.prologue.map given ++ B.flatMap t.codeAt) := by
    rw [hcode, hrange, flatMap_append, flatMap_cons, flatMap_append, flatMap_codeAt h.prologue,
      Delivery.codeAt_of_binds (h.labelled.targets.mp h.enters)]
    rfl
  have hexit : code = A'.flatMap t.codeAt ++ .label record.exitLabel ::
      (i.layout.epilogue.map given ++ B'.flatMap t.codeAt) := by
    rw [hcode, hrange', flatMap_append, flatMap_cons, flatMap_append, flatMap_codeAt h.epilogue,
      Delivery.codeAt_of_binds (h.labelled.targets.mp h.leaves)]
    rfl
  obtain ⟨front, operands, hepi, hfront⟩ := i.epilogue_returns
  have hexit' : code = A'.flatMap t.codeAt ++ .label record.exitLabel ::
      (front.map given ++ .instruction .ret (Opcode.explicitOperands .ret operands) :: B'.flatMap t.codeAt) := by
    rw [hexit, hepi]
    simp [given]
  have hn := h.nodup
  have hlayout := Given.Layout.of_append hne hentry hexit' (forall_mem_map.mpr i.prologue_passed)
    (forall_mem_map.mpr hfront)
    (fun l hl => by
      obtain ⟨x, hx, hl⟩ := mem_flatMap.mp hl
      exact hA x hx l hl)
    (fun hl => by
      obtain ⟨x, hx, hl⟩ := mem_flatMap.mp hl
      cases h.enters ▸ h.labelled.targets.mpr (Delivery.binds_of_codeAt hl)
      rw [hrange] at hn
      exact (nodup_cons.mp (nodup_middle.mp hn)).1 (by simp [hx]))
    (fun os hret => by
      obtain ⟨x, hx, hret⟩ := mem_flatMap.mp hret
      refine h.returns x (by simp [hrange', hx]) (fun hE => ?_) os hret
      rw [hrange'] at hn
      exact (nodup_append.mp hn).2.2 x hx x (by simp [hE]) rfl)
    (fun os hret => by
      obtain ⟨x, hx, hret⟩ := mem_flatMap.mp hret
      refine h.returns x (by simp [hrange', hx]) (fun hE => ?_) os hret
      rw [hrange'] at hn
      have hn' := (nodup_cons.mp (nodup_append.mp hn).2.1).2
      exact (nodup_append.mp hn').2.2 x hE x hx rfl)
  refine ⟨(A.flatMap t.codeAt).length, (A'.flatMap t.codeAt).length, ?_, ?_, ?_⟩
  · rw [hentry, drop_left]
    exact ⟨_, rfl⟩
  · rw [hexit, drop_left]
    exact ⟨_, rfl⟩
  · simpa only [hepi, length_map, length_append, length_singleton] using hlayout

/-- If a path leads from the entry to a return, the code of the frame stands among the items. -/
theorem Ready.framedIn (h : u.Ready f record stop body) (hlab : u.Labelled) (hent : u.Enters record body)
    (hp : u.Prepared f record stop v) (hl : lowerFunction f u = .ok (record.item, last, frame) t)
    (hpath : Given.Path ((t.items.range record.item last).flatMap t.codeAt) record.entryLabel path) :
    (∃ i : FrameInput, frame = i.layout) ∧
      ∃ P E entry exit, t.FramedIn record frame (t.items.range record.item last) P E entry exit := by
  obtain ⟨entry, exit, P, E, hentry, hexit, hframed, hi, hreturns, hout⟩ := h.lowered_frame hlab hent hp hl
  have hret := lowerFunction_retains hp hl
  have htlab := hret.labelled hlab
  have hkeeps : ∀ {y l}, u.labels[LabelId.index l]? = some y → t.labels[l.index]? = some y := hret.label hlab
  obtain ⟨entry', rest, hbody, hentry'⟩ := hent.entry
  cases hentry ▸ hkeeps hentry'
  obtain ⟨exit', hexitBody, hexit'⟩ := hent.exit
  cases hexit ▸ hkeeps hexit'
  have hne : entry ≠ exit := fun he => by
    have hlabels := htlab.targets.mp hentry ▸ (he ▸ htlab.targets.mp hexit)
    exact hent.ne (Role.binds.inj hlabels)
  have hopen := hret.item h.opens
  have hclose : t.roleAt stop = .closes f := hret.item h.closes
  -- the path starts at the entry, so the entry is among the items
  have hmem : entry ∈ t.items.order ∧ record.item ∈ t.items.order := by
    obtain ⟨e, -, he⟩ := hpath.starts
    obtain ⟨y, hy, hye⟩ := mem_flatMap.mp (mem_of_getElem? he)
    obtain rfl : y = entry := Option.some.inj (htlab.targets.mpr (Delivery.binds_of_codeAt hye) ▸ hentry)
    refine ⟨?_, ?_⟩
    · rcases h.lowered_range hp hl hy with hnil | ⟨-, hmem⟩
      · rw [hnil] at hye
        cases hye
      · exact hmem
    · by_contra hno
      cases mem_singleton.mp (range_of_not_mem hno hy)
      cases hopen ▸ htlab.targets.mp hentry
  -- it ends at a return, so the exit is among them too
  have hexitMem : exit ∈ t.items.order := by
    by_contra hno
    obtain ⟨z, operands, -, hz⟩ := hpath.ends
    obtain ⟨y, hy, hye⟩ := mem_flatMap.mp (mem_of_getElem? hz)
    exact hreturns y hy (by rw [hframed.exit hno]; simp) operands hye
  obtain ⟨A, D, B, C, hlies, hin, hold⟩ := h.lowered_lies hp hl hmem.2
  obtain ⟨hE, X', Y', hX'⟩ := hframed.epilogue hexitMem
  obtain ⟨X, Y, hX⟩ := hframed.entry hne hmem.1
  have hstop : t.roleAt stop ≠ .inner := by rw [hclose]; simp
  obtain ⟨D₃, D₄, hD⟩ := hlies.splits htlab.toLinear (hold exit hexitBody hexitMem) hX' (hE.not_mem hstop)
  obtain ⟨D₁, D₂, rfl⟩ := hlies.splits htlab.toLinear (hold entry (by simp [hbody]) hmem.1) hX
    (hframed.prologue.not_mem hstop)
  refine ⟨hi, P, E, entry, exit, ?_, htlab, hentry, hexit, hframed.prologue, hE, ?_, ?_, hreturns⟩
  · have hn := htlab.nodup
    rw [hlies.order] at hn
    rw [hlies.range]
    exact (nodup_append.mp (nodup_append.mp hn).2.1).1
  · refine ⟨record.item :: D₁, D₂ ++ stop :: B, by rw [hlies.range]; simp, fun x hx l => ?_⟩
    exact h.front_unlabelled hbody hret hlies (fun y hy => hin y (by simp [hy])) hout hx l
  · exact ⟨record.item :: D₃, D₄ ++ stop :: B, by rw [hlies.range, hD]; simp⟩

end Session

namespace Session

section
variable (hc : s.Contoured) (hb : s.WellBuilt) (h : s.Ready f record stop body)
include hc hb h

theorem Contoured.bounds : (∃ entry rest, body = entry :: rest ∧ s.labels[record.entryLabel.index]? = some entry) ∧
      ∃ exit ∈ body, s.labels[record.exitLabel.index]? = some exit := by
  have hlab := hc.labelled hb
  have hn := h.nodup
  have hclose : s.roleAt stop = .closes f := roleAt_of_get? h.closes
  obtain ⟨A, C, ho⟩ := h.order
  obtain ⟨-, e, he, hinfix⟩ := hc.entries h.function
  obtain ⟨exit, hexit, hsub⟩ := hc.exits h.function h.closed
  refine ⟨?_, exit, ?_, hexit⟩
  · obtain ⟨X, Y, hXY⟩ := hinfix
    have hsplit : A ++ record.item :: (body ++ stop :: C) = X ++ record.item :: (e :: Y) := by
      rw [← ho, ← hXY]
      simp
    obtain ⟨-, htail⟩ := split_unique (ho ▸ hn) hsplit
    cases body with
    | nil =>
      cases htail
      cases hclose ▸ hlab.targets.mp he
    | cons x rest =>
      cases htail
      exact ⟨e, rest, rfl, he⟩
  · rw [ho] at hn hsub
    refine (mem_between hn).mpr ⟨?_, ?_⟩
    · exact (((nil_sublist [stop]).cons_cons exit).cons_cons record.item).trans hsub
    · exact ((Sublist.refl [exit, stop]).cons record.item).trans hsub

theorem Contoured.enters (hret : ∀ x ∈ body, ¬ s.ReturnsAt x) : s.Enters record body :=
  ⟨(hc.bounds hb h).1, (hc.bounds hb h).2, (hc.entries h.function).1, hret⟩

end

end Session

namespace Builder

theorem program_enters (h : program calls { options } = .ok u s) (hproper : ∀ c ∈ calls, c.proper = true)
    (hf : s.functions[f.index]? = some record) (hstop : record.stop = some stop) :
    s.Labelled ∧ ∃ body, s.Ready f record stop body ∧ s.Enters record body := by
  obtain ⟨hb, hc⟩ := program_contoured h
  have hnone : ∀ x, ¬ s.ReturnsAt x := by
    intro x hx
    obtain ⟨item, hi, hr⟩ := hx
    have hclean : Clean (fun k => k.isReturn = true) s.items := program_clean (fun c hc => Call.spares_returns (hproper c hc)) h
    exact hclean hi hr
  obtain ⟨body, hready⟩ := program_ready h hf hstop
  exact ⟨hc.labelled hb, body, hready, hc.enters hb hready fun x _ => hnone x⟩

end Builder

namespace Session

/-- The frame is set up each time control comes to the entry, before anything else is done there, and taken down once, at
the end. So it is set up exactly once on the paths that do not come back to the entry, which only a jump that names the
entry does. -/
theorem frame_set_up_once_iff {ε : Type} [Encoder ε] [Encoder.Shows ε] {c c' : Compilation ε}
    (h : c.session.Ready f record stop body) (hlab : c.session.Labelled) (hent : c.session.Enters record body)
    (hc : Compile.compileFunction f c = .ok last c') :
    ∃ frame code, (c'.session.functions[f.index]?).bind FunctionRecord.frame = some frame ∧
      Encoder.Gives Encoder.Shows.given code c.encoder c'.encoder ∧
      ∀ path, Given.Path code record.entryLabel path →
        ∃ e x, .label record.entryLabel :: frame.prologue.map Instruction.given <+: code.drop e ∧
          .label record.exitLabel :: frame.epilogue.map Instruction.given <+: code.drop x ∧
          (∃ rounds, rounds ≠ [] ∧ Given.Tour frame.prologue.length frame.epilogue.length e x rounds path) ∧
          ((∃ mid, Given.Tour frame.prologue.length frame.epilogue.length e x [mid] path) ↔ ∀ k, ¬ [k, e] <:+: path) ∧
          ∀ k, [k, e] <:+: path → ∃ op operands, code[k]? = some (.instruction op operands) ∧ op.isJump = true ∧
            record.entryLabel ∈ operands.filterMap Operand.label? := by
  obtain ⟨frame, v, t, hknown, hp, hl, hgives⟩ := h.compiled hc
  refine ⟨frame, _, hknown, hgives, fun path hpath => ?_⟩
  obtain ⟨⟨i, rfl⟩, P, E, entry, exit, hframed⟩ := h.framedIn hlab hent hp hl hpath
  obtain ⟨e, x, hentry, hexit, hlayout⟩ := hframed.layout rfl hent.ne
  obtain ⟨e', hstart, he⟩ := hpath.starts
  obtain rfl := hlayout.entered_iff e' he
  exact ⟨e', x, hentry, hexit, hlayout.rounds hpath.chain hstart hpath.ends,
    hlayout.once_iff hpath.chain hstart hpath.ends, fun k => hlayout.jumps_back hpath.chain hstart⟩

end Session

/-- A loop that counts down, and whose head is the entry of the function. -/
def Builder.countsDown : List Call :=
  let a : VarRef := ⟨⟨0⟩, 8⟩
  [.newFunction [.gpq] [.gpq] {}, .emit .dec [.var a], .jump (.jcc .ne) ⟨0⟩ .none, .ret [.var a], .endFunction]

namespace Session

private theorem countsDown_run : ∃ (q : Compiled) (body : List ItemId), compileFirst countsDown = some q ∧
    q.before.session.Ready ⟨0⟩ q.record q.stop body ∧ q.before.session.Labelled ∧
    q.before.session.Enters q.record body ∧ q.before.session.Closed body ∧
    Compile.compileFunction ⟨0⟩ q.before = .ok q.last q.after ∧ Recorder.given q.before.encoder = [] ∧
    (∀ e rest, .label q.record.entryLabel :: rest <+: (Recorder.given q.after.encoder).drop e → e = 0) ∧
    Given.Path (Recorder.given q.after.encoder) q.record.entryLabel (range 10) ∧
    Given.Path (Recorder.given q.after.encoder) q.record.entryLabel ([0, 1, 2, 3, 4] ++ range 10) := by
  obtain ⟨q, hq, hd⟩ := Option.any_eq_true _ _ |>.mp (show (compileFirst countsDown).any (fun q =>
      let code := Recorder.given q.after.encoder
      q.before.session.Closed (q.before.session.items.range q.record.item q.stop).tail.dropLast ∧
      Recorder.given q.before.encoder = [] ∧
      (∀ e < code.length, code[e]? = some (.label q.record.entryLabel) → e = 0) ∧ code[0]? = some (.label q.record.entryLabel) ∧
      code[9]? = some (.instruction .ret []) ∧ (range 10).IsChain (Given.Follows code) ∧
      ([0, 1, 2, 3, 4] ++ range 10).IsChain (Given.Follows code)) = true by decide +kernel)
  obtain ⟨hclosed, hbefore, honly, hentry, hret, honce, htwice⟩ := of_decide_eq_true hd
  obtain ⟨hp, hr, hstop, -, hc⟩ := compileFirst_ok hq
  obtain ⟨hlab, body, hready, hent⟩ := program_enters hp (by decide) hr hstop
  refine ⟨q, body, hq, hready, hlab, hent, ?_, hc, hbefore, fun e rest he => ?_, ⟨honce, ⟨0, rfl, hentry⟩, 9, [], rfl, hret⟩,
    ⟨htwice, ⟨0, rfl, hentry⟩, 9, [], rfl, hret⟩⟩
  · rw [hready.range_eq] at hclosed
    simpa using hclosed
  obtain ⟨more, hmore⟩ := he
  have hlabel : (Recorder.given q.after.encoder)[e]? = some (.label q.record.entryLabel) := by
    have hdrop := congrArg (·[0]?) hmore
    simpa using hdrop.symm
  exact honly e (List.getElem?_eq_some_iff.mp hlabel).1 hlabel

/-- Falling out of the loop at once, the frame is set up once; going round once, it is not. -/
theorem frame_set_up_once_iff_countsDown : ∃ (q : Compiled) (body : List ItemId) (frame : FrameLayout),
    q.before.session.Ready ⟨0⟩ q.record q.stop body ∧ q.before.session.Labelled ∧
    q.before.session.Enters q.record body ∧ Compile.compileFunction ⟨0⟩ q.before = .ok q.last q.after ∧
    (∃ e x mid, Given.Tour frame.prologue.length frame.epilogue.length e x [mid] (List.range 10)) ∧
    ∃ e x, (∃ rounds, Given.Tour frame.prologue.length frame.epilogue.length e x rounds ([0, 1, 2, 3, 4] ++ List.range 10)) ∧
      ∀ mid, ¬ Given.Tour frame.prologue.length frame.epilogue.length e x [mid] ([0, 1, 2, 3, 4] ++ List.range 10) := by
  obtain ⟨q, body, -, hready, hlab, hent, -, hc, hbefore, hzero, honce, htwice⟩ := countsDown_run
  obtain ⟨frame, code, -, hgives, hpaths⟩ := frame_set_up_once_iff hready hlab hent hc
  have hcode : Recorder.given q.after.encoder = code := by
    have hgiven : Recorder.given q.after.encoder = Recorder.given q.before.encoder ++ code := hgives.given
    rwa [hbefore] at hgiven
  rw [hcode] at hzero honce htwice
  refine ⟨q, body, frame, hready, hlab, hent, hc, ?_, ?_⟩
  · obtain ⟨e, x, hentry, -, -, hiff, -⟩ := hpaths _ honce
    obtain rfl := hzero e _ hentry
    refine ⟨0, x, hiff.mpr fun k hk => ?_⟩
    cases hk.sublist with
    | cons _ h => exact absurd (h.subset (by simp : 0 ∈ [k, 0])) (by decide)
    | cons_cons _ h => exact absurd (h.subset (by simp : 0 ∈ [0])) (by decide)
  · obtain ⟨e, x, hentry, -, ⟨rounds, -, htour⟩, hiff, -⟩ := hpaths _ htwice
    obtain rfl := hzero e _ hentry
    refine ⟨0, x, ⟨rounds, htour⟩, fun mid hmid => hiff.mp ⟨mid, hmid⟩ 4 ?_⟩
    exact ⟨[0, 1, 2, 3], (List.range 10).tail, rfl⟩

/-- A path on which the frame is set up twice: the jump to the entry leads in front of the prologue. -/
theorem frame_set_up_twice : ∃ (q : Compiled) (body : List ItemId) (path : List Nat),
    Builder.compileFirst Builder.countsDown = some q ∧ q.before.session.Ready ⟨0⟩ q.record q.stop body ∧
    q.before.session.Closed body ∧ Given.Path (Recorder.given q.after.encoder) q.record.entryLabel path ∧
    (Recorder.given q.after.encoder)[1]? = some (.instruction .push [.gpq Gp.rbp]) ∧ path.count 1 = 2 := by
  obtain ⟨q, body, hq, hready, -, -, hclosed, -, -, -, -, htwice⟩ := countsDown_run
  have hpush : (Builder.compileFirst Builder.countsDown).all (fun q =>
      (Recorder.given q.after.encoder)[1]? = some (.instruction .push [.gpq Gp.rbp])) = true := by decide +kernel
  rw [hq] at hpush
  exact ⟨q, body, _, hq, hready, hclosed, htwice, of_decide_eq_true hpush, by decide⟩

end Session

end Codegen
