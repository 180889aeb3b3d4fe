import Codegen.Proofs.Intact
import Codegen.Proofs.Provenance
import Codegen.Proofs.Refusals

/-! Why lowering can fail. A function whose labels exist is turned down for what it asks of the registers, for how its
values are used, or for a jump to code that was taken out, and never for a label or by the encoder. -/
namespace Codegen
open List Build Session
variable {record : FunctionRecord} {s : Session}

namespace Build
variable [Lenient S] {id : VarId} {item : ItemId}

namespace Unhindered

omit [Lenient S] in
theorem mapM {l : List α} (hg : ∀ a, Unhindered S (g a)) : Unhindered S (l.mapM g) := by
  induction l with
  | nil => exact .pure _
  | cons a l ih =>
    rw [mapM_cons]
    exact .bind (hg a) fun _ => .bind ih fun _ => .pure _

omit [Lenient S] in
theorem foldlM {l : List α} (hg : ∀ b a, Unhindered S (g b a)) : Unhindered S (l.foldlM g b) := by
  induction l generalizing b with
  | nil => exact .pure _
  | cons a l ih =>
    exact .bind (hg b a) fun _ => ih

theorem getFunction : Unhindered S (getFunction f) := by
  refine .bind .get fun s => .lift ?_
  unfold function
  split
  · exact .pure _
  · exact .throw Lenient.other

theorem getPrototype : Unhindered S (getPrototype p) := by
  refine .bind .get fun s => .lift ?_
  unfold prototype
  split
  · exact .pure _
  · exact .throw Lenient.other

end Unhindered

section Preparation

theorem add_unblamed : Unblamed S (AllocRecord.add id access fixed l) := by
  induction l with
  | nil => exact .pure _
  | cons r rest ih =>
    unfold AllocRecord.add
    split
    · split
      · split
        · exact .pure _
        · exact .throw Lenient.other
      · exact .pure _
      · exact .pure _
    · exact .bind ih fun _ => .pure _

theorem touchVar_unhindered : Unhindered S (touchVar item id) := by
  refine .bind .compiling fun f => .bind .getVar fun v => .when (.usage Lenient.other) ?_
  refine .bind .modifyVar fun _ => .bind .get fun s => .bind (.lift ?_) fun _ => .modify
  unfold VarTable.activate
  split
  · exact .pure _
  split
  · exact .pure _
  · exact .throw Lenient.other

theorem collect_unhindered : Unhindered S (collect i index records memVars l) := by
  induction l generalizing index records memVars with
  | nil => exact .pure _
  | cons operand rest ih =>
    unfold collect
    split
    · split
      · exact ih
      · exact .bind (.lift add_unblamed) fun _ => ih
    · refine .bind (.foldlM fun _ _ => .lift add_unblamed) fun _ => ?_
      split
      · exact .bind .modifyVar fun _ => ih
      · exact ih
    · exact ih

theorem prepareRecord_unhindered : Unhindered S (prepareRecord item i memVars r) := by
  unfold prepareRecord
  refine .when (.usage Lenient.other) ?_
  refine .bind touchVar_unhindered fun _ => .bind .modifyVar fun _ => ?_
  split
  · exact .bind .getVar fun _ => .when (.usage Lenient.other) .modifyVar
  · exact .pure _

theorem prepareInstruction_unhindered : Unhindered S (prepareInstruction item i) :=
  .bind collect_unhindered fun _ => .bind (.forM fun _ => prepareRecord_unhindered) fun _ =>
    .bind (.forM fun _ => .bind touchVar_unhindered fun _ => .bind resolveHome_plain.unhindered fun _ => .pure _)
      fun _ => .setKind

theorem extendOver_unhindered : Unhindered S (extendOver item t id) := by
  refine .bind .get fun s => .bind .getVar fun v => ?_
  split
  · split
    · exact .modifyVar
    · exact .pure _
  · exact .pure _

theorem prepareJump_unhinderedAt (hl : S .label ∨ j.target.index < s.labels.size) :
    UnhinderedAt S (prepareJump item j) s := by
  refine .bind (.labelTarget hl) fun T t _ => Unhindered.bind .get (fun s => .bind .setKind fun _ => ?_) t
  split
  · exact .forM fun _ => extendOver_unhindered
  · exact .pure _

theorem prepareReturnOperand_unhindered : Unhindered S (prepareReturnOperand item o ret) := by
  unfold prepareReturnOperand
  split
  · refine .bind touchVar_unhindered fun _ => .bind .modifyVar fun _ => ?_
    split
    · refine .bind .getVar fun _ => ?_
      split
      · exact .modifyVar
      · exact .pure _
    · exact .pure _
  · exact .pure _

theorem prepareReturnFrom_unhindered : Unhindered S (prepareReturnFrom item l rets) := by
  induction l generalizing rets with
  | nil => exact .pure _
  | cons o l ih =>
    cases rets with
    | nil | cons => exact .bind prepareReturnOperand_unhindered fun _ => ih

theorem returnsOf_unblamed : Unblamed S (s.returnsOf f) := by
  unfold returnsOf function prototype
  refine .bind ?_ fun _ => .bind ?_ fun _ => .pure _ <;> split <;> first | exact .pure _ | exact .throw Lenient.other

theorem prepareCall_unhindered : Unhindered S (prepareCall item c) :=
  .bind .getPrototype fun _ => .bind .modifyContext fun _ =>
    .bind (.forM fun _ => .bind touchVar_unhindered fun _ => .modifyVar) fun _ =>
    .bind (.forM fun _ => .bind touchVar_unhindered fun _ => .modifyVar) fun _ =>
    .bind .get fun _ => .forM fun _ => .modifyVar

theorem prepareItem_unhinderedAt (hl : ∀ i j, s.items.get? item = some i → i.kind = .jump j →
    S .label ∨ j.target.index < s.labels.size) : UnhinderedAt S (prepareItem item) s := by
  refine .bind (Unhindered.get s) fun _ _ h => ?_
  obtain ⟨rfl, rfl⟩ := get_ok.mp h
  refine .bind (Unhindered.modifyItem s) fun _ t hm => .bind (Unhindered.getItem t) fun i _ hg => ?_
  obtain ⟨⟨i0, hi0⟩, rfl⟩ := modifyItem_ok.mp hm
  obtain ⟨hi, rfl⟩ := getItem_ok.mp hg
  rw [ItemSeq.get?_modify_self, hi0] at hi
  cases hi
  split
  · exact Unhindered.bind prepareInstruction_unhindered (fun _ => .modifyContext) _
  · rename_i j hk
    exact .bind (prepareJump_unhinderedAt (hl i0 j hi0 hk)) fun _ t _ => Unhindered.modifyContext t
  · exact Unhindered.bind .getFunction (fun _ => .bind (.forM fun _ => touchVar_unhindered) fun _ => .modifyContext) _
  · exact Unhindered.bind (.bind .get fun _ => .bind (.lift returnsOf_unblamed) fun _ => prepareReturnFrom_unhindered)
      (fun _ => .modifyContext) _
  · exact Unhindered.bind prepareCall_unhindered (fun _ => .modifyContext) _
  · exact Unhindered.modifyContext _
  · exact Unhindered.modifyContext _
  · exact touchVar_unhindered _
  all_goals exact Unhindered.pure _ _

end Preparation

section Translation

/-- The item does not fail here for want of registers. -/
def Roomy (s : Session) : ItemKind → Prop
  | .instruction i => UnhinderedAt (· ≠ .pressure) (allocRecords i.records) s
  | .hint h => UnhinderedAt (· ≠ .pressure) (applyDirective h) s
  | .call _ => False
  | _ => True

theorem Plain.unhinderedAt (h : Ordinary .all m)
    (hp : S .pressure ∨ UnhinderedAt (· ≠ .pressure) m s) : UnhinderedAt S m s := by
  intro e s' he
  have : Lenient (fun c => c = .other ∨ c = .pressure) := ⟨.inl rfl⟩
  rcases h.unhindered_of (S := fun c => c = .other ∨ c = .pressure) (fun _ => .inr rfl) s e s' he with hc | hc
  · exact hc ▸ Lenient.other
  · exact hc ▸ hp.resolve_right fun hp => hp e s' he hc

theorem retireAt_unhindered : Unhindered S (retireAt item id) := Plain.unhindered (retireAt_plain trivial)

theorem translateInstruction_unhinderedAt
    (hp : S .pressure ∨ Roomy s (.instruction i)) : UnhinderedAt S (translateInstruction item i) s :=
  .bind ((allocRecords_plain (fun _ => trivial) trivial).unhinderedAt hp) fun _ t _ =>
    Unhindered.bind (.forM fun _ => moveHome_plain.unhindered) (fun _ =>
      .bind (.mapM fun _ => resolveOperand_plain.unhindered) fun _ => .bind .setKind fun _ =>
      .bind (.forM fun _ => retireAt_unhindered) fun _ => .bind (.forM fun _ => retireAt_unhindered) fun _ =>
      .bind .get fun _ => .pure _) t

theorem translateFunction_unhindered : Unhindered S (translateFunction item f) :=
  .bind .getFunction fun _ => .bind (.forM fun _ => receiveArg_plain.unhindered) fun _ =>
    .bind (.forM fun _ => retireAt_unhindered) fun _ => .bind .get fun _ => .pure _

section Return

theorem translateReturn_unhinderedAt
    (hl : ∀ record, s.functions[r.function.index]? = some record → S .label ∨ record.exitLabel.index < s.labels.size) :
    UnhinderedAt S (translateReturn item r) s := by
  refine .bind (Unhindered.get s) fun _ _ h => ?_
  obtain ⟨rfl, rfl⟩ := get_ok.mp h
  refine .bind (Unhindered.lift returnsOf_unblamed s) fun rets _ h => ?_
  obtain ⟨-, rfl⟩ := lift_ok.mp h
  refine .check Lenient.other (.bind (emitReturnValues_plain.unhindered s) fun _ t hv =>
    .bind (Unhindered.getFunction t) fun record _ hg => ?_)
  obtain ⟨hf, rfl⟩ := getFunction_ok.mp hg
  have hext := (emitReturnValues_plain (D := .all)).extending _ _ _ hv
  have hlabels : t.labels = s.labels := by rw [hext.rest]
  have hfunctions : t.functions = s.functions := by rw [hext.rest]
  refine .bind (.labelTarget ?_) fun exit w _ => ?_
  · rw [hlabels]
    exact hl record (hfunctions ▸ hf)
  · refine Unhindered.bind .get (fun s => .bind .setKind fun _ => .when .modifyContext ?_) w
    exact .bind (retireActiveAt_plain fun _ => trivial).unhindered fun _ => .bind .get fun _ => .pure _

end Return

theorem removeUntilTarget_unhindered : Unhindered S (removeUntilTarget item l) := by
  induction l with
  | nil => exact .pure _
  | cons x l ih =>
    refine .bind .getItem fun i => ?_
    dsimp only
    split
    · exact .pure _
    refine .bind (.bind .get fun q => .bind (.lift ?_) fun _ => .modify) fun _ => .bind .modifyItem fun _ =>
      .bind .modifyStats fun _ => ih
    exact (Unblamed.item _ _).bind fun _ => .check Lenient.other (.pure _)

theorem translateTarget_unhindered : Unhindered S (translateTarget item t translated) := by
  unfold translateTarget
  dsimp only
  split
  · split
    · exact fun s => UnhinderedAt.bind (Unhindered.usage Lenient.other s) fun _ _ h => by cases h
    · exact .bind (restoreState_plain fun _ => trivial).unhindered fun _ => .pure _
  refine .bind .get fun s => ?_
  split
  · split
    · exact .bind .get fun _ => removeUntilTarget_unhindered
    · exact .bind .modifyContext fun _ => .bind (assignState_plain fun _ => trivial).unhindered fun _ =>
        .bind .get fun _ => .pure _
  refine .bind (.bind .compiling fun _ => .bind .get fun _ => .pure _) fun _ => .bind (.bind .getItem fun i => ?_)
    fun _ => .bind .get fun _ => .pure _
  split
  · exact .setKind
  · exact .usage Lenient.other

end Translation

section Frame

omit [Lenient S] in
theorem layOutFrame_unhindered : Unhindered S (layOutFrame record p) :=
  .bind .get fun _ => .bind .modifyContext fun _ => .bind .get fun _ => .pure _

theorem emitComment_unhindered : Unhindered S (emitComment text) := .bind .create fun _ => .insert

theorem insertFrameCode_unhinderedAt (hentry : S .label ∨ record.entryLabel.index < s.labels.size)
    (hexit : S .label ∨ record.exitLabel.index < s.labels.size) : UnhinderedAt S (insertFrameCode record frame) s := by
  refine .bind (Unhindered.get s) fun _ _ h => ?_
  obtain ⟨rfl, rfl⟩ := get_ok.mp h
  refine .bind (.labelTarget hentry) fun entry _ h => ?_
  obtain ⟨-, rfl⟩ := labelTarget_ok.mp h
  refine .bind (Unhindered.setCursor _) fun _ t0 h0 => .when (emitComment_unhindered t0) fun t1 h1 =>
    .when (Unhindered.throw Lenient.other t1) fun t2 h2 => .bind (Unhindered.emitAll t2) fun _ t3 h3 => ?_
  have hlabels : t3.labels = s.labels := by
    rw [emitAll_ok h3]
    split at h2
    · cases h2
    subst h2
    split at h1
    · rw [emitComment_ok h1, ← setCursor_ok.mp h0]
    · rw [h1, ← setCursor_ok.mp h0]
  refine .bind (.labelTarget (hlabels ▸ hexit)) fun exit t4 _ => Unhindered.bind .getItem (fun _ => .bind .get fun _ => ?_) t4
  split
  · exact .bind .setCursor fun _ => .when emitComment_unhindered .emitAll
  · exact .pure _

theorem bindHomes_unhindered : Unhindered S (bindHomes frame item) := by
  refine .bind .getItem fun i => ?_
  split
  · split
    · refine .bind .get fun s => .bind (.mapM fun o => .lift ?_) fun _ => .setKind
      cases o with
      | mem m =>
        refine .bind ?_ fun _ => .pure _
        unfold bindHome
        split
        · exact .pure _
        · exact .pure _
        · split
          · exact .pure _
          · exact .throw Lenient.other
        · exact .throw Lenient.other
      | _ => exact .pure _
    · exact .pure _
  · exact .pure _

end Frame

section Item

theorem translateKind_unhinderedAt (hn : S .label ∨ s.Named) (hr : S .removal) (hp : S .pressure ∨ Roomy s i.kind)
    (hi : s.items.get? item = some i) : UnhinderedAt S (translateKind item i) s := by
  unfold translateKind
  split <;> rename_i hk
  · exact translateInstruction_unhinderedAt (by rwa [hk] at hp)
  · exact translateJump_unhinderedAt (hn.imp_right fun hn => hn.items hi (by rw [hk]; exact mem_singleton_self _))
      (.inl hr)
  · exact translateTarget_unhindered s
  · exact translateFunction_unhindered s
  · exact translateReturn_unhinderedAt fun record hf => hn.imp_right fun hn => (hn.functions hf).2
  · rw [hk] at hp
    exact translateCall_plain.unhindered_of (fun _ => hp.resolve_right id) s
  · rw [hk] at hp
    exact .bind ((applyDirective_plain (fun _ => trivial) trivial).unhinderedAt hp) fun _ t _ =>
      Unhindered.bind retireAt_unhindered (fun _ => .bind .get fun _ => .pure _) t
  · exact Unhindered.pure _ s
  all_goals exact Unhindered.bind .get (fun _ => .pure _) s

theorem translateItem_unhinderedAt (hn : S .label ∨ s.Named) (hr : S .removal)
    (hp : S .pressure ∨ ∀ i, s.items.get? item = some i → (i.translated = true → i.kind.isTarget = true) →
      Roomy (s.entering item i) i.kind) :
    UnhinderedAt S (translateItem item) s := by
  intro e s' h
  cases hi : s.items.get? item with
  | none =>
    refine UnhinderedAt.bind (Unhindered.getItem s) (fun i t hg => ?_) e s' h
    rw [(getItem_ok.mp hg).1] at hi
    cases hi
  | some i =>
    by_cases hd : i.translated = true → i.kind.isTarget = true
    · rw [translateItem_eq hi hd] at h
      have hkind : UnhinderedAt S (translateKind item i) (s.entering item i) :=
        translateKind_unhinderedAt (hn.imp_right (·.congr (fun _ => rfl) rfl rfl)) hr (hp.imp_right fun hp => hp i hi hd) hi
      exact hkind.bind (fun _ t _ => leaving_unhindered t) e s' h
    · unfold translateItem at h
      rw [bind_eq_of_ok (getItem_ok.mpr ⟨hi, rfl⟩), if_pos (by simpa using hd)] at h
      cases h
      exact Lenient.other

end Item

end Build

namespace Moment
variable [Lenient S] {m : Moment}

/-- The item that the walk has come to does not fail for want of registers. -/
def Roomy (m : Moment) : Prop :=
  ∀ x i, m.task = .walk (some x) → m.session.items.get? x = some i → (i.translated = true → i.kind.isTarget = true) →
    Build.Roomy (m.session.entering x i) i.kind

theorem Fails.cause (h : m.Fails e u') (hn : S .label ∨ m.session.Named) (hr : S .removal)
    (hp : S .pressure ∨ m.Roomy) :
    S e.cause := by
  cases h with
  | item h => exact translateItem_unhinderedAt hn hr (hp.imp_right fun hp i => hp _ i rfl) e u' h
  | resume _ h =>
    refine Build.Unhindered.bind .get (fun s => ?_) _ e u' h
    split
    · exact .bind .getItem fun _ => .pure _
    · exact .pure _
  | assign h => exact (assignState_plain fun _ => trivial).unhindered _ e u' h
  | jump ha h =>
    rename_i u v q rest
    have hch : Session.Changes q.jump (fun _ => False) False _ v := .of_extends (assignState_extending _ _ _ ha)
    refine doJump_unhinderedAt (fun i j hi hk => hn.imp_right fun hn => ?_) e u' h
    have hv : v.Named := hch.named (hn.congr (fun _ => rfl) rfl rfl)
    exact hv.items hi (by rw [hk]; exact mem_singleton_self _)

end Moment

namespace Session
variable [Lenient S]
variable {stop : ItemId} {body : List ItemId}

theorem Ready.prepareFunction_unhinderedAt (h : u.Ready f record stop body) (hn : S .label ∨ u.Named) :
    UnhinderedAt S (prepareFunction f record stop proto) u := by
  refine .bind (Unhindered.modify u) fun _ t hb => .bind (Unhindered.get t) fun _ _ hg => ?_
  cases hb
  obtain ⟨rfl, rfl⟩ := get_ok.mp hg
  rw [show ItemSeq.range _ record.item stop = _ from h.range_eq]
  refine .forM h.walked_nil fun P x R t hL hw => ⟨prepareItem_unhinderedAt fun i j hi hk => hn.imp_right fun hn => ?_,
      fun t' => h.walked_step hL.symm hw⟩
  have hbegun : (u.begun f record stop proto).Named := hn.congr (fun _ => rfl) rfl rfl
  exact (hw.named hbegun).items hi (by rw [hk]; exact mem_singleton_self _)

/-- Lowering a function whose labels exist fails neither for a label nor for what is up to the encoder, nor for want of
registers if there is room whenever an item is translated. -/
theorem Ready.lowerFunction_unhinderedAt (h : u.Ready f record p.stop p.body) (hs : u.Stands p)
    (hstart : p.start = record.item) (hc : u.Closed p.body) (hl : u.Labelled) (hn : S .label ∨ u.Named)
    (hr : S .removal)
    (hp : S .pressure ∨ ∀ proto v m, prepareFunction f record p.stop proto u = .ok () v →
      v.Visits record.item m → m.Roomy) :
    UnhinderedAt S (lowerFunction f) u := by
  refine .bind (Unhindered.getFunction u) fun record' _ hf => ?_
  obtain ⟨hf, rfl⟩ := getFunction_ok.mp hf
  cases h.function.symm.trans ‹_›
  simp only [h.closed]
  refine .bind (Unhindered.getPrototype u) fun proto _ hproto => ?_
  obtain ⟨-, rfl⟩ := getPrototype_ok.mp hproto
  refine .bind (h.prepareFunction_unhinderedAt hn) fun _ v hv => ?_
  have hsited := h.sited hs hstart hc hl hv
  have hvn : u.Named → v.activated.Named := fun hn => by
    have hbegun : (u.begun f record p.stop proto).Named := hn.congr (fun _ => rfl) rfl rfl
    exact ((h.walked hv).named hbegun).congr (fun _ => rfl) rfl rfl
  refine .bind (fun e t' ht => ?_) fun _ w hw => ?_
  · obtain ⟨m, hvis, hfail⟩ := translateAll_fails (h.launch hv hc) (h.sequence hv hl) ht
    exact hfail.cause (hn.imp_right fun hn => Edits.named (hvis.local hsited).edits (hvn hn)) hr
      (hp.imp_right fun hp => hp proto v m hv hvis)
  refine .bind (layOutFrame_unhindered w) fun frame a ha => ?_
  have hlabels : u.labels.size ≤ a.labels.size := by
    obtain ⟨w', hvis, rfl⟩ := translateAll_visits hw
    have hprep : v.labels = u.labels := by rw [(h.walked hv).rest]; rfl
    rw [← hprep, (layOutFrame_rest ha).2]
    exact (Edits.grows (hvis.local hsited).edits :)
  have hends : S .label ∨ record.entryLabel.index < u.labels.size ∧ record.exitLabel.index < u.labels.size :=
    hn.imp_right (·.functions h.function)
  exact .bind (insertFrameCode_unhinderedAt (hends.imp_right (lt_of_lt_of_le ·.1 hlabels))
    (hends.imp_right (lt_of_lt_of_le ·.2 hlabels))) fun _ b _ =>
    Unhindered.bind .get (fun _ => .bind (.forM fun _ => bindHomes_unhindered) fun _ => .pure _) b

end Session

end Codegen
