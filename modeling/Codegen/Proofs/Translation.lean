import Codegen.Proofs.Preparation

/-! Translating one item: the code it needs goes in front of it, and then it counts as translated. -/
namespace Codegen
open List ItemSeq Effect

namespace Session

/-- The session in which the translation of a function starts. -/
def activated (s : Session) : Session := { s with ctx := { s.ctx with active := true } }

/-- The session in which the translation of an item starts. New code goes in front of the item. -/
def entering (s : Session) (id : ItemId) (item : Item) : Session :=
  { s with
    ctx := { s.ctx with currentOffset := item.offset.getD s.ctx.currentOffset }
    items := s.items.setCursor (s.items.prev? id) }

/-- The session in which the translation of an item is over. -/
def leaving (s : Session) (id : ItemId) (item : Item) : Session :=
  if item.translated then s
  else { s with
    items := s.items.modify id ({ · with translated := true })
    stats := { s.stats with itemsTranslated := s.stats.itemsTranslated + 1 } }

section Leaving
variable (s : Session) (id : ItemId) (item : Item)

theorem leaving_frame : s.Frame (s.leaving id item) := by
  unfold leaving
  split
  · exact .refl s
  · exact ⟨rfl, rfl, .refl _⟩

theorem leaving_order : (s.leaving id item).items.order = s.items.order := by
  unfold leaving
  split <;> rfl

theorem leaving_next? : (s.leaving id item).items.next? id = s.items.next? id := by
  unfold leaving
  split <;> rfl

theorem leaving_size : (s.leaving id item).items.size = s.items.size := by
  unfold leaving
  split
  · rfl
  · simp [ItemSeq.modify, ItemSeq.size]

theorem leaving_holdings (f : FunctionId) : (s.leaving id item).holdings f = s.holdings f := by
  unfold leaving
  split <;> rfl

theorem leaving_get? (hy : y ≠ id) : (s.leaving id item).items.get? y = s.items.get? y := by
  unfold leaving
  split
  · rfl
  · exact get?_modify_of_ne _ (Ne.symm hy) _

theorem leaving_kind : ((s.leaving id item).items.get? id).map Item.kind = (s.items.get? id).map Item.kind := by
  unfold leaving
  split
  · rfl
  · rw [get?_modify_self, Option.map_map]
    rfl

end Leaving

end Session

/-- Effects that move variables to their homes for an instruction, bring others into registers, and give
homes to those that need them. -/
def Effect.brings (records : List AllocRecord) (memVars : List VarId) (e : Effect) : Prop :=
  (∃ r ∈ records, e.allocates r.var r.access) ∨ (∃ v ∈ memVars, e.homes v) ∨ e.acquires

theorem Effect.homes.changes {id : VarId} {e : Effect} (h : e.homes id) (hx : x ≠ id) : x ∉ e.changes := by
  cases e <;> first | exact h.elim | (cases h; simpa [Effect.changes] using hx)

theorem Run.retires_code {P : VarId → Prop} {h h' : Holdings} {c : List Instruction}
    (hr : Run (fun e => ∃ v, P v ∧ e.retires v) h c h') : c = [] := by
  induction hr with
  | refl => rfl
  | step he ha _ ih =>
    obtain ⟨v, -, he⟩ := he
    rw [ih, append_nil]
    cases ha <;> first | rfl | exact he.elim

namespace Build
variable {id : ItemId} {next : Option ItemId}

private theorem leaving_ok {item : Item} (h : (if !item.translated then do
        modifyItem id ({ · with translated := true })
        modifyStats fun s => { s with itemsTranslated := s.itemsTranslated + 1 }
        pure a
      else pure a : Build (Option ItemId)) u = .ok next s') : a = next ∧ s' = u.leaving id item := by
  unfold Session.leaving
  cases ht : item.translated with
  | true =>
    simp only [ht, Bool.not_true, Bool.false_eq_true, if_false] at h
    cases h
    exact ⟨rfl, rfl⟩
  | false =>
    simp only [ht, Bool.not_false, if_true, bind_ok, modifyItem_ok] at h
    obtain ⟨_, _, ⟨-, rfl⟩, _, _, ⟨⟩, ⟨⟩⟩ := h
    exact ⟨rfl, rfl⟩

theorem translateItem_ok (h : translateItem id s = .ok next s') :
    ∃ item u, s.items.get? id = some item ∧ (item.translated = true → item.kind.isTarget = true) ∧
      translateKind id item (s.entering id item) = .ok next u ∧ s' = u.leaving id item := by
  simp only [translateItem, bind_ok, getItem_ok] at h
  obtain ⟨item, _, ⟨hi, rfl⟩, h⟩ := h
  by_cases hg : (item.translated && !item.kind.isTarget) = true
  · simp [hg, bind_ok, throw_ok] at h
  rw [if_neg hg] at h
  obtain ⟨u, hk, rfl⟩ : ∃ u, translateKind id item (s.entering id item) = .ok next u ∧ s' = u.leaving id item := by
    unfold Session.entering
    cases ho : item.offset <;> simp only [ho, bind_ok, get_ok, setCursor_ok, modifyContext_ok] at h
    · obtain ⟨_, _, ⟨rfl, rfl⟩, _, _, rfl, a, u, hk, h⟩ := h
      obtain ⟨rfl, hu⟩ := leaving_ok h
      exact ⟨u, hk, hu⟩
    · obtain ⟨_, _, rfl, _, _, ⟨rfl, rfl⟩, _, _, rfl, a, u, hk, h⟩ := h
      obtain ⟨rfl, hu⟩ := leaving_ok h
      exact ⟨u, hk, hu⟩
  exact ⟨item, u, hi, by simpa using hg, hk, rfl⟩

/-- Translating an instruction brings its operands into place, resolves them and retires the variables
whose last item it is. -/
theorem translateInstruction_ok {i : InstructionItem} (hc : Coherent (s.holdings f))
    (hcol : Collected i i.records i.memVars)
    (ho : ∀ v ∈ i.operands.flatMap Operand.vars, s.Owns f v)
    (h : translateInstruction id i s = .ok next s') :
    ∃ t operands, s.Moves f (brings i.records i.memVars) t ∧
      Forall₂ (Operand.Resolved (t.holdings f)) i.operands operands ∧
      (∀ r ∈ i.records, r.access.writes = true → Dirty (t.holdings f) r.var) ∧
      (∀ v ∈ i.memVars, ∃ x, (t.holdings f).vars v = some x ∧ x.state = .memory) ∧
      (∀ r ∈ i.records, ∀ n < 32, r.fixed = some n → ∃ w y, s.Moves f (· ≠ .other) w ∧ w.Moves f (· ≠ .other) t ∧
        (w.holdings f).vars r.var = some y ∧ y.currentReg = some ⟨y.cls, n⟩) ∧
      ({ t with items := t.items.modify id ({ · with kind := .instruction { i with operands } }) } :
        Session).Moves f (fun e => ∃ v, s.LastAt id v ∧ e.retires v) s' ∧
      next = s'.items.next? id := by
  simp only [translateInstruction, bind_ok, setKind_ok] at h
  obtain ⟨_, t1, h1, _, t2, h2, operands, t3, h3, _, _, ⟨-, rfl⟩, _, t4, h4, _, t5, h5, _, _, ⟨⟩, ⟨⟩⟩ := h
  have hrec : ∀ r ∈ i.records, s.Owns f r.var := fun r hr =>
    ho _ ((hcol.named _).mp (.inl (mem_map_of_mem hr)))
  have hmem : ∀ v ∈ i.memVars, s.Owns f v := fun v hv => ho v ((hcol.named v).mp (.inr hv))
  obtain ⟨m1, d1⟩ := allocRecords_moves hc hrec hcol.nodup h1
  obtain ⟨m2, w2⟩ := moveHomes_moves (m1.coherent hc) (fun v hv => m1.owns (hmem v hv)) h2
  have m12 : s.Moves f (brings i.records i.memVars) t2 :=
    (m1.mono fun e => .inl).trans (m2.mono fun e he => .inr (.inl he))
  obtain ⟨m3, r3⟩ := resolveOperands_moves (fun o ho' v hv => m12.owns (ho v (mem_flatMap.mpr ⟨o, ho', hv⟩))) h3
  have m13 := m12.trans (m3.mono fun e he => .inr (.inr he))
  obtain ⟨c3, hrun3, -⟩ := m3.run
  refine ⟨t3, operands, m13, r3, fun r hr hw => ?_, fun v hv => ?_, fun r hr n hn hf => ?_, ?_, rfl⟩
  · -- the variable is not moved home, so it is still newer than its home
    obtain ⟨v, hv⟩ := m1.owns (hrec r hr)
    have hv2 : (t2.holdings f).vars r.var = some v := by
      refine (m2.vars_eq fun e ⟨x, hx, he⟩ => he.changes ?_).trans hv
      rintro rfl
      exact hcol.apart r hr hx
    obtain ⟨v3, hv3, -, hs3, hch3, -⟩ := hrun3.acquires.2 hv2
    intro y hy hs
    cases hv3 ▸ hy
    exact hch3.trans (d1 r hr hw v hv (hs3 ▸ hs))
  · obtain ⟨x, hx, hs⟩ := w2 v hv
    obtain ⟨x3, hx3, -, hs3, -⟩ := hrun3.acquires.2 hx
    exact ⟨x3, hx3, hs3.trans hs⟩
  · obtain ⟨w, y, m, m', hy⟩ := allocRecords_passes hc hrec h1 hr hn hf
    refine ⟨w, y, m, m'.trans ((m2.mono ?_).trans (m3.mono ?_)), hy⟩
    · rintro _ ⟨v, -, he⟩ rfl
      exact he
    · rintro _ ⟨_, he⟩ rfl
      cases he
  · have m4 := retireEach_moves h4 fun r hr => m13.owns (hrec r hr)
    have m5 := retireEach_moves h5 fun v hv => m4.owns (m13.owns (hmem v hv))
    refine (m4.mono fun e ⟨r, _, hl, he⟩ => ⟨r.var, m13.lastAt.mp hl, he⟩).trans
      (m5.mono fun e ⟨v, _, hl, he⟩ => ⟨v, m13.lastAt.mp (m4.lastAt.mp hl), he⟩)

theorem translateHint_ok (hc : Coherent (s.holdings f)) (ho : s.Owns f d.var)
    (h : translateHint id d s = .ok next s') :
    ∃ t, s.Moves f (directed d.var d.directive) t ∧
      t.Moves f (fun e => ∃ v, s.LastAt id v ∧ e.retires v) s' ∧ next = s'.items.next? id := by
  simp only [translateHint, bind_ok] at h
  obtain ⟨_, t, h1, _, _, h2, _, _, ⟨⟩, ⟨⟩⟩ := h
  have m1 := applyDirective_moves hc ho h1
  have h2 : [d.var].forM (retireAt id) t = .ok () _ := forM_cons_ok.mpr ⟨_, h2, forM_nil_ok.mpr rfl⟩
  have m2 := retireEach_moves h2 fun v hv => mem_singleton.mp hv ▸ m1.owns ho
  exact ⟨t, m1, m2.mono fun e ⟨v, _, hl, he⟩ => ⟨v, m1.lastAt.mp hl, he⟩, rfl⟩

theorem saveState_ok : saveState s = .ok state s' ↔ ∃ f, s.ctx.function = some f ∧ s.snapshot f = state ∧ s = s' := by
  simp only [saveState, bind_ok, compiling_ok, get_ok, pure_ok]
  constructor
  · rintro ⟨f, _, ⟨hf, rfl⟩, _, _, ⟨rfl, rfl⟩, hs, rfl⟩
    exact ⟨f, hf, hs, rfl⟩
  · rintro ⟨f, hf, hs, rfl⟩
    exact ⟨f, s, ⟨hf, rfl⟩, s, s, ⟨rfl, rfl⟩, hs, rfl⟩

theorem setTargetState_ok (h : setTargetState id state s = .ok u s') :
    ∃ item t, s.items.get? id = some item ∧ item.kind = .target t ∧
      s' = { s with items := s.items.modify id ({ · with kind := .target { t with state := some state } }) } := by
  simp only [setTargetState, bind_ok, getItem_ok] at h
  obtain ⟨item, _, ⟨hi, rfl⟩, h⟩ := h
  cases hk : item.kind with
  | target t =>
    simp only [hk, setKind_ok] at h
    exact ⟨item, t, hi, hk, h.2.symm⟩
  | _ => simp only [hk, usage_ok] at h

theorem translateTarget_first_ok (hreach : s.ctx.unreachable = false) (h : translateTarget id t false s = .ok next s') :
    ∃ f item t', s.ctx.function = some f ∧ s.items.get? id = some item ∧ item.kind = .target t' ∧
      s' = { s with items := s.items.modify id
                      ({ · with kind := .target { t' with state := some (s.snapshot f) } }) } ∧
      next = s'.items.next? id := by
  simp only [translateTarget, Bool.false_eq_true, if_false, bind_ok] at h
  obtain ⟨_, _, ⟨⟩, h⟩ := h
  simp only [hreach, Bool.false_eq_true, if_false, bind_ok, saveState_ok] at h
  obtain ⟨state, _, ⟨f, hf, rfl, rfl⟩, _, _, h, _, _, ⟨⟩, ⟨⟩⟩ := h
  obtain ⟨item, t', hi, hk, rfl⟩ := setTargetState_ok h
  exact ⟨f, item, t', hf, hi, hk, rfl, rfl⟩

end Build

end Codegen
