import Codegen.Proofs.Completion

/-! Which steps can fail for which reason. The allocator never complains about a label or about code that was taken out,
so that only a jump that finds its target gone does. -/
namespace Codegen
open ItemSeq
variable {j : JumpItem}

/-- The complaint that a jump leads to code that was taken out. -/
def Error.isRemoval (e : Error) : Bool := e.cause = .removal

theorem Error.isRemoval_iff {e : Error} : e.isRemoval = true ↔ ∃ l, e = .usage (.targetRemoved l) := by
  simp only [isRemoval, decide_eq_true_eq]
  constructor
  · intro h
    unfold cause at h
    split at h <;> first | exact ⟨_, rfl⟩ | cases h
  · rintro ⟨l, rfl⟩
    rfl

namespace Build
variable {item : ItemId}

theorem Unhindered.freshTarget {k : LabelId → ItemId → Build α} (hk : ∀ l T, Unhindered S (k l T)) :
    Unhindered S (Build.createLabel >>= fun l => labelTarget l >>= k l) := by
  intro s e s' h
  rcases bind_error.mp h with h | ⟨l, t, hl, h⟩
  · exact createLabel s e s' h
  obtain ⟨rfl, rfl⟩ := Builder.createLabel_ok hl
  rw [bind_eq_of_ok (labelTarget_ok.mpr ⟨Array.getElem?_push_size, rfl⟩)] at h
  exact hk _ _ _ e s' h

section Jump
variable [Lenient S]

private theorem takeBack_unhindered {cursor : Option ItemId} : Unhindered S (do
    setCursor cursor
    match j.state with
    | some own => assignState own
    | none => usage .jumpWithoutState : Build Unit) := by
  refine .bind .setCursor fun _ => ?_
  split
  · exact (assignState_plain fun _ => trivial).unhindered
  · exact .usage Lenient.other

theorem reconcileOutOfLine_unhindered {st : Snapshot} : Unhindered S (reconcileOutOfLine item j st) := by
  refine .bind .get fun s => ?_
  split
  · exact .usage Lenient.other
  rename_i extra _
  refine .bind .get fun s => .bind .setCursor fun _ => .bind (restoreState_plain fun _ => trivial).unhindered fun _ =>
    .bind .get fun s' => ?_
  by_cases hc : s'.items.cursor ≠ some extra
  · rw [if_pos hc]
    exact .bind .emitAll fun _ => .bind .get fun _ => .freshTarget fun _ _ =>
      .bind .insertAfter fun _ => .bind .get fun _ => .bind .modifyItem fun _ => .bind .setKind fun _ =>
      .bind .modifyContext fun _ => takeBack_unhindered
  · rw [if_neg hc]
    exact takeBack_unhindered

omit [Lenient S] in
theorem isBackward_unhindered : Unhindered S (isBackward T item) := by
  refine .bind .get fun s => ?_
  dsimp only
  split
  · exact .pure _
  · exact .pure _

theorem awaitTarget_unhindered : Unhindered S (awaitTarget item T kind st) := by
  refine .bind .modifyContext fun _ => ?_
  split
  · refine .bind .getItem fun i => ?_
    split
    · exact .setKind
    · exact .usage Lenient.other
  · exact .pure _

variable {i titem : Item}

theorem doJump_unhinderedAt (hl : ∀ i j, s.items.get? item = some i → i.kind = .jump j →
    S .label ∨ j.target.index < s.labels.size) : UnhinderedAt S (doJump item) s := by
  refine .bind (Unhindered.getItem s) fun i t h => ?_
  obtain ⟨hi, rfl⟩ := getItem_ok.mp h
  split
  · rename_i j hk
    refine .bind (.labelTarget (hl i j hi hk)) fun T t _ => Unhindered.bind .getItem (fun i' => ?_) t
    split
    · split
      · exact .usage Lenient.other
      refine .bind isBackward_unhindered fun b => ?_
      split
      · exact (restoreState_plain fun _ => trivial).unhindered
      · exact reconcileOutOfLine_unhindered
    · exact .usage Lenient.other
  · exact Unhindered.usage Lenient.other _

/-- A jump looks for its target first, and is turned down if the target was taken out. Nothing else is. -/
theorem translateJump_unhinderedAt (hl : S .label ∨ j.target.index < s.labels.size)
    (hr : S .removal ∨ ∀ T, s.labels[j.target.index]? = some T → T ∈ s.items.order) :
    UnhinderedAt S (translateJump item j) s := by
  refine .bind (.labelTarget hl) fun T t h => .bind (Unhindered.getItem t) fun titem t' hti => ?_
  obtain ⟨hT, rfl⟩ := labelTarget_ok.mp h
  obtain ⟨-, rfl⟩ := getItem_ok.mp hti
  refine .bind (Unhindered.get _) fun _ _ hs => ?_
  obtain ⟨rfl, rfl⟩ := get_ok.mp hs
  have hretire : Unhindered S (do
      if j.opcode = .jmp then modifyContext ({ · with unreachable := true })
      retireActiveAt item
      return (← get).items.next? item : Build (Option ItemId)) :=
    .when .modifyContext (.bind (retireActiveAt_plain fun _ => trivial).unhindered fun _ =>
      .bind .get fun _ => .pure _)
  have hrest : UnhinderedAt S (do
      if j.opcode = .jmp && !titem.translated then
        modifyContext fun c => { c with backwardCode := c.backwardCode.push item }
        return some T
      let state ← saveState
      setKind item (.jump { j with state := some state })
      if titem.translated then doJump item
      else awaitTarget item T titem.kind state
      if j.opcode = .jmp then modifyContext ({ · with unreachable := true })
      retireActiveAt item
      return (← get).items.next? item : Build (Option ItemId)) s := by
    split
    · exact Unhindered.bind .modifyContext (fun _ => .pure _) s
    refine .bind (Unhindered.bind .compiling (fun _ => .bind .get fun _ => .pure _) s) fun state t hst =>
      .bind (Unhindered.setKind t) fun _ w hk => ?_
    obtain ⟨f, -, -, rfl⟩ := saveState_ok.mp hst
    obtain ⟨⟨i, hi⟩, rfl⟩ := setKind_ok.mp hk
    by_cases htr : titem.translated = true
    · rw [if_pos htr]
      refine .bind (doJump_unhinderedAt fun i' j' hi' hj' => ?_) fun _ t _ => hretire t
      rw [get?_modify_self, hi] at hi'
      cases hi'
      cases hj'
      exact hl
    · rw [if_neg htr]
      exact Unhindered.bind awaitTarget_unhindered (fun _ => hretire) _
  by_cases hlink : T ∈ s.items.order
  · rwa [if_neg (by simpa using isLinked_iff.mpr hlink)]
  rw [if_pos (by simpa using mt isLinked_iff.mp hlink)]
  refine .bind (Unhindered.usage ?_ s) fun _ _ h => by cases h
  exact hr.resolve_right fun h => hlink (h T hT)

theorem translateJump_error_iff (hl : s.labels[j.target.index]? = some T) (ht : s.items.get? T = some titem) :
    (∃ e s', translateJump item j s = .error e s' ∧ e.isRemoval = true) ↔ T ∉ s.items.order := by
  constructor
  · rintro ⟨e, s', h, he⟩ hT
    refine translateJump_unhinderedAt (S := (· ≠ .removal)) (.inl (by decide)) (.inr fun T' hT' => ?_) e s' h
      (of_decide_eq_true he)
    cases hl ▸ hT'
    exact hT
  intro hT
  refine ⟨.usage (.targetRemoved j.target), s, ?_, rfl⟩
  unfold translateJump
  rw [bind_eq_of_ok (labelTarget_ok.mpr ⟨hl, rfl⟩), bind_eq_of_ok (getItem_ok.mpr ⟨ht, rfl⟩),
    bind_eq_of_ok (get_ok.mpr ⟨rfl, rfl⟩)]
  rw [if_pos (by simpa using mt isLinked_iff.mp hT)]
  rfl

omit [Lenient S] in
theorem translateItem_eq (hi : s.items.get? item = some i) (hd : i.translated = true → i.kind.isTarget = true) :
    translateItem item s = (translateKind item i >>= fun next => (do
      if !i.translated then
        modifyItem item ({ · with translated := true })
        modifyStats fun s => { s with itemsTranslated := s.itemsTranslated + 1 }
      return next)) (s.entering item i) := by
  unfold translateItem Session.entering
  rw [bind_eq_of_ok (getItem_ok.mpr ⟨hi, rfl⟩), if_neg (by simpa using hd)]
  cases i.offset <;> rfl

theorem leaving_unhindered {next : Option ItemId} : Unhindered S (do
    if !i.translated then
      modifyItem item ({ · with translated := true })
      modifyStats fun s => { s with itemsTranslated := s.itemsTranslated + 1 }
    return next : Build (Option ItemId)) := by
  split
  · exact .bind .modifyItem fun _ => .bind .modifyStats fun _ => .pure _
  · exact .pure _

theorem translateItem_jump_error_iff (hi : s.items.get? item = some i) (hk : i.kind = .jump j)
    (hd : i.translated = false)
    (hl : s.labels[j.target.index]? = some T) (ht : s.items.get? T = some titem) :
    (∃ e s', translateItem item s = .error e s' ∧ e.isRemoval = true) ↔ T ∉ s.items.order := by
  have hkind : translateKind item i = translateJump item j := by rw [translateKind, hk]
  have hjump : (∃ e s', translateJump item j (s.entering item i) = .error e s' ∧ e.isRemoval = true) ↔ T ∉ s.items.order :=
    translateJump_error_iff hl ht
  rw [← hjump]
  simp only [translateItem_eq hi (by simp [hd]), hkind, bind_error]
  constructor
  · rintro ⟨e, s', h | ⟨next, w, -, h⟩, he⟩
    · exact ⟨e, s', h, he⟩
    · exact absurd (of_decide_eq_true he) (leaving_unhindered (S := (· ≠ .removal)) w e s' h)
  · rintro ⟨e, s', h, he⟩
    exact ⟨e, s', .inl h, he⟩

end Jump

end Build

end Codegen
