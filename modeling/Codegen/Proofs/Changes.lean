import Codegen.Proofs.ControlFlow
import Codegen.Proofs.Roles

/-! What a step of the translation can change. Code goes behind the cursor or into a block behind the function, and
of the items that are there, only the one that is translated and the target it jumps to become anything else. -/
namespace Codegen
open List ItemSeq Option ItemKind
variable {item item' : Item}
variable {titem : Item} {target : ItemId} {gone : ItemId → Prop} {st : Snapshot}

/-- The operand has its place, or it is a label as before. -/
def Operand.SettlesAs (o o' : Operand) : Prop := o'.Placed ∨ ∃ l, o = .label l ∧ o' = .label l

/-- What becomes of an item when it is translated. -/
inductive ItemKind.SettlesAs : ItemKind → ItemKind → Prop
  | instruction {i : InstructionItem} {operands : List Operand}
    (h : Forall₂ Operand.SettlesAs i.operands operands) :
    SettlesAs (.instruction i) (.instruction { i with operands })
  | jump {j : JumpItem} {st : Snapshot} : SettlesAs (.jump j) (.jump { j with state := some st })
  | target {t : TargetItem} {st : Snapshot} : SettlesAs (.target t) (.target { t with state := some st })
  | ret {r : ReturnItem} {emitJump : Bool} : SettlesAs (.ret r) (.ret { r with emitJump })

theorem ItemKind.SettlesAs.role_eq {k k' : ItemKind} (h : k.SettlesAs k') : k'.role = k.role := by
  cases h <;> rfl

/-- What becomes of an item in one change. There are `m` labels in front of it, and `n` behind it. -/
inductive ItemKind.Turns (m n : Nat) : ItemKind → ItemKind → Prop
  | same {kind : ItemKind} : Turns m n kind kind
  | settles {kind kind' : ItemKind} (h : kind.SettlesAs kind') : Turns m n kind kind'
  | detours {j : JumpItem} {target : LabelId} (hm : m ≤ target.index) (hn : target.index < n) :
    Turns m n (.jump j) (.jump { j with target })
  | binds {i : InstructionItem} {operands : List Operand} {frame : FrameLayout} {slots : SlotPool}
    (h : Forall₂ (fun o o' => Build.bindOperand frame slots o = .ok o') i.operands operands) :
    Turns m n (.instruction i) (.instruction { i with operands })

/-- What is noted while the item `id` is translated. Control goes on behind it unless it is `cut`. -/
structure Context.Notes (id : ItemId) (cut : Prop) (c c' : Context) : Prop where
  rest : c' = { c with unreachable := c'.unreachable, forwardJumps := c'.forwardJumps }
  queued : ∀ q ∈ c'.forwardJumps, q ∈ c.forwardJumps ∨ q.jump = id
  reach : c'.unreachable = true → c.unreachable = true ∨ cut

namespace Session
variable {s : Session} {id : ItemId} {cut : Prop}

theorem Gains.get?_of_lt (h : s.Gains P s') (hx : x.index < s.items.size) : s'.items.get? x = s.items.get? x := by
  obtain ⟨code, -, hi⟩ := h.code
  rw [hi, get?_generateAll_of_lt _ _ hx]

theorem lt_size_of_stateAt (h : s.stateAt x ≠ none) : x.index < s.items.size := by
  obtain ⟨st, hst⟩ := ne_none_iff_exists'.mp h
  obtain ⟨item, -, hi, -⟩ := stateAt_eq_some.mp hst
  exact lt_size_of_get? hi

/-- The item is a call to a label. -/
def CallsLabel (s : Session) (id : ItemId) (l : LabelId) : Prop :=
  ∃ item c, s.items.get? id = some item ∧ item.kind = .call c ∧ c.target = .label l

/-- A change in the translation of the item `id`. Of the items that are there, only some in `T` change. -/
inductive Change (id : ItemId) (T : ItemId → Prop) (cut : Prop) : Session → Session → Prop
  | emit {s s' : Session} {P : Instruction → Prop} (h : s.Gains P s')
    (hP : ∀ i, P i → i.Emitted ∨ ∃ l, s.CallsLabel id l ∧ i = ⟨.call, [.label l]⟩) : Change id T cut s s'
  | note {s s' : Session} (h : s' = { s with ctx := s'.ctx }) (hn : s.ctx.Notes id cut s'.ctx) : Change id T cut s s'
  | settle {s : Session} {x : ItemId} {item : Item} {kind : ItemKind} (hx : T x) (hi : s.items.get? x = some item)
    (hk : item.kind.SettlesAs kind) : Change id T cut s (s.withKind x kind)
  | detour {s v : Session} {D : VarId → Prop} {j : JumpItem} {extra : ItemId} (hx : T id)
    (he : s.ctx.extraBlock = some extra) (hj : s.jump? id = some j) (hv : (s.atCursor (some extra)).Extends D v) :
    Change id T cut s ((v.detour id j extra).atCursor s.items.cursor)

/-- The items that a change for the item `id` can make, after which there are `n` labels. -/
inductive Makes (s : Session) (id : ItemId) (n : Nat) : ItemKind → Prop
  | code {i : Instruction} (h : ∀ o ∈ i.operands, o.Placed) :
    Makes s id n (.instruction { opcode := i.opcode, operands := i.operands })
  | comment {text : String} : Makes s id n (.comment text)
  | call {l : LabelId} (h : s.CallsLabel id l) :
    Makes s id n (.instruction { opcode := .call, operands := [.label l] })
  | back {j : JumpItem} (h : s.jump? id = some j) :
    Makes s id n (.instruction { opcode := .jmp, operands := [.label j.target] })
  | block {l : LabelId} (hm : s.labels.size ≤ l.index) (hn : l.index < n) : Makes s id n (.target { label := l })

/-- What an item comes from, after a change for the item `id`. -/
def Stems (s : Session) (id x : ItemId) (n : Nat) (item' : Item) : Prop :=
  (∃ item, s.items.get? x = some item ∧ item.kind.Turns s.labels.size n item'.kind ∧
    item' = { item with kind := item'.kind }) ∨ s.items.size ≤ x.index ∧ s.Makes id n item'.kind

namespace Change

section
variable (h : s.Change id T cut s')
include h

theorem lays : s.Lays gone s' := by
  cases h with
  | emit hg => exact .of_gains hg
  | note hs hn => exact .quiet (by rw [hs]) (by rw [hs]) (by rw [hs]) (by rw [hn.rest])
  | settle hx hi hk => exact .withKind (hk.role_eq.trans (roleAt_of_get? hi).symm)
  | @detour v D j extra hx he hj hv =>
    obtain ⟨item, hi, hk⟩ := jump?_eq_some.mp hj
    exact (Lays.detour (lt_size_of_get? hi) ((roleAt_of_get? hi).trans (by rw [hk]; rfl)) he hv).trans (.atCursor _ _)

theorem size_le : s.items.size ≤ s'.items.size := by
  have hl : s.Lays (fun _ => False) s' := h.lays
  exact hl.size

theorem get?_of_lt (hx : x.index < s.items.size) (hT : ¬ T x) : s'.items.get? x = s.items.get? x := by
  cases h with
  | emit hg => exact hg.get?_of_lt hx
  | note hs => rw [hs]
  | settle hy =>
    refine get?_modify_of_ne _ ?_ _
    rintro rfl
    exact hT hy
  | @detour v D j extra hy he hj hv =>
    have hv' : v.items.get? x = s.items.get? x := hv.toGains.get?_of_lt hx
    have hlt : x.index < v.items.size := by
      obtain ⟨code, -, hi⟩ := hv.code
      rw [hi, size_generateAll]
      exact hx.trans_le (Nat.le_add_right _ _)
    unfold Session.detour
    split
    · exact hv'
    refine (get?_modify_of_ne _ ?_ _).trans ?_
    · rintro rfl
      exact hT hy
    · exact (get?_closeBlock_of_lt hlt).trans hv'

theorem queued (hq : q ∈ s'.ctx.forwardJumps) : q ∈ s.ctx.forwardJumps ∨ q.jump = id := by
  cases h with
  | emit hg => exact .inl (by rwa [(congrArg Context.forwardJumps hg.ctx :)] at hq)
  | note _ hn => exact hn.queued q hq
  | settle => exact .inl hq
  | @detour v D j extra hy he hj hv =>
    have hv' : v.ctx.forwardJumps = s.ctx.forwardJumps := (congrArg Context.forwardJumps hv.ctx :)
    refine .inl (hv' ▸ ?_)
    have hd : (v.detour id j extra).ctx.forwardJumps = v.ctx.forwardJumps := by
      unfold Session.detour
      split <;> rfl
    exact hd ▸ hq

theorem items (hi' : s'.items.get? x = some item') : s.Stems id x s'.labels.size item' := by
  have hsame : ∀ {n}, s.items.get? x = some item' → s.Stems id x n item' := fun hi => .inl ⟨item', hi, .same, rfl⟩
  cases h with
  | emit hg hP =>
    by_cases hx : x.index < s.items.size
    · exact hsame (hg.get?_of_lt hx ▸ hi')
    obtain ⟨code, hcode, hi⟩ := hg.code
    obtain ⟨-, i, hmem, hk⟩ := get?_generateAll_new (not_lt.mp hx) (hi ▸ hi')
    refine .inr ⟨not_lt.mp hx, hk ▸ ?_⟩
    rcases hP i (hcode i hmem) with he | ⟨l, hl, rfl⟩
    · exact .code he.operands
    · exact .call hl
  | note hs =>
    rw [hs] at hi' ⊢
    exact hsame hi'
  | @settle y item kind hy hi hk =>
    rcases get?_modify_cases hi' with ⟨-, hx⟩ | ⟨rfl, item0, hx, rfl⟩
    · exact hsame hx
    · cases hi ▸ hx
      exact .inl ⟨item, hi, .settles hk, rfl⟩
  | @detour v D j extra hy he hj hv =>
    have hl : v.labels = s.labels := by rw [hv.rest]; rfl
    have hin : ∀ {n}, v.items.get? x = some item' → s.Stems id x n item' := fun hi => by
      by_cases hx : x.index < s.items.size
      · exact hsame (hv.toGains.get?_of_lt hx ▸ hi)
      obtain ⟨code, hcode, hc⟩ := hv.code
      have hx' : (s.atCursor (some extra)).items.size ≤ x.index := not_lt.mp hx
      obtain ⟨-, i, hmem, hk⟩ := get?_generateAll_new hx' (hc ▸ hi)
      exact .inr ⟨not_lt.mp hx, hk ▸ .code (hcode i hmem).operands⟩
    have hsize : s.items.size ≤ v.items.size := by
      obtain ⟨code, -, hc⟩ := hv.code
      rw [hc, size_generateAll]
      exact Nat.le_add_right _ _
    simp only [atCursor]
    unfold Session.detour at hi' ⊢
    split at hi'
    · exact hin hi'
    rw [if_neg ‹_›]
    have hn : ((v.closeBlock j.target extra).withKind id (.jump { j with target := ⟨v.labelCount⟩ })).labels.size =
        s.labels.size + 1 := by simp [withKind, closeBlock, hl]
    rw [hn]
    obtain ⟨item, hi, hk⟩ := jump?_eq_some.mp hj
    have hlt := lt_size_of_get? hi
    have hiv : (v.closeBlock j.target extra).items.get? id = some item :=
      (get?_closeBlock_of_lt (hlt.trans_le hsize)).trans ((hv.toGains.get?_of_lt hlt).trans hi)
    rcases get?_modify_cases hi' with ⟨-, hget⟩ | ⟨rfl, _, hget, rfl⟩
    case inr =>
      cases hiv ▸ hget
      refine .inl ⟨item, hi, hk ▸ .detours ?_ ?_, rfl⟩ <;> rw [labelCount, hl]
      exact Nat.lt_succ_self _
    by_cases hx : x.index < v.items.size
    · exact hin (get?_closeBlock_of_lt hx ▸ hget)
    refine .inr ⟨hsize.trans (not_lt.mp hx), ?_⟩
    rcases get?_closeBlock_new (not_lt.mp hx) hget with rfl | ⟨-, hk'⟩
    · refine .block ?_ ?_ <;> rw [labelCount, hl]
      exact Nat.lt_succ_self _
    · exact hk' ▸ .back hj

end

end Change

abbrev Changes (id : ItemId) (T : ItemId → Prop) (cut : Prop) : Session → Session → Prop :=
  Relation.ReflTransGen (Change id T cut)

theorem Changes.of_extends (h : s.Extends D s') : s.Changes id T cut s' := .single (.emit h.toGains fun _ => .inl)

theorem Changes.lays (h : s.Changes id T cut s') : s.Lays gone s' := by
  induction h with
  | refl => exact .refl s
  | tail _ h ih => exact ih.trans h.lays

theorem Changes.get?_of_lt (h : s.Changes id T cut s') (hx : x.index < s.items.size) (hT : ¬ T x) :
    s'.items.get? x = s.items.get? x := by
  induction h with
  | refl => rfl
  | tail hs h ih =>
    have hl : s.Lays (fun _ => False) _ := Changes.lays hs
    exact (h.get?_of_lt (hx.trans_le hl.size) hT).trans ih

/-- The item counts as translated. -/
def Done (u : Session) (x : ItemId) : Prop := ∃ item, u.items.get? x = some item ∧ item.translated = true

theorem done_leaving (htr : item.translated = false) (hi : s.items.get? id = some item') (x : ItemId) :
    (s.leaving id item).Done x ↔ s.Done x ∨ x = id := by
  unfold leaving Done
  rw [if_neg (by simp [htr])]
  by_cases hx : x = id
  · subst hx
    simp [get?_modify_self, hi]
  · simp [get?_modify_of_ne _ (Ne.symm hx), hx]

/-- The items that the translation of `id` may change. -/
def Concerns (s : Session) (id x : ItemId) : Prop := x = id ∨ s.JumpsTo id x

/-- Code that nothing leads to is taken out, from the target on that the walk came to. -/
def Removes (s : Session) (id : ItemId) (next : Option ItemId) (s' : Session) : Prop :=
  s.Doomed id ∧ ¬ s.Done id ∧ Build.removeUntilTarget id (s.items.suffixFrom id) s = .ok next s'

/-- If the item is an instruction, its operands have their places. -/
def TidyAt (u : Session) (x : ItemId) : Prop :=
  ∀ item i, u.items.get? x = some item → item.kind = .instruction i → ∀ o ∈ i.operands, o.Placed ∨ ∃ l, o = .label l

theorem Changes.not_instruction (h : s.Changes id T cut s') (hi : s.items.get? x = some item)
    (hk : ∀ i, item.kind ≠ .instruction i) (hi' : s'.items.get? x = some item') (i : InstructionItem) :
    item'.kind ≠ .instruction i := by
  induction h generalizing item' i with
  | refl =>
    cases hi ▸ hi'
    exact hk i
  | tail hs h ih =>
    have hl : s.Lays (fun _ => False) _ := Changes.lays hs
    rcases h.items hi' with ⟨item1, hi1, hturn, -⟩ | ⟨hx, -⟩
    · intro heq
      rw [heq] at hturn
      have hno := ih hi1
      generalize item1.kind = kind at hturn hno
      cases hturn with
      | same | binds => exact hno _ rfl
      | settles h =>
        cases h
        exact hno _ rfl
    · exact absurd (lt_size_of_get? hi) (not_lt.mpr (hl.size.trans hx))

/-- What translating an item comes to before it is noted as translated. -/
inductive Course (id : ItemId) (T : ItemId → Prop) (item : Item) (s : Session) : Option ItemId → Session → Prop
  /-- The walk goes on behind the item. -/
  | onward {s' : Session} (h : s.Changes id T (item.kind.fallsThrough = false) s')
      (ht : item.kind.isTarget = true → item.translated = false ∧ s'.ctx.unreachable = false)
      (hj : ∀ j, item.kind = .jump j → ∃ target titem, s.labels[j.target.index]? = some target ∧
        s.items.get? target = some titem ∧
        (titem.translated = true ∨ (titem.kind.isTarget = true → s'.stateAt target ≠ none)))
      (he : item.kind.isFunctionEnd = false) : Course id T item s (s'.items.next? id) s'
  /-- A jump is followed. -/
  | follow {j : JumpItem} {target : ItemId} {titem : Item} (hk : item.kind = .jump j) (ho : j.opcode = .jmp)
      (hl : s.labels[j.target.index]? = some target) (ht : s.items.get? target = some titem)
      (htr : titem.translated = false) (hlink : target ∈ s.items.order) :
      Course id T item s (some target) { s with ctx := { s.ctx with backwardCode := s.ctx.backwardCode.push id } }
  /-- Control comes to a target that is translated. -/
  | again {s' : Session} (htr : item.translated = true) (ht : item.kind.isTarget = true) (h : s.Changes id T False s') :
      Course id T item s none s'
  /-- The function ends. -/
  | close (hk : item.kind.isFunctionEnd = true) : Course id T item s none s
  /-- Nothing is known to lead to a target. -/
  | remove {next : Option ItemId} {s' : Session} (htr : item.translated = false) (h : s.Removes id next s') :
      Course id T item s next s'

end Session

namespace Build
open Session
variable {s : Session} {id : ItemId} {next : Option ItemId} {cut : Prop}

theorem resolveOperands_settle (h : l.mapM resolveOperand s = .ok l' s') :
    Forall₂ Operand.SettlesAs l l' := by
  induction l generalizing s l' with
  | nil =>
    obtain ⟨rfl, -⟩ := mapM_nil_ok.mp h
    exact .nil
  | cons o l ih =>
    obtain ⟨o', t, rest, h1, h2, rfl⟩ := mapM_cons_ok.mp h
    exact .cons (resolveOperand_yields _ _ _ h1) (ih h2)

theorem doJump_changes (hT : T id) (h : doJump id s = .ok () s') : s.Changes id T cut s' := by
  obtain ⟨j, target, st, v, hj, -, -, hr, hcase⟩ := doJump_ok h
  have hext := restoreState_extending _ _ _ hr
  rcases hcase with ⟨hin, rfl⟩ | ⟨hout, extra, own, he, -, ha⟩
  · rw [reconciling, if_pos hin] at hext
    exact .of_extends hext
  · rw [reconciling, if_neg (by simp [hout]), he] at hext
    exact .head (.detour hT he hj hext) (Changes.of_extends (assignState_extending _ _ _ ha))

theorem queueing_changes (hT : ∀ x, s.Concerns id x → T x)
    (hi : s.items.get? id = some item) (hk : item.kind = .jump j) (hl : s.labels[j.target.index]? = some target)
    (hti : s.items.get? target = some titem) : s.Changes id T cut (s.queueing id target j titem.kind st) := by
  have hnote : s.Changes id T cut { s.withKind id (.jump { j with state := some st }) with
      ctx := { s.ctx with forwardJumps := s.ctx.forwardJumps ++ [⟨id, st⟩] } } := by
    refine .head (.settle (hT id (.inl rfl)) hi (hk ▸ .jump)) (.single (.note rfl ⟨rfl, fun q hq => ?_, .inl⟩))
    refine (mem_append.mp hq).imp_right fun h => ?_
    rw [mem_singleton.mp h]
  unfold queueing
  cases hkt : titem.kind with
  | target r =>
    dsimp only
    split
    · have hne : target ≠ id := by
        rintro rfl
        cases hi ▸ hti
        cases hk ▸ hkt
      refine hnote.tail (.settle (hT target (.inr ⟨item, j, hi, hk, hl⟩))
        ((get?_modify_of_ne _ hne.symm _).trans hti) (hkt ▸ .target))
    · exact hnote
  | _ => exact hnote

theorem queueing_stateAt
    (hi : s.items.get? id = some item) (hk : item.kind = .jump j) (hti : s.items.get? target = some titem)
    (ht : titem.kind.isTarget = true) : (s.queueing id target j titem.kind st).stateAt target ≠ none := by
  have hne : target ≠ id := by
    rintro rfl
    cases hti ▸ hi
    rw [hk] at ht
    cases ht
  have hti' : (s.withKind id (.jump { j with state := some st })).items.get? target = some titem :=
    (get?_modify_of_ne _ (Ne.symm hne) _).trans hti
  unfold queueing
  cases hkt : titem.kind with
  | target r =>
    dsimp only
    split
    · refine ne_none_iff_exists'.mpr ⟨st, stateAt_eq_some.mpr
        ⟨{ titem with kind := .target { r with state := some st } }, _, ?_, rfl, rfl⟩⟩
      exact (get?_modify_self ..).trans (by rw [hti']; rfl)
    · rename_i hr
      obtain ⟨st', hst'⟩ := ne_none_iff_exists'.mp hr
      exact ne_none_iff_exists'.mpr ⟨st', stateAt_eq_some.mpr ⟨titem, r, hti', hkt, hst'⟩⟩
  | _ =>
    rw [hkt] at ht
    cases ht

theorem translateJump_course (hT : ∀ x, s.Concerns id x → T x)
    (hi : s.items.get? id = some item) (hk : item.kind = .jump j) (h : translateJump id j s = .ok next s') :
    s.Course id T item next s' := by
  have hid : T id := hT id (.inl rfl)
  obtain ⟨target, titem, hl, hti, hlink, ⟨ho, htr, rfl, rfl⟩ | ⟨f, w, -, hw, hret, rfl⟩⟩ := translateJump_ok h
  · exact .follow hk ho hl hti htr (isLinked_iff.mp (by simpa using hlink))
  have hext := retireActiveAt_extends hret
  have hend : w.Changes id T (item.kind.fallsThrough = false) s' := by
    refine .head ?_ (Changes.of_extends hext)
    refine .note rfl ⟨rfl, fun q => .inl, fun hu => ?_⟩
    rcases (Bool.or_eq_true _ _).mp hu with hu | hu
    · exact .inr (by simp [hk, fallsThrough, of_decide_eq_true hu])
    · exact .inl hu
  have hnot : item.kind.isTarget = true → item.translated = false ∧ s'.ctx.unreachable = false := fun ht => by
    rw [hk] at ht
    cases ht
  rcases hw with ⟨htr, hd⟩ | ⟨-, -, rfl⟩
  · refine .onward (.head (.settle hid hi (hk ▸ .jump)) ((doJump_changes hid hd).trans hend)) hnot (fun j' hk' => ?_)
      (by rw [hk]; rfl)
    cases hk ▸ hk'
    exact ⟨target, titem, hl, hti, .inl htr⟩
  refine .onward ((queueing_changes hT hi hk hl hti).trans hend) hnot (fun j' hk' => ?_) (by rw [hk]; rfl)
  cases hk ▸ hk'
  refine ⟨target, titem, hl, hti, .inr fun ht => ?_⟩
  have hst : (s.queueing id target j titem.kind (s.snapshot f)).stateAt target ≠ none := queueing_stateAt hi hk hti ht
  rwa [stateAt, hext.toGains.get?_of_lt (lt_size_of_stateAt hst)]

theorem translateTarget_course (hT : T id) (hi : s.items.get? id = some item)
    (hk : item.kind = .target r) (h : translateTarget id r item.translated s = .ok next s') :
    s.Course id T item next s' := by
  have hj : ∀ {P : JumpItem → Prop} j, item.kind = .jump j → P j := fun j hj => by cases hk ▸ hj
  rcases translateTarget_ok h with ⟨htr, rfl, st, -, hr⟩ | ⟨htr, hu, hst, hr⟩ | ⟨htr, -, rfl, st, -, ha⟩ |
    ⟨htr, hu, rfl, f, item', r', -, hi', hk', rfl⟩
  · exact .again htr (by rw [hk]; rfl) (.of_extends (restoreState_extending _ _ _ hr))
  · refine .remove htr ⟨⟨hu, by simp [stateAt, hi, hk, hst], r.label,
      (roleAt_of_get? hi).trans (by rw [hk]; rfl)⟩, fun ⟨item', hi', ht⟩ => ?_, hr⟩
    cases hi ▸ hi'
    cases htr ▸ ht
  · have hext := assignState_extending _ _ _ ha
    refine .onward (.head ?_ (Changes.of_extends hext)) (fun _ => ⟨htr, (congrArg Context.unreachable hext.ctx :)⟩) hj
      (by rw [hk]; rfl)
    exact .note rfl ⟨rfl, fun q => .inl, fun h => by cases h⟩
  · exact .onward (.single (.settle hT hi' (hk' ▸ .target))) (fun _ => ⟨htr, hu⟩) hj (by rw [hk]; rfl)

theorem emitReturnValues_plain : Ordinary D (emitReturnValues ops rets) := by
  unfold emitReturnValues
  split
  · exact emitReturnPair_plain
  · exact emitReturnValue_plain
  · exact .pure _

theorem translateReturn_settles (h : translateReturn id r s = .ok next s') :
    ∃ t record exit, s.Extends (fun _ => True) t ∧ t.functions[r.function.index]? = some record ∧
      t.labels[record.exitLabel.index]? = some exit ∧ next = s'.items.next? id ∧ ∀ T : ItemId → Prop,
        (t.withKind id (.ret { r with emitJump := !t.items.fallsThroughTo exit (t.items.suffixFrom id).tail })).Changes id
          T True s' := by
  obtain ⟨_, t, record, exit, -, hvals, hr, hl, hend⟩ := translateReturn_ok h
  obtain ⟨hret, hnext⟩ := hend _ rfl
  refine ⟨t, record, exit, (emitReturnValues_plain (D := .all)).extending _ _ _ hvals, hr, hl, hnext, fun T => ?_⟩
  refine .head ?_ (Changes.of_extends (retireActiveAt_extends hret))
  exact .note rfl ⟨rfl, fun q => .inl, fun _ => .inr trivial⟩

theorem translateReturn_changes (hT : T id) (hi : s.items.get? id = some item)
    (hk : item.kind = .ret r) (h : translateReturn id r s = .ok next s') :
    s.Changes id T True s' ∧ next = s'.items.next? id := by
  obtain ⟨t, record, exit, hvals, -, -, rfl, hend⟩ := translateReturn_settles h
  have hi' := (hvals.toGains.get?_of_lt (lt_size_of_get? hi)).trans hi
  refine ⟨(Changes.of_extends hvals).trans (.head ?_ (hend T)), rfl⟩
  exact .settle hT hi' (hk ▸ .ret)

theorem translateInstruction_settles (hi : s.items.get? id = some item)
    (h : translateInstruction id i s = .ok next s') :
    ∃ t operands, s.Extends (fun _ => True) t ∧ Forall₂ Operand.SettlesAs i.operands operands ∧
      t.items.get? id = some item ∧ (t.withKind id (.instruction { i with operands })).Extends (fun _ => True) s' ∧
      next = s'.items.next? id := by
  simp only [translateInstruction, bind_ok, setKind_ok] at h
  obtain ⟨_, t1, h1, _, t2, h2, operands, t3, h3, _, _, ⟨-, rfl⟩, _, t4, h4, _, t5, h5, _, _, ⟨⟩, ⟨⟩⟩ := h
  have hin : s.Extends (fun _ => True) t3 :=
    ((allocRecords_plain (fun _ => trivial) trivial).extending _ _ _ h1).trans <|
      ((Plain.forM fun _ => moveHome_plain).extending _ _ _ h2).trans <|
      (Plain.mapM (D := .all) fun _ => resolveOperand_plain).extending _ _ _ h3
  have hret : ∀ v, Extending (fun _ => True) (retireAt id v) := fun v _ _ _ h =>
    (retireAt_extends h).mono fun _ _ => trivial
  exact ⟨t3, operands, hin, resolveOperands_settle h3, (hin.toGains.get?_of_lt (lt_size_of_get? hi)).trans hi,
    .trans (Ensures.forM (fun _ _ => hret _) _ _ _ h4) (Ensures.forM (fun _ _ => hret _) _ _ _ h5), rfl⟩

/-- What translating an item comes to, whatever the item is. -/
theorem translateKind_course (hT : ∀ x, s.Concerns id x → T x) (hi : s.items.get? id = some item)
    (h : translateKind id item s = .ok next s') : s.Course id T item next s' := by
  have hid : T id := hT id (.inl rfl)
  have hon : ∀ {s' : Session}, item.kind.role.stays = false → (∀ j, item.kind ≠ .jump j) →
      s.Changes id T (item.kind.fallsThrough = false) s' → s.Course id T item (s'.items.next? id) s' := fun ht hj h => by
    refine .onward h (fun ht' => ?_) (fun j hk => absurd hk (hj j)) ?_
    · obtain ⟨l, hl⟩ := isTarget_iff.mp ht'
      rw [hl] at ht
      cases ht
    · cases hk : item.kind <;> simp_all [isFunctionEnd, role, Role.stays]
  cases hk : item.kind with
  | instruction i =>
    simp only [translateKind, hk] at h
    obtain ⟨t, operands, hin, hops, hit, hout, rfl⟩ := translateInstruction_settles hi h
    exact hon (by rw [hk]; rfl) (by simp [hk])
      (((Changes.of_extends hin).tail (.settle hid hit (hk ▸ .instruction hops))).trans (Changes.of_extends hout))
  | jump j =>
    simp only [translateKind, hk] at h
    exact translateJump_course hT hi hk h
  | target r =>
    simp only [translateKind, hk] at h
    exact translateTarget_course hid hi hk h
  | function f =>
    simp only [translateKind, hk, translateFunction, getFunction, bind_ok, lift_ok] at h
    obtain ⟨record, _, ⟨_, _, ⟨⟩, -, rfl⟩, _, t1, h1, _, t2, h2, _, _, ⟨⟩, ⟨⟩⟩ := h
    have hargs := Ensures.forM (fun _ _ => (receiveArg_plain (D := .all)).extending) _ _ _ h1
    have hret : ∀ v, Extending (fun _ => True) (retireAt id v) := fun v _ _ _ h =>
      (retireAt_extends h).mono fun _ _ => trivial
    exact hon (by rw [hk]; rfl) (by simp [hk]) (.of_extends (hargs.trans (Ensures.forM (fun _ _ => hret _) _ _ _ h2)))
  | ret r =>
    simp only [translateKind, hk] at h
    obtain ⟨hc, rfl⟩ := translateReturn_changes hid hi hk h
    refine hon (by rw [hk]; rfl) (by simp [hk]) ?_
    rwa [hk, show (fallsThrough (.ret r) = false) = True from eq_true rfl]
  | call c =>
    simp only [translateKind, hk] at h
    cases translateCall_next h
    refine hon (by rw [hk]; rfl) (by simp [hk])
      (.single (.emit (translateCall_plain.gains _ _ _ h).1 fun i he => he.imp_right ?_))
    rintro ⟨l, hl, rfl⟩
    exact ⟨l, ⟨item, c, hi, hk, hl⟩, rfl⟩
  | hint d =>
    simp only [translateKind, hk, translateHint, bind_ok] at h
    obtain ⟨_, t1, h1, _, t2, h2, _, _, ⟨⟩, ⟨⟩⟩ := h
    exact hon (by rw [hk]; rfl) (by simp [hk])
      ((Changes.of_extends ((applyDirective_plain (D := .all) (fun _ => trivial) trivial).extending _ _ _ h1)).trans
        (Changes.of_extends (retireAt_extends h2)))
  | functionEnd f =>
    simp only [translateKind, hk, pure_ok] at h
    obtain ⟨rfl, rfl⟩ := h
    exact .close (by rw [hk]; rfl)
  | align | comment | data =>
    simp only [translateKind, hk, bind_ok] at h
    obtain ⟨_, _, ⟨⟩, ⟨⟩⟩ := h
    exact hon (by rw [hk]; rfl) (by simp [hk]) .refl

theorem removeUntilTarget_same (h : removeUntilTarget start l s = .ok next s') : s'.ctx = s.ctx ∧
    ∀ {x item'}, s'.items.get? x = some item' → ∃ item, s.items.get? x = some item ∧ item'.kind = item.kind ∧
      item'.translated = item.translated := by
  refine removeUntilTarget_induct (fun _ _ ⟨hctx, hitems⟩ => ⟨hctx, fun hi' => ?_⟩) h ⟨rfl, fun hi => ⟨_, hi, rfl, rfl⟩⟩
  rcases get?_modify_cases hi' with ⟨-, hi⟩ | ⟨rfl, item, hi, rfl⟩ <;> exact (hitems hi :)

theorem translateKind_tidy (hi : s.items.get? id = some item) (h : translateKind id item s = .ok next s') :
    s'.TidyAt id := by
  intro item' i' hi' hk'
  by_cases hk : ∃ i, item.kind = .instruction i
  · obtain ⟨i, hk⟩ := hk
    simp only [translateKind, hk] at h
    obtain ⟨t, operands, -, hops, hit, hout, -⟩ := translateInstruction_settles hi h
    have hget : s'.items.get? id = some { item with kind := .instruction { i with operands } } := by
      rw [hout.toGains.get?_of_lt (by simpa [withKind, ItemSeq.modify, size] using lt_size_of_get? hit)]
      rw [withKind, get?_modify_self, hit]
      rfl
    cases hget ▸ hi'
    cases hk'
    intro o ho
    obtain ⟨n, hn, rfl⟩ := mem_iff_getElem.mp ho
    have hlen := hops.length_eq
    rcases (forall₂_iff_get.mp hops).2 n (hlen ▸ hn) hn with hp | ⟨l, -, hl⟩
    · exact .inl hp
    · exact .inr ⟨l, hl⟩
  · have hk0 : ∀ i, item.kind ≠ .instruction i := fun i hi => hk ⟨i, hi⟩
    have hsame : s'.items = s.items → False := fun he => by
      rw [he] at hi'
      cases hi ▸ hi'
      exact hk0 i' hk'
    cases translateKind_course (fun _ _ => trivial) hi h with
    | onward hc | again _ _ hc => exact absurd hk' (hc.not_instruction hi hk0 hi' i')
    | follow | close => exact (hsame rfl).elim
    | remove _ hr =>
      obtain ⟨item0, hi0, hsame, -⟩ := (removeUntilTarget_same hr.2.2).2 hi'
      cases hi ▸ hi0
      exact absurd (hsame ▸ hk') (hk0 i')

theorem translateItem_course (h : translateItem id s = .ok next s') :
    ∃ item w, s.items.get? id = some item ∧ (item.translated = true → item.kind.isTarget = true) ∧
      (s.entering id item).Course id (s.Concerns id) item next w ∧ w.TidyAt id ∧ s' = w.leaving id item := by
  obtain ⟨item, w, hi, ht, hk, rfl⟩ := translateItem_ok h
  exact ⟨item, w, hi, ht, translateKind_course (fun _ hx => hx) hi hk,
    translateKind_tidy (s := s.entering id item) hi hk, rfl⟩

end Build

end Codegen
