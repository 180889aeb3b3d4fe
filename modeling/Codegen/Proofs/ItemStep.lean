import Codegen.Proofs.Guarding
import Codegen.Proofs.Walk

/-! One item of a function is translated. Whatever the item is, the session stays one in the middle of the translation
of the function, and the walk goes on with an item of the function. -/
namespace Codegen.Session.Midway
open List Build ItemKind
variable {t : Session} {start stop : ItemId} {body : List ItemId} {busy : ItemId → Prop}
variable {id : ItemId} {next : Option ItemId}

/-- The items that the walk may come to. -/
def Within (t : Session) (stop : ItemId) (body : List ItemId) (next : Option ItemId) : Prop :=
  ∀ x, next = some x → x ∈ body ∨ x = stop ∨ t.items.size ≤ x.index

theorem within_next (h : t.Midway f start stop body busy u) (hid : id ∈ body) :
    Within t stop body (u.items.next? id) := by
  intro x hx
  obtain ⟨extra, -, hs⟩ := h.spans
  exact hs.next hid h.outline.outer.1 h.outline.outer.2 hx

theorem tends (h : t.Midway f start stop body busy u) (hV : ∀ v, V v → t.Owns f v) : u.Tends f V where
  coherent := h.coherent
  owns v hv := h.continues.vars.owns_iff.mpr (hV v hv)
  active v hv := h.continues.vars.owns_iff.mpr (h.outline.owned v (h.continues.vars.active v hv))

section Jump
variable {target : ItemId} {st : Snapshot}

section
variable (h : t.Midway f start stop body busy u)
include h

theorem origin (hid : id ∈ body) (hj : u.jump? id = some j) :
    ∃ j0, t.jump? id = some j0 ∧ j.opcode = j0.opcode ∧ (j.target = j0.target ∨ t.labels.size ≤ j.target.index) := by
  obtain ⟨kind, item0, hi0, -⟩ := h.outline.inside id hid
  obtain ⟨item, hi, -, hbec⟩ := h.items hid hi0
  obtain ⟨item', hi', hk⟩ := jump?_eq_some.mp hj
  cases hi ▸ hi'
  obtain ⟨j0, l, state, hk0, rfl, hl⟩ := (hk ▸ hbec).of_jump
  exact ⟨j0, jump?_eq_some.mpr ⟨item0, hi0, hk0⟩, rfl, hl⟩

section
variable (hid : id ∈ body) (hj : u.jump? id = some j) (hl : u.labels[j.target.index]? = some target)
include hid hj hl

theorem jumpsTo_of_lt (hold : j.target.index < t.labels.size) : t.JumpsTo id target := by
  obtain ⟨j0, hj0, -, hl0⟩ := h.origin hid hj
  obtain ⟨item0, hi0, hk0⟩ := jump?_eq_some.mp hj0
  refine ⟨item0, j0, hi0, hk0, ?_⟩
  rw [← hl0.resolve_right (not_le.mpr hold), ← h.continues.labels_eq hold, hl]

theorem landing : target ∈ body ∨ t.items.size ≤ target.index := by
  by_cases hnew : t.labels.size ≤ j.target.index
  · exact .inr (h.labelled hnew hl)
  · exact .inl (h.outline.jumps id hid target (h.jumpsTo_of_lt hid hj hl (Nat.lt_of_not_le hnew)))

theorem leads (hst : u.stateAt target = some st) : target ∈ body ∧ st.Fits (t.holdings f) := by
  rcases h.landing hid hj hl with hbody | hnew
  · exact ⟨hbody, h.targets hbody hst⟩
  obtain ⟨titem, r, hti, htk, hr⟩ := stateAt_eq_some.mp hst
  rw [(h.generated hnew hti).2 r htk] at hr
  cases hr

end

theorem arrives (hst : st.Fits (t.holdings f)) (hr : restoreState st (u.reconciling target id j) = .ok () v) :
    (u.reconciling target id j).Moves f (Effect.restores st fun _ => True) v ∧ v.Meets f st := by
  have h1 : t.Midway f start stop body busy (u.reconciling target id j) := by
    unfold reconciling
    split
    · exact h
    · exact (h.atCursor _).1
  exact restoreState_moves h1.coherent (h1.continues.fits hst) h1.function hr

theorem doJump (hid : id ∈ body) (hb : busy id) (hd : doJump id u = .ok () u') :
    t.Midway f start stop body busy u' ∧ u.Keeps False body u' := by
  obtain ⟨j, target, st, v, hj, hl, hst, hr, hcase⟩ := doJump_ok hd
  obtain ⟨-, hfit⟩ := h.leads hid hj hl hst
  rcases hcase with ⟨hp, rfl⟩ | ⟨hp, extra, own, he, hown, ha⟩
  · obtain ⟨hm, -⟩ := h.arrives hfit hr
    rw [reconciling, if_pos hp] at hm
    exact h.moves hm
  rw [reconciling, if_neg (by simp [hp]), he] at hr
  obtain ⟨h1, k1⟩ := h.outOfLine he hfit hr hid hb hj
  obtain ⟨h2, k2⟩ := h1.atCursor u.items.cursor
  obtain ⟨h3, k3, -⟩ := h2.adopt (h.jumps hid hj hown) ha
  exact ⟨h3, k1.trans (k2.trans k3)⟩

end

end Jump

theorem settle {item0 : Item} (kind : ItemKind) (h : t.Midway f start stop body (· = id) u)
    (hid : id ∈ body) (hi0 : t.items.get? id = some item0)
    (hk0 : item0.kind.isTarget = false ∧ ∀ j, item0.kind ≠ .jump j) (hk : kind.isTarget = false ∧ ∀ j, kind ≠ .jump j) :
    t.Midway f start stop body (· = id) (u.withKind id kind) ∧ u.Keeps False body (u.withKind id kind) := by
  obtain ⟨item, hi, -, hbec⟩ := h.items hid hi0
  refine h.withKind hid (fun item0' hi0' => ?_) (.inl rfl) ?_ (fun j st hj => absurd hj (hk.2 j)) ?_
  · cases hi0 ▸ hi0'
    cases hkind : item0.kind with
    | jump j => exact absurd hkind (hk0.2 j)
    | target r => simp [hkind, isTarget] at hk0
    | _ => exact hk
  · rintro r st rfl
    cases hk.1
  · intro item' hi' ht
    cases hi ▸ hi'
    rw [hbec.isTarget_eq, hk0.1] at ht
    cases ht

theorem note {item : Item} (h : t.Midway f start stop body (· = id) u) (hid : id ∈ body)
    (hi : u.items.get? id = some item) (hk : item.kind = .jump j) :
    t.Midway f start stop body (· = id) (u.withKind id (.jump { j with state := some (u.snapshot f) })) ∧
      u.Keeps False body (u.withKind id (.jump { j with state := some (u.snapshot f) })) := by
  have hfit := h.continues.fits_back (snapshot_fits h.coherent)
  refine h.withKind hid (fun item0 hi0 => ?_) (.inl rfl) (fun r st hr => by cases hr) ?_ ?_
  · have hbec := (h.becomes hid hi0 hi).2
    obtain ⟨j0, target, state, hk0, rfl, hl⟩ := (hk ▸ hbec).of_jump
    rw [hk0]
    exact ⟨target, _, rfl, hl⟩
  · rintro j' st ⟨⟩ ⟨⟩
    exact hfit
  · intro item' hi' ht
    cases hi ▸ hi'
    rw [hk] at ht
    cases ht

section
variable (h : t.Midway f start stop body busy u)
include h

theorem fix {target : ItemId} {item : Item} {st : Snapshot} (hid : target ∈ body) (hi : u.items.get? target = some item)
    (hk : item.kind = .target r) (htr : item.translated = false) (hst : st.Fits (t.holdings f)) :
    t.Midway f start stop body busy (u.withKind target (.target { r with state := some st })) ∧
      u.Keeps True body (u.withKind target (.target { r with state := some st })) := by
  refine h.withKind hid (fun item0 hi0 => ?_) (.inr rfl) ?_ (fun j st hj => by cases hj) ?_
  · have hbec := (h.becomes hid hi0 hi).2
    obtain ⟨r0, state, hk0, rfl⟩ := (hk ▸ hbec).of_target
    rw [hk0]
    exact ⟨_, rfl⟩
  · rintro r' st' ⟨⟩ ⟨⟩
    exact hst
  · intro item' hi' _ hw
    cases hi ▸ hi'
    rw [hw trivial] at htr
    cases htr

/-- Code that nothing leads to is taken out up to a target or the end of the function. -/
theorem remove (ho : u.items.order = X ++ (L ++ stop :: Z)) (hL : ∀ x ∈ L, x ∈ body ∨ t.items.size ≤ x.index)
    (hr : removeUntilTarget from_ (L ++ stop :: Z) u = .ok next u') :
    t.Midway f start stop body busy u' ∧ u.Keeps False body u' ∧ Within t stop body next := by
  induction L generalizing u with
  | nil =>
    obtain ⟨item, hi, hcase⟩ := removeUntilTarget_cons_ok hr
    obtain ⟨item', hi', hk⟩ := h.closes
    cases hi ▸ hi'
    rcases hcase with ⟨-, rfl, rfl⟩ | ⟨he, -⟩
    · exact ⟨h, .refl _, fun x hx => .inr (.inl (Option.some.inj hx).symm)⟩
    · simp [endsRemoval, hk, isFunctionEnd] at he
  | cons x L ih =>
    obtain ⟨item, hi, hcase⟩ := removeUntilTarget_cons_ok hr
    rcases hcase with ⟨-, rfl, rfl⟩ | ⟨-, -, hr⟩
    · refine ⟨h, .refl _, fun y hy => ?_⟩
      cases hy
      exact (hL x mem_cons_self).imp_right .inr
    have hne : x ≠ start := by
      rintro rfl
      rcases hL _ mem_cons_self with hx | hx
      · exact h.outline.outer.1 hx
      · exact not_lt.mpr hx (h.outline.made _ mem_cons_self)
    obtain ⟨h1, k1⟩ := h.dropping ho hne
    obtain ⟨h2, k2, hw⟩ := ih h1 (order_dropping ho) (fun y hy => hL y (mem_cons_of_mem _ hy)) hr
    exact ⟨h2, k1.trans k2, hw⟩

theorem retire (hr : retireActiveAt id u = .ok () u') : t.Midway f start stop body busy u' ∧ u.Keeps False body u' :=
  h.moves (retireActiveAt_working (V := fun _ => False) _ _ _ hr (h.tends fun _ h => h.elim))

end

theorem reach (h : t.Midway f start stop body busy u) (b : Bool) :
    t.Midway f start stop body busy { u with ctx := { u.ctx with unreachable := b } } ∧
      u.Keeps False body { u with ctx := { u.ctx with unreachable := b } } :=
  h.quiet rfl rfl ⟨rfl, rfl, .refl _, prefix_refl _⟩ h.coherent rfl h.queued h.followed (.refl _)

section
variable (h : t.Midway f start stop body (· = id) u) (hid : id ∈ body)
include h hid

/-- A jump waits for its target. -/
theorem queueing {item titem : Item} {target : ItemId} (hi : u.items.get? id = some item) (hk : item.kind = .jump j)
    (hcond : j.opcode ≠ .jmp) (htarget : target ∈ body) (hti : u.items.get? target = some titem)
    (htr : titem.translated = false) :
    t.Midway f start stop body (· = id) (u.queueing id target j titem.kind (u.snapshot f)) ∧
      u.Keeps True body (u.queueing id target j titem.kind (u.snapshot f)) := by
  have hfit := h.continues.fits_back (snapshot_fits h.coherent)
  have hqueue : t.Queues f body ⟨id, u.snapshot f⟩ := by
    refine ⟨hid, hfit, fun j' hj' => ?_⟩
    obtain ⟨j0, hj0, hop, -⟩ := h.origin hid (jump?_eq_some.mpr ⟨item, hi, hk⟩)
    cases hj0 ▸ hj'
    exact hop ▸ hcond
  obtain ⟨h1, k1⟩ := h.note hid hi hk
  obtain ⟨h2, k2⟩ : t.Midway f start stop body (· = id) _ ∧ Keeps False body _
      { u.withKind id (.jump { j with state := some (u.snapshot f) }) with
        ctx := { u.ctx with forwardJumps := u.ctx.forwardJumps ++ [⟨id, u.snapshot f⟩] } } := by
    refine h1.quiet rfl rfl ⟨rfl, rfl, .refl _, prefix_refl _⟩ h1.coherent rfl (fun q hq => ?_) h1.followed (.refl _)
    rcases mem_append.mp hq with hq | hq
    · exact h1.queued q hq
    · cases mem_singleton.mp hq
      exact hqueue
  have k12 : u.Keeps True body _ := (k1.trans k2).weaken
  unfold Session.queueing
  cases hkt : titem.kind with
  | target r =>
    dsimp only
    split
    · have hne : id ≠ target := by
        rintro rfl
        cases hi ▸ hti
        cases hk ▸ hkt
      obtain ⟨h3, k3⟩ := h2.fix htarget ((ItemSeq.get?_modify_of_ne _ hne _).trans hti) hkt htr hfit
      exact ⟨h3, k12.trans k3⟩
    · exact ⟨h2, k12⟩
  | _ => exact ⟨h2, k12⟩

theorem jump {item : Item} (hi : u.items.get? id = some item) (hk : item.kind = .jump j)
    (hr : translateJump id j u = .ok next u') :
    t.Midway f start stop body (· = id) u' ∧ u.Keeps True body u' ∧ Within t stop body next := by
  obtain ⟨target, titem, hl, hti, -, hcase⟩ := translateJump_ok hr
  have hland := h.landing hid (jump?_eq_some.mpr ⟨item, hi, hk⟩) hl
  have hbody : titem.translated = false → target ∈ body := fun htr => hland.resolve_right fun hnew => by
    rw [(h.generated hnew hti).1] at htr
    cases htr
  rcases hcase with ⟨-, htr, rfl, rfl⟩ | ⟨g, w, hg, hw, hret, rfl⟩
  · obtain ⟨h1, k1⟩ : t.Midway f start stop body (· = id) _ ∧ u.Keeps False body
        { u with ctx := { u.ctx with backwardCode := u.ctx.backwardCode.push id } } := by
      refine h.quiet rfl rfl ⟨rfl, rfl, .refl _, prefix_refl _⟩ h.coherent rfl h.queued (fun x hx => ?_) (.refl _)
      rcases Array.mem_push.mp hx with hx | rfl
      · exact h.followed x hx
      · exact hid
    refine ⟨h1, k1.weaken, fun x hx => ?_⟩
    cases hx
    exact .inl (hbody htr)
  · cases h.function ▸ hg
    obtain ⟨h1, k1⟩ : t.Midway f start stop body (· = id) w ∧ u.Keeps True body w := by
      rcases hw with ⟨-, hd⟩ | ⟨htr, hcond, rfl⟩
      · obtain ⟨h1, k1⟩ := h.note hid hi hk
        obtain ⟨h2, k2⟩ := h1.doJump hid rfl hd
        exact ⟨h2, (k1.trans k2).weaken⟩
      · exact h.queueing hid hi hk hcond (hbody htr) hti htr
    obtain ⟨h2, k2⟩ := h1.reach (decide (j.opcode = .jmp) || w.ctx.unreachable)
    obtain ⟨h3, k3⟩ := h2.retire hret
    exact ⟨h3, k1.trans (k2.trans k3).weaken, h3.within_next hid⟩

end

theorem target {item : Item} (h : t.Midway f start stop body busy u) (hid : id ∈ body)
    (hi : u.items.get? id = some item) (hk : item.kind = .target r)
    (hr : translateTarget id r item.translated u = .ok next u') :
    t.Midway f start stop body busy u' ∧ u.Keeps True body u' ∧ Within t stop body next := by
  have hfit : ∀ {st}, r.state = some st → st.Fits (t.holdings f) := fun hst =>
    h.targets hid (stateAt_eq_some.mpr ⟨item, r, hi, hk, hst⟩)
  have hf := h.function
  rcases translateTarget_ok hr with ⟨-, rfl, st, hst, hres⟩ | ⟨-, -, -, hrem⟩ | ⟨-, -, rfl, st, hst, ha⟩ |
    ⟨htr, -, rfl, g, item', r', hg, hi', hk', rfl⟩
  · obtain ⟨hm, -⟩ := restoreState_moves h.coherent (h.continues.fits (hfit hst)) hf hres
    obtain ⟨h1, k1⟩ := h.moves hm
    exact ⟨h1, k1.weaken, fun x hx => by cases hx⟩
  · obtain ⟨item', hi', hcase⟩ := removeUntilTarget_cons_ok hrem
    cases hi ▸ hi'
    have hmem : id ∈ u.items.order := by
      rcases hcase with ⟨he, -⟩ | ⟨-, hmem, -⟩
      · simp [endsRemoval, hk, isFunctionEnd] at he
      · exact hmem
    obtain ⟨extra, -, hs⟩ := h.spans
    obtain ⟨X, L, Z, ho, hX, hL⟩ := hs.around hid h.outline.outer.1 h.outline.outer.2 hmem
    rw [ItemSeq.suffixFrom_eq ho hX] at hrem
    obtain ⟨h1, k1, hw⟩ := h.remove ho (forall_mem_cons.mpr ⟨.inl hid, hL⟩) hrem
    exact ⟨h1, k1.weaken, hw⟩
  · obtain ⟨h1, k1⟩ := h.reach false
    obtain ⟨h2, k2, -⟩ := h1.adopt (hfit hst) ha
    exact ⟨h2, (k1.trans k2).weaken, h2.within_next hid⟩
  · cases hf ▸ hg
    cases hi ▸ hi'
    obtain ⟨h1, k1⟩ := h.fix hid hi hk' htr (h.continues.fits_back (snapshot_fits h.coherent))
    exact ⟨h1, k1, h1.within_next hid⟩

/-- An item of the body is translated. -/
theorem kind {item : Item} (h : t.Midway f start stop body (· = id) u) (hid : id ∈ body)
    (hi : u.items.get? id = some item)
    (hwait : ∀ item0, t.items.get? id = some item0 → item0.kind.isTarget = false → item.kind = item0.kind)
    (hr : translateKind id item u = .ok next u') :
    t.Midway f start stop body (· = id) u' ∧ u.Keeps True body u' ∧ Within t stop body next := by
  obtain ⟨kind, item0, hi0, -, hprep, hin, hown⟩ := h.outline.inside id hid
  have hte := h.tends hown
  have hbec := (h.becomes hid hi0 hi).2
  cases kind with
  | instruction i =>
    obtain ⟨records, memVars, hcol, hk0⟩ := hprep
    simp only [translateKind, hwait item0 hi0 (by rw [hk0]; rfl), hk0] at hr
    have hcol' : Build.Collected { i with records, memVars } records memVars :=
      ⟨hcol.nodup, hcol.apart, hcol.recorded, hcol.named⟩
    obtain ⟨w, operands, hm1, -, -, -, -, hm2, rfl⟩ := translateInstruction_ok hte.coherent hcol' hte.owns hr
    obtain ⟨h1, k1⟩ := h.moves hm1
    obtain ⟨h2, k2⟩ := h1.settle (.instruction { i with operands, records, memVars }) hid hi0
      (by simp [hk0, isTarget]) ⟨rfl, fun j hj => by cases hj⟩
    obtain ⟨h3, k3⟩ := h2.moves hm2
    exact ⟨h3, (k1.trans (k2.trans k3)).weaken, h3.within_next hid⟩
  | jump j =>
    obtain ⟨taken, hk0⟩ := hprep
    have hk := (hwait item0 hi0 (by rw [hk0]; rfl)).trans hk0
    simp only [translateKind, hk] at hr
    exact h.jump hid hi hk hr
  | target r =>
    obtain ⟨state, hk⟩ : (ItemKind.target r).Becomes t.labels.size item.kind := (hprep : item0.kind = _) ▸ hbec
    simp only [translateKind, hk] at hr
    exact h.target hid hi hk hr
  | hint d =>
    have hk0 : item0.kind = .hint d := hprep
    simp only [translateKind, hwait item0 hi0 (by rw [hk0]; rfl), hk0] at hr
    obtain ⟨w, hm1, hm2, rfl⟩ := translateHint_ok hte.coherent (hte.owns d.var mem_cons_self) hr
    obtain ⟨h1, k1⟩ := h.moves hm1
    obtain ⟨h2, k2⟩ := h1.moves hm2
    exact ⟨h2, (k1.trans k2).weaken, h2.within_next hid⟩
  | ret r =>
    have hk0 : item0.kind = .ret r := hprep
    simp only [translateKind, hwait item0 hi0 (by rw [hk0]; rfl), hk0] at hr
    obtain ⟨w, emitJump, g1, g2, rfl⟩ := translateReturn_guards (E := fun _ => True)
      (R := fun _ => True) hte (fun _ _ => trivial) (fun _ hv => hv) (fun _ _ _ _ => ⟨⟨trivial, trivial⟩, trivial, trivial⟩) hr
    obtain ⟨h1, k1⟩ := h.moves g1.moves
    obtain ⟨h2, k2⟩ := h1.settle (.ret { r with emitJump }) hid hi0 (by simp [hk0, isTarget])
      ⟨rfl, fun j hj => by cases hj⟩
    obtain ⟨h3, k3⟩ := h2.reach (emitJump || w.ctx.unreachable)
    obtain ⟨h4, k4⟩ := h3.moves g2.moves
    exact ⟨h4, (k1.trans (k2.trans (k3.trans k4))).weaken, h4.within_next hid⟩
  | call c =>
    have hk0 : item0.kind = .call c := hprep
    simp only [translateKind, hwait item0 hi0 (by rw [hk0]; rfl), hk0] at hr
    obtain ⟨h1, k1⟩ := h.moves (translateCall_moves hte (fun _ hv => hv) hr)
    exact ⟨h1, k1.weaken, translateCall_next hr ▸ h1.within_next hid⟩
  | function | functionEnd => exact hin.elim
  | align | comment | data =>
    have hk0 : item0.kind = _ := hprep
    simp only [translateKind, hwait item0 hi0 (by rw [hk0]; rfl), hk0, bind_ok, get_ok, pure_ok] at hr
    obtain ⟨_, _, ⟨rfl, rfl⟩, rfl, rfl⟩ := hr
    exact ⟨h, .refl _, h.within_next hid⟩

theorem entering (h : t.Midway f start stop body busy u) (id : ItemId) (item : Item) :
    t.Midway f start stop body busy (u.entering id item) ∧ u.Keeps False body (u.entering id item) := by
  obtain ⟨h1, k1⟩ : t.Midway f start stop body busy _ ∧ u.Keeps False body
      { u with ctx := { u.ctx with currentOffset := item.offset.getD u.ctx.currentOffset } } :=
    h.quiet rfl rfl ⟨rfl, rfl, .refl _, prefix_refl _⟩ h.coherent rfl h.queued h.followed (.refl _)
  obtain ⟨h2, k2⟩ := h1.atCursor (u.items.prev? id)
  exact ⟨h2, k1.trans k2⟩

theorem fresh {item : Item} (h : t.Midway f start stop body (fun _ => False) u) (hid : id ∈ body)
    (hi : u.items.get? id = some item) (ht : item.translated = true → item.kind.isTarget = true) :
    (∀ item0, t.items.get? id = some item0 → item0.kind.isTarget = item.kind.isTarget) ∧
      ∀ item0, t.items.get? id = some item0 → item0.kind.isTarget = false → item.kind = item0.kind := by
  obtain ⟨kind, item0, hi0, -⟩ := h.outline.inside id hid
  have hbec := (h.becomes hid hi0 hi).2
  refine ⟨fun item1 hi1 => ?_, fun item1 hi1 hnt => h.waiting hid (fun hf => hf) hi1 hi ?_ hnt⟩ <;>
    cases hi0 ▸ hi1
  · exact hbec.isTarget_eq.symm
  rw [← hbec.isTarget_eq] at hnt
  by_contra htr
  rw [ht (by simpa using htr)] at hnt
  cases hnt

theorem not_generated {item : Item} (h : t.Midway f start stop body busy u) (hnew : t.items.size ≤ id.index)
    (hi : u.items.get? id = some item) (ht : item.translated = true → item.kind.isTarget = true) :
    translateKind id item v ≠ .ok next u' := by
  intro hk
  obtain ⟨htr, hstate⟩ := h.generated hnew hi
  have htarget := ht htr
  cases hkind : item.kind with
  | target r =>
    simp only [translateKind, hkind, htr] at hk
    rcases translateTarget_ok hk with ⟨-, -, st, hst, -⟩ | ⟨hf, -⟩ | ⟨hf, -⟩ | ⟨hf, -⟩
    · rw [hstate r hkind] at hst
      cases hst
    all_goals cases hf
  | _ =>
    rw [hkind] at htarget
    cases htarget

theorem item (h : t.Midway f start stop body (fun _ => False) u) (hw : Within t stop body (some id))
    (hr : translateItem id u = .ok next u') :
    t.Midway f start stop body (fun _ => False) u' ∧ u.Keeps True body u' ∧ Within t stop body next := by
  obtain ⟨item, w, hi, ht, hk, rfl⟩ := translateItem_ok hr
  obtain ⟨h1, k1⟩ := h.entering id item
  have h1' := h1.mono fun x hx => (hx.elim : x = id)
  rcases hw id rfl with hid | rfl | hnew
  · obtain ⟨hte, hwait⟩ := h.fresh hid hi ht
    obtain ⟨h2, k2, hn⟩ := h1'.kind hid hi hwait hk
    obtain ⟨h3, k3⟩ := h2.leaving fun item1 hi1 htr => (hte item1 hi1).trans (ht htr)
    exact ⟨h3, k1.weaken.trans (k2.trans k3.weaken), hn⟩
  · obtain ⟨item', hi', hke⟩ := h.closes
    cases hi ▸ hi'
    simp only [translateKind, hke, pure_ok] at hk
    obtain ⟨rfl, rfl⟩ := hk
    obtain ⟨h3, k3⟩ := h1'.leaving fun _ _ htr => by
      have := ht htr
      rw [hke] at this
      cases this
    exact ⟨h3, (k1.trans k3).weaken, fun x hx => by cases hx⟩
  · exact absurd hk (h.not_generated hnew hi ht)

end Codegen.Session.Midway
