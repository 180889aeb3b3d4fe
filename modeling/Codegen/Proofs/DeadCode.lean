import Codegen.Proofs.Refusals

/-! What is taken out as dead code. The walk removes a target when it comes there while control does not and no jump that
was translated leads there. This is right as long as every way into the target that control can take starts in code that
is translated by then. -/
namespace Codegen
open List Build ItemSeq Option Builder ItemKind
variable {record : FunctionRecord} {item : Item} {stop : ItemId} {kind : ItemKind}
variable {body : List ItemId} {next : Option ItemId} {t u : Session}

namespace ItemKind

theorem isTarget_of_stays (h : kind.role.stays = true) (hf : kind.fallsThrough = true) : kind.isTarget = true := by
  cases kind with
  | target r => rfl
  | functionEnd f => cases hf
  | _ => cases h

theorem stays_of_isTarget (h : kind.isTarget = true) : kind.role.stays = true := by
  cases kind <;> first | rfl | cases h

theorem stays_of_isFunctionEnd (h : kind.isFunctionEnd = true) : kind.role.stays = true := by
  cases kind <;> first | rfl | cases h

theorem fallsThrough_eq_of_role {k k' : ItemKind} (h : k.role = k'.role) (hne : k.role ≠ .inner) :
    k.fallsThrough = k'.fallsThrough := by
  cases k <;> cases k' <;> first | exact absurd rfl hne | rfl | cases h

theorem PreparedAs.fallsThrough_eq {k k' : ItemKind} (h : k.PreparedAs k') : k'.fallsThrough = k.fallsThrough := by
  cases k with
  | instruction i =>
    obtain ⟨_, _, -, rfl⟩ := h
    rfl
  | jump j =>
    obtain ⟨_, rfl⟩ := h
    rfl
  | _ => exact congrArg fallsThrough h

end ItemKind

namespace Session
variable {start id : ItemId}
variable {es : List Transfer} {e : Transfer}

section Reachable

theorem Flow.concat (h : s.Flow L a b es) (he : e.Allowed s L) (hb : e.src = b) : s.Flow L a e.dst (es ++ [e]) := by
  induction es generalizing a with
  | nil =>
    obtain ⟨-, rfl⟩ := h
    exact ⟨he, hb, he.mem.2, rfl⟩
  | cons d es ih => exact ⟨h.1, h.2.1, ih h.2.2⟩

theorem Flow.of_concat (h : s.Flow L a b (es ++ [e])) : s.Flow L a e.src es ∧ e.Allowed s L ∧ e.dst = b := by
  induction es generalizing a with
  | nil =>
    obtain ⟨he, hsrc, -, hb⟩ := h
    exact ⟨⟨hsrc ▸ he.mem.1, hsrc.symm⟩, he, hb⟩
  | cons d es ih =>
    obtain ⟨hd, hsrc, h⟩ := h
    obtain ⟨h, he⟩ := ih h
    exact ⟨⟨hd, hsrc, h⟩, he⟩

/-- Control can get to the item. -/
def Reachable (s : Session) (L : List ItemId) (start x : ItemId) : Prop := ∃ es, s.Flow L start x es

theorem Reachable.step (h : s.Reachable L start e.src) (he : e.Allowed s L) : s.Reachable L start e.dst := by
  obtain ⟨es, h⟩ := h
  exact ⟨es ++ [e], h.concat he rfl⟩

theorem Reachable.along {C : ItemId → Prop} (h : s.Reachable L start x) (hstart : C start)
    (hstep : ∀ e : Transfer, e.Allowed s L → s.Reachable L start e.src → C e.src → C e.dst) : C x := by
  obtain ⟨es, h⟩ := h
  induction es using reverseRecOn generalizing x with
  | nil => exact h.2 ▸ hstart
  | append_singleton es e ih =>
    obtain ⟨hes, he, rfl⟩ := h.of_concat
    exact hstep e he ⟨es, hes⟩ (ih hes)

theorem Reachable.cases (h : s.Reachable L start x) :
    x = start ∨ ∃ e : Transfer, e.Allowed s L ∧ e.dst = x ∧ s.Reachable L start e.src := by
  refine h.along (C := fun x => x = start ∨ ∃ e : Transfer, e.Allowed s L ∧ e.dst = x ∧ s.Reachable L start e.src) ?_ ?_
  · exact .inl rfl
  · intro e he hr _
    exact .inr ⟨e, he, rfl, hr⟩

theorem Reachable.congr (hs : ∀ e : Transfer, e.Allowed s L ↔ e.Allowed t L) :
    s.Reachable L start x ↔ t.Reachable L start x := by
  have hflow : ∀ {a es}, s.Flow L a x es ↔ t.Flow L a x es := fun {a es} => by
    induction es generalizing a with
    | nil => exact Iff.rfl
    | cons d es ih => simp only [Flow, hs, ih]
  exact exists_congr fun es => hflow

end Reachable

theorem Ready.allowed_iff (h : s.Ready f record stop body)
    (hp : prepareFunction f record stop p s = .ok () t) (e : Transfer) :
    e.Allowed t.activated (record.item :: (body ++ [stop])) ↔ e.Allowed s (record.item :: (body ++ [stop])) := by
  cases e with
  | fall x y =>
    refine and_congr_right fun hxy => ?_
    have hx : x ∈ record.item :: (body ++ [stop]) := hxy.subset (by simp)
    obtain ⟨item, hi⟩ : ∃ item, s.items.get? x = some item := by
      obtain rfl | hx | rfl : x = record.item ∨ x ∈ body ∨ x = stop := by simpa using hx
      · exact ⟨_, h.opens⟩
      · obtain ⟨kind, hi, -⟩ := h.inside x hx
        exact ⟨_, hi⟩
      · exact ⟨_, h.closes⟩
    obtain ⟨kind', o, hk, hi', -⟩ := (h.walked hp).done hx hi
    rw [show t.activated.items.get? x = _ from hi', hi]
    simp [hk.fallsThrough_eq]
  | jump x y =>
    refine and_congr_right fun hx => and_congr_right fun _ => ?_
    obtain rfl | hx | rfl : x = record.item ∨ x ∈ body ∨ x = stop := by simpa using hx
    · refine iff_of_false ?_ ?_
      · rintro ⟨item, j, hi, hk, -⟩
        obtain ⟨kind', o, hk', hi', -⟩ := (h.walked hp).done hx h.opens
        cases hi' ▸ hi
        cases hk' ▸ hk
      · rintro ⟨item, j, hi, hk, -⟩
        cases h.opens ▸ hi
        cases hk
    · exact (h.jumpsTo_iff hp hx :)
    · refine iff_of_false ?_ ?_
      · rintro ⟨item, j, hi, hk, -⟩
        obtain ⟨kind', o, hk', hi', -⟩ := (h.walked hp).done hx h.closes
        cases hi' ▸ hi
        cases hk' ▸ hk
      · rintro ⟨item, j, hi, hk, -⟩
        cases h.closes ▸ hi
        cases hk

/-- Items that are translated lie between items that stand next to each other in the function. -/
theorem Covers.across (h : t.Covers start body next u) (hturn : t.InTurn start stop body next u)
    (hmid : t.Midway f start stop body (fun _ => False) u)
    (hxy : [x, y] <:+: start :: (body ++ [stop])) (hyb : y ∈ body) (hx : x ∈ u.items.order) (hy : y ∈ u.items.order)
    (hd : u.Done x) : u.Done y ∨ next = some y ∨ u.Pending x := by
  have ht := hturn.sequence
  have hlin := hturn.linear
  have hbefore : [x, y].Sublist u.items.order :=
    hturn.edits.before_of_mem ht.blocks.toLinear (ht.infix_order hxy).sublist hx hy
  -- the item right in front of `y`
  obtain ⟨P, Q, ho⟩ := append_of_mem hy
  obtain ⟨P, z, rfl⟩ : ∃ P' z, P = P' ++ [z] := by
    rcases eq_nil_or_concat P with rfl | ⟨P', z, rfl⟩
    · have hfirst := hbefore
      rw [ho, nil_append] at hfirst
      have hn := hlin.nodup
      rw [ho, nil_append] at hn
      cases hfirst with
      | cons _ h | cons_cons _ h => exact absurd (h.subset (by simp)) (nodup_cons.mp hn).1
    · exact ⟨P', z, by simp⟩
  rw [append_assoc, singleton_append] at ho
  have hchain := h.chain
  rw [ho] at hchain
  have hlead : u.Leads t.items.size start body next z y := (isChain_append_cons_cons.mp hchain).2.1
  by_cases hz : z.index < t.items.size
  · obtain rfl := hturn.edits.eq_of_neighbours ht.blocks.toLinear (ht.infix_order hxy) hx ho hz
    have hstop : z ≠ stop := fun e => by
      have hzy := (ht.infix_order hxy).sublist
      rw [e] at hzy
      have hne : y ≠ stop := fun e' => by
        rw [e'] at hzy
        have := hzy.nodup ht.blocks.nodup
        simp at this
      exact not_before ht.blocks.nodup hzy (ht.before_stop (hxy.subset (by simp)) hne)
    have hzL : z ∈ start :: (body ++ [stop]) := hxy.subset (by simp)
    have hzb : z = start ∨ z ∈ body := by simpa [hstop] using hzL
    exact hlead (by tauto) hyb hd
  · have hz := not_lt.mp hz
    obtain ⟨item, hi⟩ := get?_of_lt_size (hlin.made z (by rw [ho]; simp))
    rcases hlead (.inr (.inr hz)) hyb ⟨item, hi, (hmid.generated hz hi).1⟩ with hd | hn | ⟨k, -, hk⟩
    · exact .inl hd
    · exact .inr (.inl hn)
    · have hzb := (hturn.followed z (Array.mem_of_getElem? hk)).1
      exact absurd (ht.made (mem_append_left [stop] hzb)) (not_lt.mpr hz)

/-- The ways out of translated code that control can take lead to code that is translated, or that has a state, or that
the walk goes on with while control gets there. -/
structure Expects (t : Session) (start stop : ItemId) (body : List ItemId) (next : Option ItemId) (u : Session) :
    Prop where
  opened : u.Done start ∨ next = some start ∧ u.ctx.unreachable = false
  turned : ∀ {x item}, x ∈ u.ctx.backwardCode → t.items.get? x = some item → item.kind.fallsThrough = false
  falls : ∀ {x y}, y ∈ body → (Transfer.fall x y).Allowed t (start :: (body ++ [stop])) →
    t.Reachable (start :: (body ++ [stop])) start x → u.Done x → x ∈ u.items.order → next = some y →
    u.Done y ∨ u.stateAt y ≠ none ∨ u.ctx.unreachable = false
  jumps : ∀ {x y}, (Transfer.jump x y).Allowed t (start :: (body ++ [stop])) →
    t.Reachable (start :: (body ++ [stop])) start x → u.Done x →
    u.Done y ∨ u.stateAt y ≠ none ∨ next = some y ∧ u.ctx.unreachable = false

theorem Labelled.binds_of_jumpsTo (h : t.Labelled) (hj : t.JumpsTo x y) : ∃ l, t.roleAt y = .binds l := by
  obtain ⟨item, j, -, -, hl⟩ := hj
  exact ⟨_, h.targets.mp hl⟩

theorem stateAt_none_of_stays (h : (u.roleAt x).stays = false) : u.stateAt x = none := by
  by_contra hs
  obtain ⟨st, hs⟩ := ne_none_iff_exists'.mp hs
  obtain ⟨item, r, hi, hk, -⟩ := stateAt_eq_some.mp hs
  rw [roleAt_of_get? hi, hk] at h
  cases h

section Step

theorem Launch.mem_body (hl : t.Launch f record stop body) (ht : t.Sequence record.item stop body)
    (hx : x ∈ record.item :: (body ++ [stop])) (ho : ∀ g, t.roleAt x ≠ .opens g) (hc : ∀ g, t.roleAt x ≠ .closes g) :
    x ∈ body := by
  obtain rfl | hx | rfl : x = record.item ∨ x ∈ body ∨ x = stop := by simpa using hx
  · obtain ⟨item, hi, hk, -⟩ := hl.opens
    exact absurd (by rw [roleAt_of_get? hi, hk]; rfl) (ho f)
  · exact hx
  · obtain ⟨g, hg⟩ := ht.blocks.closes
    exact absurd hg (hc g)

theorem Midway.kind_eq (h : t.Midway f start stop body (fun _ => False) u) (hid : id ∈ body)
    (hi : u.items.get? id = some item) (hd : item.translated = false)
    (hk : item.kind.isTarget = false) : ∃ item0, t.items.get? id = some item0 ∧ item.kind = item0.kind := by
  obtain ⟨-, item0, hi0, -⟩ := h.outline.inside id hid
  have hb := (h.becomes hid hi0 hi).2
  exact ⟨item0, hi0, h.waiting hid (fun hf => hf) hi0 hi hd (hb.isTarget_eq ▸ hk)⟩

theorem JumpsTo.roleAt_eq (h : t.JumpsTo x y) : t.roleAt x = .inner := by
  obtain ⟨item, j, hi, hk, -⟩ := h
  rw [roleAt_of_get? hi, hk]
  rfl

theorem JumpsTo.mem_body (h : t.JumpsTo x y) (hl : t.Launch f record stop body) (ht : t.Sequence record.item stop body)
    (hx : x ∈ record.item :: (body ++ [stop])) : x ∈ body :=
  hl.mem_body ht hx (fun g hg => (by cases h.roleAt_eq ▸ hg)) fun g hg => (by cases h.roleAt_eq ▸ hg)

theorem Midway.jumpsTo_waiting (h : t.Midway f start stop body (fun _ => False) u) (hid : id ∈ body)
    (hi : u.items.get? id = some item) (hd : item.translated = false)
    (hj : t.JumpsTo id y) : ∃ j, item.kind = .jump j ∧ u.labels[j.target.index]? = some y := by
  obtain ⟨item0, j, hi0, hk0, hlab⟩ := hj
  have hk : item.kind = .jump j := (h.waiting hid (fun hf => hf) hi0 hi hd (by rw [hk0]; rfl)).trans hk0
  exact ⟨j, hk, (h.continues.labels_eq (Array.getElem?_eq_some_iff.mp hlab).1).trans hlab⟩

theorem InTurn.fallsThrough_eq (h : t.InTurn record.item stop body next u)
    (hl : t.Launch f record stop body) (hmid : t.Midway f record.item stop body (fun _ => False) u) {item0 : Item}
    (hid : id ∈ record.item :: (body ++ [stop])) (hi : u.items.get? id = some item) (hd : item.translated = false)
    (hi0 : t.items.get? id = some item0) : item.kind.fallsThrough = item0.kind.fallsThrough := by
  have hrole : item.kind.role = item0.kind.role := by
    rw [← roleAt_of_get? hi, ← roleAt_of_get? hi0, h.role hid]
  by_cases hin : item.kind.role = .inner
  · have hid : id ∈ body := by
      rw [hrole, ← roleAt_of_get? hi0] at hin
      exact hl.mem_body h.sequence hid (fun g hg => (by cases hin ▸ hg)) fun g hg =>
        (by cases hin ▸ hg)
    have hnt : item.kind.isTarget = false := by
      cases hk : item.kind <;> first | rfl | (rw [hk] at hin; cases hin)
    obtain ⟨item', hi', hk⟩ := hmid.kind_eq hid hi hd hnt
    cases hi0 ▸ hi'
    rw [hk]
  · exact fallsThrough_eq_of_role hrole hin

namespace Expects

theorem reached (h : t.Expects record.item stop body (some id) u) (hturn : t.InTurn record.item stop body (some id) u)
    (hd : ¬ u.Done id)
    (hin : (t.roleAt id).stays = false) (hr : t.Reachable (record.item :: (body ++ [stop])) record.item id) :
    u.ctx.unreachable = false := by
  rcases hr.cases with rfl | ⟨e, he, rfl, hsrc⟩
  · exact (h.opened.resolve_left hd).2
  cases e with
  | fall x y =>
    obtain ⟨hxy, -⟩ := id he
    have hy : y ∈ record.item :: (body ++ [stop]) := hxy.subset (by simp)
    have hx : x ∈ u.items.order := (hturn.together hxy hin).mpr (hturn.linked rfl)
    have hyb : y ∈ body := by
      rcases mem_append.mp (mem_of_neighbours hxy) with hyb | hstop
      · exact hyb
      obtain ⟨g, hg⟩ := hturn.sequence.blocks.closes
      rw [← mem_singleton.mp hstop] at hg
      rw [show t.roleAt (Transfer.fall x y).dst = .closes g from hg] at hin
      cases hin
    rcases h.falls hyb he hsrc (hturn.led rfl hxy hin) hx rfl with hd' | hst | hu
    · exact absurd hd' hd
    · refine absurd (stateAt_none_of_stays ?_) hst
      rwa [hturn.role hy]
    · exact hu
  | jump x y =>
    obtain ⟨l, hlab⟩ := hturn.sequence.labelled.binds_of_jumpsTo he.2.2
    rw [show t.roleAt (Transfer.jump x y).dst = .binds l from hlab] at hin
    cases hin

theorem jumps_adds {cut : Prop} (h : t.Expects start stop body (some id) u)
    (hturn : t.InTurn start stop body (some id) u) (ha : u.Adds (· = id) cut u') (hd : u'.Done id)
    (he : (Transfer.jump x y).Allowed t (start :: (body ++ [stop])))
    (hr : t.Reachable (start :: (body ++ [stop])) start x) (hx : u'.Done x) :
    x = id ∨ u'.Done y ∨ u'.stateAt y ≠ none := by
  rcases ha.undone (hturn.lt_size he.1) hx with hx | rfl
  · rcases h.jumps he hr hx with hy | hst | ⟨hy, -⟩
    · exact .inr (.inl (ha.done hy))
    · exact .inr (.inr (ha.states hst))
    · exact .inr (.inl (some.inj hy ▸ hd))
  · exact .inl rfl

section
variable (h : t.Expects record.item stop body (some id) u) (hturn : t.InTurn record.item stop body (some id) u)
include h hturn

section
variable (hl : t.Launch f record stop body) (hmid : t.Midway f record.item stop body (fun _ => False) u)
include hl hmid

/-- The walk goes on behind an item that it finished. -/
theorem onward
    (hid : id ∈ record.item :: (body ++ [stop])) (hopened : u'.Done record.item) (hi : u.items.get? id = some item)
    (hd : item.translated = false) (ha : u.Adds (· = id) (item.kind.fallsThrough = false) u') (hd' : u'.Done id)
    (htar : item.kind.isTarget = true → u'.ctx.unreachable = false)
    (hjmp : ∀ j, item.kind = .jump j → ∃ T titem, u.labels[j.target.index]? = some T ∧ u.items.get? T = some titem ∧
      (u'.Done T ∨ (titem.kind.isTarget = true → u'.stateAt T ≠ none))) :
    t.Expects record.item stop body (u'.items.next? id) u' := by
  have hnd : ¬ u.Done id := by
    rintro ⟨item', hi', hd'⟩
    cases hi ▸ hi'
    cases hd ▸ hd'
  have hturn' := hturn.adds ha fun x hx => by rw [hx]
  refine ⟨.inl hopened, fun hx => h.turned (by rwa [← ha.followed]), fun {x y} hyb he hr hdx hx hn => ?_,
    fun {x y} he hr hdx => ?_⟩
  · obtain ⟨hxy, item0, hi0, hft⟩ := he
    cases hturn'.eq_of_next_of_mem hxy hx hid hn
    rw [← hturn.fallsThrough_eq hl hmid hid hi hd hi0] at hft
    refine .inr (.inr ?_)
    by_cases hst : (t.roleAt id).stays = true
    · rw [← hturn.role hid, roleAt_of_get? hi] at hst
      exact htar (isTarget_of_stays hst hft)
    have hu := h.reached hturn hnd (by simpa using hst) hr
    by_contra hu'
    rcases ha.reach (by simpa using hu') with hu' | hcut
    · cases hu ▸ hu'
    · cases hft ▸ hcut
  · rcases h.jumps_adds hturn ha hd' he hr hdx with rfl | hy | hst
    · have hx := he.2.2.mem_body hl hturn.sequence hid
      obtain ⟨j, hk, hlab⟩ := hmid.jumpsTo_waiting hx hi hd he.2.2
      obtain ⟨T, titem, hlab', hT, hcase⟩ := hjmp j hk
      cases hlab ▸ hlab'
      obtain ⟨l, hb⟩ := hturn.sequence.labelled.binds_of_jumpsTo he.2.2
      rw [← hturn.role he.2.1, roleAt_of_get? hT] at hb
      exact hcase.imp_right fun hst => .inl (hst (isTarget_iff.mpr ⟨l, hb⟩))
    · exact .inl hy
    · exact .inr (.inl hst)

/-- The walk follows a jump. -/
theorem follow {titem : Item}
    (hcov : t.Covers record.item body (some id) u) (hid : id ∈ record.item :: (body ++ [stop]))
    (hopened : u'.Done record.item) (hi : u.items.get? id = some item) (hd : item.translated = false)
    (hk : item.kind = .jump j) (ho : j.opcode = .jmp) (hlab : u.labels[j.target.index]? = some T)
    (hT : u.items.get? T = some titem) (htr : titem.translated = false) (hlink : T ∈ u.items.order)
    (ha : u.Adds (· = id) False u') (hd' : u'.Done id) :
    t.Expects record.item stop body (some T)
      { u' with ctx := { u'.ctx with backwardCode := u'.ctx.backwardCode.push id } } := by
  have hnd : ∀ {x item}, u.items.get? x = some item → item.translated = false → ¬ u.Done x := by
    rintro x item hi hd ⟨item', hi', hd'⟩
    cases hi ▸ hi'
    cases hd ▸ hd'
  have hrole : u.roleAt id = .inner := by
    rw [roleAt_of_get? hi, hk]
    rfl
  have hin : t.roleAt id = .inner := hturn.role hid ▸ hrole
  have hidb : id ∈ body :=
    hl.mem_body hturn.sequence hid (fun g hg => (by cases hin ▸ hg)) fun g hg => (by cases hin ▸ hg)
  obtain ⟨item0, hi0, hk0⟩ := hmid.kind_eq hidb hi hd (by rw [hk]; rfl)
  have hfalls : item0.kind.fallsThrough = false := by
    rw [← hk0, hk]
    simp [fallsThrough, ho]
  refine ⟨.inl hopened, fun {x item'} hx hi' => ?_, fun {x y} hyb he hr hdx hx hn => ?_, fun {x y} he hr hdx => ?_⟩
  · rcases Array.mem_push.mp hx with hx | rfl
    · exact h.turned (by rwa [← ha.followed]) hi'
    · cases hi0 ▸ hi'
      exact hfalls
  · -- nothing translated falls into the target, or it would be translated
    cases hn
    obtain ⟨hxy, item', hi', hft⟩ := he
    have hxL : x ∈ record.item :: (body ++ [stop]) := hxy.subset (by simp)
    have hne : x ≠ id := by
      rintro rfl
      cases hi0 ▸ hi'
      cases hft ▸ hfalls
    have hdx := (ha.undone (hturn.lt_size hxL) hdx).resolve_right hne
    have hx := (ha.adds hturn.linear).mem_order (hturn.lt_size hxL) hx
    rcases hcov.across hturn hmid hxy hyb hx hlink hdx with hy | hy | ⟨k, -, hk'⟩
    · exact absurd hy (hnd hT htr)
    · have hb := (hturn.lays.labelled hturn.sequence.labelled).targets.mp hlab
      rw [← some.inj hy, hrole] at hb
      cases hb
    · cases hft ▸ h.turned (Array.mem_of_getElem? hk') hi'
  · rcases h.jumps_adds hturn ha hd' he hr hdx with rfl | hy | hst
    · obtain ⟨j', hk', hlab'⟩ := hmid.jumpsTo_waiting hidb hi hd he.2.2
      cases hk ▸ hk'
      cases hlab ▸ hlab'
      refine .inr (.inr ⟨rfl, ?_⟩)
      have hu := h.reached hturn (hnd hi hd) (by rw [hin]; rfl) hr
      by_contra hu'
      rcases ha.reach (by simpa using hu') with hu' | hf
      · cases hu ▸ hu'
      · exact hf
    · exact .inl hy
    · exact .inr (.inl hst)

end

/-- Nothing that is left and translated falls into what stands behind code that is taken out. -/
theorem clear (hid : id ∈ record.item :: (body ++ [stop])) (hopened : u'.Done record.item)
    (hu : u.Doomed id)
    (hc : u.Clears id R Y u') : t.Expects record.item stop body Y.head? u' := by
  have ht := hturn.sequence
  have hlin := hturn.linear
  obtain ⟨hun, -, l, hb⟩ := hu
  refine ⟨.inl hopened, fun hx => h.turned (by rwa [← hc.ctx.1]), fun {x y} hyb he hr hdx hx hn => ?_,
    fun {x y} he hr hdx => ?_⟩
  · obtain ⟨hxy, -⟩ := he
    obtain ⟨hxu, hxR⟩ := hc.mem_iff.mp hx
    obtain ⟨Y, rfl⟩ := head?_eq_some_iff.mp hn
    obtain ⟨X, ho, -⟩ := hc.order
    have hidy : [id, y].Sublist u.items.order := by
      rw [ho]
      exact (before_iff (ho ▸ hlin.nodup)).mpr (by simp)
    have hyu : y ∈ u.items.order := hidy.subset (by simp)
    have hmade : ∀ {w}, w ∈ [x, y] → w.index < t.items.size := fun hw => ht.made (hxy.subset hw)
    have hidt := hturn.edits.before (ht.made hid) (hmade (by simp)) hidy
    have hsub := ht.infix_order hxy
    have hne : id ≠ x := fun e => hxR (e ▸ mem_cons_self)
    rcases before_or (hidt.subset (by simp : id ∈ [id, y])) (hsub.subset (by simp : x ∈ [x, y])) hne with hix | hxi
    · -- what stands between the two is taken out
      have hix := hturn.edits.before_of_mem ht.blocks.toLinear hix (hidy.subset (by simp)) hxu
      have hxy := hturn.edits.before_of_mem ht.blocks.toLinear hsub.sublist hxu hyu
      rw [ho] at hix hxy
      exact absurd (.tail _ ((mem_between (ho ▸ hlin.nodup)).mpr ⟨hix, hxy⟩)) hxR
    · exact absurd hidt (not_between hsub hxi)
  · rcases hc.done.mp hdx with hdx | rfl
    · rcases h.jumps he hr hdx with hy | hst | ⟨-, hy⟩
      · exact .inl (hc.done.mpr (.inl hy))
      · exact .inr (.inl (by rwa [hc.states]))
      · cases hun ▸ hy
    · cases (he.2.2.roleAt_eq ▸ (hturn.role hid).symm).trans hb

/-- The walk goes on from an item of the function. -/
theorem step (hl : t.Launch f record stop body) (hmid : t.Midway f record.item stop body (fun _ => False) u)
    (hcov : t.Covers record.item body (some id) u) (hid : id ∈ record.item :: (body ++ [stop]))
    (hp : u.Passage id next u') : t.Expects record.item stop body next u' := by
  have hopened : u'.Done record.item := by
    rcases h.opened with ho | ⟨he, -⟩
    · exact hp.proceeds.done ho
    · cases he
      exact hp.done_self
  -- an item that ends the walk is no jump
  have hends : ∀ {item : Item} {cut : Prop} {v : Session}, u.items.get? id = some item → item.kind.role.stays = true →
      u.Adds (· = id) cut v → v.Done id → v.Done record.item → t.Expects record.item stop body none v :=
    fun {item cut v} hi hst ha hd hopened => by
      refine ⟨.inl hopened, fun hx => h.turned (by rwa [← ha.followed]), fun _ _ _ _ _ hn => (by cases hn),
        fun {x y} he hr hdx => ?_⟩
      rcases h.jumps_adds hturn ha hd he hr hdx with rfl | hy | hs
      · rw [← roleAt_of_get? hi, hturn.role hid, he.2.2.roleAt_eq] at hst
        cases hst
      · exact .inl hy
      · exact .inr (.inl hs)
  cases hp with
  | onward hi hd ha hd' htar hjmp => exact h.onward hturn hl hmid hid hopened hi hd ha hd' htar hjmp
  | follow hi hd hk ho hlab hT htr hlink ha hd' =>
    exact h.follow hturn hl hmid hcov hid hopened hi hd hk ho hlab hT htr hlink ha hd'
  | again hi hd hk ha =>
    exact hends hi (stays_of_isTarget hk) (ha.mono (fun _ => False.elim) fun hc => hc) (ha.done ⟨_, hi, hd⟩) hopened
  | close hi hd hk ha hd' => exact hends hi (stays_of_isFunctionEnd hk) ha hd' hopened
  | clear hd hu hc => exact h.clear hturn hid hopened hu hc

end

theorem resume {jump : ItemId} (h : t.Expects record.item stop body none u)
    (hturn : t.InTurn record.item stop body none u)
    (hmid : t.Midway f record.item stop body (fun _ => False) u) (hcov : t.Covers record.item body none u)
    (hr : resumeBehind jump u.resuming = .ok next u') : t.Expects record.item stop body next u' := by
  obtain ⟨rfl, hnext⟩ := resumeBehind_ok hr
  refine ⟨.inl (h.opened.resolve_right fun hn => (by cases hn.1)), h.turned, fun {x y} hyb he hr hdx hx hn => ?_,
    fun {x y} he hr hdx => ?_⟩
  · have hy : y ∈ u.items.order := mem_of_next? (hnext y hn)
    obtain ⟨hxy, item, hi, hft⟩ := he
    rcases hcov.across hturn hmid hxy hyb hx hy hdx with hy | hy | ⟨k, -, hk⟩
    · exact .inl hy
    · cases hy
    · cases hft ▸ h.turned (Array.mem_of_getElem? hk) hi
  · rcases h.jumps he hr hdx with hy | hst | ⟨hy, -⟩
    · exact .inl hy
    · exact .inr (.inl hst)
    · cases hy

end Expects

end Step

theorem InTurn.reachable_of_clears {R Y : List ItemId} (h : t.InTurn start stop body (some id) u)
    (hid : id ∈ start :: (body ++ [stop])) (hc : u.Clears id R Y u')
    (hst : (u.roleAt id).stays = true) (hx : t.Reachable (start :: (body ++ [stop])) start x) (hR : x ∈ id :: R) :
    t.Reachable (start :: (body ++ [stop])) start id := by
  refine hx.along (C := fun x => x ∈ id :: R → t.Reachable (start :: (body ++ [stop])) start id) ?_ ?_ hR
  · intro hR
    rcases mem_cons.mp hR with rfl | hR
    · exact ⟨[], hid, rfl⟩
    · exact absurd hR (h.start_not_mem hid hc hst)
  intro e he hsrc ih hR
  rcases mem_cons.mp hR with rfl | hR
  · exact hsrc.step he
  have hin : (t.roleAt e.dst).stays = false := by
    rw [← h.role he.mem.2]
    exact hc.inner e.dst hR
  cases e with
  | fall x y =>
    obtain ⟨hxy, -⟩ := he
    have hy : y ∈ u.items.order := by
      obtain ⟨X, ho, -⟩ := hc.order
      rw [ho]
      simp [show y ∈ R from hR]
    exact ih ((h.clears_iff hid hc hst hxy hin ((h.together hxy hin).mpr hy)).mpr (.tail _ hR))
  | jump x y =>
    obtain ⟨l, hl⟩ := h.sequence.labelled.binds_of_jumpsTo he.2.2
    rw [show t.roleAt (Transfer.jump x y).dst = .binds l from hl] at hin
    cases hin

end Session

namespace Moment
open Session
variable {m : Moment}
/-- While the walk goes on, it expects what translated code leads to. -/
def Expecting (t : Session) (record : FunctionRecord) (stop : ItemId) (body : List ItemId) : Moment → Prop
  | ⟨.walk next, u⟩ => t.Expects record.item stop body next u
  | ⟨.drain _, _⟩ => True

theorem Expecting.advance (h : m.Expecting t record stop body)
    (hturn : t.InTurn record.item stop body m.next? m.session) (hl : t.Launch f record stop body)
    (hs : m.Sound t f record stop body)
    (hc : m.Covered t record body) (ha : m.Advances m') : m'.Expecting t record stop body := by
  cases ha with
  | item hr => exact Expects.step h hturn hl hs.1 hc (hs.mem_of_item hr) (translateItem_passage hr)
  | resume hj hr => exact Expects.resume h hturn hs.1 hc hr
  | finish hj | reconcile ha hd => exact trivial

end Moment

namespace Session
open Moment Relation

theorem Launch.expects (hl : t.Launch f record stop body) (h : t.Sequence record.item stop body)
    (hu : t.ctx.unreachable = false) : t.Expects record.item stop body (some record.item) t := by
  refine ⟨.inr ⟨rfl, hu⟩, fun hx => ?_, fun hy _ _ _ _ hn => ?_, fun {x y} he _ hd => ?_⟩
  · rw [h.unfollowed.1] at hx
    simp at hx
  · exact absurd (some.inj hn ▸ hy) hl.outer.1
  · exact absurd hd (h.undone x (he.2.2.mem_body hl h he.1))

theorem Visits.expecting (hv : t.Visits record.item m) (hl : t.activated.Launch f record stop body)
    (ht : t.activated.Sequence record.item stop body) (hu : t.ctx.unreachable = false) :
    m.Expecting t.activated record stop body := by
  induction hv with
  | refl => exact hl.expects ht hu
  | tail hv ha ih =>
    exact ih.advance (Visits.inTurn hv hl ht) hl (Visits.sound hv hl)
      (Visits.covered hv hl ht.blocks.inactive ht.position) ha

theorem Passage.clears_of_unlinked {id : ItemId} (h : u.Passage id next u') (hlin : u.items.Linear)
    (hx : x ∈ u.items.order)
    (hx' : x ∉ u'.items.order) : ∃ R Y, ¬ u.Done id ∧ u.Doomed id ∧ u.Clears id R Y u' := by
  cases h with
  | onward hi hd ha | follow hi hd hk ho hl hT htr hlink ha | again hi hd hk ha | close hi hd hk ha =>
    exact absurd ((ha.adds hlin).linked x hx fun h => h) hx'
  | clear hd hu hc => exact ⟨_, _, hd, hu, hc⟩

theorem Visits.exists_unlinked (hv : t.Visits record.item m) (hx : x ∈ t.items.order)
    (hx' : x ∉ m.session.items.order) :
    ∃ a b, t.Visits record.item a ∧ a.Advances b ∧ x ∈ a.session.items.order ∧ x ∉ b.session.items.order ∧
      ReflTransGen Advances b m := by
  induction hv with
  | refl => exact absurd hx hx'
  | @tail m1 m2 hv ha ih =>
    by_cases hx1 : x ∈ m1.session.items.order
    · exact ⟨m1, m2, hv, ha, hx1, hx', .refl⟩
    · obtain ⟨a, b, hva, hab, hxa, hxb, hrun⟩ := ih hx1
      exact ⟨a, b, hva, hab, hxa, hxb, hrun.tail ha⟩

theorem Visits.unlinked_of_run (hv : t.Visits record.item m) (hl : t.activated.Launch f record stop body)
    (ht : t.activated.Sequence record.item stop body) (hr : ReflTransGen Advances m m')
    (hmem : x ∈ record.item :: (body ++ [stop])) (hx : x ∉ m.session.items.order) : x ∉ m'.session.items.order := by
  induction hr with
  | refl => exact hx
  | tail hr ha ih =>
    have hturn := Visits.inTurn (ReflTransGen.trans hv hr) hl ht
    exact fun hx' => ih ((ha.lays.edits hturn.linear).mem_order (hturn.lt_size hmem) hx')

section Removal
variable (hs : s.Ready f record stop body) (hp : prepareFunction f record stop p s = .ok () t)
  (hj : s.Closed body) (hb : s.Labelled)
include hs hp hj hb

/-- At the target that goes first, a way in that control can take starts in code that is not translated or not there. -/
theorem Ready.reachable_removed_iff (hv : t.Visits record.item ⟨.walk (some T), u⟩)
    (hr : translateItem T u = .ok next u') :
    (∃ x ∈ record.item :: (body ++ [stop]), x ∈ u.items.order ∧ x ∉ u'.items.order ∧
        s.Reachable (record.item :: (body ++ [stop])) record.item x) ↔
      T ∉ u'.items.order ∧ ∃ e : Transfer, e.Allowed s (record.item :: (body ++ [stop])) ∧ e.dst = T ∧
        s.Reachable (record.item :: (body ++ [stop])) record.item e.src ∧ ¬ (u.Done e.src ∧ e.src ∈ u.items.order) := by
  have hl := hs.launch hp hj
  have ht := hs.sequence hp hb
  have hturn : t.activated.InTurn record.item stop body (some T) u := hv.inTurn hl ht
  have hlin := hturn.linear
  have hid := (hv.sound hl).mem_of_item hr
  have hallowed := hs.allowed_iff hp
  have hreach : ∀ {y}, t.activated.Reachable (record.item :: (body ++ [stop])) record.item y ↔
      s.Reachable (record.item :: (body ++ [stop])) record.item y := Reachable.congr hallowed
  have hexp : t.activated.Expects record.item stop body (some T) u :=
    hv.expecting hl ht (congrArg Context.unreachable (hs.walked hp).ctx :)
  constructor
  · rintro ⟨x, hxL, hx, hx', hrx⟩
    obtain ⟨R, Y, hnd, hdoom, hc⟩ := (translateItem_passage hr).clears_of_unlinked hlin hx hx'
    obtain ⟨hun, hst, l, hl'⟩ := hdoom
    have hxR : x ∈ T :: R := by
      by_contra hxR
      exact hx' (hc.mem_iff.mpr ⟨hx, hxR⟩)
    have hrT := hturn.reachable_of_clears hid hc (by rw [hl']; rfl) (hreach.mpr hrx) hxR
    refine ⟨fun hT => (hc.mem_iff.mp hT).2 mem_cons_self, ?_⟩
    have hTrole : t.activated.roleAt T = .binds l := hturn.role hid ▸ hl'
    have hTb : T ∈ body :=
      hl.mem_body ht hid (fun g hg => (by cases hTrole ▸ hg)) fun g hg => (by cases hTrole ▸ hg)
    rcases hrT.cases with rfl | ⟨e, he, rfl, hsrc⟩
    · exact absurd hTb hl.outer.1
    refine ⟨e, (hallowed e).mp he, rfl, hreach.mp hsrc, fun ⟨hd, hlink⟩ => ?_⟩
    have hknown : u.Done e.dst ∨ u.stateAt e.dst ≠ none ∨ u.ctx.unreachable = false := by
      cases e with
      | fall x y => exact hexp.falls hTb he hsrc hd hlink rfl
      | jump x y => exact (hexp.jumps he hsrc hd).imp_right fun h => h.imp_right And.right
    rcases hknown with hd | hs | hu
    · exact hnd hd
    · exact hs hst
    · cases hun ▸ hu
  · rintro ⟨hT, e, he, rfl, hsrc, -⟩
    exact ⟨e.dst, he.mem.2, hturn.linked rfl, hT, hsrc.step he⟩

/-- A jump is turned down exactly if its target was taken out before, when the jump was not translated. -/
theorem Ready.jump_refused_iff (hJ : J ∈ body) (hJT : s.JumpsTo J T)
    (hv : t.Visits record.item ⟨.walk (some J), u⟩) (hd : ¬ u.Done J) :
    (∃ l w, translateItem J u = .error (.usage (.targetRemoved l)) w) ↔
      ∃ v next v', t.Visits record.item ⟨.walk (some T), v⟩ ∧ ¬ v.Done J ∧ translateItem T v = .ok next v' ∧
        T ∉ v'.items.order ∧ ReflTransGen Advances ⟨.walk next, v'⟩ ⟨.walk (some J), u⟩ := by
  have hl := hs.launch hp hj
  have ht := hs.sequence hp hb
  have hturn : t.activated.InTurn record.item stop body (some J) u := hv.inTurn hl ht
  have hJT' : t.activated.JumpsTo J T := (hs.jumpsTo_iff hp hJ).mpr hJT
  have hTb : T ∈ body := hj J hJ T hJT
  have hTL : T ∈ record.item :: (body ++ [stop]) := by simp [hTb]
  have hmid := (hv.sound hl).1
  obtain ⟨item, hi⟩ := get?_of_lt_size (hturn.lt_size (show J ∈ record.item :: (body ++ [stop]) by simp [hJ]))
  obtain ⟨titem, hT⟩ := get?_of_lt_size (hturn.lt_size hTL)
  have htr : item.translated = false := by
    by_contra htr
    exact hd ⟨item, hi, by simpa using htr⟩
  obtain ⟨j, hk, hlab⟩ := hmid.jumpsTo_waiting hJ hi htr hJT'
  have hiff : (∃ l w, translateItem J u = .error (.usage (.targetRemoved l)) w) ↔ T ∉ u.items.order := by
    rw [← translateItem_jump_error_iff hi hk htr hlab hT]
    constructor
    · rintro ⟨l, w, h⟩
      exact ⟨_, w, h, rfl⟩
    rintro ⟨e, w, h, he⟩
    obtain ⟨l, rfl⟩ := Error.isRemoval_iff.mp he
    exact ⟨l, w, h⟩
  rw [hiff]
  constructor
  · intro hno
    obtain ⟨a, b, hva, hab, hTa, hTb', hrun⟩ :=
      hv.exists_unlinked ((ht.infix_order infix_rfl).subset hTL : T ∈ t.items.order) hno
    have hturna := Visits.inTurn hva hl ht
    obtain ⟨l, hrole⟩ := ht.labelled.binds_of_jumpsTo hJT'
    obtain ⟨htask, -⟩ : a.task = .walk (some T) ∧ a.session.Doomed T := by
      by_contra hgone
      refine hTb' ((hab.lays.edits hturna.linear).linked T hTa fun h => hgone (h ?_))
      rw [hturna.role hTL, hrole]
      rfl
    obtain ⟨task, v⟩ := a
    cases htask
    cases hab with
    | item hr =>
      exact ⟨v, _, _, hva, fun hdv => hd (done_of_run (.head (.item hr) hrun) hdv), hr, hTb', hrun⟩
  · rintro ⟨v, next, v', hva, -, hr, hno, hrun⟩
    exact Visits.unlinked_of_run (hva.tail (.item hr)) hl ht hrun hTL hno

/-- Dead code and what control can get to. When the walk takes a target out with the code behind it, control can get to
some of what is removed exactly if a way into the target that control can take starts at an item that is not translated by
then, or that was itself taken out. A jump is turned down because its target was taken out exactly if the walk removed the
target at a moment when it had not translated the jump. -/
theorem removal_dead_iff :
    (∀ {T u next u'}, t.Visits record.item ⟨.walk (some T), u⟩ → Build.translateItem T u = .ok next u' →
      ((∃ x ∈ record.item :: (body ++ [stop]), x ∈ u.items.order ∧ x ∉ u'.items.order ∧
          s.Reachable (record.item :: (body ++ [stop])) record.item x) ↔
        T ∉ u'.items.order ∧ ∃ e : Transfer, e.Allowed s (record.item :: (body ++ [stop])) ∧ e.dst = T ∧
          s.Reachable (record.item :: (body ++ [stop])) record.item e.src ∧
          ¬ (u.Done e.src ∧ e.src ∈ u.items.order))) ∧
    ∀ {J T u}, J ∈ body → s.JumpsTo J T → t.Visits record.item ⟨.walk (some J), u⟩ → ¬ u.Done J →
      ((∃ l w, Build.translateItem J u = .error (.usage (.targetRemoved l)) w) ↔
        ∃ v next v', t.Visits record.item ⟨.walk (some T), v⟩ ∧ ¬ v.Done J ∧ Build.translateItem T v = .ok next v' ∧
          T ∉ v'.items.order ∧ ReflTransGen Advances ⟨.walk next, v'⟩ ⟨.walk (some J), u⟩) :=
  ⟨fun hv hr => hs.reachable_removed_iff hp hj hb hv hr, fun hJ hJT hv hd => hs.jump_refused_iff hp hj hb hJ hJT hv hd⟩

end Removal

end Session

namespace Builder

/-- Two jumps that cross: the walk follows the second one over the first, and gets to the target of the first before it
gets to the first. -/
def crossing : List Call :=
  let a : VarRef := ⟨⟨0⟩, 8⟩
  [.newFunction [.gpq] [.gpq] {}, .newLabel, .newLabel, .newLabel,
    .emit .cmp [.var a, .imm 0], .jump (.jcc .e) ⟨2⟩ .none, .jump .jmp ⟨3⟩ .none,
    .bind ⟨2⟩, .jump .jmp ⟨4⟩ .none, .bind ⟨3⟩, .ret [.var a], .bind ⟨4⟩, .ret [.var a], .endFunction]

/-- From the opening item over the first jump to its target. -/
def acrossJump : List Transfer :=
  [.fall ⟨2⟩ ⟨0⟩, .fall ⟨0⟩ ⟨6⟩, .fall ⟨6⟩ ⟨7⟩, .jump ⟨7⟩ ⟨3⟩, .fall ⟨3⟩ ⟨9⟩, .jump ⟨9⟩ ⟨5⟩]

end Builder

namespace Session
open Moment

private theorem crossing_run : ∃ s t record stop body, ∃ p : Prototype, ∃ u u' next v w,
    s.Ready ⟨0⟩ record stop body ∧ prepareFunction ⟨0⟩ record stop p s = .ok () t ∧ s.Closed body ∧ s.Labelled ∧
    ⟨9⟩ ∈ body ∧ s.JumpsTo ⟨9⟩ ⟨5⟩ ∧ s.Flow (record.item :: (body ++ [stop])) record.item ⟨5⟩ acrossJump ∧
    t.Visits record.item ⟨.walk (some ⟨5⟩), u⟩ ∧ translateItem ⟨5⟩ u = .ok next u' ∧ ⟨5⟩ ∈ u.items.order ∧
    ⟨5⟩ ∉ u'.items.order ∧ t.Visits record.item ⟨.walk (some ⟨9⟩), v⟩ ∧ ¬ v.Done ⟨9⟩ ∧
    translateItem ⟨9⟩ v = .error (.usage (.targetRemoved ⟨4⟩)) w := by
  obtain ⟨⟨⟨s, record, stop, p, t⟩, ⟨task, u⟩⟩, hq, hd⟩ := any_eq_true _ _ |>.mp
    (show (momentAfter 7 crossing).any (fun q => q.2.task = .walk (some ⟨5⟩) ∧
      ⟨9⟩ ∈ (q.1.before.items.range q.1.record.item q.1.stop).tail.dropLast ∧ q.1.before.JumpsTo ⟨9⟩ ⟨5⟩ ∧
      q.1.before.Flow (q.1.before.items.range q.1.record.item q.1.stop) q.1.record.item ⟨5⟩ acrossJump ∧
      ⟨5⟩ ∈ q.2.session.items.order ∧ (q.2.advance?.any fun m' => ⟨5⟩ ∉ m'.session.items.order) ∧
      (q.2.after 5).any fun m' => m'.task = .walk (some ⟨9⟩) ∧ m'.session.isTranslated ⟨9⟩ = false ∧
        (match translateItem ⟨9⟩ m'.session with
        | .error e _ => e = .usage (.targetRemoved ⟨4⟩)
        | .ok _ _ => false) = true) = true by decide +kernel)
  obtain ⟨hp, hm, body, hs, hj⟩ := momentAfter_ok hq
  have hb := momentAfter_labelled hq
  obtain ⟨rfl, hJ, hJT, hflow, hlink, hstep, hlater⟩ := of_decide_eq_true hd
  rw [hs.range_eq] at hflow
  rw [hs.range_eq, tail_cons, dropLast_concat] at hJ
  obtain ⟨m1, hstep, hd⟩ := any_eq_true _ _ |>.mp hstep
  have hgone := of_decide_eq_true hd
  obtain ⟨⟨_, v⟩, hv, hd⟩ := any_eq_true _ _ |>.mp hlater
  obtain ⟨rfl, hnd, herr⟩ := of_decide_eq_true hd
  obtain ⟨w, herr⟩ : ∃ w, translateItem ⟨9⟩ v = .error (.usage (.targetRemoved ⟨4⟩)) w := by
    cases h : translateItem ⟨9⟩ v with
    | ok _ _ => simp [h] at herr
    | error e w =>
      simp only [h, decide_eq_true_eq] at herr
      exact ⟨w, by rw [herr]⟩
  cases advances_iff.mpr hstep with
  | item hr =>
    exact ⟨s, t, record, stop, body, p, u, _, _, v, w, hs, hp, hj, hb, hJ, hJT, hflow, hm, hr, hlink, hgone,
      hm.trans (reaches_after hv), by rw [done_iff, hnd]; simp, herr⟩

/-- At the crossing the walk removes a target too early: a jump that is not translated yet leads there, and it is turned
down for it. -/
theorem removal_dead_iff_crossing : ∃ s t record stop body, ∃ p : Prototype, ∃ u u' next,
    s.Ready ⟨0⟩ record stop body ∧ Build.prepareFunction ⟨0⟩ record stop p s = .ok () t ∧ s.Closed body ∧ s.Labelled ∧
    t.Visits record.item ⟨.walk (some ⟨5⟩), u⟩ ∧ Build.translateItem ⟨5⟩ u = .ok next u' ∧
    (∃ e : Transfer, e.Allowed s (record.item :: (body ++ [stop])) ∧ e.dst = ⟨5⟩ ∧
      s.Reachable (record.item :: (body ++ [stop])) record.item e.src ∧ ¬ (u.Done e.src ∧ e.src ∈ u.items.order)) ∧
    ∃ v, t.Visits record.item ⟨.walk (some ⟨5⟩), v⟩ ∧ ¬ v.Done ⟨9⟩ := by
  obtain ⟨s, t, record, stop, body, p, u, u', next, v, w, hs, hp, hj, hb, hJ, hJT, hflow, hm, hr, hlink, hgone, hv, hnd,
    herr⟩ := crossing_run
  obtain ⟨hremoval, hrefusal⟩ := removal_dead_iff hs hp hj hb
  obtain ⟨-, hpred⟩ := (hremoval hm hr).mp ⟨⟨5⟩, hflow.mem.2.1, hlink, hgone, _, hflow⟩
  obtain ⟨v', -, -, hv', hnd', -⟩ := (hrefusal hJ hJT hv hnd).mp ⟨_, w, herr⟩
  exact ⟨s, t, record, stop, body, p, u, u', next, hs, hp, hj, hb, hm, hr, hpred, v', hv', hnd'⟩

/-- Code that control can get to is removed as dead, and a jump that control can get to is turned down. -/
theorem reachable_code_removed : ∃ s t record stop body, ∃ p : Prototype, ∃ u u' next v w,
    s.Ready ⟨0⟩ record stop body ∧ Build.prepareFunction ⟨0⟩ record stop p s = .ok () t ∧ s.Closed body ∧ s.Labelled ∧
    t.Visits record.item ⟨.walk (some ⟨5⟩), u⟩ ∧ Build.translateItem ⟨5⟩ u = .ok next u' ∧ ⟨5⟩ ∈ u.items.order ∧
    ⟨5⟩ ∉ u'.items.order ∧ s.Reachable (record.item :: (body ++ [stop])) record.item ⟨5⟩ ∧
    t.Visits record.item ⟨.walk (some ⟨9⟩), v⟩ ∧ s.Reachable (record.item :: (body ++ [stop])) record.item ⟨9⟩ ∧
    Build.translateItem ⟨9⟩ v = .error (.usage (.targetRemoved ⟨4⟩)) w := by
  obtain ⟨s, t, record, stop, body, p, u, u', next, v, w, hs, hp, hj, hb, -, -, hflow, hm, hr, hlink, hgone,
    hv, -, herr⟩ := crossing_run
  have hJ : s.Flow (record.item :: (body ++ [stop])) record.item ⟨9⟩ Builder.acrossJump.dropLast :=
    (Flow.of_concat (e := .jump ⟨9⟩ ⟨5⟩) hflow).1
  exact ⟨s, t, record, stop, body, p, u, u', next, v, w, hs, hp, hj, hb, hm, hr, hlink, hgone, ⟨_, hflow⟩,
    hv, ⟨_, hJ⟩, herr⟩

end Session

end Codegen
