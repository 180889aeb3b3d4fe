import Codegen.Proofs.Changes

/-! Lowering a function retains the shape of the program, step by step. -/
namespace Codegen
open List ItemSeq Session ItemKind

namespace Build
variable {id : ItemId} {next : Option ItemId} {gone : ItemId → Prop}

section Removal
variable {start : ItemId}

theorem eq_start_of_stays {kind : ItemKind} (he : endsRemoval start id kind = false) (hs : kind.role.stays = true) :
    id = start ∧ ∃ b, kind.role = .binds b := by
  cases kind with
  | target t => simpa [endsRemoval, ItemKind.isTarget, isFunctionEnd, role] using he
  | functionEnd f => simp [endsRemoval, isFunctionEnd] at he
  | _ => simp [role, Role.stays] at hs

theorem removeUntilTarget_piece (ho : s.items.order = X ++ l)
    (h : removeUntilTarget start l s = .ok next s') : ∃ R Y, l = R ++ Y ∧ s'.items.order = X ++ Y ∧ next = Y.head? ∧
      (∀ x ∈ R, (s.roleAt x).stays = true → x = start ∧ ∃ b, s.roleAt x = .binds b) ∧
      (∀ y ∈ Y.head?, (s.roleAt y).stays = true) ∧
      ∀ x, s'.items.get? x = if x ∈ R then (s.items.get? x).map ({ · with unreachable := true }) else s.items.get? x := by
  induction l generalizing s with
  | nil =>
    cases h
    exact ⟨[], [], rfl, ho, rfl, by simp, by simp, by simp⟩
  | cons x l ih =>
    obtain ⟨item, hi, hcase⟩ := removeUntilTarget_cons_ok h
    have hrole := roleAt_of_get? hi
    rcases hcase with ⟨he, rfl, rfl⟩ | ⟨he, -, h⟩
    · refine ⟨[], x :: l, rfl, ho, rfl, by simp, fun y hy => ?_, by simp⟩
      cases hy
      rw [hrole]
      cases hk : item.kind <;> simp [hk, endsRemoval, ItemKind.isTarget, isFunctionEnd, role, Role.stays] at he ⊢
    obtain ⟨R, Y, rfl, hY, hnext, hR, hends, hget⟩ := ih (order_dropping ho) h
    simp only [roleAt_dropping] at hR hends
    refine ⟨x :: R, Y, rfl, hY, hnext, forall_mem_cons.mpr ⟨fun hs => ?_, hR⟩, hends, fun y => ?_⟩
    · rw [hrole] at hs ⊢
      exact eq_start_of_stays he hs
    have hxR : x ∉ R := fun hm => (nodup_cons.mp (nodup_middle.mp (ho ▸ nodup_order s.items))).1 (by simp [hm])
    rw [hget]
    by_cases hyx : y = x
    · subst hyx
      rw [if_neg hxR, if_pos mem_cons_self]
      exact get?_modify_self _ _ _
    · have hold : (s.dropping x).items.get? y = s.items.get? y := get?_modify_of_ne _ (Ne.symm hyx) _
      simp only [hold, mem_cons, hyx, false_or]

theorem removeUntilTarget_retains (hg : gone start) (h : removeUntilTarget start l s = .ok next s') :
    s.Retains gone s' := by
  refine removeUntilTarget_induct (fun hi he ht => ht.trans (.dropping fun hs => ?_)) h (.refl s)
  rw [roleAt_of_get? hi] at hs
  exact (eq_start_of_stays he hs).1 ▸ hg

theorem removeUntilTarget_lays {item : Item} (hg : gone id) (hi : s.items.get? id = some item)
    (ht : item.kind.isTarget = true) (htr : item.translated = false)
    (h : removeUntilTarget id (s.items.suffixFrom id) s = .ok next s') : s.Lays gone s' := by
  have hret := removeUntilTarget_retains hg h
  obtain ⟨hctx, hsame⟩ := removeUntilTarget_same h
  refine ⟨hret, fun {n stop} hb => ?_⟩
  obtain ⟨f, hf⟩ := hb.closes
  obtain ⟨e, he, htrails⟩ := hb.trails
  have hold : id.index < n := by
    by_contra hn
    cases hb.targets (not_lt.mp hn) hi ht ▸ htr
  refine ⟨(hret.edits hb.toLinear).linear, ⟨f, (hret.kept (lt_size_of_roleAt (by simp [hf]))).trans hf⟩,
    hb.size.trans hret.size, fun hx hi' hk => ?_, e, by rw [hctx, he], ?_⟩
  · obtain ⟨item', hi1, hk1, ht1⟩ := hsame hi'
    rw [ht1]
    exact hb.targets hx hi1 (hk1 ▸ hk)
  by_cases hmem : id ∈ s.items.order
  · obtain ⟨X, L, ho, hX⟩ := eq_append_cons_of_mem hmem
    rw [suffixFrom_eq ho hX] at h
    obtain ⟨R, Y, hR, ho', -, hstays, -⟩ := removeUntilTarget_piece ho h
    rw [ho']
    cases R with
    | nil =>
      rwa [ho, hR] at htrails
    | cons x R =>
      obtain ⟨rfl, rfl⟩ := cons.inj hR
      rw [ho] at htrails
      exact (show Trails n stop e (X ++ id :: R ++ Y) by simpa using htrails).cut hold
        fun hstop => by
          obtain ⟨-, b, hbinds⟩ := hstays stop hstop (by rw [hf]; rfl)
          cases hf ▸ hbinds
  · -- Nothing can be taken out that is not there.
    obtain ⟨-, -, ⟨-, -, rfl⟩ | ⟨-, hlink, -⟩⟩ := removeUntilTarget_cons_ok h
    · exact htrails
    · exact absurd hlink hmem

end Removal

theorem translateItem_lays (h : translateItem id s = .ok next s') : s.Lays (fun x => x = id ∧ s.Doomed x) s' := by
  obtain ⟨item, u, hi, -, hcourse, -, rfl⟩ := translateItem_course h
  have hin : s.Lays (fun x => x = id ∧ s.Doomed x) (s.entering id item) :=
    .of_order rfl rfl rfl rfl rfl fun h => ⟨_, h, rfl, fun h => h⟩
  have hu : (s.entering id item).Lays (fun x => x = id ∧ s.Doomed x) u := by
    cases hcourse with
    | onward hc | again _ _ hc => exact Changes.lays hc
    | follow => exact .quiet rfl rfl rfl rfl
    | close => exact .refl _
    | remove htr hr =>
      refine removeUntilTarget_lays ⟨rfl, hr.1⟩ hi (isTarget_iff.mpr ?_) htr hr.2.2
      obtain ⟨l, hl⟩ := hr.1.2.2
      exact ⟨l, roleAt_of_get? hi ▸ hl⟩
  refine hin.trans (hu.trans ?_)
  unfold leaving
  split
  · exact .refl u
  have hmark : u.Lays (fun x => x = id ∧ s.Doomed x) { u with items := u.items.modify id ({ · with translated := true }) } :=
    .modify fun _ _ => ⟨rfl, fun _ => rfl⟩
  exact hmark.trans (.quiet rfl rfl rfl rfl)

end Build

theorem Moment.Advances.lays {m m' : Moment} (h : m.Advances m') :
    m.session.Lays (fun x => m.task = .walk (some x) ∧ m.session.Doomed x) m'.session := by
  cases h with
  | item hr => exact (Build.translateItem_lays hr).mono fun x hx => ⟨by rw [hx.1], hx.2⟩
  | resume hj hr =>
    obtain ⟨rfl, -⟩ := Build.resumeBehind_ok hr
    exact .quiet rfl rfl rfl rfl
  | finish hj => exact .refl _
  | reconcile ha hd =>
    have hjump : Changes _ (fun _ => True) False _ _ := Build.doJump_changes trivial hd
    refine .trans ?_ (.trans (.of_extends (Build.assignState_extending _ _ _ ha))
      (.trans (.atCursor _ _) ((Changes.lays hjump).trans ?_)))
    all_goals exact .quiet rfl rfl rfl rfl

end Codegen
