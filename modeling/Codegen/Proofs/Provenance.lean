import Codegen.Proofs.Admission
import Codegen.Proofs.InPlace

/-! Where the items of a lowered function come from. What they name was named in the function, or was made. -/
namespace Codegen
open List Operand

theorem Operand.SettlesAs.label?_eq {o o' : Operand} (h : o.SettlesAs o') (hl : o'.label? = some l) :
    o.label? = some l := by
  rcases h with hp | ⟨l', rfl, rfl⟩
  · cases o' <;> simp [label?, Placed] at hl hp
  · exact hl

theorem Build.bindOperand_label?
    (h : bindOperand frame slots o = .ok o') (hl : o'.label? = some l) : o.label? = some l := by
  obtain ⟨-, rfl | ⟨m, base, disp, rfl, rfl⟩⟩ := bindOperand_ok h
  · exact hl
  · cases hl

theorem mem_labels_of_forall₂
    (hR : ∀ {o o'}, R o o' → o'.label? = some l → o.label? = some l) (h : Forall₂ R a b)
    (hl : l ∈ b.filterMap label?) : l ∈ a.filterMap label? := by
  simp only [mem_filterMap] at hl ⊢
  induction h with
  | nil => exact hl
  | @cons o o' a b ho _ ih =>
    obtain ⟨o1, hmem, hol⟩ := hl
    rcases mem_cons.mp hmem with rfl | hmem
    · exact ⟨o, mem_cons_self, hR ho hol⟩
    · obtain ⟨o2, hmem2, hol2⟩ := ih ⟨o1, hmem, hol⟩
      exact ⟨o2, mem_cons_of_mem _ hmem2, hol2⟩

namespace ItemKind
variable {k : ItemKind}

theorem PreparedAs.names_eq (h : k.PreparedAs k') : k'.names = k.names := by
  cases k with
  | instruction i =>
    obtain ⟨records, memVars, -, rfl⟩ := h
    rfl
  | jump j =>
    obtain ⟨taken, rfl⟩ := h
    rfl
  | _ =>
    cases h
    rfl

theorem Turns.names (h : k.Turns m n k') (hl : l ∈ k'.names) : l ∈ k.names ∨ m ≤ l.index ∧ l.index < n := by
  cases h with
  | same => exact .inl hl
  | settles h =>
    refine .inl ?_
    cases h with
    | instruction h => exact mem_labels_of_forall₂ SettlesAs.label?_eq h hl
    | jump | target | ret => exact hl
  | detours hm hn =>
    cases mem_singleton.mp hl
    exact .inr ⟨hm, hn⟩
  | binds h => exact .inl (mem_labels_of_forall₂ Build.bindOperand_label? h hl)

end ItemKind

namespace Session
variable {s u u' v : Session} {id : ItemId} {cut : Prop}
variable {item' : Item}

theorem Makes.names (h : s.Makes id n k) (hl : l ∈ k.names) :
    (∃ item, s.items.get? id = some item ∧ l ∈ item.kind.names) ∨ s.labels.size ≤ l.index ∧ l.index < n := by
  cases h with
  | code h =>
    obtain ⟨o, ho, hol⟩ := mem_filterMap.mp hl
    have hp := h o ho
    cases o <;> simp [label?, Placed] at hol hp
  | comment => cases hl
  | call h =>
    obtain ⟨item, c, hi, hk, hc⟩ := h
    refine .inl ⟨item, hi, ?_⟩
    obtain ⟨o, ho, hol⟩ := mem_filterMap.mp hl
    cases mem_singleton.mp ho
    simp [hk, ItemKind.names, hc, hol]
  | back h =>
    obtain ⟨item, hi, hk⟩ := jump?_eq_some.mp h
    obtain ⟨o, ho, hol⟩ := mem_filterMap.mp hl
    cases mem_singleton.mp ho
    exact .inl ⟨item, hi, by simpa [hk, ItemKind.names, label?] using hol.symm⟩
  | block hm hn =>
    cases mem_singleton.mp hl
    exact .inr ⟨hm, hn⟩

theorem Change.grows (h : u.Change id T cut u') : u.labels.size ≤ u'.labels.size ∧ u'.functions = u.functions := by
  cases h with
  | emit hg => rw [hg.rest]; exact ⟨le_refl _, rfl⟩
  | note hs => rw [hs]; exact ⟨le_refl _, rfl⟩
  | settle => exact ⟨le_refl _, rfl⟩
  | @detour v D j extra hx he hj hv =>
    have hrest : v.labels = u.labels ∧ v.functions = u.functions := by
      rw [hv.rest]
      exact ⟨rfl, rfl⟩
    simp only [atCursor]
    unfold Session.detour
    split
    · exact ⟨le_of_eq (by rw [hrest.1]), hrest.2⟩
    · exact ⟨by simp [withKind, closeBlock, hrest.1], hrest.2⟩

theorem Edit.grows (h : u.Edit p u') : u.labels.size ≤ u'.labels.size ∧ u'.functions = u.functions := by
  cases h with
  | change _ _ h => exact h.grows
  | remove _ hrest => rw [hrest]; exact ⟨le_refl _, rfl⟩
  | finish => unfold leaving; split <;> exact ⟨le_refl _, rfl⟩
  | quiet _ hl hf => exact ⟨le_of_eq (by rw [hl]), hf⟩
  | place _ _ h => rw [h.rest]; exact ⟨le_refl _, rfl⟩
  | bind => exact ⟨le_refl _, rfl⟩

theorem Edits.grows (h : u.Edits p u') : u.labels.size ≤ u'.labels.size := by
  induction h with
  | refl => exact le_refl _
  | tail _ h ih => exact ih.trans h.grows.1

/-- The labels that the program names exist. -/
structure Named (s : Session) : Prop where
  items : ∀ {x item l}, s.items.get? x = some item → l ∈ item.kind.names → l.index < s.labels.size
  functions : ∀ {f record}, s.functions[FunctionId.index f]? = some record →
    record.entryLabel.index < s.labels.size ∧ record.exitLabel.index < s.labels.size

theorem Named.grow (h : u.Named) (hg : u.labels.size ≤ u'.labels.size ∧ u'.functions = u.functions)
    (hi : ∀ {x item'}, u'.items.get? x = some item' →
      (∃ item, u.items.get? x = some item ∧ item.kind.Turns u.labels.size u'.labels.size item'.kind) ∨
        ∃ id, u.Makes id u'.labels.size item'.kind) : u'.Named where
  items hx hl := by
    rcases hi hx with ⟨item, hit, ht⟩ | ⟨id, hm⟩
    · exact (ht.names hl).elim (fun hl => (h.items hit hl).trans_le hg.1) And.right
    rcases hm.names hl with ⟨item, hit, hl⟩ | ⟨-, hl⟩
    · exact (h.items hit hl).trans_le hg.1
    · exact hl
  functions hf :=
    have hr := h.functions (hg.2 ▸ hf)
    ⟨hr.1.trans_le hg.1, hr.2.trans_le hg.1⟩

theorem Named.congr (h : u.Named) (hi : ∀ x, u'.items.get? x = u.items.get? x) (hl : u'.labels = u.labels)
    (hf : u'.functions = u.functions) : u'.Named where
  items hx hmem := hl ▸ h.items (hi _ ▸ hx) hmem
  functions hr := hl ▸ h.functions (hf ▸ hr)

theorem Changes.named (h : u.Changes id T cut u') (hn : u.Named) : u'.Named := by
  induction h with
  | refl => exact hn
  | tail _ h ih =>
    exact ih.grow h.grows fun hi => (h.items hi).imp (fun ⟨item, hit, ht, _⟩ => ⟨item, hit, ht⟩) fun ⟨_, hm⟩ => ⟨_, hm⟩

theorem Walked.named (h : u.Walked f args P u') (hn : u.Named) : u'.Named where
  items {x item l} hx hmem := by
    have hl : u'.labels = u.labels := by rw [h.rest]
    rw [hl]
    by_cases hP : x ∈ P
    · obtain ⟨item0, hi0⟩ := ItemSeq.get?_of_lt_size (h.order.2 ▸ ItemSeq.lt_size_of_get? hx)
      obtain ⟨kind', o, hk, hi, -⟩ := h.done hP hi0
      cases hi ▸ hx
      exact hn.items hi0 (hk.names_eq ▸ hmem)
    · exact hn.items (h.others hP ▸ hx) hmem
  functions hr := by
    rw [h.rest] at hr ⊢
    exact hn.functions hr

theorem Edit.named (h : u.Edit p u') (hn : u.Named) : u'.Named :=
  hn.grow h.grows fun hi => (h.items hi).imp (fun ⟨item, hit, ht, _⟩ => ⟨item, hit, ht⟩) fun ⟨_, id, _, hm⟩ => ⟨id, hm⟩

theorem Edits.named (h : u.Edits p u') (hn : u.Named) : u'.Named := by
  induction h with
  | refl => exact hn
  | tail _ h ih => exact h.named ih

/-- An item of the function names the label. -/
def Cites (p : Site) (v : Session) (l : LabelId) : Prop :=
  ∃ y item, p.Own y ∧ v.items.get? y = some item ∧ l ∈ item.kind.names

theorem Edits.cites (h : v.Edits p t) (hc : t.Cites p l) : v.Cites p l ∨ v.labels.size ≤ l.index := by
  induction h with
  | refl => exact .inl hc
  | @tail u u' hs h ih =>
    obtain ⟨y, item', hy, hi', hl⟩ := hc
    have hle : u.labels.size ≤ l.index → v.labels.size ≤ l.index := (Edits.grows hs).trans
    rcases h.items hi' with ⟨item, hi, ht, -⟩ | ⟨-, id, hid, hm⟩
    · exact (ht.names hl).elim (fun hl => ih ⟨y, item, hy, hi, hl⟩) fun hl => .inr (hle hl.1)
    · exact (hm.names hl).elim (fun ⟨item, hi, hl⟩ => ih ⟨id, item, hid, hi, hl⟩) fun hl => .inr (hle hl.1)

end Session

end Codegen
