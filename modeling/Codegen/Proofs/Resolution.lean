import Codegen.Proofs.Outcome

/-! The operands of a lowered function. Every item of it that is left was translated, and what came later is made with
operands in their places. So when the homes are bound, nothing is left to be resolved. -/
namespace Codegen
open List

/-- The operands have their places, or they are labels. -/
def Operand.Tidy (o : Operand) : Prop := o.Placed ∨ ∃ l, o = .label l

theorem Operand.SettlesAs.tidy {o o' : Operand} (h : o.SettlesAs o') : o'.Tidy := h.imp_right fun ⟨l, _, hl⟩ => ⟨l, hl⟩

theorem Build.bindOperand_tidy (h : bindOperand frame slots o = .ok o') (ho : o.Tidy) : o'.Tidy := by
  obtain ⟨-, rfl | ⟨m, base, disp, rfl, rfl⟩⟩ := bindOperand_ok h
  · exact ho
  -- a home is replaced by a register as base, and the index stays what it was
  obtain ⟨haddr, -⟩ : m.addressVars = [] ∧ m.homeVar = none := ho.resolve_right (by simp)
  have hindex : m.index.bind AddressPart.var? = none := by
    have := append_eq_nil_iff.mp haddr
    simpa using this.2
  exact .inl ⟨by simp [Mem.addressVars, AddressPart.var?, hindex], rfl⟩

namespace ItemKind
variable {k : ItemKind}

/-- The operands of the item, if it is an instruction, are tidy. -/
def Tidy (k : ItemKind) : Prop := ∀ i, k = .instruction i → ∀ o ∈ i.operands, o.Tidy

theorem Turns.tidy (h : k.Turns m n k') (hk : k.Tidy) : k'.Tidy := by
  cases h with
  | same => exact hk
  | settles h =>
    cases h with
    | instruction h =>
      rintro _ ⟨⟩ o' ho'
      obtain ⟨j, hj⟩ := mem_iff_getElem?.mp ho'
      obtain ⟨o, -, ho⟩ := getElem?_of_forall₂ h hj
      exact ho.tidy
    | _ => exact nofun
  | detours => exact nofun
  | @binds i operands frame slots h =>
    rintro _ ⟨⟩ o' ho'
    obtain ⟨j, hj⟩ := mem_iff_getElem?.mp ho'
    obtain ⟨o, hget, ho⟩ := getElem?_of_forall₂ h hj
    exact Build.bindOperand_tidy ho (hk i rfl o (mem_of_getElem? hget))

end ItemKind

namespace Session
variable {s u : Session} {id : ItemId}

theorem Makes.tidy (h : s.Makes id n k) : k.Tidy := by
  cases h with
  | code h =>
    rintro _ ⟨⟩ o ho
    exact .inl (h o ho)
  | call | back =>
    rintro _ ⟨⟩ o ho
    exact .inr ⟨_, mem_singleton.mp ho⟩
  | comment | block => exact nofun

/-- The items of the function that are translated, and those that came later, are tidy. -/
def Neat (p : Site) (u : Session) : Prop :=
  ∀ {x item}, p.Own x → u.items.get? x = some item → item.translated = true ∨ p.size ≤ x.index → item.kind.Tidy

theorem Edit.neat (h : u.Edit p u') (hn : u.Neat p) : u'.Neat p := by
  intro x item' hown hi' hx
  rcases h.items hi' with ⟨item, hi, hk, -, -, -, htr⟩ | ⟨-, id, -, hmade⟩
  · rcases hx with hx | hx
    · rcases htr hx with htr | htidy
      · exact hk.tidy (hn hown hi (.inl htr))
      · exact fun i => htidy item' i hi'
    · exact hk.tidy (hn hown hi (.inr hx))
  · exact hmade.tidy

theorem Edits.neat (h : u.Edits p u') (hn : u.Neat p) : u'.Neat p := by
  induction h with
  | refl => exact hn
  | tail _ h ih => exact h.neat ih

theorem Ready.neat {record : FunctionRecord} (h : u.Ready f record p.stop p.body) (hs : u.Stands p)
    (hstart : p.start = record.item) (hp : u.Prepared f record p.stop v) : v.Neat p := by
  obtain ⟨proto, -, hprep⟩ := hp.prepared
  have hw := h.walked hprep
  intro x item' hown hi' hx
  have hlt : x.index < p.size := by
    have hlt' := ItemSeq.lt_size_of_get? hi'
    rw [hw.order.2] at hlt'
    exact hs.size ▸ hlt'
  have hmem : x ∈ record.item :: (p.body ++ [p.stop]) := hstart ▸ hown.resolve_right (not_le.mpr hlt)
  have hnot : item'.translated = true := hx.resolve_right (not_le.mpr hlt)
  simp only [mem_cons, mem_append, not_mem_nil, or_false] at hmem
  rcases hmem with rfl | hbody | rfl
  · obtain ⟨kind', o, hk, ht, -⟩ := hw.done (by simp) h.opens
    cases hi' ▸ ht
    cases hnot
  · obtain ⟨kind, item, -, hi, htr, -⟩ := h.prepared_inside hprep hbody
    cases hi ▸ hi'
    cases hnot ▸ htr
  · obtain ⟨kind', o, hk, ht, -⟩ := hw.done (by simp) h.closes
    cases hi' ▸ ht
    cases hnot

/-- Every operand of a lowered function is resolved. -/
theorem LowersAt.resolved {record : FunctionRecord} {item : Item}
    (h : u.LowersAt p f last v t) (hr : u.Ready f record p.stop p.body) (hs : u.Stands p)
    (hstart : p.start = record.item)
    (hp : u.Prepared f record p.stop v) (hret : u.Retains gone t)
    (hx : x ∈ t.items.range p.start last) (hi : t.items.get? x = some item)
    (hk : item.kind = .instruction i) : ∀ o ∈ i.operands, o.isResolved = true := by
  intro o ho
  have hinner : t.roleAt x = .inner := by simp [roleAt, hi, hk, ItemKind.role]
  have htidy : item.kind.Tidy := by
    have hneat : t.Neat p := Edits.neat h.edits (hr.neat hs hstart hp)
    have hown := h.keeps.own_range h.linear hx
    refine hneat hown hi ?_
    rcases hown with hmem | hnew
    · -- the first and the last item are no instructions, and the others are translated
      have hrole : ∀ {y}, y ∈ p.start :: (p.body ++ [p.stop]) → t.roleAt y = u.roleAt y := fun {y} hy =>
        hret.kept (hs.size ▸ p.made y (by simp only [mem_append, mem_cons] at hy ⊢; tauto))
      simp only [mem_cons, mem_append, not_mem_nil, or_false] at hmem
      rcases hmem with rfl | hbody | rfl
      · rw [hrole (by simp), hstart, roleAt, hr.opens] at hinner
        cases hinner
      · obtain ⟨item', hi', htr⟩ := h.done x hbody (h.keeps.mem_order h.linear hx)
        cases hi ▸ hi'
        exact .inl htr
      · rw [hrole (by simp), roleAt, hr.closes] at hinner
        cases hinner
    · exact .inr hnew
  have hhome : o.hasHome = false := by
    have hany := any_eq_false.mp (h.homeless x hx item i hi hk) o ho
    simpa using hany
  rcases htidy i hk o ho with hplaced | ⟨l, rfl⟩
  · cases o with
    | mem m =>
      obtain ⟨haddr, -⟩ := hplaced
      have hnone : m.home = none := by simpa [Operand.hasHome] using hhome
      simp [Operand.isResolved, Mem.isResolved, haddr, hnone]
    | var v => exact hplaced.elim
    | _ => rfl
  · rfl

end Session

end Codegen
