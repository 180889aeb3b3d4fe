import Codegen.Proofs.Passage

/-! A program has no code that is `bad`, as long as no such code is asked for. Bad may be what returns by itself, or has
operands of a certain form. -/
namespace Codegen
open ItemKind

/-- The item is an instruction or a jump. -/
def ItemKind.isCode : ItemKind → Bool
  | instruction _ | jump _ => true
  | _ => false

/-- Only code is bad. -/
class ItemKind.OfCode (bad : ItemKind → Prop) : Prop where
  code : ∀ {k}, bad k → k.isCode = true

instance : OfCode (fun k => k.isReturn = true) where
  code {k} h := by cases k <;> first | rfl | cases h

theorem ItemKind.OfCode.not_bad [OfCode bad] (hk : k.isCode = false) : ¬ bad k :=
  fun h => Bool.false_ne_true (hk ▸ code h)

namespace Builder
variable {bad : ItemKind → Prop} {c : Call}

/-- A jump is made with an opcode that jumps. -/
def Call.proper : Call → Bool
  | .jump opcode _ _ => opcode.isJump
  | _ => true

/-- The call asks for no bad code. -/
def Call.Spares (bad : ItemKind → Prop) (c : Call) : Prop := ∀ kind, c.Appends kind → kind.isCode = true → ¬ bad kind

theorem Call.spares_returns (h : c.proper = true) : c.Spares fun k => k.isReturn = true := by
  intro kind hk hcode hr
  cases c with
  | emit opcode operands =>
    obtain ⟨hop, rfl⟩ := hk
    cases opcode <;> first | cases hop; done | cases hr
  | jump opcode target expected =>
    obtain ⟨nextJump, rfl⟩ := hk
    have hj : opcode.isJump = true := h
    cases opcode <;> first | cases hj; done | cases hr
  | _ => first | (obtain ⟨_, rfl⟩ := hk; cases hcode) | cases hk

/-- The items are free of bad code. -/
def Clean (bad : ItemKind → Prop) (s : ItemSeq) : Prop := ∀ {x item}, s.get? x = some item → ¬ bad item.kind

theorem Clean.create (h : Clean bad t) (hk : ¬ bad kind) : Clean bad (t.create kind).2 := by
  intro x item hx
  rcases ItemSeq.get?_create_cases hx with hx | ⟨-, rfl⟩
  · exact h hx
  · exact hk

theorem Act.clean [OfCode bad] (hc : c.Spares bad) (h : Act c s s') (hs : Clean bad s.items) : Clean bad s'.items := by
  cases h with
  | append hk => exact hs.create fun hb => hc _ hk (OfCode.code hb) hb
  | label | opens | closes => exact hs.create (OfCode.not_bad rfl)
  | bind | var | priority | prototype => exact hs
  | target =>
    intro x item hx
    rcases ItemSeq.get?_modify_cases hx with ⟨-, hx⟩ | ⟨-, _, -, rfl⟩
    · exact hs hx
    · exact OfCode.not_bad rfl

theorem program_clean [OfCode bad]
    (hc : ∀ c ∈ calls, c.Spares bad) (h : program calls { options } = .ok u s) : Clean bad s.items :=
  (program_induct (P := fun t => Clean bad t.items) (fun c hmem _ _ ha _ => ha.clean (hc c hmem)) (fun hx => by cases hx) h).2

end Builder

end Codegen
