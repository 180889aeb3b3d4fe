import Codegen.Proofs.Steps
import Codegen.X64.Assembler
import Codegen.X64.Layout

/-! The immediates of 64-bit operations. The code assembler is passed the integer that was asked for, unless it lies
between the largest signed and the largest unsigned number of 32 bits: such an integer is taken as well, and a negative
one is passed in its place. -/
namespace Codegen.X64
open List Build

/-- The operations with a destination and an immediate. -/
def takesImmediate : Opcode → Bool
  | .add | .sub | .adc | .sbb | .and | .or | .xor | .cmp | .test | .imul | .mov => true
  | _ => false

/-- A destination of eight bytes. -/
def isWide : Operand → Bool
  | .reg r => r.reg.cls = .gp && r.size = 8
  | .mem m => m.size = 8
  | _ => false

/-- A wide operation with an immediate, or a push of one. -/
inductive WideImmediate (v : Int) : Opcode → List Operand → Prop
  | pair {op : Opcode} {dst : Operand} (hop : takesImmediate op = true) (hw : isWide dst = true) :
    WideImmediate v op [dst, .imm v]
  | product {dst src : Operand} (hw : isWide dst = true) : WideImmediate v .imul [dst, src, .imm v]
  | push : WideImmediate v .push [.imm v]

/-- A move into a register has room for all 64 bits. -/
def isLoad : Opcode → List Operand → Bool
  | .mov, .reg _ :: _ => true
  | _, _ => false

/-- The integer among the operands that an instruction is passed, which comes last. -/
def immediate? (args : List (Arg ι)) : Option Int :=
  match args.getLast? with
  | some (.imm v) => some v
  | _ => none

variable {v x : Int} {op : Opcode} {operands : List Operand} {args args' : List (Arg LabelId)} {α : Type}

theorem imm32_ok (h : imm32 v = .ok x) : (-2147483648 ≤ x ∧ x ≤ 2147483647) ∧
    (v = x ∨ 2147483648 ≤ v ∧ v ≤ 4294967295 ∧ x = v - 4294967296) := by
  unfold imm32 unsupported at h
  split at h
  · cases h
    omega
  split at h
  · cases h
    omega
  · cases h

theorem dispatch_ok {shapes : Shapes} (hs : shapesOf op = some shapes) (h : dispatch op args = .ok args') :
    handOn op args = .ok args' := by
  simp only [dispatch, hs] at h
  split at h
  · exact h
  · cases h

theorem narrow_immediate (first : List (Arg LabelId)) (h : (first ++ [Arg.imm v]).mapM Arg.narrow = .ok args) :
    ∃ x, immediate? args = some x ∧ imm32 v = .ok x := by
  simp only [mapM_append, mapM_cons, mapM_nil, Arg.narrow, except_bind_ok, except_pure_ok] at h
  obtain ⟨_, -, _, ⟨_, ⟨x, hx, rfl⟩, _, rfl, rfl⟩, rfl⟩ := h
  exact ⟨x, by simp [immediate?], hx⟩

/-- A wide destination is a 64-bit register or memory. -/
theorem ofOperand_wide {dst : Operand} {d : Arg LabelId} (hw : isWide dst = true) (h : Arg.ofOperand dst = .ok d) :
    (∃ r i, dst = .reg r ∧ d = .gp .w64 i) ∨ ∃ m a, dst = .mem m ∧ d = .mem a := by
  cases dst with
  | reg r =>
    simp only [isWide, Bool.and_eq_true, decide_eq_true_eq] at hw
    simp only [Arg.ofOperand, Arg.ofReg, hw, Width.ofBytes?] at h
    split at h <;> cases h
    exact .inl ⟨r, _, rfl, rfl⟩
  | mem m =>
    simp only [Arg.ofOperand, except_bind_ok, except_pure_ok] at h
    obtain ⟨a, -, rfl⟩ := h
    exact .inr ⟨m, a, rfl, rfl⟩
  | _ => cases hw

/-- A move into a register is passed the immediate, and any other operation the immediate in 32 bits. -/
theorem dispatch_immediate (hop : WideImmediate v op operands) (h : argsOf op operands >>= dispatch op = .ok args) :
    ∃ x, immediate? args = some x ∧ if isLoad op operands then x = v else imm32 v = .ok x := by
  have himm : ∀ k, Arg.at op k (.imm v) = .ok (.imm v) := fun k => by
    unfold Arg.at
    split <;> first | rfl | contradiction
  have hat : ∀ o, Arg.at op 0 o = Arg.ofOperand o := fun o => by simp [Arg.at]
  obtain ⟨given, hgiven, h⟩ := except_bind_ok.mp h
  cases hop with
  | pair htakes hw =>
    simp only [argsOf, argsFrom, hat, himm, except_bind_ok, except_pure_ok] at hgiven
    obtain ⟨d, hd, _, ⟨_, ⟨⟩, _, ⟨⟩, rfl⟩, rfl⟩ := hgiven
    obtain ⟨shapes, hs⟩ : ∃ shapes, shapesOf op = some shapes := by
      cases op <;> first | exact ⟨_, rfl⟩ | cases htakes
    have h := dispatch_ok hs h
    rcases ofOperand_wide hw hd with ⟨r, i, rfl, rfl⟩ | ⟨m, a, rfl, rfl⟩
    · cases op with
      | mov =>
        cases h
        exact ⟨v, rfl, rfl⟩
      | imul =>
        obtain ⟨x, hx, h⟩ := except_bind_ok.mp h
        cases h
        exact ⟨x, rfl, hx⟩
      | add | sub | adc | sbb | and | or | xor | cmp | test => exact narrow_immediate [.gp .w64 i] h
      | _ => cases htakes
    · cases op with
      | imul =>
        obtain ⟨x, hx, h⟩ := except_bind_ok.mp h
        cases h
        exact ⟨x, rfl, hx⟩
      | mov | add | sub | adc | sbb | and | or | xor | cmp | test => exact narrow_immediate [.mem a] h
      | _ => cases htakes
  | product hw =>
    simp only [argsOf, argsFrom, hat, himm, except_bind_ok, except_pure_ok] at hgiven
    obtain ⟨d, -, _, ⟨s, -, _, ⟨_, ⟨⟩, _, ⟨⟩, rfl⟩, rfl⟩, rfl⟩ := hgiven
    have hpassed : handOn .imul [d, s, .imm v] = ([d, s] ++ [Arg.imm v]).mapM Arg.narrow := by cases s <;> rfl
    exact narrow_immediate [d, s] (hpassed ▸ dispatch_ok (by rfl) h)
  | push =>
    cases hgiven
    exact narrow_immediate [] (dispatch_ok (by rfl) h)

theorem Stream.add_ok [CodeAssembler α] {s s' : Stream α} {c : Code Nat} (h : s.add c = (.ok (), s')) :
    CodeAssembler.add s.assembler c = (.ok (), s'.assembler) := by
  unfold add at h
  split at h
  · rename_i heq
    cases h
    exact heq
  · cases h

namespace Assembler

/-- An operation that is taken uses the immediate that was asked for, unless that only fits into 32 bits without a
sign: then it is less by `2 ^ 32`. Other immediates that do not fit into 32 bits are refused, except in a move into a
register, which takes all of them. Of the code assembler it is only known that an instruction uses the integer it is
passed. -/
theorem emit_immediate [CodeAssembler α] {a a' : Assembler α} (uses : Code Nat → Option Int)
    (huses : ∀ op args x, immediate? args = some x → uses (.instruction op args) = some x)
    (hop : WideImmediate v op operands) (h : a.emit op operands = (.ok (), a')) :
    ∃ c x, CodeAssembler.add (a.stream.naming op operands).assembler c = (.ok (), a'.stream.assembler) ∧ uses c = some x ∧
      (x = v ↔ isLoad op operands = true ∨ -2147483648 ≤ v ∧ v ≤ 2147483647) ∧
      (x ≠ v → 2147483648 ≤ v ∧ v ≤ 4294967295 ∧ x = v - 4294967296) := by
  obtain ⟨s, hs, hstream⟩ : ∃ s, a.stream.emit op operands = (.ok (), s) ∧ a'.stream = s := by
    unfold emit note at h
    split at h
    · rename_i s heq
      cases h
      exact ⟨s, heq, rfl⟩
    · cases h
  simp only [Stream.emit] at hs
  split at hs
  · rename_i args hargs
    obtain ⟨x, hx, hload⟩ := dispatch_immediate hop hargs
    have hmap : ∀ f : LabelId → Nat, immediate? (args.map (Arg.map f)) = some x := fun f => by
      unfold immediate? at hx ⊢
      split at hx
      · rename_i heq
        simp [getLast?_map, heq, Arg.map, ← hx]
      · cases hx
    refine ⟨_, x, hstream ▸ Stream.add_ok hs, huses _ _ _ (hmap _), ?_⟩
    split at hload
    · rename_i hl
      exact ⟨by simp [hl, hload], fun hne => absurd hload hne⟩
    · rename_i hl
      obtain ⟨hrange, heq⟩ := imm32_ok hload
      refine ⟨?_, by omega⟩
      rw [or_iff_right hl]
      omega
  · cases hs

theorem emit_immediate_largest :
    let passed : Code Nat → Option Int := fun
      | .instruction _ args => immediate? args
      | _ => none
    ∃ c, CodeAssembler.add ({} : Listing) c =
        (.ok (), ((fresh : Assembler Listing).emit .add [.reg ⟨.gp Gp.rax, 8⟩, .imm 2147483647]).2.stream.assembler) ∧
      passed c = some 2147483647 := by
  intro passed
  have hop : WideImmediate 2147483647 .add [.reg ⟨.gp Gp.rax, 8⟩, .imm 2147483647] := .pair rfl rfl
  obtain ⟨c, x, hc, hx, hiff, -⟩ := emit_immediate (a := (fresh : Assembler Listing)) passed (fun _ _ _ h => h) hop rfl
  exact ⟨c, hc, hiff.mpr (.inr (by decide)) ▸ hx⟩

/-- Adding the largest unsigned number of 32 bits to a 64-bit register adds minus one. -/
theorem unsigned_immediate_negated :
    let result := (fresh : Assembler Listing).emit .add [.reg ⟨.gp Gp.rax, 8⟩, .imm 4294967295]
    result.1 = .ok () ∧ result.2.finish.1 = .ok [0x48, 0x05, 0xFF, 0xFF, 0xFF, 0xFF] ∧
      result.2.stream.assembler.pieces = #[.code (.instruction .add [.gp .w64 Gp.rax, .imm (-1)])] := by
  intro result
  exact ⟨rfl, rfl, rfl⟩

end Assembler

end Codegen.X64
