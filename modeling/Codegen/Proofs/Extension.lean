import Codegen.Proofs.Causes
import Codegen.Proofs.Allocator

/-! Steps that put code behind the cursor and leave all other items alone. This is all that the steps of
the allocator do to the program, whatever state the allocator is in. -/
namespace Codegen
open List Operand RegMask Instruction
variable {access : Access} {index : Nat} {cls : RegClass}
  {mask : RegMask}
variable {s : Session} {v : Variable} {g : Variable → Variable}

/-- No variable is left in the operand, and it names no label. -/
def Operand.Placed : Operand → Prop
  | .var _ | .label _ => False
  | .mem m => m.addressVars = [] ∧ m.homeVar = none
  | .reg _ | .imm _ => True

section Placed
variable {size : Nat} {disp : Int}

@[simp] theorem placed_ofReg : (ofReg r size).Placed := trivial

@[simp] theorem placed_gpq : (gpq i).Placed := trivial

@[simp] theorem placed_imm : (imm disp).Placed := trivial

@[simp] theorem placed_atReg : (mem (.atReg r disp size)).Placed := ⟨rfl, rfl⟩

@[simp] theorem Variable.placed_regOperand : (v.regOperand i).Placed := trivial

end Placed

/-- Does control come to the next instruction, and to no other of the function? -/
def Opcode.passesOn : Opcode → Bool
  | jmp | jcc _ | ret => false
  | _ => true

@[simp] theorem Opcode.passesOn_iff {op : Opcode} : op.passesOn = true ↔ op ≠ .jmp ∧ op ≠ .ret ∧ ∀ c, op ≠ .jcc c := by
  cases op <;> simp [passesOn]

theorem Opcode.passesOn_of_not_controlFlow {op : Opcode} (h : op.isControlFlow = false) : op.passesOn = true := by
  cases op <;> first | rfl | cases h

/-- Code that steps of the allocator put into a program: it does not jump or return, and its operands are in their
places. -/
structure Instruction.Emitted (i : Instruction) : Prop where
  opcode : i.opcode.passesOn = true
  operands : ∀ o ∈ i.operands, o.Placed

@[simp] theorem emitted_iff {op : Opcode} {operands : List Operand} :
    (⟨op, operands⟩ : Instruction).Emitted ↔ op.passesOn = true ∧ ∀ o ∈ operands, o.Placed :=
  ⟨fun h => ⟨h.opcode, h.operands⟩, fun h => ⟨h.1, h.2⟩⟩

/-- The code that a call becomes: it names a label only if the call does. -/
def CallItem.Emits (c : CallItem) (i : Instruction) : Prop :=
  i.Emitted ∨ ∃ l, c.target = .label l ∧ i = ⟨.call, [.label l]⟩

namespace Session

/-- The variable has a value in a register or in memory. -/
def Live (s : Session) (id : VarId) : Prop := ∃ x, s.vars.get? id = some x ∧ x.state ≠ .unused

theorem Live.modifyVar {D : VarId → Prop} {id y : VarId}
    (hs : ∀ x, D id ∨ (x.state ≠ .unused → (g x).state ≠ .unused)) (hy : ¬ D y) (h : s.Live y) :
    ({ s with vars := s.vars.modify id g } : Session).Live y := by
  obtain ⟨x, hx, hl⟩ := h
  by_cases hyi : y = id
  · subst hyi
    exact ⟨g x, by rw [VarTable.get?_modify_self, hx, Option.map_some], (hs x).resolve_left hy hl⟩
  · exact ⟨x, by rw [VarTable.get?_modify_of_ne _ (Ne.symm hyi), hx], hl⟩

/-- Code in `P` goes behind the cursor. -/
structure Gains (P : Instruction → Prop) (s s' : Session) : Prop extends s.Frame s' where
  code : ∃ code : List Instruction, (∀ i ∈ code, P i) ∧ s'.items = s.items.generateAll s.mark code

namespace Gains

theorem quiet (hf : s.Frame t) (hi : t.items = s.items) : s.Gains P t := ⟨hf, [], by simp, hi⟩

theorem trans (h : s.Gains P t) (h' : t.Gains P u) : s.Gains P u := by
  refine ⟨h.toFrame.trans h'.toFrame, ?_⟩
  obtain ⟨c, hP, hc⟩ := h.code
  obtain ⟨c', hP', hc'⟩ := h'.code
  exact ⟨c ++ c', forall_mem_append.mpr ⟨hP, hP'⟩, by rw [hc', hc, h.mark_eq, ItemSeq.generateAll_append]⟩

end Gains

/-- Code of the allocator goes behind the cursor, and no variables but those in `D` lose their values. -/
structure Extends (D : VarId → Prop) (s s' : Session) : Prop extends s.Gains Emitted s' where
  live : ∀ id, ¬ D id → s.Live id → s'.Live id

namespace Extends

theorem refl (s : Session) : s.Extends D s := ⟨.quiet (.refl s) rfl, fun _ _ h => h⟩

theorem trans (h : s.Extends D t) (h' : t.Extends D u) : s.Extends D u :=
  ⟨h.toGains.trans h'.toGains, fun id hid hl => h'.live id hid (h.live id hid hl)⟩

theorem mono (hD : ∀ id, D id → D' id) (h : s.Extends D t) : s.Extends D' t :=
  ⟨h.toGains, fun id hid => h.live id fun hd => hid (hD id hd)⟩

end Extends

instance (D : VarId → Prop) : IsPreorder Session (Extends D) where
  refl := .refl
  trans _ _ _ := .trans

end Session

namespace Build
variable {id : VarId} {item : ItemId}

/-- The result of every success of the step is in `P`. -/
def Yields (P : α → Prop) (m : Build α) : Prop := ∀ s a s', m s = .ok a s' → P a

/-- Every success of the step leads from a session to a related one. -/
def Ensures (R : Session → Session → Prop) (m : Build α) : Prop :=
  ∀ s a s', m s = .ok a s' → R s s'

namespace Ensures

theorem throw (e : Error) : Ensures R (MonadExcept.throw e : Build α) := fun _ _ _ h => (throw_ok.mp h).elim

theorem check [Decidable c] (hk : Ensures R (k ())) :
    Ensures R (if c then usage r >>= k else k ()) :=
  fun s a s' h => hk s a s' (check_ok.mp h).2

variable [IsPreorder Session R]

theorem pure (a : α) : Ensures R (Pure.pure a : Build α) := by
  intro s b s' h
  cases h
  exact refl_of R s

theorem bind (hm : Ensures R m) (hk : ∀ a, Ensures R (k a)) : Ensures R (m >>= k) := by
  intro s b s' h
  obtain ⟨a, t, ha, hb⟩ := bind_ok.mp h
  exact trans_of R (hm s a t ha) (hk a t b s' hb)

theorem get : Ensures R (MonadState.get : Build Session) := by
  intro s a s' h
  obtain ⟨-, rfl⟩ := get_ok.mp h
  exact refl_of R s

theorem lift {x : Except Error α} : Ensures R (liftM x : Build α) := by
  intro s a s' h
  obtain ⟨-, rfl⟩ := lift_ok.mp h
  exact refl_of R s

theorem forM {l : List β} {g : β → Build Unit} (hg : ∀ b ∈ l, Ensures R (g b)) : Ensures R (l.forM g) := by
  induction l with
  | nil => exact pure ()
  | cons b l ih =>
    obtain ⟨hb, hl⟩ := forall_mem_cons.mp hg
    exact hb.bind fun _ => ih hl

theorem getVar : Ensures R (getVar id) := .bind .get fun _ => .lift

end Ensures

/-- Every success of the step extends the program. -/
abbrev Extending (D : VarId → Prop) (m : Build α) : Prop := Ensures (Session.Extends D) m

/-- What a step of the allocator may do besides: let variables lose their values, mark variables as operands of the
current item, and run out of registers. -/
structure Licence where
  drops : VarId → Prop
  claims : VarId → Prop
  shortage : Prop

namespace Licence

/-- All of this. -/
def all : Licence := ⟨fun _ => True, fun _ => True, True⟩

/-- Only dropping values is allowed. -/
def drop (P : VarId → Prop) : Licence := ⟨P, fun _ => False, False⟩

/-- Only running out of registers is allowed. -/
def keep : Licence := ⟨fun _ => False, fun _ => False, True⟩

/-- One licence allows no more than another. -/
structure Within (D D' : Licence) : Prop where
  drops : ∀ v, D.drops v → D'.drops v
  claims : ∀ v, D.claims v → D'.claims v
  shortage : D.shortage → D'.shortage

theorem Within.refl (D : Licence) : D.Within D := ⟨fun _ h => h, fun _ h => h, id⟩

end Licence

/-- Code that writes no register is in `E`. -/
class Stores (E : Instruction → Prop) : Prop where
  mem : ∀ {i}, i.Emitted → i.destinations = [] → E i

instance : Stores Emitted := ⟨fun h _ => h⟩

instance (c : CallItem) : Stores c.Emits := ⟨fun h _ => .inl h⟩

end Build

namespace Session

/-- All variables but those in `C` are marked as they were. -/
def MarksOnly (C : VarId → Prop) (s s' : Session) : Prop :=
  ∀ id, ¬ C id → (s'.vars.get? id).map Variable.workOffset = (s.vars.get? id).map Variable.workOffset

instance : IsPreorder Session (MarksOnly C) where
  refl _ _ _ := rfl
  trans _ _ _ h h' id hid := (h' id hid).trans (h id hid)

/-- What a step does that is put together from looking things up, from code in `E`, and from changes to variables and to
what the allocator keeps. -/
structure Undergoes (D : Build.Licence) (E : Instruction → Prop) (A : Reg → Prop) (s s' : Session) : Prop
    extends s.Gains E s' where
  live : ∀ id, ¬ D.drops id → s.Live id → s'.Live id
  works : s.MarksOnly D.claims s'
  marks : ∀ {r}, s.Marked r → s'.Marked r
  held : ∀ {r}, s'.Occupied r → A r ∨ s.Occupied r

instance (D : Build.Licence) (E : Instruction → Prop) (A : Reg → Prop) : IsPreorder Session (Undergoes D E A) where
  refl _ := ⟨.quiet (.refl _) rfl, fun _ _ h => h, refl_of _ _, fun h => h, .inr⟩
  trans _ _ _ h h' := ⟨h.toGains.trans h'.toGains, fun id hid hl => h'.live id hid (h.live id hid hl),
    trans_of _ h.works h'.works, fun hr => h'.marks (h.marks hr), fun hr => (h'.held hr).elim .inl h.held⟩

end Session

namespace Build
variable {D : Licence} {id : VarId} {item : ItemId}

/-- A step that is put together from looking things up, from failing for ordinary reasons, from code in `E` behind the
cursor, and from changes to variables and to what the allocator keeps. It takes no registers but those in `A`, and `D`
says what else it may do. -/
inductive Plain (D : Licence) (E : Instruction → Prop) (A : Reg → Prop) : {α : Type} → Build α → Prop
  | pure {α : Type} (a : α) : Plain D E A (Pure.pure a : Build α)
  | throw {α : Type} {e : Error} (he : e.cause = .other) : Plain D E A (MonadExcept.throw e : Build α)
  | short {α : Type} (hs : D.shortage) : Plain D E A (MonadExcept.throw .notEnoughRegisters : Build α)
  | get : Plain D E A (MonadState.get : Build Session)
  | lift {α : Type} {x : Except Error α} (hx : Unblamed (· = .other) x) : Plain D E A (liftM x : Build α)
  | var {id : VarId} {g : Variable → Variable} (hg : ∀ x, (g x).fixed = x.fixed)
      (hs : ∀ x, D.drops id ∨ (x.state ≠ .unused → (g x).state ≠ .unused))
      (hw : ∀ x, D.claims id ∨ (g x).workOffset = x.workOffset) :
      Plain D E A (modify fun s => { s with vars := s.vars.modify id g })
  | deactivate {id : VarId} : Plain D E A (modify fun s => { s with vars := s.vars.deactivate id })
  | context {g : Context → Context} (hg : ∀ c, g c = { c with
        registers := (g c).registers, modified := (g c).modified, reserved := (g c).reserved, slots := (g c).slots })
      (hm : ∀ c (r : Reg), (c.modified.get r.cls).contains r.index → ((g c).modified.get r.cls).contains r.index)
      (hr : ∀ c r v, (g c).registers.occupant r = some v → A r ∨ c.registers.occupant r = some v) :
      Plain D E A (modifyContext g)
  | stats {g : Stats → Stats} : Plain D E A (modifyStats g)
  | emit {code : List Instruction} (hc : ∀ i ∈ code, E i) : Plain D E A (emitAll code)
  | seq {α β : Type} {m : Build α} {k : α → Build β} (hm : Plain D E A m)
      (hk : ∀ s a s', m s = .ok a s' → Plain D E A (k a)) : Plain D E A (m >>= k)

namespace Plain
variable {E : Instruction → Prop} {A : Reg → Prop}

theorem bind (hm : Plain D E A m) (hk : ∀ a, Plain D E A (k a)) : Plain D E A (m >>= k) := hm.seq fun _ a _ _ => hk a

theorem bind_yields (hm : Plain D E A m) (hP : Yields P m)
    (hk : ∀ a, P a → Plain D E A (k a)) : Plain D E A (m >>= k) :=
  hm.seq fun s a s' h => hk a (hP s a s' h)

theorem usage (hr : (Error.usage r).cause = .other) : Plain D E A (usage r : Build α) := .throw hr

theorem when [Decidable c] (hm : Plain D E A m)
    (hk : Plain D E A (k ())) : Plain D E A (if c then m >>= k else k ()) := by
  split
  · exact hm.bind fun _ => hk
  · exact hk

theorem check [Decidable c] (hr : (Error.usage r).cause = .other)
    (hk : Plain D E A (k ())) : Plain D E A (if c then Build.usage r >>= k else k ()) := when (.usage hr) hk

theorem forM_mem {l : List β} {g : β → Build Unit} (hg : ∀ b ∈ l, Plain D E A (g b)) : Plain D E A (l.forM g) := by
  induction l with
  | nil => exact .pure ()
  | cons b l ih =>
    obtain ⟨hb, hl⟩ := forall_mem_cons.mp hg
    exact hb.bind fun _ => ih hl

theorem forM {l : List β} {g : β → Build Unit} (hg : ∀ b, Plain D E A (g b)) : Plain D E A (l.forM g) :=
  forM_mem fun b _ => hg b

theorem mapM {l : List β} {g : β → Build α} (hg : ∀ b, Plain D E A (g b)) : Plain D E A (l.mapM g) := by
  induction l with
  | nil => exact .pure []
  | cons b l ih =>
    rw [mapM_cons]
    exact (hg b).bind fun _ => ih.bind fun _ => .pure _

theorem getVar : Plain D E A (getVar id) := have : Lenient (· = .other) := ⟨rfl⟩
  .bind .get fun _ => .lift (.variable_ _ _)

section
variable (hg : ∀ x, (g x).fixed = x.fixed ∧ (g x).workOffset = x.workOffset)
include hg

theorem modifyVar (hs : ∀ x, D.drops id ∨ (x.state ≠ .unused → (g x).state ≠ .unused)) : Plain D E A (modifyVar id g) :=
  .bind .getVar fun _ => .var (fun x => (hg x).1) hs fun x => .inr (hg x).2

theorem modifyVar_same (hs : ∀ x, (g x).state = x.state) : Plain D E A (Build.modifyVar id g) :=
  modifyVar hg fun x => .inr fun h => hs x ▸ h

end

theorem modifyContext {g : Context → Context}
    (hg : ∀ c, g c = { c with reserved := (g c).reserved, slots := (g c).slots }) :
    Plain D E A (modifyContext g) := by
  refine .context (fun c => ?_) (fun c r h => ?_) fun c r v h => .inr ?_
  · rw [hg c]
  · rwa [hg c]
  · rwa [hg c] at h

theorem release : Plain D E A (Build.modifyContext fun c => { c with registers := c.registers.release r }) := by
  refine .context (fun _ => rfl) (fun _ _ h => h) fun c q w hq => .inr ?_
  by_cases hqr : q = r
  · rw [hqr, RegFile.occupant_release_self] at hq
    cases hq
  · rwa [RegFile.occupant_release_of_ne _ hqr] at hq

theorem assign (hr : A r) :
    Plain D E A (Build.modifyContext fun c => { c with registers := c.registers.assign r id }) := by
  refine .context (fun _ => rfl) (fun _ _ h => h) fun c q w hq => ?_
  by_cases hqr : q = r
  · exact .inl (hqr ▸ hr)
  · exact .inr (by rwa [RegFile.occupant_assign_of_ne _ hqr] at hq)

theorem mark : Plain D E A (markModified r) :=
  .context (fun _ => rfl) (fun c _ => c.markModified_keeps) fun _ _ _ => .inr

theorem mono (hD : D.Within D') (hE : ∀ i, E i → E' i) (h : Plain D E A m) : Plain D' E' A m := by
  induction h with
  | pure a => exact .pure a
  | throw he => exact .throw he
  | short hs => exact .short (hD.shortage hs)
  | get => exact .get
  | lift hx => exact .lift hx
  | var hg hs hw => exact .var hg (fun x => (hs x).imp_left (hD.drops _)) fun x => (hw x).imp_left (hD.claims _)
  | deactivate => exact .deactivate
  | context hg hm hr => exact .context hg hm hr
  | stats => exact .stats
  | emit hc => exact .emit fun i hi => hE i (hc i hi)
  | seq _ _ ihm ihk => exact ihm.seq ihk

theorem undergoes (h : Plain D E A m) : Ensures (Session.Undergoes D E A) m := by
  induction h with
  | pure a => exact .pure a
  | throw | short => exact .throw _
  | get => exact .get
  | lift => exact .lift
  | @var id g hg hs hw =>
    intro s a s' h
    cases h
    refine ⟨.quiet ⟨rfl, rfl, .modify hg⟩ rfl, fun y => .modifyVar hs, fun y hy => ?_, fun h => h, .inr⟩
    by_cases hid : id = y
    · subst hid
      rw [VarTable.get?_modify_self, Option.map_map]
      exact Option.map_congr fun x _ => (hw x).resolve_left hy
    · rw [VarTable.get?_modify_of_ne _ hid]
  | deactivate =>
    intro s a s' h
    cases h
    exact ⟨.quiet ⟨rfl, rfl, .deactivate ..⟩ rfl, fun _ _ h => h, fun _ _ => rfl, id, .inr⟩
  | context hg hm hr =>
    intro s a s' h
    cases h
    exact ⟨.quiet ⟨hg s.ctx, rfl, .refl _⟩ rfl, fun _ _ h => h, fun _ _ => rfl, hm s.ctx _,
      fun ⟨v, hv⟩ => (hr s.ctx _ v hv).imp_right fun h => ⟨v, h⟩⟩
  | stats =>
    intro s a s' h
    cases h
    exact ⟨.quiet ⟨rfl, rfl, .refl _⟩ rfl, fun _ _ h => h, fun _ _ => rfl, id, .inr⟩
  | @emit code hc =>
    intro s a s' h
    cases emitAll_ok h
    exact ⟨⟨⟨rfl, rfl, .refl _⟩, code, hc, rfl⟩, fun _ _ h => h, fun _ _ => rfl, id, .inr⟩
  | seq _ _ ihm ihk =>
    intro s b s' h
    obtain ⟨a, t, ha, hb⟩ := bind_ok.mp h
    exact trans_of _ (ihm s a t ha) (ihk s a t ha t b s' hb)

theorem gains (h : Plain D E A m) :
    Ensures (fun s s' => s.Gains E s' ∧ ∀ id, ¬ D.drops id → s.Live id → s'.Live id) m := fun s a s' hm =>
  ⟨(h.undergoes s a s' hm).toGains, (h.undergoes s a s' hm).live⟩

theorem extending (h : Plain D Emitted (fun _ => True) m) : Extending D.drops m := fun s a s' hm =>
  ⟨(h.gains s a s' hm).1, (h.gains s a s' hm).2⟩

theorem unhindered_of [Lenient S] (hS : D.shortage → S .pressure) (h : Plain D E A m) : Unhindered S m := by
  induction h with
  | pure a => exact .pure a
  | throw he => exact .throw (he ▸ Lenient.other)
  | short hs => exact .throw (hS hs)
  | get => exact .get
  | lift hx => exact .lift fun e he => hx e he ▸ Lenient.other
  | var | deactivate => exact .modify
  | context => exact .modifyContext
  | stats => exact .modifyStats
  | emit => exact .emitAll
  | seq _ _ ihm ihk =>
    intro s e s' h
    rcases bind_error.mp h with h | ⟨a, t, ha, h⟩
    · exact ihm s e s' h
    · exact ihk s a t ha t e s' h

theorem unhindered [Lenient S] (h : Plain (.drop fun _ => True) Emitted (fun _ => True) m) :
    Unhindered S m := h.unhindered_of False.elim

end Plain

/-- Such a step, with any code of the allocator and any registers. -/
abbrev Ordinary (D : Licence) (m : Build α) : Prop := Plain D Emitted (fun _ => True) m

section Allocator

@[simp] theorem passesOn_moveOpcode (ty : VarType) : ty.moveOpcode.passesOn = true := by cases ty <;> rfl

@[simp] theorem passesOn_stackStore (ty : VarType) : (stackStore ty).passesOn = true := by cases ty <;> rfl

@[simp] theorem passesOn_copyOpcode (cls : RegClass) : cls.copyOpcode.1.passesOn = true := by cases cls <;> rfl

@[simp] theorem passesOn_returnMove (source ty : VarType) : (returnMove source ty).1.passesOn = true := by
  unfold returnMove
  split <;> simp

theorem emitSwap_plain (ha : a.Placed) (hb : b.Placed) : Ordinary D (emitSwap cls a b i j) := by
  unfold emitSwap
  split <;> exact .emit (by simp [ha, hb])

theorem resolveHome_plain : Plain D E A (resolveHome id) := by
  refine .bind .getVar fun v => ?_
  split
  · exact .pure _
  · exact .pure _
  · refine .bind .get fun s => .bind (.modifyContext fun _ => rfl) fun _ => ?_
    exact .bind (.modifyVar_same (fun _ => ⟨rfl, rfl⟩) fun _ => rfl) fun _ => .pure _

theorem ensureHome_plain : Plain D E A (ensureHome id) := .bind resolveHome_plain fun _ => .pure _

theorem homeOperand_plain : Plain D E A (homeOperand id) :=
  .bind resolveHome_plain fun _ => .bind .getVar fun _ => .pure _

theorem resolveHome_yields : Yields (fun a => ∀ v, a ≠ .var v) (resolveHome id) := by
  rintro s a s' h v rfl
  obtain ⟨x, -, -, ha⟩ := resolveHome_ok h
  unfold Variable.home? at ha
  cases hp : x.passing <;> cases hs : x.homeSlot <;> simp [hp, hs] at ha

theorem homeOperand_yields : Yields Placed (homeOperand id) := by
  intro s o s' h
  simp only [homeOperand, bind_ok] at h
  obtain ⟨a, _, ha, _, _, -, ⟨⟩⟩ := h
  refine ⟨rfl, ?_⟩
  cases a with
  | var v => exact absurd rfl (resolveHome_yields _ _ _ ha v)
  | slot | argument => rfl

theorem homeOperand_ok (h : homeOperand id s = .ok o s') : ∃ m, o = .mem m := by
  simp only [homeOperand, bind_ok] at h
  obtain ⟨a, _, -, x, _, -, ⟨⟩⟩ := h
  exact ⟨_, rfl⟩

theorem noteAccess_plain : Plain D E A (noteAccess id access) := by
  unfold noteAccess
  split
  · exact .modifyVar_same (fun _ => ⟨rfl, rfl⟩) fun _ => rfl
  · exact .pure _

theorem emitMove_plain : Ordinary D (emitMove id index access) := by
  unfold emitMove
  split
  · refine .bind .getVar fun v => ?_
    split
    · exact .emit (by simp)
    · exact .usage rfl
  · exact .pure _

theorem emitLoad_plain : Ordinary D (emitLoad id index) :=
  .bind .getVar fun _ => .bind_yields homeOperand_plain homeOperand_yields fun _ ho =>
    .bind (.emit (by simp [ho])) fun _ => .stats

theorem saveVar_plain [Stores E] : Plain D E A (saveVar id) := by
  refine .bind .getVar fun v => ?_
  split
  · exact .usage rfl
  refine .seq homeOperand_plain fun s o t ho => .bind (.emit ?_) fun _ => .modifyVar_same (fun _ => ⟨rfl, rfl⟩) fun _ => rfl
  have hplaced := homeOperand_yields s o t ho
  obtain ⟨m, rfl⟩ := homeOperand_ok ho
  refine forall_mem_singleton.mpr (Stores.mem (by simp [hplaced]) ?_)
  rw [destinations, Opcode.destinations_move]
  rfl

theorem unuseVar_plain (hD : state = .unused → D.drops id) : Plain D E A (unuseVar id state) := by
  refine .bind .getVar fun v => ?_
  have hleave : Plain D E A (modifyVar id ({ · with state, reg := none, changed := false })) :=
    .modifyVar (fun _ => ⟨rfl, rfl⟩) fun _ => by
      by_cases hs : state = .unused
      · exact .inl (hD hs)
      · exact .inr fun _ => hs
  have hrest : Plain D E A (do
      if state = .memory then ensureHome id
      modifyVar id ({ · with state, reg := none, changed := false }) : Build Unit) :=
    .when ensureHome_plain hleave
  cases v.currentReg with
  | some r => exact .bind .release fun _ => hrest
  | none => exact hrest

theorem spillVar_plain [Stores E] : Plain D E A (spillVar id) := by
  refine .bind .getVar fun v => .check rfl (.when saveVar_plain ?_)
  exact .bind (unuseVar_plain (by simp)) fun _ => .stats

theorem settleIn_plain (hr : A r) : Plain D E A (settleIn id r) :=
  .bind (.modifyVar_same (fun _ => ⟨rfl, rfl⟩) fun _ => rfl) fun _ => .assign hr

theorem exchangeVar_plain : Ordinary D (exchangeVar id index access other) := by
  refine .bind .getVar fun v => ?_
  split
  · exact .usage rfl
  rename_i old _
  have hrest : Ordinary D (do
      settleIn id ⟨v.cls, index⟩
      markModified ⟨v.cls, index⟩
      markModified ⟨v.cls, old⟩
      modifyStats fun s => { s with exchanges := s.exchanges + 1 } : Build Unit) :=
    .bind (settleIn_plain trivial) fun _ => .bind .mark fun _ =>
      .bind .mark fun _ => .stats
  split
  · exact .bind emitMove_plain fun _ => .bind .release fun _ => hrest
  split
  · exact .bind emitMove_plain fun _ => .bind (settleIn_plain trivial) fun _ => hrest
  · exact .bind (emitSwap_plain trivial trivial) fun _ => .bind (settleIn_plain trivial) fun _ => hrest

theorem relocateVar_plain : Ordinary D (relocateVar id avoid) := by
  refine .bind .getVar fun v => .bind .get fun s => ?_
  dsimp only
  split
  · exact exchangeVar_plain
  · exact spillVar_plain

theorem firstUsed_plain (hm : (mask.inter used).first? = none → D.shortage) : Plain D E A (firstUsed mask used) := by
  unfold firstUsed
  split
  · exact .pure _
  · exact .short (hm ‹_›)

theorem vacateWithin_plain (hm : mask.isEmpty = false) : Ordinary D (vacateWithin cls mask preferred) := by
  refine .bind .get fun s => ?_
  dsimp only
  split
  · exact .pure _
  refine .bind (firstUsed_plain fun h => ?_) fun index => ?_
  · exact absurd h (first?_inter_of_diff hm ‹_›)
  split
  · refine .bind .getVar fun v => ?_
    split
    · exact .bind relocateVar_plain fun _ => .pure _
    · exact .bind spillVar_plain fun _ => .pure _
  · exact .pure _

theorem vacateAny_plain [Stores E] (hs : D.shortage) : Plain D E A (vacateAny v preferred) := by
  refine .bind .get fun s => ?_
  dsimp only
  split
  · exact .pure _
  split
  · exact .pure _
  split
  · exact .pure _
  split
  · exact .short hs
  refine .bind .getVar fun w => ?_
  split
  · exact .usage rfl
  · exact .bind spillVar_plain fun _ => .pure _

theorem allocVar_plain (hs : mask.isEmpty = false ∨ D.shortage) : Ordinary D (allocVar id mask access) := by
  refine .bind .getVar fun v => .bind .get fun s => ?_
  dsimp only
  generalize (if (!mask.isEmpty) = true then mask.inter (s.ctx.allocable v.cls)
    else s.ctx.allocable v.cls) = m
  by_cases hm : m.isEmpty = true
  · rw [if_pos hm]
    exact .seq (.usage rfl) fun _ _ _ h => (usage_ok.mp h).elim
  rw [if_neg hm]
  have hm' : m.isEmpty = false := Bool.eq_false_iff.mpr hm
  split
  · split
    · split
      · exact .bind (.pure _) fun _ => .bind exchangeVar_plain fun _ => noteAccess_plain
      · refine .bind (firstUsed_plain fun h => ?_) fun _ => .bind exchangeVar_plain fun _ => noteAccess_plain
        exact absurd h (first?_inter_of_diff hm' ‹_›)
    · exact noteAccess_plain
  · have henter : ∀ index, Ordinary D (do
        if v.state = .memory && access.reads then emitLoad id index
        modifyVar id ({ · with state := .register })
        settleIn id ⟨v.cls, index⟩
        markModified ⟨v.cls, index⟩
        modifyStats fun s => { s with registersAllocated := s.registersAllocated + 1 }
        noteAccess id access : Build Unit) := fun index =>
      .when emitLoad_plain (.bind (.modifyVar (fun _ => ⟨rfl, rfl⟩) fun _ => .inr fun _ => by simp) fun _ =>
        .bind (settleIn_plain trivial) fun _ => .bind .mark fun _ =>
        .bind .stats fun _ => noteAccess_plain)
    split
    · exact .bind (vacateWithin_plain hm') henter
    · rename_i hr
      exact .bind (vacateAny_plain (hs.resolve_left (by simpa using hr))) henter

theorem retireAt_plain (hD : D.drops id) : Plain D E A (retireAt item id) := by
  refine .bind .getVar fun v => ?_
  split
  · refine .bind (unuseVar_plain fun _ => hD) fun _ => .bind .deactivate fun _ => .bind .get fun _ => ?_
    dsimp only
    split
    · refine .bind .getVar fun v => ?_
      split
      · exact .bind (.modifyVar_same (fun _ => ⟨rfl, rfl⟩) fun _ => rfl) fun _ => .modifyContext fun _ => rfl
      · exact .pure _
    · exact .pure _
  · exact .pure _

theorem retireAt_extends (h : retireAt item id s = .ok u s') : s.Extends (fun v => v = id ∧ s.LastAt item v) s' := by
  by_cases hl : s.LastAt item id
  · exact ((retireAt_plain (D := .drop fun v => v = id) rfl).extending _ _ _ h).mono fun v hv => ⟨hv, hv ▸ hl⟩
  simp only [retireAt, bind_ok, getVar_ok] at h
  obtain ⟨x, _, ⟨hx, rfl⟩, h⟩ := h
  rw [Session.LastAt, hx, Option.bind_some] at hl
  rw [if_neg hl] at h
  cases h
  exact .refl _

theorem retireActiveAt_extends (h : retireActiveAt item s = .ok u s') : s.Extends (s.LastAt item) s' := by
  simp only [retireActiveAt, bind_ok] at h
  obtain ⟨_, _, ⟨⟩, h⟩ := h
  refine forM_induct (P := fun _ t => s.Extends (s.LastAt item) t) (fun v rest t t' ht hr => ?_) h (.refl s)
  exact ht.trans ((retireAt_extends hr).mono fun w hw => ht.lastAt.mp hw.2)

theorem retireActiveAt_plain (hD : ∀ v, D.drops v) : Plain D E A (retireActiveAt item) :=
  .bind .get fun _ => .forM fun v => retireAt_plain (hD v)

end Allocator

theorem compiling_plain : Plain D E A compiling := by
  refine .bind .get fun s => ?_
  split
  · exact .pure _
  · exact .throw rfl

section Instruction

theorem claimVar_plain (hD : D.claims id) : Plain D E A (claimVar id) :=
  .bind .get fun _ => .bind .getVar fun _ => .var (fun _ => rfl) (fun _ => .inr fun h => h) fun _ => .inl hD

theorem reserve_plain : Plain D E A (reserve r) := by
  unfold reserve
  split
  · exact .bind .getVar fun _ => .modifyContext fun _ => rfl
  · exact .pure _

theorem allocRecords_plain (hD : ∀ v, D.claims v) (hs : D.shortage) : Ordinary D (allocRecords records) := by
  refine .bind (.forM fun r => claimVar_plain (hD r.var)) fun _ => .bind (.forM fun _ => reserve_plain) fun _ =>
    .bind (.forM fun r => ?_) fun _ => .bind (.modifyContext fun _ => rfl) fun _ => .forM fun r => ?_
  · split
    · exact allocVar_plain (.inr hs)
    · exact .pure _
  · split
    · exact .pure _
    · exact allocVar_plain (.inr hs)

theorem moveHome_plain [Stores E] : Plain D E A (moveHome id) := by
  refine .bind .getVar fun v => ?_
  split
  · exact .when saveVar_plain (unuseVar_plain (by simp))
  · exact unuseVar_plain (by simp)
  · exact .pure _

theorem resolveAddress_plain : Plain D E A (resolveAddress part) := by
  unfold resolveAddress
  split
  · refine .bind .getVar fun v => ?_
    split
    · exact .usage rfl
    · exact .check rfl (.pure _)
  · exact .pure _

theorem resolveOperand_plain : Plain D E A (resolveOperand o) := by
  unfold resolveOperand
  split
  · refine .bind .getVar fun v => ?_
    split
    · exact .usage rfl
    · exact .pure _
  · refine .bind resolveAddress_plain fun _ => .bind resolveAddress_plain fun _ => .bind ?_ fun _ => .pure _
    unfold resolveHomePart
    split
    · exact .bind resolveHome_plain fun _ => .pure _
    · exact .pure _
  · exact .pure _

theorem resolveAddress_yields : Yields (fun a => a.bind AddressPart.var? = none) (resolveAddress part) := by
  intro s a s' h
  match part, h with
  | some (.var id), h =>
    simp only [resolveAddress, bind_ok] at h
    obtain ⟨x, _, -, h⟩ := h
    cases hr : x.currentReg with
    | none => simp only [hr, usage_ok] at h
    | some r =>
      simp only [hr, check_ok] at h
      obtain ⟨-, ⟨⟩⟩ := h
      rfl
  | some (.reg _), h | none, h =>
    cases h
    rfl

theorem resolveHomePart_yields : Yields (fun a => ∀ v, a ≠ some (.var v)) (resolveHomePart m) := by
  rintro s a s' h v rfl
  unfold resolveHomePart at h
  cases hm : m.homeVar with
  | none =>
    simp only [hm, pure_ok] at h
    simp [Mem.homeVar, h.1] at hm
  | some id =>
    simp only [hm, bind_ok, pure_ok] at h
    obtain ⟨a, _, ha, hv, -⟩ := h
    exact resolveHome_yields _ _ _ ha v (Option.some.inj hv)

theorem resolveOperand_yields :
    Yields (fun o' => o'.Placed ∨ ∃ l, o = .label l ∧ o' = .label l) (resolveOperand o) := by
  intro s o' s' h
  cases o with
  | var v =>
    simp only [resolveOperand, bind_ok] at h
    obtain ⟨x, _, -, h⟩ := h
    cases hr : x.currentReg with
    | none => simp only [hr, usage_ok] at h
    | some r =>
      simp only [hr, pure_ok] at h
      obtain ⟨rfl, -⟩ := h
      exact .inl trivial
  | mem m =>
    simp only [resolveOperand, bind_ok] at h
    obtain ⟨base, _, hb, index, _, hi, home, _, hh, ⟨⟩⟩ := h
    have hb' := resolveAddress_yields _ _ _ hb
    have hi' := resolveAddress_yields _ _ _ hi
    refine .inl ⟨by simp_all [Mem.addressVars], ?_⟩
    match home, resolveHomePart_yields _ _ _ hh with
    | some (.var v), hv => exact absurd rfl (hv v)
    | some (.slot _), _ | some (.argument _), _ | none, _ => rfl
  | label l =>
    cases h
    exact .inr ⟨l, rfl, rfl⟩
  | reg | imm =>
    cases h
    exact .inl trivial

theorem applyDirective_plain (hD : ∀ v, D.drops v) (hs : D.shortage) : Ordinary D (applyDirective h) := by
  refine .bind .getVar fun v => ?_
  dsimp only
  split
  · exact allocVar_plain (.inr hs)
  · split
    · exact spillVar_plain
    · exact .pure _
  · split
    · exact saveVar_plain
    · exact .pure _
  · refine .when saveVar_plain ?_
    split
    · exact unuseVar_plain (by simp)
    · exact .pure _
  · exact unuseVar_plain fun _ => hD _

theorem receiveArg_plain : Ordinary D (receiveArg id) := by
  refine .bind .getVar fun v => ?_
  split
  · split
    · exact .usage rfl
    · exact .bind (.modifyVar (fun _ => ⟨rfl, rfl⟩) fun _ => .inr fun _ => by simp) fun _ => .assign trivial
  · exact .modifyVar (fun _ => ⟨rfl, rfl⟩) fun _ => .inr fun _ => by simp

end Instruction

section Call

theorem forClobbered_plain {g : VarId → Build Unit} (hg : ∀ v, Plain D E A (g v)) : Plain D E A (forClobbered p g) := by
  refine .forM fun cls => .bind .get fun s => .forM fun index => .bind .get fun t => ?_
  split
  · exact hg _
  · exact .pure _

theorem clearForCall_plain [Stores E] (hD : D.drops id) : Plain D E A (clearForCall used returns id) := by
  unfold clearForCall
  split
  · exact .pure _
  split
  · exact unuseVar_plain fun _ => hD
  · exact spillVar_plain

theorem callScratch_plain (hs : D.shortage) : Ordinary D (callScratch cls p) := by
  refine .bind .get fun s => ?_
  dsimp only
  split
  · exact .bind .mark fun _ => .pure _
  · exact .short hs

theorem passOnStack_plain (hs : D.shortage) : Ordinary D (passOnStack p o ty offset) := by
  unfold passOnStack
  split
  · refine .bind .getVar fun v => ?_
    split
    · exact .emit (by simp)
    split
    · exact .bind (callScratch_plain hs) fun _ => .bind_yields homeOperand_plain homeOperand_yields fun _ ho =>
        .emit (by simp [ho])
    · exact .pure _
  · split
    · exact .emit (by simp)
    · exact .bind (callScratch_plain hs) fun _ => .emit (by simp)
  · exact .emit (by simp)
  · exact .throw rfl
  · exact .throw rfl

theorem passStackArgs_plain (hs : D.shortage) : Ordinary D (passStackArgs p args) := by
  refine .forM fun ⟨o, info⟩ => ?_
  dsimp only
  split
  · exact passOnStack_plain hs
  · exact .pure _

theorem placeCallTarget_plain (hs : D.shortage) : Ordinary D (placeCallTarget p o) := by
  refine .bind .get fun s => .bind (.forM fun _ => allocVar_plain (.inr hs)) fun _ =>
    .bind resolveOperand_plain fun o' => ?_
  split <;> exact .pure _

theorem saveForCall_plain [Stores E] : Plain D E A (saveForCall item id) := by
  refine .bind .getVar fun v => ?_
  split
  · exact saveVar_plain
  · exact .pure _

theorem registerArgs_plain : Ordinary D (registerArgs l) := by
  induction l with
  | nil => exact .pure _
  | cons a rest ih =>
    have hload : ∀ dst source, Ordinary D (do
        let q ← registerArgs rest
        return (q.1, ⟨dst, source⟩ :: q.2) : Build (List RegMove × List ArgLoad)) :=
      fun _ _ => ih.bind fun _ => .pure _
    have hmove : ∀ (dst src : Reg), Ordinary D (do
        let q ← registerArgs rest
        return (if src = dst then q.1 else ⟨dst, src⟩ :: q.1, q.2) : Build (List RegMove × List ArgLoad)) :=
      fun _ _ => ih.bind fun _ => .pure _
    unfold registerArgs
    split
    · exact ih
    split
    · refine .bind .getVar fun v => .check rfl ?_
      split
      · exact hmove _ _
      split
      · exact hload _ _
      · exact ih
    · exact hload _ _
    · exact hmove _ _
    · exact .throw rfl
    · exact .throw rfl

theorem emitRegCopy_plain {dst src : Reg} : Ordinary D (emitRegCopy dst src) := by
  have hcopy : ∀ i ∈ [(⟨dst.cls.copyOpcode.1, [.ofReg dst dst.cls.copyOpcode.2,
    .ofReg src dst.cls.copyOpcode.2]⟩ : Instruction)],
      i.Emitted := by simp
  unfold emitRegCopy
  exact .check rfl (.bind (.emit hcopy) fun _ => .mark)

theorem emitCopyStep_plain : Ordinary D (emitCopyStep c) := by
  cases c with
  | copy dst src => exact emitRegCopy_plain
  | swap a b =>
    exact .bind (emitSwap_plain trivial trivial) fun _ =>
      .bind .mark fun _ => .mark

theorem emitArgLoad_plain : Ordinary D (emitArgLoad l) := by
  refine .bind .mark fun _ => ?_
  split
  · exact .bind .getVar fun _ => .bind_yields homeOperand_plain homeOperand_yields fun _ ho =>
      .emit (by simp [ho])
  · exact .check rfl (.emit (by simp))

theorem dropForCall_plain (hD : D.drops id) : Plain D E A (dropForCall item id) :=
  .bind .getVar fun _ => unuseVar_plain fun _ => hD

theorem receiveResult_plain (hs : D.shortage) : Ordinary D (receiveResult id r) :=
  .bind .getVar fun _ => .check rfl (allocVar_plain (.inr hs))

theorem getPrototype_plain : Plain D E A (getPrototype p) := by
  refine .bind .get fun s => .lift ?_
  unfold Session.prototype
  split
  · exact .pure _
  · exact .throw rfl

theorem placeCallTarget_yields :
    Yields (fun o' => o'.Placed ∨ ∃ l, o = .label l ∧ o' = .label l) (placeCallTarget p o) := by
  intro s o' s' h
  simp only [placeCallTarget, bind_ok] at h
  obtain ⟨_, _, ⟨⟩, _, t, -, a, u, ha, h⟩ := h
  split at h <;> cases h
  · exact .inl trivial
  · exact resolveOperand_yields _ _ _ ha

theorem Plain.emits {c : CallItem} (h : Ordinary D m) : Plain D c.Emits (fun _ => True) m :=
  h.mono (.refl D) fun _ => .inl

theorem translateCall_plain {c : CallItem} : Plain .all c.Emits (fun _ => True) (translateCall item c) := by
  refine .bind getPrototype_plain fun p => .check rfl <| .bind (.forM fun _ => claimVar_plain trivial) fun _ =>
    .bind (forClobbered_plain fun _ => clearForCall_plain trivial) fun _ => .bind (passStackArgs_plain trivial).emits fun _ =>
    .bind_yields (placeCallTarget_plain trivial).emits placeCallTarget_yields fun target ht =>
    .bind (forClobbered_plain fun _ => saveForCall_plain) fun _ => .bind registerArgs_plain.emits fun (moves, loads) => ?_
  refine .bind (.forM fun _ => emitCopyStep_plain.emits) fun _ => .bind (.forM fun _ => emitArgLoad_plain.emits) fun _ =>
    .bind (forClobbered_plain fun _ => dropForCall_plain trivial) fun _ => .bind (.emit ?_) fun _ =>
    .when (.emit (by simp [CallItem.Emits])) <| .bind (.forM fun _ => (receiveResult_plain trivial).emits) fun _ =>
    .bind (retireActiveAt_plain fun _ => trivial) fun _ => .bind .get fun _ => .pure _
  rw [forall_mem_singleton]
  rcases ht with hp | ⟨l, hl, rfl⟩
  · exact .inl (by simp [hp])
  · exact .inr ⟨l, hl, rfl⟩

end Call

section Return

theorem operandReg_plain : Plain D E A (operandReg o) := by
  unfold operandReg
  split
  · exact .bind .getVar fun _ => .pure _
  · exact .pure _
  · exact .pure _

theorem emitReturnVar_plain : Ordinary D (emitReturnVar v ty r) := by
  unfold emitReturnVar
  refine .check rfl ?_
  dsimp only
  split
  · split
    · exact .emit (by simp)
    · exact .pure _
  · split
    · exact .bind_yields homeOperand_plain homeOperand_yields fun _ ho => .emit (by simp [ho])
    · exact .pure _

theorem emitReturnValue_plain {ret : VarType × Reg} : Ordinary D (emitReturnValue o ret) := by
  refine .bind .mark fun _ => ?_
  split
  · exact .bind .getVar fun _ => emitReturnVar_plain
  · exact .check rfl (.emit (by simp))
  · split
    · exact emitRegCopy_plain
    · exact .pure _
  · exact .throw rfl
  · exact .throw rfl

theorem emitReturnPair_plain : Ordinary D (emitReturnPair a b r q) := by
  refine .bind operandReg_plain fun _ => .bind operandReg_plain fun _ => ?_
  split
  · exact .emit (by simp)
  split <;> exact .bind emitReturnValue_plain fun _ => emitReturnValue_plain

end Return

end Build

end Codegen
