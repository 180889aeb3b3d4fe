import Codegen.Allocation.Replay
import Codegen.Proofs.Order
import Mathlib.Logic.Function.Basic

/-! What the allocator holds while a function is compiled: the register file, the state of each
variable of the function, and the spill slots. Everything the allocator does is a sequence of a few
effects on it, each with the code it emits. -/
namespace Codegen
variable {access : Access} {e : Effect}

namespace Variable

/-- The part of a variable that says where its value is. -/
def core (v : Variable) : Variable :=
  { v with
    homeReg := none, priority := 0, firstItem := none, lastItem := none, firstCall := none
    workOffset := none, counts := {} }

/-- The home of the variable, if it has one. -/
def home? (v : Variable) : Option Home :=
  match v.passing, v.homeSlot with
  | .onStack offset, _ => some (.argument offset)
  | _, some slot => some (.slot slot)
  | _, none => none

@[simp] theorem core_currentReg (v : Variable) : v.core.currentReg = v.currentReg := rfl
@[simp] theorem core_home? (v : Variable) : v.core.home? = v.home? := rfl

theorem currentReg_eq_some {v : Variable} {r : Reg} :
    v.currentReg = some r ↔ v.state = .register ∧ v.reg = some r.index ∧ v.cls = r.cls := by
  unfold currentReg
  cases hs : v.state <;> cases hr : v.reg <;> simp
  constructor
  · rintro rfl
    exact ⟨rfl, rfl⟩
  · rintro ⟨hi, hc⟩
    simp_all

theorem currentReg_of_state_ne {v : Variable} (h : v.state ≠ .register) : v.currentReg = none := by
  unfold currentReg
  cases hs : v.state <;> simp_all

end Variable

/-- The allocator's holdings for one function. -/
structure Holdings where
  registers : RegFile
  /-- The variables of the function. -/
  vars : VarId → Option Variable
  slots : SlotPool
  /-- The base pointer is an ordinary register. -/
  allocableRbp : Bool

namespace Holdings

def setVar (h : Holdings) (id : VarId) (v : Variable) : Holdings :=
  { h with vars := Function.update h.vars id (some v) }

def assign (h : Holdings) (r : Reg) (id : VarId) : Holdings :=
  { h with registers := h.registers.assign r id }

def release (h : Holdings) (r : Reg) : Holdings :=
  { h with registers := h.registers.release r }

/-- Take a variable out of its register, if it is in one. -/
def vacate (h : Holdings) (id : VarId) (v : Variable) (state : VarState) : Holdings :=
  (match v.currentReg with
    | some r => h.release r
    | none => h).setVar id { v with state, reg := none, changed := false }

/-- Put a variable into a register. -/
def settle (h : Holdings) (id : VarId) (v : Variable) (i : Nat) : Holdings :=
  (h.assign ⟨v.cls, i⟩ id).setVar id { v with state := .register, reg := some i }

/-- Put a variable into another register. -/
def transfer (h : Holdings) (id : VarId) (v : Variable) (r : Reg) (i : Nat) : Holdings :=
  ((h.release r).assign ⟨v.cls, i⟩ id).setVar id { v with reg := some i }

/-- Let two variables change places. -/
def exchange (h : Holdings) (id other : VarId) (v w : Variable) (r q : Reg) : Holdings :=
  (((h.assign r other).setVar other { w with reg := some r.index }).assign q id).setVar id
    { v with reg := some q.index }

/-- May the allocator hand out the register? -/
def Usable (h : Holdings) (r : Reg) : Prop :=
  (({ allocableRbp := h.allocableRbp } : Context).allocable r.cls).contains r.index = true

end Holdings

/-- What the allocator can do to its holdings. -/
inductive Effect where
  /-- Give a variable a home. -/
  | acquire (v : VarId)
  /-- Store a variable that stays in its register. -/
  | save (v : VarId)
  /-- Move a variable to its home. -/
  | spill (v : VarId)
  /-- Expect an unused variable in its home. -/
  | await (v : VarId)
  /-- Give up the register and the value of a variable. -/
  | forget (v : VarId) (state : VarState)
  /-- Load a variable into a free register. -/
  | load (v : VarId)
  /-- Give an unused variable a free register. -/
  | enter (v : VarId)
  /-- Give a variable a free register without loading it. -/
  | reuse (v : VarId)
  /-- Copy a variable to a free register. -/
  | move (v : VarId)
  /-- Give a variable another free register without copying it. -/
  | shift (v : VarId)
  /-- Exchange the registers of two variables. -/
  | swap (v w : VarId)
  /-- Exchange the registers of two variables, of which only the second is copied. -/
  | displace (v w : VarId)
  /-- Note that the register will be newer than the home. -/
  | touch (v : VarId)
  /-- Free the home of an unused variable. -/
  | retire (v : VarId)
  /-- Emit other code. -/
  | other
  deriving DecidableEq

namespace Effect

/-- The variables that the effect changes. -/
def changes : Effect → List VarId
  | acquire v | save v | spill v | await v | forget v _ | load v | enter v | reuse v | move v
  | shift v | touch v | retire v => [v]
  | swap v w | displace v w => [v, w]
  | other => []

/-- Does the effect put a variable into a free register? -/
def settles : Effect → Bool
  | load _ | enter _ | reuse _ | move _ | shift _ => true
  | _ => false

/-- Effects that move a variable to its home. -/
def evicts (id : VarId) : Effect → Prop
  | acquire v | spill v => v = id
  | _ => False

/-- Effects that clear the register of a variable. -/
def relocates (id : VarId) : Effect → Prop
  | acquire v | spill v | move v => v = id
  | _ => False

/-- Effects that clear the register of one of some variables. -/
def clears (P : VarId → Prop) (e : Effect) : Prop := ∃ x, P x ∧ e.relocates x

/-- Effects that bring a variable to its home. -/
def homes (id : VarId) : Effect → Prop
  | acquire v | spill v | await v => v = id
  | _ => False

/-- Effects that end the life of a variable. -/
def retires (id : VarId) : Effect → Prop
  | forget v state => v = id ∧ state = .unused
  | retire v => v = id
  | _ => False

/-- Effects that give a variable the register of `o` for an access. -/
def exchanges (id : VarId) (access : Access) (o : Option VarId) : Effect → Prop
  | move v => v = id ∧ o = none
  | shift v => v = id ∧ o = none ∧ access = .write
  | swap v w => v = id ∧ o = some w
  | displace v w => v = id ∧ o = some w ∧ access = .write
  | _ => False

/-- Effects that bring a variable into a free register for an access. -/
def enters (id : VarId) (access : Access) : Effect → Prop
  | acquire v | enter v => v = id
  | load v => v = id ∧ access.reads = true
  | reuse v => v = id ∧ access = .write
  | touch v => v = id ∧ access.writes = true
  | _ => False

/-- Effects that bring a variable into a register for an access. -/
def allocates (id : VarId) (access : Access) : Effect → Prop
  | acquire _ | spill _ | move _ | swap _ _ => True
  | enter v => v = id
  | load v => v = id ∧ access.reads = true
  | reuse v | shift v | displace v _ => v = id ∧ access = .write
  | touch v => v = id ∧ access.writes = true
  | _ => False

theorem evicts.relocates {id : VarId} (h : e.evicts id) : e.relocates id := by
  cases e <;> first | exact h | exact h.elim

theorem relocates.allocates {id : VarId} (h : e.relocates x) : e.allocates id access := by
  cases e <;> trivial

theorem enters.allocates {id : VarId} (h : e.enters id access) : e.allocates id access := by
  cases e <;> trivial

theorem enters.changes {id : VarId} (h : e.enters id access) (hy : y ∈ e.changes) : y = id := by
  cases e <;> simp_all [enters, changes]

theorem clears.allocates {id : VarId} (h : e.clears P) : e.allocates id access := by
  obtain ⟨x, -, h⟩ := h
  exact h.allocates

theorem clears.changes (h : e.clears P) (hy : y ∈ e.changes) : P y := by
  obtain ⟨x, hx, h⟩ := h
  cases e <;> simp_all [relocates, changes]

theorem exchanges.changes {id : VarId} (h : e.exchanges id access o) (hy : y ∈ e.changes) : y = id ∨ o = some y := by
  cases e <;> simp_all [exchanges, changes] <;> tauto

theorem exchanges.allocates {id : VarId} (h : e.exchanges id access o) : e.allocates id access := by
  cases e <;> first | trivial | exact ⟨h.1, h.2.2⟩

theorem relocates.changes {id : VarId} (h : e.relocates id) (hx : x ≠ id) : x ∉ e.changes := by
  cases e <;> first | exact h.elim | (cases h; simpa [changes] using hx)

end Effect

/-- The instruction that copies a variable between two places. -/
def Variable.copy (v : Variable) (dst src : Operand) : Instruction := ⟨v.ty.moveOpcode, [dst, src]⟩

/-- The code that exchanges two registers that are as wide as the variable. -/
def Variable.swapCode (v : Variable) (a b : Nat) : List Instruction :=
  match v.cls with
  | .gp => [⟨.xchg, [.gpq a, .gpq b]⟩]
  | _ => [⟨.pxor, [v.regOperand a, v.regOperand b]⟩, ⟨.pxor, [v.regOperand b, v.regOperand a]⟩,
      ⟨.pxor, [v.regOperand a, v.regOperand b]⟩]

/-- The operand for a home as wide as the variable. -/
def Variable.homeOperand (v : Variable) (a : Home) : Operand := .mem (.atHome a v.size)

/-- One effect, the code it emits and the holdings behind it. -/
inductive Action (h : Holdings) : Effect → List Instruction → Holdings → Prop where
  | acquire {id : VarId} {v : Variable} (hv : h.vars id = some v) (ha : v.home? = none) :
      Action h (.acquire id) []
        ({ h with slots := (h.slots.acquire v.size).2 }.setVar id
          { v with homeSlot := some (h.slots.acquire v.size).1 })
  | save {id : VarId} {v : Variable} {r : Reg} {a : Home} (hv : h.vars id = some v)
      (hr : v.currentReg = some r) (ha : v.home? = some a) :
      Action h (.save id) [v.copy (v.homeOperand a) (v.regOperand r.index)]
        (h.setVar id { v with changed := false })
  | spill {id : VarId} {v : Variable} {r : Reg} {a : Home} (hv : h.vars id = some v)
      (hr : v.currentReg = some r) (ha : v.home? = some a) :
      Action h (.spill id)
        (if v.changed then [v.copy (v.homeOperand a) (v.regOperand r.index)] else [])
        (h.vacate id v .memory)
  | await {id : VarId} {v : Variable} (hv : h.vars id = some v) (hs : v.state = .unused) :
      Action h (.await id) [] (h.vacate id v .memory)
  | forget {id : VarId} {v : Variable} {state : VarState} (hv : h.vars id = some v)
      (hs : state ≠ .register) : Action h (.forget id state) [] (h.vacate id v state)
  | load {id : VarId} {v : Variable} {i : Nat} {a : Home} (hv : h.vars id = some v)
      (hs : v.state = .memory) (ha : v.home? = some a)
      (hf : h.registers.occupant ⟨v.cls, i⟩ = none) (hu : h.Usable ⟨v.cls, i⟩) :
      Action h (.load id) [v.copy (v.regOperand i) (v.homeOperand a)] (h.settle id v i)
  | enter {id : VarId} {v : Variable} {i : Nat} (hv : h.vars id = some v)
      (hs : v.state = .unused)
      (hf : h.registers.occupant ⟨v.cls, i⟩ = none) (hu : h.Usable ⟨v.cls, i⟩) :
      Action h (.enter id) [] (h.settle id v i)
  | reuse {id : VarId} {v : Variable} {i : Nat} (hv : h.vars id = some v)
      (hs : v.state = .memory)
      (hf : h.registers.occupant ⟨v.cls, i⟩ = none) (hu : h.Usable ⟨v.cls, i⟩) :
      Action h (.reuse id) [] (h.settle id v i)
  | move {id : VarId} {v : Variable} {r : Reg} {i : Nat} (hv : h.vars id = some v)
      (hr : v.currentReg = some r)
      (hf : h.registers.occupant ⟨v.cls, i⟩ = none) (hu : h.Usable ⟨v.cls, i⟩) :
      Action h (.move id) [v.copy (v.regOperand i) (v.regOperand r.index)] (h.transfer id v r i)
  | shift {id : VarId} {v : Variable} {r : Reg} {i : Nat} (hv : h.vars id = some v)
      (hr : v.currentReg = some r)
      (hf : h.registers.occupant ⟨v.cls, i⟩ = none) (hu : h.Usable ⟨v.cls, i⟩) :
      Action h (.shift id) [] (h.transfer id v r i)
  | swap {id other : VarId} {v w : Variable} {r q : Reg} (hv : h.vars id = some v)
      (hw : h.vars other = some w) (hr : v.currentReg = some r) (hq : w.currentReg = some q)
      (hc : r.cls = q.cls) (hne : id ≠ other) :
      Action h (.swap id other) (v.swapCode r.index q.index) (h.exchange id other v w r q)
  | displace {id other : VarId} {v w : Variable} {r q : Reg} (hv : h.vars id = some v)
      (hw : h.vars other = some w) (hr : v.currentReg = some r) (hq : w.currentReg = some q)
      (hc : r.cls = q.cls) (hne : id ≠ other) :
      Action h (.displace id other) [w.copy (w.regOperand r.index) (w.regOperand q.index)]
        (h.exchange id other v w r q)
  | touch {id : VarId} {v : Variable} {r : Reg} (hv : h.vars id = some v)
      (hr : v.currentReg = some r) :
      Action h (.touch id) [] (h.setVar id { v with changed := true })
  | retire {id : VarId} {v : Variable} {slot : SlotId} (hv : h.vars id = some v)
      (hs : v.state = .unused) (hm : v.isMemArgument = false) (ha : v.homeSlot = some slot) :
      Action h (.retire id) []
        ({ h with slots := h.slots.release slot }.setVar id { v with homeSlot := none })
  | other {code : List Instruction} : Action h .other code h

/-- A sequence of effects that `may` allows, with all the code they emit. -/
inductive Run (may : Effect → Prop) : Holdings → List Instruction → Holdings → Prop where
  | refl (h : Holdings) : Run may h [] h
  | step {h h₁ h₂ : Holdings} {e : Effect} {c c' : List Instruction} (he : may e)
      (ha : Action h e c h₁) (hr : Run may h₁ c' h₂) : Run may h (c ++ c') h₂

namespace Run
variable {may may' : Effect → Prop}

theorem single (he : may e) (ha : Action h e c h1) : Run may h c h1 := by
  simpa using Run.step he ha (.refl h1)

theorem trans (hr : Run may h c h1) (hr' : Run may h1 c' h2) : Run may h (c ++ c') h2 := by
  induction hr with
  | refl => exact hr'
  | step he ha _ ih =>
    rw [List.append_assoc]
    exact .step he ha (ih hr')

theorem mono (hm : ∀ e, may e → may' e) (hr : Run may h c h1) : Run may' h c h1 := by
  induction hr with
  | refl => exact .refl _
  | step he ha _ ih => exact .step (hm _ he) ha ih

theorem keeps {P : Holdings → Prop} (step : ∀ {h e c h'}, may e → Action h e c h' → P h → P h')
    (hr : Run may h c h1) (hp : P h) : P h1 := by
  induction hr with
  | refl => exact hp
  | step he ha _ ih => exact ih (step he ha hp)

end Run

end Codegen
