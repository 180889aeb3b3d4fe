import Codegen.Proofs.Lowering
import Codegen.Proofs.Machine

/-! The machine and the allocator. While every variable that is in use has a place of its own, the code
that the allocator emits keeps the values of the variables in the places that the allocator has for
them. -/
namespace Codegen
open List Option Variable Holdings Function Instruction
variable {h h' : Holdings} {v : Variable}
variable {may : Effect → Prop} {other : VarId} {state : VarState}

namespace SlotPool
variable {p : SlotPool} {slot : SlotId}

/-- The free slots are different slots of the pool. -/
structure Sound (p : SlotPool) : Prop where
  nodup : p.free.Nodup
  made : ∀ s ∈ p.free, s.index < p.size

/-- The slot is one of the pool and not free. -/
def Taken (p : SlotPool) (s : SlotId) : Prop := s.index < p.size ∧ s ∉ p.free

theorem acquire_sound (hp : p.Sound) (n : Nat) :
    (p.acquire n).2.Sound ∧ (p.acquire n).2.Taken (p.acquire n).1 ∧ ¬ p.Taken (p.acquire n).1 ∧
      ∀ {s}, p.Taken s → (p.acquire n).2.Taken s := by
  unfold acquire
  cases hf : p.free.find? fun s => p.slotSize? s == some n with
  | some s =>
    have hs : s ∈ p.free := mem_of_find?_eq_some hf
    have hns : s ∉ p.free.erase s := fun h => (hp.nodup.mem_erase_iff.mp h).1 rfl
    exact ⟨⟨hp.nodup.erase s, fun x hx => hp.made x (mem_of_mem_erase hx)⟩, ⟨hp.made s hs, hns⟩,
      fun h => h.2 hs, fun h => ⟨h.1, fun hx => h.2 (mem_of_mem_erase hx)⟩⟩
  | none =>
    have hsize : (p.slots.push { size := n }).size = p.size + 1 := Array.size_push ..
    have hnew : ∀ {k}, k < p.size → k < (p.slots.push { size := n }).size := fun h => by omega
    refine ⟨⟨hp.nodup, fun x hx => hnew (hp.made x hx)⟩, ⟨?_, fun h => ?_⟩, fun h => ?_, fun h => ⟨hnew h.1, h.2⟩⟩
    · change p.size < (p.slots.push { size := n }).size
      omega
    · exact Nat.lt_irrefl _ (hp.made _ h)
    · exact Nat.lt_irrefl _ h.1

theorem release_sound (hp : p.Sound) (hs : p.Taken slot) :
    (p.release slot).Sound ∧ ∀ {s}, p.Taken s → s ≠ slot → (p.release slot).Taken s := by
  have hc : p.free.contains slot = false := by simpa using hs.2
  unfold release
  rw [hc]
  refine ⟨⟨?_, ?_⟩, fun {s} h hne => ⟨h.1, ?_⟩⟩
  · refine nodup_append.mpr ⟨hp.nodup, by simp, ?_⟩
    rintro a ha b hb rfl
    cases mem_singleton.mp hb
    exact hs.2 ha
  · intro s h
    rcases mem_append.mp h with h | h
    · exact hp.made s h
    · cases mem_singleton.mp h
      exact hs.1
  · intro hm
    rcases mem_append.mp hm with hm | hm
    · exact h.2 hm
    · exact hne (mem_singleton.mp hm)

end SlotPool

namespace Holdings

/-- The home of a variable. -/
def homeOf (h : Holdings) (id : VarId) : Option Home := (h.vars id).bind home?

/-- Different variables have different homes, and their slots are not free. -/
structure Apart (h : Holdings) : Prop where
  distinct : ∀ {a b x}, h.homeOf a = some x → h.homeOf b = some x → a = b
  taken : ∀ {a s}, h.homeOf a = some (.slot s) → h.slots.Taken s
  sound : h.slots.Sound

theorem homeOf_of_vars {id : VarId} (hv : h.vars id = some v) : h.homeOf id = v.home? := by
  rw [homeOf, hv, bind_some]

theorem vacate_vars {id : VarId} : (h.vacate id v state).vars =
      update h.vars id (some { v with state, reg := none, changed := false }) := by
  unfold vacate
  cases v.currentReg <;> rfl

theorem vacate_slots {id : VarId} : (h.vacate id v state).slots = h.slots := by
  unfold vacate
  cases v.currentReg <;> rfl

theorem homeOf_update {id : VarId} (hu : h'.vars = update h.vars id (some w)) (hv : h.vars id = some v)
    (hw : w.home? = v.home?) (x : VarId) : h'.homeOf x = h.homeOf x := by
  unfold homeOf
  rw [hu]
  by_cases hx : x = id
  · subst hx
    rw [update_self, hv, bind_some, bind_some, hw]
  · rw [update_of_ne hx]

end Holdings

theorem Action.homeOf_eq (ha : Action h e c h') (hacq : ∀ v, e ≠ .acquire v) (hret : ∀ v, e ≠ .retire v) :
    (∀ x, h'.homeOf x = h.homeOf x) ∧ h'.slots = h.slots := by
  cases ha with
  | acquire => exact absurd rfl (hacq _)
  | retire => exact absurd rfl (hret _)
  | other => exact ⟨fun _ => rfl, rfl⟩
  | spill hv _ _ | await hv _ | forget hv _ =>
    exact ⟨homeOf_update vacate_vars hv rfl, vacate_slots⟩
  | save hv _ _ | touch hv _ | load hv _ _ _ _ | enter hv _ _ _ | reuse hv _ _ _ | move hv _ _ _
  | shift hv _ _ _ => exact ⟨homeOf_update rfl hv rfl, rfl⟩
  | @swap id other v w r q hv hw _ _ _ hne | @displace id other v w r q hv hw _ _ _ hne =>
    have hv' : ((h.assign r other).setVar other { w with reg := some r.index }).vars id = some v :=
      (setVar_vars_of_ne hne).trans hv
    refine ⟨fun x => (homeOf_update rfl hv' ?_ x).trans (homeOf_update rfl hw ?_ x), rfl⟩
    · rfl
    · rfl

namespace Holdings.Apart

theorem congr (hp : h.Apart) (hh : ∀ x, h'.homeOf x = h.homeOf x) (hs : h'.slots = h.slots) : h'.Apart where
  distinct ha hb := hp.distinct (hh _ ▸ ha) (hh _ ▸ hb)
  taken ha := hs ▸ hp.taken (hh _ ▸ ha)
  sound := hs ▸ hp.sound

theorem acquire {id : VarId} (hp : h.Apart) (hv : h.vars id = some v) (hn : v.home? = none) :
    (({ h with slots := (h.slots.acquire v.size).2 } : Holdings).setVar id
      { v with homeSlot := some (h.slots.acquire v.size).1 }).Apart := by
  obtain ⟨hsound, htaken, hnew, hold⟩ := SlotPool.acquire_sound hp.sound v.size
  generalize h.slots.acquire v.size = p at *
  have hhome : ∀ {y x}, (({ h with slots := p.2 } : Holdings).setVar id
      { v with homeSlot := some p.1 }).homeOf y = some x →
      (y = id ∧ x = .slot p.1) ∨ (y ≠ id ∧ h.homeOf y = some x) := by
    intro y x hy
    by_cases hid : y = id
    · subst hid
      rw [homeOf_of_vars setVar_vars_self] at hy
      refine .inl ⟨rfl, ?_⟩
      revert hy hn
      unfold home?
      cases v.passing <;> simp +contextual [eq_comm]
    · simp only [homeOf, setVar_vars_of_ne hid] at hy
      exact .inr ⟨hid, hy⟩
  refine ⟨fun {a b x} ha hb => ?_, fun {a s} ha => ?_, hsound⟩
  · rcases hhome ha with ⟨rfl, rfl⟩ | ⟨-, ha'⟩ <;> rcases hhome hb with ⟨rfl, hx⟩ | ⟨-, hb'⟩
    · rfl
    · exact absurd (hp.taken hb') hnew
    · exact absurd (hp.taken (hx ▸ ha')) hnew
    · exact hp.distinct ha' hb'
  · rcases hhome ha with ⟨rfl, hx⟩ | ⟨-, ha⟩
    · cases hx
      exact htaken
    · exact hold (hp.taken ha)

theorem retire {id : VarId} (hp : h.Apart) (hv : h.vars id = some v)
    (hm : v.isMemArgument = false) (hs : v.homeSlot = some slot) :
    (({ h with slots := h.slots.release slot } : Holdings).setVar id { v with homeSlot := none }).Apart := by
  have hslot : h.homeOf id = some (.slot slot) := by
    rw [homeOf_of_vars hv]
    revert hm hs
    unfold home? isMemArgument
    cases v.passing <;> simp +contextual
  obtain ⟨hsound, hold⟩ := SlotPool.release_sound hp.sound (hp.taken hslot)
  have hhome : ∀ {y x}, (({ h with slots := h.slots.release slot } : Holdings).setVar id
      { v with homeSlot := none }).homeOf y = some x → y ≠ id ∧ h.homeOf y = some x := by
    intro y x hy
    by_cases hid : y = id
    · subst hid
      rw [homeOf_of_vars setVar_vars_self] at hy
      revert hy hm
      unfold home? isMemArgument
      cases v.passing <;> simp
    · simp only [homeOf, setVar_vars_of_ne hid] at hy
      exact ⟨hid, hy⟩
  refine ⟨fun ha hb => hp.distinct (hhome ha).2 (hhome hb).2, fun {a s} ha => ?_, hsound⟩
  obtain ⟨hid, ha⟩ := hhome ha
  exact hold (hp.taken ha) fun hs => hid (hp.distinct (hs ▸ ha) hslot)

theorem action (hp : h.Apart) (ha : Action h e c h') : h'.Apart := by
  by_cases hacq : ∃ v, e = .acquire v
  · obtain ⟨id, rfl⟩ := hacq
    cases ha with
    | acquire hv hn => exact hp.acquire hv hn
  by_cases hret : ∃ v, e = .retire v
  · obtain ⟨id, rfl⟩ := hret
    cases ha with
    | retire hv _ hm hs => exact hp.retire hv hm hs
  obtain ⟨hh, hs⟩ := ha.homeOf_eq (fun v e => hacq ⟨v, e⟩) (fun v e => hret ⟨v, e⟩)
  exact hp.congr hh hs

theorem run (hp : h.Apart) (hr : Run may h c h') : h'.Apart := hr.keeps (fun _ ha hp => hp.action ha) hp

end Holdings.Apart

section Agree
variable {m : Place → BitVec w}
variable {live : VarId → Prop} {id : VarId}

namespace Variable

/-- The place where the variable is. -/
def place? (v : Variable) : Option Place :=
  match v.state with
  | .register => v.currentReg.map .reg
  | .memory => v.home?.map .home
  | .unused => none

/-- The machine has the value of the variable where the variable is, and in its home too unless the
register is newer. -/
structure Holds (m : Place → BitVec w) (x : BitVec w) (v : Variable) : Prop where
  here : ∃ p, v.place? = some p ∧ m p = x
  backed : v.state = .register → v.changed = false → ∃ a, v.home? = some a ∧ m (.home a) = x

/-- The variable may have its value in the place. -/
def Uses (v : Variable) (p : Place) : Prop := v.place? = some p ∨ v.home?.map .home = some p

theorem place?_of_currentReg (hr : v.currentReg = some r) : v.place? = some (.reg r) := by
  rw [place?, (currentReg_eq_some.mp hr).1, hr, map_some]

theorem place?_of_memory (hs : v.state = .memory) (ha : v.home? = some a) : v.place? = some (.home a) := by
  rw [place?, hs, ha, map_some]

theorem place?_eq_reg : v.place? = some (.reg r) ↔ v.currentReg = some r := by
  refine ⟨fun h => ?_, place?_of_currentReg⟩
  unfold place? at h
  cases hs : v.state with
  | register =>
    simp only [hs, map_eq_some_iff, Place.reg.injEq] at h
    obtain ⟨_, h, rfl⟩ := h
    exact h
  | memory | unused => simp [hs] at h

section
variable (hx : v.Holds m x)
include hx

theorem Holds.frame (hm : ∀ p, v.Uses p → m' p = m p) : v.Holds m' x := by
  obtain ⟨⟨p, hp, hv⟩, hb⟩ := hx
  refine ⟨⟨p, hp, (hm p (.inl hp)).trans hv⟩, fun hs hc => ?_⟩
  obtain ⟨a, ha, hv⟩ := hb hs hc
  exact ⟨a, ha, (hm _ (.inr (by rw [ha, map_some]))).trans hv⟩

theorem Holds.used : v.state ≠ .unused := by
  obtain ⟨⟨p, hp, -⟩, -⟩ := hx
  intro hs
  simp [place?, hs] at hp

theorem Holds.in_reg (hr : v.currentReg = some r) : m (.reg r) = x := by
  obtain ⟨⟨p, hp, hv⟩, -⟩ := hx
  rw [place?_of_currentReg hr] at hp
  cases hp
  exact hv

theorem Holds.in_home (hs : v.state = .memory) (ha : v.home? = some a) : m (.home a) = x := by
  obtain ⟨⟨p, hp, hv⟩, -⟩ := hx
  rw [place?_of_memory hs ha] at hp
  cases hp
  exact hv

theorem Holds.homeless (hn : v.home? = none) : (∃ r, v.currentReg = some r) ∧ v.changed = true := by
  have hs : v.state = .register := by
    obtain ⟨⟨p, hp, -⟩, -⟩ := hx
    unfold place? at hp
    cases hs : v.state <;> simp_all
  refine ⟨?_, ?_⟩
  · obtain ⟨⟨p, hp, -⟩, -⟩ := hx
    rw [place?, hs] at hp
    obtain ⟨r, hr, -⟩ := map_eq_some_iff.mp hp
    exact ⟨r, hr⟩
  · by_contra hc
    obtain ⟨a, ha, -⟩ := hx.backed hs (by simpa using hc)
    cases hn ▸ ha

end

theorem reg_eq (hr : v.currentReg = some r) : (⟨v.cls, r.index⟩ : Reg) = r := by
  rw [(currentReg_eq_some.mp hr).2.2]

theorem Holds.of_reg (hr : v.currentReg = some r) (hx : m (.reg r) = x)
    (hc : v.changed = false → ∃ a, v.home? = some a ∧ m (.home a) = x) : v.Holds m x :=
  ⟨⟨_, place?_of_currentReg hr, hx⟩, fun _ => hc⟩

theorem Holds.of_home (hs : v.state = .memory) (ha : v.home? = some a) (hx : m (.home a) = x) : v.Holds m x :=
  ⟨⟨_, place?_of_memory hs ha, hx⟩, fun h => by rw [hs] at h; cases h⟩

end Variable

theorem Coherent.index_ne (hc : Coherent h) (hv : h.vars id = some v)
    (hu : h.vars other = some u) (hr : v.currentReg = some r) (hq : u.currentReg = some q) (hcls : r.cls = q.cls)
    (hne : id ≠ other) : r.index ≠ q.index := by
  intro hi
  have hrq : r = q := by cases r; cases q; simp_all
  have ho := hc.occupant_of_currentReg hv hr
  rw [hrq, hc.occupant_of_currentReg hu hq] at ho
  exact hne (some.inj ho).symm

theorem Coherent.occupant_of_uses (hc : Coherent h) (hv : h.vars id = some v)
    (hu : v.Uses (.reg r)) : h.registers.occupant r = some id := by
  rcases hu with hu | hu
  · exact hc.occupant_of_currentReg hv (place?_eq_reg.mp hu)
  · obtain ⟨_, _, hu⟩ := map_eq_some_iff.mp hu
    cases hu

theorem Holdings.homeOf_of_uses (hv : h.vars id = some v) (hu : v.Uses (.home a)) : h.homeOf id = some a := by
  rw [homeOf_of_vars hv]
  rcases hu with hu | hu
  · unfold place? at hu
    cases hs : v.state <;> simp [hs] at hu
    exact hu
  · obtain ⟨_, ha, hu⟩ := map_eq_some_iff.mp hu
    cases hu
    exact ha

/-- The machine has the values of the live variables where the allocator expects them. -/
def Agree (live : VarId → Prop) (h : Holdings) (m : Place → BitVec w) (σ : VarId → Option (BitVec w)) :
    Prop :=
  ∀ id x, live id → σ id = some x → ∃ v, h.vars id = some v ∧ v.Holds m x

/-- Effects after which the value of a variable is lost. -/
def Effect.loses : Effect → VarId → Prop
  | forget v _, id | reuse v, id | shift v, id | displace v _, id => id = v
  | _, _ => False

theorem Variable.place?_regOperand (v : Variable) (i : Nat) : (v.regOperand i).place? = some (.reg ⟨v.cls, i⟩) := rfl

theorem Variable.home?_ne_var (v : Variable) : v.home? ≠ some (.var y) := by
  unfold home?
  cases v.passing <;> cases v.homeSlot <;> simp

theorem Variable.place?_homeOperand (ha : v.home? = some a) : (v.homeOperand a).place? = some (.home a) := by
  cases a with
  | var y => exact absurd ha v.home?_ne_var
  | slot | argument => rfl

theorem Variable.exec_copy (ht : v.ty.cls = some v.cls)
    (hd : d.place? = some p) (hs : s.place? = some q) :
    (v.copy d s).exec m = some (update m p (m q)) := by
  unfold copy exec
  simp only [hd, hs, bind_eq_bind, bind_some]
  revert ht
  cases v.ty <;> simp [VarType.moveOpcode, Opcode.isCopy, VarType.cls]

private theorem xor_swap (hpq : p ≠ q) : ∃ m1 m2, m1 = update m p (m p ^^^ m q) ∧ m2 = update m1 q (m1 q ^^^ m1 p) ∧
      update m2 p (m2 p ^^^ m2 q) = update (update m p (m q)) q (m p) := by
  have hxor : ∀ a b : BitVec w, b ^^^ (a ^^^ b) = a := by
    intro a b
    rw [BitVec.xor_comm a b, ← BitVec.xor_assoc, BitVec.xor_self, BitVec.zero_xor]
  refine ⟨_, _, rfl, rfl, ?_⟩
  funext z
  by_cases hz : z = p
  · subst hz
    simp only [update_self, update_of_ne hpq, update_of_ne hpq.symm, hxor]
    rw [BitVec.xor_comm, BitVec.xor_comm (m z) (m q), hxor]
  by_cases hq : z = q
  · subst hq
    simp only [update_self, update_of_ne hpq.symm, hxor]
  · simp only [update_of_ne hz, update_of_ne hq]

theorem Instruction.execAll_xors (hx : x.place? = some p) (hy : y.place? = some q)
    (hpq : p ≠ q) : execAll [⟨.pxor, [x, y]⟩, ⟨.pxor, [y, x]⟩, ⟨.pxor, [x, y]⟩] m =
      some (update (update m p (m q)) q (m p)) := by
  obtain ⟨m1, m2, rfl, rfl, hswap⟩ := xor_swap hpq
  simp only [execAll, exec, hx, hy, bind_eq_bind, bind_some]
  exact congrArg some hswap

theorem Variable.execAll_swapCode (hab : a ≠ b) : execAll (v.swapCode a b) m =
      some (update (update m (.reg ⟨v.cls, a⟩) (m (.reg ⟨v.cls, b⟩))) (.reg ⟨v.cls, b⟩) (m (.reg ⟨v.cls, a⟩))) := by
  have hxor := execAll_xors (m := m) (v.place?_regOperand a) (v.place?_regOperand b) (by simp [hab])
  unfold swapCode
  cases hc : v.cls with
  | gp => rfl
  | mm | xmm =>
    rwa [hc] at hxor

theorem Agree.change (hg : Agree live h m σ) (ha : Action h e c h')
    (hrest : ∀ y u, y ∉ e.changes → h.vars y = some u → ∀ p, u.Uses p → m' p = m p)
    (hself : ∀ y ∈ e.changes, ∀ u x, h.vars y = some u → live y → σ y = some x → u.Holds m x →
      ∃ u', h'.vars y = some u' ∧ u'.Holds m' x) : Agree live h' m' σ := by
  intro y x hl hx
  obtain ⟨u, hu, hh⟩ := hg y x hl hx
  by_cases hy : y ∈ e.changes
  · exact hself y hy u x hu hl hx hh
  · exact ⟨u, (ha.vars_eq hy).trans hu, hh.frame (hrest y u hy hu)⟩

theorem Agree.silent (hg : Agree live h m σ) (ha : Action h e [] h') (he : e.changes = [id])
    (hv : h.vars id = some v) (hself : ∀ x, live id → σ id = some x → v.Holds m x →
      ∃ v', h'.vars id = some v' ∧ v'.Holds m x) :
    ∃ m', execAll [] m = some m' ∧ Agree live h' m' σ := by
  refine ⟨m, rfl, hg.change ha (fun _ _ _ _ _ _ => rfl) fun y hy u x hu hl hx hh => ?_⟩
  rw [he] at hy
  cases mem_singleton.mp hy
  cases hv ▸ hu
  exact hself x hl hx hh

theorem Agree.copying (hg : Agree live h m σ)
    (ha : Action h e [i] h') (he : e.changes = [id]) (hv : h.vars id = some v)
    (hi : i.exec m = some (update m p (m q)))
    (hfree : ∀ y u, y ≠ id → h.vars y = some u → ¬ u.Uses p)
    (hself : ∀ x, live id → σ id = some x → v.Holds m x → ∃ v', h'.vars id = some v' ∧ v'.Holds (update m p (m q)) x) :
    ∃ m', execAll [i] m = some m' ∧ Agree live h' m' σ := by
  refine ⟨_, by rw [execAll, hi]; rfl, hg.change ha ?_ fun y hy u x hu hl hx hh => ?_⟩
  · intro y u hy hu z hz
    rw [he] at hy
    refine update_of_ne ?_ _ _
    rintro rfl
    exact hfree y u (fun e => hy (mem_singleton.mpr e)) hu hz
  · rw [he] at hy
    cases mem_singleton.mp hy
    cases hv ▸ hu
    exact hself x hl hx hh

private theorem home_free (hp : h.Apart) (hv : h.vars id = some v) (ha : v.home? = some a) :
    ∀ y u, y ≠ id → h.vars y = some u → ¬ u.Uses (.home a) := by
  intro y u hy hu huse
  exact hy (hp.distinct (homeOf_of_uses hu huse) ((homeOf_of_vars hv).trans ha))

private theorem reg_free (hc : Coherent h) (hr : ∀ y, y ≠ id → h.registers.occupant r ≠ some y) :
    ∀ y u, y ≠ id → h.vars y = some u → ¬ u.Uses (.reg r) := by
  intro y u hy hu huse
  exact hr y hy (hc.occupant_of_uses hu huse)

private theorem backed_update (hh : v.Holds m x) (hs : v.state = .register) (hch : v.changed = false) :
    ∃ a, v.home? = some a ∧ update m (.reg r) b (.home a) = x := by
  obtain ⟨a, ha, hx⟩ := hh.backed hs hch
  exact ⟨a, ha, (update_of_ne (by simp) _ _).trans hx⟩

/-- An effect that lets two variables change places. -/
private theorem Agree.exchanged
    (hc : Coherent h) (hg : Agree live h m σ) (ha : Action h e c (h.exchange id other v u r q))
    (he : e.changes = [id, other]) (hv : h.vars id = some v) (hu : h.vars other = some u)
    (hr : v.currentReg = some r) (hq : u.currentReg = some q) (hcls : r.cls = q.cls) (hne : id ≠ other)
    (hout : ∀ p, p ≠ .reg r → p ≠ .reg q → m' p = m p)
    (hid : ∀ x, live id → σ id = some x → m (.reg r) = x → m' (.reg q) = x)
    (hother : m' (.reg r) = m (.reg q)) : Agree live (h.exchange id other v u r q) m' σ := by
  obtain ⟨hsv, -, hvc⟩ := currentReg_eq_some.mp hr
  obtain ⟨hsu, -, huc⟩ := currentReg_eq_some.mp hq
  have backed : ∀ {y : Variable} {x}, y.Holds m x → y.state = .register → y.changed = false →
      ∃ a, y.home? = some a ∧ m' (.home a) = x := by
    intro y x hh hs hch
    obtain ⟨a, ha, hx⟩ := hh.backed hs hch
    exact ⟨a, ha, (hout _ (by simp) (by simp)).trans hx⟩
  refine hg.change ha (fun y z hy hz p hp => ?_) fun y hy z x hz hl hx hh => ?_
  · rw [he, mem_cons, mem_singleton, not_or] at hy
    refine hout p ?_ ?_ <;> rintro rfl
    · have := hc.occupant_of_uses hz hp
      rw [hc.occupant_of_currentReg hv hr] at this
      exact hy.1 (some.inj this).symm
    · have := hc.occupant_of_uses hz hp
      rw [hc.occupant_of_currentReg hu hq] at this
      exact hy.2 (some.inj this).symm
  · rw [he, mem_cons, mem_singleton] at hy
    rcases hy with rfl | rfl
    · cases hv ▸ hz
      refine ⟨_, setVar_vars_self, .of_reg ?_ (hid x hl hx (hh.in_reg hr)) fun hch => ?_⟩
      · rw [currentReg_eq_some]
        exact ⟨hsv, rfl, hvc.trans hcls⟩
      · exact backed (y := v) hh hsv hch
    cases hu ▸ hz
    refine ⟨_, (setVar_vars_of_ne hne.symm).trans setVar_vars_self,
      .of_reg ?_ (hother.trans (hh.in_reg hq)) fun hch => ?_⟩
    · rw [currentReg_eq_some]
      exact ⟨hsu, rfl, huc.trans hcls.symm⟩
    · exact backed (y := u) hh hsu hch

/-- The code of an effect keeps the machine and the allocator in agreement, but for the value that the
effect loses. -/
theorem Agree.action (hc : Coherent h) (hp : h.Apart)
    (ha : Action h e c h') (ho : e ≠ .other) (hl : ∀ y, e.loses y → live y → σ y = none)
    (hg : Agree live h m σ) : ∃ m', execAll c m = some m' ∧ Agree live h' m' σ := by
  have lost : ∀ {y x}, e.loses y → live y → σ y = some x → False := by
    intro y x he hy hx
    rw [hl y he hy] at hx
    cases hx
  have hact := ha
  cases ha with
  | other => exact absurd rfl ho
  | forget hv _ | reuse hv _ _ _ | shift hv _ _ _ => exact hg.silent hact rfl hv fun x hy hx _ => (lost rfl hy hx).elim
  | await hv hs | enter hv hs _ _ | retire hv hs _ _ => exact hg.silent hact rfl hv fun x _ _ hh => absurd hs hh.used
  | touch hv hr =>
    exact hg.silent hact rfl hv fun x _ _ hh =>
      ⟨_, setVar_vars_self, .of_reg hr (hh.in_reg hr) (by simp)⟩
  | @acquire id v hv hn =>
    refine hg.silent hact rfl hv fun x _ _ hh => ⟨_, setVar_vars_self, ?_⟩
    obtain ⟨⟨r, hr⟩, hch⟩ := hh.homeless hn
    exact .of_reg hr (hh.in_reg hr) fun hf => by simp [hch] at hf
  | @save id v r a hv hr ha =>
    refine hg.copying hact rfl hv (exec_copy (hc.typed hv) (place?_homeOperand ha)
      (place?_regOperand v r.index)) (home_free hp hv ha) fun x _ _ hh => ?_
    rw [reg_eq hr, hh.in_reg hr]
    refine ⟨_, setVar_vars_self, .of_reg hr ?_ fun _ => ⟨a, ha, update_self ..⟩⟩
    exact (update_of_ne (by simp) _ _).trans (hh.in_reg hr)
  | @spill id v r a hv hr ha =>
    have hout : (h.vacate id v .memory).vars id = some { v with state := .memory, reg := none, changed := false } := by
      rw [vacate_vars, update_self]
    cases hch : v.changed with
    | false =>
      simp only [hch] at hact
      refine hg.silent hact rfl hv fun x _ _ hh => ⟨_, hout, .of_home rfl ha ?_⟩
      obtain ⟨b, hb, hx⟩ := hh.backed (currentReg_eq_some.mp hr).1 hch
      cases ha ▸ hb
      exact hx
    | true =>
      simp only [hch] at hact
      refine hg.copying hact rfl hv (exec_copy (hc.typed hv) (place?_homeOperand ha)
        (place?_regOperand v r.index)) (home_free hp hv ha) fun x _ _ hh => ?_
      rw [reg_eq hr, hh.in_reg hr]
      exact ⟨_, hout, .of_home rfl ha (update_self ..)⟩
  | @load id v i a hv hs ha hf hu =>
    refine hg.copying hact rfl hv (exec_copy (hc.typed hv) (place?_regOperand v i)
      (place?_homeOperand ha)) (reg_free hc fun y _ => by simp [hf]) fun x _ _ hh => ?_
    rw [hh.in_home hs ha]
    refine ⟨_, setVar_vars_self, .of_reg rfl (update_self ..) fun _ => ?_⟩
    exact ⟨a, ha, (update_of_ne (by simp) _ _).trans (hh.in_home hs ha)⟩
  | @move id v r i hv hr hf hu =>
    have hs : v.state = .register := (currentReg_eq_some.mp hr).1
    refine hg.copying hact rfl hv (exec_copy (hc.typed hv) (place?_regOperand v i)
      (place?_regOperand v r.index)) (reg_free hc fun y _ => by simp [hf]) fun x _ _ hh => ?_
    rw [reg_eq hr, hh.in_reg hr]
    refine ⟨_, setVar_vars_self, .of_reg ?_ (update_self ..) fun hch => ?_⟩
    · simp [currentReg, hs]
    · exact backed_update (v := v) hh hs hch
  | @swap id other v u r q hv hu hr hq hcls hne =>
    have hidx := hc.index_ne hv hu hr hq hcls hne
    have hrq : Place.reg r ≠ .reg q := fun h => hidx (by cases h; rfl)
    have hq' : (⟨v.cls, q.index⟩ : Reg) = q := by
      rw [(currentReg_eq_some.mp hr).2.2, hcls]
    refine ⟨_, execAll_swapCode hidx, ?_⟩
    rw [reg_eq hr, hq']
    refine hg.exchanged hc hact rfl hv hu hr hq hcls hne (fun p hpr hpq => ?_) (fun x _ _ hx => ?_) ?_
    · rw [update_of_ne hpq, update_of_ne hpr]
    · rw [update_self, hx]
    · rw [update_of_ne hrq, update_self]
  | @displace id other v u r q hv hu hr hq hcls hne =>
    have hr' : (⟨u.cls, r.index⟩ : Reg) = r := by
      rw [(currentReg_eq_some.mp hq).2.2, ← hcls]
    refine ⟨_, by rw [execAll, exec_copy (hc.typed hu)
      (place?_regOperand u r.index) (place?_regOperand u q.index)]; rfl, ?_⟩
    rw [reg_eq hq, hr']
    refine hg.exchanged hc hact rfl hv hu hr hq hcls hne (fun p hpr _ => update_of_ne hpr _ _)
      (fun x hy hx _ => (lost rfl hy hx).elim) (update_self ..)

theorem Agree.mono (hg : Agree live h m σ) (hl : ∀ y, live' y → live y) :
    Agree live' h m σ := fun y x hy hx => hg y x (hl y hy) hx

theorem Agree.run (hc : Coherent h) (hp : h.Apart)
    (hr : Run may h c h') (ho : ¬ may .other) (hl : ∀ e y, may e → e.loses y → live y → σ y = none)
    (hg : Agree live h m σ) : ∃ m', execAll c m = some m' ∧ Agree live h' m' σ := by
  induction hr generalizing m with
  | refl => exact ⟨m, rfl, hg⟩
  | step he ha _ ih =>
    obtain ⟨m1, hm1, hg1⟩ := hg.action hc hp ha (fun h => ho (h ▸ he)) fun y => hl _ y he
    obtain ⟨m2, hm2, hg2⟩ := ih (hc.action ha) (hp.action ha) hg1
    exact ⟨m2, by rw [execAll_append, hm1]; exact hm2, hg2⟩

end Agree

end Codegen
