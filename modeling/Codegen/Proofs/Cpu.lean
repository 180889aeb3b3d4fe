import Codegen.Frame.Code
import Mathlib.Algebra.Group.Int.Defs
import Mathlib.Algebra.Group.Nat.Defs
import Mathlib.Logic.Function.Basic

/-! A processor whose registers have their real widths and whose memory is addressed by bytes. It runs
the instructions that enter and leave a frame. -/
namespace Codegen
open Function
variable {hi lo : Int} {m : Memory}

theorem Reg.gp_inj : Reg.gp i = Reg.gp j ↔ i = j := by
  simp [Reg.gp]

/-- Bytes of a register. -/
def RegClass.bytes : RegClass → Nat
  | .gp => 8
  | .mm => 8
  | .xmm => 16

/-- Does the opcode copy whole registers of the class? Whether it checks alignment does not matter here. -/
def Opcode.movesWhole : Opcode → RegClass → Bool
  | .mov, .gp => true
  | .movq, .mm => true
  | .movdqa, .xmm => true
  | .movdqu, .xmm => true
  | _, _ => false

abbrev Memory := BitVec 64 → BitVec 8

namespace Memory

/-- Is `x` one of the `n` bytes from `a` on? Addresses wrap around. -/
def Within (a : BitVec 64) (n : Nat) (x : BitVec 64) : Prop := (x - a).toNat < n

instance (a : BitVec 64) (n : Nat) (x : BitVec 64) : Decidable (Within a n x) := inferInstanceAs (Decidable (_ < _))

/-- The number in the `n` bytes from `a` on, the lowest byte first. -/
def load (m : Memory) (a : BitVec 64) : (n : Nat) → BitVec (8 * n)
  | 0 => 0#0
  | n + 1 => load m (a + 1#64) n ++ m a

def store (m : Memory) (a : BitVec 64) (n : Nat) (v : BitVec (8 * n)) : Memory := fun x =>
  if Within a n x then v.extractLsb' (8 * (x - a).toNat) 8 else m x

/-- The `n` words from `a` on. -/
def words (m : Memory) (a : BitVec 64) : Nat → List (BitVec 64)
  | 0 => []
  | n + 1 => m.load a 8 :: words m (a + 8#64) n

theorem within_succ (hn : n < 2 ^ 64) (h : Within (a + 1#64) n x) : Within a (n + 1) x := by
  unfold Within at *
  bv_omega

theorem within_self (a : BitVec 64) (n : Nat) : Within a (n + 1) a := by
  simp [Within]

/-! Ranges are compared by their distances from one address. -/

section
variable (h : Within (t + BitVec.ofInt 64 o) n x)
include h

theorem not_within_below
    (hle : hi ≤ o) (hspan : o + n - lo ≤ 2 ^ 64) : ¬ Within (t + BitVec.ofInt 64 lo) (hi - lo).toNat x := by
  unfold Within at *
  bv_omega

theorem not_within_above
    (hle : o + n ≤ lo) (hspan : hi - o ≤ 2 ^ 64) : ¬ Within (t + BitVec.ofInt 64 lo) (hi - lo).toNat x := by
  unfold Within at *
  bv_omega

theorem within_of_le (hlo : lo ≤ o) (hhi : o + n ≤ hi) (hspan : hi - lo ≤ 2 ^ 64) : Within (t + BitVec.ofInt 64 lo)
    (hi - lo).toNat x := by
  unfold Within at *
  bv_omega

end

theorem load_congr {m' : Memory} (hn : n ≤ 2 ^ 64) (h : ∀ x, Within a n x → m' x = m x) : m'.load a n = m.load a n := by
  induction n generalizing a with
  | zero => rfl
  | succ n ih =>
    have hrest := ih (by omega) fun x hx => h x (within_succ (by omega) hx)
    simp only [load, hrest, h a (within_self a n)]

theorem words_congr {m' : Memory} (hn : 8 * n ≤ 2 ^ 64)
    (h : ∀ x, Within a (8 * n) x → m' x = m x) : m'.words a n = m.words a n := by
  induction n generalizing a with
  | zero => rfl
  | succ n ih =>
    have hfirst : m'.load a 8 = m.load a 8 := load_congr (by omega) fun x hx => h x (by unfold Within at *; omega)
    have hrest := ih (a := a + 8#64) (by omega) fun x hx => h x (by unfold Within at *; bv_omega)
    simp only [words, hfirst, hrest]

theorem words_append (m : Memory) (a : BitVec 64) (n k : Nat) :
    m.words a (n + k) = m.words a n ++ m.words (a + BitVec.ofNat 64 (8 * n)) k := by
  induction n generalizing a with
  | zero => simp [words]
  | succ n ih =>
    have hshift : a + 8#64 + BitVec.ofNat 64 (8 * n) = a + BitVec.ofNat 64 (8 * (n + 1)) := by
      bv_omega
    rw [Nat.succ_add, words, ih, hshift]
    rfl

theorem getLsbD_load (m : Memory) (a : BitVec 64) (n i : Nat) (hi : i < 8 * n) :
    (m.load a n).getLsbD i = (m (a + BitVec.ofNat 64 (i / 8))).getLsbD (i % 8) := by
  induction n generalizing a i with
  | zero => omega
  | succ n ih =>
    rw [load, BitVec.getLsbD_append]
    by_cases h : i < 8
    · have h0 : i / 8 = 0 := by omega
      simp [h, h0, Nat.mod_eq_of_lt h]
    have hr : i % 8 = (i - 8) % 8 := by omega
    have hshift : a + 1#64 + BitVec.ofNat 64 ((i - 8) / 8) = a + BitVec.ofNat 64 (i / 8) := by
      bv_omega
    rw [if_neg h, ih _ _ (by omega), hshift, hr]

theorem load_store_self (m : Memory) (a : BitVec 64) (hn : n ≤ 2 ^ 64) (v : BitVec (8 * n)) :
    (m.store a n v).load a n = v := by
  refine BitVec.eq_of_getLsbD_eq fun i hi => ?_
  have hoff : (a + BitVec.ofNat 64 (i / 8) - a).toNat = i / 8 := by
    bv_omega
  have hin : Within a n (a + BitVec.ofNat 64 (i / 8)) := by
    unfold Within
    omega
  rw [getLsbD_load _ _ _ _ hi, store, if_pos hin, hoff, BitVec.getLsbD_extractLsb']
  simp [Nat.div_add_mod, Nat.mod_lt]

theorem store_apply_of_not_within (v : BitVec (8 * n)) (h : ¬ Within a n x) : m.store a n v x = m x := if_neg h

end Memory

/-- Registers, memory and the address of the next instruction. -/
structure Cpu where
  regs : (r : Reg) → BitVec (8 * r.cls.bytes)
  mem : Memory
  rip : BitVec 64

namespace Cpu

def gp (c : Cpu) (index : Nat) : BitVec 64 := c.regs (.gp index)

abbrev rsp (c : Cpu) : BitVec 64 := c.gp Gp.rsp

abbrev rbp (c : Cpu) : BitVec 64 := c.gp Gp.rbp

def setReg (c : Cpu) (r : Reg) (v : BitVec (8 * r.cls.bytes)) : Cpu :=
  { c with regs := update c.regs r v }

def setGp (c : Cpu) (index : Nat) (v : BitVec 64) : Cpu := c.setReg (.gp index) v

def push (c : Cpu) (v : BitVec 64) : Cpu :=
  { c with mem := c.mem.store (c.rsp - 8#64) 8 v }.setGp Gp.rsp (c.rsp - 8#64)

/-- The top of the stack goes to a register, behind the move of the stack pointer. -/
def pop (c : Cpu) (index : Nat) : Cpu :=
  (c.setGp Gp.rsp (c.rsp + 8#64)).setGp index (c.mem.load c.rsp 8)

/-- The address of a memory operand with a base register and nothing to scale. -/
def address? (c : Cpu) (m : Mem) : Option (BitVec 64) :=
  match m.base, m.index, m.home with
  | some (.reg ⟨.gp, index⟩), none, none => some (c.gp index + BitVec.ofInt 64 m.disp)
  | _, _, _ => none

/-- One instruction. There is no result for what frames do not use. -/
def step (c : Cpu) (i : Instruction) : Option Cpu :=
  match i.opcode, i.operands with
  | .push, [.reg ⟨⟨.gp, index⟩, 8⟩] => some (c.push (c.gp index))
  | .pop, [.reg ⟨⟨.gp, index⟩, 8⟩] => some (c.pop index)
  | .add, [.reg ⟨⟨.gp, index⟩, 8⟩, .imm k] => some (c.setGp index (c.gp index + BitVec.ofInt 64 k))
  | .sub, [.reg ⟨⟨.gp, index⟩, 8⟩, .imm k] => some (c.setGp index (c.gp index - BitVec.ofInt 64 k))
  | .and, [.reg ⟨⟨.gp, index⟩, 8⟩, .imm k] => some (c.setGp index (c.gp index &&& BitVec.ofInt 64 k))
  | .leave, [] => some ((c.setGp Gp.rsp c.rbp).pop Gp.rbp)
  | .emms, [] | .sfence, [] | .lfence, [] | .mfence, [] => some c
  | .ret, [] => some ({ c with rip := c.mem.load c.rsp 8 }.setGp Gp.rsp (c.rsp + 8#64))
  | .ret, [.imm k] => some ({ c with rip := c.mem.load c.rsp 8 }.setGp Gp.rsp (c.rsp + 8#64 + BitVec.ofInt 64 k))
  | .mov, [.reg ⟨⟨.gp, d⟩, 8⟩, .reg ⟨⟨.gp, s⟩, 8⟩] => some (c.setGp d (c.gp s))
  | op, [.mem m, .reg ⟨r, n⟩] => do
    guard (op.movesWhole r.cls ∧ n = r.cls.bytes ∧ m.size = n)
    return { c with mem := c.mem.store (← c.address? m) r.cls.bytes (c.regs r) }
  | op, [.reg ⟨r, n⟩, .mem m] => do
    guard (op.movesWhole r.cls ∧ n = r.cls.bytes ∧ m.size = n)
    return c.setReg r (c.mem.load (← c.address? m) r.cls.bytes)
  | _, _ => none

def run (c : Cpu) (code : List Instruction) : Option Cpu := code.foldlM step c

section Registers
variable (c : Cpu)

@[simp] theorem regs_setReg_self (r : Reg) (v : BitVec (8 * r.cls.bytes)) : (c.setReg r v).regs r = v := by
  simp only [setReg, update_self]

theorem regs_setReg_of_ne (h : q ≠ r) (v : BitVec (8 * r.cls.bytes)) : (c.setReg r v).regs q = c.regs q := by
  simp only [setReg, update_of_ne h]

@[simp] theorem gp_setGp_self (index : Nat) (v : BitVec 64) : (c.setGp index v).gp index = v :=
  c.regs_setReg_self (.gp index) v

theorem regs_setGp_of_ne (h : q ≠ .gp index) (v : BitVec 64) : (c.setGp index v).regs q = c.regs q :=
  c.regs_setReg_of_ne h v

@[simp] theorem setGp_gp (index : Nat) : c.setGp index (c.gp index) = c := by
  simp only [setGp, setReg, gp, update_eq_self]

theorem gp_setGp_of_ne (h : j ≠ i) (v : BitVec 64) : (c.setGp i v).gp j = c.gp j :=
  c.regs_setGp_of_ne (mt Reg.gp_inj.mp h) v

end Registers

@[simp] theorem run_nil (c : Cpu) : c.run [] = some c := rfl

theorem run_cons (c : Cpu) (i : Instruction) (code : List Instruction) :
    c.run (i :: code) = (c.step i).bind fun d => d.run code :=
  List.foldlM_cons

theorem run_append (c : Cpu) (a b : List Instruction) : c.run (a ++ b) = (c.run a).bind fun d => d.run b :=
  List.foldlM_append

end Cpu

end Codegen
