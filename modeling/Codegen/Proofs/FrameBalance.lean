import Codegen.Proofs.Cpu

/-! Leaving a frame undoes entering it. The state that a prologue reaches is described by where it keeps the
registers of the caller; a body that leaves these bytes alone stays in such a state, and from there the
epilogue gets everything back. -/
namespace Codegen
open List Option RegMask
variable {hi lo : Int} {ps : List SavePlace} {p : SavePlace}
open Memory

namespace Cpu

/-- Pushing registers moves the stack pointer down over their values, the last pushed at the bottom. -/
theorem run_push (c : Cpu) (l : List Nat) (hl : l.length < 2 ^ 32) (hrsp : Gp.rsp ∉ l) :
    ∃ d, c.run (l.map fun index => ⟨.push, [.gpq index]⟩) = some d ∧
      d.rsp = c.rsp - BitVec.ofNat 64 (8 * l.length) ∧ (∀ q, q ≠ .gp Gp.rsp → d.regs q = c.regs q) ∧
      d.mem.words d.rsp l.length = l.reverse.map c.gp ∧
      ∀ x, ¬ Within d.rsp (8 * l.length) x → d.mem x = c.mem x := by
  induction l generalizing c with
  | nil => exact ⟨c, rfl, by simp, fun _ _ => rfl, rfl, fun _ _ => rfl⟩
  | cons a l ih =>
    have hlt : l.length < 2 ^ 32 := by
      rw [length_cons] at hl
      omega
    obtain ⟨d, hrun, hd, hregs, hwords, hmem⟩ := ih (c.push (c.gp a)) hlt fun h => hrsp (mem_cons_of_mem _ h)
    have hpush : (c.push (c.gp a)).rsp = c.rsp - 8#64 := gp_setGp_self _ _ _
    have hkept : ∀ q, q ≠ Reg.gp Gp.rsp → (c.push (c.gp a)).regs q = c.regs q := fun q hq =>
      regs_setGp_of_ne _ hq _
    rw [hpush] at hd
    have htop : d.rsp + BitVec.ofNat 64 (8 * l.length) = c.rsp - 8#64 := by
      rw [hd, BitVec.sub_add_cancel]
    refine ⟨d, ?_, ?_, fun q hq => (hregs q hq).trans (hkept q hq), ?_, fun x hx => ?_⟩
    · exact hrun
    · rw [hd, length_cons]
      bv_omega
    · -- The first word pushed is above the others, which do not overwrite it.
      have hfirst : d.mem.load (c.rsp - 8#64) 8 = c.gp a := by
        rw [load_congr (by decide) fun x hx => hmem x fun hin => ?_]
        · exact load_store_self c.mem _ (by decide) _
        · unfold Within at hx hin
          bv_omega
      have hrest : l.reverse.map (c.push (c.gp a)).gp = l.reverse.map c.gp := by
        refine map_congr_left fun i hi => hkept _ fun e => hrsp ?_
        rw [← Reg.gp_inj.mp e]
        exact mem_cons_of_mem _ (mem_reverse.mp hi)
      rw [length_cons, words_append, hwords, htop, hrest, reverse_cons, map_append]
      simp only [words, hfirst, map_cons, map_nil]
    · have hnot : ¬ Within (c.rsp - 8#64) 8 x := by
        rw [length_cons] at hx
        unfold Within at hx ⊢
        bv_omega
      have hless : ¬ Within d.rsp (8 * l.length) x := by
        rw [length_cons] at hx
        unfold Within at hx ⊢
        omega
      rw [hmem x hless]
      exact store_apply_of_not_within _ hnot

theorem run_pop (c : Cpu) (l : List Nat) (v : Nat → BitVec 64) (hrsp : Gp.rsp ∉ l)
    (hwords : c.mem.words c.rsp l.length = l.map v) :
    ∃ d, c.run (l.map fun index => ⟨.pop, [.gpq index]⟩) = some d ∧
      d.rsp = c.rsp + BitVec.ofNat 64 (8 * l.length) ∧ d.mem = c.mem ∧ (∀ i ∈ l, d.gp i = v i) ∧
      ∀ q, q ≠ .gp Gp.rsp → (∀ i ∈ l, q ≠ .gp i) → d.regs q = c.regs q := by
  induction l generalizing c with
  | nil => exact ⟨c, rfl, by simp, rfl, fun _ hi => absurd hi not_mem_nil, fun _ _ _ => rfl⟩
  | cons a l ih =>
    have ha : Gp.rsp ≠ a := fun e => hrsp (e ▸ mem_cons_self)
    obtain ⟨hfirst, hrest⟩ := cons.inj hwords
    have hpop : (c.pop a).rsp = c.rsp + 8#64 := (gp_setGp_of_ne _ ha _).trans (gp_setGp_self _ _ _)
    have hval : (c.pop a).gp a = v a := (gp_setGp_self _ _ _).trans hfirst
    obtain ⟨d, hrun, hd, hmem, hvals, hregs⟩ :=
      ih (c.pop a) (fun h => hrsp (mem_cons_of_mem _ h)) (by rw [hpop]; exact hrest)
    refine ⟨d, ?_, ?_, hmem, fun i hi => ?_, fun q hq hl => ?_⟩
    · exact hrun
    · rw [hd, length_cons]
      bv_omega
    · by_cases hil : i ∈ l
      · exact hvals i hil
      obtain rfl : i = a := (mem_cons.mp hi).resolve_right hil
      have hother : ∀ j ∈ l, Reg.gp i ≠ .gp j := fun j hj e => hil (Reg.gp_inj.mp e ▸ hj)
      exact (hregs (.gp i) (mt Reg.gp_inj.mp ha.symm) hother).trans hval
    · rw [hregs q hq fun i hi => hl i (mem_cons_of_mem _ hi)]
      exact (regs_setGp_of_ne _ (hl a mem_cons_self) _).trans (regs_setGp_of_ne _ hq _)

end Cpu

namespace FrameLayout

/-- The places lie one above the other between two offsets. -/
def Stacked : Int → List SavePlace → Int → Prop
  | lo, [], hi => lo ≤ hi
  | lo, p :: ps, hi => lo ≤ p.offset ∧ Stacked (p.offset + p.size) ps hi

theorem Stacked.le (h : Stacked lo ps hi) : lo ≤ hi := by
  induction ps generalizing lo with
  | nil => exact h
  | cons p ps ih =>
    have := ih h.2
    have := h.1
    omega

theorem Stacked.append (h : Stacked lo ps mid) (h' : Stacked mid qs hi) : Stacked lo (ps ++ qs) hi := by
  induction ps generalizing lo with
  | nil =>
    cases qs with
    | nil => exact Int.le_trans h h'
    | cons q qs => exact ⟨Int.le_trans h h'.1, h'.2⟩
  | cons p ps ih => exact ⟨h.1, ih h.2⟩

theorem stacked_placesFrom (lo : Int) (move : Opcode) (size : Nat) (cls : RegClass) (l : List Nat) :
    Stacked lo (placesFrom lo move size cls l) (lo + size * l.length) := by
  induction l generalizing lo with
  | nil => simp [placesFrom, Stacked]
  | cons a l ih =>
    have hend : lo + size + size * (l.length : Int) = lo + size * ((a :: l).length : Nat) := by
      rw [length_cons, Int.natCast_succ, Int.mul_add, Int.mul_one]
      omega
    exact ⟨Int.le_refl _, hend ▸ ih (lo + size)⟩

theorem mem_placesFrom (h : p ∈ placesFrom lo move size cls l) :
    p.move = move ∧ p.size = size ∧ p.reg.cls = cls ∧ p.reg.index ∈ l := by
  induction l generalizing lo with
  | nil => exact absurd h not_mem_nil
  | cons a l ih =>
    obtain rfl | h := mem_cons.mp h
    · exact ⟨rfl, rfl, rfl, mem_cons_self⟩
    · obtain ⟨hm, hs, hc, hi⟩ := ih h
      exact ⟨hm, hs, hc, mem_cons_of_mem _ hi⟩

theorem exists_mem_placesFrom (lo : Int) (move : Opcode) (size : Nat) (cls : RegClass)
    (h : a ∈ l) : ∃ p ∈ placesFrom lo move size cls l, p.reg = ⟨cls, a⟩ := by
  induction l generalizing lo with
  | nil => exact absurd h not_mem_nil
  | cons b l ih =>
    obtain rfl | h := mem_cons.mp h
    · exact ⟨_, mem_cons_self, rfl⟩
    · obtain ⟨p, hp, hr⟩ := ih (lo + size) h
      exact ⟨p, mem_cons_of_mem _ hp, hr⟩

/-- The place has the width of its register, and its instruction moves all of it. -/
def SavePlace.Whole (p : SavePlace) : Prop := p.move.movesWhole p.reg.cls = true ∧ p.size = p.reg.cls.bytes

/-- Where the place is in a frame with this stack pointer. -/
abbrev SavePlace.address (p : SavePlace) (rsp : BitVec 64) : BitVec 64 := rsp + BitVec.ofInt 64 p.offset

end FrameLayout

namespace Cpu
open FrameLayout

theorem step_store (c : Cpu) (h : p.Whole) :
    c.step p.store = some { c with mem := c.mem.store (p.address c.rsp) p.reg.cls.bytes (c.regs p.reg) } := by
  obtain ⟨offset, move, size, ⟨cls, index⟩⟩ := p
  obtain ⟨hm, rfl⟩ : move.movesWhole cls = true ∧ size = cls.bytes := h
  cases cls <;> cases move <;> cases hm <;> rfl

theorem step_load (c : Cpu) (h : p.Whole) :
    c.step p.load = some (c.setReg p.reg (c.mem.load (p.address c.rsp) p.reg.cls.bytes)) := by
  obtain ⟨offset, move, size, ⟨cls, index⟩⟩ := p
  obtain ⟨hm, rfl⟩ : move.movesWhole cls = true ∧ size = cls.bytes := h
  cases cls <;> cases move <;> cases hm <;> rfl

theorem run_store (c : Cpu) (hs : Stacked lo ps hi) (hspan : hi - lo ≤ 2 ^ 64) (hw : ∀ p ∈ ps, p.Whole) :
    ∃ d, c.run (ps.map (·.store)) = some d ∧ d.regs = c.regs ∧
      (∀ p ∈ ps, d.mem.load (p.address c.rsp) p.reg.cls.bytes = c.regs p.reg) ∧
      ∀ x, ¬ Within (c.rsp + BitVec.ofInt 64 lo) (hi - lo).toNat x → d.mem x = c.mem x := by
  induction ps generalizing c lo with
  | nil => exact ⟨c, rfl, rfl, fun _ hp => absurd hp not_mem_nil, fun _ _ => rfl⟩
  | cons p ps ih =>
    obtain ⟨hlo, hs⟩ := hs
    have hle := hs.le
    have hwhole := hw p mem_cons_self
    have hbytes : p.size = p.reg.cls.bytes := hwhole.2
    have hsmall : p.reg.cls.bytes ≤ 2 ^ 64 := by cases p.reg.cls <;> decide
    obtain ⟨d, hrun, hregs, hplaces, hmem⟩ :=
      ih { c with mem := c.mem.store (p.address c.rsp) p.reg.cls.bytes (c.regs p.reg) } hs (by omega)
        fun q hq => hw q (mem_cons_of_mem _ hq)
    refine ⟨d, ?_, hregs, fun q hq => ?_, fun x hx => ?_⟩
    · rwa [map_cons, run_cons, step_store c hwhole]
    · obtain rfl | hq := mem_cons.mp hq
      · -- The other places are above this one.
        have hkept : d.mem.load (q.address c.rsp) q.reg.cls.bytes = _ :=
          load_congr hsmall fun x hx => hmem x (not_within_above hx (by omega) (by omega))
        rw [hkept]
        exact load_store_self c.mem _ hsmall _
      · exact hplaces q hq
    · rw [hmem x fun hin => hx (within_of_le hin (by omega) (by omega) hspan)]
      exact store_apply_of_not_within _ fun hin => hx (within_of_le hin hlo (by omega) hspan)

theorem run_load (c : Cpu) (ps : List SavePlace) (v : (r : Reg) → BitVec (8 * r.cls.bytes))
    (hw : ∀ p ∈ ps, p.Whole) (hrsp : ∀ p ∈ ps, p.reg ≠ .gp Gp.rsp)
    (hv : ∀ p ∈ ps, c.mem.load (p.address c.rsp) p.reg.cls.bytes = v p.reg) :
    ∃ d, c.run (ps.map (·.load)) = some d ∧ d.mem = c.mem ∧ (∀ p ∈ ps, d.regs p.reg = v p.reg) ∧
      ∀ q, (∀ p ∈ ps, q ≠ p.reg) → d.regs q = c.regs q := by
  induction ps generalizing c with
  | nil => exact ⟨c, rfl, rfl, fun _ hp => absurd hp not_mem_nil, fun _ _ => rfl⟩
  | cons p ps ih =>
    have hsame : (c.setReg p.reg (c.mem.load (p.address c.rsp) p.reg.cls.bytes)).rsp = c.rsp :=
      c.regs_setReg_of_ne (hrsp p mem_cons_self).symm _
    obtain ⟨d, hrun, hmem, hvals, hregs⟩ :=
      ih (c.setReg p.reg (c.mem.load (p.address c.rsp) p.reg.cls.bytes)) (fun q hq => hw q (mem_cons_of_mem _ hq))
        (fun q hq => hrsp q (mem_cons_of_mem _ hq))
        fun q hq => by rw [hsame]; exact hv q (mem_cons_of_mem _ hq)
    refine ⟨d, ?_, hmem, fun q hq => ?_, fun q hq => ?_⟩
    · rwa [map_cons, run_cons, step_load c (hw p mem_cons_self)]
    · by_cases hlater : ∃ r ∈ ps, q.reg = r.reg
      · obtain ⟨r, hr, he⟩ := hlater
        rw [he]
        exact hvals r hr
      · obtain rfl : q = p := (mem_cons.mp hq).resolve_right fun h => hlater ⟨q, h, rfl⟩
        rw [hregs q.reg fun r hr he => hlater ⟨r, hr, he⟩, regs_setReg_self]
        exact hv q mem_cons_self
    · rw [hregs q fun r hr => hq r (mem_cons_of_mem _ hr)]
      exact c.regs_setReg_of_ne (hq p mem_cons_self) _

end Cpu

namespace FrameLayout

/-- Distance from the stack pointer of the body up to the pushed registers. -/
def depth (f : FrameLayout) : Nat := if f.adjusted then f.stackSubtract else 0

/-- Bytes of the places in the save area. -/
def areaSize (f : FrameLayout) : Nat :=
  16 * f.saved.xmm.count + (8 * f.saved.mm.count + 8 * if f.pushPop then 0 else f.saved.gp.count)

/-- Rounds an address down to a multiple of 16, where the function aligns the stack itself. -/
def aligned (f : FrameLayout) (x : BitVec 64) : BitVec 64 := if f.alignedByFunction then x &&& BitVec.ofInt 64 (-16) else x

/-- The stack pointer in the body of a function that was entered with `sp`. -/
def bodyRsp (f : FrameLayout) (sp : BitVec 64) : BitVec 64 :=
  f.aligned (if f.naked then sp else sp - 8#64) - BitVec.ofNat 64 (8 * f.pushed.length) - BitVec.ofNat 64 f.depth

/-- What the code of a frame relies on. The save area ends below the pushed registers. -/
structure Sound (f : FrameLayout) : Prop where
  rsp : f.saved.gp.contains Gp.rsp = false
  rbp : f.naked = false → f.saved.gp.contains Gp.rbp = false
  move : f.xmmMove.movesWhole .xmm = true
  feasible : f.feasible = true
  depth : f.depth ≤ 2 ^ 33
  low : -2 ^ 31 ≤ f.saveAreaStart
  high : f.saveAreaStart + f.areaSize ≤ f.depth

/-- `d` is in the body of a frame that was entered from `c`. -/
structure Framed (f : FrameLayout) (c d : Cpu) : Prop where
  rsp : f.naked = true → d.rsp + BitVec.ofNat 64 (f.depth + 8 * f.pushed.length) = c.rsp
  rbp : f.naked = false → d.rbp + 8#64 = c.rsp ∧ d.mem.load d.rbp 8 = c.rbp
  /-- Aligning the stack leaves less than 16 bytes above the pushed registers. -/
  gap : f.naked = false → ∃ k < 16, d.rbp = d.rsp + BitVec.ofInt 64 (f.depth + (8 * f.pushed.length : Nat) + (k : Nat))
  pushed : d.mem.words (d.rsp + BitVec.ofNat 64 f.depth) f.pushed.length = f.pushed.reverse.map c.gp
  places : ∀ p ∈ f.savePlaces, d.mem.load (p.address d.rsp) p.reg.cls.bytes = c.regs p.reg

/-- From `c` to `d` the frame pointers, the pushed words and the saved registers stay. -/
structure Kept (f : FrameLayout) (c d : Cpu) : Prop where
  rsp : d.rsp = c.rsp
  rbp : f.naked = false → d.rbp = c.rbp ∧ d.mem.load c.rbp 8 = c.mem.load c.rbp 8
  pushed : d.mem.words (c.rsp + BitVec.ofNat 64 f.depth) f.pushed.length =
    c.mem.words (c.rsp + BitVec.ofNat 64 f.depth) f.pushed.length
  places : ∀ p ∈ f.savePlaces,
    d.mem.load (p.address c.rsp) p.reg.cls.bytes = c.mem.load (p.address c.rsp) p.reg.cls.bytes

theorem Framed.kept {f : FrameLayout} (h : f.Framed c d) (hk : f.Kept d e) : f.Framed c e where
  rsp hn := by rw [hk.rsp, h.rsp hn]
  rbp hn := by
    obtain ⟨hp, hb⟩ := hk.rbp hn
    rw [hp, hb]
    exact h.rbp hn
  gap hn := by
    rw [hk.rsp, (hk.rbp hn).1]
    exact h.gap hn
  pushed := by rw [hk.rsp, hk.pushed, h.pushed]
  places p hp := by rw [hk.rsp, hk.places p hp, h.places p hp]

section Code
variable {f : FrameLayout}

theorem mem_pushed : index ∈ f.pushed ↔ f.pushPop = true ∧ f.saved.gp.contains index = true := by
  unfold pushed
  split
  · simp [*, RegMask.mem_toList]
  · simp [*]

theorem mem_savePlaces (h : f.xmmMove.movesWhole .xmm = true) (hp : p ∈ f.savePlaces) :
    p.Whole ∧ (f.saved.get p.reg.cls).contains p.reg.index = true := by
  obtain ⟨offset, move, size, ⟨cls, index⟩⟩ := p
  simp only [savePlaces, mem_append] at hp
  obtain hp | hp | hp := hp <;> obtain ⟨hm, hs, hc, hi⟩ := mem_placesFrom hp <;> cases hm <;> cases hs <;> cases hc
  · exact ⟨⟨h, rfl⟩, mem_toList.mp hi⟩
  · exact ⟨⟨rfl, rfl⟩, mem_toList.mp hi⟩
  refine ⟨⟨rfl, rfl⟩, ?_⟩
  split at hi
  · exact absurd hi not_mem_nil
  · exact mem_toList.mp hi

theorem saved_cases (h : (f.saved.get r.cls).contains r.index = true) :
    (∃ index ∈ f.pushed, r = .gp index) ∨ ∃ p ∈ f.savePlaces, p.reg = r := by
  obtain ⟨cls, index⟩ := r
  have hl : index ∈ (f.saved.get cls).toList := mem_toList.mpr h
  simp only [savePlaces, mem_append]
  cases cls with
  | xmm =>
    obtain ⟨p, hp, hr⟩ := exists_mem_placesFrom f.saveAreaStart f.xmmMove 16 .xmm hl
    exact .inr ⟨p, .inl hp, hr⟩
  | mm =>
    obtain ⟨p, hp, hr⟩ := exists_mem_placesFrom (f.saveAreaStart + 16 * f.saved.xmm.toList.length) .movq 8 .mm hl
    exact .inr ⟨p, .inr (.inl hp), hr⟩
  | gp =>
    cases hpp : f.pushPop with
    | true => exact .inl ⟨index, mem_pushed.mpr ⟨hpp, h⟩, rfl⟩
    | false =>
      obtain ⟨p, hp, hr⟩ := exists_mem_placesFrom
        (f.saveAreaStart + 16 * f.saved.xmm.toList.length + 8 * f.saved.mm.toList.length) .mov 8 .gp hl
      exact .inr ⟨p, .inr (.inr hp), hr⟩

theorem stacked_savePlaces (f : FrameLayout) : Stacked f.saveAreaStart f.savePlaces (f.saveAreaStart + f.areaSize) := by
  have hgp : (if f.pushPop then [] else f.saved.gp.toList).length = if f.pushPop then 0 else f.saved.gp.count := by
    split <;> rfl
  have hend : f.saveAreaStart + f.areaSize = f.saveAreaStart + 16 * f.saved.xmm.toList.length +
      8 * f.saved.mm.toList.length + 8 * (if f.pushPop then [] else f.saved.gp.toList).length := by
    rw [hgp, areaSize]
    simp only [RegMask.count]
    omega
  rw [hend]
  exact (stacked_placesFrom f.saveAreaStart f.xmmMove 16 .xmm _).append
    ((stacked_placesFrom _ .movq 8 .mm _).append (stacked_placesFrom _ .mov 8 .gp _))

theorem length_pushed_le (f : FrameLayout) : f.pushed.length ≤ 32 := by
  unfold pushed
  split
  · exact count_le _
  · exact Nat.zero_le _

theorem run_adjustment (f : FrameLayout) (c : Cpu) (op : Opcode) (move : BitVec 64 → BitVec 64 → BitVec 64)
    (hstep : ∀ k, c.step ⟨op, [.gpq Gp.rsp, .imm k]⟩ = some (c.setGp Gp.rsp (move c.rsp (BitVec.ofInt 64 k))))
    (hzero : move c.rsp 0#64 = c.rsp) :
    c.run (f.adjustment op) = some (c.setGp Gp.rsp (move c.rsp (BitVec.ofNat 64 f.depth))) := by
  unfold adjustment
  split
  · next h =>
    have hd : f.depth = f.stackSubtract := if_pos (Bool.and_eq_true_iff.mp h).1
    rw [Cpu.run_cons, hstep, hd, BitVec.ofInt_natCast]
    rfl
  next h =>
  have hd : f.depth = 0 := by
    unfold depth
    split <;> simp_all
  rw [hd, hzero, Cpu.setGp_gp, Cpu.run_nil]

theorem run_fences (f : FrameLayout) (c : Cpu) :
    c.run ((if f.emms then [⟨.emms, []⟩] else []) ++ f.fence) = some c := by
  unfold fence
  cases f.emms <;> cases f.sfence <;> cases f.lfence <;> rfl

theorem sub_align (x : BitVec 64) : (x - (x &&& BitVec.ofInt 64 (-16))).toNat = x.toNat % 16 := by
  have hzero : (x &&& 15#64) &&& (x &&& BitVec.ofInt 64 (-16)) = 0#64 := by
    rw [BitVec.and_assoc, ← BitVec.and_assoc 15#64, BitVec.and_comm 15#64, BitVec.and_assoc,
      show 15#64 &&& BitVec.ofInt 64 (-16) = 0#64 by decide, BitVec.and_zero, BitVec.and_zero]
  have hsplit : x = (x &&& 15#64) + (x &&& BitVec.ofInt 64 (-16)) := by
    rw [BitVec.add_eq_or_of_and_eq_zero _ _ hzero, ← BitVec.and_or_distrib_left,
      show 15#64 ||| BitVec.ofInt 64 (-16) = BitVec.allOnes 64 by decide, BitVec.and_allOnes]
  have heq : x - (x &&& BitVec.ofInt 64 (-16)) = x &&& 15#64 := by
    bv_omega
  rw [heq, BitVec.toNat_and]
  exact Nat.and_two_pow_sub_one_eq_mod x.toNat 4

theorem sub_aligned_lt (f : FrameLayout) (x : BitVec 64) : (x - f.aligned x).toNat < 16 := by
  unfold aligned
  split
  · rw [sub_align]
    exact Nat.mod_lt _ (by decide)
  · rw [BitVec.sub_self]
    decide

theorem run_link (c : Cpu) :
    ∃ d, c.run [⟨.push, [.gpq Gp.rbp]⟩, ⟨.mov, [.gpq Gp.rbp, .gpq Gp.rsp]⟩] = some d ∧ d.rbp = c.rsp - 8#64 ∧
      d.rsp = c.rsp - 8#64 ∧ d.mem.load d.rbp 8 = c.rbp ∧
      ∀ q, q ≠ .gp Gp.rsp → q ≠ .gp Gp.rbp → d.regs q = c.regs q := by
  have hpush : (c.push c.rbp).rsp = c.rsp - 8#64 := Cpu.gp_setGp_self _ _ _
  have hrbp : ((c.push c.rbp).setGp Gp.rbp (c.push c.rbp).rsp).rbp = c.rsp - 8#64 := by
    rw [Cpu.rbp, Cpu.gp_setGp_self, hpush]
  refine ⟨_, rfl, hrbp, (Cpu.gp_setGp_of_ne _ (by decide) _).trans hpush, ?_, fun q hq hq' => ?_⟩
  · exact load_store_self c.mem _ (by decide) _
  · exact (Cpu.regs_setGp_of_ne _ hq' _).trans (Cpu.regs_setGp_of_ne _ hq _)

theorem run_align (f : FrameLayout) (c : Cpu) :
    ∃ d, c.run (if f.alignedByFunction then [⟨.and, [.gpq Gp.rsp, .imm (-16)]⟩] else []) = some d ∧
      d.rsp = f.aligned c.rsp ∧ d.mem = c.mem ∧ ∀ q, q ≠ .gp Gp.rsp → d.regs q = c.regs q := by
  unfold aligned
  cases f.alignedByFunction with
  | false => exact ⟨c, rfl, rfl, rfl, fun _ _ => rfl⟩
  | true => exact ⟨_, rfl, Cpu.gp_setGp_self _ _ _, rfl, fun q hq => Cpu.regs_setGp_of_ne _ hq _⟩

theorem run_enter (f : FrameLayout) (c : Cpu) (hf : f.feasible = true) :
    ∃ d, c.run ((if f.naked then [] else [⟨.push, [.gpq Gp.rbp]⟩, ⟨.mov, [.gpq Gp.rbp, .gpq Gp.rsp]⟩]) ++
        if f.alignedByFunction then [⟨.and, [.gpq Gp.rsp, .imm (-16)]⟩] else []) = some d ∧
      (f.naked = true → d = c) ∧
      (f.naked = false → d.rbp = c.rsp - 8#64 ∧ (d.rbp - d.rsp).toNat < 16 ∧ d.mem.load d.rbp 8 = c.rbp) ∧
      d.rsp = f.aligned (if f.naked then c.rsp else c.rsp - 8#64) ∧
      ∀ q, q ≠ .gp Gp.rsp → (f.naked = false → q ≠ .gp Gp.rbp) → d.regs q = c.regs q := by
  cases hn : f.naked with
  | true =>
    have ha : f.alignedByFunction = false := by simpa [feasible, hn] using hf
    exact ⟨c, by rw [ha]; rfl, fun _ => rfl, fun h => absurd h (by decide), by simp [aligned, ha], fun _ _ _ => rfl⟩
  | false =>
    obtain ⟨a, hrun, hrbp, hrsp, hload, hregs⟩ := run_link c
    obtain ⟨d, hrun', hrsp', hmem, hregs'⟩ := run_align f a
    have hd : d.rbp = a.rbp := hregs' (.gp Gp.rbp) (by decide)
    refine ⟨d, ?_, fun h => absurd h (by decide), fun _ => ⟨hd.trans hrbp, ?_, ?_⟩, ?_, fun q hq hq' => ?_⟩
    · rwa [Cpu.run_append, if_neg Bool.false_ne_true, hrun]
    · rw [hd, hrbp, ← hrsp, hrsp']
      exact f.sub_aligned_lt a.rsp
    · rwa [hd, hmem]
    · rw [hrsp', hrsp, if_neg Bool.false_ne_true]
    · exact (hregs' q hq).trans (hregs q hq (hq' rfl))

theorem Sound.not_mem_pushed (h : f.Sound) : Gp.rsp ∉ f.pushed := fun hm =>
  absurd (h.rsp ▸ (mem_pushed.mp hm).2) Bool.false_ne_true

theorem Sound.saved_ne (h : f.Sound) {r : Reg} (hr : (f.saved.get r.cls).contains r.index = true) :
    r ≠ .gp Gp.rsp ∧ (f.naked = false → r ≠ .gp Gp.rbp) := by
  refine ⟨?_, fun hn => ?_⟩ <;> rintro rfl
  · exact absurd (h.rsp ▸ hr) Bool.false_ne_true
  · exact absurd (h.rbp hn ▸ hr) Bool.false_ne_true

/-- The prologue runs, and gets into the frame. -/
theorem run_prologue (h : f.Sound) (c : Cpu) :
    ∃ d, c.run f.prologue = some d ∧ d.rsp = f.bodyRsp c.rsp ∧ f.Framed c d := by
  obtain ⟨a, hrunA, hnaked, hlink, hrspA, hregsA⟩ := run_enter f c h.feasible
  have hlen := length_pushed_le f
  have hdepth := h.depth
  have hlow := h.low
  have hhigh := h.high
  obtain ⟨b, hrunB, hrspB, hregsB, hwordsB, hmemB⟩ := a.run_push f.pushed (by omega) h.not_mem_pushed
  have hrunE := run_adjustment f b .sub (· - ·) (fun _ => rfl) (BitVec.sub_zero _)
  generalize he : b.setGp Gp.rsp (b.rsp - BitVec.ofNat 64 f.depth) = e at hrunE
  have hregsE : ∀ q, q ≠ .gp Gp.rsp → e.regs q = b.regs q := fun q hq => he ▸ Cpu.regs_setGp_of_ne _ hq _
  have hmemE : e.mem = b.mem := he ▸ rfl
  have hb : b.rsp = e.rsp + BitVec.ofInt 64 f.depth := by
    rw [← he, Cpu.rsp, Cpu.rsp, Cpu.gp_setGp_self, BitVec.ofInt_natCast, BitVec.sub_add_cancel]
  obtain ⟨d, hrunD, hregsD, hplacesD, hmemD⟩ := e.run_store (stacked_savePlaces f) (by omega)
    fun p hp => (mem_savePlaces h.move hp).1
  have hrspD : d.rsp = e.rsp := congrFun hregsD (.gp Gp.rsp)
  -- A register that is not one of the frame's own is still the caller's when it is saved.
  have hregs : ∀ q, q ≠ .gp Gp.rsp → (f.naked = false → q ≠ .gp Gp.rbp) → e.regs q = c.regs q := fun q hq hq' =>
    (hregsE q hq).trans ((hregsB q hq).trans (hregsA q hq hq'))
  have hrbpD : d.rbp = a.rbp :=
    (congrFun hregsD (.gp Gp.rbp)).trans ((hregsE _ (by decide)).trans (hregsB _ (by decide)))
  have hat : a.rbp = e.rsp + BitVec.ofInt 64 (f.depth + (8 * f.pushed.length : Nat) + (a.rbp - a.rsp).toNat) := by
    rw [BitVec.ofInt_add, BitVec.ofInt_add, ← BitVec.add_assoc, ← BitVec.add_assoc, ← hb, hrspB, BitVec.ofInt_natCast,
      BitVec.ofInt_natCast, BitVec.sub_add_cancel, BitVec.ofNat_toNat, BitVec.setWidth_eq]
    exact (BitVec.add_comm _ _).trans (BitVec.sub_add_cancel _ _) |>.symm
  refine ⟨d, ?_, ?_, ?_, ?_, fun hn => ⟨_, (hlink hn).2.1, hrbpD.trans (hrspD ▸ hat)⟩, ?_, ?_⟩
  · rw [prologue, Cpu.run_append, Cpu.run_append, Cpu.run_append, hrunA, bind_some, hrunB, bind_some,
      hrunE, bind_some, hrunD]
  · rw [hrspD, ← he, Cpu.rsp, Cpu.gp_setGp_self, hrspB, hrspA]
    rfl
  · intro hn
    rw [hrspD, ← hnaked hn, BitVec.ofNat_add, ← BitVec.add_assoc, ← BitVec.ofInt_natCast, ← hb, hrspB,
      BitVec.sub_add_cancel]
  · intro hn
    obtain ⟨hrbp, hlt, hload⟩ := hlink hn
    refine ⟨by rw [hrbpD, hrbp, BitVec.sub_add_cancel], ?_⟩
    -- The saved frame pointer is above the pushed registers and above the save area.
    have hkept : d.mem.load a.rbp 8 = a.mem.load a.rbp 8 := load_congr (by decide) fun x hx => by
      rw [hat] at hx
      have hwords : ¬ Within (e.rsp + BitVec.ofInt 64 f.depth)
          (f.depth + (8 * f.pushed.length : Nat) - f.depth : Int).toNat x :=
        not_within_below hx (by omega) (by omega)
      rw [show (f.depth + (8 * f.pushed.length : Nat) - f.depth : Int).toNat = 8 * f.pushed.length by omega, ← hb] at hwords
      rw [hmemD x (not_within_below hx (by omega) (by omega)), hmemE, hmemB x hwords]
    rw [hrbpD, hkept, hload]
  · have hkept : d.mem.words (e.rsp + BitVec.ofInt 64 f.depth) f.pushed.length = e.mem.words _ _ :=
      words_congr (by omega) fun x hx => hmemD x (not_within_below hx (by omega) (by omega))
    rw [hrspD, ← BitVec.ofInt_natCast, hkept, hmemE, ← hb, hwordsB]
    refine map_congr_left fun i hi => ?_
    obtain ⟨hq, hq'⟩ := h.saved_ne (r := .gp i) (mem_pushed.mp (mem_reverse.mp hi)).2
    exact hregsA _ hq hq'
  · intro p hp
    obtain ⟨hq, hq'⟩ := h.saved_ne (mem_savePlaces h.move hp).2
    rw [hrspD, hplacesD p hp, hregs _ hq hq']

/-- Loads, pops and the move of the stack pointer between them get the saved registers back. -/
theorem run_restore (h : f.Sound) (hd : f.Framed c d) : ∃ e, d.run (f.savePlaces.map (·.load) ++ f.adjustment .add ++
        f.pushed.reverse.map (fun index => ⟨.pop, [.gpq index]⟩)) = some e ∧
      e.rsp = d.rsp + BitVec.ofNat 64 (f.depth + 8 * f.pushed.length) ∧ e.mem = d.mem ∧
      (∀ r, (f.saved.get r.cls).contains r.index = true → e.regs r = c.regs r) ∧
      ∀ r, r ≠ .gp Gp.rsp → (f.saved.get r.cls).contains r.index = false → e.regs r = d.regs r := by
  have hmem : ∀ p ∈ f.savePlaces, p.Whole ∧ (f.saved.get p.reg.cls).contains p.reg.index = true := fun p hp =>
    mem_savePlaces h.move hp
  obtain ⟨a, hrunA, hmemA, hvalA, hregsA⟩ := d.run_load f.savePlaces c.regs (fun p hp => (hmem p hp).1)
    (fun p hp => (h.saved_ne (hmem p hp).2).1) hd.places
  have hrspA : a.rsp = d.rsp := hregsA _ fun p hp => (h.saved_ne (hmem p hp).2).1.symm
  have hrunB := run_adjustment f a .add (· + ·) (fun _ => rfl) (BitVec.add_zero _)
  generalize hb : a.setGp Gp.rsp (a.rsp + BitVec.ofNat 64 f.depth) = b at hrunB
  have hrspB : b.rsp = d.rsp + BitVec.ofNat 64 f.depth := by rw [← hb, Cpu.rsp, Cpu.gp_setGp_self, hrspA]
  have hmemB : b.mem = d.mem := hb ▸ hmemA
  have hregsB : ∀ q, q ≠ .gp Gp.rsp → b.regs q = a.regs q := fun q hq => hb ▸ Cpu.regs_setGp_of_ne _ hq _
  have hrev : ∀ {index}, index ∈ f.pushed.reverse ↔ index ∈ f.pushed := mem_reverse
  obtain ⟨e, hrunE, hrspE, hmemE, hvalE, hregsE⟩ := b.run_pop f.pushed.reverse c.gp (mt hrev.mp h.not_mem_pushed)
    (by rw [hmemB, hrspB, length_reverse, hd.pushed])
  refine ⟨e, ?_, ?_, hmemE.trans hmemB, fun r hr => ?_, fun r hrsp hr => ?_⟩
  · rw [Cpu.run_append, Cpu.run_append, hrunA, bind_some, hrunB, bind_some, hrunE]
  · rw [hrspE, hrspB, length_reverse, BitVec.ofNat_add, BitVec.add_assoc]
  · by_cases hpushed : ∃ index ∈ f.pushed, r = .gp index
    · obtain ⟨index, hi, rfl⟩ := hpushed
      exact hvalE index (hrev.mpr hi)
    obtain ⟨p, hp, rfl⟩ := (saved_cases hr).resolve_left hpushed
    have hne := (h.saved_ne hr).1
    rw [hregsE _ hne fun i hi e => hpushed ⟨i, hrev.mp hi, e⟩, hregsB _ hne, hvalA p hp]
  · have hplace : ∀ p ∈ f.savePlaces, r ≠ p.reg := fun p hp e => by
      rw [e, (hmem p hp).2] at hr
      exact absurd hr (by decide)
    have hpushed : ∀ i ∈ f.pushed.reverse, r ≠ .gp i := fun i hi e => by
      subst e
      exact absurd (hr ▸ (mem_pushed.mp (hrev.mp hi)).2) Bool.false_ne_true
    rw [hregsE r hrsp hpushed, hregsB r hrsp, hregsA r hplace]

theorem run_unlink (f : FrameLayout) (c : Cpu) : c.run (if f.naked then []
      else if f.useLeave then [⟨.leave, []⟩]
      else [⟨.mov, [.gpq Gp.rsp, .gpq Gp.rbp]⟩, ⟨.pop, [.gpq Gp.rbp]⟩]) =
    some (if f.naked then c else (c.setGp Gp.rsp c.rbp).pop Gp.rbp) := by
  cases f.naked <;> cases f.useLeave <;> rfl

theorem run_epilogue (h : f.Sound) (hd : f.Framed c d) :
    ∃ code e, f.epilogue = code ++ [⟨.ret, if f.retPop = 0 then [] else [.imm f.retPop]⟩] ∧ d.run code = some e ∧
      e.rsp = c.rsp ∧ e.mem = d.mem ∧ (f.naked = false → e.rbp = c.rbp) ∧
      ∀ r, (f.saved.get r.cls).contains r.index = true → e.regs r = c.regs r := by
  obtain ⟨a, hrun, hrsp, hmem, hsaved, hother⟩ := run_restore h hd
  refine ⟨_, if f.naked then a else (a.setGp Gp.rsp a.rbp).pop Gp.rbp, rfl, ?_, ?_⟩
  · rw [Cpu.run_append, append_assoc _ _ f.fence, Cpu.run_append, hrun, bind_some, run_fences, bind_some, run_unlink]
  cases hn : f.naked with
  | true =>
    exact ⟨hrsp.trans (hd.rsp hn), hmem, fun h => absurd h (by decide), hsaved⟩
  | false =>
    obtain ⟨htop, hload⟩ := hd.rbp hn
    have hrbp : a.rbp = d.rbp := hother _ (by decide) (h.rbp hn)
    have hsp : (a.setGp Gp.rsp a.rbp).rsp = a.rbp := Cpu.gp_setGp_self _ _ _
    refine ⟨?_, hmem, fun _ => ?_, fun r hr => ?_⟩
    · rw [← htop, ← hrbp, ← hsp]
      exact (Cpu.gp_setGp_of_ne _ (by decide) _).trans (Cpu.gp_setGp_self _ _ _)
    · rw [← hload, ← hmem, ← hrbp, ← hsp]
      exact Cpu.gp_setGp_self _ _ _
    obtain ⟨hne, hne'⟩ := h.saved_ne hr
    rw [← hsaved r hr]
    exact (Cpu.regs_setGp_of_ne _ (hne' hn) _).trans
      ((Cpu.regs_setGp_of_ne _ hne _).trans (Cpu.regs_setGp_of_ne _ hne _))

theorem step_ret (f : FrameLayout) (c : Cpu) :
    ∃ d, c.step ⟨.ret, if f.retPop = 0 then [] else [.imm f.retPop]⟩ = some d ∧ d.rip = c.mem.load c.rsp 8 ∧
      d.rsp = c.rsp + 8#64 + BitVec.ofNat 64 f.retPop ∧ ∀ q, q ≠ .gp Gp.rsp → d.regs q = c.regs q := by
  by_cases hz : f.retPop = 0
  · rw [hz]
    refine ⟨_, rfl, rfl, ?_, fun q hq => Cpu.regs_setGp_of_ne _ hq _⟩
    exact (Cpu.gp_setGp_self _ _ _).trans (BitVec.add_zero _).symm
  · rw [if_neg hz]
    refine ⟨_, rfl, rfl, ?_, fun q hq => Cpu.regs_setGp_of_ne _ hq _⟩
    exact Cpu.gp_setGp_self _ _ _

end Code

end FrameLayout

namespace FrameInput

theorem areaSize_le_movSize (i : FrameInput) : i.layout.areaSize ≤ i.movSize := by
  have h := le_alignUp16 (i.saved.mm.count * 8 + if i.hints.pushPop then 0 else i.saved.gp.count * 8)
  have harea : i.layout.areaSize =
      16 * i.saved.xmm.count + (8 * i.saved.mm.count + 8 * if i.hints.pushPop then 0 else i.saved.gp.count) := rfl
  have hmov : i.movSize = i.saved.xmm.count * 16 +
      alignUp16 (i.saved.mm.count * 8 + if i.hints.pushPop then 0 else i.saved.gp.count * 8) := rfl
  split at h <;> simp_all <;> omega

theorem movSize_le (i : FrameInput) : i.movSize ≤ 1024 := by
  have hmov : i.movSize = i.saved.xmm.count * 16 +
      alignUp16 (i.saved.mm.count * 8 + if i.hints.pushPop then 0 else i.saved.gp.count * 8) := rfl
  have := i.saved.xmm.count_le
  have := i.saved.mm.count_le
  have := i.saved.gp.count_le
  rw [hmov, alignUp16]
  split <;> omega

theorem sound_layout {i : FrameInput} (hsmall : i.Small) (hf : i.layout.feasible = true) : i.layout.Sound := by
  unfold Small at hsmall
  have harea := i.areaSize_le_movSize
  have hmov := i.movSize_le
  have hsub : i.layout.stackSubtract = i.callStackSize + i.memSize16 + i.movSize + i.adjustSize := rfl
  have hdepth : i.layout.depth = if i.adjusted then i.layout.stackSubtract else 0 := rfl
  have hstart : i.layout.saveAreaStart =
      if i.adjusted then displacement (i.callStackSize + i.memSize16) else -displacement (i.movSize + i.adjustSize) := rfl
  refine ⟨?_, fun hn => ?_, ?_, hf, ?_, ?_, ?_⟩
  · show (if i.hints.naked then _ else _ : RegMask).contains Gp.rsp = false
    split
    · exact contains_erase_self _ _
    · exact (contains_erase_of_ne _ (by decide)).trans (contains_erase_self _ _)
  · show (if i.hints.naked then _ else _ : RegMask).contains Gp.rbp = false
    rw [if_neg (Bool.not_eq_true _ ▸ hn)]
    exact contains_erase_self _ _
  · show (if i.stackAlignedByOs || !i.hints.naked then Opcode.movdqa else .movdqu).movesWhole .xmm = true
    split <;> rfl
  · rw [hdepth, hsub]
    split <;> omega
  · rw [hstart]
    split
    · exact le_displacement _
    · exact Int.neg_le_neg (Int.le_of_lt (displacement_lt _))
  rw [hstart, hdepth, hsub]
  split
  · have := displacement_le (i.callStackSize + i.memSize16)
    clear hstart hdepth hsub
    omega
  · rw [displacement_of_lt (by omega)]
    omega

/-- Prologue, any body that leaves the frame alone, epilogue: the return is reached with the caller's stack pointer,
frame pointer and saved registers, and pops the arguments that the function removes. -/
theorem epilogue_undoes_prologue (i : FrameInput) (hsmall : i.Small)
    (hf : i.layout.feasible = true) (c : Cpu) :
    ∃ d, c.run i.layout.prologue = some d ∧ ∀ e, i.layout.Kept d e →
      ∃ code ret g, i.layout.epilogue = code ++ [ret] ∧ ret.opcode = .ret ∧ e.run code = some g ∧
        g.rsp = c.rsp ∧ g.mem = e.mem ∧ (i.hints.naked = false → g.rbp = c.rbp) ∧
        (∀ r, (i.layout.saved.get r.cls).contains r.index = true → g.regs r = c.regs r) ∧
        ∃ g', g.step ret = some g' ∧ g'.rip = e.mem.load c.rsp 8 ∧
          g'.rsp = c.rsp + 8#64 + BitVec.ofNat 64 i.layout.retPop ∧ ∀ r, r ≠ .gp Gp.rsp → g'.regs r = g.regs r := by
  have hs := sound_layout hsmall hf
  obtain ⟨d, hrun, -, hd⟩ := FrameLayout.run_prologue hs c
  refine ⟨d, hrun, fun e he => ?_⟩
  obtain ⟨code, g, hcode, hrun', hrsp, hmem, hrbp, hsaved⟩ := FrameLayout.run_epilogue hs (hd.kept he)
  obtain ⟨g', hret, hrip, hpop, hregs⟩ := FrameLayout.step_ret i.layout g
  rw [hrsp, hmem] at hrip
  rw [hrsp] at hpop
  exact ⟨code, _, g, hcode, rfl, hrun', hrsp, hmem, hrbp, hsaved, g', hret, hrip, hpop, hregs⟩

/-- A frame that aligns itself, pushes two registers and stores a vector register. -/
def mixedFrame : FrameInput where
  hints := { pushPop := true }
  modified := ⟨.ofList [Gp.rax, Gp.rbx, Gp.r12], .empty, .ofList [6]⟩
  preserved := ⟨.ofList [Gp.rbx, Gp.rbp, Gp.r12], .empty, .ofList [6]⟩
  memBytes := 40
  mem16Count := 2
  mem8Count := 1
  calleePopsStack := true
  argsStackSize := 24

theorem epilogue_undoes_prologue_mixed :
    mixedFrame.Small ∧ mixedFrame.layout.feasible = true ∧
      mixedFrame.layout.alignedByFunction = true ∧ mixedFrame.layout.pushed = [Gp.rbx, Gp.r12] ∧
      ∃ d, (Cpu.mk (fun _ => 1) (fun _ => 0) 0).run mixedFrame.layout.prologue = some d ∧
        ∃ code ret g, mixedFrame.layout.epilogue = code ++ [ret] ∧ d.run code = some g ∧ g.regs (.xmm 6) = 1 ∧
          ∃ g', g.step ret = some g' ∧ g'.rsp = 33 := by
  have hf : mixedFrame.layout.feasible = true := by decide
  obtain ⟨d, hrun, hrest⟩ := epilogue_undoes_prologue mixedFrame (by decide) hf (Cpu.mk (fun _ => 1) (fun _ => 0) 0)
  obtain ⟨code, ret, g, hcode, -, hrun', -, -, -, hsaved, g', hret, -, hpop, -⟩ :=
    hrest d ⟨rfl, fun _ => ⟨rfl, rfl⟩, rfl, fun _ _ => rfl⟩
  exact ⟨by decide, hf, by decide, by decide, d, hrun, code, ret, g, hcode, hrun',
    hsaved (.xmm 6) (by decide), g', hret, hpop⟩

end FrameInput
end Codegen
