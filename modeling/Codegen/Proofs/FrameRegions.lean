import Codegen.Proofs.FrameBalance

/-! The areas of a stack frame. Upwards from the stack pointer, or from the red zone below it, they lie one above the
other: the arguments of calls, the spill slots, the saved registers, the pushed registers, the saved frame pointer and the
return address. -/
namespace Codegen
open Memory

namespace Memory

/-- A range of bytes. Addresses wrap around. -/
structure Range where
  start : BitVec 64
  size : Nat

namespace Range
variable {r : Range} {rs : List Range} {lo hi : Int}

def Holds (r : Range) (x : BitVec 64) : Prop := Within r.start r.size x

def Disjoint (a b : Range) : Prop := ∀ x, a.Holds x → ¬ b.Holds x

def Inside (a b : Range) : Prop := ∀ x, a.Holds x → b.Holds x

/-- The ranges that are not empty lie one above the other between two distances from an address. -/
def Stacked (t : BitVec 64) : Int → List Range → Int → Prop
  | lo, [], hi => lo ≤ hi
  | lo, r :: rs, hi => r.size = 0 ∧ Stacked t lo rs hi ∨
      ∃ o : Int, r.start = t + BitVec.ofInt 64 o ∧ lo ≤ o ∧ Stacked t (o + r.size) rs hi

theorem not_holds_of_size (h : r.size = 0) (x : BitVec 64) : ¬ r.Holds x := by
  simp [Holds, Within, h]

theorem inside_of_le {o lo : Int} {n m : Nat} (hlo : lo ≤ o) (hhi : o + n ≤ lo + m) (hm : m ≤ 2 ^ 64) :
    Inside ⟨t + BitVec.ofInt 64 o, n⟩ ⟨t + BitVec.ofInt 64 lo, m⟩ := by
  intro x hx
  have hin : Within (t + BitVec.ofInt 64 lo) (lo + m - lo).toNat x := within_of_le hx hlo hhi (by omega)
  rwa [show (lo + m - lo).toNat = m by omega] at hin

theorem disjoint_of_le {o o' : Int} {n m : Nat} (hle : o + n ≤ o') (hspan : o' + m - o ≤ 2 ^ 64) :
    Disjoint ⟨t + BitVec.ofInt 64 o, n⟩ ⟨t + BitVec.ofInt 64 o', m⟩ := by
  intro x hx
  have hout : ¬ Within (t + BitVec.ofInt 64 o') (o' + m - o').toNat x := not_within_above hx hle hspan
  rwa [show (o' + m - o').toNat = m by omega] at hout

section
variable (h : Stacked t lo rs hi)
include h

theorem Stacked.le : lo ≤ hi := by
  induction rs generalizing lo with
  | nil => exact h
  | cons r rs ih =>
    rcases h with ⟨-, h⟩ | ⟨o, -, hlo, h⟩
    · exact ih h
    · have := ih h
      omega

theorem Stacked.mem (hr : r ∈ rs) :
    r.size = 0 ∨ ∃ o : Int, r.start = t + BitVec.ofInt 64 o ∧ lo ≤ o ∧ o + r.size ≤ hi := by
  induction rs generalizing lo with
  | nil => cases hr
  | cons q rs ih =>
    rcases h with ⟨hq, h⟩ | ⟨o, ho, hlo, h⟩
    · rcases List.mem_cons.mp hr with rfl | hr
      · exact .inl hq
      · exact ih h hr
    · rcases List.mem_cons.mp hr with rfl | hr
      · exact .inr ⟨o, ho, hlo, h.le⟩
      · exact (ih h hr).imp_right fun ⟨o', ho', hlo', hhi⟩ => ⟨o', ho', by omega, hhi⟩

theorem Stacked.mono (hle : lo' ≤ lo) : Stacked t lo' rs hi := by
  induction rs with
  | nil => exact Int.le_trans hle h
  | cons r rs ih =>
    rcases h with ⟨hr, h⟩ | ⟨o, ho, hlo, h⟩
    · exact .inl ⟨hr, ih h⟩
    · exact .inr ⟨o, ho, Int.le_trans hle hlo, h⟩

theorem Stacked.pairwise (hspan : hi - lo ≤ 2 ^ 64) : rs.Pairwise Disjoint := by
  induction rs generalizing lo with
  | nil => exact .nil
  | cons r rs ih =>
    rcases h with ⟨hr, h⟩ | ⟨o, ho, hlo, h⟩
    · exact .cons (fun q _ x hx => absurd hx (not_holds_of_size hr x)) (ih h hspan)
    refine .cons (fun q hq => ?_) (ih h (by omega))
    rcases h.mem hq with hq | ⟨o', ho', hlo', hhi⟩
    · exact fun x _ => not_holds_of_size hq x
    obtain ⟨start, size⟩ := r
    obtain ⟨start', size'⟩ := q
    obtain rfl : start = _ := ho
    obtain rfl : start' = _ := ho'
    dsimp only at hhi
    exact disjoint_of_le hlo' (by omega)

end

end Range

end Memory

namespace FrameLayout

/-- The spill slots. -/
def spillArea (f : FrameLayout) (rsp : BitVec 64) : Range := ⟨rsp + BitVec.ofInt 64 f.varsBaseOffset, f.memSize16⟩

/-- The registers that are stored. -/
def saveArea (f : FrameLayout) (rsp : BitVec 64) : Range := ⟨rsp + BitVec.ofInt 64 f.saveAreaStart, f.movSize⟩

/-- The registers that are pushed. -/
def pushedArea (f : FrameLayout) (rsp : BitVec 64) : Range := ⟨rsp + BitVec.ofInt 64 f.depth, 8 * f.pushed.length⟩

/-- The areas in the body of a function that was entered with the stack pointer `sp`, which is where its return address
is. -/
def areas (f : FrameLayout) (sp : BitVec 64) (d : Cpu) : List Range :=
  [⟨d.rsp, f.callStackSize⟩, f.spillArea d.rsp, f.saveArea d.rsp, f.pushedArea d.rsp, ⟨d.rbp, if f.naked then 0 else 8⟩,
    ⟨sp, 8⟩]

theorem Stacked.mem (h : Stacked lo ps hi) (hp : p ∈ ps) : lo ≤ p.offset ∧ p.offset + p.size ≤ hi := by
  induction ps generalizing lo with
  | nil => cases hp
  | cons q ps ih =>
    obtain ⟨hlo, h⟩ := h
    rcases List.mem_cons.mp hp with rfl | hp
    · exact ⟨hlo, h.le⟩
    · obtain ⟨hq, hhi⟩ := ih h hp
      exact ⟨by omega, hhi⟩

end FrameLayout

namespace FrameInput
variable {i : FrameInput}

theorem pushPopSize_eq (i : FrameInput) : i.pushPopSize = 8 * i.layout.pushed.length := by
  show (if i.hints.pushPop then _ else _) = 8 * (if i.hints.pushPop then _ else _ : List Nat).length
  split
  · exact mul_comm _ _
  · rfl

theorem geometry (h : i.Small) : i.layout.saveAreaStart = i.layout.varsBaseOffset + i.memSize16 ∧
    i.layout.depth = i.layout.saveAreaStart + i.movSize + i.adjustSize ∧
    i.layout.varsBaseOffset = if i.adjusted then (i.callStackSize : Int) else -(i.memSize16 + i.movSize + i.adjustSize) := by
  have hstart : i.layout.saveAreaStart =
      if i.adjusted then displacement (i.callStackSize + i.memSize16) else -displacement (i.movSize + i.adjustSize) := rfl
  have hvars : i.layout.varsBaseOffset =
      if i.adjusted then displacement i.callStackSize else -displacement (i.memSize16 + i.movSize + i.adjustSize) := rfl
  have hdepth : i.layout.depth =
      if i.adjusted then i.callStackSize + i.memSize16 + i.movSize + i.adjustSize else 0 := rfl
  unfold Small at h
  rw [hstart, hvars, hdepth, displacement_of_lt (by omega),
    displacement_of_lt (by omega), displacement_of_lt (by omega),
    displacement_of_lt (by omega)]
  split <;> omega

theorem callStackSize_of_not_adjusted (hcall : i.isCaller = false → i.callStackSize = 0) (hadj : i.adjusted = false) :
    i.callStackSize = 0 := by
  simp only [adjusted, Bool.or_eq_false_iff] at hadj
  exact hcall hadj.1.1

theorem top_stacked {f : FrameLayout} (hd : f.Framed c d) :
    Range.Stacked d.rsp f.depth [f.pushedArea d.rsp, ⟨d.rbp, if f.naked then 0 else 8⟩, ⟨c.rsp, 8⟩]
      (f.depth + (8 * f.pushed.length : Nat) + 32) := by
  refine .inr ⟨f.depth, rfl, Int.le_refl _, ?_⟩
  show Range.Stacked d.rsp (f.depth + (8 * f.pushed.length : Nat)) _ _
  cases hn : f.naked with
  | true =>
    refine .inl ⟨rfl, .inr ⟨_, ?_, Int.le_refl _, (by simp only [Range.Stacked]; omega)⟩⟩
    rw [← hd.rsp hn, ← BitVec.ofInt_natCast]
    rfl
  | false =>
    obtain ⟨k, hk, hrbp⟩ := hd.gap hn
    refine .inr ⟨_, hrbp, by omega, .inr ⟨f.depth + (8 * f.pushed.length : Nat) + k + 8, ?_, ?_, ?_⟩⟩
    · rw [← (hd.rbp hn).1, hrbp, BitVec.ofInt_add (_ + _) 8, ← BitVec.add_assoc]
      rfl
    · simp only [Bool.false_eq_true, if_false]
      omega
    · simp only [Range.Stacked]
      omega

section
variable (h : i.Small) (hcall : i.isCaller = false → i.callStackSize = 0) (hd : i.layout.Framed c d)
include h hcall hd

theorem areas_stacked : ∃ lo hi, Range.Stacked d.rsp lo (i.layout.areas c.rsp d) hi ∧ hi - lo ≤ 2 ^ 33 := by
  obtain ⟨hsave, hdepth, hvars⟩ := geometry h
  have hpush := i.pushPopSize_eq
  unfold Small at h
  have hmid : Range.Stacked d.rsp i.layout.varsBaseOffset (i.layout.areas c.rsp d).tail
      (i.layout.depth + (8 * i.layout.pushed.length : Nat) + 32) := by
    refine .inr ⟨_, rfl, Int.le_refl _, .inr ⟨_, rfl, Int.le_of_eq hsave.symm, ?_⟩⟩
    refine (top_stacked hd).mono ?_
    show i.layout.saveAreaStart + i.movSize ≤ i.layout.depth
    omega
  cases hadj : i.adjusted with
  | true =>
    rw [hadj, if_pos rfl] at hvars
    refine ⟨0, _, .inr ⟨0, (by simp), Int.le_refl 0, hmid.mono ?_⟩, ?_⟩
    · show 0 + (i.callStackSize : Int) ≤ _
      omega
    · omega
  | false =>
    have hempty := callStackSize_of_not_adjusted hcall hadj
    exact ⟨_, _, .inl ⟨hempty, hmid⟩, by omega⟩

theorem areas_disjoint : (i.layout.areas c.rsp d).Pairwise Range.Disjoint := by
  obtain ⟨lo, hi, hst, hspan⟩ := areas_stacked h hcall hd
  exact hst.pairwise (by omega)

end

theorem savePlace_inside {p : FrameLayout.SavePlace} (rsp : BitVec 64) (hp : p ∈ i.layout.savePlaces) :
    Range.Inside ⟨p.address rsp, p.size⟩ (i.layout.saveArea rsp) := by
  obtain ⟨hlo, hhi⟩ := (FrameLayout.stacked_savePlaces i.layout).mem hp
  have harea := i.areaSize_le_movSize
  have hmov := i.movSize_le
  refine Range.inside_of_le hlo ?_ (Nat.le_trans hmov (by decide))
  show p.offset + p.size ≤ i.layout.saveAreaStart + i.movSize
  omega

theorem below_in_redZone (h : i.Small) (hadj : i.adjusted = false)
    (hx : (i.layout.spillArea rsp).Holds x ∨ (i.layout.saveArea rsp).Holds x) :
    ∃ k : Nat, 0 < k ∧ k ≤ i.redZoneSize ∧ x = rsp - BitVec.ofNat 64 k := by
  obtain ⟨hsave, hdepth, hvars⟩ := geometry h
  have hfit : i.memSize16 + i.movSize + i.adjustSize ≤ i.redZoneSize := by
    simp only [adjusted, Bool.or_eq_false_iff, decide_eq_false_iff_not, Nat.not_lt] at hadj
    exact hadj.2
  rw [hadj, if_neg (by simp)] at hvars
  obtain ⟨T, hT⟩ : ∃ T : Nat, T = i.memSize16 + i.movSize + i.adjustSize := ⟨_, rfl⟩
  have hbelow : Range.Holds ⟨rsp + BitVec.ofInt 64 (-(T : Int)), T⟩ x := by
    rcases hx with hx | hx
    · refine Range.inside_of_le (n := i.memSize16) ?_ ?_ ?_ x hx <;> unfold Small at h <;> omega
    · refine Range.inside_of_le (n := i.movSize) ?_ ?_ ?_ x hx <;> unfold Small at h <;> omega
  have hlt : (x - (rsp + BitVec.ofInt 64 (-(T : Int)))).toNat < T := hbelow
  refine ⟨T - (x - (rsp + BitVec.ofInt 64 (-(T : Int)))).toNat, by omega, by omega, ?_⟩
  bv_omega

theorem argsBaseOffset_eq (h : i.Small) : i.layout.argsBaseOffset =
    if i.hints.naked then ((i.layout.depth + 8 * i.layout.pushed.length : Nat) : Int) else 8 := by
  have hpush := i.pushPopSize_eq
  have hoff : i.layout.argsBaseOffset = if !i.hints.naked then 8 else if i.adjusted then
      displacement (i.callStackSize + i.memSize16 + i.movSize + i.pushPopSize + i.adjustSize)
    else displacement i.pushPopSize := rfl
  have hdepth : i.layout.depth =
      if i.adjusted then i.callStackSize + i.memSize16 + i.movSize + i.adjustSize else 0 := rfl
  unfold Small at h
  rw [hoff, hdepth, displacement_of_lt (by omega), displacement_of_lt (by omega)]
  cases i.hints.naked with
  | false => rfl
  | true =>
    rw [Bool.not_true, if_neg Bool.false_ne_true, if_pos rfl]
    split <;> omega

theorem argsBase_address (h : i.Small) (hd : i.layout.Framed c d) :
    ∃ index, i.layout.argsBase = .gp index ∧ d.gp index + BitVec.ofInt 64 i.layout.argsBaseOffset = c.rsp := by
  have hbase : i.layout.argsBase = .gp (if i.hints.naked then Gp.rsp else Gp.rbp) := rfl
  rw [hbase, argsBaseOffset_eq h]
  cases hn : i.hints.naked with
  | false => exact ⟨_, rfl, (hd.rbp hn).1⟩
  | true =>
    simp only [if_true, BitVec.ofInt_natCast]
    exact ⟨_, rfl, hd.rsp hn⟩

end FrameInput

end Codegen
