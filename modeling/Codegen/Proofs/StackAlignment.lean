import Codegen.Proofs.FrameRegions
import Codegen.Proofs.SlotLayout

/-! Where the frame of a function is aligned to 16 bytes. The padding makes up for what is pushed, so that the spill slots
start at a multiple of 16 whenever the function aligns the stack or is entered behind an aligned call. -/
namespace Codegen

theorem toNat_ofInt_mod (z : Int) : ((BitVec.ofInt 64 z).toNat : Int) % 16 = z % 16 := by
  rw [BitVec.toNat_ofInt]
  omega

theorem displacement_mod (n : Nat) : displacement n % 16 = (n : Int) % 16 := by
  have h := displacement_emod n
  omega

theorem FrameLayout.aligned_mod {f : FrameLayout} (x : BitVec 64) :
    (f.aligned x).toNat % 16 = if f.alignedByFunction then 0 else x.toNat % 16 := by
  unfold aligned
  split
  · have h := sub_align x
    bv_omega
  · rfl

namespace FrameInput
variable {i : FrameInput}

theorem movSize_mod (i : FrameInput) : i.movSize % 16 = 0 := by
  have h := alignUp16_mod (i.saved.mm.count * 8 + if i.hints.pushPop then 0 else i.saved.gp.count * 8)
  simp only [movSize]
  omega

theorem adjustSize_mod (i : FrameInput) :
    (i.adjustSize + i.pushPopSize + if i.alignedByFunction then 0 else if i.hints.naked then 8 else 16) % 16 = 0 := by
  have h := alignUp16_mod i.pushPopSize
  have hle := le_alignUp16 i.pushPopSize
  unfold adjustSize
  split
  · omega
  · dsimp only
    omega

/-- Where the spill slots start in a function that was entered with the stack pointer `sp`. -/
def slotBase (i : FrameInput) (sp : BitVec 64) : BitVec 64 :=
  i.layout.bodyRsp sp + BitVec.ofInt 64 i.layout.varsBaseOffset

theorem offset_mod (ha : a % 16 = 0) (hb : b % 16 = 0) :
    (if i.adjusted then displacement a else -displacement (b + i.adjustSize)) % 16 =
      (if i.adjusted then 0 else -i.adjustSize : Int) % 16 := by
  have hover := displacement_mod a
  have hunder := displacement_mod (b + i.adjustSize)
  generalize displacement a = x at hover
  generalize displacement (b + i.adjustSize) = y at hunder
  split <;> omega

theorem varsBaseOffset_mod (hcall : i.callStackSize % 16 = 0) :
    (i.layout.varsBaseOffset - (i.layout.depth : Int)) % 16 = (-i.adjustSize : Int) % 16 := by
  have hmov := i.movSize_mod
  have hmem : i.memSize16 % 16 = 0 := alignUp16_mod _
  have hvars : i.layout.varsBaseOffset % 16 = _ := offset_mod hcall (b := i.memSize16 + i.movSize) (by omega)
  have hdepth : i.layout.depth = if i.adjusted then i.callStackSize + i.memSize16 + i.movSize + i.adjustSize else 0 := rfl
  rw [hdepth]
  split at hvars
  · rw [if_pos ‹_›]
    omega
  · rw [if_neg ‹_›]
    omega

theorem slotBase_mod (hcall : i.callStackSize % 16 = 0) (hf : i.layout.feasible = true) (sp : BitVec 64) :
    (i.slotBase sp).toNat % 16 = if i.alignedByFunction then 0 else (sp.toNat + 8) % 16 := by
  have hal := i.layout.aligned_mod (if i.layout.naked then sp else sp - 8#64)
  have hadj := i.adjustSize_mod
  have hdist := varsBaseOffset_mod hcall
  have hoff := toNat_ofInt_mod i.layout.varsBaseOffset
  have hnaked : i.hints.naked = true → i.alignedByFunction = false := fun hn => by
    simpa [FrameLayout.feasible, layout, hn] using hf
  rw [pushPopSize_eq] at hadj
  unfold slotBase FrameLayout.bodyRsp
  generalize i.layout.aligned (if i.layout.naked then sp else sp - 8#64) = x at hal
  generalize BitVec.ofInt 64 i.layout.varsBaseOffset = o at hoff
  generalize i.layout.varsBaseOffset = z at hdist hoff
  generalize i.layout.depth = depth at hdist
  generalize i.layout.pushed.length = n at hadj
  generalize i.adjustSize = pad at hadj hdist
  rw [show i.layout.alignedByFunction = i.alignedByFunction from rfl, show i.layout.naked = i.hints.naked from rfl] at hal
  cases ha : i.alignedByFunction <;> cases hn : i.hints.naked <;> simp only [ha, hn] at hal hadj hnaked ⊢ <;> simp at * <;>
    bv_omega

/-- The stack in the body is aligned. After the prologue, a stack pointer that was moved is a multiple of 16, as is the
size of the frame. So is the start of the spill slots in every case, and the slots lie at multiples of their sizes. -/
theorem body_aligned (i : FrameInput) (hcall : i.callStackSize % 16 = 0) (hsmall : i.Small)
    (halign : i.stackAlignedByOs = true ∨ i.alignedByFunction = true ∧ i.hints.naked = false) (c : Cpu)
    (hsp : if i.stackAlignedByOs then c.rsp.toNat % 16 = 8 else c.rsp.toNat % 8 = 0) :
    ∃ d, c.run i.layout.prologue = some d ∧
      (i.isCaller = true → i.layout.adjusted = true) ∧
      (i.layout.adjusted = true → d.rsp.toNat % 16 = 0 ∧ i.layout.frameSize % 16 = 0) ∧
      (d.rsp + BitVec.ofInt 64 i.layout.varsBaseOffset).toNat % 16 = 0 ∧
      ∀ p : SlotPool, p.layout.1 = i.memBytes → ∀ slot ∈ p.layout.2.slots, ∃ offset, slot.offset = some offset ∧
        (slot.size = 16 →
          (d.rsp + BitVec.ofInt 64 i.layout.varsBaseOffset + BitVec.ofNat 64 offset).toNat % 16 = 0) ∧
        (slot.size = 8 →
          (d.rsp + BitVec.ofInt 64 i.layout.varsBaseOffset + BitVec.ofNat 64 offset).toNat % 8 = 0) := by
  have hside : i.alignedByFunction = false → i.stackAlignedByOs = true := fun h =>
    halign.resolve_right fun h' => by simp [h] at h'
  have hf : i.layout.feasible = true := by
    rcases halign with h | h
    · simp [FrameLayout.feasible, layout, alignedByFunction, h]
    · simp [FrameLayout.feasible, layout, h.2]
  obtain ⟨d, hrun, hrsp, -⟩ := FrameLayout.run_prologue (sound_layout hsmall hf) c
  have hbase : (d.rsp + BitVec.ofInt 64 i.layout.varsBaseOffset).toNat % 16 = 0 := by
    rw [hrsp]
    refine (slotBase_mod hcall hf c.rsp).trans ?_
    split
    · rfl
    · rename_i ha
      rw [if_pos (hside (by simpa using ha))] at hsp
      omega
  refine ⟨d, hrun, fun h => by simp [layout, adjusted, h], fun hadj => ⟨?_, ?_⟩, hbase, fun p _ slot hs => ?_⟩
  · have hoff := toNat_ofInt_mod i.layout.varsBaseOffset
    have hcs := displacement_mod i.callStackSize
    rw [show i.layout.varsBaseOffset = displacement i.callStackSize from if_pos hadj] at hoff hbase
    bv_omega
  · have hmov := i.movSize_mod
    have hmem : i.memSize16 % 16 = 0 := alignUp16_mod _
    have hpad := i.adjustSize_mod
    have hn : i.alignedByFunction = true → i.hints.naked = false := fun ha => by
      simpa [FrameLayout.feasible, layout, ha] using hf
    have hsize : i.layout.frameSize = 8 + i.pushPopSize + (if i.hints.naked then 0 else 8) +
        if i.adjusted then i.callStackSize + i.memSize16 + i.movSize + i.adjustSize else 0 := rfl
    rw [hsize, if_pos (show i.adjusted = true from hadj)]
    cases ha : i.alignedByFunction <;> cases hk : i.hints.naked <;> simp [ha, hk] at hpad hn ⊢ <;> omega
  · obtain ⟨offset, ho, h16, h8⟩ := SlotPool.layout_aligned hs
    generalize d.rsp + BitVec.ofInt 64 i.layout.varsBaseOffset = b at hbase ⊢
    refine ⟨offset, ho, fun h => ?_, fun h => ?_⟩
    · have := h16 h
      bv_omega
    · have := h8 h
      bv_omega

/-- The frame that aligns itself, entered with a stack pointer that is a multiple of 8 only. -/
theorem body_aligned_mixed :
    mixedFrame.callStackSize % 16 = 0 ∧ mixedFrame.alignedByFunction = true ∧ mixedFrame.hints.naked = false ∧
      ∃ d, (Cpu.mk (fun _ => 1000) (fun _ => 0) 0).run mixedFrame.layout.prologue = some d ∧ d.rsp.toNat % 16 = 0 := by
  obtain ⟨d, hrun, -, hadj, -⟩ := body_aligned mixedFrame (by decide) (by decide)
    (.inr ⟨by decide, by decide⟩) ⟨fun _ => 1000, fun _ => 0, 0⟩ (by decide)
  exact ⟨by decide, by decide, by decide, d, hrun, (hadj (by decide)).1⟩

end FrameInput

end Codegen
