import Codegen.Proofs.FrameRegions
import Codegen.Proofs.Parameters
import Codegen.Proofs.SlotLayout

/-! The addresses of homes. Once the homes in the code of a function are bound to its frame, an operand that names a spill
slot addresses it inside the spill area, and one that names the home of a stack parameter addresses the place above the
return address where the caller put it. -/
namespace Codegen
open Memory List

theorem ItemSeq.nodup_range {q : ItemSeq} (start stop : ItemId) : (q.range start stop).Nodup := by
  have hpre : ∀ l : List ItemId, (upTo stop l).Sublist l := by
    intro l
    induction l with
    | nil => exact .slnil
    | cons a l ih =>
      rw [upTo]
      split
      · exact (nil_sublist l).cons_cons a
      · exact ih.cons_cons a
  refine (hpre _).nodup ?_
  have hdrop := (dropWhile_sublist (decide <| · ≠ start)).nodup q.nodup_order
  have hhead := head?_dropWhile_not (decide <| · ≠ start) q.order
  rw [suffixFrom_eq_drop]
  generalize q.order.dropWhile (decide <| · ≠ start) = l at hdrop hhead
  cases l with
  | nil => exact nodup_singleton start
  | cons a l =>
    obtain rfl : a = start := by simpa using hhead
    exact hdrop

/-- An operand of the instruction at an item. -/
def Session.operandAt (s : Session) (x : ItemId) (n : Nat) : Option Operand :=
  match (s.items.get? x).map Item.kind with
  | some (.instruction i) => i.operands[n]?
  | _ => none

namespace Build
variable {frame : FrameLayout} {slots : SlotPool} {ids : List ItemId}

theorem bindOperand_of_not_hasHome (h : o.hasHome = false) : bindOperand frame slots o = .ok o := by
  cases o with
  | mem m =>
    have hm : m.home = none := by simpa [Operand.hasHome] using h
    simp only [bindOperand, bindHome, hm]
    rfl
  | _ => rfl

theorem bindOperand_mem (h : bindOperand frame slots (.mem m) = .ok o') :
    ∃ m', o' = .mem m' ∧ bindHome frame slots m = .ok m' := by
  simp only [bindOperand, except_bind_ok, except_pure_ok] at h
  obtain ⟨m', hm, rfl⟩ := h
  exact ⟨m', rfl, hm⟩

theorem bindHomes_operandAt (h : bindHomes frame x s = .ok () t) (ho : s.operandAt x n = some o) :
    ∃ o', bindOperand frame s.ctx.slots o = .ok o' ∧ t.operandAt x n = some o' := by
  unfold Session.operandAt at ho
  split at ho
  · rename_i i hat
    obtain ⟨item, hi, hk⟩ := Option.map_eq_some_iff.mp hat
    obtain ⟨rfl, hhome⟩ | ⟨item', i', operands, hi', hk', -, hbind, rfl⟩ := bindHomes_ok h
    · have hno : o.hasHome = false :=
        Bool.not_eq_true _ ▸ any_eq_false.mp (hhome item i hi hk) o (mem_of_getElem? ho)
      refine ⟨o, bindOperand_of_not_hasHome hno, ?_⟩
      simpa [Session.operandAt, hi, hk] using ho
    · cases hi ▸ hi'
      cases hk ▸ hk'
      obtain ⟨hlt, ho⟩ := List.getElem?_eq_some_iff.mp ho
      have hlt' : n < operands.length := hbind.length_eq ▸ hlt
      have hget := hbind.get hlt hlt'
      rw [get_eq_getElem, get_eq_getElem, ho] at hget
      refine ⟨_, hget, ?_⟩
      simp [Session.operandAt, Session.withKind, ItemSeq.get?_modify_self, hi, hlt']
  · cases ho

theorem bindHomes_ctx (h : bindHomes frame x s = .ok () t) : t.ctx = s.ctx := by
  rcases bindHomes_ok h with ⟨rfl, -⟩ | ⟨_, _, _, -, -, -, -, rfl⟩ <;> rfl

theorem bindHomes_operandAt_of_ne (hne : y ≠ x) (h : bindHomes frame y s = .ok () t) :
    t.operandAt x n = s.operandAt x n := by
  rcases bindHomes_ok h with ⟨rfl, -⟩ | ⟨_, _, _, -, -, -, -, rfl⟩
  · rfl
  · rw [Session.operandAt, Session.withKind, ItemSeq.get?_modify_of_ne _ hne]
    rfl

theorem bindAll_operandAt (hn : ids.Nodup) (hx : x ∈ ids) (h : ids.forM (bindHomes frame) s = .ok () t)
    (ho : s.operandAt x n = some o) :
    ∃ o', bindOperand frame s.ctx.slots o = .ok o' ∧ t.operandAt x n = some o' := by
  induction ids generalizing s with
  | nil => cases hx
  | cons y ids ih =>
    obtain ⟨u, hy, hrest⟩ := forM_cons_ok.mp h
    obtain ⟨hyn, hn⟩ := nodup_cons.mp hn
    rcases mem_cons.mp hx with rfl | hx
    · obtain ⟨o', hbind, hu⟩ := bindHomes_operandAt hy ho
      refine ⟨o', hbind, (forM_induct (P := fun l v => x ∉ l ∧ v.operandAt x n = some o')
        (fun z l v v' hv hz => ?_) hrest ⟨hyn, hu⟩).2⟩
      have hne : z ≠ x := fun he => hv.1 (he ▸ mem_cons_self)
      exact ⟨fun hl => hv.1 (mem_cons_of_mem z hl), (bindHomes_operandAt_of_ne hne hz).trans hv.2⟩
    · have hne : y ≠ x := fun he => hyn (he ▸ hx)
      have hctx := bindHomes_ctx hy
      exact hctx ▸ ih hn hx hrest ((bindHomes_operandAt_of_ne hne hy).trans ho)

theorem bindHome_slot (hm : m.home = some (.slot slot)) (h : bindHome frame slots m = .ok m') :
    ∃ offset, slots.offset? slot = some offset ∧ m' = { m with
      base := some (.reg frame.varsBase), disp := (m.disp + (offset + frame.varsBaseOffset)).bmod 4294967296
      home := none } := by
  simp only [bindHome, hm] at h
  split at h
  · cases h
    exact ⟨_, ‹_›, rfl⟩
  · cases h

theorem bindHome_argument (hm : m.home = some (.argument offset)) (h : bindHome frame slots m = .ok m') :
    m' = { m with
      base := some (.reg frame.argsBase), disp := (m.disp + (offset + frame.argsBaseOffset)).bmod 4294967296
      home := none } := by
  simp only [bindHome, hm] at h
  cases h
  rfl

theorem layOutFrame_input (h : layOutFrame record p s = .ok frame t) :
    ∃ i : FrameInput, frame = i.layout ∧ i.isCaller = s.ctx.isCaller ∧ i.callStackSize = s.ctx.callStackSize ∧
      i.memBytes = s.ctx.slots.layout.1 ∧ i.redZoneSize = p.redZoneSize ∧ t.ctx.slots = s.ctx.slots.layout.2 := by
  obtain ⟨_, _, ⟨rfl, rfl⟩, _, _, rfl, _, _, ⟨rfl, rfl⟩, rfl, rfl⟩ := h
  exact ⟨_, rfl, rfl, rfl, rfl, rfl, rfl⟩

end Build

/-- `e` is in the body of a frame that `d` has entered: the stack pointer is where it was, and so is the frame pointer. -/
def FrameLayout.InBody (f : FrameLayout) (d e : Cpu) : Prop := e.rsp = d.rsp ∧ (f.naked = false → e.rbp = d.rbp)

namespace FrameInput
variable {i : FrameInput}

theorem slot_address {pool : SlotPool} {slot : SlotId} (hsmall : i.Small) (hbytes : i.memBytes = pool.layout.1)
    (hbody : i.layout.InBody d e) (hindex : m.index = none) (hdisp : m.disp = 0) (hhome : m.home = some (.slot slot))
    (h : Build.bindHome i.layout pool.layout.2 m = .ok m') : ∃ size offset,
      pool.layout.2.slots[slot.index]? = some ⟨size, some offset⟩ ∧
      Range.Inside ⟨(i.layout.spillArea d.rsp).start + BitVec.ofNat 64 offset, size⟩ (i.layout.spillArea d.rsp) ∧
      e.address? m' = some ((i.layout.spillArea d.rsp).start + BitVec.ofNat 64 offset) := by
  obtain ⟨offset, hoff, rfl⟩ := Build.bindHome_slot hhome h
  obtain ⟨⟨size, _⟩, hslot, rfl⟩ := Option.bind_eq_some_iff.mp hoff
  obtain ⟨_, ho, hfit⟩ := SlotPool.layout_within (Array.mem_of_getElem? hslot)
  cases ho
  have hpad : i.memBytes ≤ i.memSize16 := le_alignUp16 i.memBytes
  have hat : (i.layout.spillArea d.rsp).start + BitVec.ofNat 64 offset =
      d.rsp + BitVec.ofInt 64 (i.layout.varsBaseOffset + offset) := by
    rw [BitVec.ofInt_add, ← BitVec.add_assoc, BitVec.ofInt_natCast]
    rfl
  refine ⟨size, offset, hslot, ?_, ?_⟩
  · rw [hat]
    refine Range.inside_of_le (by omega) ?_ ?_
    · show i.layout.varsBaseOffset + offset + size ≤ i.layout.varsBaseOffset + i.memSize16
      dsimp only at hfit
      omega
    · show i.memSize16 ≤ 2 ^ 64
      unfold Small at hsmall
      omega
  · have hbase : i.layout.varsBase = .gp Gp.rsp := rfl
    simp only [Cpu.address?, hbase, hindex]
    show some (e.rsp + _) = _
    obtain ⟨-, -, hvars⟩ := geometry hsmall
    unfold Small at hsmall
    dsimp only at hfit
    rw [hat, hbody.1, hdisp, Int.zero_add, Int.add_comm, Int.bmod_eq_of_le] <;> split at hvars <;> omega

theorem argument_address {slots : SlotPool} {offset : Nat} (hsmall : i.Small) (hd : i.layout.Framed c d)
    (hbody : i.layout.InBody d e) (hindex : m.index = none) (hdisp : m.disp = 0)
    (hhome : m.home = some (.argument (offset + 8))) (hfit : i.layout.frameSize + offset < 2 ^ 31)
    (h : Build.bindHome i.layout slots m = .ok m') :
    e.address? m' = some (c.rsp + 8#64 + BitVec.ofNat 64 offset) := by
  cases Build.bindHome_argument hhome h
  obtain ⟨index, hbase, hentry⟩ := argsBase_address hsmall hd
  have hfits : 0 ≤ i.layout.argsBaseOffset ∧ i.layout.argsBaseOffset + 8 + offset < 2 ^ 31 := by
    have hpush := i.pushPopSize_eq
    have hsize : i.layout.frameSize = 8 + i.pushPopSize + (if i.hints.naked then 0 else 8) + i.layout.depth := rfl
    rw [argsBaseOffset_eq hsmall]
    split at hsize <;> simp only [*, if_true] <;> omega
  have hkept : e.gp index = d.gp index := by
    have hwhich : i.layout.argsBase = .gp (if i.layout.naked then Gp.rsp else Gp.rbp) := rfl
    obtain rfl : (if i.layout.naked then Gp.rsp else Gp.rbp) = index := by
      simpa [Reg.gp] using hwhich.symm.trans hbase
    split
    · exact hbody.1
    · exact hbody.2 (Bool.eq_false_iff.mpr ‹_›)
  simp only [Cpu.address?, hbase, hindex, Reg.gp]
  rw [hkept, ← hentry, hdisp, Int.zero_add, Int.bmod_eq_of_le (by omega) (by omega)]
  simp only [BitVec.ofInt_add, BitVec.ofInt_natCast]
  show some (_ + (_ + 8#64 + _)) = _
  ac_rfl

end FrameInput

/-- How a function with the prototype `p`, prepared as `v`, is lowered to `t`. In `b` the code of its frame is put in and
the homes are still to be bound. -/
structure Session.Stages (u v : Session) (record : FunctionRecord) (last : ItemId) (frame : FrameLayout) (p : Prototype)
    (b t : Session) : Prop where
  prototype : u.prototypes[record.prototype.index]? = some p
  framed : ∃ w a, Build.translateAll record.item v = .ok () w ∧ Build.layOutFrame record p w = .ok frame a ∧
    Build.insertFrameCode record frame a = .ok () b
  bound : (b.items.range record.item last).forM (Build.bindHomes frame) b = .ok () t

namespace Compile
open Encoder (Shows)
variable [Encoder ε] [Shows ε] {record : FunctionRecord}
variable {stop last : ItemId} {frame : FrameLayout} {calls : List Builder.Call} {options : Options}

/-- The areas of the frame of a function are pairwise disjoint, and what it uses below the stack pointer lies in the red
zone. In its code, the homes of spill slots are bound to the slots, which lie in the spill area, and the homes of stack
parameters to their places above the return address, provided that the way there is no longer than a displacement. -/
theorem Lowers.homes_addressed (hp : Builder.program calls { options } = .ok () s)
    (hl : Lowers ε s f record stop last frame u v t) (hsmall : frame.stackSubtract + frame.pushPopSize < 2 ^ 31) :
    ∃ p b, u.Stages v record last frame p b t ∧ ∀ c : Cpu, ∃ d, c.run frame.prologue = some d ∧ frame.Framed c d ∧
      (frame.areas c.rsp d).Pairwise Range.Disjoint ∧
      (∀ q ∈ frame.savePlaces, Range.Inside ⟨q.address d.rsp, q.size⟩ (frame.saveArea d.rsp)) ∧
      (frame.adjusted = false → frame.callStackSize = 0 ∧
        ∀ x, (frame.spillArea d.rsp).Holds x ∨ (frame.saveArea d.rsp).Holds x →
          ∃ k : Nat, 0 < k ∧ k ≤ p.redZoneSize ∧ x = d.rsp - BitVec.ofNat 64 k) ∧
      ∀ x ∈ t.items.range record.item last, ∀ n m, b.operandAt x n = some (.mem m) → m.index = none → m.disp = 0 →
        ∃ m', t.operandAt x n = some (.mem m') ∧ ∀ e, frame.InBody d e →
          (∀ slot, m.home = some (.slot slot) → ∃ size offset,
            b.ctx.slots.slots[slot.index]? = some ⟨size, some offset⟩ ∧
            Range.Inside ⟨(frame.spillArea d.rsp).start + BitVec.ofNat 64 offset, size⟩ (frame.spillArea d.rsp) ∧
            e.address? m' = some ((frame.spillArea d.rsp).start + BitVec.ofNat 64 offset)) ∧
          ∀ (k : Nat) (y : VarId) (info : ArgumentInfo) (offset : Nat), record.args[k]? = some y →
            p.args[k]? = some info → info.location = .stack offset → frame.frameSize + offset < 2 ^ 31 →
              ∃ z, b.vars.get? y = some z ∧ (m.home = z.home? →
                e.address? m' = some (c.rsp + 8#64 + BitVec.ofNat 64 offset)) := by
  obtain ⟨rest, enc, hreach⟩ := hl.comes
  have hbuilds := hreach.builds
  obtain ⟨p, w, a, b, hproto, hw, ha, hins, hbind, hub, -, hcalls⟩ := Build.lowerFunction_builds hl.prepared hl.lowered
  have hseats : b.Seats record.args p := by
    obtain ⟨q, hq, hargs⟩ := Builder.program_receives hp record.signature
      (hbuilds.functions ▸ Array.mem_map_of_mem (Array.mem_of_getElem? hl.prepared.function))
    rw [← hbuilds.prototypes] at hq
    cases hq.symm.trans hproto
    exact (Session.Seats.of_brings hargs).builds (hbuilds.trans hub)
  have hrange : b.items.range record.item last = t.items.range record.item last :=
    (ItemSeq.range_congr (Build.order_bindAll hbind) _).symm
  obtain ⟨i, rfl, hcaller, hcall, hbytes, hzone, hslots⟩ := Build.layOutFrame_input ha
  have hctx : b.ctx.slots = w.ctx.slots.layout.2 := Build.insertFrameCode_ctx hins ▸ hslots
  have hi : i.Small := hsmall
  have hfeasible : i.layout.feasible = true := (Build.insertFrameCode_ok hins).1
  have hsound : i.layout.Sound := FrameInput.sound_layout hi hfeasible
  have hroom : i.isCaller = false → i.callStackSize = 0 := by
    rw [hcaller, hcall]
    exact hcalls
  refine ⟨p, b, ⟨hproto, ⟨w, a, hw, ha, hins⟩, hbind⟩, fun c => ?_⟩
  obtain ⟨d, hrun, -, hd⟩ := FrameLayout.run_prologue hsound c
  refine ⟨d, hrun, hd, FrameInput.areas_disjoint hi hroom hd, fun q => FrameInput.savePlace_inside d.rsp, ?_, ?_⟩
  · intro hadj
    exact ⟨FrameInput.callStackSize_of_not_adjusted hroom hadj,
      fun x hx => hzone ▸ FrameInput.below_in_redZone hi hadj hx⟩
  · intro x hx n m hm hindex hdisp
    obtain ⟨o', ho', hbound⟩ := Build.bindAll_operandAt (ItemSeq.nodup_range _ _) (hrange ▸ hx) hbind hm
    obtain ⟨m', rfl, hm'⟩ := Build.bindOperand_mem ho'
    refine ⟨m', hbound, fun e he => ⟨fun slot hhome => ?_, fun k y info offset hk hinfo hloc hfit => ?_⟩⟩
    · rw [hctx] at hm' ⊢
      exact FrameInput.slot_address hi hbytes he hindex hdisp hhome hm'
    · obtain ⟨z, hz, hpass⟩ := hseats.passing hk hinfo hloc
      refine ⟨z, hz, fun hhome => FrameInput.argument_address hi hd he hindex hdisp ?_ hfit hm'⟩
      rw [hhome, Variable.home?, hpass]

end Compile

/-- The first function of a program on its way through lowering. -/
structure Lowering where
  source : Session
  start : Compilation Recorder
  record : FunctionRecord
  stop : ItemId
  prototype : Prototype
  prepared : Session
  last : ItemId
  frame : FrameLayout
  lowered : Session

namespace Lowering
open Build

/-- The function with the code of its frame, before its homes are bound. -/
def framed? (q : Lowering) : Option Session :=
  match translateAll q.record.item q.prepared with
  | .error _ _ => none
  | .ok _ w =>
    match layOutFrame q.record q.prototype w with
    | .error _ _ => none
    | .ok frame a =>
      match insertFrameCode q.record frame a with
      | .error _ _ => none
      | .ok _ b => some b

theorem framed?_of_stages {q : Lowering} {frame : FrameLayout} {last : ItemId} {u : Session}
    (h : u.Stages q.prepared q.record last frame q.prototype b t) : q.framed? = some b := by
  obtain ⟨w, a, hw, ha, hb⟩ := h.framed
  simp only [framed?, hw, ha, hb]

end Lowering

namespace Builder
open Build

def lowerFirst (calls : List Call) : Option Lowering :=
  match program calls {} with
  | .error _ _ => none
  | .ok _ s =>
    match Compile.defineLabels 0 s.labelCount ⟨s, Encoder.fresh⟩ with
    | .error _ _ => none
    | .ok _ c => do
      let record ← c.session.functions[0]?
      let stop ← record.stop
      let p ← c.session.prototypes[record.prototype.index]?
      match prepareFunction ⟨0⟩ record stop p c.session, lowerFunction ⟨0⟩ c.session with
      | .ok _ v, .ok (_, last, frame) t => some ⟨s, c, record, stop, p, v, last, frame, t⟩
      | _, _ => none

theorem lowerFirst_ok (h : lowerFirst calls = some q)
    (ho : q.source.items.order.head? = some q.record.item)
    (hf : Compile.opens? q.start.session q.record.item = some ⟨0⟩) : program calls {} = .ok () q.source ∧
      Compile.Lowers Recorder q.source ⟨0⟩ q.record q.stop q.last q.frame q.start.session q.prepared q.lowered ∧
      q.start.session.prototypes[q.record.prototype.index]? = some q.prototype := by
  unfold lowerFirst at h
  split at h
  · cases h
  rename_i hp
  split at h
  · cases h
  rename_i c hc
  simp only [Option.bind_eq_bind, Option.bind_eq_some_iff] at h
  obtain ⟨record, hr, stop, hstop, p, hproto, h⟩ := h
  split at h
  · rename_i v start last frame t hv ht
    cases h
    have hprep : c.session.Prepared ⟨0⟩ record stop v := ⟨hr, hstop, p, hproto, hv⟩
    obtain ⟨rfl, -⟩ := lowerFunction_ok hprep ht
    obtain ⟨rest, hrest⟩ := head?_eq_some_iff.mp ho
    exact ⟨hp, ⟨⟨rest, c.encoder, c, hc, hrest ▸ .refl⟩, hf, hprep, ht⟩, hproto⟩
  · cases h

/-- A function that stores to the home of a variable, and loads its seventh parameter from the stack. -/
def loadsSeventh : List Call :=
  [.newFunction [.gpq, .gpq, .gpq, .gpq, .gpq, .gpq, .gpq] [.gpq] {}, .newVar .gpq,
    .emit .mov [.mem (.ofVar ⟨7⟩ 8), .imm 5], .emit .mov [.var ⟨⟨0⟩, 8⟩, .mem (.ofVar ⟨6⟩ 8)], .ret [.var ⟨⟨0⟩, 8⟩],
    .endFunction]

end Builder

namespace Compile

/-- The seventh parameter is loaded from above the return address, in a frame whose spill slot lies in the red zone. -/
theorem Lowers.homes_addressed_seventh : ∃ s record stop last frame u v t p b,
    Builder.program Builder.loadsSeventh { options := {} } = .ok () s ∧
    Lowers Recorder s ⟨0⟩ record stop last frame u v t ∧ frame.stackSubtract + frame.pushPopSize < 2 ^ 31 ∧
    u.Stages v record last frame p b t ∧ frame.adjusted = false ∧ frame.memSize16 = 16 ∧
    b.operandAt ⟨4⟩ 1 = some (.mem (.atHome (.argument 8) 8)) ∧ ∀ c : Cpu, ∃ d, c.run frame.prologue = some d ∧
      (frame.areas c.rsp d).Pairwise Range.Disjoint ∧ ∃ m, t.operandAt ⟨4⟩ 1 = some (.mem m) ∧
        ∀ e, frame.InBody d e → e.address? m = some (c.rsp + 8#64) := by
  obtain ⟨q, hq, hd⟩ := Option.any_eq_true _ _ |>.mp (show (Builder.lowerFirst Builder.loadsSeventh).any (fun q =>
      q.source.items.order.head? = some q.record.item ∧ opens? q.start.session q.record.item = some ⟨0⟩ ∧
      q.frame.stackSubtract + q.frame.pushPopSize < 2 ^ 31 ∧ q.frame.adjusted = false ∧ q.frame.memSize16 = 16 ∧
      q.frame.frameSize < 2 ^ 31 ∧ ⟨4⟩ ∈ q.lowered.items.range q.record.item q.last ∧ q.record.args[6]? = some ⟨6⟩ ∧
      q.prototype.args[6]?.map ArgumentInfo.location = some (.stack 0) ∧
      q.framed?.any (fun b => b.operandAt ⟨4⟩ 1 = some (.mem (.atHome (.argument 8) 8)) ∧
        (b.vars.get? ⟨6⟩).map Variable.home? = some (some (.argument 8)))) = true by decide +kernel)
  obtain ⟨ho, hf, hsmall, hadj, hsize, hfit, hmem, harg, hloc, hframed⟩ := of_decide_eq_true hd
  obtain ⟨info, hinfo, hloc⟩ := Option.map_eq_some_iff.mp hloc
  obtain ⟨hp, hl, hproto⟩ := Builder.lowerFirst_ok hq ho hf
  obtain ⟨p, b, hstages, hrun⟩ := hl.homes_addressed hp hsmall
  cases hproto.symm.trans hstages.prototype
  rw [Lowering.framed?_of_stages hstages] at hframed
  obtain ⟨hoperand, hhome⟩ := of_decide_eq_true hframed
  refine ⟨_, _, _, _, _, _, _, _, _, b, hp, hl, hsmall, hstages, hadj, hsize, hoperand, fun c => ?_⟩
  obtain ⟨d, hd, -, hareas, -, -, hbound⟩ := hrun c
  obtain ⟨m, hm, haddress⟩ := hbound _ hmem _ _ hoperand rfl rfl
  refine ⟨d, hd, hareas, m, hm, fun e he => ?_⟩
  obtain ⟨z, hz, hat⟩ := (haddress e he).2 6 _ info 0 harg hinfo hloc hfit
  rw [hz, Option.map_some, Option.some_inj] at hhome
  simpa [Mem.atHome] using hat hhome.symm

end Compile

end Codegen
