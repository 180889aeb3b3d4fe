import Codegen.Proofs.Jumps
import Codegen.Proofs.ParallelCopy

/-! The account that the allocator keeps of the registers that code writes. Every register that it puts to use is one that
it may hand out, and it is marked as modified if the caller counts on it; all code that is emitted on the way writes such
registers only. -/
namespace Codegen
open List Build Session Variable Operand ItemKind RegMask Instruction Opcode
variable {next : Option ItemId}
variable {s : Session}
variable {may : Effect → Prop} {ty : VarType}

/-- The instruction is in `E`, or all registers that it writes are in `R`. -/
def Instruction.WritesIn (E : Instruction → Prop) (R : Reg → Prop) (i : Instruction) : Prop :=
  E i ∨ ∀ r ∈ i.destinations, R r

theorem Action.usable (ha : Action h e c h') : h'.Usable r ↔ h.Usable r := by
  cases ha with
  | spill | await | forget =>
    unfold Holdings.vacate
    split <;> rfl
  | _ => rfl

theorem Run.destinations_usable (hm : ¬ may .other)
    (hr : Run may h c h') (hc : Coherent h) : ∀ i ∈ c, ∀ r ∈ i.destinations, h.Usable r := by
  induction hr with
  | refl => simp
  | step he ha _ ih =>
    intro i hi r hr
    rcases mem_append.mp hi with hi | hi
    · obtain ⟨x, hx⟩ := ha.destinations_occupied hc (fun e => hm (e ▸ he)) hi hr
      exact ha.usable.mp ((hc.action ha).occupied hx).1
    · exact ha.usable.mp (ih (hc.action ha) i hi r hr)

/-- The instruction that adjusts the stack again after a call that pops its arguments. -/
def Prototype.readjustment (p : Prototype) : Instruction := ⟨.sub, [.gpq Gp.rsp, .imm p.argsStackSize]⟩

namespace Session

/-- Only effects lie between the sessions. The code in between writes registers in `U`, and they are accounted for. -/
structure Guards (f : FunctionId) (E : Instruction → Prop) (U R : Reg → Prop) (s s' : Session) : Prop
    extends s.Accounts E R s' where
  moves : s.Moves f (fun _ => True) s'
  usable : ∃ code, s'.items = s.items.generateAll s.mark code ∧ ∀ i ∈ code, E i ∨ ∀ r ∈ i.destinations, U r

theorem Tends.named {id : VarId} (hs : s.Tends f V) (hv : V id) (hx : s.vars.get? id = some v) : v.id = id := by
  obtain ⟨w, hw⟩ := hs.owns id hv
  obtain ⟨x, hx', -, rfl⟩ := holdings_vars.mp hw
  cases hx ▸ hx'
  exact (hs.coherent.named hw :)

namespace Guards

theorem refl (s : Session) : s.Guards f E U R s := ⟨.refl s, .refl s, [], rfl, by simp⟩

theorem of_plain (hm : s.Moves f (fun _ => True) t)
    (hp : Plain .all (WritesIn E fun r => U r ∧ R r) R m) (h : m s = .ok a t) :
    s.Guards f E U R t := by
  have hu := hp.undergoes s a t h
  obtain ⟨c, hc, hi⟩ := hu.code
  exact ⟨⟨hu.toFrame, hu.marks, fun hr => (hu.held hr).symm.imp_right .inr, c, hi,
      fun i hi => (hc i hi).imp_right fun hw r hr => .inr (.inr (hw r hr).2)⟩, hm, c, hi,
    fun i hi => (hc i hi).imp_right fun hw r hr => (hw r hr).1⟩

theorem trans (h : s.Guards f E U R t) (h' : t.Guards f E U R u) : s.Guards f E U R u := by
  refine ⟨h.toAccounts.trans h'.toAccounts, h.moves.trans h'.moves, ?_⟩
  obtain ⟨c, hc, hd⟩ := h.usable
  obtain ⟨c', hc', hd'⟩ := h'.usable
  refine ⟨c ++ c', by rw [hc', hc, h.mark_eq, ItemSeq.generateAll_append], fun i hi => ?_⟩
  exact (mem_append.mp hi).elim (hd i) (hd' i)

theorem of_moves (hm : ¬ may .other) (hc : Coherent (s.holdings f))
    (hU : ∀ r, (s.holdings f).Usable r → U r) (hst : s.Moves f may t) : s.Guards f E U R t := by
  refine ⟨hst.accounts hm hc, hst.mono fun _ _ => trivial, ?_⟩
  obtain ⟨c, hr, hi⟩ := hst.run
  exact ⟨c, hi, fun i hmem => .inr fun r hd => hU r (hr.destinations_usable hm hc i hmem r hd)⟩

/-- Where nothing is asked of code and registers, effects are enough. -/
theorem of_effects (hE : ∀ i, E i) (hR : ∀ r, R r) (hst : s.Moves f may t) : s.Guards f E U R t := by
  obtain ⟨c, -, hi⟩ := hst.run
  exact ⟨⟨hst.toFrame, hst.marks, fun _ => .inr (.inr (hR _)), c, hi, fun i _ => .inl (hE i)⟩,
    hst.mono fun _ _ => trivial, c, hi, fun i _ => .inl (hE i)⟩

theorem absorb (h : s.Guards f E U (fun q => R q ∨ q = r) t) (hr : t.Marked r ∨ R r) : s.Guards f E U R t := by
  refine ⟨h.toAccounts.absorb fun q hq => ?_, h.moves, h.usable⟩
  rcases hq with hq | rfl
  · exact .inr hq
  · exact hr

theorem marking (h : s.Guards f E U (fun q => R q ∨ q = r) t) (hr : r.index < 32 ∨ R r)
    (hm : markModified r t = .ok () u) : s.Guards f E U R u := by
  have htu : t.Guards f E U (fun q => R q ∨ q = r) u := by
    obtain ⟨hf, hi, hh⟩ := markModified_ok hm
    exact .of_plain (.quiet hf hh hi) .mark hm
  exact (h.trans htu).absorb (hr.imp_left (marked_of_markModified · hm))

end Guards

/-- From a session where the allocator has the variables in `V` and hands out registers in `U` only, the other one is
reached with the registers guarded. -/
def Secures (f : FunctionId) (V : VarId → Prop) (E : Instruction → Prop) (U R : Reg → Prop) (s s' : Session) : Prop :=
  s.Tends f V → (∀ r, (s.holdings f).Usable r → U r) → s.Guards f E U R s'

instance (f : FunctionId) (V : VarId → Prop) (E : Instruction → Prop) (U R : Reg → Prop) :
    IsPreorder Session (Secures f V E U R) where
  refl s _ _ := .refl s
  trans _ _ _ h h' hs hU := (h hs hU).trans
    (h' (hs.moves (h hs hU).moves) fun r hr => hU r ((h hs hU).moves.usable.mp hr))

end Session

namespace Build
variable {id : VarId}
  {item : ItemId}

instance : Stores (WritesIn E R) := ⟨fun _ h => .inr (by simp [h])⟩

/-- The step guards the registers. -/
abbrev Securing (f : FunctionId) (V : VarId → Prop) (E : Instruction → Prop) (U R : Reg → Prop) (m : Build α) : Prop :=
  Ensures (Secures f V E U R) m

namespace Ensures

theorem securing (hw : Working f V m)
    (hp : Plain .all (WritesIn E fun r => U r ∧ R r) R m) : Securing f V E U R m :=
  fun s a s' h ht _ => .of_plain (hw s a s' h ht) hp h

theorem emitting_securing (hc : ∀ i ∈ code, E i ∨ ∀ r ∈ i.destinations, U r ∧ R r) :
    Securing f V E U R (emitAll code) := .securing .emitting (.emit hc)

theorem marked_securing (hr : r.index < 32 ∨ R r)
    (hk : Securing f V E U (fun q => R q ∨ q = r) (k ())) : Securing f V E U R (markModified r >>= k) := by
  intro s a s' h ht hU
  obtain ⟨_, t, hm, h⟩ := bind_ok.mp h
  have hst : s.Guards f E U (fun q => R q ∨ q = r) t := .of_plain (markModified_working _ _ _ hm ht) .mark hm
  have hts := hk _ _ _ h (ht.moves hst.moves) fun q hq => hU q (hst.moves.usable.mp hq)
  exact (hst.trans hts).absorb (hr.imp_left fun hr => hts.marks (marked_of_markModified hr hm))

theorem getVar_securing (hv : V id) (hk : ∀ v, v.id = id → Securing f V E U R (k v)) :
    Securing f V E U R (Build.getVar id >>= k) := by
  intro s a s' h hs hU
  obtain ⟨v, t, hget, h⟩ := bind_ok.mp h
  obtain ⟨hx, rfl⟩ := getVar_ok.mp hget
  exact hk v (hs.named hv hx) s a s' h hs hU

end Ensures

theorem allocVar_securing (hv : V id) : Securing f V E U R (allocVar id mask access) := by
  intro s a s' h hs hU
  obtain ⟨v, hv⟩ := hs.owns id hv
  have hmay : ¬ Effect.allocates id access .other := fun h => h
  exact .of_moves hmay hs.coherent hU (allocVar_moves hs.coherent hv h).1

theorem homeOperand_securing (hv : V id) : Securing f V E U R (homeOperand id) :=
  .securing (homeOperand_working hv) homeOperand_plain

section Call

theorem callScratch_securing {cls : RegClass}
    (hk : ∀ r, r.cls = cls → U r → Securing f V E U (fun q => R q ∨ q = r) (k r)) :
    Securing f V E U R (callScratch cls p >>= k) := by
  intro s a s' h hs hU
  simp only [callScratch, bind_ok] at h
  obtain ⟨r, t, ⟨_, _, ⟨⟩, h⟩, hrest⟩ := h
  cases hf : ((((s.ctx.freeRegs cls).diff (p.preserved.get cls)).diff (p.passed.get cls)).first?.orElse
      fun _ => (s.ctx.freeRegs cls).first?) with
  | none => simp only [hf, throw_ok] at h
  | some i =>
    simp only [hf, bind_ok] at h
    obtain ⟨_, t', hm, ⟨⟩⟩ := h
    have hfree : (s.ctx.freeRegs cls).contains i = true := by
      cases hb : (((s.ctx.freeRegs cls).diff (p.preserved.get cls)).diff (p.passed.get cls)).first? with
      | none =>
        rw [hb] at hf
        exact contains_of_first? hf
      | some j =>
        rw [hb] at hf
        cases hf
        exact (contains_diff.mp (contains_diff.mp (contains_of_first? hb)).1).1
    have hal := (contains_freeRegs.mp hfree).1
    have hstep : Securing f V E U R (markModified ⟨cls, i⟩ >>= fun _ => k ⟨cls, i⟩) :=
      .marked_securing (.inl (BitVec.lt_of_getLsbD hal)) (hk ⟨cls, i⟩ rfl (hU _ (usable_iff.mpr hal)))
    exact hstep s a s' (bind_ok.mpr ⟨_, _, hm, hrest⟩) hs hU

theorem passOnStack_securing {offset : Nat} (hv : ∀ id ∈ o.vars, V id) :
    Securing f V E U R (passOnStack p o ty offset) := by
  have hstore : ∀ {m : Mem} {src : Operand} {R : Reg → Prop}, Securing f V E U R
      (emitAll [⟨stackStore ty, [.mem m, src]⟩]) := by
    intro m src R
    refine .emitting_securing fun i hi => .inr fun r hr => ?_
    rw [mem_singleton.mp hi, Instruction.destinations, destinations_store] at hr
    cases hr
  unfold passOnStack
  split
  · refine .getVar_securing (hv _ mem_cons_self) fun v hid => ?_
    split
    · exact hstore
    split
    · refine callScratch_securing fun r _ hr => .bind (homeOperand_securing (hid ▸ hv _ mem_cons_self))
        fun _ => .emitting_securing fun i hi => .inr fun q hq => ?_
      rcases mem_pair.mp hi with rfl | rfl
      · rw [Instruction.destinations, destinations_move] at hq
        obtain rfl : q = r := by simpa [ofReg, reg?] using hq
        exact ⟨hr, .inr rfl⟩
      · rw [Instruction.destinations, destinations_store] at hq
        cases hq
    · exact .pure _
  · split
    · refine .emitting_securing fun i hi => .inr fun r hr => ?_
      rw [mem_singleton.mp hi] at hr
      cases hr
    refine callScratch_securing fun r hcls hr => .emitting_securing fun i hi => .inr fun q hq => ?_
    rcases mem_pair.mp hi with rfl | rfl
    · obtain rfl : q = r := by
        cases r
        cases hcls
        exact mem_singleton.mp hq
      exact ⟨hr, .inr rfl⟩
    · cases hq
  · exact hstore
  · exact .throw _
  · exact .throw _

theorem passStackArgs_securing {args : List Operand} (hv : ∀ o ∈ args, ∀ id ∈ o.vars, V id) :
    Securing f V E U R (passStackArgs p args) := by
  refine .forM fun ⟨o, info⟩ hm => ?_
  dsimp only
  split
  · exact passOnStack_securing (hv o (of_mem_zip hm).1)
  · exact .pure _

theorem placeCallTarget_securing (hv : ∀ id ∈ o.vars, V id) : Securing f V E U R (placeCallTarget p o) := by
  refine .bind .get fun s =>
    .bind (.forM fun v hm => allocVar_securing (hv v (registerVars_subset hm))) fun _ =>
    .bind (.securing (resolveOperand_working hv) resolveOperand_plain) fun o' => ?_
  split <;> exact .pure _

theorem emitRegCopy_securing {dst : Reg} (hU : U dst) (hd : dst.index < 32 ∨ R dst) :
    Securing f V E U R (emitRegCopy dst src) := by
  intro s a s' h ht hs
  simp only [emitRegCopy, check_ok, bind_ok] at h
  obtain ⟨-, _, t, he, hm⟩ := h
  have hemit : Securing f V E U (fun q => R q ∨ q = dst)
      (emitAll [⟨dst.cls.copyOpcode.1, [.ofReg dst dst.cls.copyOpcode.2, .ofReg src dst.cls.copyOpcode.2]⟩]) := by
    refine .emitting_securing fun i hi => .inr fun q hq => ?_
    rw [mem_singleton.mp hi, Instruction.destinations, destinations_copy] at hq
    obtain rfl : q = dst := by simpa [ofReg, reg?] using hq
    exact ⟨hU, .inr rfl⟩
  exact (hemit _ _ _ he ht hs).marking hd hm

theorem emitSwap_securing (hc : a.cls = b.cls) (ha : U a ∧ R a) (hb : U b ∧ R b) :
    Securing f V E U R (emitSwap a.cls (.ofReg a n) (.ofReg b n) a.index b.index) := by
  obtain ⟨c, i⟩ := a
  obtain ⟨d, j⟩ := b
  cases hc
  cases c with
  | gp =>
    refine .emitting_securing fun k hk => .inr fun q hq => ?_
    rw [mem_singleton.mp hk] at hq
    rcases mem_pair.mp hq with rfl | rfl
    · exact ha
    · exact hb
  | mm | xmm =>
    refine .emitting_securing fun k hk => .inr fun q hq => ?_
    rcases mem_cons.mp hk with rfl | hk
    · rcases mem_singleton.mp hq with rfl
      exact ha
    rcases mem_pair.mp hk with rfl | rfl
    · rcases mem_singleton.mp hq with rfl
      exact hb
    · rcases mem_singleton.mp hq with rfl
      exact ha

theorem emitCopyStep_securing (hc : c.Within fun r => U r ∧ (r.index < 32 ∨ R r)) :
    Securing f V E U R (emitCopyStep c) := by
  cases c with
  | copy dst src => exact emitRegCopy_securing hc.1.1 hc.1.2
  | swap a b =>
    obtain ⟨⟨haU, ha⟩, ⟨hbU, hb⟩, hcls⟩ := hc
    intro s _ s' h ht hs
    simp only [emitCopyStep, bind_ok] at h
    obtain ⟨_, t, he, _, u, hma, hmb⟩ := h
    have hswap : Securing f V E U (fun q => (R q ∨ q = b) ∨ q = a) (emitSwap a.cls
        (.ofReg a a.cls.copyOpcode.2) (.ofReg b a.cls.copyOpcode.2) a.index b.index) :=
      emitSwap_securing hcls ⟨haU, .inr rfl⟩ ⟨hbU, .inl (.inr rfl)⟩
    exact ((hswap _ _ _ he ht hs).marking (ha.imp_right .inl) hma).marking hb hmb

theorem emitArgLoad_securing (hd : U l.dst ∧ (l.dst.index < 32 ∨ R l.dst)) (hv : ∀ v, l.source = .home v → V v) :
    Securing f V E U R (emitArgLoad l) := by
  refine .marked_securing hd.2 ?_
  split
  · rename_i id hs
    refine .bind .getVar fun v => .bind (homeOperand_securing (hv id hs)) fun o =>
      .emitting_securing fun i hi => .inr fun q hq => ?_
    rw [mem_singleton.mp hi, Instruction.destinations, destinations_move] at hq
    obtain rfl : q = l.dst := by simpa [ofReg, reg?] using hq
    exact ⟨hd.1, .inr rfl⟩
  · intro s a s' h ht hs
    obtain ⟨hcls, h⟩ := check_ok.mp h
    refine Ensures.emitting_securing (fun i hi => .inr fun q hq => ?_) s a s' h ht hs
    rw [mem_singleton.mp hi] at hq
    obtain rfl : q = l.dst := by
      obtain ⟨⟨c, i⟩, source⟩ := l
      obtain rfl : c = .gp := by simpa using hcls
      exact mem_singleton.mp hq
    exact ⟨hd.1, .inr rfl⟩

theorem receiveResult_securing (hv : V id) : Securing f V E U R (receiveResult id r) :=
  .bind .getVar fun _ => .check (allocVar_securing hv)

/-- A call guards the registers, but for the stack pointer where the callee pops the arguments. It takes no register as an
argument, unless nothing is asked of code and registers. -/
theorem translateCall_guards (hs : s.Tends f V)
    (hU : ∀ r, (s.holdings f).Usable r → U r) (hv : ∀ v ∈ (call c).vars, V v)
    (hregs : ((∀ i, E i) ∧ ∀ r, R r) ∨ ∀ o ∈ c.args, o.reg? = none)
    (hproto : ∀ p, s.prototypes[c.prototype.index]? = some p →
      (∀ info ∈ p.args, ∀ r, info.location = .register r → U r ∧ (r.index < 32 ∨ R r)) ∧
        (p.calleePopsStack = true → E p.readjustment)) (h : translateCall item c s = .ok next s') :
    s.Guards f E U R s' := by
  have hvargs : ∀ o ∈ c.args, ∀ v ∈ o.vars, V v := fun o hm v hmv =>
    hv v (mem_append_left _ (mem_flatMap.mpr ⟨o, mem_append_left _ hm, hmv⟩))
  have hvtarget : ∀ v ∈ c.target.vars, V v := fun v hmv =>
    hv v (mem_append_left _ (mem_flatMap.mpr ⟨c.target, mem_append_right _ mem_cons_self, hmv⟩))
  obtain ⟨p, _, hget, h⟩ := bind_ok.mp h
  obtain ⟨hp, rfl⟩ := getPrototype_ok.mp hget
  obtain ⟨hargs, hE⟩ := hproto p hp
  obtain ⟨-, h⟩ := check_ok.mp h
  refine Ensures.bind (.forM fun v hm => .securing (claimVar_working (hv v (vars_of_call hm))) (claimVar_plain trivial))
    (fun _ => ?_) s next s' h hs hU
  refine .bind (.securing (forClobbered_working fun _ => clearForCall_working (.inr rfl))
      (forClobbered_plain fun _ => clearForCall_plain trivial)) fun _ =>
    .bind (passStackArgs_securing hvargs) fun _ => .bind (placeCallTarget_securing hvtarget) fun target =>
    .bind (.securing (forClobbered_working fun _ => saveForCall_working (.inr rfl))
      (forClobbered_plain fun _ => saveForCall_plain)) fun _ => ?_
  intro t a t' h ht hUt
  obtain ⟨⟨moves, loads⟩, u, hr, hrun⟩ := bind_ok.mp h
  have hzip : ∀ a ∈ c.args.zip p.args, a.1 ∈ c.args ∧ a.2 ∈ p.args := fun a => of_mem_zip
  have hvar : ∀ a ∈ c.args.zip p.args, ∀ ref, a.1 = .var ref → V ref.id := fun a ha ref he =>
    hvargs _ (hzip a ha).1 _ (by rw [he]; exact mem_cons_self)
  obtain ⟨rfl, hmoves, hloads⟩ := registerArgs_ok
    (P := fun m => ((∀ i, E i) ∧ ∀ r, R r) ∨ m.Within fun r => U r ∧ (r.index < 32 ∨ R r))
    (Q := fun d => (U d.dst ∧ (d.dst.index < 32 ∨ R d.dst)) ∧ ∀ v, d.source = .home v → V v)
    (fun a ha dst r _ he => hregs.imp_right fun hregs => by
      have hnone := hregs _ (hzip a ha).1
      rw [he] at hnone
      cases hnone)
    (fun a ha dst ref v r hloc he hv hr hcls => by
      obtain ⟨w, hw⟩ := ht.owns ref.id (hvar a ha ref he)
      obtain ⟨x, hx, -, rfl⟩ := holdings_vars.mp hw
      cases hv ▸ hx
      have hu := (ht.coherent.occupied (ht.coherent.occupant_of_currentReg hw hr)).1
      exact .inr ⟨hargs _ (hzip a ha).2 dst hloc, ⟨hUt r hu, .inl (BitVec.lt_of_getLsbD hu)⟩,
        hcls.symm.trans (currentReg_eq_some.mp hr).2.2⟩)
    (fun a ha dst source hloc hsrc => ⟨hargs _ (hzip a ha).2 dst hloc, fun v hv => by
      obtain ⟨ref, x, he, hx, rfl⟩ := hsrc v hv
      exact ht.named (hvar a ha ref he) hx ▸ hvar a ha ref he⟩) hr
  have hsteps : ∀ c ∈ RegMove.steps moves, Securing f V E U R (emitCopyStep c) := by
    by_cases hfree : (∀ i, E i) ∧ ∀ r, R r
    · exact fun c _ s a s' h hs _ => .of_effects hfree.1 hfree.2 (emitCopyStep_working _ _ _ h hs)
    · exact fun c hc =>
        emitCopyStep_securing (RegMove.steps_within moves (fun m hm => (hmoves m hm).resolve_left hfree) c hc)
  refine Ensures.bind (.forM hsteps) (fun _ => ?_) _ a t' hrun ht hUt
  refine .bind (.forM fun l hl => emitArgLoad_securing (hloads l hl).1 (hloads l hl).2) fun _ =>
    .bind (.securing (forClobbered_working fun _ => dropForCall_working (.inr rfl))
      (forClobbered_plain fun _ => dropForCall_plain trivial)) fun _ =>
    .bind (.emitting_securing fun i hi => .inr fun r hr => ?_) fun _ => ?_
  · rw [mem_singleton.mp hi] at hr
    cases hr
  have hrest : Securing f V E U R (do
      (c.returns.zip p.returns).forM fun q => receiveResult q.1 q.2.2
      retireActiveAt item
      return (← get).items.next? item : Build (Option ItemId)) := by
    refine .bind (.forM fun r hr => ?_) fun _ =>
      .bind (.securing retireActiveAt_working (retireActiveAt_plain fun _ => trivial)) fun _ => .bind .get fun _ => .pure _
    exact receiveResult_securing (hv _ (mem_append_right _ (of_mem_zip hr).1))
  split
  · rename_i hpop
    rw [Bool.and_eq_true] at hpop
    exact .bind (.emitting_securing fun i hi => .inl (mem_singleton.mp hi ▸ hE hpop.1)) fun _ => hrest
  · exact hrest

theorem translateCall_moves (hs : s.Tends f V) (hv : ∀ v ∈ (call c).vars, V v)
    (h : translateCall item c s = .ok next s') : s.Moves f (fun _ => True) s' :=
  (translateCall_guards (E := fun _ => True) (U := fun _ => True) (R := fun _ => True) hs (fun _ _ => trivial) hv
    (.inl ⟨fun _ => trivial, fun _ => trivial⟩)
    (fun _ _ => ⟨fun _ _ _ _ => ⟨trivial, .inr trivial⟩, fun _ => trivial⟩) h).moves

end Call

section Return

theorem markModified_securing : Securing f V E U R (markModified r) := .securing markModified_working .mark

theorem emitReturnVar_securing (hr : U r ∧ R r) (hv : V v.id) : Securing f V E U R (emitReturnVar v ty r) := by
  have hmove : ∀ src, Securing f V E U R (emitAll [⟨(returnMove v.ty ty).1, [.ofReg r v.ty.regSize, src]⟩]) := by
    refine fun src => .emitting_securing fun i hi => .inr fun q hq => ?_
    rw [mem_singleton.mp hi, Instruction.destinations, destinations_returnMove] at hq
    obtain rfl : q = r := by simpa [ofReg, reg?] using hq
    exact hr
  unfold emitReturnVar
  refine .check ?_
  dsimp only
  split
  · split
    · exact hmove _
    · exact .pure _
  · split
    · exact .bind (homeOperand_securing hv) hmove
    · exact .pure _

/-- Results may be written to the register. The exchange of two results takes their registers for general purpose
ones. -/
def Returnable (U R : Reg → Prop) (ret : VarType × Reg) : Prop :=
  (U ret.2 ∧ R ret.2) ∧ U (.gp ret.2.index) ∧ R (.gp ret.2.index)

theorem emitReturnValue_securing {ret : VarType × Reg} (hret : Returnable U R ret)
    (hv : ∀ id ∈ o.vars, V id) : Securing f V E U R (emitReturnValue o ret) := by
  obtain ⟨ty, r⟩ := ret
  obtain ⟨hr, -⟩ := hret
  refine .bind markModified_securing fun _ => ?_
  split
  · exact .getVar_securing (hv _ mem_cons_self) fun v hid =>
      emitReturnVar_securing hr (hid ▸ hv _ mem_cons_self)
  · intro s a s' h ht hs
    obtain ⟨hcls, h⟩ := check_ok.mp h
    refine Ensures.emitting_securing (fun i hi => .inr fun q hq => ?_) s a s' h ht hs
    rw [mem_singleton.mp hi] at hq
    obtain rfl : q = r := by
      obtain ⟨c, i⟩ := r
      obtain rfl : c = .gp := by simpa using hcls
      exact mem_singleton.mp hq
    exact hr
  · split
    · exact emitRegCopy_securing hr.1 (.inr hr.2)
    · exact .pure _
  · exact .throw _
  · exact .throw _

theorem emitReturnPair_securing (hr : Returnable U R r) (hq : Returnable U R q)
    (ha : ∀ id ∈ a.vars, V id) (hb : ∀ id ∈ b.vars, V id) : Securing f V E U R (emitReturnPair a b r q) := by
  refine .bind (.securing operandReg_working operandReg_plain) fun _ =>
    .bind (.securing operandReg_working operandReg_plain) fun _ => ?_
  split
  · refine .emitting_securing fun i hi => .inr fun w hw => ?_
    rw [mem_singleton.mp hi] at hw
    rcases mem_pair.mp hw with rfl | rfl
    · exact hr.2
    · exact hq.2
  · split
    · exact .bind (emitReturnValue_securing hq hb) fun _ => emitReturnValue_securing hr ha
    · exact .bind (emitReturnValue_securing hr ha) fun _ => emitReturnValue_securing hq hb

theorem emitReturnValues_securing {operands : List Operand} {returns : List (VarType × Reg)}
    (hr : ∀ ret ∈ returns, Returnable U R ret) (hv : ∀ v ∈ operands.flatMap Operand.vars, V v) :
    Securing f V E U R (emitReturnValues operands returns) := by
  have hop : ∀ o ∈ operands, ∀ v ∈ o.vars, V v := fun o ho v hmv => hv v (mem_flatMap.mpr ⟨o, ho, hmv⟩)
  unfold emitReturnValues
  split
  · exact emitReturnPair_securing (hr _ (by simp)) (hr _ (by simp)) (hop _ (by simp)) (hop _ (by simp))
  · exact emitReturnValue_securing (hr _ (by simp)) (hop _ (by simp))
  · exact .pure _

theorem translateReturn_guards (hs : s.Tends f V)
    (hU : ∀ r, (s.holdings f).Usable r → U r) (hv : ∀ v ∈ (ret r).vars, V v)
    (hret : ∀ returns, s.returnsOf r.function = .ok returns → ∀ ret ∈ returns, Returnable U R ret)
    (h : translateReturn item r s = .ok next s') :
    ∃ t emitJump, s.Guards f E U R t ∧
      ({ t with
          items := t.items.modify item ({ · with kind := .ret { r with emitJump } })
          ctx := { t.ctx with unreachable := emitJump || t.ctx.unreachable } } : Session).Guards f E U R s' ∧
      next = s'.items.next? item := by
  obtain ⟨returns, t, _, _, hreturns, hvals, -, -, hend⟩ := translateReturn_ok h
  obtain ⟨hretire, hnext⟩ := hend _ rfl
  have hg : s.Guards f E U R t := emitReturnValues_securing (hret returns hreturns) hv _ _ t hvals hs hU
  have ht := hs.moves hg.moves
  have hUt : ∀ r, (t.holdings f).Usable r → U r := fun r hr => hU r (hg.moves.usable.mp hr)
  have hretiring : Securing f V E U R (retireActiveAt item) :=
    .securing retireActiveAt_working (retireActiveAt_plain fun _ => trivial)
  exact ⟨t, _, hg, hretiring _ _ _ hretire ⟨ht.coherent, ht.owns, ht.active⟩ hUt, hnext⟩

end Return

end Build

end Codegen
