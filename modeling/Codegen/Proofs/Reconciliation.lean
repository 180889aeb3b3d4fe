import Codegen.Proofs.Entry
import Codegen.Proofs.Restore
import Codegen.Proofs.Translation

/-! Restoring a snapshot of the function being compiled always succeeds, and the code that it emits takes every
value to the place where the snapshot has it. -/
namespace Codegen
open ItemSeq Option Session Variable

namespace ItemSeq
open Build (except_bind_ok except_pure_ok except_check_ok)
variable {s : ItemSeq}

/-- Code can be put where the cursor is. -/
structure Open (s : ItemSeq) : Prop where
  made : ∀ id ∈ s.order, id.index < s.size
  cursor : ∀ id ∈ s.cursor, id ∈ s.order

instance (s : ItemSeq) : Decidable s.Open :=
  decidable_of_iff ((∀ id ∈ s.order, id.index < s.size) ∧ ∀ id ∈ s.cursor, id ∈ s.order)
    ⟨fun ⟨hm, hc⟩ => ⟨hm, hc⟩, fun ⟨hm, hc⟩ => ⟨hm, hc⟩⟩

theorem Open.insert_new (h : s.Open) (kind : ItemKind) : ∃ s', (s.create kind).2.insert ⟨s.size⟩ = .ok s' := by
  have hget : ∀ {id : ItemId}, id.index < s.size + 1 → ∃ item, (s.create kind).2.get? id = some item :=
    fun hid => get?_of_lt_size (by simpa [create, size] using hid)
  obtain ⟨item, hitem⟩ := @hget ⟨s.size⟩ (Nat.lt_succ_self _)
  have hn : (s.create kind).2.isLinked ⟨s.size⟩ = false := by
    have : (⟨s.size⟩ : ItemId) ∉ s.order := fun hid => lt_irrefl _ (h.made _ hid)
    exact Bool.eq_false_iff.mpr (mt isLinked_iff.mp this)
  have hcreate : (s.create kind).2.cursor = s.cursor := rfl
  unfold insert
  cases hc : s.cursor with
  | none =>
    simp only [hcreate, hc, insertFirst, except_bind_ok, get_ok, except_check_ok, except_pure_ok]
    exact ⟨_, _, ⟨item, hitem, by simp [hn], rfl⟩, rfl⟩
  | some anchor =>
    have ha := h.cursor anchor hc
    have hlink : (s.create kind).2.isLinked anchor = true := isLinked_iff.mpr ha
    obtain ⟨item', hitem'⟩ := hget (Nat.lt_succ_of_lt (h.made anchor ha))
    simp only [hcreate, hc, insertAfter, except_bind_ok, get_ok, except_check_ok, except_pure_ok]
    exact ⟨_, _, ⟨item, hitem, by simp [hn], item', hitem', by simp [hlink], rfl⟩, rfl⟩

theorem Open.generate (h : s.Open) (mark : Option Nat) (i : Instruction) : (s.generate mark i).Open := by
  have hmem : ∀ id, id ∈ (s.generate mark i).order ↔ id = ⟨s.size⟩ ∨ id ∈ s.order := by
    intro id
    rw [show (s.generate mark i).order = _ from ids_grown fun hid => lt_irrefl _ (h.made _ hid)]
    cases hc : s.cursor with
    | none => simp
    | some anchor => exact mem_spliceAfter (h.cursor anchor hc)
  refine ⟨fun id hid => ?_, fun id hid => ?_⟩
  · rw [size_generate]
    rcases (hmem id).mp hid with rfl | hid
    · exact Nat.lt_succ_self _
    · exact Nat.lt_succ_of_lt (h.made id hid)
  · cases some.inj hid
    exact (hmem _).mpr (.inl rfl)

theorem Open.generateAll (h : s.Open) (mark : Option Nat) (code : List Instruction) :
    (s.generateAll mark code).Open := by
  induction code generalizing s with
  | nil => exact h
  | cons i code ih => exact ih (h.generate mark i)

end ItemSeq

theorem VarTable.Kept.exists_get? {t t' : VarTable} {id : VarId} (h : t.Kept t')
    (hx : t.get? id = some x) : ∃ y, t'.get? id = some y := by
  obtain ⟨y, hy, -⟩ := h.get?_new hx
  exact ⟨y, hy⟩

namespace Build
variable {s : Session} {id : VarId} {st : Snapshot}

/-- The step comes to an end without an error. -/
def Succeeds {α : Type} (m : Build α) (s : Session) : Prop := ∃ a s', m s = .ok a s'

theorem Succeeds.pure (a : α) : Succeeds (Pure.pure a) s := ⟨a, s, rfl⟩

theorem Succeeds.bind (hm : m s = .ok a t)
    (hk : Succeeds (k a) t) : Succeeds (m >>= k) s := by
  obtain ⟨b, s', hs'⟩ := hk
  exact ⟨b, s', bind_ok.mpr ⟨a, t, hm, hs'⟩⟩

theorem Succeeds.seq (hm : m s = .ok () t)
    (hk : Succeeds (k ()) t) : Succeeds (m >>= k) s :=
  .bind hm hk

theorem forM_total {α : Type} {g : α → Build Unit} {P : Session → Prop} {l : List α}
    (step : ∀ a ∈ l, ∀ t, P t → Succeeds (g a) t ∧ ∀ t', g a t = .ok () t' → P t') (hs : P s) :
    Succeeds (l.forM g) s := by
  induction l generalizing s with
  | nil => exact .pure ()
  | cons a l ih =>
    obtain ⟨⟨_, t, ht⟩, hp⟩ := step a List.mem_cons_self s hs
    exact .bind ht (ih (fun b hb => step b (List.mem_cons_of_mem a hb)) (hp t ht))

theorem emitGenerated_total (ho : s.items.Open) (opcode : Opcode) (operands : List Operand) :
    Succeeds (emitGenerated opcode operands) s := by
  obtain ⟨items, hi⟩ := ho.insert_new (.instruction { opcode, operands })
  refine .bind (create_ok.mpr ⟨rfl, rfl⟩) (.seq (insert_ok.mpr ⟨items, hi, rfl⟩) (.bind (get_ok.mpr ⟨rfl, rfl⟩) ?_))
  dsimp only
  split
  · have hsize : s.items.size < items.size := by
      obtain ⟨-, -, rfl⟩ := ItemSeq.insert_ok hi
      simp [ItemSeq.create, ItemSeq.size]
    obtain ⟨item, hitem⟩ : ∃ item, items.get? ⟨s.items.size⟩ = some item := get?_of_lt_size hsize
    exact .seq (modifyItem_ok.mpr ⟨⟨item, hitem⟩, rfl⟩) (.pure _)
  · exact .pure _

theorem emitAll_total (ho : s.items.Open) (code : List Instruction) : Succeeds (emitAll code) s := by
  refine forM_total (P := fun t => t.items.Open) (fun i _ t ht => ?_) ho
  obtain ⟨item, t', ht'⟩ := emitGenerated_total ht i.opcode i.operands
  refine ⟨.bind ht' (.pure _), fun u hu => ?_⟩
  have hi : emitAll [i] t = .ok () u := forM_cons_ok.mpr ⟨u, hu, forM_nil_ok.mpr rfl⟩
  rw [emitAll_ok hi]
  exact ht.generateAll _ _

theorem resolveHome_total (hx : s.vars.get? id = some x) : Succeeds (resolveHome id) s := by
  refine .bind (getVar_ok.mpr ⟨hx, rfl⟩) ?_
  split
  · exact .pure _
  · exact .pure _
  · exact .bind (get_ok.mpr ⟨rfl, rfl⟩)
      (.seq (modifyContext_ok.mpr rfl) (.seq (modifyVar_ok.mpr ⟨⟨x, hx⟩, rfl⟩) (.pure _)))

theorem homeOperand_total (hx : s.vars.get? id = some x) :
    ∃ o s', homeOperand id s = .ok o s' ∧ s'.items = s.items ∧ ∃ y, s'.vars.get? id = some y := by
  obtain ⟨a, t, ht⟩ := resolveHome_total hx
  obtain ⟨-, hi, -⟩ := @resolveHome_moves _ _ _ (fun _ => True) _ _ trivial (holdings_vars_of_get? hx rfl) _ ht
  obtain ⟨y, hy⟩ := ((resolveHome_plain (D := .all)).extending _ _ _ ht).vars.exists_get? hx
  refine ⟨_, t, bind_ok.mpr ⟨a, t, ht, bind_ok.mpr ⟨y, t, getVar_ok.mpr ⟨hy, rfl⟩, pure_ok.mpr ⟨rfl, rfl⟩⟩⟩, hi, y, hy⟩

theorem saveVar_total (ho : s.items.Open) (hx : s.vars.get? id = some x) (hr : x.currentReg = some r) :
    Succeeds (saveVar id) s := by
  refine .bind (getVar_ok.mpr ⟨hx, rfl⟩) ?_
  obtain ⟨o, t, ht, hi, y, hy⟩ := homeOperand_total hx
  simp only [hr]
  refine .bind ht ?_
  obtain ⟨_, t', ht'⟩ := emitAll_total (hi ▸ ho) [⟨x.ty.moveOpcode, [o, x.regOperand r.index]⟩]
  refine .bind ht' ?_
  rw [emitAll_ok ht']
  exact ⟨(), _, modifyVar_ok.mpr ⟨⟨y, hy⟩, rfl⟩⟩

theorem emitLoad_total (ho : s.items.Open) (hx : s.vars.get? id = some x) (i : Nat) : Succeeds (emitLoad id i) s := by
  refine .bind (getVar_ok.mpr ⟨hx, rfl⟩) ?_
  obtain ⟨o, t, ht, hi, -⟩ := homeOperand_total hx
  refine .bind ht ?_
  obtain ⟨_, t', ht'⟩ := emitAll_total (hi ▸ ho) [⟨x.ty.moveOpcode, [x.regOperand i, o]⟩]
  exact .seq ht' ⟨(), _, modifyStats_ok.mpr rfl⟩

theorem unuseVar_total (state : VarState) (hx : s.vars.get? id = some x) : Succeeds (unuseVar id state) s := by
  -- whether a register is given up or not, the rest finds the same variables
  have key : ∀ t : Session, t.vars = s.vars → Succeeds (do
      if state = .memory then ensureHome id
      modifyVar id ({ · with state, reg := none, changed := false })) t := by
    intro t ht
    rw [← ht] at hx
    split
    · obtain ⟨a, t', ht'⟩ := resolveHome_total hx
      have hkept := ((resolveHome_plain (D := .all)).extending _ _ _ ht').vars
      exact .seq (bind_ok.mpr ⟨a, t', ht', pure_ok.mpr ⟨rfl, rfl⟩⟩)
        ⟨(), _, modifyVar_ok.mpr ⟨hkept.exists_get? hx, rfl⟩⟩
    · exact ⟨(), _, modifyVar_ok.mpr ⟨⟨x, hx⟩, rfl⟩⟩
  refine .bind (getVar_ok.mpr ⟨hx, rfl⟩) ?_
  cases hr : x.currentReg with
  | none => exact key s rfl
  | some r => exact .seq (modifyContext_ok.mpr rfl) (key _ rfl)

theorem spillVar_total (ho : s.items.Open) (hx : s.vars.get? id = some x) (hr : x.currentReg = some r) :
    Succeeds (spillVar id) s := by
  have key : ∀ t : Session, (∃ y, t.vars.get? id = some y) → Succeeds (do
      unuseVar id .memory
      modifyStats fun s => { s with spills := s.spills + 1 }) t := by
    rintro t ⟨y, hy⟩
    obtain ⟨_, t', ht'⟩ := unuseVar_total .memory hy
    exact .seq ht' ⟨(), _, modifyStats_ok.mpr rfl⟩
  refine .bind (getVar_ok.mpr ⟨hx, rfl⟩) ?_
  simp only [hr, isNone_some, Bool.false_eq_true, if_false]
  split
  · obtain ⟨_, t, ht⟩ := saveVar_total ho hx hr
    exact .seq ht (key t (((saveVar_plain (D := .all)).extending _ _ _ ht).vars.exists_get? hx))
  · exact key s ⟨x, hx⟩

theorem enterReg_total (ho : s.items.Open) (hx : s.vars.get? id = some x) (i : Nat) (access : Access) :
    Succeeds (enterReg id x i access) s := by
  have key : ∀ t : Session, (∃ y, t.vars.get? id = some y) → Succeeds (do
      modifyVar id ({ · with state := .register })
      settleIn id ⟨x.cls, i⟩
      markModified ⟨x.cls, i⟩
      modifyStats fun s => { s with registersAllocated := s.registersAllocated + 1 }
      noteAccess id access) t := by
    rintro t ⟨y, hy⟩
    have hnote : ∀ t' : Session, (∃ y, t'.vars.get? id = some y) → Succeeds (noteAccess id access) t' := by
      intro t' hy'
      unfold noteAccess
      split
      · exact ⟨(), _, modifyVar_ok.mpr ⟨hy', rfl⟩⟩
      · exact .pure _
    have hy' := VarTable.get?_modify_self t.vars id ({ · with state := .register })
    rw [hy, map_some] at hy'
    obtain ⟨_, t', ht'⟩ : Succeeds (settleIn id ⟨x.cls, i⟩)
        { t with vars := t.vars.modify id ({ · with state := .register }) } :=
      .seq (modifyVar_ok.mpr ⟨⟨_, hy'⟩, rfl⟩) ⟨(), _, modifyContext_ok.mpr rfl⟩
    have hkept := ((settleIn_plain (D := .all) trivial).extending _ _ _ ht').vars
    exact .seq (modifyVar_ok.mpr ⟨⟨y, hy⟩, rfl⟩) (.seq ht' (.seq (modifyContext_ok.mpr rfl)
      (.seq (modifyStats_ok.mpr rfl) (hnote _ (hkept.exists_get? hy')))))
  unfold enterReg
  split
  · obtain ⟨_, t, ht⟩ := emitLoad_total ho hx i
    exact .seq ht (key t (((emitLoad_plain (D := .all)).extending _ _ _ ht).vars.exists_get? hx))
  · exact key s ⟨x, hx⟩

section
variable (hc : Coherent (s.holdings f))
include hc

theorem evictFor_total (ho : s.items.Open) : Succeeds (evictFor st r) s := by
  refine .bind (get_ok.mpr ⟨rfl, rfl⟩) ?_
  cases hr : s.ctx.registers.occupant r with
  | none => exact .pure _
  | some id =>
    obtain ⟨-, v, hv, hcur⟩ := hc.occupied hr
    obtain ⟨x, hx, -, rfl⟩ := holdings_vars.mp hv
    dsimp only
    split
    · refine .bind (getVar_ok.mpr ⟨hx, rfl⟩) ?_
      split
      · exact saveVar_total ho hx hcur
      · exact .pure _
    · split
      · exact unuseVar_total .unused hx
      · exact spillVar_total ho hx hcur

theorem fillFor_total (hst : st.Fits (s.holdings f))
    (hsuit : ∀ q, (s.holdings f).Suits st q) (ho : s.items.Open) : Succeeds (fillFor st r) s := by
  unfold fillFor
  split
  · rename_i id hr
    refine .bind (get_ok.mpr ⟨rfl, rfl⟩) ?_
    split
    · rename_i hne
      obtain ⟨hfree, x, hx, -, hcls, hn⟩ := absent_of_suits hc hst hsuit hr hne
      obtain ⟨u, s', hs'⟩ := enterReg_total ho hx r.index .read
      exact ⟨u, s', (allocVar_free_ok hx hn hcls (hst.occupied hr).1 hfree).mpr hs'⟩
    · exact .pure _
  · exact .pure _

/-- Restoring a snapshot of the function succeeds wherever code can be put. -/
theorem restoreState_total (hst : st.Fits (s.holdings f)) (ho : s.items.Open)
    (hf : s.ctx.function = some f) : Succeeds (restoreState st) s := by
  have hopen : ∀ {t u : Session} {may : Effect → Prop}, t.Moves f may u → t.items.Open → u.items.Open := by
    rintro t u may hm ht
    obtain ⟨code, -, hi⟩ := hm.run
    exact hi ▸ ht.generateAll _ _
  have hevict : Succeeds (Reg.all.forM (evictFor st)) s :=
    forM_total (P := fun t => Coherent (t.holdings f) ∧ t.items.Open)
      (fun r _ t ⟨hct, hot⟩ => ⟨evictFor_total hct hot, fun t' ht' =>
        have hm := (evictFor_moves hct ht').1
        ⟨hm.coherent hct, hopen hm hot⟩⟩) ⟨hc, ho⟩
  obtain ⟨_, t1, h1⟩ := hevict
  obtain ⟨m1, suit1⟩ := evictAll_moves hc h1
  have hfill : Succeeds (Reg.all.forM (fillFor st)) t1 :=
    forM_total (P := fun t => Coherent (t.holdings f) ∧ st.Fits (t.holdings f) ∧
        (∀ q, (t.holdings f).Suits st q) ∧ t.items.Open)
      (fun r _ t ⟨hct, hfit, hsuit, hot⟩ => ⟨fillFor_total hct hfit hsuit hot, fun t' ht' =>
        have ⟨hm, hsuit', _⟩ := fillFor_moves hct hfit hsuit ht'
        ⟨hm.coherent hct, hfit.moves hm, hsuit', hopen hm hot⟩⟩)
      ⟨m1.coherent hc, hst.moves m1, suit1, hopen m1 ho⟩
  obtain ⟨_, t2, h2⟩ := hfill
  obtain ⟨m2, -⟩ := fillAll_moves (m1.coherent hc) (hst.moves m1) suit1 h2
  have hnum := (m2.coherent (m1.coherent hc)).numbered
  have hplace : Succeeds ((t2.vars.ofFunction f).forM (placeOutside st)) t2 := by
    refine forM_total (P := fun t => ∀ id ∈ t2.vars.ofFunction f, ∃ x, t.vars.get? id = some x) ?_ ?_
    · intro id hid t ht
      unfold placeOutside
      dsimp only
      split
      · refine ⟨⟨(), _, modifyVar_ok.mpr ⟨ht id hid, rfl⟩⟩, fun t' ht' y hy => ?_⟩
        obtain ⟨-, rfl⟩ := modifyVar_ok.mp ht'
        obtain ⟨z, hz⟩ := ht y hy
        refine VarTable.Kept.exists_get? (.modify ?_) hz
        exact fun _ => rfl
      · exact ⟨.pure _, fun t' ht' => (pure_ok.mp ht').2 ▸ ht⟩
    · intro id hid
      obtain ⟨x, hx, -⟩ := hnum.mem_ofFunction.mp hid
      exact ⟨x, hx⟩
  obtain ⟨_, t3, h3⟩ := hplace
  exact .bind (compiling_ok.mpr ⟨hf, rfl⟩) (.seq h1 (.seq h2 (.bind (get_ok.mpr ⟨rfl, rfl⟩)
    (.seq h3 ⟨(), _, modifyStats_ok.mpr rfl⟩))))

end

/-- The states are two moments of the translation of one function: its variables are the same, but for where
they are, and so are the registers that it may use. -/
structure SameFunction (f : FunctionId) (s s₀ : Session) : Prop where
  now : s.ctx.function = some f
  before : s₀.ctx.function = some f
  vars : ∀ id, ((s.holdings f).vars id).map static = ((s₀.holdings f).vars id).map static
  rbp : s.ctx.allocableRbp = s₀.ctx.allocableRbp

/-- Restoring a snapshot keeps the values. Let a coherent allocator agree with a machine on where the values of
the variables are, and let no two variables share a home. Then a snapshot that was taken in the same function is
restored without an error, and the emitted code takes every value that the snapshot still knows to the register
that the snapshot has it in or to its home, and also to its home if that register is as new as the home. -/
theorem restoreState_keeps_values {w : Nat} {s s₀ : Session} {m : Place → BitVec w}
    {σ : VarId → Option (BitVec w)} (hc : Coherent (s.holdings f)) (hp : (s.holdings f).Apart)
    (ho : s.items.Open) (hc₀ : Coherent (s₀.holdings f)) (hsame : SameFunction f s s₀)
    (hst : saveState s₀ = .ok st s₀) (hg : Agree (fun _ => True) (s.holdings f) m σ) :
    ∃ s' code m', restoreState st s = .ok () s' ∧ s'.items = s.items.generateAll s.mark code ∧
      Instruction.execAll code m = some m' ∧ ∀ id x, σ id = some x → st.stateOf id ≠ .unused →
        ∃ v, s'.vars.get? id = some v ∧
          (∀ r, st.occupant r = some id → m' (.reg r) = x ∧
            (st.isChanged r = false → ∃ a, v.home? = some a ∧ m' (.home a) = x)) ∧
          (id ∈ st.memVars → ∃ a, v.home? = some a ∧ m' (.home a) = x) := by
  obtain ⟨g, hg₀, rfl, -⟩ := saveState_ok.mp hst
  cases hsame.before.symm.trans hg₀
  have hfit : (s₀.snapshot f).Fits (s.holdings f) := (Session.snapshot_fits hc₀).congr hsame.vars hsame.rbp
  obtain ⟨_, s', hs'⟩ := restoreState_total hc hfit ho hsame.now
  obtain ⟨hm, hmeets⟩ := restoreState_moves hc hfit hsame.now hs'
  obtain ⟨code, hrun, hi⟩ := hm.run
  have hc' := hm.coherent hc
  -- only variables that the snapshot does not know lose their values
  obtain ⟨m', hexec, hg'⟩ : ∃ m', Instruction.execAll code m = some m' ∧
      Agree (fun id => (s₀.snapshot f).stateOf id ≠ .unused) (s'.holdings f) m' σ := Agree.run hc hp hrun
    (fun h => h) (fun e y he hy hlive => by
      cases e with
      | forget v state => exact absurd (hy ▸ he.2.2) hlive
      | _ => first | exact he.elim | exact hy.elim) (hg.mono fun _ _ => trivial)
  refine ⟨s', code, m', hs', hi, hexec, fun id x hx hlive => ?_⟩
  obtain ⟨v, hv, hh⟩ := hg' id x hlive hx
  obtain ⟨y, hy, hfn, rfl⟩ := Session.holdings_vars.mp hv
  refine ⟨y, hy, fun r hr => ?_, fun hmem => ?_⟩
  · have hcur := hc'.currentReg_of_occupant hv ((hmeets.registers r).trans hr)
    refine ⟨hh.in_reg hcur, fun hclean => hh.backed (Variable.currentReg_eq_some.mp hcur).1 ?_⟩
    rw [← Bool.not_eq_true]
    intro hch
    have hd := hmeets.dirty r (Session.isDirty_iff.mpr ⟨id, y, (hmeets.registers r).trans hr, hy, hch⟩)
    rw [hclean] at hd
    cases hd
  · obtain ⟨z, hz, -, hs⟩ := (Session.mem_memoryVars hc'.numbered).mp (hmeets.memory ▸ hmem)
    cases hy.symm.trans hz
    obtain ⟨p, hp, hval⟩ := hh.here
    rw [Variable.place?, show y.core.state = .memory from hs] at hp
    obtain ⟨a, ha, rfl⟩ := Option.map_eq_some_iff.mp hp
    exact ⟨a, ha, hval⟩

/-- The first argument of two is in a register, and in memory in the snapshot. Restoring the snapshot stores its
value, which is 7, into its home. -/
theorem restoreState_keeps_values_stored : ∃ (s s₀ s' : Session) (st : Snapshot) (m' : Place → BitVec 8),
    saveState s₀ = .ok st s₀ ∧ restoreState st s = .ok () s' ∧ (⟨0⟩ : VarId) ∈ st.memVars ∧
      ∃ v a, s'.vars.get? ⟨0⟩ = some v ∧ v.home? = some a ∧ m' (.home a) = 7 := by
  let f : FunctionId := ⟨0⟩
  let calls : List Builder.Call := [.newFunction [.gpq, .gpq] [] {}, .endFunction]
  obtain ⟨⟨s, record, stop, p, t⟩, hq, hd⟩ := Option.any_eq_true _ _ |>.mp
    (show (Builder.prepareFirst calls).any (fun q => (after? (q.record.args.forM receiveArg) q.after).any fun u =>
      decide (u.items.Open ∧ u.ctx.function = some f ∧ (⟨0⟩ : VarId) ∈ q.record.args) &&
        (after? (spillVar ⟨0⟩) u).any fun u₀ => decide ((⟨0⟩ : VarId) ∈ (u₀.snapshot f).memVars)) = true by decide +kernel)
  obtain ⟨hprep, body, hs⟩ := Builder.prepareFirst_ok hq
  obtain ⟨hc, hapart, hidle⟩ := hs.prepared hprep
  have hpasses := hs.passes_prepared hprep
  obtain ⟨u, hu, hd⟩ := Option.any_eq_true _ _ |>.mp hd
  obtain ⟨_, hu⟩ := after?_ok hu
  simp only [Bool.and_eq_true, decide_eq_true_eq] at hd
  obtain ⟨⟨hopen, hfn, harg⟩, hd⟩ := hd
  obtain ⟨u₀, hu₀, hd⟩ := Option.any_eq_true _ _ |>.mp hd
  obtain ⟨_, hu₀⟩ := after?_ok hu₀
  have hd := of_decide_eq_true hd
  have hrec := Session.Received.all hc hidle hpasses hu
  have hcu := hrec.moves.coherent hc
  obtain ⟨code, hrun, -⟩ := hrec.moves.run
  obtain ⟨m, harr⟩ := hpasses.exists_arrives (w := 8) fun _ => 7
  obtain ⟨x, _, hx, hxf, -⟩ := hpasses.arrives _ harg
  obtain ⟨v, hv⟩ := hrec.moves.owns ⟨_, Session.holdings_vars_of_get? hx hxf⟩
  obtain ⟨hm, -⟩ := evicts_moves hv hu₀
  obtain ⟨code₀, hrun₀, -⟩ := hm.run
  have hsame : SameFunction f u u₀ :=
    ⟨hfn, by rw [hm.ctx]; exact hfn, fun id => (hrun₀.static_eq id).symm, by rw [hm.ctx]⟩
  have hst : saveState u₀ = .ok (u₀.snapshot f) u₀ := saveState_ok.mpr ⟨f, hsame.before, rfl, rfl⟩
  obtain ⟨s', _, m', hs', -, -, hval⟩ := restoreState_keeps_values hcu (hapart.run hrun) hopen
    (hm.coherent hcu) hsame hst (hrec.agree hpasses harr)
  have hstate : (u₀.snapshot f).stateOf ⟨0⟩ ≠ .unused := by simp [Snapshot.stateOf_eq_memory.mpr hd]
  obtain ⟨y, hy, -, hmem⟩ := hval ⟨0⟩ 7 (by simp [harg]) hstate
  obtain ⟨a, ha, hm'⟩ := hmem hd
  exact ⟨u, u₀, s', _, m', hst, hs', hd, y, a, hy, ha, hm'⟩

end Build

end Codegen
