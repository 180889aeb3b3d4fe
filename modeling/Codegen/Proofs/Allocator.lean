import Codegen.Proofs.Destinations

/-! The steps of the allocator as sequences of effects on its holdings. -/
namespace Codegen
open Session Variable Effect Holdings RegMask VarTable
variable {access : Access} {index : Nat} {cls : RegClass} {mask : RegMask}
variable {s t : Session} {state : VarState} {v w x : Variable}

namespace Session

/-- The allocator's holdings for a function. -/
def holdings (s : Session) (f : FunctionId) : Holdings where
  registers := s.ctx.registers
  vars := fun id => ((s.vars.get? id).filter (·.function = f)).map core
  slots := s.ctx.slots
  allocableRbp := s.ctx.allocableRbp

theorem holdings_vars {id : VarId} : (s.holdings f).vars id = some v ↔
      ∃ x, s.vars.get? id = some x ∧ x.function = f ∧ x.core = v := by
  simp only [holdings, Option.map_eq_some_iff, Option.filter_eq_some_iff, decide_eq_true_eq, and_assoc]

theorem holdings_vars_of_get? {id : VarId}
    (hx : s.vars.get? id = some x) (hf : x.function = f) : (s.holdings f).vars id = some x.core :=
  holdings_vars.mpr ⟨x, hx, hf, rfl⟩

theorem usable_iff : (s.holdings f).Usable r ↔ (s.ctx.allocable r.cls).contains r.index = true := Iff.rfl

theorem holdings_modifyVar {id : VarId} (hx : s.vars.get? id = some x) (hg : (g x).function = f) :
    ({ s with vars := s.vars.modify id g } : Session).holdings f = (s.holdings f).setVar id (g x).core := by
  unfold holdings setVar
  congr 1
  funext y
  by_cases hy : y = id
  · subst hy
    simp [get?_modify_self, hx, hg]
  · simp [get?_modify_of_ne _ (Ne.symm hy), hy]

theorem holdings_modifyVar_same {id : VarId} (hx : s.vars.get? id = some x) (hg : (g x).core = x.core) :
    ({ s with vars := s.vars.modify id g } : Session).holdings f = s.holdings f := by
  have hfn : (g x).function = x.function := (congrArg Variable.function hg :)
  unfold holdings
  congr 1
  funext y
  by_cases hy : y = id
  · subst hy
    simp only [get?_modify_self, hx, Option.map_some, Option.filter_some, hfn]
    split <;> simp [hg]
  · simp [get?_modify_of_ne _ (Ne.symm hy)]

end Session

/-- The variable is one of the function's. -/
def Session.Owns (s : Session) (f : FunctionId) (id : VarId) : Prop := ∃ v, (s.holdings f).vars id = some v

/-- The item is the last of the variable. -/
def Session.LastAt (s : Session) (item : ItemId) (id : VarId) : Prop :=
  (s.vars.get? id).bind lastItem = some item

/-- What is settled about a variable before code is emitted: what it is, the items its life extends over, and how
readily it is evicted. -/
def Variable.fixed (v : Variable) :
    (VarId × VarType × RegClass × FunctionId × Passing) × Option ItemId × Option ItemId × Nat :=
  (v.static, v.firstItem, v.lastItem, v.priority)

theorem Variable.function_eq (h : v.fixed = w.fixed) : v.function = w.function := (congrArg (·.1.2.2.2.1) h :)

theorem Session.lastAt_congr {id : VarId} (h : (t.vars.get? id).map fixed = (s.vars.get? id).map fixed) :
    t.LastAt item id ↔ s.LastAt item id := by
  have hl : ∀ u : Session, (u.vars.get? id).bind lastItem = ((u.vars.get? id).map fixed).bind (·.2.2.1) := by
    intro u
    cases u.vars.get? id <;> rfl
  rw [LastAt, LastAt, hl t, h, ← hl s]

/-- The variables are the same but for where they are, and no others are active. -/
structure VarTable.Kept (t t' : VarTable) : Prop where
  fixed : ∀ id, (t'.get? id).map fixed = (t.get? id).map fixed
  active : ∀ id ∈ t'.active, id ∈ t.active

namespace VarTable.Kept
variable {t : VarTable} {id : VarId}

theorem refl (t : VarTable) : t.Kept t := ⟨fun _ => rfl, fun _ h => h⟩

theorem trans (h : t.Kept t') (h' : t'.Kept t'') : t.Kept t'' where
  fixed id := (h'.fixed id).trans (h.fixed id)
  active id hid := h.active id (h'.active id hid)

theorem modify (hg : ∀ x, (g x).fixed = x.fixed) : t.Kept (t.modify id g) where
  fixed y := by
    by_cases hy : y = id
    · subst hy
      rw [get?_modify_self, Option.map_map]
      exact congrArg (Option.map · _) (funext hg)
    · rw [get?_modify_of_ne _ (Ne.symm hy)]
  active _ h := h

theorem deactivate (t : VarTable) (id : VarId) : t.Kept (t.deactivate id) :=
  ⟨fun _ => rfl, fun _ h => List.mem_of_mem_erase (t.active_deactivate id ▸ h)⟩

theorem get?_new (h : t.Kept t') (hx : t.get? id = some x) :
    ∃ y, t'.get? id = some y ∧ y.fixed = x.fixed := by
  have hfix := h.fixed id
  rw [hx, Option.map_some] at hfix
  exact Option.map_eq_some_iff.mp hfix

theorem get? (h : t.Kept t') (hx : t'.get? id = some x) : ∃ y, t.get? id = some y ∧ y.fixed = x.fixed := by
  have hfix := h.fixed id
  rw [hx, Option.map_some] at hfix
  exact Option.map_eq_some_iff.mp hfix.symm

theorem cls_eq {s s' : Session} {id : VarId} (h : s.vars.Kept s'.vars) (hv : (s.holdings f).vars id = some v) :
    ∃ w, (s'.holdings f).vars id = some w ∧ w.cls = v.cls := by
  obtain ⟨x, hx, hf, rfl⟩ := holdings_vars.mp hv
  obtain ⟨y, hy, he⟩ := h.get?_new hx
  exact ⟨y.core, holdings_vars_of_get? hy ((function_eq he).trans hf), (congrArg (·.1.2.2.1) he :)⟩

end VarTable.Kept

/-- Nothing changes but items, registers, slots, the accounts of registers, and where variables are. -/
structure Session.Frame (s s' : Session) : Prop where
  ctx : s'.ctx = { s.ctx with
    registers := s'.ctx.registers, modified := s'.ctx.modified
    reserved := s'.ctx.reserved, slots := s'.ctx.slots }
  rest : s' = { s with items := s'.items, vars := s'.vars, ctx := s'.ctx, stats := s'.stats }
  vars : s.vars.Kept s'.vars

namespace Session.Frame

theorem refl (s : Session) : s.Frame s := ⟨rfl, rfl, .refl _⟩

theorem trans (h : s.Frame t) (h' : t.Frame u) : s.Frame u where
  ctx := by rw [h'.ctx, h.ctx]
  rest := by rw [h'.rest, h.rest]
  vars := h.vars.trans h'.vars

theorem fixed (h : s.Frame t) (id : VarId) : (t.vars.get? id).map fixed = (s.vars.get? id).map fixed := h.vars.fixed id

theorem mark_eq (h : s.Frame t) : t.mark = s.mark := by
  unfold mark
  rw [h.ctx]

theorem lastAt (h : s.Frame t) {id : VarId} : t.LastAt item id ↔ s.LastAt item id := lastAt_congr (h.fixed id)

end Session.Frame

/-- The variables of other functions are as they were. -/
def VarTable.Spares (f : FunctionId) (t t' : VarTable) : Prop :=
  ∀ id x, t.get? id = some x → x.function ≠ f → t'.get? id = some x

namespace VarTable.Spares
variable {t : VarTable} {id : VarId}

theorem refl (t : VarTable) : t.Spares f t := fun _ _ h _ => h

theorem trans (h : t.Spares f t') (h' : t'.Spares f t'') : t.Spares f t'' := fun id x hx hf => h' id x (h id x hx hf) hf

theorem modify (hx : t.get? id = some x) (hf : x.function = f) : t.Spares f (t.modify id g) := by
  intro y z hy hne
  have hyi : id ≠ y := by
    rintro rfl
    cases hx ▸ hy
    exact hne hf
  rw [get?_modify_of_ne _ hyi, hy]

end VarTable.Spares

namespace Session

/-- The register counts as written in the function. -/
def Marked (s : Session) (r : Reg) : Prop := (s.ctx.modified.get r.cls).contains r.index = true

/-- A variable is in the register. -/
def Occupied (s : Session) (r : Reg) : Prop := ∃ v, s.ctx.registers.occupant r = some v

/-- All registers that are put to use and all that the code in between writes were in use before or are marked, but for
those in `R` and the instructions in `E`. -/
structure Accounts (E : Instruction → Prop) (R : Reg → Prop) (s s' : Session) : Prop extends s.Frame s' where
  marks : ∀ {r}, s.Marked r → s'.Marked r
  held : ∀ {r}, s'.Occupied r → s.Occupied r ∨ s'.Marked r ∨ R r
  code : ∃ code, s'.items = s.items.generateAll s.mark code ∧
    ∀ i ∈ code, E i ∨ ∀ r ∈ i.destinations, s.Occupied r ∨ s'.Marked r ∨ R r

namespace Accounts

theorem refl (s : Session) : s.Accounts E R s := ⟨.refl s, id, .inl, [], rfl, by simp⟩

theorem quiet (hf : s.Frame t) (hi : t.items = s.items) (hm : ∀ {r}, s.Marked r → t.Marked r)
    (hr : ∀ {r}, t.Occupied r → R r ∨ s.Occupied r) : s.Accounts E R t :=
  ⟨hf, hm, fun h => (hr h).symm.imp_right .inr, [], hi, by simp⟩

theorem trans (h : s.Accounts E R t) (h' : t.Accounts E R u) : s.Accounts E R u := by
  have back : ∀ {r}, t.Occupied r ∨ u.Marked r ∨ R r → s.Occupied r ∨ u.Marked r ∨ R r := by
    rintro r (hr | hr)
    · exact (h.held hr).imp_right (Or.imp_left h'.marks)
    · exact .inr hr
  refine ⟨h.toFrame.trans h'.toFrame, fun hr => h'.marks (h.marks hr), fun hr => back (h'.held hr), ?_⟩
  obtain ⟨c, hc, hd⟩ := h.code
  obtain ⟨c', hc', hd'⟩ := h'.code
  refine ⟨c ++ c', by rw [hc', hc, h.mark_eq, ItemSeq.generateAll_append], fun i hi => ?_⟩
  rcases List.mem_append.mp hi with hi | hi
  · exact (hd i hi).imp_right fun hw r hr => (hw r hr).imp_right (Or.imp_left h'.marks)
  · exact (hd' i hi).imp_right fun hw r hr => back (hw r hr)

theorem absorb (h : s.Accounts E R' t) (hR : ∀ r, R' r → t.Marked r ∨ R r) : s.Accounts E R t := by
  have less : ∀ {r}, s.Occupied r ∨ t.Marked r ∨ R' r → s.Occupied r ∨ t.Marked r ∨ R r :=
    Or.imp_right fun h => h.elim .inl (hR _)
  obtain ⟨c, hc, hd⟩ := h.code
  exact ⟨h.toFrame, h.marks, fun hr => less (h.held hr), c, hc,
    fun i hi => (hd i hi).imp_right fun hw r hr => less (hw r hr)⟩

end Accounts

end Session

theorem Context.markModified_keeps (c : Context) {q : Reg} (hq : (c.modified.get q.cls).contains q.index = true) :
    ((c.markModified r).modified.get q.cls).contains q.index = true := by
  show ((c.modified.modify r.cls (·.insert r.index)).get q.cls).contains q.index = true
  by_cases hc : q.cls = r.cls
  · rw [hc, PerClass.get_modify_self, RegMask.insert, contains_union, ← hc, hq, Bool.true_or]
  · rwa [PerClass.get_modify_of_ne _ hc]

/-- As `Frame`, and only variables of the function `f` are moved. Registers stay marked. -/
structure Session.Confines (f : FunctionId) (s s' : Session) : Prop extends s.Frame s' where
  others : s.vars.Spares f s'.vars
  marks : ∀ {r}, s.Marked r → s'.Marked r

namespace Session.Confines
variable {id : VarId}

theorem refl (s : Session) : s.Confines f s := ⟨.refl s, .refl _, id⟩

theorem trans (h : s.Confines f t) (h' : t.Confines f u) : s.Confines f u :=
  ⟨h.toFrame.trans h'.toFrame, h.others.trans h'.others, fun hr => h'.marks (h.marks hr)⟩

theorem of_vars (hf : s.Frame t) (hv : t.vars = s.vars) (hm : ∀ {r}, s.Marked r → t.Marked r) :
    s.Confines f t := ⟨hf, hv ▸ .refl _, hm⟩

theorem of_modify (hf : s.Frame t) (hv : t.vars = s.vars.modify id g) (hx : s.vars.get? id = some x)
    (hx' : x.function = f) (hm : ∀ {r}, s.Marked r → t.Marked r) : s.Confines f t :=
  ⟨hf, hv ▸ .modify hx hx', hm⟩

end Session.Confines

/-- Between the sessions lie only effects that `may` allows on the holdings of `f`. -/
structure Session.Moves (f : FunctionId) (may : Effect → Prop) (s s' : Session) : Prop
    extends s.Confines f s' where
  run : ∃ code, Run may (s.holdings f) code (s'.holdings f) ∧
    s'.items = s.items.generateAll s.mark code
  accounts : ¬ may .other → Coherent (s.holdings f) → ∀ {E R}, s.Accounts E R s'

namespace Session.Moves
variable {may may' : Effect → Prop}

theorem refl (s : Session) : s.Moves f may s := ⟨.refl s, ⟨[], .refl _, rfl⟩, fun _ _ => .refl s⟩

theorem trans (h : s.Moves f may t) (h' : t.Moves f may u) : s.Moves f may u := by
  obtain ⟨c, hr, hi⟩ := h.run
  obtain ⟨c', hr', hi'⟩ := h'.run
  refine ⟨h.toConfines.trans h'.toConfines, ⟨c ++ c', hr.trans hr', ?_⟩,
    fun hm hc => (h.accounts hm hc).trans (h'.accounts hm (hc.run hr))⟩
  rw [hi', hi, h.mark_eq, ItemSeq.generateAll_append]

theorem mono (hm : ∀ e, may e → may' e) (h : s.Moves f may t) : s.Moves f may' t := by
  obtain ⟨c, hr, hi⟩ := h.run
  exact ⟨h.toConfines, ⟨c, hr.mono hm, hi⟩, fun hn hc => h.accounts (fun ho => hn (hm _ ho)) hc⟩

theorem quiet (hf : s.Confines f t) (hh : t.holdings f = s.holdings f) (hi : t.items = s.items) : s.Moves f may t := by
  refine ⟨hf, ⟨[], hh ▸ .refl _, hi⟩, fun _ _ => .quiet hf.toFrame hi hf.marks fun ⟨v, hv⟩ => .inr ⟨v, ?_⟩⟩
  rwa [show t.ctx.registers = s.ctx.registers from congrArg registers hh] at hv

/-- A register that a variable enters has to be marked. -/
theorem of_action (he : may e) (hf : s.Confines f t) (ha : Action (s.holdings f) e c (t.holdings f))
    (hi : t.items = s.items.generateAll s.mark c)
    (hn : e.settles = false ∨ ∀ {r}, t.Occupied r → s.Occupied r ∨ t.Marked r) :
    s.Moves f may t := by
  refine ⟨hf, ⟨c, .single he ha, hi⟩, fun hm hc {E R} => ?_⟩
  have hheld : ∀ {r}, t.Occupied r → s.Occupied r ∨ t.Marked r ∨ R r := by
    rintro r ⟨v, hv⟩
    rcases hn with hs | hn
    · exact .inl (ha.occupied hc hs hv)
    · exact (hn ⟨v, hv⟩).imp_right .inl
  exact ⟨hf.toFrame, hf.marks, hheld, c, hi,
    fun i hic => .inr fun r hr => hheld (ha.destinations_occupied hc (fun h => hm (h ▸ he)) hic hr)⟩

section
variable (h : s.Moves f may t)
include h

theorem coherent (hc : Coherent (s.holdings f)) : Coherent (t.holdings f) := by
  obtain ⟨c, hr, -⟩ := h.run
  exact hc.run hr

theorem vars_eq {id : VarId} (hid : ∀ e, may e → id ∉ e.changes) : (t.holdings f).vars id = (s.holdings f).vars id := by
  obtain ⟨c, hr, -⟩ := h.run
  exact hr.vars_eq hid

theorem usable : (t.holdings f).Usable r ↔ (s.holdings f).Usable r := by
  have : t.ctx.allocableRbp = s.ctx.allocableRbp := by rw [h.ctx]
  unfold Usable holdings
  rw [this]

theorem owns {id : VarId} (ho : s.Owns f id) : t.Owns f id := by
  obtain ⟨v, hv⟩ := ho
  obtain ⟨c, hr, -⟩ := h.run
  have := hr.static_eq id
  rw [hv, Option.map_some, Option.map_eq_some_iff] at this
  obtain ⟨v', hv', -⟩ := this
  exact ⟨v', hv'⟩

end

theorem loop {α : Type} {g : α → Build Unit} {l : List α} {u : Unit}
    (step : ∀ a ∈ l, ∀ t t', s.Moves f may t → g a t = .ok () t' → t.Moves f may t')
    (h : l.forM g s = .ok u t) : s.Moves f may t := by
  have := Build.forM_induct (P := fun rest t => rest ⊆ l ∧ s.Moves f may t) ?_ h ⟨fun _ h => h, refl s⟩
  · exact this.2
  · rintro a rest t t' ⟨hsub, hmv⟩ ha
    exact ⟨fun _ hx => hsub (List.mem_cons_of_mem a hx), hmv.trans (step a (hsub List.mem_cons_self) t t' hmv ha)⟩

end Session.Moves

/-- Room may be made at the cost of the variable: if there is a `mask`, the variable is in one of its registers, and else
it is no operand of the current item. -/
def Session.Yields (s : Session) (cls : RegClass) (mask : RegMask) (y : VarId) : Prop :=
  if mask.isEmpty then ∃ x, s.vars.get? y = some x ∧ x.workOffset ≠ some s.ctx.currentOffset
  else ∃ i, mask.contains i = true ∧ s.ctx.registers.occupant ⟨cls, i⟩ = some y

namespace Build
variable {may : Effect → Prop} {s' : Session} {id : VarId}

/-- The session in which a variable has a home. -/
def housed (s : Session) (id : VarId) (x : Variable) : Session :=
  match x.home? with
  | some _ => s
  | none => { s with
      ctx := { s.ctx with slots := (s.ctx.slots.acquire x.size).2 }
      vars := s.vars.modify id ({ · with homeSlot := some (s.ctx.slots.acquire x.size).1 }) }

theorem resolveHome_ok (h : resolveHome id s = .ok a s') : ∃ x, s.vars.get? id = some x ∧ s' = housed s id x ∧
      a = x.home?.getD (.slot (s.ctx.slots.acquire x.size).1) := by
  simp only [resolveHome, bind_ok, getVar_ok] at h
  obtain ⟨x, _, ⟨hx, rfl⟩, h⟩ := h
  refine ⟨x, hx, ?_⟩
  unfold housed home?
  cases hp : x.passing with
  | onStack o =>
    simp only [hp] at h
    cases h
    exact ⟨rfl, rfl⟩
  | _ =>
    cases hs : x.homeSlot with
    | some slot =>
      simp only [hp, hs] at h
      cases h
      exact ⟨rfl, rfl⟩
    | none =>
      simp only [hp, hs, bind_ok, modifyVar_ok] at h
      obtain ⟨_, _, ⟨⟩, _, _, ⟨⟩, _, _, ⟨-, rfl⟩, ⟨⟩⟩ := h
      exact ⟨rfl, rfl⟩

theorem housed_moves (hm : may (.acquire id)) (hx : s.vars.get? id = some x) (hfn : x.function = f) :
    s.Moves f may (housed s id x) ∧ (housed s id x).items = s.items ∧
      (housed s id x).ctx.registers = s.ctx.registers ∧
      ∃ slot, ((housed s id x).holdings f).vars id = some { x.core with homeSlot := slot } ∧
        ({ x.core with homeSlot := slot } : Variable).home? =
          some (x.home?.getD (.slot (s.ctx.slots.acquire x.size).1)) := by
  have hv := holdings_vars_of_get? hx hfn
  unfold housed
  cases ha : x.home? with
  | some a => exact ⟨.refl _, rfl, rfl, x.homeSlot, hv, ha⟩
  | none =>
    have hh := holdings_modifyVar (s := { s with ctx := { s.ctx with slots := (s.ctx.slots.acquire x.size).2 } }) hx
      (g := ({ · with homeSlot := some (s.ctx.slots.acquire x.size).1 })) hfn
    refine ⟨.of_action hm (.of_modify ⟨rfl, rfl, .modify fun _ => rfl⟩ rfl hx hfn fun h => h) (c := [])
      (hh ▸ .acquire hv ha) rfl (.inl rfl), rfl, rfl, some (s.ctx.slots.acquire x.size).1, ?_, ?_⟩
    · exact hh ▸ setVar_vars_self
    revert ha
    unfold home? core
    cases x.passing <;> cases x.homeSlot <;> simp

section
variable (hm : may (.acquire id)) (hv : (s.holdings f).vars id = some v)
include hm hv

theorem resolveHome_moves (h : resolveHome id s = .ok a s') :
    s.Moves f may s' ∧ s'.items = s.items ∧ s'.ctx.registers = s.ctx.registers ∧
      ∃ slot, (s'.holdings f).vars id = some { v with homeSlot := slot } ∧
        ({ v with homeSlot := slot } : Variable).home? = some a := by
  obtain ⟨x, hx, hfn, rfl⟩ := holdings_vars.mp hv
  obtain ⟨x', hx', rfl, rfl⟩ := resolveHome_ok h
  cases hx ▸ hx'
  exact housed_moves hm hx hfn

theorem homeOperand_moves (h : homeOperand id s = .ok o s') :
    s.Moves f may s' ∧ s'.ctx.registers = s.ctx.registers ∧
      ∃ slot a, (s'.holdings f).vars id = some { v with homeSlot := slot } ∧
        ({ v with homeSlot := slot } : Variable).home? = some a ∧ o = v.homeOperand a := by
  simp only [homeOperand, bind_ok, getVar_ok] at h
  obtain ⟨a, t, ha, x, _, ⟨hx, rfl⟩, ⟨⟩⟩ := h
  obtain ⟨hmv, -, hreg, slot, hv', ha'⟩ := resolveHome_moves hm hv ha
  obtain ⟨x', hx', -, hcore⟩ := holdings_vars.mp hv'
  cases hx ▸ hx'
  have hsz : x.size = v.size := (congrArg Variable.size hcore :)
  exact ⟨hmv, hreg, slot, a, hv', ha', by rw [Variable.homeOperand, hsz]⟩

theorem saveVar_ok (h : saveVar id s = .ok () s') :
    ∃ t r slot a, s.Moves f may t ∧ v.currentReg = some r ∧ (t.holdings f).vars id = some { v with homeSlot := slot } ∧
      ({ v with homeSlot := slot } : Variable).home? = some a ∧ t.Confines f s' ∧
      s'.items = t.items.generateAll t.mark [v.copy (v.homeOperand a) (v.regOperand r.index)] ∧
      s'.holdings f = (t.holdings f).setVar id { v with homeSlot := slot, changed := false } := by
  obtain ⟨x, hx, hfn, rfl⟩ := holdings_vars.mp hv
  rw [saveVar, getVar_bind hx] at h
  cases hr : x.currentReg with
  | none => simp only [hr, usage_ok] at h
  | some r =>
    simp only [hr, bind_ok, modifyVar_ok] at h
    obtain ⟨o, t, ho, _, u, hu, ⟨y, hy⟩, rfl⟩ := h
    obtain ⟨hmv, -, slot, a, hv', ha, rfl⟩ := homeOperand_moves hm hv ho
    have hu := emitAll_ok hu
    subst hu
    obtain ⟨y', hy', hyf, hyc⟩ := holdings_vars.mp hv'
    have hyy : y' = y := Option.some.inj (hy' ▸ hy)
    subst hyy
    refine ⟨t, r, slot, a, hmv, hr, hv', ha, .of_modify ⟨rfl, rfl, .modify fun _ => rfl⟩ rfl hy hyf fun h => h, rfl, ?_⟩
    refine (holdings_modifyVar hy hyf).trans ?_
    exact congrArg (fun z : Variable => (t.holdings f).setVar id { z with changed := false }) hyc

end

theorem saveVar_moves (hm : may (.acquire id)) (hm' : may (.save id))
    (hv : (s.holdings f).vars id = some v) (h : saveVar id s = .ok () s') : s.Moves f may s' := by
  obtain ⟨t, r, slot, a, hmv, hr, hv', ha, hf, hi, hh⟩ := saveVar_ok hm hv h
  refine hmv.trans (.of_action hm' hf ?_ hi (.inl rfl))
  rw [hh]
  exact .save hv' hr ha

/-- The session in which a variable has left its register. -/
private def leave (s : Session) (id : VarId) (x : Variable) (state : VarState) : Session :=
  { s with
    ctx := { s.ctx with registers := match x.currentReg with
      | some r => s.ctx.registers.release r
      | none => s.ctx.registers }
    vars := s.vars.modify id ({ · with state, reg := none, changed := false }) }

private theorem leave_confines (hy : s.vars.get? id = some y)
    (hf : y.function = f) : s.Confines f (leave s id x state) :=
  .of_modify ⟨rfl, rfl, .modify fun _ => rfl⟩ rfl hy hf fun h => h

private theorem leave_holdings (hx : s.vars.get? id = some x)
    (hf : x.function = f) : (leave s id x state).holdings f = (s.holdings f).vacate id x.core state := by
  have hl := holdings_modifyVar
    (s := { s with ctx := { s.ctx with registers := match x.currentReg with
      | some r => s.ctx.registers.release r
      | none => s.ctx.registers } }) hx (g := ({ · with state, reg := none, changed := false })) hf
  refine hl.trans ?_
  unfold vacate
  rw [core_currentReg]
  cases x.currentReg <;> rfl

theorem unuseVar_ok (hs : state ≠ .memory) (hv : (s.holdings f).vars id = some v)
    (h : unuseVar id state s = .ok () s') :
    s.Confines f s' ∧ s'.items = s.items ∧ s'.holdings f = (s.holdings f).vacate id v state := by
  obtain ⟨x, hx, hfn, rfl⟩ := holdings_vars.mp hv
  have hs' : s' = leave s id x state := by
    simp only [unuseVar, getVar_bind hx, hs, if_false] at h
    unfold leave
    cases hr : x.currentReg with
    | none =>
      simp only [hr, modifyVar_ok] at h
      exact h.2.symm
    | some r =>
      simp only [hr, bind_ok, modifyVar_ok] at h
      obtain ⟨_, _, ⟨⟩, -, rfl⟩ := h
      rfl
  subst hs'
  exact ⟨leave_confines hx hfn, rfl, leave_holdings hx hfn⟩

/-- Leaving for the home: the variable has one afterwards. -/
theorem unuseVar_memory_ok (hm : may (.acquire id)) (hv : (s.holdings f).vars id = some v)
    (h : unuseVar id .memory s = .ok () s') :
    ∃ t slot a, s.Moves f may t ∧ (v.home?.isSome → t = s) ∧
      (t.holdings f).vars id = some { v with homeSlot := slot } ∧
      ({ v with homeSlot := slot } : Variable).home? = some a ∧ t.Confines f s' ∧ s'.items = t.items ∧
      s'.holdings f = (t.holdings f).vacate id { v with homeSlot := slot } .memory := by
  obtain ⟨x, hx, hfn, rfl⟩ := holdings_vars.mp hv
  obtain rfl : s' = leave (housed s id x) id x .memory := by
    simp only [unuseVar, getVar_bind hx, if_true] at h
    cases hr : x.currentReg with
    | none =>
      simp only [hr, ensureHome, bind_ok, pure_ok, modifyVar_ok] at h
      obtain ⟨_, _, ⟨a, t, ht, -, rfl⟩, -, rfl⟩ := h
      obtain ⟨x', hx', rfl, -⟩ := resolveHome_ok ht
      cases hx ▸ hx'
      unfold leave
      rw [hr]
    | some r =>
      simp only [hr, ensureHome, bind_ok, pure_ok, modifyVar_ok] at h
      obtain ⟨_, _, ⟨⟩, _, _, ⟨a, t, ht, -, rfl⟩, -, rfl⟩ := h
      obtain ⟨x', hx', rfl, -⟩ := resolveHome_ok ht
      cases hx ▸ hx'
      unfold leave housed
      rw [hr]
      cases x.home? <;> rfl
  obtain ⟨hmv, -, -, slot, hv', ha⟩ := housed_moves hm hx hfn
  obtain ⟨y, hy, hyf, hyc⟩ := holdings_vars.mp hv'
  have hcur : x.currentReg = y.currentReg := (congrArg currentReg hyc.symm :)
  have hl : leave (housed s id x) id x .memory = leave (housed s id x) id y .memory := by
    simp only [leave, hcur]
  refine ⟨housed s id x, slot, _, hmv, ?_, hv', ha, leave_confines hy hyf, rfl, ?_⟩
  · rw [core_home?, Option.isSome_iff_exists]
    rintro ⟨a, hsome⟩
    simp only [housed, hsome]
  · rw [hl, leave_holdings hy hyf, hyc]

section
variable (hm : may (.acquire id)) (hm' : may (.spill id)) (hv : (s.holdings f).vars id = some v)
include hm hm' hv

/-- Storing what is newer than the home and leaving the register for it is one effect. -/
theorem flush_moves (hr : v.currentReg = some r) (hs : if v.changed then saveVar id s = .ok () t else t = s)
    (hu : unuseVar id .memory t = .ok () s') :
    s.Moves f may s' ∧ ∃ slot, (s'.holdings f).vars id =
      some { v with state := .memory, reg := none, changed := false, homeSlot := slot } := by
  cases hch : v.changed with
  | false =>
    obtain rfl : t = s := by simpa [hch] using hs
    obtain ⟨t1, slot, a, hmv, -, hv1, ha, hf, hi, hh⟩ := unuseVar_memory_ok hm hv hu
    refine ⟨hmv.trans (.of_action hm' hf (c := []) ?_ hi (.inl rfl)), slot, hh ▸ setVar_vars_self⟩
    have hsp := Action.spill hv1 hr ha
    rw [if_neg (by simp [hch])] at hsp
    rwa [hh]
  | true =>
    have hsave : saveVar id s = .ok () t := by simpa [hch] using hs
    obtain ⟨t0, r', slot, a, hmv, hr', hv0, ha, hf, hi, hh⟩ := saveVar_ok hm hv hsave
    obtain rfl : r' = r := Option.some.inj (hr' ▸ hr)
    have hv1 : (t.holdings f).vars id = some { v with homeSlot := slot, changed := false } := hh ▸ setVar_vars_self
    obtain ⟨t1, slot', a', -, hsame, hv2, -, hf', hi', hh'⟩ := unuseVar_memory_ok hm hv1 hu
    obtain rfl : t1 = t := hsame (by exact Option.isSome_iff_exists.mpr ⟨a, ha⟩)
    obtain rfl : slot = slot' := by
      rw [hv1] at hv2
      exact congrArg (fun o : Option Variable => o.bind (·.homeSlot)) hv2
    have hvac : s'.holdings f = (t0.holdings f).vacate id { v with homeSlot := slot } .memory := by
      rw [hh', hh, setVar_vacate]
      rfl
    refine ⟨hmv.trans (.of_action hm' (hf.trans hf') ?_ (hi'.trans hi) (.inl rfl)), slot, hvac ▸ setVar_vars_self⟩
    have hsp := Action.spill hv0 hr ha
    rw [if_pos hch] at hsp
    rwa [hvac]

theorem spillVar_moves (h : spillVar id s = .ok () s') :
    s.Moves f may s' ∧ ∃ slot, (s'.holdings f).vars id =
      some { v with state := .memory, reg := none, changed := false, homeSlot := slot } := by
  obtain ⟨x, hx, hfn, rfl⟩ := holdings_vars.mp hv
  simp only [spillVar, getVar_bind hx, check_ok] at h
  simp only [when_ok, bind_ok, modifyStats_ok] at h
  obtain ⟨hsome, t, ht, _, u, hu, rfl⟩ := h
  obtain ⟨r, hr⟩ := Option.ne_none_iff_exists'.mp (by simpa using hsome)
  obtain ⟨hmv, slot, hv'⟩ := flush_moves hm hm' hv hr ht hu
  exact ⟨hmv.trans (.quiet (.of_vars ⟨rfl, rfl, .refl _⟩ rfl fun h => h) rfl rfl), slot, hv'⟩

end

theorem emitMove_ok (hx : s.vars.get? id = some x) (h : emitMove id index access s = .ok () s') :
    ∃ code, s' = { s with items := s.items.generateAll s.mark code } ∧ (access.reads = false → code = []) ∧
      (access.reads = true → ∃ i, x.reg = some i ∧ code = [x.copy (x.regOperand index) (x.regOperand i)]) := by
  cases hr : access.reads with
  | false =>
    simp only [emitMove, hr] at h
    cases h
    exact ⟨[], rfl, fun _ => rfl, by simp⟩
  | true =>
    simp only [emitMove, hr, if_true, getVar_bind hx] at h
    cases hi : x.reg with
    | none => simp only [hi, usage_ok] at h
    | some i =>
      simp only [hi] at h
      exact ⟨_, emitAll_ok h, by simp, fun _ => ⟨i, rfl, rfl⟩⟩

theorem settleIn_ok (hv : (s.holdings f).vars id = some v) (h : settleIn id r s = .ok () s') :
    s.Confines f s' ∧ s'.items = s.items ∧
      s'.holdings f = ((s.holdings f).assign r id).setVar id { v with reg := some r.index } := by
  obtain ⟨x, hx, hfn, rfl⟩ := holdings_vars.mp hv
  simp only [settleIn, bind_ok, modifyVar_ok, modifyContext_ok] at h
  obtain ⟨_, _, ⟨-, rfl⟩, rfl⟩ := h
  refine ⟨.of_modify ⟨rfl, rfl, .modify fun _ => rfl⟩ rfl hx hfn fun h => h, rfl, ?_⟩
  have hh := holdings_modifyVar hx (g := ({ · with reg := some r.index, homeReg := some r.index })) hfn
  exact congrArg (·.assign r id) hh

theorem marked_of_markModified (hr : r.index < 32) (h : markModified r s = .ok () s') : s'.Marked r := by
  cases h
  show ((s.ctx.modified.modify r.cls (·.insert r.index)).get r.cls).contains r.index = true
  rw [PerClass.get_modify_self, contains_insert _ hr]
  simp

theorem markModified_ok (h : markModified r s = .ok () s') :
    s.Confines f s' ∧ s'.items = s.items ∧ s'.holdings f = s.holdings f := by
  cases h
  exact ⟨.of_vars ⟨rfl, rfl, .refl _⟩ rfl s.ctx.markModified_keeps, rfl, rfl⟩

theorem modifyStats_frame (h : modifyStats g s = .ok () s') :
    s.Confines f s' ∧ s'.items = s.items ∧ s'.holdings f = s.holdings f := by
  cases h
  exact ⟨.of_vars ⟨rfl, rfl, .refl _⟩ rfl id, rfl, rfl⟩

theorem emitSwap_ok (h : emitSwap x.cls (x.regOperand a) (x.regOperand b) a b s = .ok () s') :
    s' = { s with items := s.items.generateAll s.mark (x.swapCode a b) } := by
  unfold swapCode
  cases hc : x.cls <;> (rw [hc] at h; exact emitAll_ok h)

private theorem settled_ok (hv : (s.holdings f).vars id = some v)
    (h : (do settleIn id r; markModified r; markModified q; modifyStats g : Build Unit) s = .ok () s') :
    s.Confines f s' ∧ s'.items = s.items ∧
      s'.holdings f = ((s.holdings f).assign r id).setVar id { v with reg := some r.index } ∧
      (r.index < 32 → s'.Marked r) := by
  simp only [bind_ok] at h
  obtain ⟨_, t, h1, _, t2, h2, _, t3, h3, h4⟩ := h
  obtain ⟨f1, i1, e1⟩ := settleIn_ok hv h1
  obtain ⟨f2, i2, e2⟩ := markModified_ok h2
  obtain ⟨f3, i3, e3⟩ := markModified_ok h3
  obtain ⟨f4, i4, e4⟩ := modifyStats_frame h4
  exact ⟨((f1.trans f2).trans f3).trans f4, by rw [i4, i3, i2, i1], by rw [e4, e3, e2, e1],
    fun hr => f4.marks (f3.marks (marked_of_markModified hr h2))⟩

theorem exchangeVar_moves (hc : Coherent (s.holdings f)) (hv : (s.holdings f).vars id = some v)
    (hr : v.currentReg = some r) (hi : i ≠ r.index) (hu : (s.holdings f).Usable ⟨v.cls, i⟩)
    (ho : s.ctx.registers.occupant ⟨v.cls, i⟩ = o) (h : exchangeVar id i access o s = .ok () s') :
    s.Moves f (exchanges id access o) s' ∧
      (s'.holdings f).vars id = some { v with reg := some i } := by
  obtain ⟨x, hx, hfn, rfl⟩ := holdings_vars.mp hv
  obtain ⟨-, hreg, hcls⟩ := currentReg_eq_some.mp hr
  have hxr : x.reg = some r.index := hreg
  have hold : (⟨x.cls, r.index⟩ : Reg) = r := by
    exact congrArg (Reg.mk · _) hcls
  simp only [exchangeVar, getVar_bind hx] at h
  simp only [hxr, hold] at h
  cases o with
  | none =>
    rw [bind_ok] at h
    obtain ⟨_, t, ht, h⟩ := h
    rw [bind_ok] at h
    obtain ⟨_, t', ht', h⟩ := h
    obtain ⟨code, ht, hw, hrd⟩ := emitMove_ok hx ht
    have ht' := modifyContext_ok.mp ht'
    have hf0 : s.Confines f t' := by
      subst ht' ht
      exact .of_vars ⟨rfl, rfl, .refl _⟩ rfl fun h => h
    have hi0 : t'.items = s.items.generateAll s.mark code := by
      subst ht' ht
      rfl
    have hh0 : t'.holdings f = (s.holdings f).release r := by
      subst ht' ht
      rfl
    have hv0 : (t'.holdings f).vars id = some x.core := by
      rw [hh0]
      exact hv
    obtain ⟨hf1, hi1, hh1, hmarked⟩ := settled_ok hv0 h
    have hframe := hf0.trans hf1
    have hh : s'.holdings f = (s.holdings f).transfer id x.core r i := by
      rw [hh1, hh0]
      rfl
    have huse : ∀ {q}, s'.Occupied q → s.Occupied q ∨ s'.Marked q := by
      rintro q ⟨y, hy⟩
      rw [show s'.ctx.registers = _ from congrArg registers hh] at hy
      rcases RegFile.occupant_of_assign hy with rfl | hy
      · exact .inr (hmarked (BitVec.lt_of_getLsbD hu))
      · exact .inl ⟨y, RegFile.occupant_of_release hy⟩
    refine ⟨?_, hh ▸ setVar_vars_self⟩
    cases hrd' : access.reads with
    | false =>
      have hacc : access = .write := by cases access <;> simp_all [Access.reads]
      refine .of_action (e := .shift id) ⟨rfl, rfl, hacc⟩ hframe (c := []) (hh ▸ .shift hv hr ho hu) ?_
        (.inr huse)
      rw [hi1, hi0, hw hrd']
    | true =>
      obtain ⟨k, hk, rfl⟩ := hrd hrd'
      obtain rfl : r.index = k := Option.some.inj (hxr ▸ hk)
      exact .of_action (e := .move id) ⟨rfl, rfl⟩ hframe (hh ▸ .move hv hr ho hu) (hi1.trans hi0) (.inr huse)
  | some other =>
    obtain ⟨-, w, hw, hq⟩ := hc.occupied ho
    have hne : id ≠ other := by
      rintro rfl
      cases hv ▸ hw
      rw [hr] at hq
      exact hi (congrArg Reg.index (Option.some.inj hq)).symm
    obtain ⟨y, hy, hyf, rfl⟩ := holdings_vars.mp hw
    have hyr : y.reg = some i := (currentReg_eq_some.mp hq).2.1
    obtain ⟨t, code, hcode, ht, h⟩ : ∃ t code,
        (code = if access = .write then [y.copy (y.regOperand r.index) (y.regOperand i)]
          else x.swapCode r.index i) ∧
        t = { s with items := s.items.generateAll s.mark code } ∧
        (do settleIn other r
            settleIn id ⟨x.cls, i⟩
            markModified ⟨x.cls, i⟩
            markModified r
            modifyStats fun s => { s with exchanges := s.exchanges + 1 } : Build Unit) t = .ok () s' := by
      by_cases hacc : access = .write
      · simp only [hacc, if_true] at h
        rw [bind_ok] at h
        obtain ⟨_, t, ht, h⟩ := h
        obtain ⟨code, ht, -, hrd⟩ := emitMove_ok hy ht
        obtain ⟨k, hk, rfl⟩ := hrd rfl
        obtain rfl : i = k := Option.some.inj (hyr ▸ hk)
        exact ⟨t, _, (if_pos hacc).symm, ht, h⟩
      · simp only [hacc, if_false] at h
        rw [bind_ok] at h
        obtain ⟨_, t, ht, h⟩ := h
        exact ⟨t, _, (if_neg hacc).symm, emitSwap_ok ht, h⟩
    have hf0 : s.Confines f t := by
      subst ht
      exact .of_vars ⟨rfl, rfl, .refl _⟩ rfl fun h => h
    have hi0 : t.items = s.items.generateAll s.mark code := by rw [ht]
    have hh0 : t.holdings f = s.holdings f := by
      subst ht
      rfl
    rw [bind_ok] at h
    obtain ⟨_, t1, h1, h⟩ := h
    obtain ⟨hf1, hi1, hh1⟩ := settleIn_ok (hh0 ▸ hw) h1
    have hv1 : (t1.holdings f).vars id = some x.core := by
      rw [hh1, setVar_vars_of_ne hne]
      exact hh0 ▸ hv
    obtain ⟨hf2, hi2, hh2, -⟩ := settled_ok hv1 h
    have hframe := (hf0.trans hf1).trans hf2
    have hitems : s'.items = s.items.generateAll s.mark code := by rw [hi2, hi1, hi0]
    have hh : s'.holdings f = (s.holdings f).exchange id other x.core y.core r ⟨x.cls, i⟩ := by
      rw [hh2, hh1, hh0]
      rfl
    refine ⟨?_, hh ▸ setVar_vars_self⟩
    by_cases hacc : access = .write
    · rw [if_pos hacc] at hcode
      subst hcode
      exact .of_action (e := .displace id other) ⟨rfl, rfl, hacc⟩ hframe
        (hh ▸ .displace hv hw hr hq hcls.symm hne) hitems (.inl rfl)
    · rw [if_neg hacc] at hcode
      subst hcode
      exact .of_action (e := .swap id other) ⟨rfl, rfl⟩ hframe
        (hh ▸ .swap hv hw hr hq hcls.symm hne) hitems (.inl rfl)

theorem contains_freeRegs {c : Context} : (c.freeRegs cls).contains i = true ↔
      (c.allocable cls).contains i = true ∧ c.registers.occupant ⟨cls, i⟩ = none := by
  rw [Context.freeRegs, contains_diff, ← Bool.not_eq_true, RegFile.contains_used,
    ← Option.isSome_iff_exists, Option.not_isSome_iff_eq_none]

theorem evicts_moves (hv : (s.holdings f).vars id = some v) (h : spillVar id s = .ok () s') :
    s.Moves f (evicts id) s' ∧ ∃ slot, (s'.holdings f).vars id =
      some { v with state := .memory, reg := none, changed := false, homeSlot := slot } :=
  spillVar_moves rfl rfl hv h

theorem relocateVar_moves {avoid : RegMask} (hc : Coherent (s.holdings f))
    (hv : (s.holdings f).vars id = some v) (hr : v.currentReg = some r)
    (h : relocateVar id avoid s = .ok () s') :
    s.Moves f (relocates id) s' ∧ ∀ v', (s'.holdings f).vars id = some v' → v'.currentReg ≠ some r := by
  obtain ⟨x, hx, hfn, rfl⟩ := holdings_vars.mp hv
  simp only [relocateVar, getVar_bind hx, bind_ok] at h
  obtain ⟨_, _, ⟨⟩, h⟩ := h
  cases hi : (((s.ctx.freeRegs x.cls).diff (s.ctx.reserved.get x.cls)).diff avoid).first? with
  | none =>
    simp only [hi] at h
    obtain ⟨hmv, slot, hv'⟩ := evicts_moves hv h
    refine ⟨hmv.mono fun e => evicts.relocates, fun v' hv'' => ?_⟩
    rw [hv'] at hv''
    cases hv''
    simp [currentReg]
  | some i =>
    simp only [hi] at h
    have hfree := (contains_diff.mp (contains_diff.mp (contains_of_first? hi)).1).1
    obtain ⟨hal, hocc⟩ := contains_freeRegs.mp hfree
    have hne : i ≠ r.index := by
      rintro rfl
      have hor := hc.occupant_of_currentReg hv hr
      have hcls : x.cls = r.cls := (currentReg_eq_some.mp hr).2.2
      rw [hcls] at hocc
      exact absurd (hocc ▸ hor) (by simp)
    obtain ⟨hmv, hv'⟩ := exchangeVar_moves hc hv hr hne (usable_iff.mpr hal) hocc h
    refine ⟨hmv.mono ?_, fun v' hv'' => ?_⟩
    · intro e he
      cases e <;> first | exact he.elim | exact he.1 | simp [exchanges] at he
    rw [hv'] at hv''
    cases hv''
    intro hcur
    have := (currentReg_eq_some.mp hcur).2.1
    exact hne (Option.some.inj this)

section
variable (hc : Coherent (s.holdings f)) (hw : (s.holdings f).vars o = some w) (hr : w.currentReg = some r)
include hc hw hr

private theorem cleared (hm : s.Moves f (relocates o) s')
    (hout : ∀ w', (s'.holdings f).vars o = some w' → w'.currentReg ≠ some r) :
    s'.ctx.registers.occupant r = none :=
  hc.vacated (hm.coherent hc) (hc.occupant_of_currentReg hw hr) hout fun _ hx => hm.vars_eq fun _ he => he.changes hx

private theorem evict_clears (h : spillVar o s = .ok () s') :
    s.Moves f (relocates o) s' ∧ s'.ctx.registers.occupant r = none := by
  obtain ⟨hmv, slot, hw'⟩ := evicts_moves hw h
  have hmv := hmv.mono fun e => evicts.relocates
  refine ⟨hmv, cleared hc hw hr hmv ?_⟩
  intro w' hw''
  rw [hw'] at hw''
  cases hw''
  simp [currentReg]

end

private theorem occupant_ne (hv : (s.holdings f).vars id = some v) (hs : v.currentReg = none)
    (hw : (s.holdings f).vars o = some w) (hr : w.currentReg = some r) : o ≠ id := by
  rintro rfl
  cases hv ▸ hw
  cases hs ▸ hr

theorem firstUsed_ok {used : RegMask} (h : firstUsed mask used s = .ok i s') :
    s = s' ∧ mask.contains i = true ∧ used.contains i = true := by
  unfold firstUsed at h
  cases hf : (mask.inter used).first? with
  | none => simp only [hf, throw_ok] at h
  | some k =>
    simp only [hf] at h
    cases h
    have hk := contains_of_first? hf
    rw [contains_inter, Bool.and_eq_true] at hk
    exact ⟨rfl, hk⟩

/-- Room is made in a register of the mask, and variables that are in no register stay as they
are. -/
theorem vacateWithin_moves (hc : Coherent (s.holdings f)) (hv : (s.holdings f).vars id = some v)
    (hs : v.currentReg = none) (h : vacateWithin cls mask preferred s = .ok index s') :
    s.Moves f (clears fun y => y ≠ id ∧ ∃ i, mask.contains i = true ∧
      s.ctx.registers.occupant ⟨cls, i⟩ = some y) s' ∧ mask.contains index = true ∧
      s'.ctx.registers.occupant ⟨cls, index⟩ = none := by
  simp only [vacateWithin, bind_ok] at h
  obtain ⟨_, _, ⟨⟩, h⟩ := h
  cases hp : (mask.diff (s.ctx.registers.used cls)).firstPreferred? preferred with
  | some i =>
    simp only [hp] at h
    cases h
    obtain ⟨hmask, hused⟩ := contains_diff.mp (contains_of_firstPreferred? hp)
    refine ⟨.refl _, hmask, ?_⟩
    rwa [← Bool.not_eq_true, RegFile.contains_used, ← Option.isSome_iff_exists, Option.not_isSome_iff_eq_none] at hused
  | none =>
    simp only [hp, bind_ok] at h
    obtain ⟨i, t, hi, h⟩ := h
    obtain ⟨rfl, hmask, hused⟩ := firstUsed_ok hi
    obtain ⟨o, ho⟩ := RegFile.contains_used.mp hused
    obtain ⟨-, w, hw, hr⟩ := hc.occupied ho
    have hne := occupant_ne hv hs hw hr
    simp only [ho, bind_ok, getVar_ok] at h
    obtain ⟨y, _, ⟨hy, rfl⟩, h⟩ := h
    by_cases hwork : y.workOffset = some s.ctx.currentOffset
    · simp only [hwork, if_true, bind_ok] at h
      obtain ⟨_, t, ht, h⟩ := h
      obtain ⟨rfl, rfl⟩ := pure_ok.mp h
      obtain ⟨hmv, hout⟩ := relocateVar_moves hc hw hr ht
      exact ⟨hmv.mono fun e he => ⟨o, ⟨hne, i, hmask, ho⟩, he⟩, hmask, cleared hc hw hr hmv hout⟩
    · simp only [hwork, if_false, bind_ok] at h
      obtain ⟨_, t, ht, h⟩ := h
      obtain ⟨rfl, rfl⟩ := pure_ok.mp h
      obtain ⟨hmv, hfree⟩ := evict_clears hc hw hr ht
      exact ⟨hmv.mono fun e he => ⟨o, ⟨hne, i, hmask, ho⟩, he⟩, hmask, hfree⟩

private theorem mem_of_foldl_beats {l : List EvictionCandidate} {c : EvictionCandidate}
    (h : l.foldl (fun best c => match best with
      | none => some c
      | some b => if c.beats b then some c else some b) b = some c) : b = some c ∨ c ∈ l := by
  induction l generalizing b with
  | nil => exact .inl h
  | cons a l ih =>
    rcases ih h with hb | hl
    · cases b with
      | none =>
        cases hb
        exact .inr List.mem_cons_self
      | some d =>
        dsimp only at hb
        split at hb
        · cases hb
          exact .inr List.mem_cons_self
        · exact .inl hb
    · exact .inr (List.mem_cons_of_mem a hl)

private theorem foldl_beats_isSome {l : List EvictionCandidate} {b : EvictionCandidate} :
    (l.foldl (fun best c => match best with
      | none => some c
      | some b => if c.beats b then some c else some b) (some b)).isSome := by
  induction l generalizing b with
  | nil => rfl
  | cons c l ih =>
    rw [List.foldl_cons]
    dsimp only
    split <;> exact ih

theorem candidateAt_of_spillCandidate (h : s.spillCandidate cls = none)
    (hu : (s.ctx.registers.used cls).contains i = true) (ha : (s.ctx.allocable cls).contains i = true) :
    s.candidateAt ⟨cls, i⟩ = none := by
  unfold spillCandidate at h
  dsimp only at h
  cases hl : ((s.ctx.registers.used cls).inter (s.ctx.allocable cls)).toList.filterMap
      (fun i => s.candidateAt ⟨cls, i⟩) with
  | nil => exact List.filterMap_eq_nil_iff.mp hl i (RegMask.mem_toList.mpr (by simp [hu, ha]))
  | cons c l =>
    rw [hl, Option.map_eq_none_iff, List.foldl_cons] at h
    cases congrArg Option.isSome h ▸ foldl_beats_isSome

theorem spillCandidate_occupies (hc : Coherent (s.holdings f)) (h : s.spillCandidate cls = some c) :
    (∃ i, (s.ctx.allocable cls).contains i = true ∧ s.ctx.registers.occupant ⟨cls, i⟩ = some c) ∧
      ∃ x, s.vars.get? c = some x ∧ x.workOffset ≠ some s.ctx.currentOffset := by
  obtain ⟨e, he, rfl⟩ := Option.map_eq_some_iff.mp h
  rcases mem_of_foldl_beats he with hn | hmem
  · cases hn
  obtain ⟨i, hi, hcand⟩ := List.mem_filterMap.mp hmem
  have hi := RegMask.mem_toList.mp hi
  rw [RegMask.contains_inter, Bool.and_eq_true] at hi
  simp only [candidateAt, Option.bind_eq_bind, Option.bind_eq_some_iff] at hcand
  obtain ⟨o, ho, x, hx, _, hg, hpure⟩ := hcand
  cases hpure
  obtain ⟨-, w, hw, -⟩ := hc.occupied ho
  obtain ⟨y, hy, -, hyw⟩ := holdings_vars.mp hw
  obtain rfl : x = y := Option.some.inj (hx ▸ hy)
  have hid : x.id = o := (congrArg Variable.id hyw).trans (hc.named hw)
  refine ⟨⟨i, hi.2, by rw [hid, ho]⟩, x, hid ▸ hx, ?_⟩
  simp only [guard] at hg
  split at hg
  · simp_all
  · cases hg

theorem vacateAny_moves (hc : Coherent (s.holdings f)) (hv : (s.holdings f).vars id = some v) (hs : v.currentReg = none)
    (h : vacateAny x preferred s = .ok index s') :
    s.Moves f (clears fun y => y ≠ id ∧ s.Yields x.cls .empty y) s' ∧
      (s.ctx.allocable x.cls).contains index = true ∧ s'.ctx.registers.occupant ⟨x.cls, index⟩ = none := by
  have free : ∀ i, (s.ctx.freeRegs x.cls).contains i = true → (pure i : Build Nat) s = .ok index s' →
      s.Moves f (clears fun y => y ≠ id ∧ s.Yields x.cls .empty y) s' ∧
        (s.ctx.allocable x.cls).contains index = true ∧ s'.ctx.registers.occupant ⟨x.cls, index⟩ = none := by
    intro i hi hp
    cases hp
    exact ⟨.refl _, contains_freeRegs.mp hi⟩
  simp only [vacateAny, bind_ok] at h
  obtain ⟨_, _, ⟨⟩, h⟩ := h
  cases hhome : x.homeReg.filter (s.ctx.freeRegs x.cls).contains with
  | some i =>
    simp only [hhome] at h
    exact free i (Option.filter_eq_some_iff.mp hhome).2 h
  | none =>
    simp only [hhome] at h
    cases hscan : (if x.cls = .gp then (s.ctx.freeRegs x.cls).erase Gp.rax
        else s.ctx.freeRegs x.cls).firstPreferred? preferred with
    | some i =>
      simp only [hscan] at h
      refine free i ?_ h
      have := contains_of_firstPreferred? hscan
      split at this
      · exact contains_of_erase this
      · exact this
    | none =>
      simp only [hscan] at h
      by_cases h0 : (s.ctx.freeRegs x.cls).contains 0 = true
      · simp only [h0, if_true] at h
        exact free 0 h0 h
      rw [if_neg h0] at h
      cases hcand : s.spillCandidate x.cls with
      | none => simp only [hcand, throw_ok] at h
      | some o =>
        simp only [hcand, bind_ok, getVar_ok] at h
        obtain ⟨y, _, ⟨hy, rfl⟩, h⟩ := h
        obtain ⟨⟨i, hal, ho⟩, hwork⟩ := spillCandidate_occupies hc hcand
        obtain ⟨-, w, hw, hr⟩ := hc.occupied ho
        have hne := occupant_ne hv hs hw hr
        have hreg : y.reg = some i := by
          obtain ⟨y', hy', -, hyw⟩ := holdings_vars.mp hw
          obtain rfl : y = y' := Option.some.inj (hy ▸ hy')
          exact (congrArg reg hyw).trans (currentReg_eq_some.mp hr).2.1
        simp only [hreg, bind_ok] at h
        obtain ⟨_, t, ht, h⟩ := h
        cases h
        obtain ⟨hmv, hfree⟩ := evict_clears hc hw hr ht
        exact ⟨hmv.mono fun e he => ⟨o, ⟨hne, hwork⟩, he⟩, hal, hfree⟩

theorem noteAccess_moves (hm : access.writes = true → may (.touch id))
    (hv : (s.holdings f).vars id = some v) (hr : v.currentReg = some r)
    (h : noteAccess id access s = .ok () s') :
    s.Moves f may s' ∧ (s'.holdings f).vars id = some { v with changed := access.writes || v.changed } := by
  cases hw : access.writes with
  | false =>
    simp only [noteAccess, hw] at h
    cases h
    exact ⟨.refl _, by simpa using hv⟩
  | true =>
    simp only [noteAccess, hw, if_true] at h
    obtain ⟨-, rfl⟩ := modifyVar_ok.mp h
    obtain ⟨x, hx, hfn, rfl⟩ := holdings_vars.mp hv
    have hh := holdings_modifyVar hx (g := ({ · with changed := true })) hfn
    exact ⟨.of_action (hm hw) (.of_modify ⟨rfl, rfl, .modify fun _ => rfl⟩ rfl hx hfn fun h => h)
      (hh ▸ Action.touch hv hr) rfl (.inl rfl), hh ▸ setVar_vars_self⟩

theorem emitLoad_ok (hm : may (.acquire id)) (hv : (s.holdings f).vars id = some v)
    (h : emitLoad id index s = .ok () s') :
    ∃ t slot a, s.Moves f may t ∧ t.ctx.registers = s.ctx.registers ∧
      (t.holdings f).vars id = some { v with homeSlot := slot } ∧
      ({ v with homeSlot := slot } : Variable).home? = some a ∧ t.Confines f s' ∧
      s'.items = t.items.generateAll t.mark [v.copy (v.regOperand index) (v.homeOperand a)] ∧
      s'.holdings f = t.holdings f := by
  obtain ⟨x, hx, hfn, rfl⟩ := holdings_vars.mp hv
  simp only [emitLoad, getVar_bind hx, bind_ok, modifyStats_ok] at h
  obtain ⟨o, t, ho, _, u, hu, rfl⟩ := h
  obtain ⟨hmv, hreg, slot, a, hv', ha, rfl⟩ := homeOperand_moves hm hv ho
  have hu := emitAll_ok hu
  subst hu
  exact ⟨t, slot, a, hmv, hreg, hv', ha, .of_vars ⟨rfl, rfl, .refl _⟩ rfl fun h => h, rfl, rfl⟩

/-- The end of an allocation: a variable in no register enters a free one. -/
def enterReg (id : VarId) (x : Variable) (index : Nat) (access : Access) : Build Unit := do
  if x.state = .memory && access.reads then emitLoad id index
  let r : Reg := ⟨x.cls, index⟩
  modifyVar id ({ · with state := .register })
  settleIn id r
  markModified r
  modifyStats fun s => { s with registersAllocated := s.registersAllocated + 1 }
  noteAccess id access

/-- What follows the load, if there is one. -/
private def register (id : VarId) (r : Reg) (access : Access) : Build Unit := do
  modifyVar id ({ · with state := .register })
  settleIn id r
  markModified r
  modifyStats fun s => { s with registersAllocated := s.registersAllocated + 1 }
  noteAccess id access

private theorem register_ok
    (hv : (s.holdings f).vars id = some v) (h : register id ⟨v.cls, index⟩ access s = .ok () s') :
    ∃ t, s.Confines f t ∧ t.items = s.items ∧ t.holdings f = (s.holdings f).settle id v index ∧
      (index < 32 → t.Marked ⟨v.cls, index⟩) ∧ noteAccess id access t = .ok () s' := by
  obtain ⟨y, hy, hfn, rfl⟩ := holdings_vars.mp hv
  simp only [register, bind_ok] at h
  obtain ⟨_, t1, h1, _, t2, h2, _, t3, h3, _, t4, h4, h5⟩ := h
  obtain ⟨-, rfl⟩ := modifyVar_ok.mp h1
  have hh1 := holdings_modifyVar hy (g := ({ · with state := .register })) hfn
  obtain ⟨f2, i2, e2⟩ := settleIn_ok (v := { y.core with state := .register }) (hh1 ▸ setVar_vars_self) h2
  obtain ⟨f3, i3, e3⟩ := markModified_ok h3
  obtain ⟨f4, i4, e4⟩ := modifyStats_frame h4
  have f1 : s.Confines f { s with vars := s.vars.modify id ({ · with state := .register }) } :=
    .of_modify ⟨rfl, rfl, .modify fun _ => rfl⟩ rfl hy hfn fun h => h
  refine ⟨t4, ((f1.trans f2).trans f3).trans f4, by rw [i4, i3, i2], ?_,
    fun hi => f4.marks (marked_of_markModified hi h3), h5⟩
  rw [e4, e3, e2, hh1]
  simp [settle, setVar, assign]

private theorem register_moves (he : e.enters id access) (hv : (s.holdings f).vars id = some v)
    (ha : Action (s.holdings f) e code ((s.holdings f).settle id v index))
    (hf : s.Confines f t) (hi : t.items = s.items.generateAll s.mark code)
    (hh : t.holdings f = s.holdings f) (hu : (s.holdings f).Usable ⟨v.cls, index⟩)
    (h : register id ⟨v.cls, index⟩ access t = .ok () s') :
    s.Moves f (enters id access) s' ∧ ∃ v', (s'.holdings f).vars id = some v' ∧
      v'.currentReg = some ⟨v.cls, index⟩ ∧ v'.changed = (access.writes || v.changed) := by
  obtain ⟨u, hf', hi', hh', hmarked, hn⟩ := register_ok (hh ▸ hv) h
  rw [hh] at hh'
  have hmv : s.Moves f (enters id access) u := by
    refine .of_action he (hf.trans hf') (hh' ▸ ha) (hi'.trans hi) (.inr ?_)
    rintro q ⟨y, hy⟩
    rw [show u.ctx.registers = _ from congrArg registers hh'] at hy
    rcases RegFile.occupant_of_assign hy with rfl | hy
    · exact .inr (hmarked (BitVec.lt_of_getLsbD hu))
    · exact .inl ⟨y, hy⟩
  have hv1 : (u.holdings f).vars id = some { v with state := .register, reg := some index } := hh' ▸ setVar_vars_self
  have hm : access.writes = true → (touch id).enters id access := fun hw => ⟨rfl, hw⟩
  obtain ⟨hmv', hv'⟩ := noteAccess_moves hm hv1 rfl hn
  exact ⟨hmv.trans hmv', _, hv', rfl, rfl⟩

theorem enterReg_moves (hv : (s.holdings f).vars id = some v) (hcore : x.core = v) (hs : v.state ≠ .register)
    (hfree : s.ctx.registers.occupant ⟨v.cls, index⟩ = none)
    (hu : (s.holdings f).Usable ⟨v.cls, index⟩)
    (h : enterReg id x index access s = .ok () s') :
    s.Moves f (enters id access) s' ∧ ∃ v', (s'.holdings f).vars id = some v' ∧
      v'.currentReg = some ⟨v.cls, index⟩ ∧ v'.changed = (access.writes || v.changed) := by
  subst hcore
  simp only [enterReg, when_ok] at h
  obtain ⟨t, ht, h⟩ := h
  by_cases hload : (x.state = .memory && access.reads) = true
  · rw [if_pos hload] at ht
    simp only [Bool.and_eq_true, decide_eq_true_eq] at hload
    have hm : (acquire id).enters id access := rfl
    obtain ⟨t0, slot, a, hmv, hreg, hv0, ha, hf, hi, hh⟩ := emitLoad_ok hm hv ht
    have hu0 : (t0.holdings f).Usable ⟨x.core.cls, index⟩ := hmv.usable.mpr hu
    have hfree0 : t0.ctx.registers.occupant ⟨x.core.cls, index⟩ = none := hreg ▸ hfree
    obtain ⟨hmv', hpost⟩ := register_moves (e := .load id) ⟨rfl, hload.2⟩ hv0
      (.load hv0 hload.1 ha hfree0 hu0) hf hi hh hu0 h
    exact ⟨hmv.trans hmv', hpost⟩
  · rw [if_neg hload] at ht
    subst ht
    cases hst : x.state with
    | register => exact absurd hst hs
    | unused => exact register_moves (e := .enter id) rfl hv (.enter hv hst hfree hu) (.refl _) rfl rfl hu h
    | memory =>
      have hacc : access = .write := by
        cases access <;> simp_all [Access.reads]
      exact register_moves (e := .reuse id) ⟨rfl, hacc⟩ hv (.reuse hv hst hfree hu) (.refl _) rfl rfl hu h

section
variable (hc : Coherent (s.holdings f)) (hv : (s.holdings f).vars id = some v)
include hc hv

private theorem exchange_moves
    (hr : v.currentReg = some r) (hmask : ∀ i, mask.contains i = true → (s.ctx.allocable v.cls).contains i = true)
    (hin : mask.contains r.index = false) (hi : mask.contains index = true)
    (h : (do exchangeVar id index access (s.ctx.registers.occupant ⟨v.cls, index⟩)
             noteAccess id access : Build Unit) s = .ok () s') :
    s.Moves f (fun e => e.allocates id access ∧ ∀ y ∈ e.changes, y = id ∨
        s.ctx.registers.occupant ⟨v.cls, index⟩ = some y) s' ∧ ∃ v', (s'.holdings f).vars id = some v' ∧
      v'.currentReg = some ⟨v.cls, index⟩ ∧ (access.writes = true → v'.changed = true) := by
  rw [bind_ok] at h
  obtain ⟨_, t, ht, h⟩ := h
  have hne : index ≠ r.index := by
    rintro rfl
    cases hin ▸ hi
  obtain ⟨hmv, hv'⟩ := exchangeVar_moves hc hv hr hne (usable_iff.mpr (hmask _ hi)) rfl ht
  have hcur : ({ v with reg := some index } : Variable).currentReg = some ⟨v.cls, index⟩ :=
    currentReg_eq_some.mpr ⟨(currentReg_eq_some.mp hr).1, rfl, rfl⟩
  have hm : access.writes = true → (touch id).enters id access := fun hw => ⟨rfl, hw⟩
  obtain ⟨hmv', hv''⟩ := noteAccess_moves hm hv' hcur h
  exact ⟨(hmv.mono fun e he => ⟨he.allocates, fun y => he.changes⟩).trans
    (hmv'.mono fun e he => ⟨he.allocates, fun y hy => .inl (he.changes hy)⟩), _, hv'', hcur, fun hw => by simp [hw]⟩

/-- A variable that is brought into a register is in one of the mask, and is newer than its home if the access
writes it. No other variables are moved but those that have to make room. -/
theorem allocVar_within (h : allocVar id mask access s = .ok () s') :
    s.Moves f (fun e => e.allocates id access ∧ ∀ y ∈ e.changes, y = id ∨ s.Yields v.cls mask y) s' ∧
      ∃ v' r, (s'.holdings f).vars id = some v' ∧
      v'.currentReg = some r ∧ (access.writes = true → v'.changed = true) ∧
      (mask.isEmpty = false → mask.contains r.index = true) := by
  obtain ⟨x, hx, hfn, rfl⟩ := holdings_vars.mp hv
  simp only [allocVar, getVar_bind hx, bind_ok, check_ok] at h
  obtain ⟨_, _, ⟨⟩, -, h⟩ := h
  generalize hmask : (if (!mask.isEmpty) = true then mask.inter (s.ctx.allocable x.cls)
    else s.ctx.allocable x.cls) = m at h
  have hsub : ∀ i, m.contains i = true → (s.ctx.allocable x.cls).contains i = true := by
    intro i hi
    subst hmask
    split at hi
    · rw [contains_inter, Bool.and_eq_true] at hi
      exact hi.2
    · exact hi
  have hin : ∀ i, m.contains i = true → mask.isEmpty = false → mask.contains i = true := by
    intro i hi hne
    subst hmask
    rw [if_pos (by simp [hne]), contains_inter, Bool.and_eq_true] at hi
    exact hi.1
  have hout : ∀ y i, mask.isEmpty = false → m.contains i = true →
      s.ctx.registers.occupant ⟨x.cls, i⟩ = some y → s.Yields x.cls mask y := by
    intro y i hne hi ho
    rw [Yields, if_neg (by simp [hne])]
    exact ⟨i, hin i hi hne, ho⟩
  cases hr : x.currentReg with
  | some r =>
    simp only [hr] at h
    cases hmem : m.contains r.index with
    | true =>
      simp only [hmem] at h
      have hm : access.writes = true → (touch id).enters id access := fun hw => ⟨rfl, hw⟩
      obtain ⟨hmv, hv'⟩ := noteAccess_moves hm hv hr h
      exact ⟨hmv.mono fun e he => ⟨he.allocates, fun y hy => .inl (he.changes hy)⟩, _, r, hv', hr,
        fun hw => by simp [hw], hin _ hmem⟩
    | false =>
      -- all registers that can be had are in the mask if it is empty
      have hne : mask.isEmpty = false := by
        obtain ⟨hst, hreg, hcls⟩ := currentReg_eq_some.mp hr
        obtain ⟨r', hr', ho⟩ := hc.settled hv hst
        cases hr ▸ hr'
        have hal := usable_iff.mp (hc.occupied ho).1
        by_contra hemp
        rw [← hmask, if_neg (by simpa using hemp), hcls, hal] at hmem
        cases hmem
      simp only [hmem] at h
      cases hp : (m.diff (s.ctx.registers.used x.cls)).firstPreferred? (s.preferredRegs x) with
      | some i =>
        simp only [hp] at h
        have hi := (contains_diff.mp (contains_of_firstPreferred? hp)).1
        obtain ⟨hmv, v', hv', hcur, hch⟩ := exchange_moves hc hv hr hsub hmem hi h
        exact ⟨hmv.mono fun e he => ⟨he.1, fun y hy => (he.2 y hy).imp_right (hout y i hne hi)⟩,
          v', _, hv', hcur, hch, hin _ hi⟩
      | none =>
        simp only [hp, Bool.not_false, if_true] at h
        rw [bind_ok] at h
        obtain ⟨i, t, ht, h⟩ := h
        obtain ⟨rfl, hi, -⟩ := firstUsed_ok ht
        obtain ⟨hmv, v', hv', hcur, hch⟩ := exchange_moves hc hv hr hsub hmem hi h
        exact ⟨hmv.mono fun e he => ⟨he.1, fun y hy => (he.2 y hy).imp_right (hout y i hne hi)⟩,
          v', _, hv', hcur, hch, hin _ hi⟩
  | none =>
    have hs : x.core.state ≠ .register := by
      intro hs
      obtain ⟨r, hr', -⟩ := hc.settled hv hs
      rw [core_currentReg, hr] at hr'
      cases hr'
    simp only [hr] at h
    obtain ⟨i, t, ⟨hmv, hal, hfree⟩, himask, hrun⟩ : ∃ i t,
        (s.Moves f (clears fun y => y ≠ id ∧ s.Yields x.cls mask y) t ∧
          (s.ctx.allocable x.cls).contains i = true ∧ t.ctx.registers.occupant ⟨x.cls, i⟩ = none) ∧
        (mask.isEmpty = false → mask.contains i = true) ∧ enterReg id x i access t = .ok () s' := by
      by_cases hres : (!mask.isEmpty) = true
      · rw [if_pos hres, bind_ok] at h
        obtain ⟨i, t, ht, h⟩ := h
        obtain ⟨hmv, hi, hfree⟩ := vacateWithin_moves hc hv hr ht
        have hmv : s.Moves f (clears fun y => y ≠ id ∧ s.Yields x.cls mask y) t :=
          hmv.mono fun e ⟨y, ⟨hy, j, hj, ho⟩, he⟩ => ⟨y, ⟨hy, hout y j (by simpa using hres) hj ho⟩, he⟩
        exact ⟨i, t, ⟨hmv, hsub i hi, hfree⟩, hin i hi, h⟩
      · rw [if_neg hres, bind_ok] at h
        obtain ⟨i, t, ht, h⟩ := h
        obtain ⟨hmv, hrest⟩ := vacateAny_moves hc hv hr ht
        have hmv : s.Moves f (clears fun y => y ≠ id ∧ s.Yields x.cls mask y) t :=
          hmv.mono fun e ⟨y, ⟨hy, hw⟩, he⟩ => ⟨y, ⟨hy, by rw [Yields, if_pos (by simpa using hres)]; exact hw⟩, he⟩
        exact ⟨i, t, ⟨hmv, hrest⟩, fun hne => absurd hne (by simpa using hres), h⟩
    have hvt : (t.holdings f).vars id = some x.core := (hmv.vars_eq fun e he hid => (he.changes hid).1 rfl).trans hv
    obtain ⟨hmv', v', hv', hcur, hch⟩ := enterReg_moves hvt rfl hs hfree (hmv.usable.mpr (usable_iff.mpr hal)) hrun
    exact ⟨(hmv.mono fun e he => ⟨he.allocates, fun y hy => .inr (he.changes hy).2⟩).trans
      (hmv'.mono fun e he => ⟨he.allocates, fun y hy => .inl (he.changes hy)⟩), v', _, hv', hcur,
      fun hw => by simp [hch, hw], himask⟩

theorem allocVar_moves (h : allocVar id mask access s = .ok () s') :
    s.Moves f (allocates id access) s' ∧ ∃ v', (s'.holdings f).vars id = some v' ∧
      (access.writes = true → v'.changed = true) := by
  obtain ⟨hmv, v', r, hv', -, hch, -⟩ := allocVar_within hc hv h
  exact ⟨hmv.mono fun _ => And.left, v', hv', hch⟩

end

/-- A variable in no register enters the register it is sent to, if that is free. -/
theorem allocVar_free_ok (hx : s.vars.get? id = some x)
    (hr : x.currentReg = none) (hcls : x.cls = r.cls) (hu : (s.ctx.allocable r.cls).contains r.index = true)
    (hfree : s.ctx.registers.occupant r = none) :
    allocVar id (.single r.index) access s = .ok u s' ↔ enterReg id x r.index access s = .ok u s' := by
  have hsingle : (single r.index).contains r.index = true := by
    simp [contains_single, show r.index < 32 from BitVec.lt_of_getLsbD hu]
  have hmask : ((single r.index).inter (s.ctx.allocable x.cls)).contains r.index = true := by
    rw [contains_inter, hcls, hu, hsingle]
    rfl
  -- the register is the only one to choose from
  have hpick : ∀ preferred, (((single r.index).inter (s.ctx.allocable x.cls)).diff
      (s.ctx.registers.used x.cls)).firstPreferred? preferred = some r.index := by
    intro preferred
    have hunused : (s.ctx.registers.used x.cls).contains r.index = false := by
      rw [← Bool.not_eq_true, RegFile.contains_used, hcls]
      simp [show (⟨r.cls, r.index⟩ : Reg) = r from rfl, hfree]
    obtain ⟨j, hj⟩ := exists_firstPreferred? (contains_diff.mpr ⟨hmask, hunused⟩)
    have hin := (contains_diff.mp (contains_of_firstPreferred? hj)).1
    rw [contains_inter, contains_single] at hin
    simp only [Bool.and_eq_true, decide_eq_true_eq] at hin
    rw [hj, hin.1.2]
  have hvacate : ∀ preferred, vacateWithin x.cls ((single r.index).inter (s.ctx.allocable x.cls))
      preferred s = .ok r.index s := by
    intro preferred
    simp only [vacateWithin, bind_ok, get_ok]
    exact ⟨s, s, ⟨rfl, rfl⟩, by simp only [hpick, pure_ok, and_self]⟩
  simp only [allocVar, bind_ok, getVar_ok, get_ok, check_ok, isEmpty_of_contains hsingle, Bool.not_false, if_true]
  constructor
  · rintro ⟨x', _, ⟨hx', rfl⟩, _, _, ⟨rfl, rfl⟩, -, h⟩
    cases hx ▸ hx'
    simp only [hr, bind_ok] at h
    obtain ⟨i, t, hi, h⟩ := h
    cases hi ▸ hvacate _
    exact h
  · intro h
    refine ⟨x, s, ⟨hx, rfl⟩, s, s, ⟨rfl, rfl⟩, by simp [isEmpty_of_contains hmask], ?_⟩
    simp only [hr, bind_ok]
    exact ⟨r.index, s, hvacate _, h⟩

end Build

end Codegen
