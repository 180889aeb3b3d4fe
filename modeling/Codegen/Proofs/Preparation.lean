import Codegen.Compile
import Codegen.Proofs.Lowering

/-! What the first walk over a function finds out: the accesses of each instruction, and the first and
last item of every variable. -/
namespace Codegen
open Build ItemSeq Session Operand ItemKind VarTable List
variable {access : Access} {f : FunctionId} {item : ItemId} {rs rs' : List AllocRecord}
variable {index : Nat} {s : Session} {var : VarId}
variable {kind : ItemKind} {ops : List Operand} {l mem mem' memVars : List VarId} {target : Nat}

namespace Access

/-- The second access does at least what the first does. -/
def Within (a b : Access) : Prop := (a.reads = true → b.reads = true) ∧ (a.writes = true → b.writes = true)

theorem Within.refl (a : Access) : a.Within a := ⟨id, id⟩

theorem Within.trans {a b : Access} (h : a.Within b) (h' : b.Within c) : a.Within c := ⟨h'.1 ∘ h.1, h'.2 ∘ h.2⟩

theorem within_merge_left (a b : Access) : a.Within (a.merge b) := by
  cases a <;> cases b <;> simp [Within, merge, reads, writes]

theorem within_merge_right (a b : Access) : b.Within (a.merge b) := by
  cases a <;> cases b <;> simp [Within, merge, reads, writes]

end Access

theorem Opcode.fixed_plainConstraint (op : Opcode) (index count : Nat) :
    (op.plainConstraint index count).fixed = none := by
  unfold plainConstraint
  repeat' split
  all_goals rfl

theorem Opcode.fixed_of_isZeroingIdiom {op : Opcode} (h : op.isZeroingIdiom = true) (index count : Nat) :
    (op.constraint index count).fixed = none := by
  cases op with
  | xor | sub | pxor | xorps | xorpd | psubd | psubq => exact Opcode.fixed_plainConstraint ..
  | _ => cases h

theorem Opcode.fixed_lt {op : Opcode} {count : Nat} (h : (op.constraint index count).fixed = some n) : n < 16 := by
  unfold constraint at h
  split at h
  all_goals first
    | (rw [Opcode.fixed_plainConstraint] at h; cases h)
    | cases h <;> decide

namespace AllocRecord

/-- One of the records binds the variable to the register with this number. -/
def Binds (records : List AllocRecord) (var : VarId) (n : Nat) : Prop := ∃ r ∈ records, r.var = var ∧ r.fixed = some n

theorem binds_cons : Binds (r :: rs) v n ↔ r.var = v ∧ r.fixed = some n ∨ Binds rs v n := by
  simp only [Binds, mem_cons, or_and_right, exists_or, exists_eq_left]

/-- One of the records grants the access. -/
def Grants (records : List AllocRecord) (var : VarId) (access : Access) : Prop :=
  ∃ r ∈ records, r.var = var ∧ access.Within r.access

theorem Grants.mono (h : Grants rs var access) (hm : ∀ r ∈ rs, Grants rs' r.var r.access) : Grants rs' var access := by
  obtain ⟨r, hr, rfl, ha⟩ := h
  obtain ⟨r', hr', hv, ha'⟩ := hm r hr
  exact ⟨r', hr', hv, ha.trans ha'⟩

theorem add_ok {fixed : Option Nat} (h : add var access fixed rs = .ok rs') :
    (∀ v, v ∈ rs'.map (·.var) ↔ v = var ∨ v ∈ rs.map (·.var)) ∧ ((rs.map (·.var)).Nodup → (rs'.map (·.var)).Nodup) ∧
      Grants rs' var access ∧ (∀ r ∈ rs, Grants rs' r.var r.access) ∧
      ∀ v n, Binds rs' v n ↔ Binds rs v n ∨ v = var ∧ fixed = some n := by
  induction rs generalizing rs' with
  | nil =>
    cases h
    exact ⟨by simp, by simp, ⟨_, mem_cons_self, rfl, .refl _⟩, by simp, by simp [Binds, eq_comm]⟩
  | cons r rest ih =>
    unfold add at h
    by_cases hv : r.var = var
    · obtain ⟨x, rfl, hx⟩ : ∃ x, rs' = ⟨var, r.access.merge access, x⟩ :: rest ∧
          ∀ n, x = some n ↔ r.fixed = some n ∨ fixed = some n := by
        simp only [hv, if_true] at h
        split at h <;> rename_i hr
        · split at h
          · rename_i hab
            cases h
            exact ⟨_, rfl, by simp [hr, hab]⟩
          · cases h
        all_goals
          cases h
          exact ⟨_, rfl, by simp [hr]⟩
      subst hv
      refine ⟨by simp, by simp, ⟨_, mem_cons_self, rfl, Access.within_merge_right ..⟩, ?_, fun v n => ?_⟩
      · intro q hq
        rcases mem_cons.mp hq with rfl | hq
        · exact ⟨_, mem_cons_self, rfl, Access.within_merge_left ..⟩
        · exact ⟨q, mem_cons_of_mem _ hq, rfl, .refl _⟩
      · rw [binds_cons, binds_cons, hx]
        tauto
    · simp only [hv, if_false, except_bind_ok, except_pure_ok] at h
      obtain ⟨rest', hrest, rfl⟩ := h
      obtain ⟨hvars, hnodup, hgrant, hmono, hbinds⟩ := ih hrest
      refine ⟨fun v => ?_, fun hn => ?_, ?_, ?_, fun v n => by rw [binds_cons, binds_cons, hbinds, or_assoc]⟩
      · simp only [map_cons, mem_cons, hvars]
        tauto
      · obtain ⟨hr, hn⟩ := nodup_cons.mp hn
        refine nodup_cons.mpr ⟨fun hm => ?_, hnodup hn⟩
        exact ((hvars _).mp hm).elim hv hr
      · obtain ⟨q, hq, h1, h2⟩ := hgrant
        exact ⟨q, mem_cons_of_mem _ hq, h1, h2⟩
      intro q hq
      rcases mem_cons.mp hq with rfl | hq
      · exact ⟨q, mem_cons_self, rfl, .refl _⟩
      · obtain ⟨p, hp, h1, h2⟩ := hmono q hq
        exact ⟨p, mem_cons_of_mem _ hp, h1, h2⟩

end AllocRecord

/-- What the first walk leaves alone: whose the variable is and of what class, as whose operand it is marked, and how
readily it is evicted. -/
def Variable.given (v : Variable) : FunctionId × RegClass × Option Nat × Nat :=
  (v.function, v.cls, v.workOffset, v.priority)

theorem Variable.function_of_given {v v' : Variable} (h : v'.given = v.given) : v'.function = v.function :=
  (congrArg Prod.fst h :)

/-- The life of a variable before and after a step that extends it to an item, or does not. -/
structure Variable.Extended (item : ItemId) (touched : Prop) (v v' : Variable) : Prop where
  given : v'.given = v.given
  arrival : ∀ {p}, v.arrival = some p → v'.arrival = some p
  hit : touched → v'.firstItem = (v.firstItem.orElse fun _ => some item) ∧ v'.lastItem = some item
  miss : ¬ touched → v'.firstItem = v.firstItem ∧ v'.lastItem = v.lastItem

namespace Variable.Extended
variable {v : Variable}

theorem refl (v : Variable) (hp : ¬ p) : v.Extended item p v :=
  ⟨rfl, fun h => h, fun h => absurd h hp, fun _ => ⟨rfl, rfl⟩⟩

theorem trans (h : v.Extended item p v') (h' : v'.Extended item q v'') : v.Extended item (p ∨ q) v'' := by
  refine ⟨h'.given.trans h.given, fun ha => h'.arrival (h.arrival ha), fun hpq => ?_, fun hpq => ?_⟩
  · by_cases hp : p <;> by_cases hq : q
    · obtain ⟨h1, h2⟩ := h.hit hp
      obtain ⟨h3, h4⟩ := h'.hit hq
      refine ⟨?_, h4⟩
      rw [h3, h1]
      cases v.firstItem <;> rfl
    · obtain ⟨h1, h2⟩ := h.hit hp
      obtain ⟨h3, h4⟩ := h'.miss hq
      exact ⟨h3.trans h1, h4.trans h2⟩
    · obtain ⟨h1, h2⟩ := h.miss hp
      obtain ⟨h3, h4⟩ := h'.hit hq
      exact ⟨h1 ▸ h3, h4⟩
    · exact absurd hpq (not_or.mpr ⟨hp, hq⟩)
  · obtain ⟨hp, hq⟩ := not_or.mp hpq
    obtain ⟨h1, h2⟩ := h.miss hp
    obtain ⟨h3, h4⟩ := h'.miss hq
    exact ⟨h3.trans h1, h4.trans h2⟩

theorem congr (h : v.Extended item p v') (hpq : p ↔ q) : v.Extended item q v' := by
  rwa [← propext hpq]

end Variable.Extended

/-- A function without calls has no room for their arguments. -/
def Context.CallSpace (c : Context) : Prop := c.isCaller = false → c.callStackSize = 0

/-- Between the sessions, the lives of the variables in `T` are extended to an item, uses of those in `C` are counted,
variables may get homes, and calls are accounted for. -/
structure Session.Touches (f : FunctionId) (item : ItemId) (T C : List VarId) (s s' : Session) : Prop where
  ctx : s'.ctx = { s.ctx with
    slots := s'.ctx.slots, isCaller := s'.ctx.isCaller, callStackSize := s'.ctx.callStackSize }
  rest : s' = { s with vars := s'.vars, ctx := s'.ctx }
  calls : s.ctx.CallSpace → s'.ctx.CallSpace
  size : s'.vars.size = s.vars.size
  owned : ∀ id ∈ T, s.Owns f id
  vars : ∀ {id v}, s.vars.get? id = some v →
    ∃ v', s'.vars.get? id = some v' ∧ v.Extended item (id ∈ T) v'
  active : ∀ {id}, id ∈ s'.vars.active ↔ id ∈ s.vars.active ∨ id ∈ T
  others : ∀ {id}, id ∉ T → id ∉ C → id ∉ s.vars.active → s'.vars.get? id = s.vars.get? id
  run : ∃ c, Run Effect.acquires (s.holdings f) c (s'.holdings f)

namespace Session.Touches

theorem refl (s : Session) : s.Touches f item [] C s :=
  ⟨rfl, rfl, id, rfl, by simp, fun h => ⟨_, h, .refl _ (by simp)⟩, by simp, fun _ _ _ => rfl, _, .refl _⟩

section
variable (h : s.Touches f item T C t)
include h

theorem owns_back {id : VarId} (ho : t.Owns f id) : s.Owns f id := by
  obtain ⟨v, hv⟩ := ho
  obtain ⟨x, hx, hf, rfl⟩ := holdings_vars.mp hv
  have hlt : id.index < s.vars.vars.size := by
    have := (Array.getElem?_eq_some_iff.mp hx).1
    have hs : t.vars.vars.size = s.vars.vars.size := h.size
    omega
  have hy : s.vars.get? id = some s.vars.vars[id.index] := Array.getElem?_eq_getElem hlt
  obtain ⟨x', hx', he⟩ := h.vars hy
  rw [hx] at hx'
  cases hx'
  exact ⟨_, holdings_vars_of_get? hy (Variable.function_of_given he.given ▸ hf)⟩

theorem owns {id : VarId} (ho : s.Owns f id) : t.Owns f id := by
  obtain ⟨v, hv⟩ := ho
  obtain ⟨c, hr⟩ := h.run
  obtain ⟨v', hv', -⟩ := hr.acquires.2 hv
  exact ⟨v', hv'⟩

theorem trans (h' : t.Touches f item T' C' u) : s.Touches f item (T ++ T') (C ++ C') u where
  ctx := by rw [h'.ctx, h.ctx]
  rest := by rw [h'.rest, h.rest]
  calls hc := h'.calls (h.calls hc)
  size := h'.size.trans h.size
  owned id hid := (mem_append.mp hid).elim (h.owned id) fun hm => h.owns_back (h'.owned id hm)
  vars hv := by
    obtain ⟨v', hv', he⟩ := h.vars hv
    obtain ⟨v'', hv'', he'⟩ := h'.vars hv'
    exact ⟨v'', hv'', (he.trans he').congr mem_append.symm⟩
  active := by
    intro id
    rw [h'.active, h.active, mem_append, or_assoc]
  others hT hC ha := by
    simp only [mem_append, not_or] at hT hC
    exact (h'.others hT.2 hC.2 fun hm => (h.active.mp hm).elim ha hT.1).trans (h.others hT.1 hC.1 ha)
  run := by
    obtain ⟨c, hr⟩ := h.run
    obtain ⟨c', hr'⟩ := h'.run
    exact ⟨c ++ c', hr.trans hr'⟩

theorem congr (hT : ∀ id, id ∈ T' ↔ id ∈ T)
    (hC : ∀ id ∈ C, id ∈ C' ∨ id ∈ T' ∨ id ∈ s.vars.active) : s.Touches f item T' C' t where
  ctx := h.ctx
  rest := h.rest
  calls := h.calls
  size := h.size
  owned id hid := h.owned id ((hT id).mp hid)
  vars hv := by
    obtain ⟨v', hv', he⟩ := h.vars hv
    exact ⟨v', hv', he.congr (hT _).symm⟩
  active := by
    intro id
    rw [h.active, hT]
  others hT' hC' ha := h.others (fun hm => hT' ((hT _).mpr hm)) (fun hm => ((hC _ hm).resolve_left hC').elim hT' ha) ha
  run := h.run

theorem absorb (hC : ∀ id ∈ C, id ∈ T ∨ id ∈ s.vars.active) : s.Touches f item T [] t :=
  h.congr (fun _ => .rfl) fun id hid => .inr (hC id hid)

end

theorem of_modified {id : VarId} (hv : s.vars.get? id = some v) (hrest : t = { s with vars := t.vars, ctx := t.ctx })
    (hctx : t.ctx = { s.ctx with slots := t.ctx.slots }) (hvars : t.vars.vars = (s.vars.modify id g).vars)
    (hact : ∀ x, x ∈ t.vars.active ↔ x ∈ s.vars.active ∨ x ∈ T) (hT : ∀ x ∈ T, x = id ∧ v.function = f)
    (hid : id ∈ T ∨ id ∈ C) (hext : v.Extended item (id ∈ T) (g v))
    (hrun : ∃ c, Run Effect.acquires (s.holdings f) c (t.holdings f)) : s.Touches f item T C t := by
  have hget : ∀ x, t.vars.get? x = (s.vars.modify id g).get? x := fun x => congrArg (·[x.index]?) hvars
  refine ⟨by rw [hctx], hrest, fun h => by rwa [hctx], by simp [VarTable.size, hvars, VarTable.modify], fun x hx => ?_,
    fun {x w} hw => ?_, hact _, fun {x} hxT hxC _ => ?_, hrun⟩
  · obtain ⟨rfl, hf⟩ := hT x hx
    exact ⟨_, holdings_vars_of_get? hv hf⟩
  · rw [hget]
    by_cases hx : x = id
    · subst hx
      cases hv ▸ hw
      exact ⟨g v, by simp [VarTable.get?_modify_self, hv], hext⟩
    · exact ⟨w, (get?_modify_of_ne _ (Ne.symm hx) _).trans hw, .refl _ fun h => hx (hT x h).1⟩
  · rw [hget, VarTable.get?_modify_of_ne]
    rintro rfl
    exact hid.elim hxT hxC

theorem of_modify {id : VarId} (hv : s.vars.get? id = some v)
    (hcore : (g v).core = v.core) (hgiven : (g v).given = v.given) (hfirst : (g v).firstItem = v.firstItem)
    (hlast : (g v).lastItem = v.lastItem) (harr : ∀ {p}, v.arrival = some p → (g v).arrival = some p) :
    s.Touches f item [] [id] { s with vars := s.vars.modify id g } :=
  .of_modified hv rfl rfl rfl (by simp) (by simp) (.inr (mem_singleton_self id))
    ⟨hgiven, harr, by simp, fun _ => ⟨hfirst, hlast⟩⟩ ⟨[], by rw [holdings_modifyVar_same hv hcore]; exact .refl _⟩

theorem items (h : s.Touches f item T C t) : t.items = s.items := (congrArg Session.items h.rest :)

theorem functionEq (h : s.Touches f item T C t) : t.ctx.function = s.ctx.function := by rw [h.ctx]

theorem cls_back (h : s.Touches f item T C t) {id : VarId}
    (ht : ∀ v', t.vars.get? id = some v' → v'.cls = cls) (hv : s.vars.get? id = some v) : v.cls = cls := by
  obtain ⟨v', hv', he⟩ := h.vars hv
  exact (congrArg (·.2.1) he.given :).symm.trans (ht v' hv')

theorem loop {α : Type} {g : α → Build Unit} {var c : α → List VarId} {l : List α}
    (step : ∀ a ∈ l, ∀ t u, t.ctx.function = s.ctx.function → g a t = .ok () u → t.Touches f item (var a) (c a) u)
    (h : l.forM g s = .ok r t) : s.Touches f item (l.flatMap var) (l.flatMap c) t := by
  induction l generalizing s with
  | nil => exact forM_nil_ok.mp h ▸ refl s
  | cons a l ih =>
    obtain ⟨u, ha, hl⟩ := forM_cons_ok.mp h
    have h1 := step a mem_cons_self s u rfl ha
    have h2 := ih (fun b hb t' u' hf hg =>
      step b (mem_cons_of_mem _ hb) t' u' (hf.trans h1.functionEq) hg) hl
    exact h1.trans h2

end Session.Touches

namespace Build
variable {id : VarId}

theorem touchVar_touches (hf : s.ctx.function = some f) (h : touchVar item id s = .ok () s') :
    s.Touches f item [id] [] s' := by
  simp only [touchVar, bind_ok, compiling_ok, getVar_ok, check_ok, modifyVar_ok, lift_ok, modify_ok] at h
  obtain ⟨g, _, ⟨hg, rfl⟩, v, _, ⟨hv, rfl⟩, hvf, _, _, ⟨-, rfl⟩, _, _, ⟨⟩, vars, _, ⟨ha, rfl⟩, rfl⟩ := h
  rw [hf] at hg
  cases hg
  have hvf : v.function = f := not_not.mp hvf
  obtain ⟨hvars, hact⟩ := activate_ok ha
  refine .of_modified hv rfl rfl hvars (fun x => ?_) (by simp [hvf]) (.inl (mem_singleton_self id))
    ⟨rfl, fun h => h, fun _ => ⟨rfl, rfl⟩, by simp⟩ ⟨[], ?_⟩
  · rw [hact]
    split
    · next hin => exact ⟨.inl, fun hx => hx.elim (fun h => h) fun e => mem_singleton.mp e ▸ hin⟩
    · simp
  · have : ({ s with vars } : Session).holdings f = s.holdings f := by
      rw [← holdings_modifyVar_same (f := f) hv (g := fun v =>
        { v with firstItem := v.firstItem.orElse fun _ => some item, lastItem := some item }) rfl]
      unfold holdings
      simp only [VarTable.get?, hvars]
    rw [this]
    exact .refl _

theorem countReg_touches (h : countReg id access s = .ok () s') : s.Touches f item [] [id] s' := by
  obtain ⟨⟨v, hv⟩, rfl⟩ := modifyVar_ok.mp h
  exact .of_modify hv rfl rfl rfl rfl fun h => h

theorem countMem_touches (h : countMem id access s = .ok () s') : s.Touches f item [] [id] s' := by
  obtain ⟨⟨v, hv⟩, rfl⟩ := modifyVar_ok.mp h
  exact .of_modify hv rfl rfl rfl rfl fun h => h

theorem suggestReg_touches (h : suggestReg id index s = .ok () s') : s.Touches f item [] [id] s' := by
  obtain ⟨⟨v, hv⟩, rfl⟩ := modifyVar_ok.mp h
  refine .of_modify hv rfl rfl rfl rfl fun {p} h => ?_
  revert h
  unfold Variable.arrival
  cases v.passing <;> cases v.homeReg <;> simp

theorem noteCall_touches {call : ItemId} (h : noteCall call id s = .ok () s') : s.Touches f item [] [id] s' := by
  obtain ⟨⟨v, hv⟩, rfl⟩ := modifyVar_ok.mp h
  exact .of_modify hv rfl rfl rfl rfl fun h => h

theorem ensureHome_touches (ho : s.Owns f id) (h : ensureHome id s = .ok () s') : s.Touches f item [] [id] s' := by
  obtain ⟨v, hv⟩ := ho
  obtain ⟨x, hx, hfn, rfl⟩ := holdings_vars.mp hv
  simp only [ensureHome, bind_ok] at h
  obtain ⟨a, _, h, ⟨⟩⟩ := h
  obtain ⟨x', hx', rfl, -⟩ := resolveHome_ok h
  rw [hx] at hx'
  cases hx'
  have hm : (Effect.acquire id).acquires := ⟨id, rfl⟩
  obtain ⟨c, hr, -⟩ := (housed_moves hm hx hfn).1.run
  unfold housed at hr ⊢
  cases hh : x.home? with
  | some => exact .refl s
  | none =>
    rw [hh] at hr
    exact .of_modified hx rfl rfl rfl (by simp) (by simp) (.inr (mem_singleton_self id))
      ⟨rfl, fun h => h, by simp, fun _ => ⟨rfl, rfl⟩⟩ ⟨c, hr⟩

/-- The access that an instruction asks for at an operand that is a variable. -/
def askedAccess (i : InstructionItem) (index : Nat) : Access :=
  if isZeroing i then .write else (i.opcode.constraint index i.operands.length).access

/-- The accesses of an operand are among those recorded. -/
def Recorded (i : InstructionItem) (records : List AllocRecord) (memVars : List VarId) (index : Nat) :
    Operand → Prop
  | .var v => (isZeroing i = true ∧ index = 1) ∨ AllocRecord.Grants records v.id (askedAccess i index)
  | .mem m => (∀ v ∈ m.addressVars, AllocRecord.Grants records v .read) ∧
      ∀ v, m.homeVar = some v → v ∈ memVars
  | _ => True

theorem Recorded.mono (h : Recorded i rs mem index o)
    (hr : ∀ r ∈ rs, AllocRecord.Grants rs' r.var r.access) (hm : mem ⊆ mem') :
    Recorded i rs' mem' index o := by
  cases o with
  | var v => exact h.imp_right fun h => h.mono hr
  | mem m => exact ⟨fun v hv => (h.1 v hv).mono hr, fun v hv => hm (h.2 v hv)⟩
  | reg | imm | label => trivial

theorem addAll_ok {vs : List VarId}
    (h : vs.foldlM (fun rs v => (liftM (AllocRecord.add v .read none rs) : Build _)) rs s = .ok rs' s') :
    s' = s ∧ (∀ v, v ∈ rs'.map (·.var) ↔ v ∈ vs ∨ v ∈ rs.map (·.var)) ∧
      ((rs.map (·.var)).Nodup → (rs'.map (·.var)).Nodup) ∧
      (∀ v ∈ vs, AllocRecord.Grants rs' v .read) ∧ (∀ r ∈ rs, AllocRecord.Grants rs' r.var r.access) ∧
      ∀ v n, AllocRecord.Binds rs' v n ↔ AllocRecord.Binds rs v n := by
  induction vs generalizing rs with
  | nil =>
    cases h
    exact ⟨rfl, by simp, id, by simp, fun r hr => ⟨r, hr, rfl, .refl _⟩, fun _ _ => .rfl⟩
  | cons v vs ih =>
    rw [foldlM_cons] at h
    simp only [bind_ok, lift_ok] at h
    obtain ⟨mid, _, ⟨ha, rfl⟩, h⟩ := h
    obtain ⟨h1, h2, h3, h4, h5⟩ := AllocRecord.add_ok ha
    obtain ⟨rfl, k1, k2, k3, k4, k5⟩ := ih h
    refine ⟨rfl, fun x => ?_, fun hn => k2 (h2 hn), ?_, fun r hr => (h4 r hr).mono k4, fun v n => by simp [k5, h5]⟩
    · rw [k1, h1, mem_cons]
      tauto
    intro x hx
    rcases mem_cons.mp hx with rfl | hx
    · exact h3.mono k4
    · exact k3 x hx

theorem operands_of_isZeroing (h : isZeroing i = true) : i.opcode.isZeroingIdiom = true ∧
      ∃ a b : VarRef, i.operands = [.var a, .var b] ∧ a.id = b.id := by
  unfold isZeroing at h
  rw [Bool.and_eq_true] at h
  obtain ⟨h1, h⟩ := h
  split at h
  · rename_i a b ho
    exact ⟨h1, a, b, ho, by simpa using h⟩
  · cases h

variable (f item) in
/-- What the collected accesses are, and that collecting changes counts only. -/
theorem collect_ok (h : collect i index rs mem ops s = .ok (rs', mem') s') :
    s.Touches f item [] mem' s' ∧ ((rs.map (·.var)).Nodup → (rs'.map (·.var)).Nodup) ∧
      (∀ r ∈ rs, AllocRecord.Grants rs' r.var r.access) ∧ mem ⊆ mem' ∧
      (∀ k o, ops[k]? = some o → Recorded i rs' mem' (index + k) o) ∧
      (∀ v, v ∈ rs'.map (·.var) ∨ v ∈ mem' → (v ∈ rs.map (·.var) ∨ v ∈ mem) ∨ v ∈ ops.flatMap Operand.vars) ∧
      ∀ v n, AllocRecord.Binds rs' v n ↔ AllocRecord.Binds rs v n ∨ ∃ k ref, ops[k]? = some (.var ref) ∧ ref.id = v ∧
        (i.opcode.constraint (index + k) i.operands.length).fixed = some n := by
  induction ops generalizing s index rs mem with
  | nil =>
    obtain ⟨he, rfl⟩ := pure_ok.mp h
    cases he
    exact ⟨.refl _, id, fun r hr => ⟨r, hr, rfl, .refl _⟩, fun _ h => h, by simp, fun v => .inl, by simp⟩
  | cons o ops ih =>
    -- one operand leads from the records and homes so far to the next ones
    obtain ⟨rs1, mem1, t, ht, hn, hg, hm, hrec, hv, hb, h⟩ : ∃ rs1 mem1 t, s.Touches f item [] mem1 t ∧
        ((rs.map (·.var)).Nodup → (rs1.map (·.var)).Nodup) ∧
        (∀ r ∈ rs, AllocRecord.Grants rs1 r.var r.access) ∧ mem ⊆ mem1 ∧ Recorded i rs1 mem1 index o ∧
        (∀ v, v ∈ rs1.map (·.var) ∨ v ∈ mem1 → (v ∈ rs.map (·.var) ∨ v ∈ mem) ∨ v ∈ o.vars) ∧
        (∀ v n, AllocRecord.Binds rs1 v n ↔ AllocRecord.Binds rs v n ∨ ∃ ref : VarRef, o = .var ref ∧ ref.id = v ∧
          (i.opcode.constraint index i.operands.length).fixed = some n) ∧
        collect i (index + 1) rs1 mem1 ops t = .ok (rs', mem') s' := by
      have same : ∀ r ∈ rs, AllocRecord.Grants rs r.var r.access := fun r hr => ⟨r, hr, rfl, .refl _⟩
      cases o with
      | var v =>
        unfold collect at h
        by_cases hz : (isZeroing i && decide (index = 1)) = true
        · simp only [hz, if_true] at h
          have hz' : isZeroing i = true ∧ index = 1 := by simpa using hz
          exact ⟨rs, mem, s, .refl _, id, same, fun _ h => h, .inl hz', fun v => .inl,
            by simp [Opcode.fixed_of_isZeroingIdiom (operands_of_isZeroing hz'.1).1], h⟩
        simp only [hz, Bool.false_eq_true, if_false, bind_ok, lift_ok] at h
        obtain ⟨rs1, _, ⟨ha, rfl⟩, h⟩ := h
        obtain ⟨h1, h2, h3, h4, h5⟩ := AllocRecord.add_ok ha
        refine ⟨rs1, mem, s, .refl _, h2, h4, fun _ h => h, .inr h3, fun x hx => ?_, by simp [h5, eq_comm], h⟩
        rw [h1] at hx
        simp only [Operand.vars, mem_singleton]
        tauto
      | mem m =>
        unfold collect at h
        simp only [bind_ok] at h
        obtain ⟨rs1, t0, ha, h⟩ := h
        obtain ⟨ht0, h1, h2, h3, h4, h5⟩ := addAll_ok ha
        rw [ht0] at h
        cases hh : m.homeVar with
        | none =>
          simp only [hh] at h
          refine ⟨rs1, mem, s, .refl _, h2, h4, fun _ h => h, ⟨h3, by simp [hh]⟩, fun x hx => ?_, by simp [h5], h⟩
          rw [h1] at hx
          simp only [Operand.vars, mem_append]
          tauto
        | some v =>
          simp only [hh, bind_ok] at h
          obtain ⟨_, t, hc, h⟩ := h
          have hv : v ∈ if mem.contains v then mem else mem ++ [v] := by
            split
            · rename_i hin
              simpa using hin
            · simp
          refine ⟨rs1, _, t, (countMem_touches hc).congr (fun _ => .rfl) ?_, h2, h4, ?_, ⟨h3, ?_⟩, fun x hx => ?_,
            by simp [h5], h⟩
          · rintro x hx
            cases mem_singleton.mp hx
            exact .inl hv
          · split
            · exact fun _ h => h
            · exact subset_append_left ..
          · rintro x hx
            cases hh ▸ hx
            exact hv
          have hx' : x ∈ rs1.map (·.var) ∨ x ∈ mem ∨ x = v := by
            rcases hx with hx | hx
            · exact .inl hx
            split at hx
            · exact .inr (.inl hx)
            rcases mem_append.mp hx with hx | hx
            · exact .inr (.inl hx)
            · exact .inr (.inr (mem_singleton.mp hx))
          rw [h1] at hx'
          simp only [Operand.vars, mem_append, hh, Option.toList_some, mem_singleton]
          tauto
      | reg | imm | label =>
        exact ⟨rs, mem, s, .refl _, id, same, fun _ h => h, trivial, fun v => .inl, by simp, h⟩
    obtain ⟨k1, k3, k4, k5, k6, k7, k8⟩ := ih h
    refine ⟨(ht.trans k1).congr (fun _ => .rfl) (by grind), fun h => k3 (hn h), fun r hr => (hg r hr).mono k4,
      fun _ hx => k5 (hm hx), ?_, ?_, fun v n => ?_⟩
    · intro k x hx
      cases k with
      | zero =>
        cases hx
        exact hrec.mono k4 k5
      | succ k =>
        have := k6 k x hx
        rwa [show index + 1 + k = index + (k + 1) by omega] at this
    · intro v hx
      rw [flatMap_cons, mem_append]
      rcases k7 v hx with hx | hx
      · rcases hv v hx with hx | hx
        · exact .inl hx
        · exact .inr (.inl hx)
      · exact .inr (.inr hx)
    · rw [k8, hb, or_assoc]
      refine or_congr_right ⟨?_, ?_⟩
      · rintro (⟨ref, rfl, hn⟩ | ⟨k, ref, hk, he, hn⟩)
        · exact ⟨0, ref, rfl, hn⟩
        · exact ⟨k + 1, ref, hk, he, by rwa [show index + (k + 1) = index + 1 + k by omega]⟩
      rintro ⟨k, ref, hk, he, hn⟩
      cases k with
      | zero =>
        cases hk
        exact .inl ⟨ref, rfl, he, hn⟩
      | succ k => exact .inr ⟨k, ref, hk, he, by rwa [show index + 1 + k = index + (k + 1) by omega]⟩

/-- The accesses of an instruction as the first walk leaves them. -/
structure Collected (i : InstructionItem) (records : List AllocRecord) (memVars : List VarId) : Prop where
  nodup : (records.map (·.var)).Nodup
  apart : ∀ r ∈ records, r.var ∉ memVars
  recorded : ∀ k o, i.operands[k]? = some o → Recorded i records memVars k o
  named : ∀ v, v ∈ records.map (·.var) ∨ v ∈ memVars ↔ v ∈ i.operands.flatMap Operand.vars

/-- Besides, the variables that are bound to registers are those of the operands that must be there. -/
structure Bound (i : InstructionItem) (records : List AllocRecord) (memVars : List VarId) : Prop
    extends Collected i records memVars where
  binds : ∀ v n, AllocRecord.Binds records v n ↔ ∃ k ref, i.operands[k]? = some (.var ref) ∧ ref.id = v ∧
    (i.opcode.constraint k i.operands.length).fixed = some n

theorem mem_of_recorded {records : List AllocRecord}
    (h : ∀ k o, i.operands[k]? = some o → Recorded i records memVars k o)
    (hv : v ∈ i.operands.flatMap Operand.vars) : v ∈ records.map (·.var) ∨ v ∈ memVars := by
  have grant : ∀ {v a}, AllocRecord.Grants records v a → v ∈ records.map (·.var) := by
    rintro v a ⟨r, hr, rfl, -⟩
    exact mem_map_of_mem hr
  obtain ⟨o, ho, hv⟩ := mem_flatMap.mp hv
  obtain ⟨k, hk⟩ := getElem?_of_mem ho
  have hrec := h k o hk
  cases o with
  | var x =>
    cases mem_singleton.mp hv
    rcases hrec with ⟨hz, rfl⟩ | hg
    · obtain ⟨-, a, b, hops, hab⟩ := operands_of_isZeroing hz
      rw [hops] at hk
      cases hk
      rcases h 0 (.var a) (by rw [hops]; rfl) with ⟨-, h0⟩ | hg
      · cases h0
      · exact .inl (hab ▸ grant hg)
    · exact .inl (grant hg)
  | mem m =>
    rcases mem_append.mp hv with hv | hv
    · exact .inl (grant (hrec.1 v hv))
    · exact .inr (hrec.2 v (by simpa using hv))
  | reg | imm | label => cases hv

section
variable (hf : s.ctx.function = some f)
include hf

theorem prepareRecord_touches (h : prepareRecord item i memVars r s = .ok () s') :
    s.Touches f item [r.var] [] s' ∧ r.var ∉ memVars ∧
      ∀ n x, r.fixed = some n → s.vars.get? r.var = some x → x.cls = .gp := by
  simp only [prepareRecord, bind_ok, check_ok] at h
  obtain ⟨hm, _, t1, h1, _, t2, h2, h⟩ := h
  have m2 := (touchVar_touches hf h1).trans (countReg_touches h2)
  cases hr : r.fixed with
  | none =>
    simp only [hr] at h
    cases h
    exact ⟨m2.absorb (by simp), by simpa using hm, by simp⟩
  | some i =>
    simp only [hr, bind_ok, getVar_ok, check_ok] at h
    obtain ⟨y, _, ⟨hy, rfl⟩, hcls, h⟩ := h
    refine ⟨(m2.trans (suggestReg_touches h)).absorb (by simp), by simpa using hm, fun _ x _ hx => ?_⟩
    obtain ⟨x', hx', he⟩ := m2.vars hx
    cases hx' ▸ hy
    exact (congrArg (·.2.1) he.given :).symm.trans (not_not.mp hcls)

theorem prepareRecords_touches {l : List AllocRecord}
    (h : l.forM (prepareRecord item i memVars) s = .ok () s') : s.Touches f item (l.flatMap fun r => [r.var]) [] s' :=
  .absorb (.loop (c := fun _ => []) (fun _ _ _ _ ht hr => (prepareRecord_touches (ht.trans hf) hr).1) h) (by simp)

theorem prepareHomes_touches {l : List VarId}
    (h : (l.forM fun v => do touchVar item v; ensureHome v : Build Unit) s = .ok () s') :
    s.Touches f item (l.flatMap fun v => [v]) [] s' := by
  refine .absorb (.loop (fun v _ t u ht hv => ?_) h) fun _ => .inl
  obtain ⟨_, t', ht', hv⟩ := bind_ok.mp hv
  have hm := touchVar_touches (ht.trans hf) ht'
  exact hm.trans (ensureHome_touches (hm.owns (hm.owned v mem_cons_self)) hv)

theorem prepareInstruction_ok (h : prepareInstruction item i s = .ok () s') :
    ∃ records memVars t, Bound i records memVars ∧
      (∀ r ∈ records, ∀ n x, r.fixed = some n → s.vars.get? r.var = some x → x.cls = .gp) ∧
      s.Touches f item (i.operands.flatMap Operand.vars) [] t ∧
      s' = { t with items := t.items.modify item ({ · with
        kind := .instruction { i with records, memVars } }) } := by
  simp only [prepareInstruction, bind_ok, setKind_ok] at h
  obtain ⟨⟨records, memVars⟩, t1, h1, _, t2, h2, _, t3, h3, -, rfl⟩ := h
  obtain ⟨m1, hn, -, -, hrec, hnamed, hbinds⟩ := collect_ok f item h1
  have hf1 : t1.ctx.function = some f := m1.functionEq.trans hf
  have m2 := prepareRecords_touches hf1 h2
  have hap : ∀ r ∈ records, r.var ∉ memVars ∧ ∀ n x, r.fixed = some n → t1.vars.get? r.var = some x → x.cls = .gp := by
    have key : ∀ (l : List AllocRecord) (t u : Session), t.ctx.function = some f →
        l.forM (prepareRecord item i memVars) t = .ok () u → ∀ r ∈ l, r.var ∉ memVars ∧
          ∀ n x, r.fixed = some n → t.vars.get? r.var = some x → x.cls = .gp := by
      intro l
      induction l with
      | nil => simp
      | cons r l ih =>
        intro t u ht hl
        obtain ⟨t', hr, hl⟩ := forM_cons_ok.mp hl
        obtain ⟨hm, hap⟩ := prepareRecord_touches ht hr
        refine forall_mem_cons.mpr ⟨hap, fun q hq => (ih t' u (hm.functionEq.trans ht) hl q hq).imp_right ?_⟩
        exact fun hgp n x hn => hm.cls_back (hgp n · hn)
    exact key records t1 t2 hf1 h2
  have m3 := prepareHomes_touches (m2.functionEq.trans hf1) h3
  have hc : Collected i records memVars := by
    refine ⟨hn (by simp), fun r hr => (hap r hr).1, fun k o hk => by simpa using hrec k o hk, fun v => ⟨fun hv => ?_, ?_⟩⟩
    · exact (hnamed v hv).resolve_left (by simp)
    · exact mem_of_recorded fun k o hk => by simpa using hrec k o hk
  refine ⟨records, memVars, t3, ⟨hc, fun v n => by simpa [AllocRecord.Binds] using hbinds v n⟩,
    fun r hr n x hn => m1.cls_back ((hap r hr).2 n · hn),
    ((m1.trans m2).trans m3).congr (fun v => ?_) fun v hv => .inr (.inl ?_), rfl⟩
  · rw [← hc.named]
    simp [eq_comm]
  · rw [← hc.named]
    exact .inr (by simpa using hv)

end

/-- The life of the variable extends over the offset. -/
def Spans (items : ItemSeq) (v : Variable) (offset : Nat) : Prop :=
  ∃ a b, v.firstItem.bind items.offset? = some a ∧ v.lastItem.bind items.offset? = some b ∧
    a ≤ offset ∧ offset ≤ b

/-- The life of a variable before and after a jump, which may stretch it. -/
structure Stretched (item : ItemId) (must : Prop) (v v' : Variable) : Prop where
  given : v'.given = v.given
  arrival : v'.arrival = v.arrival
  core : v'.core = v.core
  first : v'.firstItem = v.firstItem
  last : v'.lastItem = v.lastItem ∨ v.lastItem ≠ none ∧ v'.lastItem = some item
  must : must → v'.lastItem = some item

/-- A step that changes at most the lives of the variables `l`. Those that extend over the offset go on to the item. -/
structure Stretches (item : ItemId) (l : List VarId) (offset : Option Nat) (s s' : Session) : Prop where
  rest : ∃ vars, s' = { s with vars } ∧ vars.active = s.vars.active ∧ vars.size = s.vars.size ∧
    ∀ v ∉ l, vars.get? v = s.vars.get? v
  vars : ∀ {id v}, s.vars.get? id = some v → ∃ v', s'.vars.get? id = some v' ∧
    Stretched item (∃ n, offset = some n ∧ id ∈ l ∧ Spans s.items v n) v v'

theorem Stretches.refl (h : ∀ {id v n}, s.vars.get? id = some v → o = some n → id ∈ l → ¬ Spans s.items v n) :
    Stretches item l o s s where
  rest := ⟨s.vars, rfl, rfl, rfl, fun _ _ => rfl⟩
  vars {_ v} hv := ⟨v, hv, rfl, rfl, rfl, rfl, .inl rfl, fun ⟨_, hn, hm, hs⟩ => absurd hs (h hv hn hm)⟩

theorem extendOver_ok (h : extendOver item target var s = .ok () s') :
    Stretches item [var] (some target) s s' := by
  simp only [extendOver, bind_ok, getVar_ok] at h
  obtain ⟨_, _, ⟨⟩, x, _, ⟨hx, rfl⟩, h⟩ := h
  have skip : ¬ Spans s.items x target → s' = s → Stretches item [var] (some target) s s' := by
    rintro hn rfl
    refine .refl fun hv ho hm => ?_
    cases ho
    cases mem_singleton.mp hm
    cases hx ▸ hv
    exact hn
  cases ha : x.firstItem.bind s.items.offset? with
  | none =>
    simp only [ha, pure_ok, true_and] at h
    exact skip (by rintro ⟨a, b, h1, -⟩; rw [ha] at h1; cases h1) h.symm
  | some a =>
    cases hb : x.lastItem.bind s.items.offset? with
    | none =>
      simp only [ha, hb, pure_ok, true_and] at h
      exact skip (by rintro ⟨a, b, -, h1, -⟩; rw [hb] at h1; cases h1) h.symm
    | some b =>
      simp only [ha, hb] at h
      by_cases hc : (decide (a ≤ target) && decide (target ≤ b)) = true
      · rw [if_pos hc] at h
        obtain ⟨-, rfl⟩ := modifyVar_ok.mp h
        refine ⟨⟨_, rfl, rfl, by simp [VarTable.size, VarTable.modify],
          fun v hv => get?_modify_of_ne _ (ne_of_not_mem_cons hv).symm _⟩, fun {id v} hv => ?_⟩
        by_cases hid : id = var
        · subst hid
          cases hx ▸ hv
          have hl : x.lastItem ≠ none := fun e => by
            rw [e] at hb
            cases hb
          refine ⟨{ x with lastItem := some item }, ?_, rfl, rfl, rfl, rfl, .inr ⟨hl, rfl⟩, fun _ => rfl⟩
          rw [VarTable.get?_modify_self, hx]
          rfl
        · refine ⟨v, (get?_modify_of_ne _ (Ne.symm hid) _).trans hv, rfl, rfl, rfl, rfl, .inl rfl, ?_⟩
          rintro ⟨_, -, hm, -⟩
          exact absurd (mem_singleton.mp hm) hid
      · rw [if_neg hc] at h
        cases h
        refine skip (fun hs => hc ?_) rfl
        obtain ⟨a', b', h1, h2, h3, h4⟩ := hs
        cases ha ▸ h1
        cases hb ▸ h2
        simp [h3, h4]

theorem extendAll_ok (h : l.forM (extendOver item target) s = .ok u s') : Stretches item l (some target) s s' := by
  induction l generalizing s with
  | nil =>
    obtain rfl := forM_nil_ok.mp h
    exact .refl fun _ _ hm => (not_mem_nil hm).elim
  | cons var l ih =>
    obtain ⟨t, ht, hl⟩ := forM_cons_ok.mp h
    obtain ⟨⟨vars, rfl, hact, hsize, hother⟩, h1⟩ := extendOver_ok ht
    obtain ⟨⟨vars', rfl, hact', hsize', hother'⟩, h2⟩ := ih hl
    refine ⟨⟨vars', rfl, hact'.trans hact, hsize'.trans hsize, fun v hv => ?_⟩, fun {id v} hv => ?_⟩
    · rw [mem_cons, not_or] at hv
      exact (hother' v hv.2).trans (hother v (by simpa using hv.1))
    obtain ⟨v', hv', s1⟩ := h1 hv
    obtain ⟨v'', hv'', s2⟩ := h2 hv'
    have hlast : v'.lastItem = some item → v''.lastItem = some item := fun h =>
      s2.last.elim (fun e => e.trans h) fun e => e.2
    refine ⟨v'', hv'', s2.given.trans s1.given, s2.arrival.trans s1.arrival, s2.core.trans s1.core,
      s2.first.trans s1.first, ?_, ?_⟩
    · rcases s2.last with e | ⟨hn, e⟩
      · exact s1.last.imp e.trans fun h => ⟨h.1, e.trans h.2⟩
      · exact .inr ⟨fun h => hn ((s1.last.resolve_right fun h' => h'.1 h).trans h), e⟩
    rintro ⟨n, hn, hm, hspan⟩
    rcases mem_cons.mp hm with rfl | hm
    · exact hlast (s1.must ⟨n, hn, mem_cons_self, hspan⟩)
    rcases s1.last with e | ⟨-, e⟩
    · refine s2.must ⟨n, hn, hm, ?_⟩
      unfold Spans
      rwa [s1.first, e]
    · exact hlast e

private theorem extendSpanning_ok (h : (match o with
      | some n => l.forM (extendOver item n)
      | none => pure () : Build Unit) s = .ok u s') : Stretches item l o s s' := by
  cases o with
  | none =>
    cases h
    exact .refl fun _ hn => by cases hn
  | some n => exact extendAll_ok h

section
variable (hf : s.ctx.function = some f)
include hf

theorem prepareReturnOperand_touches {ret : Option (VarType × Reg)} (h : prepareReturnOperand item o ret s = .ok () s') :
    s.Touches f item o.var?.toList [] s' := by
  cases o with
  | var v =>
    simp only [prepareReturnOperand, bind_ok] at h
    obtain ⟨_, t1, h1, _, t2, h2, h⟩ := h
    have m2 := (touchVar_touches hf h1).trans (countReg_touches h2)
    cases ret with
    | none =>
      cases h
      exact m2.absorb (by simp)
    | some r =>
      simp only [bind_ok, getVar_ok] at h
      obtain ⟨x, _, ⟨-, rfl⟩, h⟩ := h
      by_cases hc : r.2.cls = x.cls
      · rw [if_pos hc] at h
        exact (m2.trans (suggestReg_touches h)).absorb (by simp)
      rw [if_neg hc] at h
      cases h
      exact m2.absorb (by simp)
  | reg | mem | imm | label =>
    cases h
    exact .refl _

theorem prepareReturnFrom_touches (h : prepareReturnFrom item ops rets s = .ok () s') :
    s.Touches f item (ops.filterMap var?) [] s' := by
  have cons : ∀ (o : Operand) (ops : List Operand),
      (o :: ops).filterMap var? = o.var?.toList ++ ops.filterMap var? := by
    intro o ops
    cases o <;> rfl
  induction ops generalizing s rets with
  | nil =>
    cases h
    exact .refl _
  | cons o ops ih =>
    rw [cons]
    cases rets <;>
    · simp only [prepareReturnFrom, bind_ok] at h
      obtain ⟨_, t, h1, h2⟩ := h
      have m1 := prepareReturnOperand_touches hf h1
      exact m1.trans (ih (m1.functionEq.trans hf) h2)

theorem prepareReturn_touches
    (h : prepareReturn item r s = .ok () s') : s.Touches f item (r.operands.filterMap var?) [] s' := by
  simp only [prepareReturn, bind_ok, lift_ok] at h
  obtain ⟨_, _, ⟨⟩, _, _, ⟨-, rfl⟩, h⟩ := h
  exact prepareReturnFrom_touches hf h

theorem prepareCall_touches {c : CallItem} (h : prepareCall item c s = .ok () s') :
    s.Touches f item ((c.args ++ [c.target]).flatMap registerVars ++ c.returns) [] s' := by
  simp only [prepareCall, bind_ok, getPrototype_ok] at h
  obtain ⟨p, _, ⟨-, rfl⟩, _, _, ⟨⟩, _, t1, h1, _, t2, h2, _, _, ⟨⟩, h3⟩ := h
  have m0 : s.Touches f item [] [] { s with ctx := { s.ctx with
      isCaller := true, callStackSize := max s.ctx.callStackSize (alignUp16 p.argsStackSize) } } :=
    ⟨rfl, rfl, fun _ h => (by cases h), rfl, by simp, fun h => ⟨_, h, .refl _ (by simp)⟩, by simp,
      fun _ _ _ => rfl, [], .refl _⟩
  have hf0 := m0.functionEq.trans hf
  have step : ∀ access v t u, t.ctx.function = some f →
      (do touchVar item v; countReg v access : Build Unit) t = .ok () u → t.Touches f item [v] [v] u := by
    intro access v t u ht hv
    obtain ⟨_, t', h1, h2⟩ := bind_ok.mp hv
    exact (touchVar_touches ht h1).trans (countReg_touches h2)
  have m1 := m0.trans (.loop (fun v _ t u ht hv => step .read v t u (ht.trans hf0) hv) h1)
  have hf1 := m1.functionEq.trans hf
  have m2 := m1.trans (.loop (fun v _ t u ht hv => step .write v t u (ht.trans hf1) hv) h2)
  have m3 := m2.trans (.loop (fun v _ t u _ hv => noteCall_touches hv) h3)
  refine m3.congr (by simp) fun v hv => .inr ?_
  have := @m2.active v
  grind

end

end Build

namespace ItemKind

/-- The variables whose lives are extended to an item. -/
def touched (args : List VarId) : ItemKind → List VarId
  | instruction i => i.operands.flatMap Operand.vars
  | function _ => args
  | ret r => r.operands.filterMap Operand.var?
  | call c => (c.args ++ [c.target]).flatMap Operand.registerVars ++ c.returns
  | hint h => [h.var]
  | _ => []

/-- How far the item advances the numbering. -/
def width : ItemKind → Nat
  | hint _ | align _ | comment _ | data _ => 0
  | _ => 1

/-- The variables that an instruction needs in fixed registers are general purpose ones. -/
def Suits (s : Session) (kind : ItemKind) : Prop := ∀ i k ref n x, kind = .instruction i →
  i.operands[k]? = some (.var ref) → (i.opcode.constraint k i.operands.length).fixed = some n →
  s.vars.get? ref.id = some x → x.cls = .gp

/-- What the first walk makes of an item. -/
def PreparedAs : ItemKind → ItemKind → Prop
  | instruction i, k => ∃ records memVars, Bound i records memVars ∧
      k = .instruction { i with records, memVars }
  | jump j, k => ∃ taken, k = .jump { j with taken }
  | k, k' => k' = k

end ItemKind

/-- What one step of the first walk does. -/
structure Session.Prepares (f : FunctionId) (args : List VarId) (id : ItemId) (kind : ItemKind)
    (s s' : Session) : Prop where
  items : ∃ kind', kind.PreparedAs kind' ∧ s'.items = s.items.modify id fun x =>
    { x with kind := kind', offset := some s.ctx.currentOffset }
  ctx : s'.ctx = { s.ctx with
    currentOffset := s.ctx.currentOffset + kind.width
    slots := s'.ctx.slots, isCaller := s'.ctx.isCaller, callStackSize := s'.ctx.callStackSize }
  rest : s' = { s with items := s'.items, vars := s'.vars, ctx := s'.ctx }
  calls : s.ctx.CallSpace → s'.ctx.CallSpace
  size : s'.vars.size = s.vars.size
  fits : kind.Suits s
  owned : ∀ v ∈ kind.touched args, s.Owns f v
  active : ∀ {v}, v ∈ s'.vars.active ↔ v ∈ s.vars.active ∨ v ∈ kind.touched args
  others : ∀ {v}, v ∉ kind.touched args → v ∉ s.vars.active → s'.vars.get? v = s.vars.get? v
  vars : ∀ {v x}, s.vars.get? v = some x → ∃ x', s'.vars.get? v = some x' ∧
    x'.given = x.given ∧ (∀ {p}, x.arrival = some p → x'.arrival = some p) ∧
    (v ∈ kind.touched args → x'.firstItem = (x.firstItem.orElse fun _ => some id) ∧ x'.lastItem = some id) ∧
    (v ∉ kind.touched args → x'.firstItem = x.firstItem ∧
      (x'.lastItem = x.lastItem ∨ x.lastItem ≠ none ∧ x'.lastItem = some id)) ∧
    (∀ j target t, kind = .jump j → s.labels[j.target.index]? = some target →
      s'.items.offset? target = some t → v ∈ s.vars.active → Spans s'.items x t →
      x'.lastItem = some id)
  run : ∃ c, Run Effect.acquires (s.holdings f) c (s'.holdings f)

namespace ItemSeq
variable {s : ItemSeq} {id : ItemId}

theorem modify_eq_self (h : ∀ item, s.get? id = some item → g item = item) : s.modify id g = s := by
  suffices s.items.modify id.index g = s.items by
    unfold modify
    rw [this]
  apply Array.ext_getElem?
  intro i
  rw [Array.getElem?_modify]
  by_cases hi : id.index = i
  · subst hi
    rw [if_pos rfl]
    cases hx : s.items[id.index]? with
    | none => rfl
    | some item => exact congrArg some (h item hx)
  · rw [if_neg hi]

theorem offset?_modify_kind (x : ItemId) : (s.modify id ({ · with kind })).offset? x = s.offset? x := by
  unfold offset?
  by_cases hx : x = id
  · rw [hx, get?_modify_self, Option.bind_map]
    rfl
  · rw [get?_modify_of_ne _ (Ne.symm hx)]

theorem modify_modify : (s.modify id g).modify id g' = s.modify id (g' ∘ g) := by
  unfold modify
  congr 1
  apply Array.ext_getElem?
  intro i
  simp only [Array.getElem?_modify]
  by_cases hi : id.index = i
  · simp [hi]
  · simp [hi]

end ItemSeq

namespace Build
variable {args : List VarId} {id : ItemId} {item : Item}

/-- The session in which an item has its number. -/
private def numbered (s : Session) (id : ItemId) : Session :=
  { s with items := s.items.modify id ({ · with offset := some s.ctx.currentOffset }) }

private theorem prepares_of_touches (hk : kind.PreparedAs kind')
    (hj : ∀ j, kind ≠ .jump j) (hfits : kind.Suits s) (ht : (numbered s id).Touches f id (kind.touched args) [] t)
    (hitems : s'.items = t.items.modify id ({ · with kind := kind' }))
    (hs' : s' = { t with
      items := s'.items
      ctx := { t.ctx with currentOffset := t.ctx.currentOffset + kind.width } }) :
    s.Prepares f args id kind s' := by
  have hctx : s'.ctx = { t.ctx with currentOffset := t.ctx.currentOffset + kind.width } := by rw [hs']
  have hvars : s'.vars = t.vars := by rw [hs']
  refine ⟨⟨kind', hk, ?_⟩, ?_, ?_, fun hc => ?_, ?_, hfits, ht.owned, ?_, fun hv ha => ?_, ?_, ?_⟩
  · rw [hitems, ht.items]
    exact modify_modify
  · rw [hctx, ht.ctx]
    rfl
  · rw [hs', ht.rest]
    rfl
  · rw [hctx]
    exact ht.calls hc
  · rw [hvars]
    exact ht.size
  · rw [hvars]
    exact ht.active
  · rw [hvars]
    exact ht.others hv not_mem_nil ha
  · intro v x hx
    rw [hvars]
    obtain ⟨x', hx', he⟩ := ht.vars hx
    refine ⟨x', hx', he.given, he.arrival, he.hit, fun hv => ?_, fun j target t hj' => absurd hj' (hj j)⟩
    exact ⟨(he.miss hv).1, .inl (he.miss hv).2⟩
  · obtain ⟨c, hr⟩ := ht.run
    refine ⟨c, ?_⟩
    have : s'.holdings f = t.holdings f := by
      unfold holdings
      rw [hvars, hctx]
    rw [this]
    exact hr

private theorem prepareJump_prepares (h : prepareJump id j (numbered s id) = .ok () t)
    (hs' : s' = { t with ctx := { t.ctx with currentOffset := t.ctx.currentOffset + 1 } }) :
    s.Prepares f args id (.jump j) s' := by
  simp only [prepareJump, bind_ok, labelTarget_ok, setKind_ok] at h
  obtain ⟨target, _, ⟨htarget, rfl⟩, _, _, ⟨⟩, _, _, ⟨-, rfl⟩, h⟩ := h
  obtain ⟨⟨vars, rfl, hact, hsize, hother⟩, hvars⟩ := extendSpanning_ok h
  subst hs'
  refine ⟨⟨_, ⟨_, rfl⟩, modify_modify⟩, rfl, rfl, fun h => h, hsize, by simp [Suits], by simp [touched], ?_,
    fun _ => hother _, ?_, ?_⟩
  · simp [touched, hact, numbered]
  · intro v x hx
    obtain ⟨x', hx', st⟩ := hvars hx
    refine ⟨x', hx', st.given, st.arrival.trans, by simp [touched], fun _ => ⟨st.first, st.last⟩, ?_⟩
    rintro j' target' o hj hl ho hv hs
    cases hj
    cases htarget ▸ hl
    exact st.must ⟨o, offset?_modify_kind target ▸ ho, hv, hs⟩
  · refine ⟨[], ?_⟩
    have : ({ numbered s id with vars } : Session).holdings f = s.holdings f := by
      unfold holdings
      congr 1
      funext v
      cases hx : s.vars.get? v with
      | none =>
        have hlt : s.vars.vars.size ≤ v.index := Array.getElem?_eq_none_iff.mp hx
        have : vars.get? v = none := Array.getElem?_eq_none_iff.mpr (by
          have : vars.vars.size = s.vars.vars.size := hsize
          omega)
        simp [this]
      | some x =>
        obtain ⟨x', hx', st⟩ := hvars hx
        by_cases hxf : x.function = f
        · simp [hx', Option.filter, (Variable.function_of_given st.given), hxf, st.core]
        · simp [hx', Option.filter, (Variable.function_of_given st.given), hxf]
    exact this ▸ .refl _

/-- One step of the first walk. -/
theorem prepareItem_prepares (hf : s.ctx.function = some f) (hi : s.items.get? id = some item)
    (hargs : ∀ g, item.kind = .function g → ∃ r, s.functions[g.index]? = some r ∧ r.args = args)
    (h : prepareItem id s = .ok () s') : s.Prepares f args id item.kind s' := by
  simp only [prepareItem, bind_ok, modifyItem_ok, getItem_ok] at h
  obtain ⟨_, _, ⟨⟩, _, _, ⟨-, rfl⟩, item', _, ⟨hi', rfl⟩, h⟩ := h
  rw [ItemSeq.get?_modify_self, hi] at hi'
  cases hi'
  obtain ⟨kind, offset, translated, unreachable⟩ := item
  -- most items stay what they are
  have hkeep : ∀ {t : Session}, (∀ j, kind ≠ .jump j) → (∀ i, kind ≠ .instruction i) →
      (numbered s id).Touches f id (kind.touched args) [] t →
      { t with ctx := { t.ctx with currentOffset := t.ctx.currentOffset + kind.width } } = s' →
      s.Prepares f args id kind s' := by
    intro t hj hin ht hs'
    refine prepares_of_touches (?_ : kind.PreparedAs kind) hj (fun i _ _ _ _ hi => absurd hi (hin i)) ht ?_ (by rw [← hs'])
    · cases kind <;> first | exact absurd rfl (hj _) | exact absurd rfl (hin _) | rfl
    rw [← hs', ht.items]
    refine (modify_eq_self fun x hx => ?_).symm
    have hx : (s.items.modify id ({ · with offset := some s.ctx.currentOffset })).get? id = some x := hx
    rw [ItemSeq.get?_modify_self, hi] at hx
    cases hx
    rfl
  have hf' : (numbered s id).ctx.function = some f := hf
  cases kind with
  | instruction i =>
    simp only [bind_ok, modifyContext_ok] at h
    obtain ⟨_, t, h, rfl⟩ := h
    obtain ⟨records, memVars, t, hc, hgp, ht, rfl⟩ := prepareInstruction_ok hf' h
    refine prepares_of_touches ⟨records, memVars, hc, rfl⟩ (by simp) (fun i' k ref n x hi' hk hn hx => ?_) ht rfl rfl
    cases hi'
    obtain ⟨r, hr, hv, hfix⟩ := (hc.binds ref.id n).mpr ⟨k, ref, hk, rfl, hn⟩
    exact hgp r hr n x hfix (hv ▸ hx)
  | jump j =>
    simp only [bind_ok, modifyContext_ok] at h
    obtain ⟨_, t, h, rfl⟩ := h
    exact prepareJump_prepares h rfl
  | function g =>
    simp only [bind_ok, getFunction_ok, modifyContext_ok] at h
    obtain ⟨r, _, ⟨hr, rfl⟩, _, t, h, rfl⟩ := h
    obtain ⟨r', hr', rfl⟩ := hargs g rfl
    cases hr' ▸ hr
    refine hkeep (by simp) (by simp) ?_ rfl
    exact (Session.Touches.loop (fun v _ t u ht hv => touchVar_touches (ht.trans hf') hv) h).congr
      (by simp [ItemKind.touched]) (by simp)
  | ret r =>
    simp only [bind_ok, modifyContext_ok] at h
    obtain ⟨_, t, h, rfl⟩ := h
    exact hkeep (by simp) (by simp) (prepareReturn_touches hf' h) rfl
  | call c =>
    simp only [bind_ok, modifyContext_ok] at h
    obtain ⟨_, t, h, rfl⟩ := h
    exact hkeep (by simp) (by simp) (prepareCall_touches hf' h) rfl
  | hint d => exact hkeep (by simp) (by simp) (touchVar_touches hf' h) rfl
  | target | functionEnd =>
    simp only [modifyContext_ok] at h
    exact hkeep (by simp) (by simp) (.refl _) h
  | align | comment | data =>
    simp only [pure_ok, true_and] at h
    exact hkeep (by simp) (by simp) (.refl _) h

theorem exists_prepares (hf : s.ctx.function = some f) (h : prepareItem id s = .ok () s') :
    ∃ item args, s.items.get? id = some item ∧ s.Prepares f args id item.kind s' := by
  obtain ⟨item, hi, args, hargs⟩ : ∃ item, s.items.get? id = some item ∧ ∃ args, ∀ g, item.kind = .function g →
      ∃ r : FunctionRecord, s.functions[g.index]? = some r ∧ r.args = args := by
    have h' := h
    simp only [prepareItem, bind_ok, modifyItem_ok, getItem_ok] at h'
    obtain ⟨_, _, ⟨⟩, _, _, ⟨⟨item, hi⟩, rfl⟩, item', _, ⟨hi', rfl⟩, h'⟩ := h'
    rw [ItemSeq.get?_modify_self, hi] at hi'
    cases hi'
    refine ⟨item, hi, ?_⟩
    cases hk : item.kind with
    | function g =>
      simp only [hk, bind_ok, getFunction_ok] at h'
      obtain ⟨r, _, ⟨hr, -⟩, -⟩ := h'
      exact ⟨r.args, fun g' hg => by cases hg; exact ⟨r, hr, rfl⟩⟩
    | _ => exact ⟨[], fun g hg => by cases hg⟩
  exact ⟨item, args, hi, prepareItem_prepares hf hi hargs h⟩

end Build

end Codegen
