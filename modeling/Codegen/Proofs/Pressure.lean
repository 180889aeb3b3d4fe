import Codegen.Proofs.Acceptance
import Codegen.Proofs.OperandRegisters
import Mathlib.Data.List.Dedup

/-! Registers do not run out. Where no instruction names more variables than there are registers, one that needs a
register finds it free, or held by a variable that can make room. -/
namespace Codegen
open Builder Build List Option RegMask Session Variable
variable {item : Item} {next : Option ItemId}
variable {s t : Session} {id : VarId} {cls : RegClass} {mask : RegMask} {access : Access}

namespace Session

/-- All registers of a class are held by operands of the current item. -/
def Crammed (s : Session) (cls : RegClass) : Prop :=
  ∀ i, (s.ctx.allocable cls).contains i = true → ∃ y, s.ctx.registers.occupant ⟨cls, i⟩ = some y ∧ s.Claimed y

/-- The variables of the function may be evicted, unless they are operands. -/
def Movable (f : FunctionId) (s : Session) : Prop :=
  ∀ y x, s.vars.get? y = some x → x.function = f → 0 < x.priority

theorem crammed_of_spillCandidate (hc : Coherent (s.holdings f)) (hm : s.Movable f)
    (h : s.spillCandidate cls = none) (hfull : ∀ i, (s.ctx.freeRegs cls).contains i ≠ true) : s.Crammed cls := by
  intro i hi
  cases ho : s.ctx.registers.occupant ⟨cls, i⟩ with
  | none => exact absurd (contains_freeRegs.mpr ⟨hi, ho⟩) (hfull i)
  | some y =>
    obtain ⟨-, w, hw, -⟩ := hc.occupied ho
    obtain ⟨x, hx, hxf, -⟩ := holdings_vars.mp hw
    have hnone := candidateAt_of_spillCandidate h (RegFile.contains_used.mpr ⟨y, ho⟩) hi
    refine ⟨y, rfl, x, hx, ?_⟩
    by_contra hne
    simp [candidateAt, ho, hx, hne, Nat.pos_iff_ne_zero.mp (hm y x hx hxf)] at hnone

theorem not_crammed {v : Variable} {l : List VarId} (hc : Coherent (s.holdings f))
    (hv : (s.holdings f).vars id = some v) (hr : v.currentReg = none) (hid : id ∈ l)
    (hl : ∀ y x, s.Claimed y → (s.holdings f).vars y = some x → x.cls = cls → y ∈ l)
    (hlen : l.length ≤ (s.ctx.allocable cls).count) : ¬ s.Crammed cls := by
  intro h
  let occ := fun i => (s.ctx.registers.occupant ⟨cls, i⟩).getD id
  have hocc : ∀ i ∈ (s.ctx.allocable cls).toList, s.Claimed (occ i) ∧
      ∃ x, (s.holdings f).vars (occ i) = some x ∧ x.currentReg = some ⟨cls, i⟩ := by
    intro i hi
    obtain ⟨y, hy, hcl⟩ := h i (mem_toList.mp hi)
    obtain rfl : occ i = y := by simp only [occ, hy, getD_some]
    exact ⟨hcl, (hc.occupied hy).2⟩
  have hnodup : (id :: (s.ctx.allocable cls).toList.map occ).Nodup := by
    refine nodup_cons.mpr ⟨fun hin => ?_, ?_⟩
    · obtain ⟨i, hi, he⟩ := mem_map.mp hin
      obtain ⟨-, x, hx, hxr⟩ := hocc i hi
      rw [he] at hx
      cases hx ▸ hv
      cases hr ▸ hxr
    refine Nodup.map_on (fun i hi j hj he => ?_) (nodup_range.filter _)
    obtain ⟨-, x, hx, hxr⟩ := hocc i hi
    obtain ⟨-, z, hz, hzr⟩ := hocc j hj
    rw [he] at hx
    cases hx ▸ hz
    cases hxr ▸ hzr
    rfl
  have hsub : id :: (s.ctx.allocable cls).toList.map occ ⊆ l := by
    refine cons_subset.mpr ⟨hid, fun y hy => ?_⟩
    obtain ⟨i, hi, rfl⟩ := mem_map.mp hy
    obtain ⟨hcl, x, hx, hxr⟩ := hocc i hi
    exact hl _ x hcl hx (currentReg_eq_some.mp hxr).2.2
  have hle := (subperm_of_subset hnodup hsub).length_le
  rw [length_cons, length_map] at hle
  exact absurd hlen (not_le.mpr hle)

end Session

namespace Build
variable [Lenient S]

theorem vacateAny_unhinderedAt (hc : Coherent (s.holdings f)) (hm : s.Movable f)
    (hroom : ¬ s.Crammed v.cls) : UnhinderedAt S (vacateAny v preferred) s := by
  refine .bind (Unhindered.get s) fun _ _ h => ?_
  obtain ⟨rfl, rfl⟩ := get_ok.mp h
  dsimp only
  split
  · exact Unhindered.pure _ s
  split
  · exact Unhindered.pure _ s
  rename_i hscan
  split
  · exact Unhindered.pure _ s
  rename_i hzero
  split
  · -- no register is free, as the accumulator is tried last
    rename_i hnone
    refine absurd (crammed_of_spillCandidate hc hm hnone fun i hi => ?_) hroom
    have hscan' : ∀ j, (if v.cls = .gp then (s.ctx.freeRegs v.cls).erase Gp.rax else s.ctx.freeRegs v.cls).contains j ≠
        true := fun j hj => by
      obtain ⟨k, hk⟩ := exists_firstPreferred? hj
      cases hk ▸ hscan
    by_cases h0 : i = 0
    · exact hzero (h0 ▸ hi)
    refine hscan' i ?_
    split
    · rwa [contains_erase_of_ne _ (fun h => h0 h.symm)]
    · exact hi
  · refine .bind (Unhindered.getVar s) fun w t _ => ?_
    split
    · exact Unhindered.usage Lenient.other t
    · exact Unhindered.bind spillVar_plain.unhindered (fun _ => .pure _) t

theorem allocVar_unhinderedAt (hc : Coherent (s.holdings f)) (hm : s.Movable f)
    (hroom : mask.isEmpty = true → ∀ v, s.vars.get? id = some v → v.currentReg = none → ¬ s.Crammed v.cls) :
    UnhinderedAt S (allocVar id mask access) s := by
  cases hmask : mask.isEmpty with
  | false =>
    have hp : Ordinary (.drop fun _ => True) (allocVar id mask access) := allocVar_plain (.inl hmask)
    exact hp.unhindered s
  | true =>
    refine .bind (Unhindered.getVar s) fun v t hv => .bind (Unhindered.get t) fun _ _ h => ?_
    obtain ⟨hx, rfl⟩ := getVar_ok.mp hv
    obtain ⟨rfl, rfl⟩ := get_ok.mp h
    simp only [hmask, Bool.not_true, Bool.false_eq_true, if_false]
    by_cases hal : (s.ctx.allocable v.cls).isEmpty = true
    · rw [if_pos hal]
      exact .bind (Unhindered.usage Lenient.other s) fun _ _ h => (usage_ok.mp h).elim
    rw [if_neg hal]
    cases hr : v.currentReg with
    | some r =>
      refine (Plain.unhindered ?_ : Unhindered S _) s
      dsimp only
      split
      · split
        · exact .bind (.pure _) fun _ => .bind exchangeVar_plain fun _ => noteAccess_plain
        · refine .bind (firstUsed_plain fun h => ?_) fun _ => .bind exchangeVar_plain fun _ => noteAccess_plain
          exact absurd h (first?_inter_of_diff (Bool.eq_false_iff.mpr hal) ‹_›)
      · exact noteAccess_plain
    | none =>
      refine .bind (vacateAny_unhinderedAt hc hm (hroom hmask v hx hr)) fun index t _ =>
        (Plain.unhindered ?_ : Unhindered S _) t
      exact .when emitLoad_plain (.bind (.modifyVar (fun _ => ⟨rfl, rfl⟩) fun _ => .inr fun _ => by simp) fun _ =>
        .bind (settleIn_plain trivial) fun _ => .bind .mark fun _ => .bind .stats fun _ => noteAccess_plain)

end Build

/-- The variables of a class that an instruction names. -/
def InstructionItem.named (i : InstructionItem) (s : Session) (cls : RegClass) : List VarId :=
  ((i.operands.flatMap Operand.vars).filter fun v => (s.vars.get? v).any (·.cls = cls)).dedup

theorem InstructionItem.mem_named {i : InstructionItem} : id ∈ i.named s cls ↔
    id ∈ i.operands.flatMap Operand.vars ∧ ∃ x, s.vars.get? id = some x ∧ x.cls = cls := by
  simp [named, mem_dedup, Option.any_eq_true]

namespace Session

theorem Movable.kept (h : s.Movable f) (hk : s.vars.Kept t.vars) : t.Movable f := by
  intro y x hx hxf
  obtain ⟨z, hz, he⟩ := hk.get? hx
  have hp : z.priority = x.priority := congrArg (·.2.2.2) he
  rw [← hp]
  exact h y z hz ((function_eq he).trans hxf)

theorem MarksOnly.mono (h : s.MarksOnly C t) (hC : ∀ y, C y → C' y) : s.MarksOnly C' t :=
  fun y hy => h y fun hc => hy (hC y hc)

end Session

namespace Build
variable [Lenient S] {i : InstructionItem} {r : AllocRecord}

/-- On the way from one session to another, operands of the instruction are brought into registers. -/
structure Brings (f : FunctionId) (i : InstructionItem) (s t : Session) : Prop where
  moves : s.Moves f (fun _ => True) t
  marks : s.MarksOnly (fun y => ∃ r ∈ i.records, r.var = y) t

namespace Brings

theorem of_plain (h : Brings f i s t) (hp : Ordinary D m)
    (hD : ∀ y, D.claims y → ∃ r ∈ i.records, r.var = y) (hm : t.Moves f (fun _ => True) u) (hr : m t = .ok () u) :
    Brings f i s u :=
  ⟨h.moves.trans hm, trans_of _ h.marks ((hp.undergoes _ _ _ hr).works.mono hD)⟩

theorem alloc (h : Brings f i s t) (hc : Coherent (s.holdings f)) (ho : s.Owns f r.var)
    (hr : allocVar r.var mask access t = .ok () u) : Brings f i s u := by
  obtain ⟨v, hv⟩ := h.moves.owns ho
  obtain ⟨hm, -⟩ := allocVar_moves (h.moves.coherent hc) hv hr
  exact h.of_plain (D := .keep) (allocVar_plain (.inr trivial)) (fun _ h => h.elim) (hm.mono fun _ _ => trivial) hr

/-- An operand finds a register: there are not more operands than registers, and no other variable must stay. -/
theorem room (h : Brings f i s t) (hc : Coherent (s.holdings f)) (hi : i.Arranged f s) (hm : s.Movable f)
    (hn : ∀ y, s.Claimed y → ¬ s.Owns f y) (hlen : ∀ cls, (i.named s cls).length ≤ (s.ctx.allocable cls).count)
    (hr : r ∈ i.records) : UnhinderedAt S (allocVar r.var mask r.access) t := by
  have hmem : ∀ {q}, q ∈ i.records → q.var ∈ i.operands.flatMap Operand.vars := fun hq =>
    (hi.collected.named _).mp (.inl (mem_map_of_mem hq))
  refine allocVar_unhinderedAt (h.moves.coherent hc) (hm.kept h.moves.vars) fun _ v hv hreg => ?_
  obtain ⟨w, hw⟩ := h.moves.owns (hi.owned _ (hmem hr))
  obtain ⟨x, hx, -, rfl⟩ := holdings_vars.mp hw
  cases hv ▸ hx
  have hnamed : ∀ {q z}, q ∈ i.records → t.vars.get? q.var = some z → z.cls = v.cls → q.var ∈ i.named s v.cls := by
    intro q z hq hz hcls
    obtain ⟨y, hy, he⟩ := h.moves.vars.get? hz
    exact InstructionItem.mem_named.mpr ⟨hmem hq, y, hy, (congrArg (·.1.2.2.1) he :).trans hcls⟩
  refine not_crammed (h.moves.coherent hc) hw hreg (hnamed hr hv rfl) (fun y z hcl hz hcls => ?_) ?_
  · obtain ⟨z', hz', hzf, rfl⟩ := holdings_vars.mp hz
    by_contra hy
    -- a marked variable that is no operand was marked before
    have hnot : ¬ ∃ q ∈ i.records, q.var = y := by
      rintro ⟨q, hq, rfl⟩
      exact hy (hnamed hq hz' hcls)
    obtain ⟨a, ha, hw⟩ := hcl
    have hmap := h.marks y hnot
    rw [ha, map_some] at hmap
    obtain ⟨b, hb, he⟩ := map_eq_some_iff.mp hmap.symm
    have hoff : t.ctx.currentOffset = s.ctx.currentOffset := by rw [h.moves.ctx]
    refine hn y ⟨b, hb, by rw [he, hw, hoff]⟩ ?_
    obtain ⟨c, hc', he'⟩ := h.moves.vars.get? hz'
    exact ⟨_, holdings_vars_of_get? hc' ((function_eq he').trans hzf)⟩
  · have hal : t.ctx.allocable = s.ctx.allocable := by rw [h.moves.ctx]; rfl
    rw [hal]
    exact hlen _

end Brings

/-- The operands of an instruction find registers. -/
theorem allocRecords_unhinderedAt (hc : Coherent (s.holdings f)) (hi : i.Arranged f s) (hm : s.Movable f)
    (hn : ∀ y, s.Claimed y → ¬ s.Owns f y) (hlen : ∀ cls, (i.named s cls).length ≤ (s.ctx.allocable cls).count) :
    UnhinderedAt S (allocRecords i.records) s := by
  have hown : ∀ r ∈ i.records, s.Owns f r.var := fun r hr => ⟨_, (hi.records hr).choose_spec.1⟩
  have loop : ∀ {g : AllocRecord → Build Unit}, (∀ r ∈ i.records, ∀ t, Brings f i s t →
      UnhinderedAt S (g r) t ∧ ∀ u, g r t = .ok () u → Brings f i s u) → ∀ t, Brings f i s t →
      UnhinderedAt S (i.records.forM g) t ∧ ∀ u, i.records.forM g t = .ok () u → Brings f i s u := by
    intro g hg t ht
    refine ⟨.forM ht fun P r R u hl hu => hg r (by simp [hl]) u hu, fun u hu => ?_⟩
    have h := forM_induct (P := fun rest u => rest ⊆ i.records ∧ Brings f i s u) ?_ hu ⟨fun _ h => h, ht⟩
    · exact h.2
    rintro r rest a b ⟨hsub, ha⟩ hr
    obtain ⟨hmem, hsub⟩ := cons_subset.mp hsub
    exact ⟨hsub, (hg r hmem a ha).2 b hr⟩
  have claims := loop fun r hr t ht => by
    have hp : Ordinary ⟨fun _ => True, fun y => y = r.var, False⟩ (claimVar r.var) := claimVar_plain rfl
    refine ⟨hp.unhindered_of False.elim t, fun u hu => ht.of_plain hp (fun y hy => ⟨r, hr, hy.symm⟩) ?_ hu⟩
    exact claimVar_moves (ht.moves.owns (hown r hr)) hu
  have reserves := loop (g := reserve) fun r _ t ht =>
    ⟨Plain.unhindered reserve_plain t, fun u hu =>
      ht.of_plain (D := .keep) reserve_plain (fun _ h => h.elim) (reserve_moves hu) hu⟩
  have places : ∀ (g : AllocRecord → Option RegMask) t, Brings f i s t → UnhinderedAt S (i.records.forM (allocIf g)) t ∧
      ∀ u, i.records.forM (allocIf g) t = .ok () u → Brings f i s u := fun g => loop fun r hr t ht => by
    cases hg : g r with
    | some m =>
      simp only [allocIf, hg]
      exact ⟨ht.room hc hi hm hn hlen hr, fun u hu => ht.alloc hc (hown r hr) hu⟩
    | none =>
      simp only [allocIf, hg]
      refine ⟨Unhindered.pure _ t, fun u hu => ?_⟩
      cases hu
      exact ht
  rw [allocRecords_eq]
  obtain ⟨u1, k1⟩ := claims s ⟨.refl s, refl_of _ s⟩
  refine .bind u1 fun _ t1 h1 => .bind (reserves t1 (k1 t1 h1)).1 fun _ t2 h2 => ?_
  have b2 := (reserves t1 (k1 t1 h1)).2 t2 h2
  refine .bind (places _ t2 b2).1 fun _ t3 h3 => .bind (Unhindered.modifyContext t3) fun _ t4 h4 => ?_
  cases h4
  have b3 := (places _ t2 b2).2 t3 h3
  refine (places _ { t3 with ctx := { t3.ctx with reserved := .all .empty } } ⟨b3.moves.trans ?_, b3.marks⟩).1
  exact .quiet (.of_vars ⟨rfl, rfl, .refl _⟩ rfl id) rfl rfl

theorem applyDirective_unhinderedAt {d : HintItem} (hc : Coherent (s.holdings f)) (ho : s.Owns f d.var)
    (hm : s.Movable f) (hn : ∀ y, s.Claimed y → ¬ s.Owns f y) : UnhinderedAt S (applyDirective d) s := by
  refine .bind (Unhindered.getVar s) fun v t hv => ?_
  obtain ⟨hx, rfl⟩ := getVar_ok.mp hv
  dsimp only
  split
  · refine allocVar_unhinderedAt hc hm fun _ x hx hr => ?_
    obtain ⟨w, hw⟩ := ho
    obtain ⟨x', hx', -, rfl⟩ := holdings_vars.mp hw
    cases hx ▸ hx'
    refine not_crammed hc hw hr (mem_singleton_self _) (fun y z hcl hz _ => (hn y hcl ⟨z, hz⟩).elim) ?_
    rw [length_singleton]
    unfold Context.allocable
    cases x.cls <;> cases s.ctx.allocableRbp <;> decide
  · refine Plain.unhindered ?_ s
    split
    · exact spillVar_plain
    · exact .pure _
  · refine Plain.unhindered ?_ s
    split
    · exact saveVar_plain
    · exact .pure _
  · refine Plain.unhindered (.when saveVar_plain ?_) s
    split
    · exact unuseVar_plain (by simp)
    · exact .pure _
  · exact Plain.unhindered (unuseVar_plain fun _ => trivial) s

end Build

namespace Session

/-- Variables are marked as they were, or with the number `o`. -/
def MarksWith (o : Nat) (s s' : Session) : Prop :=
  ∀ y z n, s'.vars.get? y = some z → z.workOffset = some n →
    n = o ∨ ∃ z₀, s.vars.get? y = some z₀ ∧ z₀.workOffset = some n

instance : IsPreorder Session (MarksWith o) where
  refl _ _ _ _ hz hn := .inr ⟨_, hz, hn⟩
  trans _ _ _ h h' y z n hz hn := by
    rcases h' y z n hz hn with he | ⟨z₁, hz₁, hn₁⟩
    · exact .inl he
    · exact h y z₁ n hz₁ hn₁

theorem MarksWith.of_vars (h : t.vars = s.vars) : s.MarksWith o t := fun _ z _ hz hn => .inr ⟨z, h ▸ hz, hn⟩

theorem MarksOnly.with (h : s.MarksOnly C t) (hC : ∀ y, ¬ C y) : s.MarksWith o t := by
  intro y z n hz hn
  have hmap := h y (hC y)
  rw [hz, map_some] at hmap
  obtain ⟨z0, hz0, he⟩ := map_eq_some_iff.mp hmap.symm
  exact .inr ⟨z0, hz0, he.trans hn⟩

end Session

namespace Build

theorem Plain.with (h : Plain D E A m)
    (hD : ∀ y, ¬ D.claims y) : Ensures (MarksWith o) m := fun s a s' hm => (h.undergoes s a s' hm).works.with hD

theorem doJump_marks (h : doJump x u = .ok () u') : u.MarksWith o u' := by
  obtain ⟨j, target, st, v, -, -, -, hr, hcase⟩ := doJump_ok h
  have hv : u.MarksWith o v := by
    have hm := (restoreState_plain (D := .drop fun _ => True) fun _ => trivial).with (o := o) (fun _ h => h) _ _ _ hr
    exact trans_of (MarksWith o) (.of_vars (by unfold reconciling; split <;> rfl)) hm
  rcases hcase with ⟨-, rfl⟩ | ⟨-, extra, own, -, -, ha⟩
  · exact hv
  have hm := (assignState_plain (D := .drop fun _ => True) fun _ => trivial).with (o := o) (fun _ h => h) _ _ _ ha
  refine trans_of (MarksWith o) hv (trans_of (MarksWith o) (.of_vars ?_) hm)
  unfold detour
  split <;> rfl

theorem claims_marks {records : List AllocRecord} (h : records.forM (fun r => claimVar r.var) s = .ok () s') :
    s.MarksWith s.ctx.currentOffset s' := by
  have h' := forM_induct (P := fun _ t => s.MarksWith s.ctx.currentOffset t ∧ t.ctx.currentOffset = s.ctx.currentOffset)
    ?_ h ⟨refl_of _ s, rfl⟩
  · exact h'.1
  rintro r rest t t' ⟨hm, ho⟩ hr
  simp only [claimVar, bind_ok, modifyVar_ok] at hr
  obtain ⟨_, _, ⟨⟩, -, rfl⟩ := hr
  refine ⟨fun y z n hz hn => ?_, ho⟩
  by_cases hy : r.var = y
  · subst hy
    rw [VarTable.get?_modify_self, map_eq_some_iff] at hz
    obtain ⟨z0, -, rfl⟩ := hz
    exact .inl (some.inj hn ▸ ho)
  · rw [VarTable.get?_modify_of_ne _ hy] at hz
    exact hm y z n hz hn

theorem allocIf_plain : Ordinary .keep (allocIf g r) := by
  unfold allocIf
  split
  · exact allocVar_plain (.inr trivial)
  · exact .pure _

/-- Translating an item marks variables with its number only, and only if it is an instruction or a call. -/
theorem translateKind_marks (hk : ∀ c, item.kind ≠ .call c) (h : translateKind x item s = .ok next s') :
    s.MarksWith s.ctx.currentOffset s' ∧ ((∀ i, item.kind ≠ .instruction i) → ∀ o, s.MarksWith o s') := by
  have drop : ∀ {β : Type} {m : Build β} {a : β} {u u' : Session}, Ordinary (.drop fun _ => True) m → m u = .ok a u' →
      ∀ o, u.MarksWith o u' := fun hp hm o => hp.with (fun _ h => h) _ _ _ hm
  have other : (∀ o, s.MarksWith o s') → s.MarksWith s.ctx.currentOffset s' ∧
      ((∀ i, item.kind ≠ .instruction i) → ∀ o, s.MarksWith o s') := fun h => ⟨h _, fun _ => h⟩
  cases hkind : item.kind with
  | instruction i =>
    refine ⟨?_, fun hn => absurd rfl (hn i)⟩
    simp only [translateKind, hkind, translateInstruction, bind_ok, setKind_ok] at h
    obtain ⟨_, t1, h1, _, t2, h2, operands, t3, h3, _, _, ⟨-, rfl⟩, _, t4, h4, _, t5, h5, _, _, ⟨⟩, ⟨⟩⟩ := h
    have hkeep : ∀ {m : Build Unit} {u u' : Session}, Ordinary .keep m → m u = .ok () u' →
        u.MarksWith s.ctx.currentOffset u' := fun hp hm => hp.with (fun _ h => h) _ _ _ hm
    obtain ⟨a1, a2, a3, c1, c2, c3, c4⟩ := allocRecords_ok h1
    have b1 : s.MarksWith s.ctx.currentOffset a3 := trans_of _ (claims_marks c1)
      (trans_of _ (hkeep (.forM fun _ => reserve_plain) c2) (hkeep (.forM fun _ => allocIf_plain) c3))
    have b4 := hkeep (.forM fun _ => allocIf_plain) c4
    have b2 : s.MarksWith s.ctx.currentOffset t1 := trans_of _ b1 b4
    have b3 := trans_of _ b2 (trans_of _ (drop (.forM fun _ => moveHome_plain) h2 _)
      (drop (.mapM fun _ => resolveOperand_plain) h3 _))
    exact trans_of _ b3 (trans_of _ (drop (.forM fun _ => retireAt_plain trivial) h4 _)
      (drop (.forM fun _ => retireAt_plain trivial) h5 _))
  | call c => exact absurd hkind (hk c)
  | jump j =>
    refine hkind ▸ other fun o => ?_
    simp only [translateKind, hkind] at h
    obtain ⟨target, titem, -, -, -, ⟨-, -, -, rfl⟩ | ⟨f, w, -, hw, hret, -⟩⟩ := translateJump_ok h
    · exact .of_vars rfl
    have hend := drop (retireActiveAt_plain fun _ => trivial) hret o
    have hw : s.MarksWith o w := by
      rcases hw with ⟨-, hd⟩ | ⟨-, -, rfl⟩
      · exact trans_of (MarksWith o) (.of_vars rfl) (doJump_marks hd)
      refine .of_vars ?_
      unfold queueing
      split
      · split <;> rfl
      · rfl
    exact trans_of (MarksWith o) hw (trans_of (MarksWith o) (.of_vars rfl) hend)
  | target r =>
    refine hkind ▸ other fun o => ?_
    simp only [translateKind, hkind] at h
    rcases translateTarget_ok h with ⟨-, -, st, -, hr⟩ | ⟨-, -, -, hr⟩ | ⟨-, -, -, st, -, ha⟩ |
      ⟨-, -, -, f, item', r', -, -, -, rfl⟩
    · exact drop (restoreState_plain fun _ => trivial) hr o
    · obtain ⟨items, stats, rfl, -⟩ := removeUntilTarget_rest hr
      exact .of_vars rfl
    · exact trans_of (MarksWith o) (.of_vars rfl) (drop (assignState_plain fun _ => trivial) ha o)
    · exact .of_vars rfl
  | function f =>
    refine hkind ▸ other fun o => ?_
    simp only [translateKind, hkind, translateFunction, getFunction, bind_ok, lift_ok] at h
    obtain ⟨record, _, ⟨_, _, ⟨⟩, -, rfl⟩, _, t1, h1, _, t2, h2, _, _, ⟨⟩, ⟨⟩⟩ := h
    exact trans_of (MarksWith o) (drop (.forM fun _ => receiveArg_plain) h1 o)
      (drop (.forM fun _ => retireAt_plain trivial) h2 o)
  | ret r =>
    refine hkind ▸ other fun o => ?_
    simp only [translateKind, hkind] at h
    obtain ⟨_, t, _, _, -, hvals, -, -, hend⟩ := translateReturn_ok h
    obtain ⟨hret, -⟩ := hend _ rfl
    exact trans_of (MarksWith o) (drop emitReturnValues_plain hvals o)
      (trans_of (MarksWith o) (.of_vars rfl) (drop (retireActiveAt_plain fun _ => trivial) hret o))
  | hint d =>
    refine hkind ▸ other fun o => ?_
    simp only [translateKind, hkind, translateHint, bind_ok] at h
    obtain ⟨_, t1, h1, _, t2, h2, _, _, ⟨⟩, ⟨⟩⟩ := h
    have hp : Ordinary ⟨fun _ => True, fun _ => False, True⟩ (applyDirective d) :=
      applyDirective_plain (fun _ => trivial) trivial
    exact trans_of (MarksWith o) (hp.with (fun _ h => h) _ _ _ h1) (drop (retireAt_plain trivial) h2 o)
  | functionEnd f =>
    refine hkind ▸ other fun o => ?_
    simp only [translateKind, hkind, pure_ok] at h
    obtain ⟨-, rfl⟩ := h
    exact refl_of _ _
  | align | comment | data =>
    refine hkind ▸ other fun o => ?_
    simp only [translateKind, hkind, bind_ok] at h
    obtain ⟨_, _, ⟨⟩, ⟨⟩⟩ := h
    exact refl_of _ _

end Build

namespace Session
variable {record : FunctionRecord} {stop y : ItemId} {body : List ItemId}

theorem idxOf_lt (hn : (A ++ x :: B).Nodup) (hy : y ∈ B) : (A ++ x :: B).idxOf x < (A ++ x :: B).idxOf y := by
  obtain ⟨-, hxB, hd⟩ := nodup_append.mp hn
  have hxA : x ∉ A := fun h => hd x h x mem_cons_self rfl
  have hyA : y ∉ A := fun h => hd y h y (mem_cons_of_mem _ hy) rfl
  have hne : x ≠ y := by
    rintro rfl
    exact (nodup_cons.mp hxB).1 hy
  rw [idxOf_append_of_notMem hxA, idxOf_append_of_notMem hyA, idxOf_cons_self, idxOf_cons_ne _ hne]
  omega

theorem InTurn.done_of_done (h : t.InTurn start stop body next u)
    (hL : start :: (body ++ [stop]) = A ++ x :: (M ++ y :: C)) (hs : ∀ z ∈ M ++ [y], (t.roleAt z).stays = false)
    (hd : u.Done y) : u.Done x := by
  induction M generalizing A x with
  | nil => exact h.done ⟨A, C, by simp [hL]⟩ (hs y (by simp)) hd
  | cons z M ih =>
    have hz : u.Done z := ih (A := A ++ [x]) (by simp [hL]) fun w hw => hs w (mem_cons_of_mem _ hw)
    exact h.done ⟨A, M ++ y :: C, by simp [hL]⟩ (hs z (by simp)) hz

namespace Ready

/-- No two instructions have one number, and an instruction that has the number of an item in front of it is translated
after that. -/
theorem number_ne (h : s.Ready f record stop body) (hp : prepareFunction f record stop p s = .ok () t)
    (hturn : t.activated.InTurn record.item stop body next u) (hx : x ∈ body) (hy : y ∈ body)
    (hi : s.items.get? y = some { kind := .instruction i }) (hd : u.Done y) (hn : ¬ u.Done x) :
    t.offset y ≠ t.offset x := by
  intro heq
  have hw := h.walked hp
  have hin : ∀ {z}, z ∈ body → z ∈ record.item :: (body ++ [stop]) := fun hz =>
    mem_cons_of_mem _ (mem_append_left _ hz)
  have hnodup : (record.item :: (body ++ [stop])).Nodup := h.nodup_items
  obtain ⟨A, B, hL⟩ := append_of_mem (hin hx)
  have hyL := hin hy
  rw [hL, mem_append, mem_cons] at hyL
  rcases hyL with hyA | rfl | hyB
  · obtain ⟨A₁, A₂, rfl⟩ := append_of_mem hyA
    have hlt : (record.item :: (body ++ [stop])).idxOf y < (record.item :: (body ++ [stop])).idxOf x := by
      have hL' : record.item :: (body ++ [stop]) = A₁ ++ y :: (A₂ ++ x :: B) := by simp [hL]
      rw [hL'] at hnodup ⊢
      exact idxOf_lt hnodup (by simp)
    have := hw.spaced (hin hy) (hin hx) hlt hi
    simp only [ItemKind.width] at this
    omega
  · exact hn hd
  · obtain ⟨M, C, rfl⟩ := append_of_mem hyB
    refine hn (hturn.done_of_done hL (fun z hz => ?_) hd)
    have hzL : z ∈ record.item :: (body ++ [stop]) := by
      rcases mem_append.mp hz with hz | hz <;> simp_all
    obtain ⟨kind, hk, -⟩ := h.get? hzL
    obtain ⟨kind', _, hprep, hit, -⟩ := hw.done hzL hk
    rw [show t.activated.roleAt z = kind'.role from roleAt_of_get? hit, hprep.role_eq]
    rcases mem_append.mp hz with hz | hz
    · -- its number lies between equal ones, so it counts for nothing
      obtain ⟨M₁, M₂, rfl⟩ := append_of_mem hz
      have hL' : record.item :: (body ++ [stop]) = (A ++ x :: M₁) ++ z :: (M₂ ++ y :: C) := by simp [hL]
      have h1 : (record.item :: (body ++ [stop])).idxOf x < (record.item :: (body ++ [stop])).idxOf z := by
        rw [hL] at hnodup ⊢
        exact idxOf_lt hnodup (by simp)
      have h2 : (record.item :: (body ++ [stop])).idxOf z < (record.item :: (body ++ [stop])).idxOf y := by
        rw [hL'] at hnodup ⊢
        exact idxOf_lt hnodup (by simp)
      obtain ⟨kx, hkx, -⟩ := h.get? (hin hx)
      have hxz := hw.spaced (hin hx) hzL h1 hkx
      have hzy := hw.spaced hzL (hin hy) h2 hk
      have hzero : kind.width = 0 := by
        dsimp only at hzy
        omega
      cases kind <;> first | rfl | cases hzero
    · cases mem_singleton.mp hz
      cases hk ▸ hi
      rfl

/-- An item that is translated now is as the first walk left it. -/
theorem waiting (h : s.Ready f record stop body) (hj : s.Closed body) (hp : prepareFunction f record stop p s = .ok () t)
    (hv : t.Visits record.item ⟨.walk (some x), u⟩) (hi : u.items.get? x = some item)
    (hd : item.translated = true → item.kind.isTarget = true) (hs : item.kind.role.stays = false)
    (hf : ∀ g, item.kind ≠ .function g) :
    x ∈ body ∧ item.translated = false ∧ item.offset = some (t.offset x) ∧ ∃ kind, s.items.get? x = some { kind } ∧
      kind.PreparedAs item.kind ∧ ∀ v ∈ kind.vars, t.Owns f v := by
  have htr : item.translated = false := by
    refine Bool.eq_false_iff.mpr fun ht => ?_
    obtain ⟨l, hl⟩ := ItemKind.isTarget_iff.mp (hd ht)
    rw [hl] at hs
    cases hs
  have hl := h.launch hp hj
  obtain ⟨hmid, hin⟩ := Visits.sound hv hl
  have hx : x ∈ body := by
    rcases hin with hin | ⟨hx, rfl⟩
    · rcases hin x rfl with hx | rfl | hx
      · exact hx
      · obtain ⟨it, hit, hk⟩ := hmid.closes
        cases hi ▸ hit
        rw [hk] at hs
        cases hs
      · rw [(hmid.generated hx hi).1] at htr
        cases htr
    · cases some.inj hx
      obtain ⟨it, hit, hk, -⟩ := hl.opens
      cases hi ▸ hit
      exact absurd hk (hf f)
  obtain ⟨kind, item0, hs0, hi0, -, hprep, -, hown⟩ := h.prepared_inside hp hx
  obtain ⟨hoff, hbec⟩ := hmid.becomes hx hi0 hi
  have htarget : item.kind.isTarget = false := by
    refine Bool.eq_false_iff.mpr fun ht => ?_
    obtain ⟨l, hl⟩ := ItemKind.isTarget_iff.mp ht
    rw [hl] at hs
    cases hs
  have hkind := hmid.waiting hx id hi0 hi htr (by rw [← hbec.isTarget_eq, htarget])
  have hnum := h.offset?_eq hp (mem_cons_of_mem _ (mem_append_left _ hx))
  rw [ItemSeq.offset?, hi0, bind_some] at hnum
  exact ⟨hx, htr, hoff.trans hnum, kind, hs0, hkind ▸ hprep, hown⟩

end Ready

/-- Marks are the numbers of instructions that are translated. -/
def Stamped (f : FunctionId) (body : List ItemId) (s t u : Session) : Prop :=
  ∀ y z n, u.vars.get? y = some z → z.function = f → z.workOffset = some n →
    ∃ x ∈ body, ∃ i, s.items.get? x = some { kind := .instruction i } ∧ u.Done x ∧ t.offset x = n

namespace Ready

section
variable (h : s.Ready f record stop body) (hj : s.Closed body)
include h hj

theorem given_of_visits (hp : prepareFunction f record stop p s = .ok () t) (hv : t.Visits record.item m) {y : VarId}
    {z : Variable}
    (hz : m.session.vars.get? y = some z) : ∃ z0, s.vars.get? y = some z0 ∧ z0.function = z.function ∧ z0.cls = z.cls ∧
      z0.priority = z.priority ∧ ∃ z1, t.vars.get? y = some z1 ∧ z1.workOffset = z0.workOffset := by
  have hw := h.walked hp
  obtain ⟨z1, hz1, hfix⟩ := (Visits.sound hv (h.launch hp hj)).midway.continues.vars.get? hz
  have hlt : y.index < s.vars.size := by
    rw [← show (s.begun f record stop p).vars.size = s.vars.size from rfl, ← hw.size]
    exact (Array.getElem?_eq_some_iff.mp hz1).1
  obtain ⟨z0, hz0⟩ : ∃ z0, s.vars.get? y = some z0 := ⟨_, Array.getElem?_eq_getElem hlt⟩
  obtain ⟨z2, hz2, hgiven⟩ := hw.given hz0
  cases hz2 ▸ hz1
  refine ⟨z0, hz0, ?_, ?_, ?_, z1, hz1, (congrArg (·.2.2.1) hgiven :)⟩
  · exact function_of_given hgiven ▸ function_eq hfix
  · exact (congrArg (·.2.1) hgiven :).symm.trans (congrArg (·.1.2.2.1) hfix :)
  · exact (congrArg (·.2.2.2) hgiven :).symm.trans (congrArg (·.2.2.2) hfix :)

theorem not_call (hp : prepareFunction f record stop p s = .ok () t)
    (hcall : ∀ x ∈ body, ∀ c, s.items.get? x ≠ some { kind := .call c })
    (hv : t.Visits record.item ⟨.walk (some x), u⟩) (hi : u.items.get? x = some item)
    (hd : item.translated = true → item.kind.isTarget = true) (c : CallItem) : item.kind ≠ .call c := by
  intro hk
  obtain ⟨hx, -, -, kind, hs, hprep, -⟩ := h.waiting hj hp hv hi hd (by rw [hk]; rfl) (by simp [hk])
  rw [hk] at hprep
  cases kind with
  | instruction =>
    obtain ⟨_, _, -, he⟩ := hprep
    cases he
  | jump =>
    obtain ⟨_, he⟩ := hprep
    cases he
  | call =>
    exact hcall x hx _ hs
  | _ => cases hprep

theorem stamped (hlab : s.Labelled) (hcall : ∀ x ∈ body, ∀ c, s.items.get? x ≠ some { kind := .call c })
    (hp : prepareFunction f record stop p s = .ok () t) (hv : t.Visits record.item m) : Stamped f body s t m.session := by
  have hl := h.launch hp hj
  have ht := h.sequence hp hlab
  induction hv with
  | refl =>
    intro y z n hz hf hn
    obtain ⟨z0, hz0, hfun, -, -, z1, hz1, hmark⟩ := h.given_of_visits hj hp .refl hz
    cases hz1 ▸ hz
    rw [hn, (h.fresh hz0 (hfun.trans hf)).blank] at hmark
    cases hmark
  | @tail m1 m2 hv ha ih =>
    suffices hstep : ∀ y z n, m2.session.vars.get? y = some z → z.workOffset = some n →
        (∃ x ∈ body, ∃ i, s.items.get? x = some { kind := .instruction i } ∧ m2.session.Done x ∧ t.offset x = n) ∨
          ∃ z0, m1.session.vars.get? y = some z0 ∧ z0.workOffset = some n by
      intro y z n hz hf hn
      rcases hstep y z n hz hn with hnew | ⟨z0, hz0, hn0⟩
      · exact hnew
      have hfun : z0.function = f := by
        obtain ⟨a, ha1, hfa, -⟩ := h.given_of_visits hj hp hv hz0
        obtain ⟨b, hb1, hfb, -⟩ := h.given_of_visits hj hp (hv.tail ha) hz
        cases ha1 ▸ hb1
        exact hfa ▸ hfb.trans hf
      obtain ⟨x, hx, i, hi, hd, ho⟩ := ih y z0 n hz0 hfun hn0
      exact ⟨x, hx, i, hi, ha.proceeds.done hd, ho⟩
    intro y z n hz hn
    have hquiet : (∀ o, m1.session.MarksWith o m2.session) → ∃ z0, m1.session.vars.get? y = some z0 ∧
        z0.workOffset = some n := fun hm => (hm (n + 1) y z n hz hn).resolve_left (by omega)
    cases ha with
    | @item u u' x next hr =>
      obtain ⟨item, w, hi, hd, hkind, rfl⟩ := translateItem_ok hr
      obtain ⟨hmark, hother⟩ := translateKind_marks (h.not_call hj hp hcall hv hi hd) hkind
      have hvars : (w.leaving x item).vars = w.vars := by
        unfold leaving
        split <;> rfl
      by_cases hins : ∃ i, item.kind = .instruction i
      · obtain ⟨i, hk⟩ := hins
        obtain ⟨hx, -, hoff, kind, hs, hprep, -⟩ := h.waiting hj hp hv hi hd (by rw [hk]; rfl) (by simp [hk])
        rcases hmark y z n (hvars ▸ hz) hn with rfl | hold
        · rw [hk] at hprep
          cases kind with
          | instruction i0 =>
            exact .inl ⟨x, hx, i0, hs, (translateItem_passage hr).done_self, by simp [entering, hoff]⟩
          | jump =>
            obtain ⟨_, he⟩ := hprep
            cases he
          | _ => cases hprep
        · exact .inr hold
      · refine .inr (hquiet fun o y z n hz hn => hother (fun i hk => hins ⟨i, hk⟩) o y z n (hvars ▸ hz) hn)
    | resume hj hr =>
      obtain ⟨rfl, -⟩ := resumeBehind_ok hr
      exact .inr ⟨z, hz, hn⟩
    | finish => exact .inr ⟨z, hz, hn⟩
    | reconcile ha hd =>
      refine .inr (hquiet fun o => ?_)
      have h1 := (assignState_plain (D := .drop fun _ => True) fun _ => trivial).with (o := o) (fun _ h => h) _ _ _ ha
      have h2 := trans_of (MarksWith o) h1 (trans_of (MarksWith o) (.of_vars rfl) (doJump_marks hd))
      exact h2

/-- There is room for every item of a function whose instructions do not name more variables than there are registers. -/
theorem roomy (hlab : s.Labelled) (hm : s.Movable f)
    (hcall : ∀ x ∈ body, ∀ c, s.items.get? x ≠ some { kind := .call c })
    (hlen : ∀ x ∈ body, ∀ i, s.items.get? x = some { kind := .instruction i } → ∀ cls,
      (i.named s cls).length ≤ (({ allocableRbp := record.hints.naked } : Context).allocable cls).count)
    (hp : prepareFunction f record stop p s = .ok () t) (hv : t.Visits record.item m) : m.Roomy := by
  obtain ⟨task, u⟩ := m
  rintro x item rfl hi hd
  have hl := h.launch hp hj
  have hmid := (Visits.sound hv hl).1
  have hmov : (u.entering x item).Movable f := by
    intro y z hz hf
    obtain ⟨z0, hz0, hfun, -, hprio, -⟩ := h.given_of_visits hj hp hv hz
    exact hprio ▸ hm y z0 hz0 (hfun.trans hf)
  have hnone : x ∈ body → item.translated = false → item.offset = some (t.offset x) →
      ∀ y, (u.entering x item).Claimed y → ¬ (u.entering x item).Owns f y := by
    rintro hx htr hoff y ⟨z, hz, hmark⟩ ⟨w, hw⟩
    obtain ⟨z', hz', hf, -⟩ := holdings_vars.mp hw
    cases hz ▸ hz'
    obtain ⟨x', hx', i, hi', hdone, ho⟩ := h.stamped hj hlab hcall hp hv y z _ hz hf hmark
    refine h.number_ne hp (Visits.inTurn hv hl (h.sequence hp hlab)) hx hx' hi' hdone ?_ ?_
    · rintro ⟨it, hit, htr'⟩
      cases hi ▸ hit
      cases htr ▸ htr'
    · rw [ho]
      simp [entering, hoff]
  cases hk : item.kind with
  | instruction i =>
    obtain ⟨hx, htr, hoff, -⟩ := h.waiting hj hp hv hi hd (by rw [hk]; rfl) (by simp [hk])
    obtain ⟨harr, i0, hs, hops⟩ := h.arranged_at hj hp hv hx hi htr hk
    refine allocRecords_unhinderedAt (S := (· ≠ .pressure)) hmid.coherent (harr.kept (.refl _)) hmov
      (hnone hx htr hoff) fun cls => ?_
    have hsub : i.named (u.entering x item) cls ⊆ i0.named s cls := by
      intro y hy
      obtain ⟨hmem, z, hz, hcls⟩ := InstructionItem.mem_named.mp hy
      obtain ⟨z0, hz0, -, hcls0, -⟩ := h.given_of_visits hj hp hv hz
      exact InstructionItem.mem_named.mpr ⟨hops ▸ hmem, z0, hz0, hcls0.trans hcls⟩
    have hal : (u.entering x item).ctx.allocable cls =
        ({ allocableRbp := record.hints.naked } : Context).allocable cls := by
      have hrbp : u.ctx.allocableRbp = record.hints.naked := by
        rw [hmid.continues.ctx]
        show t.ctx.allocableRbp = _
        rw [(h.walked hp).ctx]
        rfl
      unfold Context.allocable entering
      rw [hrbp]
    rw [hal]
    exact le_trans (subperm_of_subset (nodup_dedup _) hsub).length_le (hlen x hx i0 hs cls)
  | hint d =>
    obtain ⟨hx, htr, hoff, kind, -, hprep, hown⟩ := h.waiting hj hp hv hi hd (by rw [hk]; rfl) (by simp [hk])
    have hvar : t.Owns f d.var := by
      rw [hk] at hprep
      cases kind with
      | instruction =>
        obtain ⟨_, _, -, he⟩ := hprep
        cases he
      | jump =>
        obtain ⟨_, he⟩ := hprep
        cases he
      | hint =>
        cases hprep
        exact hown _ mem_cons_self
      | _ => cases hprep
    exact applyDirective_unhinderedAt (S := (· ≠ .pressure)) hmid.coherent
      (hmid.continues.vars.owns_iff.mpr hvar) hmov (hnone hx htr hoff)
  | call c => exact absurd hk (h.not_call hj hp hcall hv hi hd c)
  | _ => trivial

end

end Ready

end Session

/-- No call, and no instruction that names more variables of a class than there are registers to allocate. -/
def ItemKind.Fits (s : Session) (ctx : Context) : ItemKind → Prop
  | .instruction i => ∀ cls, (i.named s cls).length ≤ (ctx.allocable cls).count
  | .call _ => False
  | _ => True

instance (s : Session) (ctx : Context) (kind : ItemKind) : Decidable (kind.Fits s ctx) := by
  cases kind with
  | instruction i =>
    exact decidable_of_iff (∀ cls ∈ [RegClass.gp, .mm, .xmm], (i.named s cls).length ≤ (ctx.allocable cls).count)
      ⟨fun h cls => h cls (by cases cls <;> decide), fun h cls _ => h cls⟩
  | call => exact inferInstanceAs (Decidable False)
  | _ => exact inferInstanceAs (Decidable True)

namespace Compile
variable [Encoder ε]

/-- A function finds the registers it needs: where no instruction names more variables of a class than there are registers
to allocate, nothing is called and no variable is pinned by its priority, the registers do not run out. -/
theorem compileFunction_finds_registers {f : FunctionId} {record : FunctionRecord} {stop : ItemId} {body : List ItemId}
    (c : Compilation ε) (h : c.session.Ready f record stop body) (hj : c.session.Closed body)
    (hlab : c.session.Labelled) (hm : c.session.Movable f)
    (hfit : ∀ x ∈ body, ∀ kind, c.session.items.get? x = some { kind } →
      kind.Fits c.session { allocableRbp := record.hints.naked }) :
    ∀ c', compileFunction f c ≠ .error .notEnoughRegisters c' := by
  have hlow : UnhinderedAt (· ≠ .pressure) (lowerFunction f) c.session := by
    obtain ⟨p, hs, hstart, rfl, rfl⟩ := h.stands
    exact h.lowerFunction_unhinderedAt hs hstart hj hlab (.inl (by decide)) (by decide)
      (.inr fun _ _ _ hp hv =>
        h.roomy hj hlab hm (fun x hx k hk => hfit x hx _ hk) (fun x hx i hi => hfit x hx _ hi) hp hv)
  intro c' he
  cases hl : lowerFunction f c.session with
  | error e t =>
    unfold compileFunction at he
    rw [bind_eq_of_ok (get_ok.mpr ⟨rfl, rfl⟩)] at he
    rcases bind_error.mp he with he | ⟨r, c₀, hr, -⟩
    · exact absurd rfl (onSession_unhinderedAt hlow _ _ he)
    · obtain ⟨t', ht', -⟩ := onSession_ok.mp hr
      cases hl.symm.trans ht'
  | ok r t =>
    obtain ⟨start, last, frame⟩ := r
    obtain ⟨c₁, hd⟩ := defineLabels_total c.session.labelCount (t.labelCount - c.session.labelCount) ⟨t, c.encoder⟩
    rw [compileFunction_eq hl hd] at he
    rcases bind_error.mp he with he | ⟨_, d, -, he⟩
    · exact absurd rfl (Unhindered.forM (fun _ => emitItem_unhindered (S := (· ≠ .pressure)) (by decide)) _ _ _ he)
    rcases bind_error.mp he with he | ⟨_, d', -, he⟩
    · exact absurd rfl (Unhindered.forM (fun _ => checkItem_unhindered (S := (· ≠ .pressure)) (by decide)) _ _ _ he)
    · exact absurd rfl (noteCompiled_unhindered (S := (· ≠ .pressure)) _ _ _ he)

/-- Eighteen variables that are in use at once, fifteen registers. -/
theorem compileFunction_finds_registers_crowded : ∃ (q : Prepared) (body : List ItemId),
    q.before.Ready ⟨0⟩ q.record q.stop body ∧ q.before.vars.size = 18 ∧
    ∀ (e : Recorder) (c' : Compilation Recorder), compileFunction ⟨0⟩ ⟨q.before, e⟩ ≠ .error .notEnoughRegisters c' := by
  let var (n : Nat) : Operand := .var ⟨⟨n⟩, 8⟩
  let calls : List Call := [.newFunction [] [] {}] ++ (List.range 18).map (fun _ => .newVar .gpq) ++
    (List.range 18).map (fun n => .emit .mov [var n, .imm 1]) ++ (List.range 18).map (fun n => .emit .add [var 0, var n]) ++
    [.ret [], .endFunction]
  obtain ⟨q, hq, hd⟩ := any_eq_true _ _ |>.mp
    (show (prepareFirst calls).any (fun q =>
      let body := (q.before.items.range q.record.item q.stop).tail.dropLast
      q.before.Closed body ∧ q.before.vars.size = 18 ∧ (∀ x ∈ q.before.vars.vars.toList, 0 < x.priority) ∧
      ∀ x ∈ body, ∀ item ∈ (q.before.items.get? x).toList,
        item.kind.Fits q.before { allocableRbp := q.record.hints.naked }) = true by decide +kernel)
  obtain ⟨hclosed, hsize, hprio, hfit⟩ := of_decide_eq_true hd
  obtain ⟨hb, hcont⟩ := program_contoured (prepareFirst_program hq).1
  obtain ⟨-, body, hready⟩ := prepareFirst_ok hq
  have hbody : (q.before.items.range q.record.item q.stop).tail.dropLast = body := by
    rw [hready.range_eq]
    simp
  rw [hbody] at hclosed hfit
  refine ⟨q, body, hready, hsize, fun e => ?_⟩
  refine compileFunction_finds_registers ⟨q.before, e⟩ hready hclosed (hcont.labelled hb) (fun y x hx _ => ?_)
    fun x hx kind hi => ?_
  · exact hprio x (Array.mem_toList_iff.mpr (Array.mem_of_getElem? hx))
  · exact hfit x hx _ (mem_toList.mpr hi)

end Compile

end Codegen
