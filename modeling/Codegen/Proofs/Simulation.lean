import Codegen.Proofs.Agreement
import Codegen.Proofs.Translation

/-! One instruction on variables and on the machine. Once the allocator has brought the operands of an
instruction into place, the resolved instruction sees and writes the values that the instruction as it
is written sees and writes. -/
namespace Codegen
open List Build Option Operand Function
variable {refs : List (Ref VarId)} {o : Operand}

namespace Holdings

/-- The variable is in the place. -/
def At (h : Holdings) (id : VarId) (p : Place) : Prop := ∃ v, h.vars id = some v ∧ v.place? = some p

theorem At.unique (hc : Coherent h) (hp : h.Apart) (ha : h.At a p) (hb : h.At b q) : a = b ↔ p = q := by
  obtain ⟨v, hv, hpv⟩ := ha
  obtain ⟨w, hw, hqw⟩ := hb
  constructor
  · rintro rfl
    cases hv ▸ hw
    exact some.inj (hpv ▸ hqw)
  rintro rfl
  cases p with
  | reg r =>
    have hra := hc.occupant_of_uses hv (.inl hpv)
    rw [hc.occupant_of_uses hw (.inl hqw)] at hra
    exact (some.inj hra).symm
  | home x => exact hp.distinct (homeOf_of_uses hv (.inl hpv)) (homeOf_of_uses hw (.inl hqw))

end Holdings

theorem forall₂_of_mapM
    (h : l.mapM f = some l') : List.Forall₂ (fun a b => f a = some b) l l' := by
  induction l generalizing l' with
  | nil =>
    cases h
    exact .nil
  | cons a l ih =>
    simp only [mapM_cons, bind_eq_bind, bind_eq_some_iff, Option.pure_def, some.injEq] at h
    obtain ⟨b, hb, bs, hbs, rfl⟩ := h
    exact .cons hb (ih hbs)

namespace Operand

private theorem part_related (hr : AddressPart.Resolved h p q)
    (hs : optionally (fun | .var v => some v | .reg _ => none) p = some s) :
    ∃ s', optionally (fun | .var _ => none | .reg r => some (.reg r)) q = some s' ∧ Rel h.At s s' := by
  match p, hr, hs with
  | none, hr, hs =>
    cases hr
    cases hs
    exact ⟨none, rfl, .none⟩
  | some (.reg _), _, hs => cases hs
  | some (.var id), ⟨v, r, hv, hc, hq⟩, hs =>
    cases hs
    subst hq
    exact ⟨some (.reg r), rfl, .some ⟨v, hv, Variable.place?_of_currentReg hc⟩⟩

/-- The place that a home is. -/
def Home.place? : Home → Option Place
  | .var _ => none
  | a => some (.home a)

/-- A resolved operand names the places of the variables. -/
theorem Resolved.related (hr : Resolved h o o') (hs : o.source = some r)
    (hm : ∀ m v, o = .mem m → m.homeVar = some v → ∃ x, h.vars v = some x ∧ x.state = .memory) :
    ∃ r', o'.machine = some r' ∧ r.Related h.At r' := by
  cases o with
  | var x =>
    obtain ⟨v, q, hv, hc, rfl⟩ := hr
    cases hs
    exact ⟨_, rfl, .cell _ ⟨v, hv, Variable.place?_of_currentReg hc⟩⟩
  | reg => cases hs
  | imm =>
    cases hr
    cases hs
    exact ⟨_, rfl, .imm _⟩
  | label =>
    cases hr
    cases hs
    exact ⟨_, rfl, .label _⟩
  | mem m =>
    obtain ⟨base, index, home, hb, hi, hh, rfl⟩ := hr
    simp only [source, ref, bind_eq_bind, bind_eq_some_iff, some.injEq] at hs
    obtain ⟨b, hsb, i, hsi, a, hsa, rfl⟩ := hs
    obtain ⟨b', hmb, hrb⟩ := part_related hb hsb
    obtain ⟨i', hmi, hri⟩ := part_related hi hsi
    obtain ⟨a', hma, hra⟩ : ∃ a', optionally Home.place? home = some a' ∧ Rel h.At a a' := by
      rcases hmh : m.home with _ | ⟨v | _ | _⟩
      · simp only [Mem.homeVar, hmh] at hh hsa
        cases hsa
        exact ⟨none, by rw [hh]; rfl, .none⟩
      · simp only [Mem.homeVar, hmh] at hh hsa
        cases hsa
        obtain ⟨x, y, hx, hy, rfl⟩ := hh
        obtain ⟨x', hx', hs⟩ := hm m v rfl (by simp [Mem.homeVar, hmh])
        cases hx ▸ hx'
        refine ⟨some (.home y), ?_, .some ⟨x, hx, Variable.place?_of_memory hs hy⟩⟩
        cases y with
        | var z => exact absurd hy x.home?_ne_var
        | slot | argument => rfl
      all_goals
        rw [hmh] at hsa
        cases hsa
    refine ⟨.mem b' i' m.scale m.disp m.size a', ?_, .mem _ _ _ hrb hri hra⟩
    simp only [machine, ref, bind_eq_bind, bind_eq_some_iff, some.injEq]
    exact ⟨b', hmb, i', hmi, a', hma, rfl⟩

theorem related_all (hr : List.Forall₂ (Resolved h) l l') (hs : l.mapM source = some refs)
    (hm : ∀ o ∈ l, ∀ m v, o = .mem m → m.homeVar = some v → ∃ x, h.vars v = some x ∧ x.state = .memory) :
    ∃ refs', l'.mapM machine = some refs' ∧ List.Forall₂ (Ref.Related h.At) refs refs' := by
  induction hr generalizing refs with
  | nil =>
    cases hs
    exact ⟨[], rfl, .nil⟩
  | cons hr _ ih =>
    simp only [mapM_cons, bind_eq_bind, bind_eq_some_iff, Option.pure_def, some.injEq] at hs ⊢
    obtain ⟨r, hr1, rs, hrs, rfl⟩ := hs
    obtain ⟨hm1, hm2⟩ := forall_mem_cons.mp hm
    obtain ⟨r', hr', hrel⟩ := hr.related hr1 hm1
    obtain ⟨rs', hrs', hrels⟩ := ih hrs hm2
    exact ⟨r' :: rs', ⟨r', hr', rs', hrs', rfl⟩, .cons hrel hrels⟩

end Operand

namespace Operand

theorem mem_of_seen (hs : o.source = some r) (hv : v ∈ r.seen reads) : (∃ m, o = .mem m ∧ v ∈ m.addressVars) ∨
      reads = true ∧ ((∃ x, o = .var x ∧ x.id = v) ∨ ∃ m, o = .mem m ∧ m.homeVar = some v) := by
  cases o with
  | var x =>
    cases hs
    cases reads with
    | true => exact .inr ⟨rfl, .inl ⟨x, rfl, (mem_singleton.mp hv).symm⟩⟩
    | false => cases hv
  | reg => cases hs
  | imm | label =>
    cases hs
    cases hv
  | mem m =>
    simp only [source, ref, bind_eq_bind, bind_eq_some_iff, some.injEq] at hs
    obtain ⟨b, hsb, i, hsi, a, hsa, rfl⟩ := hs
    have part : ∀ {p : Option AddressPart} {s : Option VarId},
        optionally (fun | .var v => some v | .reg _ => none) p = some s → v ∈ s.toList →
        v ∈ (p.bind AddressPart.var?).toList := by
      intro p s hp hm
      rcases p with _ | ⟨_ | _⟩ <;> cases hp
      · cases hm
      · exact hm
    rcases mem_append.mp hv with hv | hv
    · refine .inl ⟨m, rfl, ?_⟩
      rcases mem_append.mp hv with hv | hv
      · exact mem_append_left _ (part hsb hv)
      · exact mem_append_right _ (part hsi hv)
    cases reads with
    | false => cases hv
    | true =>
      refine .inr ⟨rfl, .inr ⟨m, rfl, ?_⟩⟩
      rcases hh : m.home with _ | ⟨_ | _ | _⟩ <;> rw [hh] at hsa <;> cases hsa
      · cases hv
      · cases mem_singleton.mp hv
        simp [Mem.homeVar, hh]

theorem mem_of_target (hs : o.source = some r) :
    r.target? = some v ↔ (∃ x, o = .var x ∧ x.id = v) ∨ ∃ m, o = .mem m ∧ m.homeVar = some v := by
  cases o with
  | var x | imm | label =>
    cases hs
    simp [Ref.target?]
  | reg => cases hs
  | mem m =>
    simp only [source, ref, bind_eq_bind, bind_eq_some_iff, some.injEq] at hs
    obtain ⟨b, -, i, -, a, hsa, rfl⟩ := hs
    rcases hh : m.home with _ | ⟨_ | _ | _⟩ <;> rw [hh] at hsa <;> cases hsa <;> simp [Ref.target?, Mem.homeVar, hh]

end Operand

theorem Operand.source_eq_cell : o.source = some (.cell v n) ↔ o = .var ⟨v, n⟩ := by
  cases o with
  | var x =>
    cases x
    simp [source, ref]
  | mem m => simp [source, ref, bind_eq_some_iff]
  | _ => simp [source, ref]

theorem clearing_source (h : Forall₂ (fun o r => source o = some r) i.operands refs) :
    clearing i.opcode refs = isZeroing i := by
  have hshape : (∃ p n q k, refs = [.cell p n, .cell q k] ∧ i.operands = [.var ⟨p, n⟩, .var ⟨q, k⟩]) ∨
      (∀ p n q k, refs ≠ [.cell p n, .cell q k]) ∧ ∀ a b, i.operands ≠ [.var a, .var b] := by
    by_cases hc : ∃ p n q k, refs = [.cell p n, .cell q k]
    · obtain ⟨p, n, q, k, rfl⟩ := hc
      obtain ⟨a, l, ha, hl, ho⟩ := forall₂_cons_right_iff.mp h
      obtain ⟨b, l', hb, hl', rfl⟩ := forall₂_cons_right_iff.mp hl
      cases forall₂_nil_right_iff.mp hl'
      rw [source_eq_cell] at ha hb
      exact .inl ⟨p, n, q, k, rfl, by rw [ho, ha, hb]⟩
    · refine .inr ⟨fun p n q k he => hc ⟨p, n, q, k, he⟩, fun a b hab => ?_⟩
      rw [hab] at h
      obtain ⟨r, l, hr, hl, ho⟩ := forall₂_cons_left_iff.mp h
      obtain ⟨r', l', hr', hl', rfl⟩ := forall₂_cons_left_iff.mp hl
      cases forall₂_nil_left_iff.mp hl'
      cases hr
      cases hr'
      exact hc ⟨_, _, _, _, ho⟩
  rcases hshape with ⟨p, n, q, k, rfl, ho⟩ | ⟨hr, ho⟩
  · simp [clearing, isZeroing, ho]
  have h1 : clearing i.opcode refs = false := by
    unfold clearing
    split
    · exact absurd rfl (hr _ _ _ _)
    · simp
  have h2 : isZeroing i = false := by
    unfold isZeroing
    split
    · rename_i hab
      exact absurd hab (ho _ _)
    · simp
  rw [h1, h2]

theorem Opcode.writes_of_isZeroingIdiom (op : Opcode) (h : op.isZeroingIdiom = true) :
    (op.constraint 0 2).access.writes = true := by
  cases op <;> first | rfl | cases h

namespace Build.Collected
variable {records : List AllocRecord} {memVars : List VarId}
variable {k : Nat}

theorem grants_iff (hc : Collected i records memVars) (hq : q ∈ records) :
    AllocRecord.Grants records q.var a ↔ a.Within q.access := by
  refine ⟨?_, fun h => ⟨q, hq, rfl, h⟩⟩
  rintro ⟨q', hq', hv, h⟩
  obtain rfl : q' = q := inj_on_of_nodup_map hc.nodup hq' hq hv
  exact h

section
variable (hc : Collected i records memVars) (hs : Forall₂ (fun o r => source o = some r) i.operands refs)
include hc hs

theorem reads (hk : refs[k]? = some r)
    (hv : v ∈ r.seen (readsAt i.opcode refs k)) : AllocRecord.Grants records v .read ∨ v ∈ memVars := by
  obtain ⟨o, ho, hr⟩ := getElem?_of_forall₂ hs hk
  have hrec := hc.recorded k o ho
  rcases mem_of_seen hr hv with ⟨m, rfl, hv⟩ | ⟨hreads, ⟨x, rfl, rfl⟩ | ⟨m, rfl, hv⟩⟩
  · exact .inl (hrec.1 v hv)
  · rw [readsAt, clearing_source hs, Bool.and_eq_true, Bool.not_eq_true', ← hs.length_eq] at hreads
    rcases hrec with ⟨hz, -⟩ | ⟨q, hq, hqv, hin⟩
    · rw [hz] at hreads
      cases hreads.1
    · rw [askedAccess, hreads.1] at hin
      exact .inl ⟨q, hq, hqv, fun _ => hin.1 hreads.2, fun h => by cases h⟩
  · exact .inr (hrec.2 v hv)

theorem writes (hk : refs[k]? = some r) (hw : writesAt i.opcode refs k = true) (hv : r.target? = some v) :
    AllocRecord.Grants records v .write ∨ v ∈ memVars := by
  obtain ⟨o, ho, hr⟩ := getElem?_of_forall₂ hs hk
  rw [writesAt, ← hs.length_eq] at hw
  have hrec := hc.recorded k o ho
  rcases (mem_of_target hr).mp hv with ⟨x, rfl, rfl⟩ | ⟨m, rfl, hv⟩
  · left
    cases hz : isZeroing i with
    | true =>
      obtain ⟨-, a, b, hops, hab⟩ := operands_of_isZeroing hz
      have h0 := hc.recorded 0 (.var a) (by rw [hops]; rfl)
      have hx : x.id = a.id := by
        rw [hops] at ho
        have hmem := mem_of_getElem? ho
        simp only [mem_cons, not_mem_nil, or_false, var.injEq] at hmem
        rcases hmem with rfl | rfl
        · rfl
        · exact hab.symm
      rcases h0 with ⟨-, h0⟩ | h0
      · cases h0
      · rw [askedAccess, hz] at h0
        exact hx ▸ h0
    | false =>
      rcases hrec with ⟨hz', -⟩ | ⟨q, hq, hqv, hin⟩
      · cases hz ▸ hz'
      · rw [askedAccess, hz] at hin
        exact ⟨q, hq, hqv, (fun h => by cases h), fun _ => hin.2 hw⟩
  · exact .inr (hrec.2 v hv)

/-- A variable that is only recorded to be written is written. -/
theorem overwritten (hq : q ∈ records) (ha : q.access = .write) :
    ∃ k r, refs[k]? = some r ∧ writesAt i.opcode refs k = true ∧ r.target? = some q.var := by
  have hgrant : ∀ {a : Access}, AllocRecord.Grants records q.var a → a = .write := by
    intro a hg
    have hin := (hc.grants_iff hq).mp hg
    rw [ha] at hin
    cases a with
    | write => rfl
    | read | readWrite => cases hin.1 rfl
  have operand : ∀ {k : Nat} {o : Operand}, i.operands[k]? = some o → (∃ x, o = .var x ∧ x.id = q.var) →
      (i.opcode.constraint k i.operands.length).access.writes = true →
      ∃ k r, refs[k]? = some r ∧ writesAt i.opcode refs k = true ∧ r.target? = some q.var := by
    rintro k o ho ⟨x, rfl, hx⟩ hw
    obtain ⟨r, hr, hsr⟩ := getElem?_of_forall₂ hs.flip ho
    exact ⟨k, r, hr, by rwa [writesAt, ← hs.length_eq], (mem_of_target hsr).mpr (.inl ⟨x, rfl, hx⟩)⟩
  have hnamed := (hc.named q.var).mp (.inl (mem_map_of_mem hq))
  obtain ⟨o, ho, hv⟩ := mem_flatMap.mp hnamed
  cases hz : isZeroing i with
  | true =>
    obtain ⟨hidiom, a, b, hops, hab⟩ := operands_of_isZeroing hz
    have hx : a.id = q.var := by
      rw [hops] at ho
      rcases mem_cons.mp ho with rfl | ho
      · exact (mem_singleton.mp hv).symm
      · cases mem_singleton.mp ho
        exact hab.trans (mem_singleton.mp hv).symm
    refine operand (k := 0) (by rw [hops]; rfl) ⟨a, rfl, hx⟩ ?_
    rw [hops]
    exact i.opcode.writes_of_isZeroingIdiom hidiom
  | false =>
    obtain ⟨k, hk⟩ := getElem?_of_mem ho
    have hrec := hc.recorded k o hk
    cases o with
    | var x =>
      have hx : x.id = q.var := (mem_singleton.mp hv).symm
      refine operand hk ⟨x, rfl, hx⟩ ?_
      rcases hrec with ⟨hz', -⟩ | hg
      · cases hz ▸ hz'
      have := hgrant (hx ▸ hg)
      rw [askedAccess, hz] at this
      simp [show (i.opcode.constraint k i.operands.length).access = .write from this, Access.writes]
    | mem m =>
      rcases mem_append.mp hv with hv | hv
      · cases hgrant (hrec.1 _ hv)
      · exact absurd (hrec.2 _ (mem_toList.mp hv)) (hc.apart q hq)
    | reg | imm | label => cases hv

end

end Build.Collected

section Writes
variable {live : VarId → Prop}
variable {σ : VarId → Option (BitVec w)} {id : VarId}

theorem Agree.write (hc : Coherent h) (hp : h.Apart) (hg : Agree live h m σ) (hat : h.At id p)
    (hd : Dirty h id) (b : BitVec w) :
    Agree (fun y => live y ∨ y = id) h (update m p b) (update σ id (some b)) := by
  obtain ⟨v, hv, hpv⟩ := hat
  intro y x hl hx
  by_cases hy : y = id
  · subst hy
    rw [update_self] at hx
    cases hx
    refine ⟨v, hv, ⟨p, hpv, update_self ..⟩, fun hs hch => ?_⟩
    rw [hd v hv hs] at hch
    cases hch
  · rw [update_of_ne hy] at hx
    obtain ⟨u, hu, hh⟩ := hg y x (hl.resolve_right hy) hx
    refine ⟨u, hu, hh.frame fun q hq => update_of_ne ?_ _ _⟩
    rintro rfl
    -- the place belongs to the variable that is written
    cases q with
    | reg r =>
      have ho := hc.occupant_of_uses hu hq
      rw [hc.occupant_of_uses hv (.inl hpv)] at ho
      exact hy (some.inj ho).symm
    | home a => exact hy (hp.distinct (Holdings.homeOf_of_uses hu hq) (Holdings.homeOf_of_uses hv (.inl hpv)))

theorem Agree.writes {ws : List (VarId × BitVec w)} {ws' : List (Place × BitVec w)} (hc : Coherent h)
    (hp : h.Apart) (hw : Forall₂ (fun e e' => h.At e.1 e'.1 ∧ e.2 = e'.2) ws ws')
    (hd : ∀ e ∈ ws, Dirty h e.1) (hg : Agree live h m σ) :
    Agree (fun y => live y ∨ y ∈ ws.map Prod.fst) h (ws'.foldl (fun m e => update m e.1 e.2) m)
      (ws.foldl (fun σ e => update σ e.1 (some e.2)) σ) := by
  induction hw generalizing m σ live with
  | nil => exact hg.mono fun y hy => hy.resolve_right not_mem_nil
  | @cons e e' ws ws' he _ ih =>
    obtain ⟨hd1, hd2⟩ := forall_mem_cons.mp hd
    have hg' := hg.write hc hp he.1 hd1 e.2
    rw [foldl_cons, foldl_cons, ← he.2]
    refine (ih hd2 hg').mono fun y hy => ?_
    rw [map_cons, mem_cons] at hy
    rcases hy with hy | hy | hy
    · exact .inl (.inl hy)
    · exact .inl (.inr hy)
    · exact .inr hy

end Writes

namespace Build.Collected
variable {records : List AllocRecord} {memVars : List VarId}
variable {live : VarId → Prop}

theorem brings_agree (hc : Coherent h) (hp : h.Apart) (hr : Run (Effect.brings records memVars) h c h')
    (hg : Agree live h m σ) : ∃ m', Instruction.execAll c m = some m' ∧
      Agree (fun v => live v ∧ ∀ r ∈ records, r.var = v → r.access ≠ .write) h' m' σ := by
  refine (hg.mono fun v hv => hv.1).run hc hp hr ?_ ?_
  · rintro (⟨r, -, h⟩ | ⟨v, -, h⟩ | ⟨v, h⟩)
    · exact h
    · exact h
    · cases h
  rintro e y (⟨r, hr, he⟩ | ⟨v, -, he⟩ | ⟨v, rfl⟩) hlose hlive
  · have : r.var = y ∧ r.access = .write := by
      cases e <;> first | exact hlose.elim | exact he.elim | exact ⟨he.1 ▸ hlose.symm, he.2⟩
    exact absurd this.2 (hlive.2 r hr this.1)
  · cases e <;> first | exact he.elim | exact hlose.elim
  · exact hlose.elim

/-- The instruction does on the machine what it does on the store. -/
theorem simulates {operands : List Operand} {mem mem' : M} {ws : List (VarId × BitVec w)}
    (hcol : Collected i records memVars) (hc : Coherent h) (hp : h.Apart)
    (hr : Run (Effect.brings records memVars) h c h')
    (hres : Forall₂ (Resolved h') i.operands operands)
    (hdirty : ∀ r ∈ records, r.access.writes = true → Dirty h' r.var)
    (hmem : ∀ v ∈ memVars, ∃ x, h'.vars v = some x ∧ x.state = .memory)
    (hsrc : i.operands.mapM source = some refs) (hg : Agree live h m σ)
    (hlive : ∀ v ∈ i.operands.flatMap vars, live v)
    (hperf : perform I i.opcode refs σ mem = some (e, ws, mem')) :
    ∃ m1 refs' ws', Instruction.execAll c m = some m1 ∧ operands.mapM machine = some refs' ∧
      perform I i.opcode refs' (fun p => some (m1 p)) mem = some (e, ws', mem') ∧
      Agree live h' (ws'.foldl (fun m e => update m e.1 e.2) m1) (ws.foldl (fun σ e => update σ e.1 (some e.2)) σ) := by
  have hc' := hc.run hr
  have hp' := hp.run hr
  have hs := forall₂_of_mapM hsrc
  obtain ⟨m1, hm1, hg1⟩ := brings_agree hc hp hr hg
  have hhome : ∀ o ∈ i.operands, ∀ mo v, o = .mem mo → mo.homeVar = some v → v ∈ memVars := by
    rintro o ho mo v rfl hv
    obtain ⟨k, hk⟩ := getElem?_of_mem ho
    exact (hcol.recorded k _ hk).2 v hv
  obtain ⟨refs', hrefs', hrel⟩ := related_all hres hsrc fun o ho mo v hm hv =>
    hmem v (hhome o ho mo v hm hv)
  have hunique : ∀ {p p' q q'}, h'.At p q → h'.At p' q' → (p = p' ↔ q = q') :=
    (Holdings.At.unique hc' hp')
  have hget : ∀ (k : Nat) (r : Ref VarId), refs[k]? = some r → ∀ p ∈ r.seen (readsAt i.opcode refs k),
      ∀ q x, h'.At p q → σ p = some x → some (m1 q) = some x := by
    rintro k r hk p hpk q x ⟨v, hv, hq⟩ hx
    have hread := hcol.reads hs hk hpk
    have hlp : live p := hlive p <| (hcol.named p).mp <| hread.imp_left fun ⟨r, hr, hrp, _⟩ => mem_map.mpr ⟨r, hr, hrp⟩
    have hkeep : ∀ r ∈ records, r.var = p → r.access ≠ .write := by
      rintro r hr rfl ha
      rcases hread with hread | hread
      · have := ((hcol.grants_iff hr).mp hread).1 rfl
        rw [ha] at this
        cases this
      · exact hcol.apart r hr hread
    obtain ⟨v', hv', ⟨q', hq', hx'⟩, -⟩ := hg1 p x ⟨hlp, hkeep⟩ hx
    cases hv ▸ hv'
    cases hq ▸ hq'
    rw [hx']
  obtain ⟨ws', hperf', hws⟩ := perform_related hunique hrel hget hperf
  obtain ⟨out, hout⟩ := written_of_perform hperf
  refine ⟨m1, refs', ws', hm1, hrefs', hperf', (hg1.writes hc' hp' hws ?_).mono fun y hy => ?_⟩
  · intro d hd
    obtain ⟨k, r, hk, hw, ht⟩ := mem_written.mp (hout ▸ mem_map_of_mem hd)
    rcases hcol.writes hs hk (by simpa using hw) ht with ⟨q, hq, hqv, hin⟩ | hv
    · exact hqv ▸ hdirty q hq (hin.2 rfl)
    obtain ⟨x, hx, hsx⟩ := hmem _ hv
    intro x' hx' hst
    cases hx ▸ hx'
    cases hsx ▸ hst
  · by_cases hlost : ∃ r ∈ records, r.var = y ∧ r.access = .write
    · obtain ⟨r, hr, rfl, ha⟩ := hlost
      obtain ⟨k, ref, hk, hw, ht⟩ := hcol.overwritten hs hr ha
      exact .inr (hout ▸ mem_written.mpr ⟨k, ref, hk, by simpa using hw, ht⟩)
    · exact .inl ⟨hy, fun r hr hry ha => hlost ⟨r, hr, hry, ha⟩⟩

end Build.Collected

end Codegen
