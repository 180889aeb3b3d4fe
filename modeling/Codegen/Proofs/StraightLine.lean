import Codegen.Proofs.Entry
import Codegen.Proofs.Simulation

/-! Straight-line functions. Where control only falls through, the translated function does on the
machine what the function as it is written does on its variables. -/
namespace Codegen
open List Build ItemSeq Option Effect Function
variable {record : FunctionRecord} {item : Item} {kind : ItemKind} {code : List Instruction}
variable {next : Option ItemId} {s : Session}

/-- One item is translated: code goes in front of it, and it becomes one of the kind `kind`. -/
structure Session.Emits (s : Session) (id : ItemId) (code : List Instruction) (kind : ItemKind)
    (s' : Session) : Prop extends s.Frame s' where
  order : s'.items.order = (s.items.generateAll s.mark code).order
  size : s'.items.size = (s.items.generateAll s.mark code).size
  others : ∀ {y}, y ≠ id → s'.items.get? y = (s.items.generateAll s.mark code).get? y
  kindEq : (s'.items.get? id).map Item.kind = some kind

section
variable {id : ItemId} {may : Effect → Prop}

theorem Session.Moves.emits (h : s.Moves f may s') (hi : s.items.get? id = some item) :
    ∃ code, Run may (s.holdings f) code (s'.holdings f) ∧ s.Emits id code item.kind s' := by
  obtain ⟨code, hr, hitems⟩ := h.run
  refine ⟨code, hr, h.toFrame, by rw [hitems], by rw [hitems], fun _ => by rw [hitems], ?_⟩
  rw [hitems, get?_generateAll_of_lt _ _ (lt_size_of_get? hi), hi]
  rfl

theorem Session.Emits.retire {P : VarId → Prop}
    (h : s.Emits id code kind t) (hm : t.Moves f (fun e => ∃ v, P v ∧ e.retires v) s') :
    s.Emits id code kind s' ∧ Run (fun e => ∃ v, P v ∧ e.retires v) (t.holdings f) [] (s'.holdings f) := by
  obtain ⟨c, hr, hitems⟩ := hm.run
  cases hr.retires_code
  exact ⟨⟨h.toFrame.trans hm.toFrame, hitems ▸ h.order, hitems ▸ h.size, hitems ▸ h.others, hitems ▸ h.kindEq⟩, hr⟩

end

section Step
variable {own : ItemId → Bool}
variable {id : ItemId} {live : VarId → Prop} {mem mem' : M}
variable {es : List (Event w)}

theorem Agree.retire {h h' : Holdings} {P : VarId → Prop} (hc : Coherent h) (hp : h.Apart)
    (hr : Run (fun e => ∃ v, P v ∧ e.retires v) h [] h') (hg : Agree live h m σ) :
    Agree (fun v => live v ∧ ¬ P v) h' m σ := by
  have hlost : ∀ e y, (∃ v, P v ∧ retires v e) → e.loses y → live y ∧ ¬ P y → σ y = none := by
    rintro e y ⟨v, hv, he⟩ hl ⟨-, hn⟩
    cases e with
    | forget =>
      cases hl
      exact absurd (he.1 ▸ hv) hn
    | _ => first | exact he.elim | exact hl.elim
  have hg := hg.mono (fun v (hv : live v ∧ ¬ P v) => hv.1)
  obtain ⟨m', hm, hg'⟩ := hg.run hc hp hr (fun ⟨v, _, h⟩ => h) hlost
  cases hm
  exact hg'

/-- What the translation of an item with `code` in front of it comes to on the machine. Before that the
machine and the store are related by `R`. -/
def Simulated (I : Meaning w M) (own : ItemId → Bool) (f : FunctionId) (id : ItemId) (kind : ItemKind)
    (code : List Instruction) (R : (Place → BitVec w) → (VarId → Option (BitVec w)) → Prop)
    (live : VarId → Prop) (s s' : Session) : Prop :=
  ∃ kind', s.Emits id code kind' s' ∧ Coherent (s'.holdings f) ∧ (s'.holdings f).Apart ∧
    ∀ {m σ mem es σ' mem'}, R m σ → sourceStep I id kind (σ, mem) = some (es, σ', mem') →
      ∃ m₁ m', Instruction.execAll code m = some m₁ ∧
        machineStep I own id kind' (m₁, mem) = some (es, m', mem') ∧
        Agree (fun v => live v ∧ ¬ s.LastAt id v) (s'.holdings f) m' σ'

section
variable (hc : Coherent (s.holdings f)) (hp : (s.holdings f).Apart)
include hc hp

theorem instruction_simulated {records : List AllocRecord} {memVars : List VarId}
    (hcol : Build.Collected i records memVars)
    (ho : ∀ v ∈ i.operands.flatMap Operand.vars, s.Owns f v) (hown : own id = true)
    (hlive : ∀ v ∈ i.operands.flatMap Operand.vars, live v) (hi : s.items.get? id = some item)
    (h : translateInstruction id { i with records, memVars } s = .ok next s') :
    (∃ code, Simulated I own f id (.instruction i) code (Agree live (s.holdings f)) live s s') ∧ next = s'.items.next? id := by
  have hcol' : Build.Collected { i with records, memVars } records memVars :=
    ⟨hcol.nodup, hcol.apart, hcol.recorded, hcol.named⟩
  obtain ⟨t, operands, hmv, hres, hdirty, hmem, -, hret, hnext⟩ := translateInstruction_ok hc hcol' ho h
  obtain ⟨code, hr, hem⟩ := hmv.emits hi
  obtain ⟨it, hit⟩ : ∃ it, t.items.get? id = some it := by
    obtain ⟨it, hit, -⟩ := map_eq_some_iff.mp hem.kindEq
    exact ⟨it, hit⟩
  have hem' : s.Emits id code (.instruction { i with operands, records, memVars })
      { t with items := t.items.modify id
                ({ · with kind := .instruction { i with operands, records, memVars } }) } := by
    refine ⟨hem.toFrame.trans ⟨rfl, rfl, .refl _⟩, hem.order, ?_, fun hy => ?_, ?_⟩
    · simpa [size, ItemSeq.modify] using hem.size
    · exact (get?_modify_of_ne _ (Ne.symm hy) _).trans (hem.others hy)
    · rw [get?_modify_self, hit]
      rfl
  obtain ⟨hem'', hrr⟩ := hem'.retire hret
  have hc1 := hc.run hr
  have hp1 := hp.run hr
  refine ⟨⟨code, _, hem'', hc1.run hrr, hp1.run hrr, fun {m σ mem es σ' mem'} hg hsrc => ?_⟩, hnext⟩
  simp only [sourceStep, bind_eq_bind, bind_eq_some_iff] at hsrc
  obtain ⟨refs, hrefs, ⟨e, ws, mem1⟩, hperf, hsrc⟩ := hsrc
  cases hsrc
  obtain ⟨m1, refs', ws', hexec, hrefs', hperf', hg'⟩ := hcol.simulates hc hp hr hres hdirty hmem hrefs hg hlive hperf
  refine ⟨m1, ws'.foldl (fun m e => update m e.1 e.2) m1, hexec, ?_, hg'.retire hc1 hp1 hrr⟩
  simp only [machineStep, hown, if_true, hrefs', hperf', bind_eq_bind, bind_some]

theorem hint_simulated (ho : s.Owns f d.var) (hi : s.items.get? id = some item)
    (hk : item.kind = .hint d) (h : translateHint id d s = .ok next s') :
    (∃ code, Simulated I own f id (.hint d) code (Agree live (s.holdings f)) live s s') ∧ next = s'.items.next? id := by
  obtain ⟨t, hmv, hret, hnext⟩ := translateHint_ok hc ho h
  obtain ⟨code, hr, hem⟩ := hmv.emits hi
  obtain ⟨hem, hrr⟩ := hem.retire hret
  have hc1 := hc.run hr
  have hp1 := hp.run hr
  refine ⟨⟨code, _, hem, hc1.run hrr, hp1.run hrr, fun {m σ mem es σ' mem'} hg hsrc => ?_⟩, hnext⟩
  obtain ⟨rfl, rfl, rfl⟩ := hsrc
  have hother : ¬ directed d.var d.directive .other := by
    cases d.directive <;> simp [directed, allocates, evicts, retires]
  have hlost : ∀ e y, directed d.var d.directive e → e.loses y → live y →
      (if d.directive = .unuse then update σ d.var none else σ) y = none := by
    intro e y he hl _
    cases hd : d.directive with
    | unuse =>
      rw [hd] at he
      cases e with
      | forget =>
        cases hl
        simp [he.1]
      | _ => first | exact he.elim | exact hl.elim
    | save =>
      rw [hd] at he
      rcases he with rfl | rfl <;> exact hl.elim
    | spill | saveAndUnuse =>
      rw [hd] at he
      cases e <;> first | exact he.elim | exact hl.elim
    | alloc =>
      rw [hd] at he
      cases e <;> first | exact he.elim | exact hl.elim | cases he.2
  have hg' : Agree live (s.holdings f) m (if d.directive = .unuse then update σ d.var none else σ) := by
    intro y x hl hx
    refine hg y x hl ?_
    split at hx
    · by_cases hy : y = d.var
      · simp [hy] at hx
      · rwa [update_of_ne hy] at hx
    · exact hx
  obtain ⟨m1, hexec, hg1⟩ := hg'.run hc hp hr hother hlost
  exact ⟨m1, m1, hexec, by simp [machineStep, hk], hg1.retire hc1 hp1 hrr⟩

theorem still_simulated {kind' : ItemKind} (hem : s.Emits id [] kind' s') (hh : s'.holdings f = s.holdings f)
    (hsrc : ∀ {σ : VarId → Option (BitVec w)} {mem : M}, sourceStep I id kind (σ, mem) = some ([], σ, mem))
    (hmach : ∀ {m : Place → BitVec w} {mem : M}, machineStep I own id kind' (m, mem) = some ([], m, mem)) :
    Simulated I own f id kind [] (Agree live (s.holdings f)) live s s' := by
  refine ⟨kind', hem, hh ▸ hc, hh ▸ hp, fun {m σ mem es σ' mem'} hg hs => ?_⟩
  cases hsrc ▸ hs
  exact ⟨m, m, rfl, hmach, hh ▸ hg.mono fun v hv => hv.1⟩

theorem target_simulated {t : TargetItem} (hreach : s.ctx.unreachable = false)
    (h : translateTarget id t false s = .ok next s') :
    Simulated I own f id (.target t) [] (Agree live (s.holdings f)) live s s' ∧ next = s'.items.next? id := by
  obtain ⟨g, item, t', -, hi, hk, rfl, hnext⟩ := translateTarget_first_ok hreach h
  have hem : s.Emits id [] (.target { t' with state := some (s.snapshot g) }) { s with
      items := s.items.modify id ({ · with kind := .target { t' with state := some (s.snapshot g) } }) } := by
    refine ⟨⟨rfl, rfl, .refl _⟩, rfl, by simp [size, ItemSeq.modify], fun hy => ?_, ?_⟩
    · exact get?_modify_of_ne _ (Ne.symm hy) _
    · rw [get?_modify_self, hi]
      rfl
  exact ⟨still_simulated hc hp hem rfl rfl rfl, hnext⟩

end

theorem emits_refl (hi : s.items.get? id = some item) (hk : item.kind = kind) : s.Emits id [] kind s :=
  ⟨.refl s, rfl, rfl, fun _ => rfl, by rw [hi, map_some, hk]⟩

/-- Every item of a straight line is simulated. -/
theorem translateKind_simulated {args : List VarId} (hk : kind.PreparedAs item.kind)
    (htr : item.translated = false) (hin : kind.Inside f ∨ kind = .functionEnd f)
    (ho : ∀ v ∈ kind.vars, s.Owns f v) (hown : own id = true) (hreach : s.ctx.unreachable = false)
    (hlive : ∀ v ∈ kind.touched args, live v) (hi : s.items.get? id = some item)
    (hc : Coherent (s.holdings f)) (hp : (s.holdings f).Apart)
    (hrun : sourceStep I id kind (σ, mem) = some (es, σ', mem'))
    (h : translateKind id item s = .ok next s') :
    (∃ code, Simulated I own f id kind code (Agree live (s.holdings f)) live s s') ∧
      (kind.Inside f → next = s'.items.next? id) ∧ (kind = .functionEnd f → next = none) := by
  cases kind with
  | instruction i =>
    obtain ⟨records, memVars, hcol, hk⟩ := hk
    simp only [translateKind, hk] at h
    obtain ⟨hsim, hnext⟩ := instruction_simulated hc hp hcol.toCollected ho hown hlive hi h
    exact ⟨hsim, fun _ => hnext, by rintro ⟨⟩⟩
  | hint d =>
    simp only [translateKind, show item.kind = .hint d from hk] at h
    obtain ⟨hsim, hnext⟩ := hint_simulated hc hp (ho d.var mem_cons_self) hi hk h
    exact ⟨hsim, fun _ => hnext, by rintro ⟨⟩⟩
  | target t =>
    simp only [translateKind, show item.kind = .target t from hk, htr] at h
    obtain ⟨hsim, hnext⟩ := target_simulated hc hp hreach h
    exact ⟨⟨[], hsim⟩, fun _ => hnext, by rintro ⟨⟩⟩
  | functionEnd g =>
    simp only [translateKind, show item.kind = .functionEnd g from hk] at h
    cases h
    exact ⟨⟨[], still_simulated hc hp (emits_refl hi hk) rfl rfl rfl⟩, fun h => h.elim, fun _ => rfl⟩
  | align | comment =>
    simp only [translateKind, show item.kind = _ from hk, bind_ok] at h
    obtain ⟨_, _, ⟨⟩, ⟨⟩⟩ := h
    exact ⟨⟨[], still_simulated hc hp (emits_refl hi hk) rfl rfl rfl⟩, fun _ => rfl, by rintro ⟨⟩⟩
  | function => exact (hin.elim (fun h => h) fun h => by cases h).elim
  | jump | call | ret | data => cases hrun

theorem function_simulated (hc : Coherent (s.holdings f))
    (hp : (s.holdings f).Apart) (hidle : s.Idle f) (hpass : s.Passes f record.args)
    (hfn : s.functions[f.index]? = some record) (hi : s.items.get? id = some item)
    (hk : item.kind = .function f) (h : translateFunction id f s = .ok next s') :
    Simulated I own f id (.function f) [] (s.Arrives record.args) live s s' ∧ next = s'.items.next? id := by
  simp only [translateFunction, bind_ok, getFunction_ok] at h
  obtain ⟨_, _, ⟨hfn', rfl⟩, _, t, h1, _, u, h2, _, _, ⟨⟩, ⟨⟩⟩ := h
  cases hfn ▸ hfn'
  have hrec := Session.Received.all hc hidle hpass h1
  have howns : ∀ v ∈ record.args, t.Owns f v := by
    intro v hv
    obtain ⟨x, -, hx, hf, -⟩ := hpass.arrives v hv
    exact hrec.moves.owns ⟨_, Session.holdings_vars_of_get? hx hf⟩
  have hret := (retireEach_moves h2 howns).mono
    fun e ⟨v, _, hl, he⟩ => (⟨v, hrec.moves.lastAt.mp hl, he⟩ : ∃ v, s.LastAt id v ∧ e.retires v)
  obtain ⟨code, hr, hem⟩ := hrec.moves.emits hi
  obtain rfl : code = [] := by
    have := hem.size
    rw [hrec.items, size_generateAll] at this
    exact eq_nil_of_length_eq_zero (by omega)
  obtain ⟨hem, hrr⟩ := hem.retire hret
  have hc1 := hc.run hr
  have hp1 := hp.run hr
  refine ⟨⟨_, hem, hc1.run hrr, hp1.run hrr, fun {m σ mem es σ' mem'} harr hsrc => ?_⟩, rfl⟩
  cases hsrc
  exact ⟨m, m, rfl, by simp [machineStep, hk], (hrec.agree hpass harr).retire hc1 hp1 hrr⟩

theorem runItems_generated (mark : Option Nat) {items : ItemSeq}
    (hown : ∀ id, own id = true → id.index < items.size) (hexec : Instruction.execAll code m = some m') :
    runItems (machineStep I own) (items.generateAll mark code) (items.newIds code.length) (m, mem) =
      some ([], m', mem) := by
  induction code generalizing items m with
  | nil =>
    cases hexec
    rfl
  | cons i code ih =>
    obtain ⟨m1, hi, hrest⟩ := bind_eq_some_iff.mp hexec
    have hsize : (⟨items.size⟩ : ItemId).index < (items.generate mark i).size := by simp
    have hnew : own ⟨items.size⟩ = false := Bool.eq_false_iff.mpr fun hn => Nat.lt_irrefl _ (hown _ hn)
    have hown' : ∀ id, own id = true → id.index < (items.generate mark i).size :=
      fun id h => Nat.lt_of_lt_of_le (hown id h) (by simp)
    have hrun := ih hown' hrest
    rw [length_cons, newIds_succ items mark i, generateAll_cons]
    simp only [runItems, get?_generateAll_of_lt mark code hsize, get?_generate_self,
      machineStep, hnew, hi, hrun, bind_eq_bind, bind_some, map_some,
      Bool.false_eq_true, if_false, nil_append]

end Step

/-- One of the items extends the life of the variable. -/
def Session.TouchedIn (s : Session) (args : List VarId) (items : List ItemId) (v : VarId) : Prop :=
  ∃ y ∈ items, s.Touched args y v

/-- The item was there before the compiler put others in. -/
def Session.hasItem (s : Session) (id : ItemId) : Bool := id.index < s.items.size

/-- A function is translated up to the items in `todo`; what was made of the items in `passed` are the
items in `done`. On the machine they have done what those in `passed` do on the variables, up to `R`. -/
structure Stage {w : Nat} {M : Type} (I : Meaning w M) (s prepared : Session) (f : FunctionId)
    (A C : List ItemId) (m₀ : Place → BitVec w) (σ₀ : VarId → Option (BitVec w)) (mem₀ : M)
    (R : (Place → BitVec w) → (VarId → Option (BitVec w)) → Prop) (passed todo done : List ItemId)
    (t : Session) : Prop where
  order : t.items.order = A ++ done ++ (todo ++ C)
  nodup : (A ++ done ++ (todo ++ C)).Nodup
  made : ∀ id ∈ A ++ done ++ (todo ++ C), id.index < t.items.size
  size : s.items.size ≤ t.items.size
  unchanged : ∀ id ∈ todo, t.items.get? id = prepared.items.get? id
  fixed : ∀ v, (t.vars.get? v).map Variable.fixed = (prepared.vars.get? v).map Variable.fixed
  reachable : t.ctx.unreachable = false
  pending : t.ctx.backwardCode = #[] ∧ t.ctx.forwardJumps = []
  coherent : Coherent (t.holdings f)
  apart : (t.holdings f).Apart
  agree : ∃ m σ mem es, runItems (sourceStep I) s.items passed (σ₀, mem₀) = some (es, σ, mem) ∧
    runItems (machineStep I s.hasItem) t.items done (m₀, mem₀) = some (es, m, mem) ∧ R m σ

namespace Stage
variable {prepared : Session}
variable {args : List VarId}
variable {mem₀ : M} {passed rest done : List ItemId} {id : ItemId}
variable {R : (Place → BitVec w) → (VarId → Option (BitVec w)) → Prop}

section
variable (h : Stage I s prepared f A C m₀ σ₀ mem₀ R passed (id :: rest) done t)
include h

theorem cut (item : Item) : (t.entering id item).items.Cut (A ++ done) (id :: (rest ++ C)) where
  order := h.order
  cursor := by
    have hn := h.nodup
    have hA : id ∉ A ++ done := fun hm => (nodup_append.mp hn).2.2 _ hm _ mem_cons_self rfl
    have hC : id ∉ rest ++ C := (nodup_cons.mp (nodup_append.mp hn).2.1).1
    change t.items.prev? id = _
    rw [prev?_eq_preceding, h.order]
    exact preceding_append hA hC
  nodup := h.nodup
  made := h.made

/-- One item is passed. -/
theorem advance {es : List (Event w)}
    (hi : t.items.get? id = some item) (hk : s.items.get? id = some { kind })
    (hsim : Simulated I s.hasItem f id kind code R (s.TouchedIn args (id :: rest)) (t.entering id item) u)
    (hrun : runItems (sourceStep I) s.items (passed ++ [id]) (σ₀, mem₀) = some (es, c))
    (hlast : ∀ y ∈ rest, ∀ v, s.Touched args y v → ¬ t.LastAt id v) :
    ∃ new, new.length = code.length ∧
      Stage I s prepared f A C m₀ σ₀ mem₀ (Agree (s.TouchedIn args rest) ((u.leaving id item).holdings f))
        (passed ++ [id]) rest (done ++ new ++ [id]) (u.leaving id item) ∧
      u.items.next? id = (rest ++ C).head? := by
  obtain ⟨kind', hem, hc, hp, hsim⟩ := hsim
  have hcut := (h.cut item).generateAll (t.entering id item).mark code
  generalize hnew : (t.entering id item).items.newIds code.length = new at hcut
  obtain ⟨m, σ, mem, es0, hsrc, hmach, hg⟩ := h.agree
  obtain ⟨e1, e2, ⟨σ1, mem1⟩, h1, h2, rfl⟩ := runItems_append_ok.mp hrun
  cases hsrc ▸ h1
  simp only [runItems, hk, bind_eq_bind, bind_some, bind_eq_some_iff] at h2
  obtain ⟨⟨e, σ', mem'⟩, hstep, h2⟩ := h2
  cases h2
  obtain ⟨m1, m', hexec, hmstep, hg'⟩ := hsim hg hstep
  have hold : ∀ y ∈ A ++ done, y ≠ id ∧ y.index < t.items.size := by
    intro y hy
    have hn := h.nodup
    exact ⟨fun e => (nodup_append.mp hn).2.2 _ hy _ mem_cons_self e, h.made y (mem_append_left _ hy)⟩
  have hframe : (t.entering id item).Frame (u.leaving id item) := hem.toFrame.trans (u.leaving_frame id item)
  have hsize : (u.leaving id item).items.size = t.items.size + code.length := by
    rw [u.leaving_size, hem.size, size_generateAll]
    rfl
  have hlist : A ++ (done ++ new ++ [id]) ++ (rest ++ C) = A ++ done ++ new ++ (id :: (rest ++ C)) := by simp
  have hkind : ∀ y, y ≠ id → (u.leaving id item).items.get? y =
      ((t.entering id item).items.generateAll (t.entering id item).mark code).get? y :=
    fun y hy => (u.leaving_get? id item hy).trans (hem.others hy)
  have hrest : ∀ y, y ≠ id → y.index < t.items.size → (u.leaving id item).items.get? y = t.items.get? y :=
    fun y hy hlt => (hkind y hy).trans (get?_generateAll_of_lt _ code hlt)
  refine ⟨new, by simp [← hnew, newIds], ⟨?_, ?_, ?_, ?_, ?_, ?_, ?_, ?_, ?_, ?_, m', σ', mem', _, hrun, ?_, ?_⟩, ?_⟩
  · rw [hlist, u.leaving_order, hem.order, hcut.order]
  · rw [hlist]
    exact hcut.nodup
  · rw [hlist, hsize]
    intro y hy
    have := hcut.made y hy
    rwa [size_generateAll] at this
  · rw [hsize]
    exact Nat.le_trans h.size (Nat.le_add_right _ _)
  · intro y hy
    have hn := (nodup_cons.mp (nodup_append.mp (h.cut item).nodup).2.1).1
    have hyid : y ≠ id := fun e => hn (e ▸ mem_append_left _ hy)
    rw [hrest y hyid (h.made y (by simp [hy]))]
    exact h.unchanged y (mem_cons_of_mem _ hy)
  · exact fun v => (hframe.fixed v).trans (h.fixed v)
  · rw [hframe.ctx]
    exact h.reachable
  · rw [hframe.ctx]
    exact h.pending
  · rwa [u.leaving_holdings]
  · rwa [u.leaving_holdings]
  · have hdone : runItems (machineStep I s.hasItem) (u.leaving id item).items done (m₀, mem₀) = some (es0, m, mem) := by
      rw [← hmach]
      refine runItems_congr fun y hy => ?_
      obtain ⟨hyid, hlt⟩ := hold y (mem_append_right _ hy)
      rw [hrest y hyid hlt]
    have hgen : runItems (machineStep I s.hasItem) (u.leaving id item).items new (m, mem) = some ([], m1, mem) := by
      have hnewer : ∀ y, s.hasItem y = true → y.index < (t.entering id item).items.size :=
        fun y hy => Nat.lt_of_lt_of_le (of_decide_eq_true hy) h.size
      rw [← runItems_generated (t.entering id item).mark hnewer hexec, hnew]
      refine runItems_congr fun y hy => ?_
      rw [hkind y]
      rintro rfl
      have hn := (nodup_append.mp hcut.nodup).2.2
      exact hn y (mem_append_right _ hy) y mem_cons_self rfl
    have hlast : runItems (machineStep I s.hasItem) (u.leaving id item).items [id] (m1, mem) = some (e, m', mem') := by
      obtain ⟨it, hit, hik⟩ := map_eq_some_iff.mp ((u.leaving_kind id item).trans hem.kindEq)
      simp only [runItems, hit, hik, hmstep, bind_eq_bind, bind_some, append_nil]
    have := runItems_append (runItems_append hdone hgen) hlast
    simpa using this
  · rw [u.leaving_holdings]
    refine hg'.mono ?_
    rintro v ⟨y, hy, hv⟩
    exact ⟨⟨y, mem_cons_of_mem _ hy, hv⟩, hlast y hy v hv⟩
  · rw [next?_eq_following, hem.order, hcut.order]
    refine following_append fun hm => ?_
    exact (nodup_append.mp hcut.nodup).2.2 _ hm _ mem_cons_self rfl

end

end Stage

namespace Session.Ready
variable {prepared : Session}
variable {stop : ItemId} {body : List ItemId}
variable {mem₀ : M}
variable {passed rest done : List ItemId} {id : ItemId}

section
variable (h : s.Ready f record stop body) (hp : prepareFunction f record stop p s = .ok () prepared)
include h hp

theorem prepared_item (hid : id ∈ record.item :: (body ++ [stop])) (hk : s.items.get? id = some { kind }) :
    ∃ item, prepared.items.get? id = some item ∧ item.translated = false ∧ kind.PreparedAs item.kind := by
  obtain ⟨kind', o, hprep, hi, -⟩ := (h.walked hp).done hid hk
  exact ⟨_, hi, rfl, hprep⟩

theorem not_last (hL : passed ++ id :: rest = record.item :: (body ++ [stop])) (hy : y ∈ rest)
    (ht : s.Touched record.args y v) : ¬ prepared.LastAt id v := by
  intro hl
  have hn := h.nodup_items
  rw [← hL] at hn
  obtain ⟨x, first, last, hx, -, hlast, hlife⟩ := h.life hp (hL ▸ by simp [hy]) ht
  rw [LastAt, hx, bind_some, hlast] at hl
  cases hl
  have hle := (hlife.covers y (hL ▸ by simp [hy]) ht).2
  obtain ⟨-, hn2, hdisj⟩ := nodup_append.mp hn
  have hid : id ∉ passed := fun hm => hdisj _ hm _ mem_cons_self rfl
  have hyp : y ∉ passed := fun hm => hdisj _ hm _ (mem_cons_of_mem _ hy) rfl
  have hne : y ≠ id := fun e => (nodup_cons.mp hn2).1 (e ▸ hy)
  rw [← hL, idxOf_append_of_notMem hid, idxOf_append_of_notMem hyp, idxOf_cons_self, idxOf_cons_ne _ hne.symm] at hle
  omega

end

theorem stage (I : Meaning w M) (mem₀ : M) (h : s.Ready f record stop body)
    (hp : prepareFunction f record stop p s = .ok () prepared) (harr : prepared.Arrives record.args m₀ σ₀) :
    ∃ A C, Stage I s prepared f A C m₀ σ₀ mem₀ (prepared.Arrives record.args) []
      (record.item :: (body ++ [stop])) [] prepared.activated := by
  obtain ⟨A, C, ho⟩ := h.order
  have hw := h.walked hp
  obtain ⟨hc, hapart, -⟩ := h.prepared hp
  have hlist : A ++ [] ++ (record.item :: (body ++ [stop]) ++ C) = s.items.order := by simp [ho]
  have hctx := hw.ctx
  refine ⟨A, C, ?_, ?_, ?_, ?_, fun _ _ => rfl, fun _ => rfl, ?_, ⟨?_, ?_⟩, hc, hapart, m₀, σ₀, mem₀, [], rfl, rfl, harr⟩
  · exact hw.order.1.trans hlist.symm
  · rw [hlist]
    exact h.nodup
  · rw [hlist]
    exact fun y hy => lt_of_lt_of_eq (h.made y hy) hw.order.2.symm
  · exact Nat.le_of_eq hw.order.2.symm
  · exact (congrArg Context.unreachable hctx :)
  · exact (congrArg Context.backwardCode hctx :)
  · exact (congrArg Context.forwardJumps hctx :)

section
variable (h : s.Ready f record stop body)
include h

theorem enter (hp : prepareFunction f record stop p s = .ok () prepared)
    (hst : Stage I s prepared f A C m₀ σ₀ mem₀ (prepared.Arrives record.args) []
      (record.item :: (body ++ [stop])) [] prepared.activated)
    (ht : translateItem record.item prepared.activated = .ok next t) :
    Stage I s prepared f A C m₀ σ₀ mem₀ (Agree (s.TouchedIn record.args (body ++ [stop])) (t.holdings f))
      [record.item] (body ++ [stop]) [record.item] t ∧ next = (body ++ [stop]).head? := by
  obtain ⟨hc, hapart, hidle⟩ := h.prepared hp
  obtain ⟨item, hi, -, hk⟩ := h.prepared_item hp mem_cons_self h.opens
  obtain ⟨item', u, hi', -, hkind, rfl⟩ := translateItem_ok ht
  cases hi ▸ hi'
  simp only [translateKind, show item.kind = .function f from hk] at hkind
  have hfn : prepared.functions[f.index]? = some record := (h.walked hp).functionsEq ▸ h.function
  have hpass := h.passes_prepared hp
  obtain ⟨hsim, hnext⟩ : Simulated I s.hasItem f record.item (.function f) [] (prepared.Arrives record.args)
      (s.TouchedIn record.args (record.item :: (body ++ [stop]))) (prepared.activated.entering record.item item) u ∧
      next = u.items.next? record.item :=
    function_simulated hc hapart hidle ⟨hpass.nodup, hpass.arrives, hpass.distinct, hpass.others⟩ hfn hi hk hkind
  obtain ⟨new, hnew, hst', hnext'⟩ := hst.advance hi h.opens hsim (by simp only [nil_append, runItems, h.opens]; rfl)
    fun y hy v hv => h.not_last hp (nil_append _) hy hv
  cases length_eq_zero_iff.mp hnew
  refine ⟨hst', hnext.trans (hnext'.trans ?_)⟩
  cases body <;> rfl

/-- An item of the body, or the closing item, is passed. -/
theorem step {es : List (Event w)}
    (hp : prepareFunction f record stop p s = .ok () prepared)
    (hst : Stage I s prepared f A C m₀ σ₀ mem₀ (Agree (s.TouchedIn record.args (id :: rest)) (t.holdings f))
      (record.item :: passed) (id :: rest) done t)
    (hL : passed ++ id :: rest = body ++ [stop])
    (hrun : runItems (sourceStep I) s.items (record.item :: (body ++ [stop])) (σ₀, mem₀) = some (es, c))
    (ht : translateItem id t = .ok next t') :
    ∃ new, Stage I s prepared f A C m₀ σ₀ mem₀ (Agree (s.TouchedIn record.args rest) (t'.holdings f))
        (record.item :: (passed ++ [id])) rest (done ++ new ++ [id]) t' ∧
      next = rest.head? ∧ (rest = [] → id = stop) := by
  have hL' : (record.item :: passed) ++ id :: rest = record.item :: (body ++ [stop]) := by simp [hL]
  have hmem : id ∈ record.item :: (body ++ [stop]) := hL' ▸ by simp
  -- only the closing item has no item behind it
  have hpos : (id ∈ body ∧ ∃ y rest', rest = y :: rest') ∨ (id = stop ∧ rest = []) := by
    rcases eq_nil_or_concat rest with rfl | ⟨init, y, rfl⟩
    · exact .inr ⟨(append_inj' hL rfl).2 |> cons.inj |>.1, rfl⟩
    left
    have hL2 : (passed ++ id :: init) ++ [y] = body ++ [stop] := by simpa using hL
    have hinit : passed ++ id :: init = body := (append_inj' hL2 rfl).1
    refine ⟨hinit ▸ by simp, ?_⟩
    cases init with
    | nil => exact ⟨y, [], rfl⟩
    | cons z init => exact ⟨z, _, rfl⟩
  obtain ⟨kind, hk, hin, hvars⟩ : ∃ kind, s.items.get? id = some { kind } ∧
      (kind.Inside f ∧ id ∈ body ∨ kind = .functionEnd f ∧ id = stop) ∧ ∀ v ∈ kind.vars, s.IsVarOf f v := by
    rcases hpos with ⟨hb, -⟩ | ⟨rfl, -⟩
    · obtain ⟨kind, hk, hin, hv⟩ := h.inside id hb
      exact ⟨kind, hk, .inl ⟨hin, hb⟩, hv⟩
    · exact ⟨_, h.closes, .inr ⟨rfl, rfl⟩, by rintro _ ⟨⟩⟩
  obtain ⟨item, hi, htr, hprep⟩ := h.prepared_item hp hmem hk
  have hti : t.items.get? id = some item := (hst.unchanged id mem_cons_self).trans hi
  obtain ⟨item', u, hi', -, hkind, rfl⟩ := translateItem_ok ht
  cases hti ▸ hi'
  rw [← hL'] at hrun
  obtain ⟨e1, e2, c1, hr1, hr2, rfl⟩ := runItems_append_ok.mp hrun
  obtain ⟨e3, e4, c3, hr3, hr4, rfl⟩ := runItems_append_ok.mp (show runItems _ _ ([id] ++ rest) c1 = _ from hr2)
  obtain ⟨⟨e, σ', mem'⟩, hstep⟩ : ∃ r, sourceStep I id kind c1 = some r := by
    simp only [runItems, hk, bind_eq_bind, bind_some, bind_eq_some_iff] at hr3
    obtain ⟨r, hr, -⟩ := hr3
    exact ⟨r, hr⟩
  have howns : ∀ v ∈ kind.vars, t.Owns f v := by
    intro v hv
    obtain ⟨x, hx, hf⟩ := map_eq_some_iff.mp (hvars v hv)
    obtain ⟨x', hx', hf', -⟩ := (h.walked hp).vars hx
    have hrange := hst.fixed v
    rw [hx', map_some] at hrange
    obtain ⟨y, hy, hyr⟩ := map_eq_some_iff.mp hrange
    exact ⟨_, holdings_vars_of_get? hy ((Variable.function_eq hyr).trans (hf'.trans hf))⟩
  have hown : s.hasItem id = true := by
    obtain ⟨A', C', ho⟩ := h.order
    refine decide_eq_true (h.made id ?_)
    rw [ho, ← singleton_append (l := C'), ← append_assoc]
    exact mem_append_right _ (mem_append_left _ hmem)
  have hlive : ∀ v ∈ kind.touched record.args, s.TouchedIn record.args (id :: rest) v :=
    fun v hv => ⟨id, mem_cons_self, _, hk, hv⟩
  obtain ⟨⟨code, hsim⟩, hinside, hclose⟩ := translateKind_simulated (s := t.entering id item) hprep htr
    (hin.imp And.left And.left) howns hown hst.reachable hlive hti hst.coherent hst.apart hstep hkind
  obtain ⟨new, -, hst', hnext⟩ := hst.advance hti hk hsim (runItems_append hr1 hr3) fun y hy v hv hl =>
    h.not_last hp hL' hy hv ((lastAt_congr (hst.fixed v)).mp hl)
  refine ⟨new, hst', ?_, fun hr => by simpa [hr] using hpos⟩
  rcases hpos with ⟨hb, y, rest', rfl⟩ | ⟨rfl, rfl⟩
  · have hin : kind.Inside f := by
      obtain ⟨kind', hk', hin, -⟩ := h.inside id hb
      cases hk ▸ hk'
      exact hin
    exact (hinside hin).trans hnext
  · cases hk ▸ h.closes
    exact hclose rfl

section
variable (hp : Build.prepareFunction f record stop p s = .ok () prepared)
include hp

/-- All the items to do are passed. -/
theorem walk {es : List (Event w)} {todo : List ItemId} {fuel : Nat}
    (hrun : runItems (sourceStep I) s.items (record.item :: (body ++ [stop])) (σ₀, mem₀) = some (es, c))
    (hst : Stage I s prepared f A C m₀ σ₀ mem₀ (Agree (s.TouchedIn record.args todo) (t.holdings f))
      (record.item :: passed) todo done t)
    (hL : passed ++ todo = body ++ [stop]) (hhead : done.head? = some record.item)
    (hend : todo = [] → done.getLast? = some stop)
    (ht : translateFrom fuel todo.head? t = .ok u t') :
    ∃ done', Stage I s prepared f A C m₀ σ₀ mem₀ (Agree (s.TouchedIn record.args []) (t'.holdings f))
        (record.item :: (body ++ [stop])) [] done' t' ∧
      done'.head? = some record.item ∧ done'.getLast? = some stop := by
  induction todo generalizing fuel t passed done with
  | nil =>
    cases fuel with
    | zero => exact (throw_ok.mp ht).elim
    | succ fuel =>
      simp only [translateFrom, head?_nil, bind_ok] at ht
      obtain ⟨_, _, ⟨⟩, ht⟩ := ht
      simp only [hst.pending.1, Array.getElem?_empty] at ht
      cases ht
      rw [append_nil] at hL
      exact ⟨done, hL ▸ hst, hhead, hend rfl⟩
  | cons id rest ih =>
    cases fuel with
    | zero => exact (throw_ok.mp ht).elim
    | succ fuel =>
      simp only [translateFrom, head?_cons, bind_ok] at ht
      obtain ⟨next, t1, ht1, ht⟩ := ht
      obtain ⟨new, hst', rfl, hlast⟩ := h.step hp hst hL hrun ht1
      refine ih hst' (by simpa using hL) ?_ (fun hr => ?_) ht
      · rw [append_assoc, head?_append, hhead]
        rfl
      · rw [getLast?_append, hlast hr]
        rfl

theorem translated {es : List (Event w)} (harr : s.Arrives record.args m₀ σ₀)
    (hrun : runItems (sourceStep I) s.items (record.item :: (body ++ [stop])) (σ₀, mem₀) = some (es, c))
    (ht : translateAll record.item prepared = .ok () t') :
    ∃ A C done t, Stage I s prepared f A C m₀ σ₀ mem₀ (Agree (s.TouchedIn record.args []) (t.holdings f))
        (record.item :: (body ++ [stop])) [] done t ∧
      t'.items = t.items ∧ done.head? = some record.item ∧ done.getLast? = some stop := by
  simp only [translateAll, bind_ok, modifyContext_ok] at ht
  obtain ⟨_, _, rfl, _, _, ⟨⟩, _, t, hwalk, _, _, ⟨⟩, _, t1, hrec, rfl⟩ := ht
  obtain ⟨A, C, hst⟩ := h.stage I mem₀ hp (h.arrives_prepared hp harr)
  simp only [translateFrom, bind_ok] at hwalk
  obtain ⟨next, t2, hitem, hwalk⟩ := hwalk
  obtain ⟨hst, rfl⟩ := h.enter hp hst hitem
  obtain ⟨done, hst, hhead, hlast⟩ := h.walk hp hrun hst rfl rfl (by simp) hwalk
  rw [hst.pending.2] at hrec
  cases hrec
  exact ⟨A, C, done, t, hst, rfl, hhead, hlast⟩

end

end

end Session.Ready

namespace Build
variable {stop : ItemId} {body : List ItemId}

/-- Code generation keeps the meaning of a function that control only falls through. Whatever the opcodes
mean, and whatever values arrive for the arguments, the code that it gets sees the same operands and has the
same results at every instruction of the function, and leaves the same memory, as the function has on a store
of variables. -/
theorem translateAll_preserves_events (I : Meaning w M) {m₀ : Place → BitVec w}
    {σ₀ σ : VarId → Option (BitVec w)} {mem₀ mem : M} {es : List (Event w)} (hs : s.Ready f record stop body)
    (hp : prepareFunction f record stop p s = .ok () t) (ht : translateAll record.item t = .ok () t')
    (harr : s.Arrives record.args m₀ σ₀)
    (hrun : runItems (sourceStep I) s.items (s.items.range record.item stop) (σ₀, mem₀) = some (es, σ, mem)) :
    ∃ m, runItems (machineStep I s.hasItem) t'.items (t'.items.range record.item stop) (m₀, mem₀) =
      some (es, m, mem) := by
  rw [hs.range_eq] at hrun
  obtain ⟨A, C, done, t₁, hst, hitems, hhead, hlast⟩ := hs.translated hp harr hrun ht
  obtain ⟨m, σ', mem', es', hsrc, hmach, -⟩ := hst.agree
  cases hrun.symm.trans hsrc
  have ho : t₁.items.order = A ++ (done ++ C) := by rw [hst.order, List.nil_append, List.append_assoc]
  have hn : t₁.items.order.Nodup := by
    rw [hst.order]
    exact hst.nodup
  rw [hitems, ItemSeq.range_eq ho hn hhead hlast]
  exact ⟨m, hmach⟩

/-- A value goes to its home and back before it is added to the argument. -/
def spilled : List Builder.Call :=
  let a : VarRef := ⟨⟨0⟩, 8⟩
  let b : VarRef := ⟨⟨1⟩, 8⟩
  [.newFunction [.gpq] [] {}, .newVar .gpq, .emit .mov [.var b, .var a], .hint b .spill none,
    .emit .add [.var a, .var b], .endFunction]

/-- Both instructions see and write on the machine what they see and write on the variables, here with a
machine whose places all hold 7 and opcodes that make 1. -/
theorem translateAll_preserves_events_spilled : ∃ s t t' record stop, ∃ p : Prototype, ∃ m es,
    prepareFunction ⟨0⟩ record stop p s = .ok () t ∧ translateAll record.item t = .ok () t' ∧
    es.length = 2 ∧ runItems (w := 8) (machineStep (fun _ _ mem => (fun _ => 1, mem)) s.hasItem) t'.items
      (t'.items.range record.item stop) (fun _ => 7, ()) = some (es, m, ()) := by
  let I : Meaning 8 Unit := fun _ _ mem => (fun _ => 1, mem)
  let σ₀ : List VarId → VarId → Option (BitVec 8) := fun args id => if id ∈ args then some 7 else none
  obtain ⟨⟨s, record, stop, p, t⟩, hq, hd⟩ := Option.any_eq_true _ _ |>.mp
    (show (Builder.prepareFirst spilled).any (fun q =>
      (match translateAll q.record.item q.after with
        | .ok _ _ => true
        | .error _ _ => false) &&
      (runItems (sourceStep I) q.before.items (q.before.items.range q.record.item q.stop)
        (σ₀ q.record.args, ())).any fun r => r.1.length == 2) = true by decide +kernel)
  obtain ⟨hp, body, hs⟩ := Builder.prepareFirst_ok hq
  obtain ⟨ht, hd⟩ := Bool.and_eq_true_iff.mp hd
  obtain ⟨⟨es, σ, mem⟩, hrun, hlen⟩ := Option.any_eq_true _ _ |>.mp hd
  have harr : s.Arrives record.args (fun _ => 7) (σ₀ record.args) := by
    intro id x hx
    obtain ⟨hid, hx⟩ := Option.ite_none_right_eq_some.mp hx
    obtain ⟨v, q, hv, -, ha, -⟩ := hs.passes.arrives id hid
    exact ⟨hid, v, q, hv, ha, Option.some.inj hx⟩
  cases ht' : translateAll record.item t with
  | error e u => simp [ht'] at ht
  | ok n t' =>
    obtain ⟨m, hm⟩ := translateAll_preserves_events I hs hp ht' harr hrun
    exact ⟨s, t, t', record, stop, p, m, es, hp, ht', eq_of_beq hlen, hm⟩

end Build

end Codegen
