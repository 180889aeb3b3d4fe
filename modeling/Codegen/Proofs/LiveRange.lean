import Codegen.Proofs.Building
import Codegen.Proofs.Preparation

/-! Live ranges. The first walk gives every variable an interval of the text that holds all items that
touch it, and that a jump back cannot leave once its target is inside. -/
namespace Codegen
open List Build ItemSeq Option
variable {item : Item} {calls : List Call} {o : Operand}

namespace ItemKind

theorem registerVars_subset (h : v ∈ o.registerVars) : v ∈ o.vars := by
  cases o with
  | var x => exact h
  | mem m => exact mem_append_left _ h
  | reg | imm | label => cases h

theorem var?_subset (h : o.var? = some v) : v ∈ o.vars := by
  cases o with
  | var x => exact mem_singleton.mpr (some.inj h).symm
  | _ => cases h

theorem vars_of_call
    (h : v ∈ c.args.filterMap Operand.var? ++ c.target.registerVars ++ c.returns) : v ∈ (call c).vars := by
  rcases mem_append.mp h with h | h
  · refine mem_append_left _ (mem_flatMap.mpr ?_)
    rcases mem_append.mp h with h | h
    · obtain ⟨o, ho, hv⟩ := mem_filterMap.mp h
      exact ⟨o, mem_append_left _ ho, var?_subset hv⟩
    · exact ⟨c.target, mem_append_right _ mem_cons_self, registerVars_subset h⟩
  · exact mem_append_right _ h

theorem vars_of_touched {kind : ItemKind} (hin : kind.Inside f) (h : v ∈ kind.touched args) : v ∈ kind.vars := by
  cases kind with
  | instruction | hint => exact h
  | function => exact hin.elim
  | ret r =>
    obtain ⟨o, ho, hv⟩ := mem_filterMap.mp h
    exact mem_flatMap.mpr ⟨o, ho, var?_subset hv⟩
  | call c =>
    rcases mem_append.mp h with h | h
    · obtain ⟨o, ho, hv⟩ := mem_flatMap.mp h
      exact mem_append_left _ (mem_flatMap.mpr ⟨o, ho, registerVars_subset hv⟩)
    · exact mem_append_right _ h
  | _ => cases h

end ItemKind

namespace Session
variable {s : Session} {args : List VarId} {id : ItemId}

/-- The item extends the life of the variable. -/
def Touched (s : Session) (args : List VarId) (y : ItemId) (v : VarId) : Prop :=
  ∃ item, s.items.get? y = some item ∧ v ∈ item.kind.touched args

/-- The item is a jump to the target. -/
def JumpsTo (s : Session) (jump target : ItemId) : Prop :=
  ∃ item j, s.items.get? jump = some item ∧ item.kind = .jump j ∧
    s.labels[j.target.index]? = some target

instance (s : Session) (jump target : ItemId) : Decidable (s.JumpsTo jump target) :=
  decidable_of_iff ((s.items.get? jump).any fun item =>
      match item.kind with
      | .jump j => s.labels[j.target.index]? = some target
      | _ => false) (by
    simp only [JumpsTo, Option.any_eq_true]
    refine exists_congr fun item => ?_
    cases item.kind <;> simp)

/-- The number of an item. -/
def offset (s : Session) (y : ItemId) : Nat := (s.items.offset? y).getD 0

/-- A variable lives from item `a` to item `b` of those in `P`. -/
structure Life (s t : Session) (args : List VarId) (P : List ItemId) (v : VarId) (a b : ItemId) :
    Prop where
  first_mem : a ∈ P
  last_mem : b ∈ P
  active : v ∈ t.vars.active
  covers : ∀ y ∈ P, s.Touched args y v → P.idxOf a ≤ P.idxOf y ∧ P.idxOf y ≤ P.idxOf b
  loops : ∀ J ∈ P, ∀ T ∈ P, s.JumpsTo J T → P.idxOf T ≤ P.idxOf J →
    t.offset a ≤ t.offset T → t.offset T ≤ t.offset b → P.idxOf J ≤ P.idxOf b

/-- The variable has not been met yet, or lives between two of the items in `P`. -/
def Lives (s t : Session) (args : List VarId) (P : List ItemId) (v : VarId) (x : Variable) : Prop :=
  (x.firstItem = none ∧ x.lastItem = none ∧ ∀ y ∈ P, ¬ s.Touched args y v) ∨
    ∃ a b, x.firstItem = some a ∧ x.lastItem = some b ∧ s.Life t args P v a b

/-- The first walk has led from one session to another over the items in `P`. -/
structure Walked (f : FunctionId) (args : List VarId) (P : List ItemId) (s t : Session) : Prop where
  ctx : t.ctx = { s.ctx with
    currentOffset := t.ctx.currentOffset
    slots := t.ctx.slots, isCaller := t.ctx.isCaller, callStackSize := t.ctx.callStackSize }
  rest : t = { s with items := t.items, vars := t.vars, ctx := t.ctx }
  order : t.items.order = s.items.order ∧ t.items.size = s.items.size
  others : ∀ {id}, id ∉ P → t.items.get? id = s.items.get? id
  done : ∀ {id item}, id ∈ P → s.items.get? id = some item → ∃ kind' o, item.kind.PreparedAs kind' ∧
    t.items.get? id = some { item with kind := kind', offset := some o } ∧ o + item.kind.width ≤ t.ctx.currentOffset
  mono : ∀ x ∈ P, ∀ y ∈ P, P.idxOf x ≤ P.idxOf y → t.offset x ≤ t.offset y
  spaced : ∀ {x y item}, x ∈ P → y ∈ P → P.idxOf x < P.idxOf y → s.items.get? x = some item →
    t.offset x + item.kind.width ≤ t.offset y
  fits : ∀ {id item}, id ∈ P → s.items.get? id = some item → item.kind.Suits s
  size : t.vars.size = s.vars.size
  vars : ∀ {v x}, s.vars.get? v = some x → ∃ x', t.vars.get? v = some x' ∧ x'.function = x.function ∧
    (∀ {p}, x.arrival = some p → x'.arrival = some p) ∧ (x.function = f → s.Lives t args P v x')
  given : ∀ {v x}, s.vars.get? v = some x → ∃ x', t.vars.get? v = some x' ∧ x'.given = x.given
  owned : ∀ {v}, v ∈ t.vars.active → v ∈ s.vars.active ∨ t.Owns f v
  spares : s.vars.active = [] → s.vars.Spares f t.vars
  run : ∃ c, Run Effect.acquires (s.holdings f) c (t.holdings f)

theorem Walked.refl (hv : ∀ {v x}, s.vars.get? v = some x → x.function = f →
    x.firstItem = none ∧ x.lastItem = none) : s.Walked f args [] s where
  ctx := rfl
  rest := rfl
  order := ⟨rfl, rfl⟩
  others _ := rfl
  done h := absurd h not_mem_nil
  mono := by simp
  spaced h := absurd h not_mem_nil
  fits h := absurd h not_mem_nil
  size := rfl
  vars hx := ⟨_, hx, rfl, id, fun hf => .inl ⟨(hv hx hf).1, (hv hx hf).2, by simp⟩⟩
  given hx := ⟨_, hx, rfl⟩
  owned := .inl
  spares _ := .refl _
  run := ⟨[], .refl _⟩

namespace Walked

section
variable (h : s.Walked f args P t)
include h

theorem functionEq : t.ctx.function = s.ctx.function := by rw [h.ctx]

theorem labelsEq : t.labels = s.labels := (congrArg labels h.rest :)

theorem functionsEq : t.functions = s.functions := (congrArg functions h.rest :)

theorem offset_le (hy : y ∈ P)
    (hi : s.items.get? y = some item) : t.offset y + item.kind.width ≤ t.ctx.currentOffset := by
  obtain ⟨kind, o, -, ht, ho⟩ := h.done hy hi
  simpa [offset, offset?, ht] using ho

end

end Walked

theorem mem_concat : y ∈ P ++ [id] ↔ y ∈ P ∨ y = id := mem_append.trans (or_congr_right mem_singleton)

theorem idxOf_concat_le (hid : id ∉ P) (hy : y ∈ P ++ [id]) : (P ++ [id]).idxOf y ≤ (P ++ [id]).idxOf id := by
  have h1 : (P ++ [id]).idxOf id = P.length := by
    rw [idxOf_append_of_notMem hid]
    simp
  have h2 := idxOf_lt_length_of_mem hy
  simp only [length_append, length_singleton] at h2
  omega

theorem Life.reach (hid : id ∉ P) (ha : a ∈ P ++ [id]) (hact : v ∈ t.vars.active)
    (hc : ∀ y ∈ P, s.Touched args y v → (P ++ [id]).idxOf a ≤ (P ++ [id]).idxOf y) :
    s.Life t args (P ++ [id]) v a id where
  first_mem := ha
  last_mem := by simp
  active := hact
  covers y hy ht := by
    refine ⟨?_, idxOf_concat_le hid hy⟩
    rcases mem_concat.mp hy with hy | rfl
    · exact hc y hy ht
    · exact idxOf_concat_le hid ha
  loops J hJ _ _ _ _ _ _ := idxOf_concat_le hid hJ

namespace Walked

theorem step (h : s.Walked f args P t) (hid : id ∉ P)
    (hall : ∀ y ∈ P, ∃ item, s.items.get? y = some item) (hi : s.items.get? id = some item)
    (hp : t.Prepares f args id item.kind t') : s.Walked f args (P ++ [id]) t' := by
  obtain ⟨kind', hkind, hitems⟩ := hp.items
  have hti : t.items.get? id = some item := (h.others hid).trans hi
  have hself : t'.items.get? id = some { item with kind := kind', offset := some t.ctx.currentOffset } := by
    rw [hitems, get?_modify_self, hti]
    rfl
  have hother : ∀ {y}, y ≠ id → t'.items.get? y = t.items.get? y := by
    intro y hy
    rw [hitems, get?_modify_of_ne _ (Ne.symm hy)]
  have hne : ∀ {y}, y ∈ P → y ≠ id := fun hy e => hid (e ▸ hy)
  have hoff : ∀ {y}, y ∈ P → t'.offset y = t.offset y := by
    intro y hy
    simp only [offset, offset?, hother (hne hy)]
  have hoffid : t'.offset id = t.ctx.currentOffset := by simp [offset, offset?, hself]
  have hcur : t.ctx.currentOffset ≤ t'.ctx.currentOffset := by
    rw [hp.ctx]
    exact Nat.le_add_right _ _
  have hsome : ∀ {y}, y ∈ P ++ [id] → t'.items.offset? y = some (t'.offset y) := by
    intro y hy
    rcases mem_concat.mp hy with hy | rfl
    · obtain ⟨it, hit⟩ := hall y hy
      obtain ⟨k, o, -, ht, -⟩ := h.done hy hit
      simp [offset, offset?, hother (hne hy), ht]
    · simp [offset, offset?, hself]
  have hidx : ∀ {y}, y ∈ P → (P ++ [id]).idxOf y = P.idxOf y := idxOf_append_of_mem
  have hlt : ∀ {y}, (P ++ [id]).idxOf y < P.length → y ∈ P := by
    intro y hy
    by_contra hn
    rw [idxOf_append_of_notMem hn] at hy
    omega
  have hlast : (P ++ [id]).idxOf id = P.length := by
    rw [idxOf_append_of_notMem hid]
    simp
  have hfits : ∀ {y it}, y ∈ P ++ [id] → s.items.get? y = some it → it.kind.Suits s := by
    intro y it hy hit i k ref n x hk ho hn hx
    rcases mem_concat.mp hy with hy | rfl
    · exact h.fits hy hit i k ref n x hk ho hn hx
    cases hi ▸ hit
    obtain ⟨x', hx', hg⟩ := h.given hx
    exact (congrArg (·.2.1) hg :).symm.trans (hp.fits i k ref n x' hk ho hn hx')
  refine ⟨?_, ?_, ?_, ?_, ?_, ?_, ?_, hfits, hp.size.trans h.size, ?_, ?_, ?_, ?_, ?_⟩
  · rw [hp.ctx, h.ctx]
  · rw [hp.rest, h.rest]
  · rw [hitems]
    exact ⟨h.order.1, by simpa [ItemSeq.modify, ItemSeq.size] using h.order.2⟩
  · intro y hy
    obtain ⟨hy, hyid⟩ := not_or.mp (mt mem_append.mpr hy)
    exact (hother fun e => hyid (mem_singleton.mpr e)).trans (h.others hy)
  · intro y it hy hit
    rcases mem_concat.mp hy with hy | rfl
    · obtain ⟨k, o, hk, ht, ho⟩ := h.done hy hit
      exact ⟨k, o, hk, (hother (hne hy)).trans ht, Nat.le_trans ho hcur⟩
    cases hi ▸ hit
    exact ⟨kind', _, hkind, hself, Nat.le_of_eq (congrArg (·.currentOffset) hp.ctx).symm⟩
  · intro x hx y hy hxy
    have hle : ∀ {z}, z ∈ P → t'.offset z ≤ t.ctx.currentOffset := fun hz => by
      obtain ⟨it, hit⟩ := hall _ hz
      rw [hoff hz]
      exact Nat.le_trans (Nat.le_add_right _ _) (h.offset_le hz hit)
    rcases mem_concat.mp hx with hxP | rfl <;> rcases mem_concat.mp hy with hy | rfl
    · rw [hidx hxP, hidx hy] at hxy
      rw [hoff hxP, hoff hy]
      exact h.mono x hxP y hy hxy
    · rw [hoffid]
      exact hle hxP
    · have := idxOf_lt_length_of_mem hy
      rw [hlast, hidx hy] at hxy
      omega
    · exact Nat.le_refl _
  · intro x y it hx hy hxy hit
    have hxP : x ∈ P := hlt (Nat.lt_of_lt_of_le hxy (hlast ▸ idxOf_concat_le hid hy))
    rw [hoff hxP]
    rcases mem_concat.mp hy with hy | rfl
    · rw [hidx hxP, hidx hy] at hxy
      rw [hoff hy]
      exact h.spaced hxP hy hxy hit
    · rw [hoffid]
      exact h.offset_le hxP hit
  · intro v x hx
    obtain ⟨x1, hx1, hf1, ha1, hl1⟩ := h.vars hx
    obtain ⟨x2, hx2, hf2, ha2, hhit, hmiss, hjump⟩ := hp.vars hx1
    refine ⟨x2, hx2, (Variable.function_of_given hf2).trans hf1, fun hp => ha2 (ha1 hp), fun hxf => ?_⟩
    have hact : v ∈ t.vars.active ∨ v ∈ item.kind.touched args → v ∈ t'.vars.active := hp.active.mpr
    rcases hl1 hxf with ⟨hn1, hn2, hun⟩ | ⟨a, b, hfa, hlb, hlife⟩
    · by_cases ht : v ∈ item.kind.touched args
      · obtain ⟨h1, h2⟩ := hhit ht
        rw [hn1] at h1
        exact .inr ⟨id, id, h1, h2, .reach hid (by simp) (hact (.inr ht)) fun y hy hty => absurd hty (hun y hy)⟩
      obtain ⟨h1, h2⟩ := hmiss ht
      refine .inl ⟨h1.trans hn1, (h2.resolve_right fun h => h.1 hn2).trans hn2, fun y hy hty => ?_⟩
      rcases mem_concat.mp hy with hy | rfl
      · exact hun y hy hty
      obtain ⟨it, hit, hm⟩ := hty
      cases hi ▸ hit
      exact ht hm
    · have hreach : s.Life t' args (P ++ [id]) v a id := by
        refine .reach hid (mem_append_left _ hlife.first_mem) (hact (.inl hlife.active)) ?_
        intro y hy hty
        rw [hidx hlife.first_mem, hidx hy]
        exact (hlife.covers y hy hty).1
      have hfirst : x2.firstItem = some a := by
        by_cases ht : v ∈ item.kind.touched args
        · rw [(hhit ht).1, hfa]
          rfl
        · exact (hmiss ht).1.trans hfa
      by_cases hli : x2.lastItem = some id
      · exact .inr ⟨a, id, hfirst, hli, hreach⟩
      have ht : v ∉ item.kind.touched args := fun ht => hli (hhit ht).2
      have hlb2 : x2.lastItem = some b := ((hmiss ht).2.resolve_right fun h => hli h.2).trans hlb
      refine .inr ⟨a, b, hfirst, hlb2, mem_append_left _ hlife.first_mem,
        mem_append_left _ hlife.last_mem, hact (.inl hlife.active), ?_, ?_⟩
      · intro y hy hty
        rcases mem_concat.mp hy with hy | rfl
        · rw [hidx hlife.first_mem, hidx hlife.last_mem, hidx hy]
          exact hlife.covers y hy hty
        obtain ⟨it, hit, hm⟩ := hty
        cases hi ▸ hit
        exact absurd hm ht
      · intro J hJ T hT hJT hTJ haT hTb
        rcases mem_concat.mp hJ with hJ | rfl
        · have hT : T ∈ P := hlt (Nat.lt_of_le_of_lt hTJ (hidx hJ ▸ idxOf_lt_length_of_mem hJ))
          rw [hoff hlife.first_mem, hoff hT] at haT
          rw [hoff hT, hoff hlife.last_mem] at hTb
          rw [hidx hT, hidx hJ] at hTJ
          rw [hidx hJ, hidx hlife.last_mem]
          exact hlife.loops J hJ T hT hJT hTJ haT hTb
        · -- the jump itself would have stretched the life to it
          obtain ⟨it, j, hit, hkj, hlab⟩ := hJT
          cases hi ▸ hit
          refine absurd (hjump j T _ hkj (h.labelsEq ▸ hlab) (hsome hT) hlife.active ?_) hli
          refine ⟨t'.offset a, t'.offset b, ?_, ?_, haT, hTb⟩
          · rw [hfa]
            exact hsome (mem_append_left _ hlife.first_mem)
          · rw [hlb]
            exact hsome (mem_append_left _ hlife.last_mem)
  · intro v x hx
    obtain ⟨x1, hx1, hg1⟩ := h.given hx
    obtain ⟨x2, hx2, hg2, -⟩ := hp.vars hx1
    exact ⟨x2, hx2, hg2.trans hg1⟩
  · intro v hv
    have hown : t.Owns f v → t'.Owns f v := by
      rintro ⟨w, hw⟩
      obtain ⟨x, hx, hxf, -⟩ := holdings_vars.mp hw
      obtain ⟨x', hx', hxf', -⟩ := hp.vars hx
      exact ⟨_, holdings_vars_of_get? hx' ((Variable.function_of_given hxf').trans hxf)⟩
    rcases hp.active.mp hv with hv | hv
    · exact (h.owned hv).imp_right hown
    · exact .inr (hown (hp.owned v hv))
  · intro ha
    refine (h.spares ha).trans fun v x hx hf => ?_
    have hown : ¬ t.Owns f v := by
      rintro ⟨w, hw⟩
      obtain ⟨y, hy, hyf, -⟩ := holdings_vars.mp hw
      cases hx ▸ hy
      exact hf hyf
    refine (hp.others (fun hv => hown (hp.owned v hv)) fun hv => ?_).trans hx
    exact (h.owned hv).elim (fun hv => by rw [ha] at hv; cases hv) hown
  · obtain ⟨c, hr⟩ := h.run
    obtain ⟨c', hr'⟩ := hp.run
    exact ⟨c ++ c', hr.trans hr'⟩

end Walked

/-- The session in which the compilation of a function starts. -/
def begun (s : Session) (f : FunctionId) (record : FunctionRecord) (stop : ItemId) (p : Prototype) :
    Session :=
  { s with
    vars := s.vars.clearActive
    ctx :=
      { function := some f
        start := some record.item
        stop := some stop
        extraBlock := some stop
        preserved := p.preserved
        allocableRbp := record.hints.naked } }

namespace Ready
variable {record : FunctionRecord} {stop : ItemId} {body : List ItemId}

section
variable (h : s.Ready f record stop body)
include h

theorem nodup_items : (record.item :: (body ++ [stop])).Nodup := by
  obtain ⟨A, C, ho⟩ := h.order
  have hn := h.nodup
  rw [ho] at hn
  refine hn.sublist (.trans ?_ (sublist_append_right A _))
  simp

theorem range_eq : s.items.range record.item stop = record.item :: (body ++ [stop]) := by
  obtain ⟨A, C, ho⟩ := h.order
  refine ItemSeq.range_eq (A := A) (C := C) (by simp [ho]) h.nodup rfl ?_
  rw [← cons_append, getLast?_append]
  rfl

theorem get? {id : ItemId} (hid : id ∈ record.item :: (body ++ [stop])) :
    ∃ kind, s.items.get? id = some { kind } ∧ (∀ g, kind = .function g → g = f) := by
  rcases mem_cons.mp hid with rfl | hid
  · exact ⟨_, h.opens, fun g hg => by cases hg; rfl⟩
  rcases mem_concat.mp hid with hid | rfl
  · obtain ⟨kind, hk, hin, -⟩ := h.inside id hid
    refine ⟨kind, hk, fun g hg => ?_⟩
    subst hg
    exact hin.elim
  · exact ⟨_, h.closes, fun g hg => by cases hg⟩

theorem walked_step {id : ItemId} (hL : passed ++ id :: rest = record.item :: (body ++ [stop]))
    (hw : (s.begun f record stop p).Walked f record.args passed t) (ht : prepareItem id t = .ok () t') :
    (s.begun f record stop p).Walked f record.args (passed ++ [id]) t' := by
  have hn := h.nodup_items
  rw [← hL] at hn
  have hid : id ∉ passed := fun hm => (nodup_append.mp hn).2.2 _ hm _ mem_cons_self rfl
  have hmem : ∀ y ∈ passed, y ∈ record.item :: (body ++ [stop]) := fun y hy => by
    rw [← hL]
    exact mem_append_left _ hy
  have hidm : id ∈ record.item :: (body ++ [stop]) := by
    rw [← hL]
    simp
  obtain ⟨kind, hk, hfun⟩ := h.get? hidm
  refine hw.step hid (fun y hy => ?_) hk ?_
  · obtain ⟨k, hk, -⟩ := h.get? (hmem y hy)
    exact ⟨_, hk⟩
  refine prepareItem_prepares (hw.functionEq.trans rfl) ((hw.others hid).trans hk) ?_ ht
  intro g hg
  refine ⟨record, ?_, rfl⟩
  rw [hfun g hg, hw.functionsEq]
  exact h.function

theorem walked_nil : (s.begun f record stop p).Walked f record.args [] (s.begun f record stop p) :=
  .refl fun hx hf => by rw [(h.fresh hx hf).blank]; exact ⟨rfl, rfl⟩

theorem walked (hp : prepareFunction f record stop p s = .ok () t) :
    (s.begun f record stop p).Walked f record.args (record.item :: (body ++ [stop])) t := by
  simp only [prepareFunction, beginFunction, bind_ok] at hp
  obtain ⟨_, _, ⟨⟩, _, _, ⟨⟩, hp⟩ := hp
  rw [show ({ s with vars := _, ctx := _ } : Session).items.range record.item stop = _ from h.range_eq] at hp
  have key := forM_induct (P := fun rest t => ∃ passed, passed ++ rest = record.item :: (body ++ [stop]) ∧
    (s.begun f record stop p).Walked f record.args passed t) ?_ hp ⟨[], rfl, h.walked_nil⟩
  · obtain ⟨passed, hL, hw⟩ := key
    rwa [← hL, append_nil]
  · rintro id rest t t' ⟨passed, hL, hw⟩ ht
    exact ⟨passed ++ [id], by rw [← hL]; simp, h.walked_step hL hw ht⟩

theorem owns_touched (hy : y ∈ record.item :: (body ++ [stop])) (ht : s.Touched record.args y v) :
    ∃ x, s.vars.get? v = some x ∧ x.function = f := by
  obtain ⟨item, hi, hv⟩ := ht
  rcases mem_cons.mp hy with rfl | hy
  · cases h.opens ▸ hi
    obtain ⟨x, -, hx, hf, -⟩ := h.passes.arrives v hv
    exact ⟨x, hx, hf⟩
  rcases mem_concat.mp hy with hy | rfl
  · obtain ⟨kind, hk, hin, hown⟩ := h.inside y hy
    cases hk ▸ hi
    obtain ⟨x, hx, hf⟩ := map_eq_some_iff.mp (hown v (ItemKind.vars_of_touched hin hv))
    exact ⟨x, hx, hf⟩
  · cases h.closes ▸ hi
    cases hv

section
variable (hp : prepareFunction f record stop p s = .ok () t)
include hp

theorem offset?_eq (hy : y ∈ record.item :: (body ++ [stop])) : t.items.offset? y = some (t.offset y) := by
  obtain ⟨kind, hk, -⟩ := h.get? hy
  obtain ⟨k, o, -, ht, -⟩ := (h.walked hp).done hy hk
  simp [offset, offset?, ht]

theorem life (hy : y ∈ record.item :: (body ++ [stop]))
    (ht : s.Touched record.args y v) : ∃ x first last, t.vars.get? v = some x ∧
      x.firstItem = some first ∧ x.lastItem = some last ∧
      (s.begun f record stop p).Life t record.args (record.item :: (body ++ [stop])) v first last := by
  obtain ⟨x, hx, hf⟩ := h.owns_touched hy ht
  obtain ⟨x', hx', -, -, hl⟩ := (h.walked hp).vars hx
  rcases hl hf with ⟨-, -, hun⟩ | ⟨first, last, hfirst, hlast, hlife⟩
  · exact absurd ht (hun y hy)
  · exact ⟨x', first, last, hx', hfirst, hlast, hlife⟩

/-- The operands of a prepared instruction that must be in fixed registers are general purpose variables. -/
theorem fixed_gp (hx : x ∈ body)
    (hi : s.items.get? x = some { kind := .instruction i }) (hk : i.operands[k]? = some (.var ref))
    (hn : (i.opcode.constraint k i.operands.length).fixed = some n) :
    ∃ y, t.vars.get? ref.id = some y ∧ y.function = f ∧ y.cls = .gp := by
  have hw := h.walked hp
  obtain ⟨y, hy, hf⟩ := h.owns_touched (by simp [hx])
    ⟨_, hi, mem_flatMap.mpr ⟨_, mem_of_getElem? hk, mem_singleton_self _⟩⟩
  obtain ⟨y', hy', hg⟩ := hw.given hy
  exact ⟨y', hy', (Variable.function_of_given hg).trans hf,
    (congrArg (·.2.1) hg :).trans (hw.fits (by simp [hx]) hi i k ref n y rfl hk hn hy)⟩

end

end

end Ready

end Session

/-- A function before and after the first walk over it. -/
structure Prepared where
  before : Session
  record : FunctionRecord
  stop : ItemId
  prototype : Prototype
  after : Session

/-- The session that a run leaves. -/
def Build.after? {α : Type} (m : Build α) (s : Session) : Option Session :=
  match m s with
  | .error _ _ => none
  | .ok _ t => some t

theorem Build.after?_ok (h : after? m s = some t) : ∃ a, m s = .ok a t := by
  unfold after? at h
  cases hm : m s with
  | error e u => simp [hm] at h
  | ok a u =>
    simp only [hm, some.injEq] at h
    exact ⟨a, by rw [h]⟩

namespace Builder

/-- The first function of the program that some calls make. -/
def prepareFirst (calls : List Call) : Option Prepared :=
  match program calls {} with
  | .error _ _ => none
  | .ok _ s => do
    let record ← s.functions[0]?
    let stop ← record.stop
    let p ← s.prototypes[record.prototype.index]?
    match prepareFunction ⟨0⟩ record stop p s with
    | .error _ _ => none
    | .ok _ t => some ⟨s, record, stop, p, t⟩

theorem prepareFirst_program (h : prepareFirst calls = some q) :
    program calls {} = .ok () q.before ∧ q.before.functions[0]? = some q.record ∧ q.record.stop = some q.stop ∧
      prepareFunction ⟨0⟩ q.record q.stop q.prototype q.before = .ok () q.after := by
  unfold prepareFirst at h
  cases hs : program calls {} with
  | error e s => simp [hs] at h
  | ok u s =>
    simp only [hs, bind_eq_bind, bind_eq_some_iff] at h
    obtain ⟨record, hr, stop, hstop, p, -, h⟩ := h
    cases ht : prepareFunction ⟨0⟩ record stop p s with
    | error e t => simp [ht] at h
    | ok u t =>
      simp only [ht, some.injEq] at h
      subst h
      exact ⟨rfl, hr, hstop, ht⟩

theorem prepareFirst_ok (h : prepareFirst calls = some q) :
    prepareFunction ⟨0⟩ q.record q.stop q.prototype q.before = .ok () q.after ∧
      ∃ body, q.before.Ready ⟨0⟩ q.record q.stop body := by
  obtain ⟨hs, hr, hstop, ht⟩ := prepareFirst_program h
  exact ⟨ht, program_ready hs hr hstop⟩

end Builder

end Codegen
