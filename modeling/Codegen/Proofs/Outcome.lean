import Codegen.Proofs.Failures

/-! How handing over a program ends. The rounds are enough for all functions, so it ends with a failure exactly if it
comes to a stage where the next item or the next function fails. -/
namespace Codegen
open List Build Option Compile Encoder
open Relation

namespace Delivery
variable [Encoder ε]

/-- The next item fails, or the function that it opens. -/
inductive Fails : Delivery ε → Error → Compilation ε → Prop
  | item {c c' : Compilation ε} {x : ItemId} {rest : List ItemId} {e : Error} (ho : opens? c.session x = none)
    (h : emitItem x c = .error e c') : Fails ⟨x :: rest, c⟩ e c'
  | function {c c' : Compilation ε} {x : ItemId} {rest : List ItemId} {e : Error} {f : FunctionId}
    (ho : opens? c.session x = some f) (h : compileFunction f c = .error e c') :
    Fails ⟨x :: rest, c⟩ e c'

variable {m : Delivery ε}

theorem Fails.not_advances (h : m.Fails e c) : ¬ m.Advances m' := by
  intro ha
  cases h with
  | item ho h =>
    cases ha with
    | item _ h' => cases h ▸ h'
    | function ho' _ => cases ho ▸ ho'
  | function ho h =>
    cases ha with
    | item ho' _ => cases ho ▸ ho'
    | function ho' h' =>
      cases ho ▸ ho'
      cases h ▸ h'

theorem Fails.unique (h : m.Fails e c) (h' : m.Fails e' c') : e' = e ∧ c' = c := by
  cases h with
  | item ho h =>
    cases h' with
    | item _ h' =>
      cases h ▸ h'
      exact ⟨rfl, rfl⟩
    | function ho' _ => cases ho ▸ ho'
  | function ho h =>
    cases h' with
    | item ho' _ => cases ho ▸ ho'
    | function ho' h' =>
      cases ho ▸ ho'
      cases h ▸ h'
      exact ⟨rfl, rfl⟩

end Delivery

namespace Compile
open Build (bind_ok pure_ok get_ok throw_ok bind_error pure_error get_error)
variable [Encoder ε] {s : Session} {c : Compilation ε} {items : List ItemId}

section Causes

omit [Encoder ε] in
theorem onSession_unhinderedAt {step : Build α} (h : UnhinderedAt S step c.session) :
    UnhinderedAt S (onSession step : Compile ε α) c := by
  intro e c' he
  unfold onSession at he
  cases hs : step c.session with
  | ok a t =>
    rw [hs] at he
    cases he
  | error e1 t =>
    rw [hs] at he
    cases he
    exact h _ _ hs

omit [Encoder ε] in
theorem onSession_unhindered {step : Build α} (h : Unhindered S step) :
    Unhindered S (onSession step : Compile ε α) := fun c => onSession_unhinderedAt (h c.session)

omit [Encoder ε] in
theorem onEncoder_unhindered (he : S .encoding) : Unhindered S (onEncoder request) := by
  refine .bind .get fun c => ?_
  split
  · exact .modify
  · exact .throw he

theorem emitInstruction_unhindered (he : S .encoding) :
    Unhindered S (emitInstruction op operands : Compile ε Unit) := by
  intro c e c' h
  unfold emitInstruction at h
  rw [bind_eq_of_ok (get_ok.mpr ⟨rfl, rfl⟩)] at h
  cases hr : emit c.encoder op operands with
  | mk result enc =>
    simp only [hr] at h
    rcases bind_error.mp h with h | ⟨_, d, -, h⟩
    · cases h
    cases result with
    | ok => exact onSession_unhinderedAt (Unhindered.modifyStats _) _ _ h
    | error e1 =>
      rcases bind_error.mp h with h | ⟨_, _, h, -⟩
      · cases h
        exact he
      · cases h

theorem emitItem_unhindered [Lenient S] {id : ItemId} (he : S .encoding) :
    Unhindered S (emitItem id : Compile ε Unit) := by
  refine .bind (onSession_unhindered .getItem) fun item => ?_
  split
  · exact .when (.throw he) (emitInstruction_unhindered he)
  · exact emitInstruction_unhindered he
  · exact onEncoder_unhindered he
  · split
    · exact .bind (onSession_unhindered .getFunction) fun _ => emitInstruction_unhindered he
    · exact .pure _
  · exact onEncoder_unhindered he
  · refine .bind .get fun _ => ?_
    split
    · exact .modify
    · exact .pure _
  · exact onEncoder_unhindered he
  all_goals exact .pure _

end Causes

theorem defineLabels_unhindered {first count : Nat} :
    Unhindered S (defineLabels first count : Compile ε Unit) := .forM fun _ => .modify

theorem emitUntilFunction_fails (h : emitUntilFunction items c = .error e c') :
    ∃ m, ReflTransGen Delivery.Advances ⟨items, c⟩ m ∧ m.Fails e c' := by
  induction items generalizing c with
  | nil => cases h
  | cons x items ih =>
    unfold emitUntilFunction at h
    rw [bind_eq_of_ok (get_ok.mpr ⟨rfl, rfl⟩)] at h
    cases ho : opens? c.session x with
    | some f =>
      rw [ho] at h
      cases h
    | none =>
      simp only [ho] at h
      rcases bind_error.mp h with h | ⟨_, d, hd, h⟩
      · exact ⟨_, .refl, .item ho h⟩
      · obtain ⟨m, hrun, hm⟩ := ih h
        exact ⟨m, .head (.item ho hd) hrun, hm⟩

/-- How many functions some items open. -/
def openings (s : Session) (l : List ItemId) : Nat := l.countP fun x => (opens? s x).isSome

theorem openings_mono (h : l <:+ l') : openings s l ≤ openings s l' := h.sublist.countP_le

theorem openings_cons (h : opens? s x = some f) : openings s (x :: l) = openings s l + 1 := by
  simp [openings, h]

theorem openings_le (hs : s.Fresh) : openings s s.items.order ≤ s.functions.size := by
  let index := fun x => ((opens? s x).map FunctionId.index).getD 0
  have hnd : ((s.items.order.filter fun x => (opens? s x).isSome).map index).Nodup := by
    refine Nodup.map_on (fun x hx y hy he => ?_) (hs.built.nodup.filter _)
    obtain ⟨f, hf⟩ := isSome_iff_exists.mp (mem_filter.mp hx).2
    obtain ⟨g, hg⟩ := isSome_iff_exists.mp (mem_filter.mp hy).2
    obtain ⟨r, hr, rfl⟩ := hs.contoured.opened (opens?_eq_some.mp hf)
    obtain ⟨r', hr', rfl⟩ := hs.contoured.opened (opens?_eq_some.mp hg)
    have hfg : f.index = g.index := by simpa [index, hf, hg] using he
    rw [hfg] at hr
    cases hr ▸ hr'
    rfl
  have hsub : (s.items.order.filter fun x => (opens? s x).isSome).map index ⊆ range s.functions.size := by
    intro i hi
    obtain ⟨x, hx, rfl⟩ := mem_map.mp hi
    obtain ⟨f, hf⟩ := isSome_iff_exists.mp (mem_filter.mp hx).2
    obtain ⟨r, hr, -⟩ := hs.contoured.opened (opens?_eq_some.mp hf)
    simpa [index, hf] using (Array.getElem?_eq_some_iff.mp hr).1
  have hle := (hnd.subperm hsub).length_le
  rwa [length_map, length_range, ← countP_eq_length_filter] at hle

variable [Shows ε]

theorem untouched_of_run {m m' : Delivery ε} (hrun : ReflTransGen Delivery.Advances m m')
    (hu : s.Untouched m.rest m.state.session) (hs : s.Fresh) (hsec : s.Secluded) :
    s.Untouched m'.rest m'.state.session ∧ m'.rest <:+ m.rest := by
  induction hrun with
  | refl => exact ⟨hu, suffix_rfl⟩
  | tail _ ha ih =>
    obtain ⟨hu', hsuf⟩ := ha.untouched ih.1 hs hsec
    exact ⟨hu', hsuf.trans ((tail_suffix _).trans ih.2)⟩

theorem serializeFrom_fails (hu : s.Untouched items c.session) (hs : s.Fresh) (hsec : s.Secluded)
    (hr : openings s items ≤ rounds) (h : serializeFrom rounds items c = .error e c') :
    ∃ m, ReflTransGen Delivery.Advances ⟨items, c⟩ m ∧ m.Fails e c' := by
  -- each round uses up an item that opens a function
  induction rounds generalizing items c with
  | zero =>
    unfold serializeFrom at h
    rcases bind_error.mp h with h | ⟨next, d, hd, h⟩
    · exact emitUntilFunction_fails h
    obtain ⟨rest, hrun, ⟨rfl, rfl⟩ | ⟨f, x, tail, rfl, rfl, ho⟩⟩ := emitUntilFunction_advances hd
    · cases h
    obtain ⟨hu', hsuf⟩ := untouched_of_run hrun hu hs hsec
    have hopen : opens? s x = some f := by
      rw [← ho, opens?, opens?, hu'.items x mem_cons_self]
    have hle : openings s (x :: tail) ≤ 0 := (openings_mono hsuf).trans hr
    rw [openings_cons hopen] at hle
    cases hle
  | succ rounds ih =>
    unfold serializeFrom at h
    rcases bind_error.mp h with h | ⟨next, d, hd, h⟩
    · exact emitUntilFunction_fails h
    obtain ⟨rest, hrun, ⟨rfl, rfl⟩ | ⟨f, x, tail, rfl, rfl, ho⟩⟩ := emitUntilFunction_advances hd
    · cases h
    rcases bind_error.mp h with h | ⟨last, d', hd', h⟩
    · exact ⟨_, hrun, .function ho h⟩
    obtain ⟨hu', hsuf⟩ := untouched_of_run hrun hu hs hsec
    have hopen : opens? s x = some f := by
      rw [← ho, opens?, opens?, hu'.items x mem_cons_self]
    have hstep : Delivery.Advances ⟨x :: tail, d⟩ ⟨(d'.session.items.suffixFrom last).tail, d'⟩ := .function ho hd'
    obtain ⟨hu'', hsuf'⟩ := hstep.untouched hu' hs hsec
    have hless : openings s (d'.session.items.suffixFrom last).tail ≤ rounds := by
      have hle : openings s (x :: tail) ≤ rounds + 1 := (openings_mono hsuf).trans hr
      rw [openings_cons hopen] at hle
      exact (openings_mono hsuf').trans (Nat.le_of_succ_le_succ hle)
    obtain ⟨m, hrun', hm⟩ := ih hu'' hless h
    exact ⟨m, hrun.trans (.head hstep hrun'), hm⟩

omit [Shows ε] in
theorem current_of_serialize_error (h : serialize c = .error e c') (he : e ≠ .incompleteFunction) :
    c.session.current = none := by
  cases hcur : c.session.current with
  | none => rfl
  | some f =>
    unfold serialize at h
    rw [bind_eq_of_ok (get_ok.mpr ⟨rfl, rfl⟩)] at h
    simp only [hcur, isSome_some, if_true] at h
    cases h
    exact absurd rfl he

theorem serialize_fails_iff (hs : s.Fresh) (hsec : s.Secluded) (hcur : s.current = none) :
    serialize ⟨s, fresh⟩ = .error e c ↔ ∃ m, Reaches s m ∧ m.Fails e c := by
  have hfails : ∀ {e c}, serialize (ε := ε) ⟨s, fresh⟩ = .error e c → ∃ m, Reaches s m ∧ m.Fails e c := by
    intro e c h
    unfold serialize at h
    rw [bind_eq_of_ok (get_ok.mpr ⟨rfl, rfl⟩)] at h
    simp only [hcur, isSome_none, Bool.false_eq_true, if_false] at h
    rcases bind_error.mp h with h | ⟨_, d, hd, h⟩
    · exact (defineLabels_unhindered (S := fun _ => False) _ _ _ h).elim
    obtain ⟨stats, hst⟩ := (defineLabels_hands hd).session
    have hu : s.Untouched s.items.order d.session :=
      .initial hs (by rw [hst]) (by rw [hst]) (by rw [hst]) (by rw [hst]) (by rw [hst])
    obtain ⟨m, hrun, hm⟩ := serializeFrom_fails hu hs hsec (openings_le hs) h
    exact ⟨m, ⟨d, hd, hrun⟩, hm⟩
  refine ⟨hfails, fun ⟨m, hm, hf⟩ => ?_⟩
  cases hres : serialize (ε := ε) ⟨s, fresh⟩ with
  | ok u c1 =>
    rcases (hm.leads (serialize_reaches hres)).cases_head with rfl | ⟨m', ha, -⟩
    · cases hf
    · exact absurd ha hf.not_advances
  | error e1 c1 =>
    obtain ⟨m1, ⟨d, hd, hrun⟩, hf1⟩ := hfails hres
    obtain ⟨d', hd', hrun'⟩ := hm
    cases hd ▸ hd'
    have heq : m1 = m := by
      rcases ReflTransGen.total_of_right_unique Delivery.Advances.rightUnique hrun hrun' with h | h
      · rcases h.cases_head with rfl | ⟨m', ha, -⟩
        · rfl
        · exact absurd ha hf1.not_advances
      · rcases h.cases_head with rfl | ⟨m', ha, -⟩
        · rfl
        · exact absurd ha hf.not_advances
    subst heq
    obtain ⟨rfl, rfl⟩ := hf.unique hf1
    rfl

end Compile

end Codegen
