import Codegen.Session.Basic

/-! What a successful step on a session did. Each lemma turns the success of a step into an equation
or into the successes of its parts, so that later proofs take programs apart without unfolding the
monad. -/
namespace Codegen.Build

section

theorem bind_ok {x : EStateM Error σ α} {f : α → EStateM Error σ β} {b : β} :
    (x >>= f) s = .ok b s' ↔ ∃ a t, x s = .ok a t ∧ f a t = .ok b s' := by
  change EStateM.bind x f s = _ ↔ _
  unfold EStateM.bind
  cases x s with
  | ok a t =>
    constructor
    · exact fun h => ⟨a, t, rfl, h⟩
    rintro ⟨_, _, h, hf⟩
    cases h
    exact hf
  | error e t => simp

theorem pure_ok : (pure a : EStateM Error σ α) s = .ok b s' ↔ a = b ∧ s = s' := by
  change EStateM.Result.ok a s = _ ↔ _
  simp

theorem get_ok : (get : EStateM Error σ σ) s = .ok a s' ↔ s = a ∧ s = s' := by
  change EStateM.Result.ok s s = _ ↔ _
  simp

theorem modify_ok : (modify f : EStateM Error σ Unit) s = .ok u s' ↔ f s = s' := by
  change EStateM.Result.ok () (f s) = _ ↔ _
  simp

theorem modifyGet_ok : (modifyGet f : EStateM Error σ α) s = .ok a s' ↔ f s = (a, s') := by
  change EStateM.Result.ok (f s).1 (f s).2 = _ ↔ _
  simp [Prod.ext_iff]

theorem throw_ok : (throw e : EStateM Error σ α) s = .ok a s' ↔ False := by
  change EStateM.Result.error e s = _ ↔ _
  simp

theorem lift_ok {x : Except Error α} {a : α} : (liftM x : EStateM Error σ α) s = .ok a s' ↔ x = .ok a ∧ s = s' := by
  cases x with
  | ok b =>
    change EStateM.Result.ok b s = _ ↔ _
    simp
  | error e =>
    change EStateM.Result.error e s = _ ↔ _
    simp

theorem when_ok {c : Prop} [Decidable c] {x : EStateM Error σ Unit} {k : Unit → EStateM Error σ α} {a : α} :
    (if c then x >>= k else k ()) s = .ok a s' ↔ ∃ t, (if c then x s = .ok () t else t = s) ∧ k () t = .ok a s' := by
  by_cases h : c
  · simp only [h, if_true, bind_ok]
    exact ⟨fun ⟨_, t, hx⟩ => ⟨t, hx⟩, fun ⟨t, hx⟩ => ⟨(), t, hx⟩⟩
  · simp [h]

theorem except_bind_ok {ε : Type} {x : Except ε α} {f : α → Except ε β} {b : β} :
    (x >>= f) = .ok b ↔ ∃ a, x = .ok a ∧ f a = .ok b := by
  cases x with
  | ok a | error e => simp [bind, Except.bind]

theorem except_pure_ok : (pure a : Except ε α) = .ok b ↔ a = b := by
  simp [pure, Except.pure]

theorem except_check_ok {c : Prop} [Decidable c] {k : PUnit → Except Error α} {b : α} :
    (if c then throw e >>= k else k ⟨⟩) = .ok b ↔ ¬ c ∧ k ⟨⟩ = .ok b := by
  by_cases h : c
  · simp [h, bind, Except.bind, throw, throwThe, MonadExceptOf.throw]
  · simp [h]

theorem forM_nil_ok {f : α → EStateM Error σ Unit} : ([] : List α).forM f s = .ok u s' ↔ s = s' := by
  simp [pure_ok]

theorem forM_cons_ok {f : α → EStateM Error σ Unit} {a : α} {l : List α} :
    (a :: l).forM f s = .ok u s' ↔ ∃ t, f a s = .ok () t ∧ l.forM f t = .ok () s' := by
  change (f a >>= fun _ => l.forM f) s = _ ↔ _
  rw [bind_ok]
  exact ⟨fun ⟨_, t, h⟩ => ⟨t, h⟩, fun ⟨t, h⟩ => ⟨(), t, h⟩⟩

theorem forM_split {f : α → EStateM Error σ Unit} {l : List α} (h : l.forM f s = .ok u s') {a : α}
    (ha : a ∈ l) : ∃ A B t t', l = A ++ a :: B ∧ A.forM f s = .ok () t ∧ f a t = .ok () t' ∧ B.forM f t' = .ok
    () s' := by
  induction l generalizing s with
  | nil => cases ha
  | cons b l ih =>
    obtain ⟨t, hb, hl⟩ := forM_cons_ok.mp h
    rcases List.mem_cons.mp ha with rfl | ha
    · exact ⟨[], l, s, t, rfl, forM_nil_ok.mpr rfl, hb, hl⟩
    · obtain ⟨A, B, t1, t2, rfl, h1, h2, h3⟩ := ih hl ha
      exact ⟨b :: A, B, t1, t2, rfl, forM_cons_ok.mpr ⟨t, hb, h1⟩, h2, h3⟩

theorem forM_induct {f : α → EStateM Error σ Unit} {P : List α → σ → Prop}
    (step : ∀ a rest t t', P (a :: rest) t → f a t = .ok () t' → P rest t')
    {l : List α} (h : l.forM f s = .ok u s') (start : P l s) : P [] s' := by
  induction l generalizing s with
  | nil => exact forM_nil_ok.mp h ▸ start
  | cons a l ih =>
    obtain ⟨t, ha, hl⟩ := forM_cons_ok.mp h
    exact ih hl (step a l s t start ha)

theorem mapM_nil_ok {f : α → EStateM Error σ β} {bs : List β} :
    ([] : List α).mapM f s = .ok bs s' ↔ [] = bs ∧ s = s' := by
  rw [List.mapM_nil, pure_ok]

theorem mapM_cons_ok {f : α → EStateM Error σ β} {a : α} {l : List α} {bs : List β} : (a :: l).mapM f s = .ok bs s' ↔
      ∃ b t rest, f a s = .ok b t ∧ l.mapM f t = .ok rest s' ∧ b :: rest = bs := by
  rw [List.mapM_cons]
  simp only [bind_ok, pure_ok]
  constructor
  · rintro ⟨b, t, hb, rest, t', hr, rfl, rfl⟩
    exact ⟨b, t, rest, hb, hr, rfl⟩
  · rintro ⟨b, t, rest, hb, hr, rfl⟩
    exact ⟨b, t, hb, rest, s', hr, rfl, rfl⟩

end

theorem usage_ok : (usage r : Build α) s = .ok a s' ↔ False := throw_ok

theorem check_ok {c : Prop} [Decidable c] {k : Unit → Build α} {a : α} :
    (if c then usage r >>= k else k ()) s = .ok a s' ↔ ¬ c ∧ k () s = .ok a s' := by
  by_cases h : c
  · simp [h, bind_ok, usage_ok]
  · simp [h]

theorem lookup_ok {x : Session → Except Error α} {o : Option α} {a : α} (hx : x s = .ok a ↔ o = some a) :
    (get >>= fun s => liftM (x s) : Build α) s = .ok a s' ↔ o = some a ∧ s = s' := by
  simp only [bind_ok, get_ok, lift_ok, ← hx]
  constructor
  · rintro ⟨_, _, ⟨rfl, rfl⟩, h⟩
    exact h
  · exact fun h => ⟨s, s, ⟨rfl, rfl⟩, h⟩

theorem getVar_ok {id : VarId} : getVar id s = .ok v s' ↔ s.vars.get? id = some v ∧ s = s' := by
  refine lookup_ok ?_
  unfold VarTable.get
  split <;> simp_all

theorem getVar_bind {id : VarId} {k : Variable → Build β} (hx : s.vars.get? id = some x) :
    (getVar id >>= k) s = k x s := by
  change EStateM.bind (getVar id) k s = _
  rw [EStateM.bind, getVar_ok.mpr ⟨hx, rfl⟩]

theorem modifyVar_ok {id : VarId} : modifyVar id f s = .ok u s' ↔
      (∃ v, s.vars.get? id = some v) ∧ { s with vars := s.vars.modify id f } = s' := by
  simp only [modifyVar, bind_ok, getVar_ok, modify_ok]
  constructor
  · rintro ⟨v, _, ⟨hv, rfl⟩, rfl⟩
    exact ⟨⟨v, hv⟩, rfl⟩
  · rintro ⟨⟨v, hv⟩, rfl⟩
    exact ⟨v, s, ⟨hv, rfl⟩, rfl⟩

theorem getItem_ok {id : ItemId} : getItem id s = .ok item s' ↔ s.items.get? id = some item ∧ s = s' := by
  refine lookup_ok ?_
  unfold ItemSeq.get
  split <;> simp_all

theorem modifyItem_ok {id : ItemId} : modifyItem id f s = .ok u s' ↔
      (∃ item, s.items.get? id = some item) ∧ { s with items := s.items.modify id f } = s' := by
  simp only [modifyItem, bind_ok, getItem_ok, modify_ok]
  constructor
  · rintro ⟨v, _, ⟨hv, rfl⟩, rfl⟩
    exact ⟨⟨v, hv⟩, rfl⟩
  · rintro ⟨⟨v, hv⟩, rfl⟩
    exact ⟨v, s, ⟨hv, rfl⟩, rfl⟩

theorem setKind_ok {id : ItemId} : setKind id kind s = .ok u s' ↔ (∃ item, s.items.get? id = some item) ∧
        { s with items := s.items.modify id ({ · with kind }) } = s' :=
  modifyItem_ok

theorem modifyContext_ok : modifyContext f s = .ok u s' ↔ { s with ctx := f s.ctx } = s' := modify_ok

theorem modifyStats_ok : modifyStats f s = .ok u s' ↔ { s with stats := f s.stats } = s' := modify_ok

theorem setCursor_ok : setCursor cursor s = .ok u s' ↔ { s with items := s.items.setCursor cursor } = s' := modify_ok

theorem create_ok {id : ItemId} : create kind s = .ok id s' ↔
      ⟨s.items.size⟩ = id ∧ { s with items := (s.items.create kind).2 } = s' := by
  simp only [create, modifyGet_ok, ItemSeq.create, Prod.mk.injEq]

theorem getFunction_ok {f : FunctionId} : getFunction f s = .ok r s' ↔ s.functions[f.index]? = some r ∧ s = s' := by
  refine lookup_ok ?_
  unfold Session.function
  split <;> simp_all

theorem getPrototype_ok {p : PrototypeId} : getPrototype p s = .ok r s' ↔ s.prototypes[p.index]? = some r ∧ s = s' := by
  refine lookup_ok ?_
  unfold Session.prototype
  split <;> simp_all

theorem labelTarget_ok {l : LabelId} {id : ItemId} :
    labelTarget l s = .ok id s' ↔ s.labels[l.index]? = some id ∧ s = s' := by
  refine lookup_ok ?_
  unfold Session.labelTarget
  split <;> simp_all

theorem compiling_ok : compiling s = .ok f s' ↔ s.ctx.function = some f ∧ s = s' := by
  simp only [compiling, bind_ok, get_ok]
  constructor
  · rintro ⟨_, _, ⟨rfl, rfl⟩, h⟩
    cases hf : s.ctx.function with
    | some g => simpa [hf, pure_ok] using h
    | none => simp [hf, throw_ok] at h
  · rintro ⟨h, rfl⟩
    exact ⟨s, s, ⟨rfl, rfl⟩, by simp [h, pure_ok]⟩

end Codegen.Build
