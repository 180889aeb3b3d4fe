import Codegen.Proofs.ArgumentPlacement
import Mathlib.Data.List.Forall2
import Mathlib.Logic.Relation

/-! Every closed function of a program is ready to be compiled: each call of the building interface
keeps the program well built. -/
namespace Codegen
open List Option
variable {kind : ItemKind} {s : ItemSeq} {label : LabelId}
variable {calls : List Call} {args : List VarId} {options : Options} {ty : VarType}
variable {record : FunctionRecord} {item : Item} {infos : List ArgumentInfo}

theorem ArgLocation.place_injective : Function.Injective ArgLocation.place := by
  intro a b h
  cases a <;> cases b <;> simp only [place, Place.reg.injEq, Place.home.injEq, Home.argument.injEq,
    reduceCtorEq, register.injEq, stack.injEq] at h ⊢
  · exact h
  · omega

/-- No two arguments are passed in one place, and those in registers are passed in ones of their class that can be
allocated. -/
def Prototype.PlacesApart (p : Prototype) : Prop :=
  (p.args.map (·.location)).Nodup ∧ ∀ info ∈ p.args, ∀ r, info.location = .register r →
    info.ty.cls = some r.cls ∧ (Context.empty.allocable r.cls).contains r.index = true

theorem Prototype.sysv_placesApart {args returns : List VarType}
    (h : Prototype.sysv args returns = .ok p) : p.PlacesApart := by
  obtain ⟨a, ha, -⟩ := sysv_ok h
  have husable : ∀ cls, ∀ i ∈ argumentRegs cls, (Context.empty.allocable cls).contains i = true := by
    rintro (_ | _ | _) <;> decide
  obtain ⟨hn, hall⟩ := Assigner.assignArgs_registers ha
  exact ⟨hn, fun info hi r hr => ⟨(hall info hi r hr).1, husable _ _ (hall info hi r hr).2⟩⟩

/-- The labels that an item names: where it leads, and those among its operands. -/
def ItemKind.names : ItemKind → List LabelId
  | instruction i => i.operands.filterMap Operand.label?
  | jump j => [j.target]
  | target t => [t.label]
  | call c => c.target.label?.toList
  | _ => []

namespace VarTable
variable {t : VarTable} {id : VarId}

theorem lt_size_of_get? (h : t.get? id = some v) : id.index < t.size := (Array.getElem?_eq_some_iff.mp h).1

theorem get?_push_of_lt (h : id.index < t.size) :
    ({ t with vars := t.vars.push w } : VarTable).get? id = t.get? id := by
  simp [get?, Array.getElem?_push, Nat.ne_of_lt (show id.index < t.vars.size from h)]

theorem get?_push_self : ({ t with vars := t.vars.push w } : VarTable).get? ⟨t.size⟩ = some w := by
  simp [get?, size]

theorem get?_push_eq_some (h : ({ t with vars := t.vars.push w } : VarTable).get? id = some v) :
    t.get? id = some v ∨ (id = ⟨t.size⟩ ∧ v = w) := by
  simp only [get?, Array.getElem?_push] at h
  split at h
  · rename_i he
    cases h
    exact .inr ⟨congrArg VarId.mk he, rfl⟩
  · exact .inl h

/-- The variable arrives where the signature says. -/
def Brings (t : VarTable) (id : VarId) (info : ArgumentInfo) : Prop :=
  ∃ v, t.get? id = some v ∧ v.arrival = some info.location.place

end VarTable

namespace ItemSeq

/-- The sequence with an item linked behind all others. -/
def link (s : ItemSeq) (id : ItemId) : ItemSeq :=
  { s with chain := (s.setCursor s.last?).grown id, cursor := some id }

theorem insert_last_ok {id : ItemId} (h : (s.setCursor s.last?).insert id = .ok s') : id ∉ s.order ∧ s' = s.link id := by
  obtain ⟨hid, -, rfl⟩ := insert_ok h
  exact ⟨hid, rfl⟩

theorem order_link {id : ItemId} (hid : id ∉ s.order) : (s.link id).order = s.order ++ [id] := by
  have horder : (s.link id).order = _ := ids_grown (s := s.setCursor s.last?) hid
  have hlast : (s.setCursor s.last?).cursor = s.order.getLast? := s.chains.last
  rw [horder, hlast, show (s.setCursor s.last?).order = s.order from rfl]
  rcases eq_nil_or_concat s.order with ho | ⟨A, a, ho⟩
  · simp [ho]
  have ha : a ∉ A := by
    have hn := s.nodup_order
    rw [ho, concat_eq_append] at hn
    exact fun hm => (nodup_append.mp hn).2.2 a hm a (by simp) rfl
  have hs : spliceAfter id a (A ++ [a]) = A ++ [a, id] := spliceAfter_append ha
  simp [ho, hs]

theorem prefix_link (s : ItemSeq) (id : ItemId) : s.order <+: (s.link id).order := by
  by_cases hid : id ∈ s.order
  · have horder : (s.link id).order = s.order := ids_grown_of_mem hid
    exact horder ▸ prefix_rfl
  · exact order_link hid ▸ prefix_append _ _

theorem get?_create_of_lt {id : ItemId} (h : id.index < s.size) : (s.create kind).2.get? id = s.get? id := by
  simp [get?, create, Array.getElem?_push, Nat.ne_of_lt (show id.index < s.items.size from h)]

theorem get?_create_self : (s.create kind).2.get? ⟨s.size⟩ = some { kind } := by
  simp [get?, create, size]

theorem get?_create_cases
    (h : (s.create kind).2.get? x = some item) : s.get? x = some item ∨ x = ⟨s.size⟩ ∧ item = { kind } := by
  by_cases hlt : x.index < s.size
  · exact .inl (get?_create_of_lt hlt ▸ h)
  have hlt' := lt_size_of_get? h
  have hsize : (s.create kind).2.size = s.size + 1 := by simp [create, size]
  obtain rfl : x = ⟨s.size⟩ := congrArg ItemId.mk (by omega : x.index = s.size)
  exact .inr ⟨rfl, (some.inj (get?_create_self ▸ h)).symm⟩

end ItemSeq

namespace Session
variable {s s' : Session} {id : ItemId}

/-- Items and variables of the first session are in the second, and still what they were. -/
structure Grows (s s' : Session) : Prop where
  items : ∀ {id kind}, s.items.get? id = some { kind } →
    ∃ kind', s'.items.get? id = some { kind := kind' } ∧
      (kind' = kind ∨ ∃ t t', kind = .target t ∧ kind' = .target t' ∧ t'.state = t.state)
  vars : ∀ {id v}, s.vars.get? id = some v → ∃ v', s'.vars.get? id = some v' ∧
    v'.function = v.function ∧ v'.passing = v.passing ∧ v'.arrival = v.arrival

theorem IsVarOf.grow {id : VarId} (h : s.IsVarOf f id) (hg : s.Grows s') : s'.IsVarOf f id := by
  obtain ⟨v, hv, hf⟩ := map_eq_some_iff.mp h
  obtain ⟨v', hv', hf', -⟩ := hg.vars hv
  exact map_eq_some_iff.mpr ⟨v', hv', hf'.trans hf⟩

theorem IsInside.grow (h : s.IsInside f id) (hg : s.Grows s') : s'.IsInside f id := by
  obtain ⟨kind, hk, hin, hv⟩ := h
  obtain ⟨kind', hk', rfl | ⟨t, t', rfl, rfl, ht⟩⟩ := hg.items hk
  · exact ⟨kind', hk', hin, fun v hm => (hv v hm).grow hg⟩
  · exact ⟨_, hk', ht.trans hin, fun v hm => by cases hm⟩

theorem Passes.grow (h : s.Passes f args) (hg : s.Grows s')
    (hnew : ∀ {id v'}, s'.vars.get? id = some v' → v'.function = f →
      (∃ v, s.vars.get? id = some v) ∨ v'.passing = .notPassed) : s'.Passes f args := by
  have old : ∀ {id v'}, s'.vars.get? id = some v' → v'.function = f → v'.passing ≠ .notPassed →
      ∃ v, s.vars.get? id = some v ∧ v.function = f ∧ v'.passing = v.passing ∧ v'.arrival = v.arrival := by
    intro id v' hv' hf hp
    obtain ⟨v, hv⟩ := (hnew hv' hf).resolve_right hp
    obtain ⟨w, hw, hwf, hwp, hwa⟩ := hg.vars hv
    cases hv' ▸ hw
    exact ⟨v, hv, hwf ▸ hf, hwp, hwa⟩
  have arrives : ∀ {v : Variable} {p}, v.arrival = some p → v.passing ≠ .notPassed := by
    intro v p ha hp
    simp [Variable.arrival, hp] at ha
  refine ⟨h.nodup, ?_, ?_, ?_⟩
  · intro id hid
    obtain ⟨v, p, hv, hf, ha, hu⟩ := h.arrives id hid
    obtain ⟨v', hv', hf', -, ha'⟩ := hg.vars hv
    exact ⟨v', p, hv', hf'.trans hf, ha'.trans ha, hu⟩
  · intro a b v w p hv hvf hva hw hwf hwa
    obtain ⟨v0, hv0, hvf0, -, hva0⟩ := old hv hvf (arrives hva)
    obtain ⟨w0, hw0, hwf0, -, hwa0⟩ := old hw hwf (arrives hwa)
    exact h.distinct hv0 hvf0 (hva0 ▸ hva) hw0 hwf0 (hwa0 ▸ hwa)
  · intro id v hv hf hid
    by_contra hp
    obtain ⟨v0, hv0, hf0, hp0, -⟩ := old hv hf hp
    exact hp (hp0.trans (h.others hv0 hf0 hid))

theorem Passes.congr (h : s.Passes f args) (hv : s'.vars = s.vars) : s'.Passes f args := by
  obtain ⟨h1, h2, h3, h4⟩ := h
  rw [← hv] at h2 h3 h4
  exact ⟨h1, h2, h3, h4⟩

/-- The operand names only variables of the open function, and labels that exist. -/
def Admits (s : Session) (o : Operand) : Prop :=
  (∀ v ∈ o.vars, ∃ f, s.current = some f ∧ s.IsVarOf f v) ∧ ∀ l, o.label? = some l → l.index < s.labels.size

/-- The items of a function: all of them so far while it is open. -/
def Shape (s : Session) (f : FunctionId) (r : FunctionRecord) : Prop :=
  s.items.get? r.item = some { kind := .function f } ∧
  ∃ A body, (∀ id ∈ body, s.IsInside f id) ∧
    match r.stop with
    | none => s.current = some f ∧ s.items.order = A ++ r.item :: body
    | some stop => s.items.get? stop = some { kind := .functionEnd f } ∧
        ∃ C, s.items.order = A ++ r.item :: (body ++ stop :: C)

/-- What holds of a program at every moment while it is built. -/
structure WellBuilt (s : Session) : Prop where
  nodup : s.items.order.Nodup
  made : ∀ id ∈ s.items.order, id.index < s.items.size
  fresh : ∀ {id item}, s.items.get? id = some item → item = { kind := item.kind }
  labels : ∀ {l : Nat} {id}, s.labels[l]? = some id →
    ∃ t, s.items.get? id = some { kind := .target t } ∧ t.state = none ∧ t.label = ⟨l⟩
  vars : ∀ {id v}, s.vars.get? id = some v → v.Fresh id ∧ v.function.index < s.functions.size
  passes : ∀ {f r}, s.functions[FunctionId.index f]? = some r → s.Passes f r.args
  shape : ∀ {f r}, s.functions[FunctionId.index f]? = some r → s.Shape f r
  current : ∀ {f}, s.current = some f → ∃ r, s.functions[f.index]? = some r ∧ r.stop = none

theorem Grows.refl_of (hi : ∀ {id}, s'.items.get? id = s.items.get? id) (hv : s'.vars = s.vars) : s.Grows s' :=
  ⟨fun hk => ⟨_, hi.trans hk, .inl rfl⟩, fun h => ⟨_, hv ▸ h, rfl, rfl, rfl⟩⟩

theorem Shape.grow (h : s.Shape f r) (hg : s.Grows s')
    (hc : s'.current = s.current) (ho : s'.items.order = s.items.order) : s'.Shape f r := by
  have keep : ∀ {id kind}, s.items.get? id = some { kind } → (∀ t, kind ≠ .target t) →
      s'.items.get? id = some { kind } := by
    intro id kind hk hn
    obtain ⟨kind', hk', rfl | ⟨t, t', rfl, rfl, -⟩⟩ := hg.items hk
    · exact hk'
    · exact absurd rfl (hn t)
  obtain ⟨hi, A, body, hb, hs⟩ := h
  refine ⟨keep hi (by simp), A, body, fun id hid => (hb id hid).grow hg, ?_⟩
  cases hr : r.stop with
  | none =>
    simp only [hr] at hs
    exact ⟨hc.trans hs.1, ho.trans hs.2⟩
  | some stop =>
    simp only [hr] at hs
    obtain ⟨hk, C, ho'⟩ := hs
    exact ⟨keep hk (by simp), C, ho.trans ho'⟩

theorem Shape.link (h : s.Shape f r) (hid : id ∉ s.items.order) (hin : s.current = some f → s.IsInside f id) :
    ({ s with items := s.items.link id } : Session).Shape f r := by
  obtain ⟨hi, A, body, hb, hs⟩ := h
  cases hr : r.stop with
  | none =>
    simp only [hr] at hs
    refine ⟨hi, A, body ++ [id], ?_, ?_⟩
    · intro x hx
      rcases mem_append.mp hx with hx | hx
      · exact hb x hx
      · cases mem_singleton.mp hx
        exact hin hs.1
    · simp only [hr]
      exact ⟨hs.1, by simp [ItemSeq.order_link hid, hs.2]⟩
  | some stop =>
    simp only [hr] at hs
    obtain ⟨hk, C, ho⟩ := hs
    refine ⟨hi, A, body, hb, ?_⟩
    simp only [hr]
    exact ⟨hk, C ++ [id], by simp [ItemSeq.order_link hid, ho]⟩

namespace WellBuilt

section
variable (h : s.WellBuilt)
include h

theorem made_link (hid : id ∉ s.items.order) (hlt : id.index < s.items.size) :
    ∀ x ∈ (s.items.link id).order, x.index < s.items.size := by
  intro x hx
  rw [ItemSeq.order_link hid] at hx
  rcases mem_append.mp hx with hx | hx
  · exact h.made x hx
  · cases mem_singleton.mp hx
    exact hlt

theorem grow (hg : s.Grows s') (hc : s'.current = s.current)
    (ho : s'.items.order = s.items.order) (hsize : s.items.size ≤ s'.items.size)
    (hfun : s'.functions = s.functions)
    (hfresh : ∀ {id item}, s'.items.get? id = some item → item = { kind := item.kind })
    (hlabels : ∀ {l : Nat} {id}, s'.labels[l]? = some id →
      ∃ t, s'.items.get? id = some { kind := .target t } ∧ t.state = none ∧ t.label = ⟨l⟩)
    (hvars : ∀ {id v'}, s'.vars.get? id = some v' → v'.Fresh id ∧ v'.function.index < s.functions.size ∧
      ((∃ v, s.vars.get? id = some v) ∨ v'.passing = .notPassed)) : s'.WellBuilt where
  nodup := ho ▸ h.nodup
  made id hid := Nat.lt_of_lt_of_le (h.made id (ho ▸ hid)) hsize
  fresh := hfresh
  labels := hlabels
  vars hv := ⟨(hvars hv).1, hfun ▸ (hvars hv).2.1⟩
  passes hf := (h.passes (hfun ▸ hf)).grow hg fun hv _ => (hvars hv).2.2
  shape hf := (h.shape (hfun ▸ hf)).grow hg hc ho
  current hf := by
    rw [hfun]
    exact h.current (hc ▸ hf)

theorem vars_old {id : VarId} (hv : s.vars.get? id = some v) :
    v.Fresh id ∧ v.function.index < s.functions.size ∧ ((∃ v, s.vars.get? id = some v) ∨ v.passing = .notPassed) :=
  ⟨(h.vars hv).1, (h.vars hv).2, .inl ⟨v, hv⟩⟩

theorem addPrototype (prototypes : Array Prototype) : ({ s with prototypes } : Session).WellBuilt :=
  h.grow (.refl_of rfl rfl) rfl rfl (Nat.le_refl _) rfl h.fresh h.labels h.vars_old

theorem link (hid : id ∉ s.items.order) (hlt : id.index < s.items.size)
    (hin : ∀ f, s.current = some f → s.IsInside f id) :
    ({ s with items := s.items.link id } : Session).WellBuilt where
  nodup := ItemSeq.nodup_order _
  made := h.made_link hid hlt
  fresh := h.fresh
  labels := h.labels
  vars := h.vars
  passes hf := (h.passes hf).congr rfl
  shape hf := (h.shape hf).link hid (hin _)
  current := h.current

end

theorem grows_create (hi : s'.items = (s.items.create kind).2) (hv : s'.vars = s.vars) : s.Grows s' :=
  ⟨fun hk => ⟨_, hi ▸ (ItemSeq.get?_create_of_lt (ItemSeq.lt_size_of_get? hk)).trans hk, .inl rfl⟩,
    fun h => ⟨_, hv ▸ h, rfl, rfl, rfl⟩⟩

section
variable (h : s.WellBuilt)
include h

theorem fresh_create (hi : (s.items.create kind).2.get? id = some item) : item = { kind := item.kind } := by
  rcases ItemSeq.get?_create_cases hi with hi | ⟨-, rfl⟩
  · exact h.fresh hi
  · rfl

theorem create (kind : ItemKind) : ({ s with items := (s.items.create kind).2 } : Session).WellBuilt :=
  h.grow (grows_create rfl rfl) rfl rfl (by simp [ItemSeq.create, ItemSeq.size]) rfl h.fresh_create (fun hl => by
      obtain ⟨t, ht, hs⟩ := h.labels hl
      exact ⟨t, (ItemSeq.get?_create_of_lt (ItemSeq.lt_size_of_get? ht)).trans ht, hs⟩) h.vars_old

theorem addLabel (t : TargetItem) (ht : t.state = none) (hn : t.label = ⟨s.labels.size⟩) :
    ({ s with items := (s.items.create (.target t)).2, labels := s.labels.push ⟨s.items.size⟩ } :
      Session).WellBuilt := by
  refine h.grow (grows_create rfl rfl) rfl rfl (by simp [ItemSeq.create, ItemSeq.size]) rfl h.fresh_create ?_ h.vars_old
  intro l id hl
  rw [Array.getElem?_push] at hl
  split at hl
  · rename_i he
    cases hl
    exact ⟨t, ItemSeq.get?_create_self, ht, he ▸ hn⟩
  · obtain ⟨t', ht', hs⟩ := h.labels hl
    exact ⟨t', (ItemSeq.get?_create_of_lt (ItemSeq.lt_size_of_get? ht')).trans ht', hs⟩

theorem setTarget
    (hid : s.items.get? id = some { kind := .target t }) (ht : t'.state = t.state) (hn : t'.label = t.label) :
    ({ s with items := s.items.modify id ({ · with kind := .target t' }) } : Session).WellBuilt := by
  have hself : (s.items.modify id ({ · with kind := .target t' })).get? id = some { kind := .target t' } := by
    rw [ItemSeq.get?_modify_self, hid]
    rfl
  have hother : ∀ {x}, x ≠ id → (s.items.modify id ({ · with kind := .target t' })).get? x = s.items.get? x := fun hx =>
    ItemSeq.get?_modify_of_ne _ (Ne.symm hx) _
  refine h.grow ⟨fun {x kind} hk => ?_, fun hv => ⟨_, hv, rfl, rfl, rfl⟩⟩ rfl rfl
    (by simp [ItemSeq.modify, ItemSeq.size]) rfl (fun {x item} hx => ?_) (fun {l x} hl => ?_) h.vars_old
  · by_cases hx : x = id
    · subst hx
      cases hid ▸ hk
      exact ⟨_, hself, .inr ⟨t, t', rfl, rfl, ht⟩⟩
    · exact ⟨kind, (hother hx).trans hk, .inl rfl⟩
  · rcases ItemSeq.get?_modify_cases hx with ⟨-, hx⟩ | ⟨rfl, _, hold, rfl⟩
    · exact h.fresh hx
    · cases hid ▸ hold
      rfl
  obtain ⟨t0, ht0, hs⟩ := h.labels hl
  by_cases hx : x = id
  · subst hx
    cases hid ▸ ht0
    exact ⟨t', hself, ht.trans hs.1, hn.trans hs.2⟩
  · exact ⟨t0, (hother hx).trans ht0, hs⟩

theorem addVar (hf : s.current = some f) (hv : v.Fresh ⟨s.vars.size⟩)
    (hvf : v.function = f) (hp : v.passing = .notPassed) :
    ({ s with vars := { s.vars with vars := s.vars.vars.push v } } : Session).WellBuilt := by
  obtain ⟨r, hr, -⟩ := h.current hf
  have hlt : f.index < s.functions.size := (Array.getElem?_eq_some_iff.mp hr).1
  refine h.grow ⟨fun hk => ⟨_, hk, .inl rfl⟩, fun {id x} hx => ?_⟩ rfl rfl (Nat.le_refl _) rfl h.fresh
    h.labels fun {id x} hx => ?_
  · exact ⟨x, VarTable.get?_push_of_lt (VarTable.lt_size_of_get? hx) ▸ hx, rfl, rfl, rfl⟩
  rcases VarTable.get?_push_eq_some hx with hx | ⟨rfl, rfl⟩
  · exact h.vars_old hx
  · exact ⟨hv, hvf ▸ hlt, .inr hp⟩

theorem setPriority (id : VarId) (priority : Nat) :
    ({ s with vars := s.vars.modify id ({ · with priority }) } : Session).WellBuilt := by
  refine h.grow ⟨fun hk => ⟨_, hk, .inl rfl⟩, fun {x v} hv => ?_⟩ rfl rfl (Nat.le_refl _) rfl h.fresh
    h.labels fun {x v'} hv' => ?_ <;> by_cases hx : x = id
  · subst hx
    exact ⟨_, (VarTable.get?_modify_self ..).trans (congrArg (Option.map _) hv), rfl, rfl, rfl⟩
  · exact ⟨v, (VarTable.get?_modify_of_ne _ (Ne.symm hx) _).trans hv, rfl, rfl, rfl⟩
  · subst hx
    obtain ⟨v, hv, rfl⟩ := map_eq_some_iff.mp (VarTable.get?_modify_self .. ▸ hv')
    obtain ⟨⟨hb, ht⟩, hlt⟩ := h.vars hv
    exact ⟨⟨by rw [hb], ht⟩, hlt, .inl ⟨v, hv⟩⟩
  · exact h.vars_old (VarTable.get?_modify_of_ne _ (Ne.symm hx) _ ▸ hv')

/-- Opening a function: its item is the last one, and its arguments are the new variables. -/
theorem openFunction (hc : s.current = none) {vars : VarTable} (ho : s.items.order = A ++ [record.item])
    (hi : s.items.get? record.item = some { kind := .function ⟨s.functions.size⟩ })
    (hs : record.stop = none) (hold : ∀ {id v}, s.vars.get? id = some v → vars.get? id = some v)
    (hnew : ∀ {id v}, vars.get? id = some v → s.vars.get? id = some v ∨ v.Fresh id ∧ v.function = ⟨s.functions.size⟩)
    (hp : ({ s with vars } : Session).Passes ⟨s.functions.size⟩ record.args) :
    ({ s with vars, functions := s.functions.push record, current := some ⟨s.functions.size⟩ } :
      Session).WellBuilt := by
  have hfun : ∀ {f : FunctionId} {r}, (s.functions.push record)[f.index]? = some r →
      s.functions[f.index]? = some r ∧ f.index < s.functions.size ∨ f = ⟨s.functions.size⟩ ∧ r = record := by
    intro f r hr
    rw [Array.getElem?_push] at hr
    split at hr
    · rename_i he
      cases hr
      exact .inr ⟨congrArg FunctionId.mk he, rfl⟩
    · exact .inl ⟨hr, (Array.getElem?_eq_some_iff.mp hr).1⟩
  have hg : s.Grows { s with
      vars, functions := s.functions.push record, current := some ⟨s.functions.size⟩ } :=
    ⟨fun hk => ⟨_, hk, .inl rfl⟩, fun hv => ⟨_, hold hv, rfl, rfl, rfl⟩⟩
  refine ⟨h.nodup, h.made, h.fresh, h.labels, fun {id v} hv => ?_, fun {f r} hr => ?_, fun {f r} hr => ?_,
    fun {f} hf => ?_⟩
  · rw [Array.size_push]
    rcases hnew hv with hv | ⟨hb, hf⟩
    · exact ⟨(h.vars hv).1, Nat.lt_succ_of_lt (h.vars hv).2⟩
    · exact ⟨hb, by simp [hf]⟩
  · rcases hfun hr with ⟨hr, hlt⟩ | ⟨rfl, rfl⟩
    · refine (h.passes hr).grow hg fun {id v} hv hf => .inl ?_
      rcases hnew hv with hv | ⟨-, hf'⟩
      · exact ⟨v, hv⟩
      · rw [← hf, hf'] at hlt
        exact absurd hlt (Nat.lt_irrefl _)
    · exact hp.congr rfl
  · rcases hfun hr with ⟨hr, -⟩ | ⟨rfl, rfl⟩
    · obtain ⟨hi', A', body, hb, hm⟩ := h.shape hr
      refine ⟨hi', A', body, fun id hid => (hb id hid).grow hg, ?_⟩
      cases hst : r.stop with
      | none =>
        simp only [hst, hc] at hm
        exact absurd hm.1 (by simp)
      | some stop =>
        simp only [hst] at hm
        exact hm
    · exact ⟨hi, A, [], by simp, by simp [hs, ho]⟩
  · cases hf
    exact ⟨record, by simp, hs⟩

/-- Closing the open function. -/
theorem closeFunction (hf : s.current = some f)
    (hid : id ∉ s.items.order) (hk : s.items.get? id = some { kind := .functionEnd f }) :
    ({ s with
      items := s.items.link id
      functions := s.functions.modify f.index ({ · with stop := some id })
      current := none } : Session).WellBuilt := by
  have hfun : ∀ {g : FunctionId} {r}, (s.functions.modify f.index ({ · with stop := some id }))[g.index]? = some r →
      (g = f ∧ ∃ r0, s.functions[g.index]? = some r0 ∧ r = { r0 with stop := some id }) ∨
        (g ≠ f ∧ s.functions[g.index]? = some r) := by
    intro g r hr
    rw [Array.getElem?_modify] at hr
    by_cases hg : g = f
    · subst hg
      simp only [if_true, map_eq_some_iff] at hr
      obtain ⟨r0, hr0, rfl⟩ := hr
      exact .inl ⟨rfl, r0, hr0, rfl⟩
    · rw [if_neg fun e => hg (congrArg FunctionId.mk e.symm)] at hr
      exact .inr ⟨hg, hr⟩
  refine ⟨ItemSeq.nodup_order _, h.made_link hid (ItemSeq.lt_size_of_get? hk), h.fresh, h.labels,
    fun {id v} hv => ?_, fun {g r} hr => ?_, fun {g r} hr => ?_, fun {g} hg => by cases hg⟩
  · simpa using h.vars hv
  · rcases hfun hr with ⟨rfl, r0, hr0, rfl⟩ | ⟨-, hr⟩
    · exact (h.passes hr0).congr rfl
    · exact (h.passes hr).congr rfl
  rcases hfun hr with ⟨rfl, r0, hr0, rfl⟩ | ⟨hg, hr⟩
  · obtain ⟨r', hr', hstop⟩ := h.current hf
    cases hr0 ▸ hr'
    obtain ⟨hi, A, body, hb, hm⟩ := h.shape hr0
    simp only [hstop] at hm
    exact ⟨hi, A, body, hb, hk, [], by simp [ItemSeq.order_link hid, hm.2]⟩
  obtain ⟨hi, A, body, hb, hm⟩ := h.shape hr
  refine ⟨hi, A, body, hb, ?_⟩
  cases hst : r.stop with
  | none =>
    simp only [hst, hf] at hm
    exact absurd (some.inj hm.1).symm hg
  | some stop =>
    simp only [hst] at hm
    obtain ⟨hk', C, ho⟩ := hm
    exact ⟨hk', C ++ [id], by simp [ItemSeq.order_link hid, ho]⟩

end

theorem open_record (hb : s.WellBuilt) (hf : s.current = some f) :
    ∃ r, s.functions[f.index]? = some r ∧ r.stop = none ∧ r.item ∈ s.items.order := by
  obtain ⟨r, hr, hs⟩ := hb.current hf
  obtain ⟨-, A, body, -, hm⟩ := hb.shape hr
  simp only [hs] at hm
  exact ⟨r, hr, hs, by simp [hm.2]⟩

end WellBuilt

end Session

namespace Builder
open Build
variable {s : Session}

theorem current_ok : current s = .ok f s' ↔ s.current = some f ∧ s = s' := by
  simp only [current, bind_ok, get_ok]
  constructor
  · rintro ⟨_, _, ⟨rfl, rfl⟩, h⟩
    cases hc : s.current with
    | some g => simpa [hc, pure_ok] using h
    | none => simp [hc, throw_ok] at h
  · rintro ⟨h, rfl⟩
    exact ⟨s, s, ⟨rfl, rfl⟩, by simp [h, pure_ok]⟩

theorem append_ok {id : ItemId} (h : append kind s = .ok id s') : id = ⟨s.items.size⟩ ∧
      id ∉ s.items.order ∧ s' = { s with items := (s.items.create kind).2.link id } := by
  simp only [append, bind_ok, create_ok, insert_ok] at h
  obtain ⟨_, _, ⟨rfl, rfl⟩, _, _, ⟨⟩, _, _, ⟨⟩, _, _, ⟨items, hi, rfl⟩, ⟨⟩⟩ := h
  obtain ⟨hid, rfl⟩ := ItemSeq.insert_last_ok (s := (s.items.create kind).2) hi
  exact ⟨rfl, hid, rfl⟩

theorem bind_ok' (h : bind label s = .ok u s') :
    ∃ target, s.labels[label.index]? = some target ∧ target ∉ s.items.order ∧
      s' = { s with items := s.items.link target } := by
  simp only [bind, bind_ok, labelTarget_ok, getItem_ok, check_ok, insert_ok] at h
  obtain ⟨target, _, ⟨ht, rfl⟩, _, _, ⟨-, rfl⟩, _, _, ⟨⟩, -, _, _, ⟨⟩, _, _, ⟨⟩, items, hi, rfl⟩ := h
  obtain ⟨hid, rfl⟩ := ItemSeq.insert_last_ok hi
  exact ⟨target, ht, hid, rfl⟩

theorem checkVar_ok {id : VarId} (h : checkVar id s = .ok u s') :
    s' = s ∧ ∃ f, s.current = some f ∧ s.IsVarOf f id := by
  simp only [checkVar, bind_ok, current_ok, getVar_ok] at h
  obtain ⟨f, _, ⟨hf, rfl⟩, v, _, ⟨hv, rfl⟩, h⟩ := h
  by_cases hvf : v.function = f
  · rw [if_neg (not_not.mpr hvf)] at h
    cases h
    exact ⟨rfl, f, hf, by simp [Session.IsVarOf, hv, hvf]⟩
  · rw [if_pos hvf, usage_ok] at h
    exact h.elim

theorem checks_ok {α : Type} {check : α → Build Unit} {P : α → Prop} {l : List α}
    (hcheck : ∀ {a u s'}, check a s = .ok u s' → s' = s ∧ P a) (h : l.forM check s = .ok u s') :
    s' = s ∧ ∀ a ∈ l, P a := by
  induction l with
  | nil => exact ⟨(forM_nil_ok.mp h).symm, by simp⟩
  | cons a l ih =>
    obtain ⟨t, ha, hl⟩ := forM_cons_ok.mp h
    obtain ⟨rfl, hp⟩ := hcheck ha
    obtain ⟨rfl, hall⟩ := ih hl
    exact ⟨rfl, forall_mem_cons.mpr ⟨hp, hall⟩⟩

theorem checkOperand_ok (h : checkOperand o s = .ok u s') : s' = s ∧ s.Admits o := by
  cases o with
  | var v =>
    obtain ⟨rfl, hv⟩ := checkVar_ok h
    exact ⟨rfl, by simpa [Operand.vars] using hv, nofun⟩
  | mem m =>
    obtain ⟨rfl, hv⟩ := checks_ok checkVar_ok h
    exact ⟨rfl, hv, nofun⟩
  | label l =>
    simp only [checkOperand, bind_ok, labelTarget_ok] at h
    obtain ⟨_, _, ⟨hl, rfl⟩, ⟨⟩⟩ := h
    refine ⟨rfl, by simp [Operand.vars], ?_⟩
    rintro _ ⟨⟩
    exact (Array.getElem?_eq_some_iff.mp hl).1
  | reg | imm =>
    cases h
    exact ⟨rfl, by simp [Operand.vars], nofun⟩

theorem checkArgument_ok (h : checkArgument o s = .ok u s') : s' = s ∧ s.Admits o := by
  cases o with
  | mem | label => exact (throw_ok.mp h).elim
  | var | reg | imm => exact checkOperand_ok h

theorem createLabel_ok (h : createLabel s = .ok label s') : label = ⟨s.labels.size⟩ ∧ s' = { s with
      items := (s.items.create (.target { label := ⟨s.labels.size⟩ })).2
      labels := s.labels.push ⟨s.items.size⟩ } := by
  obtain ⟨_, _, ⟨rfl, rfl⟩, _, _, ⟨rfl, rfl⟩, _, _, rfl, rfl, rfl⟩ := h
  exact ⟨rfl, rfl⟩

theorem createVar_ok {id : VarId} (h : createVar ty f s = .ok id s') : ∃ cls, ty.cls = some cls ∧ id = ⟨s.vars.size⟩ ∧
      s' = { s with vars := { s.vars with vars := s.vars.vars.push { id, ty, cls, function := f } } } := by
  simp only [createVar, bind_ok, lift_ok] at h
  obtain ⟨_, _, ⟨⟩, ⟨id', vars⟩, _, ⟨hv, rfl⟩, _, _, ⟨⟩, ⟨⟩⟩ := h
  unfold VarTable.newVar at hv
  split at hv
  · cases hv
  rename_i cls hcls
  cases hv
  exact ⟨cls, hcls, rfl, rfl⟩

theorem createArg_ok {info : ArgumentInfo} {id : VarId} (h : createArg f info s = .ok id s') :
    ∃ v, id = ⟨s.vars.size⟩ ∧ v.Fresh id ∧ v.function = f ∧
      s' = { s with vars := { s.vars with vars := s.vars.vars.push v } } ∧
      ((∀ r, info.location = .register r → info.ty.cls = some r.cls) → v.arrival = some info.location.place) := by
  simp only [createArg, bind_ok] at h
  obtain ⟨_, t, hv, h⟩ := h
  obtain ⟨cls, hcls, rfl, rfl⟩ := createVar_ok hv
  have hpush : ∀ (v : Variable) (g : Variable → Variable),
      ({ s.vars with vars := s.vars.vars.push v } : VarTable).modify ⟨s.vars.size⟩ g =
        { s.vars with vars := s.vars.vars.push (g v) } := by
    intro v g
    unfold VarTable.modify
    congr 1
    exact modify_push_last _ _ _
  cases hl : info.location with
  | register r =>
    simp only [hl, bind_ok, modifyVar_ok] at h
    obtain ⟨_, _, ⟨-, rfl⟩, ⟨⟩⟩ := h
    refine ⟨_, rfl, ⟨rfl, hcls⟩, rfl, by rw [hpush], fun hc => ?_⟩
    rw [hc r rfl] at hcls
    cases hcls
    rfl
  | stack offset =>
    simp only [hl, bind_ok, modifyVar_ok] at h
    obtain ⟨_, _, ⟨-, rfl⟩, ⟨⟩⟩ := h
    refine ⟨_, rfl, ⟨rfl, hcls⟩, rfl, by rw [hpush], fun _ => rfl⟩

/-- The variables of the arguments are new, and each arrives where the signature says. -/
theorem createArgs_ok (hn : (infos.map (·.location)).Nodup)
    (hc : ∀ info ∈ infos, ∀ r, info.location = .register r → info.ty.cls = some r.cls)
    (h : infos.mapM (createArg f) s = .ok args s') :
    (∃ vars, s' = { s with vars }) ∧
    (∀ {id v}, s.vars.get? id = some v → s'.vars.get? id = some v) ∧
    (∀ {id v}, s'.vars.get? id = some v → s.vars.get? id = some v ∨ id ∈ args ∧ v.Fresh id ∧ v.function = f) ∧
    args.Nodup ∧
    (∀ id ∈ args, s.vars.size ≤ id.index ∧ ∃ v, s'.vars.get? id = some v ∧ v.function = f ∧
      ∃ info ∈ infos, v.arrival = some info.location.place) ∧
    (∀ {a b v w p}, a ∈ args → b ∈ args → s'.vars.get? a = some v → v.arrival = some p →
      s'.vars.get? b = some w → w.arrival = some p → a = b) ∧
    List.Forall₂ (s'.vars.Brings) args infos := by
  induction infos generalizing s args with
  | nil =>
    obtain ⟨rfl, rfl⟩ := mapM_nil_ok.mp h
    exact ⟨⟨s.vars, rfl⟩, id, .inl, nodup_nil, by simp, by simp, .nil⟩
  | cons info infos ih =>
    obtain ⟨_, t, rest, ha, hr, rfl⟩ := mapM_cons_ok.mp h
    obtain ⟨hl, hn⟩ := nodup_cons.mp hn
    obtain ⟨x, rfl, hx, hxf, rfl, hxa⟩ := createArg_ok ha
    obtain ⟨⟨vars, rfl⟩, hold, hnew, hnd, hargs, hdist, hbring⟩ := ih hn (fun i hi => hc i (mem_cons_of_mem _ hi)) hr
    have hxa := hxa (hc info mem_cons_self)
    have hself := hold VarTable.get?_push_self
    have hlt : ∀ id ∈ rest, s.vars.size < id.index := by
      intro id hid
      have := (hargs id hid).1
      simp only [VarTable.size, Array.size_push] at this ⊢
      omega
    have hsep : ∀ {b w p}, b ∈ rest → vars.get? b = some w → x.arrival = some p → w.arrival ≠ some p := by
      intro b w p hb hw hp hwp
      obtain ⟨-, w', hw', -, i, hi, hia⟩ := hargs b hb
      rw [show vars.get? b = some w' from hw'] at hw
      cases hw
      cases hxa ▸ hp
      rw [hia] at hwp
      exact hl (mem_map.mpr ⟨i, hi, ArgLocation.place_injective (some.inj hwp)⟩)
    refine ⟨⟨vars, rfl⟩, fun hv => hold ?_, fun hv => ?_, ?_, ?_, ?_, .cons ⟨x, hself, hxa⟩ hbring⟩
    · exact (VarTable.get?_push_of_lt (VarTable.lt_size_of_get? hv)).trans hv
    · rcases hnew hv with hv | ⟨hid, hfr⟩
      · rcases VarTable.get?_push_eq_some hv with hv | ⟨rfl, rfl⟩
        · exact .inl hv
        · exact .inr ⟨mem_cons_self, hx, hxf⟩
      · exact .inr ⟨mem_cons_of_mem _ hid, hfr⟩
    · exact nodup_cons.mpr ⟨fun hm => Nat.lt_irrefl _ (hlt _ hm), hnd⟩
    · intro id hid
      rcases mem_cons.mp hid with rfl | hid
      · exact ⟨Nat.le_refl _, x, hself, hxf, info, mem_cons_self, hxa⟩
      · obtain ⟨-, v, hv, hvf, i, hi, hia⟩ := hargs id hid
        exact ⟨Nat.le_of_lt (hlt id hid), v, hv, hvf, i, mem_cons_of_mem _ hi, hia⟩
    intro a b v w p ha hb hv hva hw hwa
    rcases mem_cons.mp ha with rfl | ha <;> rcases mem_cons.mp hb with rfl | hb
    · rfl
    · cases hself ▸ hv
      exact absurd hwa (hsep hb hw hva)
    · cases hself ▸ hw
      exact absurd hva (hsep ha hv hwa)
    · exact hdist ha hb hv hva hw hwa

/-- What a signature may change in its convention; the places of the arguments and results stay. -/
structure Tuning where
  preserved : Option (PerClass RegMask) := none
  calleePopsStack : Option Bool := none
  stackAlignedByOs : Option Bool := none
  redZoneSize : Option Nat := none
  deriving DecidableEq, Repr

def Tuning.apply (t : Tuning) (p : Prototype) : Prototype :=
  { p with
    preserved := t.preserved.getD p.preserved
    calleePopsStack := t.calleePopsStack.getD p.calleePopsStack
    stackAlignedByOs := t.stackAlignedByOs.getD p.stackAlignedByOs
    redZoneSize := t.redZoneSize.getD p.redZoneSize }

/-- A call of the building interface. Functions are opened with System V signatures. -/
inductive Call where
  | newFunction (args returns : List VarType) (hints : FunctionHints) (tuning : Tuning := {})
  | newVar (ty : VarType)
  | setPriority (var : VarId) (priority : Nat)
  | emit (opcode : Opcode) (operands : List Operand)
  | newLabel
  | bind (label : LabelId)
  | jump (opcode : Opcode) (label : LabelId) (expected : BranchHint)
  | ret (operands : List Operand)
  | call (target : Operand) (prototype : Prototype) (args : List Operand) (returns : List VarRef)
  | hint (var : VarRef) (directive : Directive) (reg : Option Reg)
  | comment (text : String)
  | align (alignment : Nat)
  | embed (bytes : List UInt8)
  | endFunction
  deriving DecidableEq, Repr

/-- Make a call, and forget what it returns. -/
def Call.run : Call → Build Unit
  | .newFunction args returns hints tuning => do
    let p ← Prototype.sysv args returns
    let _ ← Builder.newFunction (tuning.apply p) hints
  | .newVar ty => do let _ ← Builder.newVar ty
  | .setPriority var priority => Builder.setPriority var priority
  | .emit opcode operands => do let _ ← Builder.emit opcode operands
  | .newLabel => do let _ ← Builder.newLabel
  | .bind label => Builder.bind label
  | .jump opcode label expected => do let _ ← Builder.jump opcode label expected
  | .ret operands => do let _ ← Builder.ret operands
  | .call target prototype args returns => do let _ ← Builder.call target prototype args returns
  | .hint var directive reg => do let _ ← Builder.hint var directive reg
  | .comment text => do let _ ← Builder.comment text
  | .align alignment => do let _ ← Builder.align alignment
  | .embed bytes => do let _ ← Builder.embed bytes
  | .endFunction => do let _ ← Builder.endFunction

/-- The program that some calls make. -/
def program (calls : List Call) : Build Unit := calls.forM Call.run

/-- The call opens a function. -/
def Call.opensFunction : Call → Bool
  | .newFunction .. => true
  | _ => false

/-- The items that a call may append to the open function. -/
def Call.Appends : Call → ItemKind → Prop
  | .emit opcode operands, kind => opcode.isControlFlow = false ∧ kind = .instruction { opcode, operands }
  | .jump opcode target expected, kind => ∃ nextJump, kind = .jump { opcode, target, hint := expected, nextJump }
  | .ret _, kind => ∃ r, kind = .ret r
  | .call .., kind => ∃ c, kind = .call c
  | .hint .., kind => ∃ d, kind = .hint d
  | .comment text, kind => kind = .comment text
  | .align alignment, kind => kind = .align alignment
  | .embed bytes, kind => kind = .data bytes
  | _, _ => False

/-- What a call does to the program, piece by piece. -/
inductive Act (c : Call) (s : Session) : Session → Prop
  | append {kind : ItemKind} (hk : c.Appends kind) (hin : ∀ f, s.current = some f → kind.Inside f)
      (hv : ∀ v ∈ kind.vars, ∃ f, s.current = some f ∧ s.IsVarOf f v) (hl : ∀ l ∈ kind.names, l.index < s.labels.size) :
      Act c s { s with items := (s.items.create kind).2.link ⟨s.items.size⟩ }
  | bind {label : LabelId} {target : ItemId} (hl : s.labels[label.index]? = some target) (hid : target ∉ s.items.order) :
      Act c s { s with items := s.items.link target }
  | label : Act c s { s with
      items := (s.items.create (.target { label := ⟨s.labels.size⟩ })).2
      labels := s.labels.push ⟨s.items.size⟩ }
  | target {id : ItemId} {t t' : TargetItem} (hi : s.items.get? id = some { kind := .target t }) (hs : t'.state = t.state)
      (hl : t'.label = t.label) : Act c s { s with items := s.items.modify id ({ · with kind := .target t' }) }
  | var {f : FunctionId} {v : Variable} (hf : s.current = some f) (hv : v.Fresh ⟨s.vars.size⟩) (hvf : v.function = f)
      (hp : v.passing = .notPassed) : Act c s { s with vars := { s.vars with vars := s.vars.vars.push v } }
  | priority (id : VarId) (priority : Nat) : Act c s { s with vars := s.vars.modify id ({ · with priority }) }
  | prototype (p : Prototype) : Act c s { s with prototypes := s.prototypes.push p }
  | opens {record : FunctionRecord} {vars : VarTable} {entry : ItemId} {p : Prototype} (hc : c.opensFunction = true)
      (hcur : s.current = none) (hentry : s.labels[record.entryLabel.index]? = some entry) (hid : entry ∉ s.items.order)
      (hne : record.entryLabel ≠ record.exitLabel) (hexit : record.exitLabel.index < s.labels.size)
      (hi : record.item = ⟨s.items.size⟩) (hs : record.stop = none)
      (hold : ∀ {id v}, s.vars.get? id = some v → vars.get? id = some v)
      (hnew : ∀ {id v}, vars.get? id = some v → s.vars.get? id = some v ∨ v.Fresh id ∧ v.function = ⟨s.functions.size⟩)
      (hp : ({ s with vars } : Session).Passes ⟨s.functions.size⟩ record.args)
      (hproto : s.prototypes[record.prototype.index]? = some p) (hargs : List.Forall₂ vars.Brings record.args p.args) :
      Act c s { s with
        items := ((s.items.create (.function ⟨s.functions.size⟩)).2.link ⟨s.items.size⟩).link entry
        vars
        functions := s.functions.push record
        current := some ⟨s.functions.size⟩ }
  | closes {f : FunctionId} {record : FunctionRecord} {exit : ItemId} (hf : s.current = some f)
      (hr : s.functions[f.index]? = some record) (hexit : s.labels[record.exitLabel.index]? = some exit)
      (hid : exit ∉ s.items.order) : Act c s { s with
        items := ((s.items.link exit).create (.functionEnd f)).2.link ⟨s.items.size⟩
        functions := s.functions.modify f.index ({ · with stop := some ⟨s.items.size⟩ })
        current := none }

theorem not_mem_new (hs : s.WellBuilt) : (⟨s.items.size⟩ : ItemId) ∉ s.items.order := fun h =>
  Nat.lt_irrefl _ (hs.made _ h)

theorem inside_of_label (hs : s.WellBuilt) {target : ItemId} (hl : s.labels[label.index]? = some target)
    (f : FunctionId) : target.index < s.items.size ∧ s.IsInside f target := by
  obtain ⟨t, hk, hst, -⟩ := hs.labels hl
  exact ⟨ItemSeq.lt_size_of_get? hk, _, hk, hst, by simp [ItemKind.vars]⟩

/-- Every piece keeps a program well built. -/
theorem Act.built (h : Act c s s') (hs : s.WellBuilt) : s'.WellBuilt := by
  cases h with
  | append hk hin hv hl =>
    refine (hs.create _).link (not_mem_new hs) (by simp [ItemSeq.create, ItemSeq.size]) fun f hf => ?_
    refine ⟨_, ItemSeq.get?_create_self, hin f hf, fun v hmem => ?_⟩
    obtain ⟨g, hg, hvg⟩ := hv v hmem
    cases hf ▸ hg
    exact hvg
  | bind hl hid => exact hs.link hid (inside_of_label hs hl ⟨0⟩).1 fun f _ => (inside_of_label hs hl f).2
  | label => exact hs.addLabel _ rfl rfl
  | target hi hst hl => exact hs.setTarget hi hst hl
  | var hf hv hvf hp => exact hs.addVar hf hv hvf hp
  | priority id priority => exact hs.setPriority id priority
  | prototype p => exact hs.addPrototype _
  | @opens record vars entry p hc hcur hentry hid hne hexit hi hst hold hnew hp =>
    obtain ⟨t, hk, ht, -⟩ := hs.labels hentry
    have hlt := ItemSeq.lt_size_of_get? hk
    have hitem : Session.WellBuilt { s with
        items := (s.items.create (.function ⟨s.functions.size⟩)).2.link ⟨s.items.size⟩ } :=
      (hs.create _).link (not_mem_new hs) (by simp [ItemSeq.create, ItemSeq.size]) fun f hf => by
        rw [hcur] at hf
        cases hf
    have horder : ((s.items.create (.function ⟨s.functions.size⟩)).2.link ⟨s.items.size⟩).order =
        s.items.order ++ [record.item] := by
      rw [hi]
      exact ItemSeq.order_link (not_mem_new hs)
    have hopen := hitem.openFunction hcur horder (by rw [hi]; exact ItemSeq.get?_create_self) hst hold hnew (hp.congr rfl)
    refine hopen.link (fun hm => ?_) (Nat.lt_of_lt_of_le hlt (by simp [ItemSeq.create, ItemSeq.size, ItemSeq.link]))
      fun f _ => ⟨_, (ItemSeq.get?_create_of_lt hlt).trans hk, ht, by simp [ItemKind.vars]⟩
    rcases mem_append.mp (horder ▸ hm) with hm | hm
    · exact hid hm
    · rw [hi] at hm
      exact Nat.ne_of_lt hlt (congrArg ItemId.index (mem_singleton.mp hm))
  | closes hf hr hexit hid =>
    have hlink := hs.link hid (inside_of_label hs hexit ⟨0⟩).1 fun f _ => (inside_of_label hs hexit f).2
    exact (hlink.create _).closeFunction hf (not_mem_new hlink) ItemSeq.get?_create_self

/-- What a call does comes in pieces. -/
abbrev Acts (c : Call) : Session → Session → Prop := Relation.ReflTransGen (Act c)

theorem Admits.flatMap_vars {l : List Operand} (h : ∀ o ∈ l, s.Admits o) :
    ∀ v ∈ l.flatMap Operand.vars, ∃ f, s.current = some f ∧ s.IsVarOf f v := fun v hv => by
  obtain ⟨o, ho, hv⟩ := mem_flatMap.mp hv
  exact (h o ho).1 v hv

theorem append_acts {id : ItemId} (h : append kind s = .ok id s')
    (hk : c.Appends kind) (hin : ∀ f, s.current = some f → kind.Inside f)
    (hv : ∀ v ∈ kind.vars, ∃ f, s.current = some f ∧ s.IsVarOf f v) (hl : ∀ l ∈ kind.names, l.index < s.labels.size) :
    Acts c s s' := by
  obtain ⟨rfl, -, rfl⟩ := append_ok h
  exact .single (.append hk hin hv hl)

theorem jump_acts {id : ItemId} (hs : s.WellBuilt)
    (h : jump opcode label expected s = .ok id s') : Acts (.jump opcode label expected) s s' := by
  simp only [jump, bind_ok, current_ok, labelTarget_ok, getItem_ok] at h
  obtain ⟨f, _, ⟨hf, rfl⟩, target, _, ⟨ht, rfl⟩, item, _, ⟨hi, rfl⟩, h⟩ := h
  obtain ⟨t, hk, -⟩ := hs.labels ht
  rw [hk] at hi
  cases hi
  simp only [bind_ok, setKind_ok] at h
  obtain ⟨id', u, ha, _, _, ⟨-, rfl⟩, ⟨⟩⟩ := h
  refine .tail (append_acts ha ⟨_, rfl⟩ (fun _ _ => rfl) (by simp [ItemKind.vars]) fun l hl => ?_) ?_
  · cases mem_singleton.mp hl
    exact (Array.getElem?_eq_some_iff.mp ht).1
  obtain ⟨rfl, -, rfl⟩ := append_ok ha
  exact .target ((ItemSeq.get?_create_of_lt (ItemSeq.lt_size_of_get? hk)).trans hk) rfl rfl

theorem call_acts {target : Operand} {prototype : Prototype} {args : List Operand} {returns : List VarRef} {id : ItemId}
    (h : call target prototype args returns s = .ok id s') :
    Acts (.call target prototype args returns) s s' := by
  simp only [call, bind_ok, current_ok, check_ok, addPrototype, modifyGet_ok, Prod.mk.injEq] at h
  obtain ⟨f, _, ⟨hf, rfl⟩, -, -, _, t₁, h₁, _, t₂, h₂, _, t₃, h₃, _, _, ⟨rfl, rfl⟩, h⟩ := h
  obtain ⟨rfl, hargs⟩ := checks_ok checkArgument_ok h₁
  obtain ⟨rfl, htarget⟩ := checkOperand_ok h₂
  obtain ⟨rfl, hreturns⟩ := checks_ok (checkOperand_ok) h₃
  refine .head (.prototype prototype) (append_acts h ⟨_, rfl⟩ (fun _ _ => trivial) (fun v hv => ?_)
    fun l hl => htarget.2 l (by simpa [ItemKind.names] using hl))
  rcases mem_append.mp hv with hv | hv
  · refine Admits.flatMap_vars (l := args ++ [target]) (fun o ho => ?_) v hv
    rcases mem_append.mp ho with ho | ho
    · exact hargs o ho
    · cases mem_singleton.mp ho
      exact htarget
  · obtain ⟨r, hr, rfl⟩ := mem_map.mp hv
    exact (hreturns r hr).1 r.id mem_cons_self

theorem hint_acts {id : ItemId} (h : hint var directive reg s = .ok id s') : Acts (.hint var directive reg) s s' := by
  simp only [hint, bind_ok] at h
  obtain ⟨_, t, hc, h⟩ := h
  obtain ⟨rfl, hv, -⟩ := checkOperand_ok hc
  have happend : ∀ {d : HintItem}, d.var = var.id → append (.hint d) t = .ok id s' → Acts (.hint var directive reg) t s' :=
    fun hd ha => append_acts ha ⟨_, rfl⟩ (fun _ _ => trivial) (by simpa [ItemKind.vars, hd, Operand.vars] using hv) nofun
  cases reg with
  | none => exact happend rfl h
  | some r =>
    simp only [bind_ok, getVar_ok, check_ok] at h
    obtain ⟨_, _, ⟨-, rfl⟩, -, h⟩ := h
    exact happend rfl h

theorem newFunction_acts (hopen : c.opensFunction = true)
    (hs : s.WellBuilt) (hp : p.PlacesApart) (h : newFunction p hints s = .ok f s') : Acts c s s' := by
  obtain ⟨hn, hplaces⟩ := hp
  simp only [newFunction, bind_ok] at h
  obtain ⟨_, _, ⟨⟩, h⟩ := h
  by_cases hc : s.current.isSome
  · simp only [hc, if_true, bind_ok, throw_ok, false_and, exists_false] at h
  simp only [hc, Bool.false_eq_true, if_false, bind_ok, addPrototype, modifyGet_ok, Prod.mk.injEq] at h
  obtain ⟨_, _, ⟨⟩, ids, _, hargs, _, _, ⟨rfl, rfl⟩, entry, _, hentry, exit, _, hexit, item, _,
    hitem, _, _, ⟨⟩, _, t, hbind, ⟨⟩⟩ := h
  obtain ⟨⟨vars, rfl⟩, hold, hnew, hnd, hids, hdist, hbring⟩ :=
    createArgs_ok hn (fun i hi r hr => (hplaces i hi r hr).1) hargs
  obtain ⟨rfl, rfl⟩ := createLabel_ok hentry
  obtain ⟨rfl, rfl⟩ := createLabel_ok hexit
  obtain ⟨rfl, hid, rfl⟩ := append_ok hitem
  obtain ⟨target, htarget, hid', rfl⟩ := bind_ok' hbind
  have old : ∀ {id v}, s.vars.get? id = some v → v.function ≠ ⟨s.functions.size⟩ := fun hv he => by
    have := (hs.vars hv).2
    rw [he] at this
    exact Nat.lt_irrefl _ this
  refine .head (.prototype p) (.head .label (.head .label (.single ?_)))
  refine .opens hopen (by simpa using hc) htarget (fun hm => hid' (ItemSeq.order_link hid ▸ mem_append_left _ hm))
    (by simp) (by simp) rfl rfl
    hold (fun hv => (hnew hv).imp_right And.right) ?_ (p := p) (by simp) hbring
  refine ⟨hnd, fun id hid => ?_, fun {a b v w q} hv hvf hva hw hwf hwa => ?_, fun {id v} hv hvf hid => ?_⟩
  · obtain ⟨-, v, hv, hvf, info, hi, ha⟩ := hids id hid
    exact ⟨v, _, hv, hvf, ha, fun r hr => (hplaces info hi r (ArgLocation.place_injective hr)).2⟩
  · exact hdist ((hnew hv).resolve_left fun h => old h hvf).1 ((hnew hw).resolve_left fun h => old h hwf).1 hv hva hw hwa
  rcases hnew hv with hv | ⟨hm, -⟩
  · exact absurd hvf (old hv)
  · exact absurd hm hid

theorem endFunction_acts (h : endFunction s = .ok g s') : Acts c s s' := by
  simp only [endFunction, modifyFunction, bind_ok, current_ok, getFunction_ok, modify_ok] at h
  obtain ⟨f, _, ⟨hf, rfl⟩, record, _, ⟨hr, rfl⟩, _, t, hb, stop, _, ha, _, _, ⟨_, _, ⟨-, rfl⟩, rfl⟩, _, _,
    rfl, ⟨⟩⟩ := h
  obtain ⟨exit, hexit, hid, rfl⟩ := bind_ok' hb
  obtain ⟨rfl, -, rfl⟩ := append_ok ha
  exact .single (.closes hf hr hexit hid)

theorem Call.run_acts (hs : s.WellBuilt) (h : c.run s = .ok u s') : Acts c s s' := by
  cases c <;> simp only [Call.run, bind_ok, pure_ok, lift_ok] at h
  case newFunction =>
    obtain ⟨p, _, ⟨hp, rfl⟩, _, _, h, -, rfl⟩ := h
    have := Prototype.sysv_placesApart hp
    exact newFunction_acts rfl hs (by exact this) h
  case setPriority =>
    obtain ⟨-, rfl⟩ := modifyVar_ok.mp h
    exact .single (.priority ..)
  case bind =>
    obtain ⟨target, ht, hid, rfl⟩ := bind_ok' h
    exact .single (.bind ht hid)
  all_goals obtain ⟨_, _, h, -, rfl⟩ := h
  case newVar =>
    simp only [Builder.newVar, bind_ok, current_ok, getVar_ok] at h
    obtain ⟨f, _, ⟨hf, rfl⟩, id, _, hv, _, _, ⟨-, rfl⟩, ⟨⟩⟩ := h
    obtain ⟨cls, hcls, rfl, rfl⟩ := createVar_ok hv
    exact .single (.var hf ⟨rfl, hcls⟩ rfl rfl)
  case emit =>
    simp only [Builder.emit, bind_ok, check_ok] at h
    obtain ⟨hop, _, t, hc, h⟩ := h
    obtain ⟨rfl, ho⟩ := checks_ok checkOperand_ok hc
    refine append_acts h ⟨Bool.eq_false_iff.mpr hop, rfl⟩ (fun _ _ => trivial) (Admits.flatMap_vars ho) fun l hl => ?_
    obtain ⟨o, ho', hl⟩ := mem_filterMap.mp hl
    exact (ho o ho').2 l hl
  case newLabel =>
    obtain ⟨-, rfl⟩ := createLabel_ok h
    exact .single .label
  case jump => exact jump_acts hs h
  case ret =>
    simp only [Builder.ret, bind_ok, current_ok, check_ok] at h
    obtain ⟨f, _, ⟨hf, rfl⟩, -, _, t, hc, h⟩ := h
    obtain ⟨rfl, ho⟩ := checks_ok checkOperand_ok hc
    exact append_acts h ⟨_, rfl⟩ (fun g hg => some.inj (hf ▸ hg)) (Admits.flatMap_vars ho) nofun
  case call => exact call_acts h
  case hint => exact hint_acts h
  case comment => exact append_acts h rfl (fun _ _ => trivial) nofun nofun
  case align =>
    simp only [Builder.align, check_ok] at h
    exact append_acts h.2 rfl (fun _ _ => trivial) nofun nofun
  case embed => exact append_acts h rfl (fun _ _ => trivial) nofun nofun
  case endFunction => exact endFunction_acts h

theorem program_induct {P : Session → Prop}
    (hstep : ∀ c ∈ calls, ∀ {s s'}, Act c s s' → s.WellBuilt → P s → P s') (hempty : P { options })
    (h : program calls { options } = .ok u s) : s.WellBuilt ∧ P s := by
  refine (forM_induct (P := fun rest t => (∀ c ∈ rest, c ∈ calls) ∧ t.WellBuilt ∧ P t) (fun c rest t t' ht hc => ?_) h
    ⟨fun _ h => h, ⟨by simp [ItemSeq.empty], by simp [ItemSeq.empty], by simp [ItemSeq.empty, ItemSeq.get?],
      by simp, by simp [VarTable.empty, VarTable.get?], by simp, by simp, by simp⟩, hempty⟩).2
  obtain ⟨hin, hb, hP⟩ := ht
  refine ⟨fun c hc => hin c (.tail _ hc), ?_⟩
  have hacts := Call.run_acts hb hc
  clear hc
  induction hacts with
  | refl => exact ⟨hb, hP⟩
  | tail _ h ih => exact ⟨h.built ih.1, hstep c (hin c mem_cons_self) h ih.1 ih.2⟩

theorem program_built (h : program calls { options } = .ok u s) : s.WellBuilt :=
  (program_induct (P := fun _ => True) (fun _ _ _ _ _ _ _ => trivial) trivial h).1

theorem program_ready (h : program calls { options } = .ok u s)
    (hf : s.functions[f.index]? = some record) (hs : record.stop = some stop) :
    ∃ body, s.Ready f record stop body := by
  have hb := program_built h
  obtain ⟨hi, A, body, hin, hm⟩ := hb.shape hf
  simp only [hs] at hm
  obtain ⟨hk, C, ho⟩ := hm
  exact ⟨body, hf, hs, ⟨A, C, ho⟩, hb.nodup, hb.made, hi, hk, hin, fun hv _ => (hb.vars hv).1, hb.passes hf⟩

end Builder

end Codegen
