import Codegen.Proofs.Handover

/-! A function that is lowered as a whole. Its exit is taken out exactly if the walk over the function comes to it when
nothing is known to lead there; if the exit is left, the epilogue stands behind it. -/
namespace Codegen
open List Build ItemSeq Option Session Operand
variable {frame : FrameLayout} {anchor start stop : ItemId} {code : List Instruction}
variable {t : Session} {text : String}
open Relation

namespace ItemSeq
variable {q q' : ItemSeq}

/-- The items are this code, with comments in front of it. -/
def Bears (q : ItemSeq) (E : List ItemId) (code : List Instruction) : Prop :=
  ∃ notes ids, E = notes ++ ids ∧ (∀ x ∈ notes, ∃ text, (q.get? x).map Item.kind = some (.comment text)) ∧
    ids.map (fun x => (q.get? x).map Item.kind) =
      code.map fun i => some (.instruction { opcode := i.opcode, operands := i.operands })

theorem kinds_newIds (q : ItemSeq) (mark : Option Nat) (code : List Instruction) :
    (q.newIds code.length).map (fun x => ((q.generateAll mark code).get? x).map Item.kind) =
      code.map fun i => some (.instruction { opcode := i.opcode, operands := i.operands }) := by
  induction code generalizing q with
  | nil => rfl
  | cons i code ih =>
    rw [length_cons, newIds_succ q mark i, generateAll_cons, map_cons, map_cons, ih,
      get?_generateAll_of_lt _ _ (by simp), get?_generate_self]
    rfl

namespace Bears

theorem congr (h : q.Bears E code) (hE : ∀ x ∈ E, q'.get? x = q.get? x) : q'.Bears E code := by
  obtain ⟨notes, ids, rfl, hnotes, hids⟩ := h
  refine ⟨notes, ids, rfl, fun x hx => ?_, ?_⟩
  · rw [hE x (mem_append_left _ hx)]
    exact hnotes x hx
  · rw [← hids]
    exact map_congr_left fun x hx => by rw [hE x (mem_append_right _ hx)]

theorem kind_cases {item : Item} (h : q.Bears E code) (hx : x ∈ E) (hi : q.get? x = some item) :
    (∃ text, item.kind = .comment text) ∨
      ∃ i ∈ code, item.kind = .instruction { opcode := i.opcode, operands := i.operands } := by
  obtain ⟨notes, ids, rfl, hnotes, hids⟩ := h
  rcases mem_append.mp hx with hx | hx
  · obtain ⟨text, ht⟩ := hnotes x hx
    rw [hi] at ht
    exact .inl ⟨text, some.inj ht⟩
  have hmem : some item.kind ∈ ids.map fun x => (q.get? x).map Item.kind := mem_map.mpr ⟨x, hx, by rw [hi]; rfl⟩
  rw [hids] at hmem
  obtain ⟨i, hi', hk⟩ := mem_map.mp hmem
  exact .inr ⟨i, hi', (some.inj hk).symm⟩

end Bears

end ItemSeq

namespace FrameLayout

/-- An instruction that sets up the frame or takes it down. Its opcode is fixed, unless it moves a saved register, and its
operands are in their places. -/
def Uses (f : FrameLayout) (i : Instruction) : Prop :=
  (i.opcode.isControlFlow = false ∨ ∃ p ∈ f.savePlaces, i.opcode = p.move) ∧
    ∀ o ∈ i.operands, o.Placed ∧ o.hasHome = false

theorem SavePlace.placed (p : SavePlace) : (p.memory.Placed ∧ p.memory.hasHome = false) ∧
    p.register.Placed ∧ p.register.hasHome = false :=
  ⟨⟨⟨rfl, rfl⟩, rfl⟩, trivial, rfl⟩

theorem uses_prologue (f : FrameLayout) : ∀ i ∈ f.prologue, f.Uses i := by
  simp only [prologue, adjustment, forall_mem_append, List.forall_mem_map]
  refine ⟨⟨⟨⟨?_, ?_⟩, fun index _ => ?_⟩, ?_⟩, fun p hp => ⟨.inr ⟨p, hp, rfl⟩, by simp [SavePlace.store, p.placed]⟩⟩ <;>
    (try split) <;> simp [Uses, Opcode.isControlFlow, gpq, ofReg, Placed, hasHome]

theorem uses_epilogue (f : FrameLayout) : ∃ front operands, f.epilogue = front ++ [⟨.ret, operands⟩] ∧
    (∀ i ∈ front, f.Uses i) ∧ ∀ o ∈ operands, o.Placed ∧ o.hasHome = false := by
  refine ⟨_, _, rfl, ?_, by split <;> simp [Placed, hasHome]⟩
  simp only [adjustment, fence, forall_mem_append, List.forall_mem_map]
  refine ⟨⟨⟨⟨⟨fun p hp => ⟨.inr ⟨p, hp, rfl⟩, by simp [SavePlace.load, p.placed]⟩, ?_⟩, fun index _ => ?_⟩, ?_⟩, ?_⟩, ?_⟩ <;>
    (try split) <;> (try split) <;> simp [Uses, Opcode.isControlFlow, gpq, ofReg, Placed, hasHome]

theorem placed_epilogue (f : FrameLayout) : ∀ i ∈ f.epilogue, ∀ o ∈ i.operands, o.Placed ∧ o.hasHome = false := by
  obtain ⟨front, operands, he, hfront, hret⟩ := f.uses_epilogue
  rw [he]
  exact forall_mem_append.mpr ⟨fun i hi => (hfront i hi).2, forall_mem_singleton.mpr hret⟩

end FrameLayout

namespace Session
variable {s : Session}

/-- The operands of the item stand for no home any more. -/
def HomelessAt (u : Session) (x : ItemId) : Prop :=
  ∀ item i, u.items.get? x = some item → item.kind = .instruction i → i.operands.any Operand.hasHome = false

theorem flatMap_codeAt (h : s.items.Bears E code) : E.flatMap s.codeAt = code.map Instruction.given := by
  obtain ⟨notes, ids, rfl, hnotes, hids⟩ := h
  have hcode : s.codeAt = fun x => ((s.items.get? x).map Item.kind).elim [] s.codeOf := by
    funext x
    rw [codeAt]
    cases s.items.get? x <;> simp
  have hnone : notes.flatMap s.codeAt = [] := flatMap_eq_nil_iff.mpr fun x hx => by
    obtain ⟨text, ht⟩ := hnotes x hx
    rw [hcode]
    simp only [ht]
    rfl
  have hflat : ids.flatMap s.codeAt = (ids.map fun x => (s.items.get? x).map Item.kind).flatMap
      fun k => k.elim [] s.codeOf := by
    rw [hcode, flatMap_map]
  rw [flatMap_append, hnone, hflat, hids, flatMap_map]
  exact map_eq_flatMap.symm

/-- The walk over a prepared function takes the target out. -/
def Drops (t : Session) (start x : ItemId) : Prop := ∃ u, t.Visits start ⟨.walk (some x), u⟩ ∧ u.Doomed x

theorem Visits.lays (h : t.Visits start m) : t.Lays (t.Drops start) m.session := by
  induction h with
  | refl => exact .quiet rfl rfl rfl rfl
  | @tail m m' hm ha ih =>
    refine ih.trans (ha.lays.mono fun x hx => ⟨m.session, ?_, hx.2⟩)
    rwa [← hx.1]

theorem not_mem_of_doomed {next : Option ItemId} (hr : s.roleAt x = .binds l)
    (hd : s.Doomed x) (h : translateItem x s = .ok next t) : x ∉ t.items.order := by
  obtain ⟨item, u, hi, -, hk, rfl⟩ := translateItem_ok h
  have horder : (u.leaving x item).items.order = u.items.order := by
    unfold leaving
    split <;> rfl
  rw [horder]
  rw [roleAt_of_get? hi] at hr
  cases hkind : item.kind with
  | target r =>
    have hst : r.state = none := by simpa [stateAt, hi, hkind] using hd.2.1
    simp only [translateKind, hkind] at hk
    rcases translateTarget_ok hk with ⟨-, -, st, hst', -⟩ | ⟨-, -, -, hrem⟩ | ⟨-, -, -, st, hst', -⟩ | ⟨-, hu, -⟩
    · cases hst ▸ hst'
    · have hi' : (s.entering x item).items.get? x = some item := hi
      exact not_mem_of_removeUntilTarget hi' (by rw [hkind]; rfl) hrem
    · cases hst ▸ hst'
    · cases hd.1 ▸ hu
  | _ =>
    rw [hkind] at hr
    cases hr

end Session

theorem Moment.retains_of_run (h : ReflTransGen Advances m m') :
    m.session.Retains (fun _ => True) m'.session := by
  induction h with
  | refl => exact .refl _
  | tail _ ha ih => exact ih.trans (ha.lays.toRetains.mono fun _ _ => trivial)

namespace Build
variable {record : FunctionRecord} {gone : ItemId → Prop}

theorem translateAll_lays (h : translateAll start s = .ok () t) : s.Lays (s.Drops start) t := by
  obtain ⟨u, hu, rfl⟩ := translateAll_visits h
  exact hu.lays.trans (.quiet rfl rfl rfl rfl)

theorem not_mem_of_drops (hs : s.items.Linear) (hr : s.roleAt x = .binds l)
    (hd : s.Drops start x) (h : translateAll start s = .ok () t) : x ∉ t.items.order := by
  obtain ⟨u, hu, rfl⟩ := translateAll_visits h
  obtain ⟨w, hw, hdoom⟩ := hd
  have hlt := lt_size_of_binds hr
  have hlays := hw.lays
  have hlin := (hlays.edits hs).linear
  -- The run goes on from here, with the step that takes the target out.
  rcases (hw.reaches hu).cases_head with he | ⟨m, hstep, hrest⟩
  · cases he
  cases hstep with
  | @item _ v _ next hitem =>
    have hout := not_mem_of_doomed (hlays.binds hr) hdoom hitem
    have hitem' := translateItem_lays hitem
    have hlt' : x.index < v.items.size := hlt.trans_le (hlays.size.trans hitem'.size)
    have hafter := (Moment.retains_of_run hrest).edits (hitem'.edits hlin).linear
    exact fun hx => hout (hafter.mem_order hlt' hx)

section Frame

theorem emitComment_lays (h : emitComment text s = .ok () s') : s.Lays gone s' := by
  cases emitComment_ok h
  refine .of_items rfl rfl rfl (by simp) (fun hx => ?_) (fun {x} hx => ?_) (fun hi hi' => ?_) fun hs => ?_
  · simp only [roleAt, get?_place_of_lt hx]
  · by_cases hx' : x.index = s.items.size
    · obtain rfl : x = ⟨s.items.size⟩ := congrArg ItemId.mk hx'
      simp only [roleAt, get?_place_self]
      rfl
    · exact roleAt_of_size_le (by simp; omega)
  · rw [get?_place_of_lt (lt_size_of_get? hi), hi] at hi'
    cases hi'
    exact id
  · obtain ⟨P, N, Q, ho, ho', hnew, -⟩ := hs.generateAll_splice none [⟨.nop, []⟩]
    refine ⟨P, N, Q, ho, ho', fun x hx => ?_, by simp⟩
    simpa [size_generateAll] using hnew x hx

theorem emitAll_lays (h : emitAll code s = .ok () s') : s.Lays gone s' := by
  cases emitAll_ok h
  exact .generateAll rfl rfl rfl rfl

/-- Code put behind an item, after a comment if comments are wanted. -/
def InsertsBehind (anchor : ItemId) (text : String) (code : List Instruction) (s s' : Session) : Prop :=
  ∃ t, (if s.options.emitComments then emitComment text (s.atCursor (some anchor)) = .ok () t
    else t = s.atCursor (some anchor)) ∧ emitAll code t = .ok () s'

theorem insertFrameCode_ok (h : insertFrameCode record frame s = .ok () s') :
    frame.feasible = true ∧ ∃ entry exit t, s.labels[record.entryLabel.index]? = some entry ∧
      InsertsBehind entry "prolog" frame.prologue s t ∧ t.labels[record.exitLabel.index]? = some exit ∧
      (exit ∈ t.items.order ∧ InsertsBehind exit "epilog" frame.epilogue t s' ∨ exit ∉ t.items.order ∧ s' = t) := by
  simp only [insertFrameCode, bind_ok, labelTarget_ok] at h
  obtain ⟨_, _, ⟨⟩, entry, _, ⟨hentry, rfl⟩, _, _, ⟨⟩, h⟩ := h
  obtain ⟨t1, h1, hrest⟩ := when_ok.mp h
  obtain ⟨t2, h2, hpro⟩ := when_ok.mp hrest
  obtain ⟨hf, rfl⟩ : frame.feasible = true ∧ t2 = t1 := by
    split at h2
    · exact (throw_ok.mp h2).elim
    · rename_i hf
      exact ⟨by simpa using hf, h2⟩
  simp only [bind_ok, labelTarget_ok, getItem_ok] at hpro
  obtain ⟨_, t, ht, exit, _, ⟨hexit, rfl⟩, _, _, ⟨-, rfl⟩, _, _, ⟨⟩, hepi⟩ := hpro
  have hopts : t.options = s.options := by
    rw [emitAll_ok ht]
    split at h1
    · rw [emitComment_ok h1]
    · rw [h1]
  refine ⟨hf, entry, exit, t, hentry, ⟨t2, h1, ht⟩, hexit, ?_⟩
  split at hepi
  · rename_i hlink
    simp only [bind_ok] at hepi
    obtain ⟨_, _, ⟨⟩, hepi⟩ := hepi
    obtain ⟨t3, h3, hepi⟩ := when_ok.mp hepi
    exact .inl ⟨isLinked_iff.mp hlink, t3, by rw [hopts]; exact h3, hepi⟩
  · rename_i hlink
    cases hepi
    exact .inr ⟨mt isLinked_iff.mpr hlink, rfl⟩

theorem InsertsBehind.lays (h : InsertsBehind anchor text code s s') : s.Lays gone s' := by
  obtain ⟨t, ht, h⟩ := h
  refine .trans ?_ (emitAll_lays h)
  split at ht
  · exact (Lays.atCursor s _).trans (emitComment_lays ht)
  · rw [ht]
    exact .atCursor s _

/-- The new items are the code, and they stand behind the item if it is linked. -/
theorem InsertsBehind.bears (hs : s.items.Linear) (h : InsertsBehind anchor text code s s') :
    ∃ E, s'.items.Bears E code ∧ (∀ x, x ∈ E ↔ s.items.size ≤ x.index ∧ x.index < s'.items.size) ∧
      ∀ X Y, s.items.order = X ++ anchor :: Y → s'.items.order = X ++ anchor :: (E ++ Y) := by
  obtain ⟨t, ht, h⟩ := h
  cases emitAll_ok h
  have hnew := kinds_newIds t.items t.mark code
  have hcut : ∀ {X Y}, s.items.order = X ++ anchor :: Y →
      (s.items.setCursor (some anchor)).Cut (X ++ [anchor]) Y := fun ho =>
    ⟨ho.trans (by simp), by simp [ItemSeq.setCursor],
      by simpa [ho] using hs.nodup, fun x hx => hs.made x (by simpa [ho] using hx)⟩
  split at ht
  · cases emitComment_ok ht
    have hsize : ((s.atCursor (some anchor)).items.place { kind := .comment text }).size = s.items.size + 1 :=
      size_place _ _
    refine ⟨[⟨s.items.size⟩] ++ _, ⟨_, _, rfl, fun x hx => ?_, hnew⟩, fun x => ?_, fun X Y ho => ?_⟩
    · cases mem_singleton.mp hx
      refine ⟨text, ?_⟩
      have hself := get?_place_self (s.items.setCursor (some anchor)) { kind := .comment text }
      rw [get?_generateAll_of_lt _ _ (hsize ▸ Nat.lt_succ_self _)]
      exact congrArg (Option.map Item.kind) hself
    · rw [mem_append, mem_newIds, mem_singleton, size_generateAll, hsize]
      have hx : x = ⟨s.items.size⟩ ↔ x.index = s.items.size := by
        cases x
        simp
      rw [hx]
      omega
    · refine (((hcut ho).place { kind := .comment text }).generateAll (s.atCursor (some anchor)).mark code).order.trans ?_
      simp only [append_assoc, cons_append]
      rfl
  · subst ht
    refine ⟨_, ⟨[], _, rfl, by simp, hnew⟩, fun x => ?_, fun X Y ho => ?_⟩
    · rw [nil_append, mem_newIds, size_generateAll]
      rfl
    refine ((hcut ho).generateAll (s.atCursor (some anchor)).mark code).order.trans ?_
    simp only [append_assoc, singleton_append]
    rfl

theorem InsertsBehind.get?_of_lt (h : InsertsBehind anchor text code s s')
    (hx : x.index < s.items.size) : s'.items.get? x = s.items.get? x := by
  obtain ⟨t, ht, h⟩ := h
  cases emitAll_ok h
  split at ht
  · cases emitComment_ok ht
    have hsize : ((s.atCursor (some anchor)).items.place { kind := .comment text }).size = s.items.size + 1 :=
      size_place _ _
    refine (get?_generateAll_of_lt _ _ (hsize ▸ Nat.lt_succ_of_lt hx)).trans ?_
    exact get?_place_of_lt hx
  · subst ht
    exact get?_generateAll_of_lt _ _ hx

theorem InsertsBehind.rest (h : InsertsBehind anchor text code s s') : s' = { s with items := s'.items } := by
  obtain ⟨t, ht, h⟩ := h
  rw [emitAll_ok h]
  split at ht
  · rw [emitComment_ok ht]
    rfl
  · rw [ht]
    rfl

section
variable (h : insertFrameCode record frame s = .ok () s')
include h

theorem insertFrameCode_lays : s.Lays gone s' := by
  obtain ⟨-, entry, exit, t, -, hp, -, ⟨-, he⟩ | ⟨-, rfl⟩⟩ := insertFrameCode_ok h
  · exact hp.lays.trans he.lays
  · exact hp.lays

theorem insertFrameCode_rest : s' = { s with items := s'.items } := by
  obtain ⟨-, entry, exit, t, -, hp, -, ⟨-, he⟩ | ⟨-, rfl⟩⟩ := insertFrameCode_ok h
  · rw [he.rest, hp.rest]
  · exact hp.rest

theorem insertFrameCode_ctx : s'.ctx = s.ctx := (congrArg ctx (insertFrameCode_rest h) :)

end

theorem insertFrameCode_bears (hs : s.Labelled) (hexit : s.labels[record.exitLabel.index]? = some exit)
    (ho : exit ∈ s.items.order) (h : insertFrameCode record frame s = .ok () s') :
    ∃ X E Y, s'.items.order = X ++ exit :: (E ++ Y) ∧ (∀ x ∈ E, s.items.size ≤ x.index) ∧
      s'.items.Bears E frame.epilogue := by
  obtain ⟨-, entry, exit', t, -, hp, hexit', hcase⟩ := insertFrameCode_ok h
  have hlays : s.Lays (fun _ => False) t := hp.lays
  have hrole := hs.targets.mp hexit
  have hlab := hlays.labelled hs
  cases hexit' ▸ hlays.label hs hexit
  have hmem : exit ∈ t.items.order := (hlays.edits hs.toLinear).linked _ ho fun hg => hg (by rw [hrole]; rfl)
  rcases hcase with ⟨-, he⟩ | ⟨hno, -⟩
  · obtain ⟨X, Y, hXY⟩ := append_of_mem hmem
    obtain ⟨E, hb, hE, ho'⟩ := he.bears hlab.toLinear
    exact ⟨X, E, Y, ho' X Y hXY, fun x hx => hlays.size.trans ((hE x).mp hx).1, hb⟩
  · exact absurd hmem hno

end Frame

section Homes
variable {id : ItemId} {ids : List ItemId}

/-- What is bound has no home, and is the operand as it was, or has a register as its base now. -/
theorem bindOperand_ok (h : bindOperand frame slots o = .ok o') : o'.hasHome = false ∧
    (o' = o ∨ ∃ m base disp, o = .mem m ∧ o' = .mem { m with base := some (.reg base), disp, home := none }) := by
  cases o with
  | mem m =>
    simp only [bindOperand, except_bind_ok, except_pure_ok] at h
    obtain ⟨m', hm, rfl⟩ := h
    unfold bindHome at hm
    split at hm
    · rename_i hhome
      cases hm
      exact ⟨by simp [hasHome, hhome], .inl rfl⟩
    · cases hm
      exact ⟨rfl, .inr ⟨m, _, _, rfl, rfl⟩⟩
    · split at hm
      · cases hm
        exact ⟨rfl, .inr ⟨m, _, _, rfl, rfl⟩⟩
      · cases hm
    · cases hm
  | _ =>
    cases h
    exact ⟨rfl, .inl rfl⟩

theorem bindOperands_ok
    (h : l.mapM (fun o => (bindOperand frame slots o : Build Operand)) s = .ok l' s') :
    s' = s ∧ Forall₂ (fun o o' => bindOperand frame slots o = .ok o') l l' := by
  induction l generalizing l' with
  | nil =>
    obtain ⟨rfl, rfl⟩ := mapM_nil_ok.mp h
    exact ⟨rfl, .nil⟩
  | cons o l ih =>
    obtain ⟨o', t, rest, ho, hrest, rfl⟩ := mapM_cons_ok.mp h
    obtain ⟨hbind, rfl⟩ := lift_ok.mp ho
    obtain ⟨rfl, hl⟩ := ih hrest
    exact ⟨rfl, .cons hbind hl⟩

theorem bindHomes_ok (h : bindHomes frame id s = .ok () s') : s' = s ∧ s.HomelessAt id ∨
    ∃ item i operands, s.items.get? id = some item ∧ item.kind = .instruction i ∧ i.operands.any hasHome = true ∧
      Forall₂ (fun o o' => bindOperand frame s.ctx.slots o = .ok o') i.operands operands ∧
      s' = s.withKind id (.instruction { i with operands }) := by
  simp only [bindHomes, bind_ok, getItem_ok] at h
  obtain ⟨item, _, ⟨hi, rfl⟩, h⟩ := h
  cases hk : item.kind with
  | instruction i =>
    simp only [hk] at h
    split at h
    · rename_i hhome
      simp only [bind_ok, setKind_ok] at h
      obtain ⟨_, _, ⟨⟩, operands, t, hmap, -, rfl⟩ := h
      obtain ⟨rfl, hbind⟩ := bindOperands_ok hmap
      exact .inr ⟨item, i, operands, hi, hk, hhome, hbind, rfl⟩
    · cases h
      refine .inl ⟨rfl, fun item' i' hi' hk' => ?_⟩
      cases hi ▸ hi'
      cases hk ▸ hk'
      exact Bool.eq_false_iff.mpr ‹_›
  | _ =>
    simp only [hk] at h
    cases h
    refine .inl ⟨rfl, fun item' i' hi' hk' => ?_⟩
    cases hi ▸ hi'
    cases hk ▸ hk'

theorem bindHomes_lays (h : bindHomes frame id s = .ok () s') : s.Lays gone s' := by
  rcases bindHomes_ok h with ⟨rfl, -⟩ | ⟨item, i, operands, hi, hk, -, -, rfl⟩
  · exact .refl _
  · exact .withKind ((roleAt_of_get? hi).trans (by rw [hk]; rfl)).symm

theorem bindHomes_bears (hcode : ∀ i ∈ code, ∀ o ∈ i.operands, o.Placed ∧ o.hasHome = false) (hb : s.items.Bears E code)
    (h : bindHomes frame id s = .ok () s') : s'.items.Bears E code := by
  refine hb.congr fun x hx => ?_
  rcases bindHomes_ok h with ⟨rfl, -⟩ | ⟨item, i, operands, hi, hk, hhome, -, rfl⟩
  · rfl
  refine get?_modify_of_ne _ (fun he => ?_) _
  subst he
  rcases hb.kind_cases hx hi with ⟨text, ht⟩ | ⟨j, hj, hj'⟩
  · cases hk ▸ ht
  cases hk ▸ hj'
  obtain ⟨o, ho, hh⟩ := any_eq_true.mp hhome
  cases (hcode j hj o ho).2 ▸ hh

theorem bindAll_lays (h : ids.forM (bindHomes frame) s = .ok () s') : s.Lays gone s' :=
  Ensures.forM (R := Lays gone) (fun _ _ _ _ _ => bindHomes_lays) _ _ _ h

theorem bindAll_rest (h : ids.forM (bindHomes frame) s = .ok () s') :
    s' = { s with items := s'.items } ∧ s'.items.order = s.items.order ∧ s'.items.size = s.items.size := by
  refine forM_induct (P := fun _ t => t = { s with items := t.items } ∧ t.items.order = s.items.order ∧
    t.items.size = s.items.size) (fun _ _ t t' ht hx => ?_) h ⟨rfl, rfl, rfl⟩
  rcases bindHomes_ok hx with ⟨rfl, -⟩ | ⟨_, _, _, -, -, -, -, rfl⟩
  · exact ht
  · exact ⟨by rw [ht.1]; rfl, ht.2.1, (Array.size_modify ..).trans ht.2.2⟩

theorem order_bindAll (h : ids.forM (bindHomes frame) s = .ok () s') : s'.items.order = s.items.order :=
  (bindAll_rest h).2.1

theorem bindAll_bears (hcode : ∀ i ∈ code, ∀ o ∈ i.operands, o.Placed ∧ o.hasHome = false) (hb : s.items.Bears E code)
    (h : ids.forM (bindHomes frame) s = .ok () s') : s'.items.Bears E code :=
  forM_induct (P := fun _ t => t.items.Bears E code) (fun _ _ _ _ => bindHomes_bears hcode) h hb

end Homes

section Preparation
variable {id : ItemId}

theorem prepareItem_lays (hf : s.ctx.function = some f) (h : prepareItem id s = .ok () s') :
    s.Lays gone s' ∧ s'.ctx.function = some f := by
  obtain ⟨item, args, hi, hp⟩ := exists_prepares hf h
  obtain ⟨kind', hk, hitems⟩ := hp.items
  have hmod : s.Lays gone { s with items := s'.items } := by
    rw [hitems]
    refine .modify fun item' hi' => ?_
    cases hi ▸ hi'
    exact ⟨hk.role_eq, fun h => h⟩
  refine ⟨hmod.trans ?_, (congrArg Context.function hp.ctx :).trans hf⟩
  exact .quiet rfl (congrArg functions hp.rest :) (congrArg labels hp.rest :) (congrArg Context.extraBlock hp.ctx :)

section
variable (h : prepareFunction f record stop p s = .ok () s')
include h

theorem prepareFunction_ok :
    ∃ t : Session, t.items = s.items ∧ t.functions = s.functions ∧ t.labels = s.labels ∧ t.ctx.extraBlock = some stop ∧
      ∀ gone, t.Lays gone s' := by
  simp only [prepareFunction, beginFunction, bind_ok, modify_ok] at h
  obtain ⟨_, t, ht, _, _, ⟨⟩, h⟩ := h
  have hkeep : ∀ gone, t.Lays gone s' ∧ s'.ctx.function = some f := fun gone => by
    refine forM_induct (P := fun _ u => t.Lays gone u ∧ u.ctx.function = some f) (fun _ _ u u' hu hi => ?_) h
      ⟨.refl t, by rw [← ht]⟩
    obtain ⟨hl, hf⟩ := prepareItem_lays hu.2 hi
    exact ⟨hu.1.trans hl, hf⟩
  exact ⟨t, by rw [← ht], by rw [← ht], by rw [← ht], by rw [← ht], fun gone => (hkeep gone).1⟩

theorem prepareFunction_retains : s.Retains gone s' := by
  obtain ⟨t, hi, hf, hl, -, hkeep⟩ := prepareFunction_ok h
  exact .trans (.quiet hi (by rw [hf]) hl) (hkeep gone).toRetains

theorem prepareFunction_blocks (hs : s.items.Linear) (hstop : stop ∈ s.items.order)
    (hclose : s.roleAt stop = .closes g) :
    s'.Blocks s.items.size stop := by
  obtain ⟨t, hi, -, -, he, hkeep⟩ := prepareFunction_ok h
  obtain ⟨A, C, ho⟩ := append_of_mem hstop
  have hrole : t.roleAt stop = .closes g := by
    rw [← hclose, roleAt, roleAt, hi]
  refine (hkeep fun _ => False).blocks ⟨hi ▸ hs, ⟨g, hrole⟩, by rw [hi], fun hx hg => ?_, stop, he, A, [], C, hi ▸ ho,
    rfl, by simp⟩
  rw [hi] at hg
  exact absurd (lt_size_of_get? hg) (not_lt.mpr hx)

end

theorem layOutFrame_lays (h : layOutFrame record p s = .ok frame s') : s.Lays gone s' := by
  obtain ⟨_, _, ⟨rfl, rfl⟩, _, _, rfl, _, _, ⟨rfl, rfl⟩, -, rfl⟩ := h
  exact .quiet rfl rfl rfl rfl

end Preparation

end Build

/-- The function with this record, which ends with `stop`, is prepared as `v`. -/
structure Session.Prepared (u : Session) (f : FunctionId) (record : FunctionRecord) (stop : ItemId) (v : Session) :
    Prop where
  function : u.functions[f.index]? = some record
  closed : record.stop = some stop
  prepared : ∃ p, u.prototypes[record.prototype.index]? = some p ∧ prepareFunction f record stop p u = .ok () v

namespace Build
variable {v : Session} {record : FunctionRecord} {last : ItemId}
theorem exists_prepared (h : lowerFunction f u = .ok r t) : ∃ record stop v, u.Prepared f record stop v := by
  simp only [lowerFunction, bind_ok, getFunction_ok] at h
  obtain ⟨record, _, ⟨hr, rfl⟩, h⟩ := h
  cases hs : record.stop with
  | none =>
    simp only [hs, throw_ok] at h
  | some stop =>
    simp only [hs, bind_ok, getPrototype_ok] at h
    obtain ⟨p, _, ⟨hp, rfl⟩, _, v, hv, -⟩ := h
    exact ⟨record, stop, v, hr, hs, p, hp, hv⟩

theorem lowerFunction_ok (hp : u.Prepared f record stop v) (h : lowerFunction f u = .ok (start, last, frame) t) :
    start = record.item ∧ ∃ p w a b, u.prototypes[record.prototype.index]? = some p ∧
      translateAll start v = .ok () w ∧ layOutFrame record p w = .ok frame a ∧
      insertFrameCode record frame a = .ok () b ∧ b.ctx.extraBlock.getD stop = last ∧
      (b.items.range start last).forM (bindHomes frame) b = .ok () t := by
  simp only [lowerFunction, bind_ok, getFunction_ok] at h
  obtain ⟨_, _, ⟨hr, rfl⟩, h⟩ := h
  cases hr ▸ hp.function
  obtain ⟨p, hproto, hv⟩ := hp.prepared
  simp only [hp.closed, bind_ok, getPrototype_ok, pure_ok, Prod.mk.injEq] at h
  obtain ⟨_, _, ⟨hp', rfl⟩, _, _, hv', _, w, hw, frame', a, ha, _, b, hb, _, _, ⟨⟩, _, _, hbind,
    ⟨rfl, rfl, rfl⟩, rfl⟩ := h
  cases hp' ▸ hproto
  cases hv' ▸ hv
  exact ⟨rfl, p, w, a, b, hproto, hw, ha, hb, rfl, hbind⟩

theorem prepared_lays (hw : translateAll start v = .ok () w)
    (ha : layOutFrame record p w = .ok frame a) (hb : insertFrameCode record frame a = .ok () b) :
    v.Lays (v.Drops start) b :=
  (translateAll_lays hw).trans ((layOutFrame_lays ha).trans (insertFrameCode_lays hb))

section
variable (hp : u.Prepared f record stop v) (h : lowerFunction f u = .ok (start, last, frame) t)
include hp h

theorem lowerFunction_retains : u.Retains (v.Drops start) t := by
  obtain ⟨-, p, w, a, b, -, hw, ha, hb, -, hbind⟩ := lowerFunction_ok hp h
  obtain ⟨_, -, hv⟩ := hp.prepared
  exact (prepareFunction_retains hv).trans ((prepared_lays hw ha hb).trans (bindAll_lays hbind)).toRetains

theorem lowerFunction_trails (hu : u.items.Linear) (hstop : stop ∈ u.items.order)
    (hclose : u.roleAt stop = .closes g) : Trails u.items.size stop last t.items.order := by
  obtain ⟨-, p, w, a, b, -, hw, ha, hb, hlast, hbind⟩ := lowerFunction_ok hp h
  obtain ⟨_, -, hv⟩ := hp.prepared
  have hblocks := (prepared_lays hw ha hb).blocks (prepareFunction_blocks hv hu hstop hclose)
  obtain ⟨e, he, htr⟩ := hblocks.trails
  rw [he] at hlast
  obtain rfl : e = last := hlast
  rwa [order_bindAll hbind]

theorem mem_lowerFunction_iff (hu : u.items.Linear) (hx : u.roleAt x = .binds l) :
    x ∈ t.items.order ↔ x ∈ u.items.order ∧ ¬ v.Drops start x := by
  have hret := lowerFunction_retains hp h
  have hlt := lt_size_of_binds hx
  refine ⟨fun hmem => ⟨(hret.edits hu).mem_order hlt hmem, fun hd => ?_⟩, fun ⟨hmem, hd⟩ =>
    (hret.edits hu).linked x hmem fun hg => hd (hg (by rw [hx]; rfl))⟩
  obtain ⟨-, p, w, a, b, -, hw, ha, hb, -, hbind⟩ := lowerFunction_ok hp h
  obtain ⟨_, -, hv⟩ := hp.prepared
  have hprep : u.Retains (fun _ => False) v := prepareFunction_retains hv
  have hlin := (hprep.edits hu).linear
  have htrans := translateAll_lays hw
  have hout := not_mem_of_drops hlin (hprep.binds hx) hd hw
  have hrest : w.Lays (fun _ => False) t := (layOutFrame_lays ha).trans ((insertFrameCode_lays hb).trans (bindAll_lays hbind))
  have hlt' := hlt.trans_le (hprep.size.trans htrans.size)
  exact hout ((hrest.edits (htrans.edits hlin).linear).mem_order hlt' hmem)

/-- If the exit is left, the epilogue stands behind it. -/
theorem lowerFunction_bears (hu : u.Labelled) (hstop : stop ∈ u.items.order)
    (hclose : u.roleAt stop = .closes g) (hexit : u.labels[record.exitLabel.index]? = some exit)
    (hmem : exit ∈ t.items.order) :
    ∃ X E Y, t.items.order = X ++ exit :: (E ++ Y) ∧ last ∉ E ∧ t.items.Bears E frame.epilogue := by
  obtain ⟨-, p, w, a, b, -, hw, ha, hb, hlast, hbind⟩ := lowerFunction_ok hp h
  obtain ⟨_, -, hv⟩ := hp.prepared
  have hprep : u.Retains (v.Drops start) v := prepareFunction_retains hv
  have hlays := (translateAll_lays hw).trans (layOutFrame_lays ha)
  have hret := hprep.trans hlays.toRetains
  have hlab := hret.labelled hu
  have hlt := lt_size_of_binds (hu.targets.mp hexit)
  have hexit' := hret.label hu hexit
  have hrest : a.Lays (fun _ => False) t := (insertFrameCode_lays hb).trans (bindAll_lays hbind)
  have hmem' := (hrest.edits hlab.toLinear).mem_order (hlt.trans_le hret.size) hmem
  obtain ⟨X, E, Y, ho, hE, hbears⟩ := insertFrameCode_bears hlab hexit' hmem' hb
  refine ⟨X, E, Y, (order_bindAll hbind).trans ho, fun hlastE => ?_,
    bindAll_bears frame.placed_epilogue hbears hbind⟩
  -- The last block was there when the frame was laid out.
  have hb' := hlays.blocks (prepareFunction_blocks hv hu.toLinear hstop hclose)
  obtain ⟨e, he, A, B, C, horder, hfinal, -⟩ := hb'.trails
  rw [insertFrameCode_ctx hb, he] at hlast
  obtain rfl : e = last := hlast
  have hin : e ∈ a.items.order := by
    rw [horder, ← cons_append]
    exact mem_append_right _ (mem_append_left _ (mem_of_getLast? hfinal))
  exact not_lt.mpr (hE e hlastE) (hb'.made e hin)

end

end Build
end Codegen
