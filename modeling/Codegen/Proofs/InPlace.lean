import Codegen.Proofs.Coverage
import Codegen.Proofs.Locality

/-! Lowering a function in its place. In a program whose function keeps its jumps to itself, the items in front of the
function and behind it are the same before and after, and so are the variables of other functions. -/
namespace Codegen
open List Build ItemSeq Session
variable {frame : FrameLayout} {code : List Instruction} {t : Session} {p : Site}
open Relation
variable {anchor : ItemId} {ids : List ItemId} {proto : Prototype} {text : String}

theorem Build.InsertsBehind.order_of_unlinked
    (h : InsertsBehind anchor text code s s') (hn : anchor ∉ s.items.order)
    (hm : ∀ x ∈ s.items.order, x.index < s.items.size) : s'.items.order = s.items.order := by
  obtain ⟨t, ht, h⟩ := h
  cases emitAll_ok h
  split at ht
  · cases emitComment_ok ht
    have ho : ((s.atCursor (some anchor)).items.place { kind := .comment text }).order = s.items.order :=
      ids_grown_of_not_mem rfl hn
    refine (generateAll_unlinked _ _ ?_ rfl ?_).trans ho
    · rw [ho, size_place]
      exact fun x hx => Nat.lt_succ_of_lt (hm x hx)
    · rw [ho]
      exact fun hmem => lt_irrefl _ (hm _ hmem)
  · subst ht
    exact generateAll_unlinked _ _ hm rfl hn

theorem Build.layOutFrame_rest
    (h : layOutFrame record proto s = .ok frame t) : t.ctx.extraBlock = s.ctx.extraBlock ∧ t =
    { s with ctx := t.ctx } := by
  obtain ⟨_, _, ⟨rfl, rfl⟩, _, _, rfl, _, _, ⟨rfl, rfl⟩, -, rfl⟩ := h
  exact ⟨rfl, rfl⟩

theorem Build.bindAll_edits (hids : ∀ x ∈ ids, p.Own x) (h : ids.forM (bindHomes frame) s = .ok () t) : s.Edits p t := by
  refine (forM_induct (P := fun rest u => (∀ x ∈ rest, p.Own x) ∧ s.Edits p u) (fun x rest u u' hu hx => ?_) h
    ⟨hids, .refl⟩).2
  obtain ⟨hown, hed⟩ := hu
  refine ⟨fun y hy => hown y (.tail _ hy), ?_⟩
  rcases bindHomes_ok hx with ⟨rfl, -⟩ | ⟨item, i, operands, hi, hk, -, hops, rfl⟩
  · exact hed
  · exact hed.tail (.bind (hown x mem_cons_self) hi hk hops)

theorem Build.bindHomes_homeless (h : bindHomes frame x s = .ok () t) : t.HomelessAt x := by
  obtain ⟨rfl, hx⟩ | ⟨item, i, operands, hi, -, -, hbind, rfl⟩ := bindHomes_ok h
  · exact hx
  intro item' i' hi' hk'
  rw [withKind, get?_modify_self, hi] at hi'
  cases hi'
  cases hk'
  refine any_eq_false.mpr fun o' ho' => ?_
  obtain ⟨k, hk⟩ := mem_iff_getElem?.mp ho'
  obtain ⟨o, -, ho⟩ := getElem?_of_forall₂ hbind hk
  simp [(bindOperand_ok ho).1]

theorem Build.bindAll_homeless
    (h : ids.forM (bindHomes frame) s = .ok () t) (hx : x ∈ ids ∨ s.HomelessAt x) : t.HomelessAt x := by
  have hend := forM_induct (P := fun rest u => x ∈ rest ∨ u.HomelessAt x) (fun y rest u u' hu hy => ?_) h hx
  · exact hend.resolve_left not_mem_nil
  by_cases hxy : y = x
  · subst hxy
    exact .inr (bindHomes_homeless hy)
  refine hu.imp (fun hm => (mem_cons.mp hm).resolve_left fun e => hxy e.symm) fun hu => ?_
  rcases bindHomes_ok hy with ⟨rfl, -⟩ | ⟨_, _, _, -, -, -, -, rfl⟩
  · exact hu
  intro item i hi hk
  rw [withKind, get?_modify_of_ne _ hxy] at hi
  exact hu item i hi hk

namespace Site
variable {last : ItemId} {q : ItemSeq}

section
variable (h : p.Keeps last q.order) (hq : q.Linear)
include h hq

theorem Keeps.range :
    ∃ B E, q.order = p.front ++ p.start :: (B ++ p.stop :: (E ++ p.back)) ∧
    q.range p.start last = p.start :: (B ++ p.stop :: E) ∧
      (q.suffixFrom last).tail = p.back ∧ (∀ x ∈ B, x ∈ p.body ∨ p.size ≤ x.index) ∧ ∀ x ∈ E, p.size ≤ x.index := by
  obtain ⟨B, E, ho, hB, hE, hlast⟩ := h
  have ho' : q.order = p.front ++ ((p.start :: (B ++ p.stop :: E)) ++ p.back) := by simp [ho]
  have hlast' : (p.start :: (B ++ p.stop :: E)).getLast? = some last := by
    rw [getLast?_cons, getLast?_append, hlast]
    rfl
  refine ⟨B, E, ho, range_eq ho' hq.nodup rfl hlast', ?_, hB, hE⟩
  obtain ⟨D, hD⟩ := getLast?_eq_some_iff.mp hlast'
  have ho'' : q.order = (p.front ++ D) ++ last :: p.back := by rw [ho', hD]; simp
  have hn := hq.nodup
  rw [ho''] at hn
  rw [suffixFrom_eq ho'' fun hmem => (nodup_append.mp hn).2.2 _ hmem _ mem_cons_self rfl]
  rfl

theorem Keeps.mem_order (hx : x ∈ q.range p.start last) : x ∈ q.order := by
  obtain ⟨B, E, ho, hr, -⟩ := h.range hq
  rw [hr] at hx
  rw [ho]
  simp only [mem_append, mem_cons] at hx ⊢
  tauto

theorem Keeps.own_range (hx : x ∈ q.range p.start last) : p.Own x := by
  obtain ⟨B, E, -, hr, -, hB, hE⟩ := h.range hq
  rw [hr] at hx
  simp only [mem_cons, mem_append] at hx
  rcases hx with rfl | hx | rfl | hx
  · exact .inl mem_cons_self
  · exact (hB x hx).imp_left fun hb => mem_cons_of_mem _ (mem_append_left _ hb)
  · exact .inl (by simp)
  · exact .inr (hE x hx)

end

end Site

namespace Session
variable {u : Session} {record : FunctionRecord}

theorem Visits.local (hv : t.Visits record.item m) (h : t.activated.Sited p f record) : m.Local p t.activated := by
  induction hv with
  | refl => exact .initial h
  | tail hv ha ih => exact ih.advance h (Visits.sound hv h.toLaunch) (Visits.inTurn hv h.toLaunch h.sequence) ha

/-- The place `p` is one in the program. -/
structure Stands (p : Site) (s : Session) : Prop where
  order : s.items.order = p.front ++ p.start :: (p.body ++ p.stop :: p.back)
  size : p.size = s.items.size

theorem Ready.stands (h : u.Ready f record stop body) :
    ∃ p : Site, u.Stands p ∧ p.start = record.item ∧ p.body = body ∧ p.stop = stop := by
  obtain ⟨A, C, ho⟩ := h.order
  exact ⟨⟨u.items.size, A, record.item, body, stop, C, ho ▸ h.nodup, ho ▸ h.made⟩, ⟨ho, rfl⟩, rfl, rfl, rfl⟩

theorem Ready.sited (h : u.Ready f record p.stop p.body) (hs : u.Stands p) (hstart : p.start = record.item)
    (hc : u.Closed p.body) (hl : u.Labelled) (hp : prepareFunction f record p.stop proto u = .ok () v) :
    v.activated.Sited p f record where
  toLaunch := h.launch hp hc
  sequence := h.sequence hp hl
  start := hstart.symm
  size := hs.size.trans (h.walked hp).order.2.symm
  order := (h.walked hp).order.1.trans hs.order
  extra := (congrArg Context.extraBlock (h.walked hp).ctx :)
  unqueued := (congrArg Context.forwardJumps (h.walked hp).ctx :)

theorem Inside.insertsBehind (h : u.Inside p)
    (ha : anchor ∈ p.body) (hi : InsertsBehind anchor text code u u') : u'.Inside p := by
  have hlays : u.Lays (fun _ => False) u' := hi.lays
  have hlin := (hlays.edits h.toLinear).linear
  have hctx : u'.ctx = u.ctx := by rw [hi.rest]
  obtain ⟨extra, he, hk⟩ := h.keeps
  suffices hkeep : p.Keeps extra u'.items.order from ⟨hlin, ⟨extra, hctx ▸ he, hkeep⟩, h.size.trans hlays.size⟩
  by_cases hmem : anchor ∈ u.items.order
  · obtain ⟨E, -, hE, ho⟩ := hi.bears h.toLinear
    obtain ⟨K, Z, hKZ, -, hZ⟩ := hk.around (mem_append_left _ ha) hmem
    have hn := h.nodup
    rw [ho _ _ hKZ]
    rw [hKZ] at hk hn
    exact hk.splice hn (.inl (mem_cons_of_mem _ (mem_append_left _ ha)))
      ((mem_cons.mp hZ).resolve_left (Site.ne_stop ha).symm) fun x hx => h.size.trans ((hE x).mp hx).1
  · rwa [hi.order_of_unlinked hmem h.made]

/-- A function is lowered in its place `p`. It was prepared as `v`, and ends with the item `last`. -/
structure LowersAt (p : Site) (f : FunctionId) (last : ItemId) (u v t : Session) : Prop where
  linear : t.items.Linear
  keeps : p.Keeps last t.items.order
  prepared : u.items.size = v.items.size ∧ ∀ x, ¬ p.Own x → v.items.get? x = u.items.get? x
  edits : v.Edits p t
  /-- The targets of new labels are linked. -/
  bound : ∀ {y l}, p.size ≤ y.index → t.roleAt y = .binds l → y ∈ t.items.order
  /-- What is left of the function is translated. -/
  done : ∀ x ∈ p.body, x ∈ t.items.order → t.Done x
  homeless : ∀ x ∈ t.items.range p.start last, t.HomelessAt x
  others : u.vars.Spares f t.vars
  owners : ∀ {id x}, t.vars.get? id = some x → ∃ y, u.vars.get? id = some y ∧ y.function = x.function
  functions : t.functions = u.functions
  options : t.options = u.options
  labels : u.labels.toList <+: t.labels.toList

theorem Ready.lowersAt (h : u.Ready f record p.stop p.body) (hs : u.Stands p)
    (hstart : p.start = record.item) (hc : u.Closed p.body) (hl : u.Labelled)
    (he : ∃ e ∈ p.body, u.labels[record.entryLabel.index]? = some e)
    (hx : ∃ e ∈ p.body, u.labels[record.exitLabel.index]? = some e) (hp : u.Prepared f record p.stop v)
    (hlow : lowerFunction f u = .ok (record.item, last, frame) t) : u.LowersAt p f last v t := by
  obtain ⟨-, proto, w, a, b, hproto, hw, ha, hb, hlast, ht⟩ := lowerFunction_ok hp hlow
  obtain ⟨proto', hproto', hprep⟩ := hp.prepared
  have hsited := h.sited hs hstart hc hl hprep
  have hwalked := h.walked hprep
  obtain ⟨z, hvisit, rfl⟩ := translateAll_visits hw
  have hloc := hvisit.local hsited
  have hmid := (hvisit.sound hsited.toLaunch).midway
  obtain ⟨hctx, harest⟩ := layOutFrame_rest ha
  have hvz : v.Edits p z := by
    have hact : v.Edit p v.activated := .quiet rfl rfl rfl
    exact (ReflTransGen.single hact).trans hloc.edits
  have hza : z.Edits p a := by
    refine .single ?_
    rw [harest]
    exact .quiet rfl rfl rfl
  have hina : a.Inside p := by
    refine hloc.inside.congr ?_ ?_ hctx
    · rw [harest]
    · rw [harest]
  have hvl : v.labels = u.labels := by rw [hwalked.rest]; rfl
  have hcont := hmid.continues
  have hlabels : ∀ {l : LabelId} {e : ItemId}, u.labels[l.index]? = some e → a.labels[l.index]? = some e := fun {l e} hl => by
    have hlt : l.index < v.activated.labels.size := by
      show l.index < v.labels.size
      rw [hvl]
      exact (Array.getElem?_eq_some_iff.mp hl).1
    rw [harest]
    exact (hcont.labels_eq hlt).trans ((congrArg (·[l.index]?) hvl).trans hl)
  obtain ⟨-, entry, exit, c, hentry, hce, hexit, hcx⟩ := insertFrameCode_ok hb
  obtain ⟨e, heb, hel⟩ := he
  obtain ⟨x, hxb, hxl⟩ := hx
  cases hlabels hel ▸ hentry
  have hcl : c.labels = a.labels := by rw [hce.rest]
  cases hlabels hxl ▸ (hcl ▸ hexit)
  have hinc : c.Inside p := hina.insertsBehind heb hce
  have hzc : z.Edits p c := hza.tail (.place hina.toLinear (fun i hi o ho => ((frame.uses_prologue i hi).2 o ho).1) hce)
  obtain ⟨hinb, hzb⟩ : b.Inside p ∧ z.Edits p b := by
    rcases hcx with ⟨-, hins⟩ | ⟨-, rfl⟩
    · exact ⟨hinc.insertsBehind hxb hins, hzc.tail
        (.place hinc.toLinear (fun i hi o ho => (frame.placed_epilogue i hi o ho).1) hins)⟩
    · exact ⟨hinc, hzc⟩
  obtain ⟨extra, hextra, hkeep⟩ := hinb.keeps
  obtain rfl : extra = last := by
    rwa [hextra] at hlast
  have hbrest := insertFrameCode_rest hb
  obtain ⟨hbr, hbo, hbs⟩ := bindAll_rest ht
  have hbt := bindAll_edits (fun x hx => hkeep.own_range hinb.toLinear (hstart ▸ hx)) ht
  have hvars : t.vars = z.vars := by rw [hbr, hbrest, harest]
  have hlays : z.Lays (fun _ => False) t := by
    have hend : z.Lays (fun _ => False) { z with ctx := { z.ctx with active := false } } := .quiet rfl rfl rfl rfl
    exact hend.trans ((layOutFrame_lays ha).trans ((insertFrameCode_lays hb).trans (bindAll_lays ht)))
  refine ⟨hinb.toLinear.congr hbo (le_of_eq hbs.symm), hbo ▸ hkeep, ⟨hwalked.order.2.symm, fun x hx => ?_⟩,
    hvz.trans (hzb.trans hbt),
    fun {y l} hy hrole => ?_, fun y hy hlink => ?_, fun y hy => ?_, ?_, fun {id x} hx => ?_, ?_, ?_, ?_⟩
  · exact hwalked.others fun hmem => hx (.inl (hstart ▸ hmem))
  · -- the frame makes no labels, so the target is one of the translation
    have hturn := hvisit.inTurn hsited.toLaunch hsited.sequence
    have hzl : z.Labelled := hturn.lays.labelled (hsited.sequence.labelled)
    have htl : t.labels = z.labels := by rw [hbr, hbrest, harest]
    have hzy : z.roleAt y = .binds l := by
      rw [← hzl.targets, ← htl]
      exact (hlays.labelled hzl).targets.mpr hrole
    have hmem : y ∈ z.items.order := (hturn.outlying (hsited.size ▸ hy) hzy).subset (by simp)
    exact (hlays.edits hzl.toLinear).linked y hmem fun h => h (by rw [hzy]; rfl)
  · have hpos : v.ctx.backwardPos ≤ v.ctx.backwardCode.size := by
      rw [show v.ctx.backwardPos = 0 from hsited.sequence.unfollowed.2]
      exact Nat.zero_le _
    have hlt : y.index < z.items.size := by
      have hy' := p.made y (by simp [hy])
      exact hy'.trans_le hloc.inside.size
    have hlinked := (hlays.edits hloc.inside.toLinear).mem_order hlt hlink
    exact Edits.done (hzb.trans hbt) (hvisit.done hsited.toLaunch hsited.sequence.blocks.inactive hpos hy hlinked)
  · refine bindAll_homeless ht (.inl ?_)
    rwa [range_congr hbo, hstart] at hy
  · rw [hvars]
    exact (hwalked.spares rfl).trans hmid.others
  · rw [hvars] at hx
    obtain ⟨x', hx', hxf⟩ := hcont.vars.get? hx
    have hlt : id.index < (u.begun f record p.stop proto').vars.size := hwalked.size ▸ VarTable.lt_size_of_get? hx'
    obtain ⟨y, hy⟩ : ∃ y, (u.begun f record p.stop proto').vars.get? id = some y := ⟨_, Array.getElem?_eq_getElem hlt⟩
    obtain ⟨y', hy', hfy, -⟩ := hwalked.vars hy
    cases hx' ▸ hy'
    exact ⟨y, hy, hfy ▸ Variable.function_eq hxf⟩
  · rw [hbr, hbrest, harest]
    exact (congrArg functions hcont.rest :).trans (congrArg functions hwalked.rest :)
  · rw [hbr, hbrest, harest]
    exact (congrArg options hcont.rest :).trans (congrArg options hwalked.rest :)
  · have htl : t.labels = z.labels := by rw [hbr, hbrest, harest]
    rw [htl, ← hvl]
    exact hcont.labels

end Session

end Codegen
