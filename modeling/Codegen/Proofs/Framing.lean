import Codegen.Proofs.Marking

/-! The code of a function's frame in the lowered program. The prologue stands right behind the entry and the epilogue
right behind the exit; all other code comes from the body or was added to it. -/
namespace Codegen
open List Build ItemSeq Option Compile Encoder
variable {frame : FrameLayout} {t : Session}

namespace Session

/-- The prologue stands behind the entry of a function, and the epilogue behind its exit if that is left. -/
structure Framed (t : Session) (entry exit : ItemId) (frame : FrameLayout) (P E : List ItemId) : Prop where
  prologue : t.items.Bears P frame.prologue
  entry : entry ≠ exit → entry ∈ t.items.order → ∃ X Y, t.items.order = X ++ entry :: (P ++ Y)
  epilogue : exit ∈ t.items.order → t.items.Bears E frame.epilogue ∧ ∃ X Y, t.items.order = X ++ exit :: (E ++ Y)
  exit : exit ∉ t.items.order → E = []

namespace Framed
variable {entry exit : ItemId}

theorem bears (h : t.Framed entry exit frame P E) : E = [] ∨ t.items.Bears E frame.epilogue := by
  by_cases hx : exit ∈ t.items.order
  · exact .inr (h.epilogue hx).1
  · exact .inl (h.exit hx)

theorem given_mem (h : t.Framed entry exit frame P E) (hx : x ∈ P ∨ x ∈ E) (hg : g ∈ t.codeAt x) :
    g ∈ (frame.prologue ++ frame.epilogue).map Instruction.given := by
  rw [map_append, mem_append]
  rcases hx with hx | hx
  · exact .inl (flatMap_codeAt h.prologue ▸ mem_flatMap.mpr ⟨x, hx, hg⟩)
  rcases h.bears with rfl | hE
  · cases hx
  · exact .inr (flatMap_codeAt hE ▸ mem_flatMap.mpr ⟨x, hx, hg⟩)

end Framed

end Session

namespace Build
variable {record : FunctionRecord} {ids : List ItemId}

/-- The code of the frame is all that is new when it has been put in. -/
theorem insertFrameCode_framed (hs : s.Labelled) (h : insertFrameCode record frame s = .ok () t) :
    ∃ entry exit P E, t.labels[record.entryLabel.index]? = some entry ∧ t.labels[record.exitLabel.index]? = some exit ∧
      t.Framed entry exit frame P E ∧ ∀ x ∈ t.items.order, s.items.size ≤ x.index → x ∈ P ∨ x ∈ E := by
  obtain ⟨-, entry, exit, m, hentry, hpro, hexit, hcase⟩ := insertFrameCode_ok h
  have hm : s.Lays (fun _ => False) m := hpro.lays
  have hlab := hm.labelled hs
  obtain ⟨P, hP, hnew, hbehind⟩ := hpro.bears hs.toLinear
  have hlt := Session.lt_size_of_binds (hs.targets.mp hentry)
  have hentry' := hm.label hs hentry
  have hstand : entry ∈ m.items.order → ∃ X Y, m.items.order = X ++ entry :: (P ++ Y) := fun hmem => by
    obtain ⟨X, Y, ho⟩ := append_of_mem ((hm.edits hs.toLinear).mem_order hlt hmem)
    exact ⟨X, Y, hbehind X Y ho⟩
  rcases hcase with ⟨hlink, hepi⟩ | ⟨hno, rfl⟩
  · have ht : m.Lays (fun _ => False) t := hepi.lays
    have htlab := ht.labelled hlab
    obtain ⟨E, hE, hnew', hbehind'⟩ := hepi.bears hlab.toLinear
    have hexit' := hlab.targets.mp hexit
    have hlt' := Session.lt_size_of_binds hexit'
    obtain ⟨X', Y', ho'⟩ := append_of_mem hlink
    refine ⟨entry, exit, P, E, ht.label hlab hentry', ht.label hlab hexit,
      ⟨?_, fun hne hmem => ?_, fun _ => ⟨hE, X', Y', hbehind' X' Y' ho'⟩, (absurd ?_)⟩, fun x hx hge => ?_⟩
    · exact hP.congr fun x hx => hepi.get?_of_lt ((hnew x).mp hx).2
    · obtain ⟨X, Y, ho⟩ := hstand ((ht.edits hlab.toLinear).mem_order (hlt.trans_le hm.size) hmem)
      -- the exit is a target, so it is no part of the prologue
      have hexP : exit ∉ P := fun hin => by
        obtain ⟨item, hi⟩ := get?_of_lt_size hlt'
        rw [Session.roleAt_of_get? hi] at hexit'
        rcases hP.kind_cases hin hi with ⟨text, hk⟩ | ⟨i, -, hk⟩ <;> rw [hk] at hexit' <;> cases hexit'
      rw [ho] at hlink
      rcases mem_append.mp hlink with hin | hin
      · obtain ⟨A, B, rfl⟩ := append_of_mem hin
        exact ⟨A ++ exit :: (E ++ B), Y, by rw [hbehind' A (B ++ entry :: (P ++ Y)) (by rw [ho]; simp)]; simp⟩
      have hin : exit ∈ Y := ((mem_append.mp ((mem_cons.mp hin).resolve_left (Ne.symm hne))).resolve_left hexP)
      obtain ⟨A, B, rfl⟩ := append_of_mem hin
      exact ⟨X, A ++ exit :: (E ++ B), by rw [hbehind' (X ++ entry :: (P ++ A)) B (by rw [ho]; simp)]; simp⟩
    · rw [hbehind' X' Y' ho']
      simp
    · by_cases hx' : x.index < m.items.size
      · exact .inl ((hnew x).mpr ⟨hge, hx'⟩)
      · exact .inr ((hnew' x).mpr ⟨not_lt.mp hx', htlab.made x hx⟩)
  · exact ⟨entry, exit, P, [], hentry', hexit, ⟨hP, fun _ => hstand, fun hmem => absurd hmem hno,
      fun _ => rfl⟩, fun x hx hge => .inl ((hnew x).mpr ⟨hge, hlab.made x hx⟩)⟩

theorem insertFrameCode_get?_of_lt (h : insertFrameCode record frame s = .ok () t) (hx : x.index < s.items.size) :
    t.items.get? x = s.items.get? x := by
  obtain ⟨-, entry, exit, m, -, hpro, -, ⟨-, hepi⟩ | ⟨-, rfl⟩⟩ := insertFrameCode_ok h
  · have hlays : s.Lays (fun _ => False) m := hpro.lays
    rw [hepi.get?_of_lt (hx.trans_le hlays.size), hpro.get?_of_lt hx]
  · exact hpro.get?_of_lt hx

theorem layOutFrame_ok (h : layOutFrame record p s = .ok frame t) :
    t.items = s.items ∧ ∃ i : FrameInput, frame = i.layout ∧ i.hints = record.hints ∧ i.modified = s.ctx.modified ∧
      i.preserved = s.ctx.preserved := by
  obtain ⟨_, _, ⟨rfl, rfl⟩, _, _, rfl, _, _, ⟨rfl, rfl⟩, rfl, rfl⟩ := h
  exact ⟨rfl, _, rfl, rfl, rfl, rfl⟩

theorem bindAll_kind {item : Item} (h : ids.forM (bindHomes frame) s = .ok () t) (hi : t.items.get? x = some item) :
    ∃ item0, s.items.get? x = some item0 ∧ (item.kind = item0.kind ∨ ∃ (i : InstructionItem) (operands : List Operand),
      item0.kind = .instruction i ∧ item.kind = .instruction { i with operands }) := by
  refine forM_induct (P := fun _ u => ∀ item, u.items.get? x = some item → ∃ item0, s.items.get? x = some item0 ∧
    (item.kind = item0.kind ∨ ∃ (i : InstructionItem) (operands : List Operand), item0.kind = .instruction i ∧
      item.kind = .instruction { i with operands })) (fun y _ u u' hu hy item hi => ?_) h (fun item hi => ⟨item, hi, .inl rfl⟩)
    item hi
  rcases bindHomes_ok hy with ⟨rfl, -⟩ | ⟨item1, i, operands, hi1, hk, -, -, rfl⟩
  · exact hu item hi
  rcases get?_modify_cases hi with ⟨-, hx⟩ | ⟨rfl, _, hx, rfl⟩
  · exact hu item hx
  obtain ⟨item0, hi0, hk0 | ⟨i0, operands₀, hk0, hk'⟩⟩ := hu item1 hi1
  · exact ⟨item0, hi0, .inr ⟨i, operands, hk0 ▸ hk, rfl⟩⟩
  · cases hk ▸ hk'
    exact ⟨item0, hi0, .inr ⟨i0, operands, hk0, rfl⟩⟩

/-- A function is lowered by translating its prepared items, and then the code of its frame is put in. The items that do
not belong to the frame are those of the translation. -/
theorem lowerFunction_framed (hlab : u.Labelled)
    (hp : u.Prepared f record stop v) (hl : lowerFunction f u = .ok (record.item, last, frame) t) :
    ∃ p w a b, translateAll record.item v = .ok () w ∧ layOutFrame record p w = .ok frame a ∧
      insertFrameCode record frame a = .ok () b ∧ (b.items.range record.item last).forM (bindHomes frame) b = .ok () t ∧
      ∃ entry exit P E, t.labels[record.entryLabel.index]? = some entry ∧
        t.labels[record.exitLabel.index]? = some exit ∧ t.Framed entry exit frame P E ∧
        ∀ x ∈ t.items.order, x ∉ P → x ∉ E → x.index < w.items.size ∧ x ∈ w.items.order := by
  obtain ⟨-, p, w, a, b, -, hw, ha, hb, -, hbind⟩ := lowerFunction_ok hp hl
  obtain ⟨hitems, i, rfl, -⟩ := layOutFrame_ok ha
  obtain ⟨q, -, hv⟩ := hp.prepared
  have hret : u.Retains (v.Drops record.item) a :=
    (prepareFunction_retains hv).trans ((translateAll_lays hw).trans (layOutFrame_lays ha)).toRetains
  have halab := hret.labelled hlab
  obtain ⟨entry, exit, P, E, hentry, hexit, hframed, hnew⟩ := insertFrameCode_framed halab hb
  obtain ⟨hrest, horder, -⟩ := bindAll_rest hbind
  have hlabels : t.labels = b.labels := by rw [hrest]
  refine ⟨p, w, a, b, hw, ha, hb, hbind, entry, exit, P, E, hlabels ▸ hentry, hlabels ▸ hexit, ⟨?_, ?_, ?_, ?_⟩,
    fun x hx hP hE => ?_⟩
  · exact bindAll_bears (fun c hc => (i.layout.uses_prologue c hc).2) hframed.prologue hbind
  · rw [horder]
    exact hframed.entry
  · rw [horder]
    exact fun hmem => (hframed.epilogue hmem).imp_left fun hE => bindAll_bears i.layout.placed_epilogue hE hbind
  · rw [horder]
    exact hframed.exit
  have hlt : x.index < a.items.size := by
    by_contra hge
    exact (hnew x (horder ▸ hx) (not_lt.mp hge)).elim hP hE
  have hrest : a.Lays (fun _ => False) t := (insertFrameCode_lays hb).trans (bindAll_lays hbind)
  rw [← hitems]
  exact ⟨hlt, (hrest.edits halab.toLinear).mem_order hlt hx⟩

end Build

namespace Session
variable {v : Session} {record : FunctionRecord} {start stop last : ItemId}
  {body : List ItemId}

theorem codeAt_eq_nil (h : (∃ f, t.roleAt x = .opens f) ∨ ∃ f, t.roleAt x = .closes f) : t.codeAt x = [] := by
  cases hi : t.items.get? x with
  | none => simp [codeAt, hi]
  | some item =>
    rw [codeAt_of_get? hi]
    simp only [roleAt_of_get? hi] at h
    cases hk : item.kind with
    | function | functionEnd => rfl
    | _ =>
      rw [hk] at h
      rcases h with ⟨f, h⟩ | ⟨f, h⟩ <;> cases h

section
variable (h : u.Ready f record stop body)
  (hp : u.Prepared f record stop v)
  (hl : lowerFunction f u = .ok (record.item, last, frame) t)
include h hp hl

theorem Ready.lowered_lies (hs : record.item ∈ t.items.order) :
    ∃ A D B C, t.items.Lies u.items.size record.item stop last A D B C ∧
      (∀ x ∈ D, x ∈ body ∨ u.items.size ≤ x.index) ∧ ∀ x ∈ body, x ∈ t.items.order → x ∈ D := by
  have hlin : u.items.Linear := ⟨h.nodup, h.made⟩
  obtain ⟨A, C, ho⟩ := h.order
  have hn := h.nodup
  rw [ho] at hn
  have hedits := (lowerFunction_retains hp hl).edits hlin
  have hstop : stop ∈ u.items.order := by rw [ho]; simp
  have htr := lowerFunction_trails hp hl hlin hstop (roleAt_of_get? h.closes)
  have hstop' : stop ∈ t.items.order := by
    obtain ⟨A', B', C', ho', -⟩ := htr
    rw [ho']
    simp
  have hbefore : [record.item, stop].Sublist u.items.order := by
    rw [ho]
    exact (before_iff hn).mpr (by simp)
  obtain ⟨A', D, B, hlies⟩ := htr.lies hedits.linear (hedits.before_of_mem hlin hbefore hs hstop')
  refine ⟨A', D, B, _, hlies, fun x hD => ?_, fun x hx hmem => (hlies.mem_iff hedits.linear).mpr ?_⟩
  · by_cases hlt : x.index < u.items.size
    · obtain ⟨h1, h2⟩ := (hlies.mem_iff hedits.linear).mp hD
      refine .inl ((mem_between hn).mpr ⟨?_, ?_⟩) <;> rw [← ho]
      · exact hedits.before (lt_size_of_get? h.opens) hlt h1
      · exact hedits.before hlt (lt_size_of_get? h.closes) h2
    · exact .inr (not_lt.mp hlt)
  · obtain ⟨h1, h2⟩ := (mem_between hn).mp hx
    rw [← ho] at h1 h2
    exact ⟨hedits.before_of_mem hlin h1 hs hmem, hedits.before_of_mem hlin h2 hmem hstop'⟩

theorem Ready.lowered_range (hx : x ∈ t.items.range record.item last) :
    t.codeAt x = [] ∨ (x ∈ body ∨ u.items.size ≤ x.index) ∧ x ∈ t.items.order := by
  have hret := lowerFunction_retains hp hl
  have hopen := hret.item h.opens
  have hclose := hret.item h.closes
  by_cases hs : record.item ∈ t.items.order
  · obtain ⟨A, D, B, C, hlies, hD, -⟩ := h.lowered_lies hp hl hs
    have hmem : x ∈ t.items.order := by
      rw [hlies.order]
      exact mem_append_right _ (mem_append_left _ (hlies.range ▸ hx))
    rw [hlies.range] at hx
    simp only [mem_cons, mem_append] at hx
    rcases hx with rfl | hxD | rfl | hB
    · exact .inl (codeAt_eq_nil (.inl ⟨f, hopen⟩))
    · exact .inr ⟨hD x hxD, hmem⟩
    · exact .inl (codeAt_eq_nil (.inr ⟨f, hclose⟩))
    · exact .inr ⟨.inr (hlies.blocks x hB), hmem⟩
  · cases mem_singleton.mp (range_of_not_mem hs hx)
    exact .inl (codeAt_eq_nil (.inl ⟨f, hopen⟩))

end

theorem Ready.compiled {ε : Type} [Encoder ε] [Shows ε] {c c' : Compilation ε}
    (h : c.session.Ready f record stop body) (hc : compileFunction f c = .ok last c') :
    ∃ frame v t, (c'.session.functions[f.index]?).bind FunctionRecord.frame = some frame ∧
      c.session.Prepared f record stop v ∧ lowerFunction f c.session = .ok (record.item, last, frame) t ∧
      Gives Shows.given ((t.items.range record.item last).flatMap t.codeAt) c.encoder c'.encoder := by
  obtain ⟨start, frame, t, hl, ⟨stats, hs⟩, hgives, -⟩ := compileFunction_ok hc
  obtain ⟨record', stop', v, hp⟩ := exists_prepared hl
  cases h.function ▸ hp.function
  cases h.closed ▸ hp.closed
  obtain ⟨rfl, -⟩ := lowerFunction_ok hp hl
  refine ⟨frame, v, t, ?_, hp, hl, hgives⟩
  have hmap := congrArg (·[f.index]?) (lowerFunction_retains hp hl).functions
  simp only [Array.getElem?_map, h.function, map_some] at hmap
  obtain ⟨r, hr, -⟩ := map_eq_some_iff.mp hmap
  rw [hs]
  simp [Array.getElem?_modify, hr]

end Session

/-- A function that is compiled, with what is known of it before and afterwards. -/
structure Compiled where
  record : FunctionRecord
  stop : ItemId
  prototype : Prototype
  before : Compilation Recorder
  last : ItemId
  after : Compilation Recorder

namespace Builder

/-- The first function of the program that some calls make, compiled for a recorder that knows the labels. -/
def compileFirst (calls : List Call) : Option Compiled :=
  match program calls {} with
  | .error _ _ => none
  | .ok _ s => do
    let record ← s.functions[0]?
    let stop ← record.stop
    let p ← s.prototypes[record.prototype.index]?
    let c : Compilation Recorder := ⟨s, (range s.labelCount).foldl (fun e l => defineLabel e ⟨l⟩) fresh⟩
    match compileFunction ⟨0⟩ c with
    | .error _ _ => none
    | .ok last c' => some ⟨record, stop, p, c, last, c'⟩

theorem compileFirst_ok (h : compileFirst calls = some q) :
    program calls {} = .ok () q.before.session ∧ q.before.session.functions[0]? = some q.record ∧
      q.record.stop = some q.stop ∧ q.before.session.prototypes[q.record.prototype.index]? = some q.prototype ∧
      compileFunction ⟨0⟩ q.before = .ok q.last q.after := by
  unfold compileFirst at h
  cases hs : program calls {} with
  | error e s => simp [hs] at h
  | ok u s =>
    simp only [hs, bind_eq_bind, bind_eq_some_iff] at h
    obtain ⟨record, hr, stop, hstop, p, hp, h⟩ := h
    split at h
    · cases h
    rename_i hc
    cases h
    exact ⟨rfl, hr, hstop, hp, hc⟩

end Builder

end Codegen
