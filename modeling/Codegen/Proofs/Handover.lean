import Codegen.Encoder.Recorder
import Codegen.Proofs.Retention
import Codegen.X64.Assembler

/-! Handing a program to an encoder, one item or one function after the other, and what the encoder is given for it. -/
namespace Codegen
open List Build Session Compile Encoder
variable {code : List Given} {s : Session}
variable {b : LabelBook} {ids items : List ItemId}

/-- A piece of code that an encoder is given. -/
inductive Given where
  | instruction (opcode : Opcode) (operands : List Operand)
  | label (l : LabelId)
  deriving DecidableEq, Repr

/-- The code in an entry. -/
def Entry.given : Entry → List Given
  | instruction op operands => [.instruction op operands]
  | label l => [.label l]
  | _ => []

/-- The labels that stand as operands in a piece of code. -/
def Given.names : Given → List LabelId
  | instruction _ operands => operands.filterMap Operand.label?
  | label _ => []

/-- The register is written there. -/
def Given.Writes (q : Reg) : Given → Prop
  | .instruction op operands => q ∈ op.implicitWrites ++ (op.writtenOperands operands).filterMap Operand.reg?
  | .label _ => False

instance (q : Reg) : (g : Given) → Decidable (g.Writes q)
  | .instruction .. => inferInstanceAs (Decidable (_ ∈ _))
  | .label _ => isFalse fun h => h

namespace Encoder
variable [Encoder ε]

/-- Between the two encoders lies this code, and only the labels in it have become marked. -/
structure Gives (given : ε → List Given) (code : List Given) (e e' : ε) : Prop where
  given : given e' = given e ++ code
  marked : ∀ l, isLabelMarked e' l = true ↔ isLabelMarked e l = true ∨ .label l ∈ code

/-- Encoders that show the code they were given. -/
class Shows (ε : Type) [Encoder ε] where
  given : ε → List Given
  given_fresh : given fresh = []
  marked_fresh (l : LabelId) : isLabelMarked (fresh : ε) l = false
  define (e : ε) (l : LabelId) : Gives given [] e (defineLabel e l)
  mark {e e' : ε} {l : LabelId} (h : markLabel e l = .ok e') : Gives given [.label l] e e'
  emit {e e' : ε} {op : Opcode} {operands : List Operand} (h : emit e op operands = (.ok (), e')) :
    Gives given [.instruction op operands] e e'
  align {e e' : ε} {alignment : Nat} (h : align e alignment = .ok e') : Gives given [] e e'
  embed {e e' : ε} {bytes : List UInt8} (h : embed e bytes = .ok e') : Gives given [] e e'
  comment (e : ε) (text : String) : Gives given [] e (comment e text)

namespace Gives
variable {given : ε → List Given} {code' : List Given}

theorem refl (e : ε) : Gives given [] e e := ⟨by simp, by simp⟩

theorem trans (h : Gives given code e e') (h' : Gives given code' e' e'') : Gives given (code ++ code') e e'' where
  given := by rw [h'.given, h.given, append_assoc]
  marked l := by rw [h'.marked, h.marked, mem_append, or_assoc]

theorem of_eq (hg : given e' = given e) (hm : ∀ l, isLabelMarked e' l = isLabelMarked e l) : Gives given [] e e' :=
  ⟨by simp [hg], fun l => by simp [hm]⟩

end Gives

end Encoder

namespace Recorder

/-- The code among the entries. -/
def given (r : Recorder) : List Given :=
  r.entries.toList.filterMap fun
    | .instruction op operands => some (.instruction op operands)
    | .label l => some (.label l)
    | _ => none

instance : Encoder.Shows Recorder where
  given := given
  given_fresh := rfl
  marked_fresh _ := rfl
  define r l := .of_eq rfl fun _ => LabelBook.isMarked_define
  mark {r r' l} h := by
    simp only [Encoder.markLabel, markLabel, except_bind_ok, except_pure_ok] at h
    obtain ⟨labels, hl, rfl⟩ := h
    exact ⟨by simp [given, push], fun x => by simpa [Encoder.isLabelMarked, push] using (LabelBook.isMarked_mark hl).2⟩
  emit {r r' op operands} h := by
    simp only [Encoder.emit, emit] at h
    split at h
    · cases h
      exact ⟨by simp [given, push], fun x => by simp [Encoder.isLabelMarked, push]⟩
    · cases h
  align h := by
    cases h
    exact .of_eq (by simp [given, push]) fun _ => rfl
  embed h := by
    cases h
    exact .of_eq (by simp [given, push]) fun _ => rfl
  comment r text := .of_eq (by simp [given, Encoder.comment, push]) fun _ => rfl

end Recorder

namespace X64.Assembler
variable {α : Type}

/-- The code among the commands. -/
def given (a : Assembler α) : List Given :=
  a.commands.toList.filterMap fun
    | .emit op operands => some (.instruction op operands)
    | .mark l => some (.label l)
    | _ => none

/-- A request that succeeded is noted, and nothing else has happened. -/
theorem of_note {a' b : Assembler α} {c : Command} {result : Except EncodingError Unit × Stream α}
    (h : b.note c result = (.ok (), a')) : a'.commands = b.commands.push c ∧ a'.labels = b.labels := by
  obtain ⟨_ | _, stream⟩ := result
  · cases h
  · cases h
    exact ⟨rfl, rfl⟩

theorem after_ok {result : Except EncodingError Unit × Assembler α} (h : after result = .ok a) : result = (.ok (), a) := by
  obtain ⟨_ | _, b⟩ := result
  · cases h
  · cases h
    rfl

instance [CodeAssembler α] : Encoder.Shows (Assembler α) where
  given := given
  given_fresh := rfl
  marked_fresh _ := rfl
  define a l := .of_eq rfl fun _ => LabelBook.isMarked_define
  mark {a a' l} h := by
    have h := after_ok h
    unfold markLabel at h
    split at h
    · rename_i labels hl
      obtain ⟨hc, hb⟩ := of_note h
      exact ⟨by simp [given, hc], fun x => by simpa [Encoder.isLabelMarked, hb] using (LabelBook.isMarked_mark hl).2⟩
    · cases h
  emit h := by
    obtain ⟨hc, hb⟩ := of_note h
    exact ⟨by simp [given, hc], fun x => by simp [Encoder.isLabelMarked, hb]⟩
  align {a a' alignment} h := by
    have h := after_ok h
    unfold align at h
    split at h
    · cases h
    · split at h
      · cases h
        exact .of_eq (by simp [given]) fun _ => rfl
      · cases h
        exact .refl _
  embed h := by
    obtain ⟨hc, hb⟩ := of_note (after_ok h)
    exact .of_eq (by simp [given, hc]) fun _ => by simp [Encoder.isLabelMarked, hb]
  comment a text := .refl a

end X64.Assembler

/-- What an encoder is given for an instruction. -/
def Instruction.given (i : Instruction) : Given := .instruction i.opcode (i.opcode.explicitOperands i.operands)

namespace Session

/-- What an encoder is given for an item of this kind. -/
def codeOf (s : Session) : ItemKind → List Given
  | .instruction i => [Instruction.given ⟨i.opcode, i.operands⟩]
  | .jump j => [.instruction j.opcode [.label j.target]]
  | .target t => [.label t.label]
  | .ret r =>
    if r.emitJump then
      (s.functions[r.function.index]?).toList.map fun record => .instruction .jmp [.label record.exitLabel]
    else []
  | _ => []

def codeAt (s : Session) (x : ItemId) : List Given := ((s.items.get? x).toList.map Item.kind).flatMap s.codeOf

/-- What a recorder is given for an item of this kind. -/
def entriesOf (s : Session) : ItemKind → List Entry
  | .instruction i => [.instruction i.opcode (i.opcode.explicitOperands i.operands)]
  | .jump j => [.instruction j.opcode [.label j.target]]
  | .target t => [.label t.label]
  | .ret r =>
    if r.emitJump then
      (s.functions[r.function.index]?).toList.map fun record => .instruction .jmp [.label record.exitLabel]
    else []
  | .align alignment => [.align alignment]
  | .comment text => if s.options.emitComments then [.comment text] else []
  | .data bytes => [.data bytes]
  | _ => []

def entriesAt (s : Session) (x : ItemId) : List Entry := ((s.items.get? x).toList.map Item.kind).flatMap s.entriesOf

theorem entriesAt_of_get? (h : s.items.get? x = some item) : s.entriesAt x = s.entriesOf item.kind := by
  simp [entriesAt, h]

theorem codeAt_of_get? {item : Item} (h : s.items.get? x = some item) : s.codeAt x = s.codeOf item.kind := by
  simp [codeAt, h]

theorem codeAt_congr {s' : Session} (hi : s'.items = s.items) (hf : s'.functions = s.functions) :
    s'.codeAt = s.codeAt := by
  have hcode : s'.codeOf = s.codeOf := by
    funext kind
    cases kind with
    | ret r => simp only [codeOf, hf]
    | _ => rfl
  funext x
  simp only [codeAt, hi, hcode]

theorem codeAt_eq (s : Session) (x : ItemId) : s.codeAt x = (s.entriesAt x).flatMap Entry.given := by
  have hcode : s.codeOf = fun kind => (s.entriesOf kind).flatMap Entry.given := by
    funext kind
    cases kind with
    | ret r =>
      simp only [codeOf, entriesOf]
      split
      · cases s.functions[r.function.index]? <;> rfl
      · rfl
    | comment text =>
      simp only [codeOf, entriesOf]
      split <;> rfl
    | _ => rfl
  rw [codeAt, entriesAt, flatMap_assoc, hcode]

theorem names_codeOf (hg : g ∈ s.codeOf kind)
    (hl : l ∈ g.names) : l ∈ labelsOf kind ∨ ∃ r record, kind = .ret r ∧ r.emitJump = true ∧
      s.functions[r.function.index]? = some record ∧ record.exitLabel = l := by
  cases kind with
  | instruction i =>
    cases mem_singleton.mp hg
    obtain ⟨o, ho, hl⟩ := mem_filterMap.mp hl
    exact .inl (mem_filterMap.mpr ⟨o, Opcode.explicitOperands_subset _ _ ho, hl⟩)
  | jump j =>
    cases mem_singleton.mp hg
    exact .inl (by simpa [Given.names, Operand.label?, labelsOf] using hl)
  | target r =>
    cases mem_singleton.mp hg
    cases hl
  | ret r =>
    right
    simp only [codeOf] at hg
    split at hg
    · obtain ⟨record, hr, rfl⟩ := mem_map.mp hg
      have hl' : l = record.exitLabel := by simpa [Given.names, Operand.label?] using hl
      exact ⟨r, record, rfl, by assumption, Option.mem_toList.mp hr, hl'.symm⟩
    · cases hg
  | _ => cases hg

end Session

/-- The second compilation comes from the first by handing over this code. -/
structure Compilation.Hands {ε : Type} [Encoder ε] [Shows ε] (code : List Given) (c c' : Compilation ε) :
    Prop where
  session : ∃ stats, c'.session = { c.session with stats }
  gives : Gives Shows.given code c.encoder c'.encoder

namespace Compilation.Hands
variable [Encoder ε] [Shows ε] {code' : List Given} {c : Compilation ε}

theorem refl (c : Compilation ε) : c.Hands [] c := ⟨⟨_, rfl⟩, .refl _⟩

theorem trans (h : c.Hands code c') (h' : c'.Hands code' c'') : c.Hands (code ++ code') c'' := by
  obtain ⟨stats, hs⟩ := h.session
  obtain ⟨stats', hs'⟩ := h'.session
  exact ⟨⟨stats', by rw [hs', hs]⟩, h.gives.trans h'.gives⟩

theorem codeAt_eq (h : c.Hands code c') : c'.session.codeAt = c.session.codeAt := by
  obtain ⟨stats, hs⟩ := h.session
  exact codeAt_congr (by rw [hs]) (by rw [hs])

end Compilation.Hands

namespace Compile
open Build (bind_ok pure_ok get_ok modify_ok throw_ok when_ok forM_nil_ok forM_cons_ok)
open Encoder (Shows)
variable {c' : Compilation ε}

theorem onSession_ok {step : Build α} :
    (onSession step : Compile ε α) c = .ok a c' ↔ ∃ s', step c.session = .ok a s' ∧ { c with session := s' } = c' := by
  unfold onSession
  cases step c.session <;> simp

theorem onEncoder_ok :
    onEncoder request c = .ok u c' ↔ ∃ e, request c.encoder = .ok e ∧ { c with encoder := e } = c' := by
  simp only [onEncoder, bind_ok, get_ok]
  cases hr : request c.encoder with
  | ok e =>
    constructor
    · rintro ⟨_, _, ⟨rfl, rfl⟩, h⟩
      rw [hr] at h
      exact ⟨e, rfl, modify_ok.mp h⟩
    · rintro ⟨_, he, h⟩
      cases he
      exact ⟨c, c, ⟨rfl, rfl⟩, by simpa only [hr] using modify_ok.mpr h⟩
  | error e =>
    constructor
    · rintro ⟨_, _, ⟨rfl, rfl⟩, h⟩
      rw [hr] at h
      exact (throw_ok.mp h).elim
    · rintro ⟨_, he, -⟩
      cases he

variable [Encoder ε]

theorem checkItems_ok (h : ids.forM checkItem c = .ok u c') :
    c' = c ∧ ∀ x ∈ ids, ∀ item, c.session.items.get? x = some item → ∀ l ∈ labelsOf item.kind,
      isLabelMarked c.encoder l = true := by
  have hlabels : ∀ {ls : List LabelId} {d d' : Compilation ε}, ls.forM checkLabel d = .ok () d' →
      d' = d ∧ ∀ l ∈ ls, isLabelMarked d.encoder l = true := by
    intro ls
    induction ls with
    | nil => exact fun h => ⟨(forM_nil_ok.mp h).symm, by simp⟩
    | cons l ls ih =>
      intro d d' h
      obtain ⟨d1, hl, h⟩ := forM_cons_ok.mp h
      simp only [checkLabel, bind_ok] at hl
      obtain ⟨_, _, ⟨⟩, hl⟩ := hl
      split at hl
      · exact (throw_ok.mp hl).elim
      rename_i hm
      cases hl
      obtain ⟨rfl, hls⟩ := ih h
      exact ⟨rfl, forall_mem_cons.mpr ⟨by simpa using hm, hls⟩⟩
  induction ids generalizing c with
  | nil => exact ⟨(forM_nil_ok.mp h).symm, by simp⟩
  | cons x ids ih =>
    obtain ⟨d, hd, h⟩ := forM_cons_ok.mp h
    simp only [checkItem, bind_ok, onSession_ok, getItem_ok] at hd
    obtain ⟨item, _, ⟨_, ⟨hi, rfl⟩, rfl⟩, hd⟩ := hd
    obtain ⟨rfl, hx⟩ := hlabels hd
    obtain ⟨rfl, hids⟩ := ih h
    refine ⟨rfl, forall_mem_cons.mpr ⟨fun item' hi' => ?_, hids⟩⟩
    cases hi ▸ hi'
    exact hx

/-- Hand over one entry. -/
def hand : Entry → Compile ε Unit
  | .instruction op operands => emitInstruction op operands
  | .label l => onEncoder (markLabel · l)
  | .align alignment => onEncoder (align · alignment)
  | .data bytes => onEncoder (embed · bytes)
  | .comment text => modifyEncoder (comment · text)

/-- An item is handed over by way of its entry, if it has one. -/
theorem emitItem_hand (h : emitItem x c = .ok u c') :
    c.session.entriesAt x = [] ∧ c = c' ∨ ∃ e, c.session.entriesAt x = [e] ∧ hand e c = .ok () c' := by
  simp only [emitItem, bind_ok, onSession_ok, getItem_ok] at h
  obtain ⟨item, _, ⟨_, ⟨hi, rfl⟩, rfl⟩, h⟩ := h
  rw [entriesAt_of_get? hi]
  cases hk : item.kind with
  | instruction i =>
    simp only [hk] at h
    obtain ⟨d, hd, h⟩ := when_ok.mp h
    split at hd
    · exact (throw_ok.mp hd).elim
    · cases hd
      exact .inr ⟨_, rfl, h⟩
  | ret r =>
    simp only [hk] at h
    split at h
    · rename_i hj
      simp only [bind_ok, onSession_ok, getFunction_ok] at h
      obtain ⟨record, _, ⟨_, ⟨hr, rfl⟩, rfl⟩, h⟩ := h
      refine .inr ⟨.instruction .jmp [.label record.exitLabel], ?_, h⟩
      simp [entriesOf, hj, hr]
    · exact .inl ⟨if_neg ‹_›, (pure_ok.mp h).2⟩
  | comment text =>
    simp only [hk, bind_ok] at h
    obtain ⟨_, _, ⟨⟩, h⟩ := h
    split at h
    · exact .inr ⟨_, if_pos ‹_›, h⟩
    · exact .inl ⟨if_neg ‹_›, (pure_ok.mp h).2⟩
  | jump | target | align | data =>
    simp only [hk] at h
    exact .inr ⟨_, rfl, h⟩
  | _ =>
    simp only [hk] at h
    exact .inl ⟨rfl, (pure_ok.mp h).2⟩

variable [Shows ε]

theorem onEncoder_hands (hr : ∀ {e}, request c.encoder = .ok e → Gives Shows.given code c.encoder e)
    (h : onEncoder request c = .ok u c') : c.Hands code c' := by
  obtain ⟨e, he, rfl⟩ := onEncoder_ok.mp h
  exact ⟨⟨_, rfl⟩, hr he⟩

theorem emitInstruction_hands
    (h : emitInstruction op operands c = .ok u c') : c.Hands [.instruction op operands] c' := by
  simp only [emitInstruction, bind_ok] at h
  obtain ⟨_, _, ⟨⟩, h⟩ := h
  cases he : emit c.encoder op operands with
  | mk result e =>
    simp only [he] at h
    obtain ⟨_, d, hd, h⟩ := h
    cases hd
    cases result with
    | ok _ =>
      obtain ⟨_, rfl, rfl⟩ := h
      exact ⟨⟨_, rfl⟩, Shows.emit he⟩
    | error e =>
      simp only [bind_ok, throw_ok, false_and, exists_false] at h

theorem hand_hands (h : hand e c = .ok () c') : c.Hands e.given c' := by
  cases e <;> rw [hand] at h
  case instruction => exact emitInstruction_hands h
  case label => exact onEncoder_hands Shows.mark h
  case align => exact onEncoder_hands Shows.align h
  case data => exact onEncoder_hands Shows.embed h
  case comment =>
    cases modify_ok.mp h
    exact ⟨⟨_, rfl⟩, Shows.comment _ _⟩

theorem emitItem_hands {id : ItemId} (h : emitItem id c = .ok u c') : c.Hands (c.session.codeAt id) c' := by
  rw [codeAt_eq]
  obtain ⟨he, rfl⟩ | ⟨e, he, h⟩ := emitItem_hand h
  · rw [he]
    exact .refl c
  · rw [he, flatMap_singleton]
    exact hand_hands h

theorem emitItems_hands (h : ids.forM emitItem c = .ok u c') : c.Hands (ids.flatMap c.session.codeAt) c' := by
  induction ids generalizing c with
  | nil =>
    obtain rfl := forM_nil_ok.mp h
    exact .refl c
  | cons id ids ih =>
    obtain ⟨d, hd, h⟩ := forM_cons_ok.mp h
    have hid := emitItem_hands hd
    have hids := ih h
    rw [hid.codeAt_eq] at hids
    exact hid.trans hids

theorem defineLabels_hands {first count : Nat} (h : defineLabels first count c = .ok u c') : c.Hands [] c' := by
  refine forM_induct (P := fun _ d => c.Hands [] d) (fun i _ d d' hd he => ?_) h (.refl c)
  cases modify_ok.mp he
  exact hd.trans ⟨⟨_, rfl⟩, Shows.define _ _⟩

theorem compileFunction_ok (h : compileFunction f c = .ok last c') :
    ∃ start frame t, lowerFunction f c.session = .ok (start, last, frame) t ∧
      (∃ stats, c'.session = { t with
        functions := t.functions.modify f.index ({ · with frame := some frame }), stats }) ∧
      Gives Shows.given ((t.items.range start last).flatMap t.codeAt) c.encoder c'.encoder ∧
      ∀ x ∈ t.items.range start last, ∀ item, t.items.get? x = some item → ∀ l ∈ labelsOf item.kind,
        isLabelMarked c'.encoder l = true := by
  simp only [compileFunction, bind_ok, onSession_ok, modifyStats_ok, pure_ok] at h
  obtain ⟨_, _, ⟨⟩, ⟨start, last', frame⟩, _, ⟨t, ht, rfl⟩, h⟩ := h
  obtain ⟨_, _, ⟨rfl, rfl⟩, _, d1, h1, _, _, ⟨rfl, rfl⟩, _, d2, h2, _, d3, h3, _, _, ⟨s', hs', rfl⟩, _, _, ⟨rfl, rfl⟩, _, _,
    ⟨_, rfl, rfl⟩, rfl, rfl⟩ := h
  have hd1 := defineLabels_hands h1
  have hd2 := emitItems_hands h2
  obtain ⟨rfl, hmarked⟩ := checkItems_ok h3
  simp only [modifyFunction, bind_ok, getFunction_ok, modify_ok] at hs'
  obtain ⟨_, _, ⟨-, rfl⟩, rfl⟩ := hs'
  obtain ⟨stats1, e1⟩ := hd1.session
  obtain ⟨stats2, e2⟩ := hd2.session
  have hi1 : d1.session.items = t.items := by rw [e1]
  have hi2 : d3.session.items = t.items := by rw [e2, hi1]
  rw [hd1.codeAt_eq, hi1] at hd2
  rw [hi1, hi2] at hmarked
  exact ⟨start, frame, t, ht, ⟨_, by rw [e2, e1]⟩, hd1.gives.trans hd2.gives, hmarked⟩

end Compile

/-- What is left to hand over, and what was handed over. -/
structure Delivery (ε : Type) where
  rest : List ItemId
  state : Compilation ε

namespace Delivery
variable [Encoder ε]

/-- The next item is handed over, or the function that it opens. -/
inductive Advances : Delivery ε → Delivery ε → Prop
  | item {c c' : Compilation ε} {x : ItemId} {rest : List ItemId} (ho : opens? c.session x = none)
    (h : emitItem x c = .ok () c') : Advances ⟨x :: rest, c⟩ ⟨rest, c'⟩
  | function {c c' : Compilation ε} {x : ItemId} {rest : List ItemId} {f : FunctionId} {last : ItemId}
    (ho : opens? c.session x = some f) (h : compileFunction f c = .ok last c') :
    Advances ⟨x :: rest, c⟩ ⟨(c'.session.items.suffixFrom last).tail, c'⟩

theorem Advances.rightUnique : Relator.RightUnique (Advances : Delivery ε → Delivery ε → Prop) := by
  intro m m1 m2 h1 h2
  cases h1 with
  | item ho he =>
    cases h2 with
    | item _ he' =>
      cases he ▸ he'
      rfl
    | function ho' _ => cases ho ▸ ho'
  | function ho hcomp =>
    cases h2 with
    | item ho' _ => cases ho' ▸ ho
    | function ho' hcomp' =>
      cases ho ▸ ho'
      cases hcomp ▸ hcomp'
      rfl

end Delivery

namespace Compile
open Build (bind_ok pure_ok get_ok throw_ok when_ok)
open Relation
variable [Encoder ε] {c : Compilation ε}

theorem emitUntilFunction_advances {next : Option FunctionId}
    (h : emitUntilFunction items c = .ok next c') : ∃ rest, ReflTransGen Delivery.Advances ⟨items, c⟩ ⟨rest, c'⟩ ∧
      (next = none ∧ rest = [] ∨ ∃ f x tail, next = some f ∧ rest = x :: tail ∧ opens? c'.session x = some f) := by
  induction items generalizing c with
  | nil =>
    cases h
    exact ⟨[], .refl, .inl ⟨rfl, rfl⟩⟩
  | cons x items ih =>
    simp only [emitUntilFunction, bind_ok] at h
    obtain ⟨_, _, ⟨⟩, h⟩ := h
    cases ho : opens? c.session x with
    | some f =>
      rw [ho] at h
      cases h
      exact ⟨x :: items, .refl, .inr ⟨f, x, items, rfl, rfl, ho⟩⟩
    | none =>
      simp only [ho, bind_ok] at h
      obtain ⟨_, d, hd, h⟩ := h
      obtain ⟨rest, hrun, hnext⟩ := ih h
      exact ⟨rest, .head (.item ho hd) hrun, hnext⟩

theorem serializeFrom_advances
    (h : serializeFrom rounds items c = .ok u c') : ReflTransGen Delivery.Advances ⟨items, c⟩ ⟨[], c'⟩ := by
  induction rounds generalizing items c with
  | zero =>
    unfold serializeFrom at h
    obtain ⟨next, d, hd, h⟩ := bind_ok.mp h
    obtain ⟨rest, hrun, ⟨rfl, rfl⟩ | ⟨f, x, tail, rfl, rfl, ho⟩⟩ := emitUntilFunction_advances hd
    · cases h
      exact hrun
    · exact (throw_ok.mp h).elim
  | succ rounds ih =>
    unfold serializeFrom at h
    obtain ⟨next, d, hd, h⟩ := bind_ok.mp h
    obtain ⟨rest, hrun, ⟨rfl, rfl⟩ | ⟨f, x, tail, rfl, rfl, ho⟩⟩ := emitUntilFunction_advances hd
    · cases h
      exact hrun
    simp only [bind_ok] at h
    obtain ⟨last, d', hd', _, _, ⟨⟩, h⟩ := h
    exact hrun.trans (.head (.function ho hd') (ih h))

/-- Handing over the program `s` comes to this stage. -/
def Reaches (s : Session) (m : Delivery ε) : Prop :=
  ∃ d, defineLabels 0 s.labelCount ⟨s, fresh⟩ = .ok () d ∧ ReflTransGen Delivery.Advances ⟨s.items.order, d⟩ m

theorem serialize_reaches (h : serialize ⟨s, fresh⟩ = .ok u c) : Reaches s ⟨[], c⟩ := by
  simp only [serialize, bind_ok] at h
  obtain ⟨_, _, ⟨⟩, h⟩ := h
  obtain ⟨d0, h0, h⟩ := when_ok.mp h
  split at h0
  · exact (throw_ok.mp h0).elim
  cases h0
  obtain ⟨_, d, hd, h⟩ := bind_ok.mp h
  exact ⟨d, hd, serializeFrom_advances h⟩

theorem Reaches.leads (h : Reaches s m) (he : Reaches s ⟨[], c⟩) : ReflTransGen Delivery.Advances m ⟨[], c⟩ := by
  obtain ⟨d, hd, hm⟩ := h
  obtain ⟨d', hd', hend⟩ := he
  cases hd ▸ hd'
  rcases ReflTransGen.total_of_right_unique Delivery.Advances.rightUnique hm hend with h | h
  · exact h
  rcases h.cases_head with rfl | ⟨_, ha, -⟩
  · exact .refl
  · cases ha

end Compile

end Codegen
