import Codegen.Proofs.Editing
import Codegen.Proofs.Moments

/-! The shape of a program: which items bind labels, open and close functions, and return from them. Lowering a
function, whatever it does to the items, retains it. -/
namespace Codegen
open List ItemSeq

/-- What an item is to the shape of a program. -/
inductive Role where
  | binds (l : LabelId)
  | opens (f : FunctionId)
  | closes (f : FunctionId)
  | returns (f : FunctionId)
  | inner
  deriving DecidableEq

/-- Items that are not taken out together with unreachable code in front of them. -/
def Role.stays : Role → Bool
  | binds _ => true
  | closes _ => true
  | _ => false

namespace ItemKind

def role : ItemKind → Role
  | target t => .binds t.label
  | function f => .opens f
  | functionEnd f => .closes f
  | ret r => .returns r.function
  | _ => .inner

theorem PreparedAs.role_eq {k k' : ItemKind} (h : k.PreparedAs k') : k'.role = k.role := by
  cases k with
  | instruction i =>
    obtain ⟨_, _, -, rfl⟩ := h
    rfl
  | jump j =>
    obtain ⟨_, rfl⟩ := h
    rfl
  | _ =>
    cases h
    rfl

theorem isTarget_iff {k : ItemKind} : k.isTarget = true ↔ ∃ l, k.role = .binds l := by
  cases k <;> simp [isTarget, role]

end ItemKind

/-- The items behind `stop` up to `e` are new. -/
def ItemSeq.Trails (n : Nat) (stop e : ItemId) (l : List ItemId) : Prop :=
  ∃ A B C, l = A ++ stop :: (B ++ C) ∧ (stop :: B).getLast? = some e ∧ ∀ x ∈ B, n ≤ x.index

namespace ItemSeq.Trails
variable {stop : ItemId}

theorem splice (h : Trails n stop e (P ++ Q)) (hN : ∀ x ∈ N, n ≤ x.index) : Trails n stop e (P ++ N ++ Q) := by
  obtain ⟨A, B, C, ho, he, hB⟩ := h
  rcases append_eq_append_iff.mp ho with ⟨A', rfl, rfl⟩ | ⟨P', rfl, hP⟩
  · exact ⟨P ++ N ++ A', B, C, by simp, he, hB⟩
  rcases P' with _ | ⟨y, P'⟩
  · obtain rfl : Q = _ := hP.symm
    exact ⟨A ++ N, B, C, by simp, he, hB⟩
  obtain ⟨rfl, hPQ⟩ := cons.inj hP
  rcases append_eq_append_iff.mp hPQ with ⟨C', rfl, rfl⟩ | ⟨B', rfl, rfl⟩
  · exact ⟨A, B, C' ++ N ++ Q, by simp, he, hB⟩
  rcases B' with _ | ⟨z, B'⟩
  · exact ⟨A, P', N ++ C, by simp, by simpa using he, by simpa using hB⟩
  refine ⟨A, P' ++ N ++ z :: B', C, by simp, ?_, ?_⟩
  · simpa [getLast?_cons, getLast?_append] using he
  simp only [mem_append] at hB ⊢
  rintro x ((hx | hx) | hx)
  · exact hB x (.inl hx)
  · exact hN x hx
  · exact hB x (.inr hx)

theorem cut (h : Trails n stop e (X ++ x :: R ++ Y)) (hx : x.index < n) (hstop : stop ∉ x :: R) :
    Trails n stop e (X ++ Y) := by
  obtain ⟨A, B, C, ho, he, hB⟩ := h
  rw [append_assoc] at ho
  rcases append_eq_append_iff.mp ho with ⟨A', rfl, hR⟩ | ⟨X', rfl, hX⟩
  · rcases append_eq_append_iff.mp hR with ⟨A₂, rfl, rfl⟩ | ⟨R', hR', hY⟩
    · exact ⟨X ++ A₂, B, C, by simp, he, hB⟩
    rcases R' with _ | ⟨y, R'⟩
    · obtain rfl : Y = _ := hY.symm
      exact ⟨X, B, C, rfl, he, hB⟩
    · obtain ⟨rfl, -⟩ := cons.inj hY
      exact absurd (by simp [hR'] : stop ∈ x :: R) hstop
  · rcases X' with _ | ⟨y, X'⟩
    · obtain ⟨rfl, -⟩ := cons.inj hX
      exact absurd mem_cons_self hstop
    obtain ⟨rfl, hX'⟩ := cons.inj hX
    rcases append_eq_append_iff.mp hX' with ⟨C', rfl, rfl⟩ | ⟨B', rfl, hB'⟩
    · exact ⟨A, B, C' ++ Y, by simp, he, hB⟩
    rcases B' with _ | ⟨z, B'⟩
    · exact ⟨A, X', Y, by simp, by simpa using he, by simpa using hB⟩
    obtain ⟨rfl, -⟩ := cons.inj hB'
    have := hB x (by simp)
    omega

theorem block (h : Trails n stop e (X ++ e :: Y)) (hn : (X ++ e :: Y).Nodup) (hN : ∀ x ∈ N, n ≤ x.index)
    (he' : N.getLast? = some e') : Trails n stop e' (X ++ e :: (N ++ Y)) := by
  obtain ⟨A, B, C, ho, he, hB⟩ := h
  obtain ⟨B', hB'⟩ : ∃ B', stop :: B = B' ++ [e] := getLast?_eq_some_iff.mp he
  have hsplit : X ++ e :: Y = (A ++ B') ++ e :: C := by
    rw [ho, ← cons_append, hB']
    simp
  obtain ⟨rfl, rfl⟩ := split_unique hn hsplit
  refine ⟨A, B ++ N, Y, ?_, ?_, ?_⟩
  · calc A ++ B' ++ e :: (N ++ Y) = A ++ ((B' ++ [e]) ++ (N ++ Y)) := by simp
      _ = A ++ stop :: (B ++ N ++ Y) := by rw [← hB']; simp
  · rw [← cons_append, getLast?_append, he']
    rfl
  · exact fun x hx => (mem_append.mp hx).elim (hB x) (hN x)

end ItemSeq.Trails

/-- A function without what compiling it adds. -/
def FunctionRecord.bare (r : FunctionRecord) : FunctionRecord := { r with frame := none }

namespace Session
variable {s s' : Session} {id : ItemId} {gone gone' : ItemId → Prop} {stop : ItemId}

/-- What the item is to the shape of the program. -/
def roleAt (s : Session) (x : ItemId) : Role := ((s.items.get? x).map fun item => item.kind.role).getD .inner

theorem roleAt_of_get? {item : Item} (h : s.items.get? x = some item) : s.roleAt x = item.kind.role := by
  rw [roleAt, h]
  rfl

theorem roleAt_of_size_le (h : s.items.size ≤ x.index) : s.roleAt x = .inner := by
  cases hi : s.items.get? x with
  | none => simp [roleAt, hi]
  | some item => exact absurd (lt_size_of_get? hi) (not_lt.mpr h)

theorem lt_size_of_roleAt (h : s.roleAt x ≠ .inner) : x.index < s.items.size := by
  by_contra hx
  exact h (roleAt_of_size_le (not_lt.mp hx))

theorem lt_size_of_binds (h : s.roleAt x = .binds l) : x.index < s.items.size := lt_size_of_roleAt (by simp [h])

/-- Each label is bound by its own target and by no other item. -/
structure Labelled (s : Session) : Prop extends s.items.Linear where
  targets : ∀ {l x}, s.labels[LabelId.index l]? = some x ↔ s.roleAt x = .binds l

/-- The blocks behind the function, which ends with `stop`, are new code. -/
structure Blocks (n : Nat) (stop : ItemId) (s : Session) : Prop extends s.items.Linear where
  closes : ∃ f, s.roleAt stop = .closes f
  size : n ≤ s.items.size
  targets : ∀ {x item}, n ≤ x.index → s.items.get? x = some item → item.kind.isTarget = true → item.translated = true
  trails : ∃ e, s.ctx.extraBlock = some e ∧ Trails n stop e s.items.order

/-- A step that retains the shape of the program. Of the items that stay, only those that are `gone` are taken out. -/
structure Retains (gone : ItemId → Prop) (s s' : Session) : Prop where
  functions : s'.functions.map FunctionRecord.bare = s.functions.map FunctionRecord.bare
  size : s.items.size ≤ s'.items.size
  kept : ∀ {x}, x.index < s.items.size → s'.roleAt x = s.roleAt x
  fresh : ∀ {x}, s.items.size ≤ x.index → s'.roleAt x = .inner ∨ ∃ l, s'.roleAt x = .binds l
  labelled : s.Labelled → s'.Labelled
  edits : s.items.Linear → s.items.Edits (fun x => (s.roleAt x).stays = true → gone x) s'.items

/-- A step in the lowering of a function, which also leaves the blocks behind it in their place. -/
structure Lays (gone : ItemId → Prop) (s s' : Session) : Prop extends s.Retains gone s' where
  blocks : ∀ {n stop}, s.Blocks n stop → s'.Blocks n stop

namespace Retains

theorem item {i : Item} (h : s.Retains gone s') (hi : s.items.get? x = some i) : s'.roleAt x = i.kind.role :=
  (h.kept (lt_size_of_get? hi)).trans (roleAt_of_get? hi)

theorem binds (h : s.Retains gone s') (hb : s.roleAt x = .binds l) : s'.roleAt x = .binds l :=
  (h.kept (lt_size_of_binds hb)).trans hb

theorem label (h : s.Retains gone s') (hs : s.Labelled) (hl : s.labels[LabelId.index l]? = some x) :
    s'.labels[l.index]? = some x :=
  (h.labelled hs).targets.mpr (h.binds (hs.targets.mp hl))

theorem refl (s : Session) : s.Retains gone s :=
  ⟨rfl, le_refl _, fun _ => rfl, fun hx => .inl (roleAt_of_size_le hx), id, .refl⟩

theorem trans (h : s.Retains gone t) (h' : t.Retains gone u) : s.Retains gone u where
  functions := h'.functions.trans h.functions
  size := h.size.trans h'.size
  kept hx := (h'.kept (hx.trans_le h.size)).trans (h.kept hx)
  fresh {x} hx := by
    by_cases ht : x.index < t.items.size
    · rw [h'.kept ht]
      exact h.fresh hx
    · exact h'.fresh (not_lt.mp ht)
  labelled hs := h'.labelled (h.labelled hs)
  edits hs := by
    refine (h.edits hs).trans (h'.edits (h.edits hs).linear) fun x hx hg hs' => hg ?_
    rwa [h.kept (hs.made x hx)]

theorem quiet (hi : s'.items = s.items) (hf : s'.functions.map FunctionRecord.bare = s.functions.map FunctionRecord.bare)
    (hl : s'.labels = s.labels) : s.Retains gone s' := by
  have hroles : s'.roleAt = s.roleAt := by
    funext x
    rw [roleAt, roleAt, hi]
  refine ⟨hf, by rw [hi], fun _ => by rw [hroles], fun hx => ?_, fun hs => ⟨hi ▸ hs.toLinear, ?_⟩,
    fun hs => .of_order hs (by rw [hi]) (by rw [hi])⟩
  · rw [hroles]
    exact .inl (roleAt_of_size_le hx)
  · rw [hroles, hl]
    exact hs.targets

theorem mono (h : s.Retains gone t) (hg : ∀ x, gone x → gone' x) : s.Retains gone' t :=
  { h with edits := fun hs => (h.edits hs).mono fun x _ hx hr => hg x (hx hr) }

end Retains

/-- The item is a target, and nothing is known to lead there. -/
def Doomed (s : Session) (x : ItemId) : Prop :=
  s.ctx.unreachable = true ∧ s.stateAt x = none ∧ ∃ l, s.roleAt x = .binds l

namespace Lays

theorem refl (s : Session) : s.Lays gone s := ⟨.refl s, id⟩

theorem trans (h : s.Lays gone t) (h' : t.Lays gone u) : s.Lays gone u :=
  ⟨h.toRetains.trans h'.toRetains, fun hb => h'.blocks (h.blocks hb)⟩

theorem mono (h : s.Lays gone t) (hg : ∀ x, gone x → gone' x) : s.Lays gone' t := ⟨h.toRetains.mono hg, h.blocks⟩

section
variable (hf : s'.functions = s.functions) (hl : s'.labels = s.labels) (he : s'.ctx.extraBlock = s.ctx.extraBlock)
include hf hl he

/-- A change that puts code in at one place, or nothing, and leaves the roles of all items. -/
theorem of_items (hsize : s.items.size ≤ s'.items.size)
    (hkept : ∀ {x}, x.index < s.items.size → s'.roleAt x = s.roleAt x)
    (hnew : ∀ {x}, s.items.size ≤ x.index → s'.roleAt x = .inner)
    (htr : ∀ {x item item'}, s.items.get? x = some item → s'.items.get? x = some item' →
      item.translated = true → item'.translated = true)
    (hsplice : s.items.Linear → ∃ P N Q, s.items.Spliced s'.items P N Q) : s.Lays gone s' := by
  have hroles : ∀ x, s'.roleAt x = s.roleAt x := fun x => by
    by_cases hx : x.index < s.items.size
    · exact hkept hx
    · rw [hnew (not_lt.mp hx), roleAt_of_size_le (not_lt.mp hx)]
  have hlinear : s.items.Linear → s'.items.Linear := fun hs => by
    obtain ⟨P, N, Q, hs'⟩ := hsplice hs
    exact hs.splice hs'
  refine ⟨⟨by rw [hf], hsize, hkept, fun hx => .inl (hnew hx), fun hs => ⟨hlinear hs.toLinear, fun {l x} => ?_⟩,
    fun hs => ?_⟩, fun {n stop} hb => ?_⟩
  · rw [hl, hroles]
    exact hs.targets
  · obtain ⟨P, N, Q, hs'⟩ := hsplice hs
    exact .splice hs hs'
  refine ⟨hlinear hb.toLinear, ?_, hb.size.trans hsize, fun {x item} hx hi hk => ?_, ?_⟩
  · rw [hroles]
    exact hb.closes
  · obtain ⟨l, hrole⟩ := ItemKind.isTarget_iff.mp hk
    have hrole' : s.roleAt x = .binds l := by rw [← hroles, roleAt_of_get? hi, hrole]
    obtain ⟨item0, hi0⟩ := get?_of_lt_size (lt_size_of_binds hrole')
    have hk0 : item0.kind.isTarget = true := ItemKind.isTarget_iff.mpr ⟨l, by rw [← roleAt_of_get? hi0, hrole']⟩
    exact htr hi0 hi (hb.targets hx hi0 hk0)
  obtain ⟨e, hee, ht⟩ := hb.trails
  obtain ⟨P, N, Q, ho, ho', hfresh, -⟩ := hsplice hb.toLinear
  refine ⟨e, he.trans hee, ?_⟩
  rw [ho] at ht
  rw [ho']
  exact ht.splice fun x hx => hb.size.trans (hfresh x hx).1

theorem of_order (hsize : s'.items.size = s.items.size) (ho : s'.items.order = s.items.order)
    (hitems : ∀ {x item}, s.items.get? x = some item → ∃ item', s'.items.get? x = some item' ∧
      item'.kind.role = item.kind.role ∧ (item.translated = true → item'.translated = true)) : s.Lays gone s' := by
  refine of_items hf hl he (le_of_eq hsize.symm) (fun hx => ?_) (fun hx => ?_) (fun hi hi' htr => ?_) fun _ =>
    ⟨[], [], s.items.order, rfl, by simp [ho], by simp, le_of_eq hsize.symm⟩
  · obtain ⟨item, hi⟩ := get?_of_lt_size hx
    obtain ⟨item', hi', hr, -⟩ := hitems hi
    rw [roleAt_of_get? hi, roleAt_of_get? hi', hr]
  · exact roleAt_of_size_le (hsize ▸ hx)
  · obtain ⟨item2, hi2, -, ht2⟩ := hitems hi
    cases hi' ▸ hi2
    exact ht2 htr

end

theorem quiet (hi : s'.items = s.items) (hf : s'.functions = s.functions) (hl : s'.labels = s.labels)
    (he : s'.ctx.extraBlock = s.ctx.extraBlock) : s.Lays gone s' :=
  of_order hf hl he (by rw [hi]) (by rw [hi]) fun h => ⟨_, hi ▸ h, rfl, id⟩

theorem atCursor (s : Session) (cursor : Option ItemId) : s.Lays gone (s.atCursor cursor) :=
  of_order rfl rfl rfl rfl rfl fun h => ⟨_, h, rfl, id⟩

theorem modify (hg : ∀ item, s.items.get? id = some item →
    (g item).kind.role = item.kind.role ∧ (item.translated = true → (g item).translated = true)) :
    s.Lays gone { s with items := s.items.modify id g } := by
  refine of_order rfl rfl rfl (by simp [ItemSeq.modify, size]) rfl fun {x item} hi => ?_
  by_cases hx : x = id
  · subst hx
    have hi' : (s.items.modify x g).get? x = some (g item) := by rw [get?_modify_self, hi]; rfl
    exact ⟨_, hi', hg item hi⟩
  · exact ⟨item, (get?_modify_of_ne _ (Ne.symm hx) g).trans hi, rfl, fun h => h⟩

theorem withKind {kind : ItemKind} (h : kind.role = s.roleAt id) : s.Lays gone (s.withKind id kind) :=
  modify fun _ hi => ⟨h.trans (roleAt_of_get? hi), fun h => h⟩

theorem generateAll (hf : s'.functions = s.functions) (hl : s'.labels = s.labels)
    (he : s'.ctx.extraBlock = s.ctx.extraBlock) (hi : s'.items = s.items.generateAll s.mark code) : s.Lays gone s' := by
  refine of_items hf hl he (by rw [hi, size_generateAll]; omega) (fun hx => ?_) (fun {x} hx => ?_)
    (fun {x item item'} hx hx' => ?_) fun hs => ?_
  · rw [roleAt, roleAt, hi, get?_generateAll_of_lt _ _ hx]
  · cases hg : s'.items.get? x with
    | none => simp [roleAt, hg]
    | some item =>
      obtain ⟨-, i, -, hk⟩ := get?_generateAll_new hx (hi ▸ hg)
      rw [roleAt_of_get? hg, hk]
      rfl
  · rw [hi, get?_generateAll_of_lt _ _ (lt_size_of_get? hx), hx] at hx'
    cases hx'
    exact id
  · exact hi ▸ hs.generateAll_splice s.mark code

theorem of_gains (h : s.Gains P s') : s.Lays gone s' := by
  obtain ⟨code, -, hi⟩ := h.code
  exact generateAll (congrArg functions h.rest :) (congrArg labels h.rest :) (congrArg Context.extraBlock h.ctx :) hi

theorem of_extends (h : s.Extends D s') : s.Lays gone s' := of_gains h.toGains

end Lays

theorem roleAt_closeBlock (s : Session) (l : LabelId) (extra x : ItemId) :
    (s.closeBlock l extra).roleAt x = if x = ⟨s.items.size + 1⟩ then .binds ⟨s.labelCount⟩ else s.roleAt x := by
  by_cases hx : x.index < s.items.size
  · have hne : x ≠ ⟨s.items.size + 1⟩ := fun e => by
      rw [e] at hx
      simp only at hx
      omega
    rw [if_neg hne, roleAt, roleAt, closeBlock, get?_closeBlock_of_lt hx]
  split
  · rename_i e
    subst e
    have hi : (s.closeBlock l extra).items.get? ⟨s.items.size + 1⟩ = _ := get?_closeBlock_label
    rw [roleAt_of_get? hi]
    rfl
  rename_i hne
  rw [roleAt_of_size_le (not_lt.mp hx)]
  by_cases hsize : x.index = s.items.size
  · obtain rfl : x = ⟨s.items.size⟩ := congrArg ItemId.mk hsize
    obtain ⟨item, hi, hk⟩ := Option.map_eq_some_iff.mp (get?_closeBlock_jump)
    exact (roleAt_of_get? hi).trans (by rw [hk]; rfl)
  · have hne' : x.index ≠ s.items.size + 1 := fun e => hne (congrArg ItemId.mk e)
    have : (s.closeBlock l extra).items.size = s.items.size + 2 := size_closeBlock
    exact roleAt_of_size_le (by omega)

theorem Retains.closeBlock (s : Session) (l : LabelId) (extra : ItemId) : s.Retains gone (s.closeBlock l extra) := by
  have hsize : (s.closeBlock l extra).items.size = s.items.size + 2 := size_closeBlock
  refine ⟨rfl, by omega, fun {x} hx => ?_, fun {x} hx => ?_, fun hs => ⟨hs.toLinear.closeBlock, fun {k x} => ?_⟩,
    fun hs => .closeBlock hs⟩
  · rw [roleAt_closeBlock, if_neg]
    rintro rfl
    simp only at hx
    omega
  · rw [roleAt_closeBlock, roleAt_of_size_le hx]
    split
    · exact .inr ⟨_, rfl⟩
    · exact .inl rfl
  have hfree : s.roleAt x ≠ .binds ⟨s.labelCount⟩ := fun h => by
    have := hs.targets.mpr h
    simp [labelCount] at this
  have hlast : s.labels[k.index]? ≠ some ⟨s.items.size + 1⟩ := fun h => by
    have := roleAt_of_size_le (s := s) (Nat.le_succ _)
    rw [hs.targets.mp h] at this
    cases this
  rw [roleAt_closeBlock, Session.closeBlock, Array.getElem?_push]
  by_cases hk : k.index = s.labels.size
  · obtain rfl : k = ⟨s.labelCount⟩ := congrArg LabelId.mk hk
    by_cases hx : x = ⟨s.items.size + 1⟩
    · simp [hx, labelCount]
    · simpa [hx, Ne.symm hx, labelCount] using hfree
  · have hk' : (⟨s.labelCount⟩ : LabelId) ≠ k := fun e => hk (by rw [← e]; rfl)
    by_cases hx : x = ⟨s.items.size + 1⟩
    · simp [hx, hk, hk', hlast]
    · simp [hx, hk, hs.targets]

theorem order_closed (hl : s.items.Linear)
    (ho : s.items.order = X ++ extra :: Y) (hv : (s.atCursor (some extra)).Extends D v) (l : LabelId) :
    ∃ M N, v.items.order = X ++ extra :: (M ++ Y) ∧ (∀ x ∈ ⟨v.items.size + 1⟩ :: N, s.items.size ≤ x.index) ∧
      (⟨v.items.size + 1⟩ :: N).getLast? = some ⟨v.items.size⟩ ∧
      (v.closeBlock l extra).items.order = X ++ extra :: (⟨v.items.size + 1⟩ :: N ++ Y) := by
  obtain ⟨code, -, hcode⟩ := hv.code
  have hcode : v.items = (s.items.setCursor (some extra)).generateAll v.mark code := hcode.trans (by rw [hv.mark_eq]; rfl)
  have hsize : v.items.size = s.items.size + code.length := by
    rw [hcode, size_generateAll]
    rfl
  have hcut : (s.items.setCursor (some extra)).Cut (X ++ [extra]) Y :=
    ⟨ho.trans (by simp), by simp [setCursor], by simpa [ho] using hl.nodup,
      fun x hx => hl.made x (by simpa [ho] using hx)⟩
  refine ⟨s.items.newIds code.length, s.items.newIds (code.length + 1), ?_, forall_mem_cons.mpr ⟨?_, fun x hx =>
    (mem_newIds.mp hx).1⟩, ?_, ?_⟩
  · rw [hcode, (hcut.generateAll v.mark code).order]
    simp [newIds, setCursor, size]
  · simp only
    omega
  · have hlast : s.items.newIds (code.length + 1) = s.items.newIds code.length ++ [⟨v.items.size⟩] := by
      simp [newIds, hsize, range'_concat]
    rw [hlast, ← cons_append, getLast?_concat]
  · rw [hsize, closeBlock, hcode]
    exact order_closeBlock ho rfl hl.nodup hl.made

namespace Lays

/-- The code of a block goes behind `extra`, the block is closed, and a jump is sent there. -/
theorem detour (hlt : id.index < s.items.size)
    (hrole : s.roleAt id = .inner) (he : s.ctx.extraBlock = some extra)
    (hv : (s.atCursor (some extra)).Extends D v) : s.Lays gone (v.detour id j extra) := by
  have hin : s.Lays gone v := (atCursor s _).trans (of_extends hv)
  unfold Session.detour
  split
  · exact hin
  have hclose : s.Retains gone (v.closeBlock j.target extra) := hin.toRetains.trans (.closeBlock v _ _)
  have hkind : (v.closeBlock j.target extra).Lays gone
      ((v.closeBlock j.target extra).withKind id (.jump { j with target := ⟨v.labelCount⟩ })) :=
    withKind ((hclose.kept hlt).trans hrole).symm
  refine ⟨hclose.trans hkind.toRetains, fun {n stop} hb => hkind.blocks ?_⟩
  obtain ⟨e, hee, ht⟩ := hb.trails
  cases he ▸ hee
  obtain ⟨X, Y, hXY⟩ : ∃ X Y, s.items.order = X ++ extra :: Y := by
    obtain ⟨A, B, C, ho, hlast, -⟩ := ht
    obtain ⟨B', hB'⟩ := getLast?_eq_some_iff.mp hlast
    exact ⟨A ++ B', C, by rw [ho, ← cons_append, hB']; simp⟩
  obtain ⟨-, N, -, hN, hlast, hord⟩ := order_closed hb.toLinear hXY hv j.target
  have hvb := hin.blocks hb
  have hsize : (v.closeBlock j.target extra).items.size = v.items.size + 2 := size_closeBlock
  refine ⟨hvb.toLinear.closeBlock, ?_, ?_, ?_, ⟨⟨v.items.size⟩, rfl, ?_⟩⟩
  · obtain ⟨f, hf⟩ := hb.closes
    refine ⟨f, (hclose.kept (lt_size_of_roleAt ?_)).trans hf⟩
    rw [hf]
    simp
  · exact hb.size.trans (hin.size.trans (by omega))
  · intro x item hx hi hk
    by_cases hlt : x.index < v.items.size
    · have hi' : v.items.get? x = some item := get?_closeBlock_of_lt hlt ▸ hi
      exact hvb.targets hx hi' hk
    rcases get?_closeBlock_new (not_lt.mp hlt) hi with rfl | ⟨-, hi'⟩
    · rfl
    · rw [hi'] at hk
      cases hk
  · rw [hord]
    rw [hXY] at ht
    exact ht.block (hXY ▸ hb.nodup) (fun x hx => hb.size.trans (hN x hx)) hlast

end Lays

theorem roleAt_dropping (s : Session) (x y : ItemId) : (s.dropping x).roleAt y = s.roleAt y := by
  simp only [roleAt, dropping]
  by_cases hy : y = x
  · subst hy
    rw [get?_modify_self]
    cases hi : s.items.get? y <;> simp [get?] at hi ⊢ <;> simp [hi]
  · rw [get?_modify_of_ne _ (Ne.symm hy)]
    rfl

theorem Retains.dropping (h : (s.roleAt id).stays = true → gone id) : s.Retains gone (s.dropping id) where
  functions := rfl
  size := by simp [Session.dropping, ItemSeq.modify, ItemSeq.size]
  kept _ := roleAt_dropping s id _
  fresh hx := .inl ((roleAt_dropping s id _).trans (roleAt_of_size_le hx))
  labelled hs := by
    refine ⟨hs.toLinear.erase order_dropping_erase (by simp [Session.dropping, ItemSeq.modify, ItemSeq.size]), ?_⟩
    intro l x
    rw [roleAt_dropping]
    exact hs.targets
  edits hs := .erase hs order_dropping_erase (by simp [Session.dropping, ItemSeq.modify, ItemSeq.size]) h

instance : IsPreorder Session (Lays gone) where
  refl := .refl
  trans _ _ _ := .trans

end Session

end Codegen
