import Codegen.Proofs.LiveRange

/-! Lives along control flow. A value that control carries from a write to a read stays within the life
of its variable unless control jumps in front of that life, or the read is one that is overlooked. -/
namespace Codegen
open List Option Operand Builder
variable {args : List VarId} {s : Session}

/-- The variable whose value an access to the operand is about. -/
def Operand.cell? : Operand → Option VarId
  | .var v => some v.id
  | .mem m => m.homeVar
  | _ => none

namespace ItemKind

/-- The variables that an item writes. The opening item writes the arguments. -/
def written (args : List VarId) : ItemKind → List VarId
  | instruction i => i.operands.zipIdx.filterMap fun (o, k) =>
      if (i.opcode.constraint k i.operands.length).access.writes then o.cell? else none
  | function _ => args
  | call c => c.returns
  | _ => []

/-- The variables that an item reads. -/
def read : ItemKind → List VarId
  | instruction i => i.operands.zipIdx.flatMap fun (o, k) =>
      (match o with
        | .mem m => m.addressVars
        | _ => []) ++
      if !Build.isZeroing i && (i.opcode.constraint k i.operands.length).access.reads then o.cell?.toList
      else []
  | ret r => r.operands.flatMap Operand.vars
  | call c => (c.args ++ [c.target]).flatMap Operand.vars
  | _ => []

theorem cell?_mem_vars {o : Operand} (h : o.cell? = some v) : v ∈ o.vars := by
  cases o with
  | var x | mem m => simp_all [cell?, Operand.vars]
  | reg | imm | label => cases h

theorem touched_of_written {kind : ItemKind} (h : v ∈ kind.written args) : v ∈ kind.touched args := by
  cases kind with
  | instruction i =>
    obtain ⟨⟨o, k⟩, ho, hv⟩ := mem_filterMap.mp h
    have hm : o ∈ i.operands := mem_of_getElem? (mem_zipIdx_iff_getElem?.mp ho)
    obtain ⟨-, hv⟩ := ite_none_right_eq_some.mp hv
    exact mem_flatMap.mpr ⟨o, hm, cell?_mem_vars hv⟩
  | function => exact h
  | call => exact mem_append_right _ h
  | _ => cases h

/-- The variables that an item reads without counting as an item of their lives. -/
def overlooked (args : List VarId) (kind : ItemKind) : List VarId :=
  kind.read.filter fun v => v ∉ kind.touched args

/-- Does control pass on to the next item? -/
def fallsThrough : ItemKind → Bool
  | jump j => j.opcode != .jmp
  | ret _ | functionEnd _ => false
  | _ => true

end ItemKind

/-- A step of the control flow. -/
inductive Transfer where
  | fall (src dst : ItemId)
  | jump (src dst : ItemId)
  deriving DecidableEq

namespace Transfer

def src : Transfer → ItemId
  | fall src _ | jump src _ => src

def dst : Transfer → ItemId
  | fall _ dst | jump _ dst => dst

def isJump : Transfer → Bool
  | jump .. => true
  | fall .. => false

/-- Control can take the step within the items `L`. -/
def Allowed (s : Session) (L : List ItemId) : Transfer → Prop
  | fall x y => [x, y] <:+: L ∧ ∃ item ∈ s.items.get? x, item.kind.fallsThrough = true
  | jump x y => x ∈ L ∧ y ∈ L ∧ s.JumpsTo x y

instance (s : Session) (L : List ItemId) (e : Transfer) : Decidable (e.Allowed s L) := by
  cases e <;> exact inferInstanceAs (Decidable (_ ∧ _))

variable {e : Transfer}

theorem Allowed.mem (h : e.Allowed s L) : e.src ∈ L ∧ e.dst ∈ L := by
  cases e with
  | fall x y => exact ⟨h.1.subset (by simp [src]), h.1.subset (by simp [dst])⟩
  | jump x y => exact ⟨h.1, h.2.1⟩

theorem Allowed.idxOf_fall (h : (fall x y).Allowed s L) (hn : L.Nodup) : L.idxOf y = L.idxOf x + 1 := by
  obtain ⟨⟨A, C, rfl⟩, -⟩ := h
  simp only [append_assoc, cons_append, nil_append] at hn ⊢
  obtain ⟨-, hxy, hA⟩ := nodup_append.mp hn
  have hx : x ∉ A := fun hm => hA _ hm _ (by simp) rfl
  have hy : y ∉ A := fun hm => hA _ hm _ (by simp) rfl
  have hne : x ≠ y := fun e => (nodup_cons.mp hxy).1 (by simp [e])
  rw [idxOf_append_of_notMem hx, idxOf_append_of_notMem hy]
  simp [hne]

end Transfer

namespace Session

/-- Control can go from one item to another by some steps within the items `L`. -/
def Flow (s : Session) (L : List ItemId) : ItemId → ItemId → List Transfer → Prop
  | a, b, [] => a ∈ L ∧ a = b
  | a, b, e :: es => e.Allowed s L ∧ e.src = a ∧ s.Flow L e.dst b es

instance Flow.decidable (s : Session) (L : List ItemId) :
    (a b : ItemId) → (es : List Transfer) → Decidable (s.Flow L a b es)
  | _, _, [] => inferInstanceAs (Decidable (_ ∧ _))
  | _, b, e :: es =>
    have := Flow.decidable s L e.dst b es
    inferInstanceAs (Decidable (_ ∧ _ ∧ _))

/-- The item does not come before the first item of the variable. -/
def NotBefore (s : Session) (x : Variable) (y : ItemId) : Prop :=
  ∃ i ∈ x.firstItem.bind s.items.offset?, ∃ k ∈ s.items.offset? y, i ≤ k

/-- The item does not come behind the last item of the variable. -/
def NotBehind (s : Session) (x : Variable) (y : ItemId) : Prop :=
  ∃ j ∈ x.lastItem.bind s.items.offset?, ∃ k ∈ s.items.offset? y, k ≤ j

instance (s : Session) (x : Variable) (y : ItemId) : Decidable (s.NotBefore x y) :=
  inferInstanceAs (Decidable (∃ i ∈ _, ∃ k ∈ _, i ≤ k))

instance (s : Session) (x : Variable) (y : ItemId) : Decidable (s.NotBehind x y) :=
  inferInstanceAs (Decidable (∃ j ∈ _, ∃ k ∈ _, k ≤ j))

section Flow
variable {first last : ItemId} {es : List Transfer}

theorem Flow.mem (h : s.Flow L a b es) : a ∈ L ∧ b ∈ L ∧ ∀ e ∈ es, e.dst ∈ L := by
  induction es generalizing a with
  | nil =>
    obtain ⟨ha, rfl⟩ := h
    exact ⟨ha, ha, by simp⟩
  | cons e es ih =>
    obtain ⟨he, rfl, h⟩ := h
    obtain ⟨hd, hb, hes⟩ := ih h
    exact ⟨he.mem.1, hb, forall_mem_cons.mpr ⟨hd, hes⟩⟩

theorem Flow.end_mem (h : s.Flow L a b es) : b ∈ a :: es.map Transfer.dst := by
  induction es generalizing a with
  | nil => exact mem_singleton.mpr h.2.symm
  | cons e es ih => exact mem_cons_of_mem _ (ih h.2.2)

theorem Flow.not_before (hw : s.Walked f args L t) (hn : L.Nodup) (h : s.Flow L a b es)
    (hj : ∀ e ∈ es, e.isJump = true → t.offset first ≤ t.offset e.dst)
    (ha : t.offset first ≤ t.offset a) : ∀ e ∈ es, t.offset first ≤ t.offset e.dst := by
  induction es generalizing a with
  | nil => simp
  | cons e es ih =>
    obtain ⟨he, rfl, h⟩ := h
    obtain ⟨hje, hj⟩ := forall_mem_cons.mp hj
    have hd : t.offset first ≤ t.offset e.dst := by
      cases e with
      | jump => exact hje rfl
      | fall x y =>
        refine Nat.le_trans ha (hw.mono x he.mem.1 y he.mem.2 ?_)
        rw [he.idxOf_fall hn]
        exact Nat.le_succ _
    exact forall_mem_cons.mpr ⟨hd, ih h hj hd⟩

section
variable (hw : s.Walked f args L t) (hn : L.Nodup) (hl : s.Life t args L v first last) (h : s.Flow L a b es)
  (hj : ∀ e ∈ es, e.isJump = true → t.offset first ≤ t.offset e.dst)
include hw hn hl h hj

theorem Flow.not_behind (hb : t.offset b ≤ t.offset last) :
    t.offset a ≤ t.offset last ∧ ∀ e ∈ es, t.offset e.dst ≤ t.offset last := by
  induction es generalizing a with
  | nil => exact ⟨h.2 ▸ hb, by simp⟩
  | cons e es ih =>
    obtain ⟨he, rfl, h⟩ := h
    obtain ⟨hje, hj⟩ := forall_mem_cons.mp hj
    obtain ⟨hd, hrest⟩ := ih h hj
    refine ⟨?_, forall_mem_cons.mpr ⟨hd, hrest⟩⟩
    obtain ⟨hsrc, hdst⟩ := he.mem
    by_cases hfwd : L.idxOf e.src ≤ L.idxOf e.dst
    · exact Nat.le_trans (hw.mono _ hsrc _ hdst hfwd) hd
    cases e with
    | fall x y => exact absurd (he.idxOf_fall hn ▸ Nat.le_succ _) hfwd
    | jump x y =>
      -- a jump back into the life comes from inside it
      exact hw.mono _ hsrc _ hl.last_mem (hl.loops x hsrc y hdst he.2.2 (Nat.le_of_not_le hfwd) (hje rfl) hd)

theorem Flow.leaves (ha : L.idxOf last < L.idxOf a) : L.idxOf last < L.idxOf b := by
  induction es generalizing a with
  | nil => exact h.2 ▸ ha
  | cons e es ih =>
    obtain ⟨he, rfl, h⟩ := h
    obtain ⟨hje, hj⟩ := forall_mem_cons.mp hj
    refine ih h hj ?_
    obtain ⟨hsrc, hdst⟩ := he.mem
    cases e with
    | fall x y => exact he.idxOf_fall hn ▸ Nat.lt_succ_of_lt ha
    | jump x y =>
      by_contra hle
      have hle : L.idxOf y ≤ L.idxOf last := Nat.le_of_not_lt hle
      have hback := Nat.le_trans hle (Nat.le_of_lt ha)
      have hout := hl.loops x hsrc y hdst he.2.2 hback (hje rfl) (hw.mono _ hdst _ hl.last_mem hle)
      exact absurd ha (Nat.not_lt_of_le hout)

theorem Flow.jumps_at_last (hb : L.idxOf b ≤ L.idxOf last) : ∀ e ∈ es, e.src = last → e.isJump = true := by
  induction es generalizing a with
  | nil => simp
  | cons e es ih =>
    obtain ⟨he, rfl, h⟩ := h
    obtain ⟨-, hrest⟩ := forall_mem_cons.mp hj
    refine forall_mem_cons.mpr ⟨fun hsrc => ?_, ih h hrest⟩
    cases e with
    | jump => rfl
    | fall x y =>
      cases hsrc
      have hlt : L.idxOf x < L.idxOf y := he.idxOf_fall hn ▸ Nat.lt_succ_self _
      exact absurd (h.leaves hw hn hl hrest hlt) (Nat.not_lt_of_le hb)

end

theorem Flow.begun (h : s.Flow L a b es) : (s.begun f record stop p).Flow L a b es := by
  induction es generalizing a with
  | nil => exact h
  | cons e es ih => exact ⟨h.1, h.2.1, ih h.2.2⟩

end Flow

/-- The item writes the variable. -/
def Writes (s : Session) (args : List VarId) (y : ItemId) (v : VarId) : Prop :=
  ∃ item ∈ s.items.get? y, v ∈ item.kind.written args

/-- The item reads the variable. -/
def Reads (s : Session) (y : ItemId) (v : VarId) : Prop :=
  ∃ item ∈ s.items.get? y, v ∈ item.kind.read

/-- The item reads the variable and does not count as an item of its life. -/
def Overlooks (s : Session) (args : List VarId) (y : ItemId) (v : VarId) : Prop :=
  ∃ item ∈ s.items.get? y, v ∈ item.kind.overlooked args

section
variable (s : Session) (args : List VarId) (y : ItemId) (v : VarId)

instance : Decidable (s.Writes args y v) := inferInstanceAs (Decidable (∃ item ∈ _, _))

instance : Decidable (s.Reads y v) := inferInstanceAs (Decidable (∃ item ∈ _, _))

instance : Decidable (s.Overlooks args y v) := inferInstanceAs (Decidable (∃ item ∈ _, _))

end

theorem Reads.touched (h : s.Reads y v) (ho : ¬ s.Overlooks args y v) : s.Touched args y v := by
  obtain ⟨item, hi, hv⟩ := h
  refine ⟨item, hi, ?_⟩
  by_contra hn
  exact ho ⟨item, hi, mem_filter.mpr ⟨hv, by simpa using hn⟩⟩

/-- Along every path from a write of a variable to a read of it, control stays within the life that the
first walk gives the variable exactly if it never jumps in front of that life and the read, should it be
one that is overlooked, does not come behind it. A path that never jumps in front of the life and ends
in a read that counts passes the last item of the life by jumping only, so that no value is given up
that the path still needs. -/
theorem path_within_life_iff {s t : Session} {f : FunctionId} {record : FunctionRecord} {stop : ItemId}
    {body : List ItemId} {p : Prototype} {v : VarId} {a b : ItemId} {es : List Transfer}
    (hs : s.Ready f record stop body) (hp : Build.prepareFunction f record stop p s = .ok () t)
    (hflow : s.Flow (record.item :: (body ++ [stop])) a b es)
    (hwrite : s.Writes record.args a v) (hread : s.Reads b v) :
    ∃ x, t.vars.get? v = some x ∧
      ((∀ y ∈ a :: es.map Transfer.dst, t.NotBefore x y ∧ t.NotBehind x y) ↔
        (∀ e ∈ es, e.isJump = true → t.NotBefore x e.dst) ∧
          (s.Overlooks record.args b v → t.NotBehind x b)) ∧
      ((∀ e ∈ es, e.isJump = true → t.NotBefore x e.dst) → ¬ s.Overlooks record.args b v →
        ∀ e ∈ es, x.lastItem = some e.src → e.isJump = true) := by
  obtain ⟨ha, hb, hdst⟩ := hflow.mem
  have hta : s.Touched record.args a v := by
    obtain ⟨item, hi, hv⟩ := hwrite
    exact ⟨item, hi, ItemKind.touched_of_written hv⟩
  obtain ⟨x, first, last, hx, hfirst, hlast, hlife⟩ := hs.life hp ha hta
  have hw := hs.walked hp
  have hn := hs.nodup_items
  have before : ∀ {y}, y ∈ record.item :: (body ++ [stop]) →
      (t.NotBefore x y ↔ t.offset first ≤ t.offset y) := by
    intro y hy
    simp [NotBefore, hfirst, hs.offset?_eq hp hy, hs.offset?_eq hp hlife.first_mem]
  have behind : ∀ {y}, y ∈ record.item :: (body ++ [stop]) →
      (t.NotBehind x y ↔ t.offset y ≤ t.offset last) := by
    intro y hy
    simp [NotBehind, hlast, hs.offset?_eq hp hy, hs.offset?_eq hp hlife.last_mem]
  have hjumps : (∀ e ∈ es, e.isJump = true → t.NotBefore x e.dst) ↔
      ∀ e ∈ es, e.isJump = true → t.offset first ≤ t.offset e.dst :=
    forall₂_congr fun e he => imp_congr_right fun _ => before (hdst e he)
  have hb_of : (s.Overlooks record.args b v → t.NotBehind x b) → t.offset b ≤ t.offset last := by
    intro ho
    by_cases hov : s.Overlooks record.args b v
    · exact (behind hb).mp (ho hov)
    · exact hw.mono _ hb _ hlife.last_mem (hlife.covers b hb (hread.touched hov)).2
  refine ⟨x, hx, ⟨fun hin => ⟨fun e he _ => ?_, fun _ => ?_⟩, fun ⟨hj, ho⟩ => ?_⟩, fun hj ho e he hl => ?_⟩
  · exact (hin e.dst (List.mem_cons_of_mem _ (List.mem_map_of_mem he))).1
  · exact (hin b hflow.end_mem).2
  · rw [hjumps] at hj
    have hfa := hw.mono _ hlife.first_mem _ ha (hlife.covers a ha hta).1
    have hlow := hflow.begun.not_before hw hn hj hfa
    obtain ⟨hla, hhigh⟩ := hflow.begun.not_behind hw hn hlife hj (hb_of ho)
    refine List.forall_mem_cons.mpr ⟨⟨(before ha).mpr hfa, (behind ha).mpr hla⟩, fun y hy => ?_⟩
    obtain ⟨e, he, rfl⟩ := List.mem_map.mp hy
    exact ⟨(before (hdst e he)).mpr (hlow e he), (behind (hdst e he)).mpr (hhigh e he)⟩
  · rw [hjumps] at hj
    rw [hlast] at hl
    exact hflow.begun.jumps_at_last hw hn hlife hj (hlife.covers b hb (hread.touched ho)).2 e he
      (Option.some.inj hl).symm

/-- Control comes in between the read and the write that follow the head of a loop. -/
def midLoop : List Call :=
  let a : VarRef := ⟨⟨0⟩, 8⟩
  let v : VarRef := ⟨⟨1⟩, 8⟩
  let w : VarRef := ⟨⟨2⟩, 8⟩
  [.newFunction [.gpq] [.gpq] {}, .newVar .gpq, .newVar .gpq, .newLabel, .newLabel,
    .jump .jmp ⟨3⟩ .none,
    .bind ⟨2⟩, .emit .add [.var a, .var v],
    .bind ⟨3⟩, .emit .mov [.var v, .imm 5], .emit .mov [.var w, .imm 6], .emit .cmp [.var a, .var w],
    .jump (.jcc .l) ⟨2⟩ .none, .ret [.var a], .endFunction]

/-- From the write of `v` around the loop to the read. -/
def aroundLoop : List Transfer :=
  [.fall ⟨7⟩ ⟨8⟩, .fall ⟨8⟩ ⟨9⟩, .fall ⟨9⟩ ⟨10⟩, .jump ⟨10⟩ ⟨3⟩, .fall ⟨3⟩ ⟨6⟩]

/-- From the opening item into the loop and around it to the read. -/
def intoLoop : List Transfer :=
  [.fall ⟨2⟩ ⟨0⟩, .fall ⟨0⟩ ⟨5⟩, .jump ⟨5⟩ ⟨4⟩, .fall ⟨4⟩ ⟨7⟩] ++ aroundLoop

/-- The argument is safe all the way. -/
theorem path_within_life_argument : ∃ s t record stop, ∃ p : Prototype, ∃ x,
    Build.prepareFunction ⟨0⟩ record stop p s = .ok () t ∧ t.vars.get? ⟨0⟩ = some x ∧
    s.Flow (s.items.range record.item stop) ⟨2⟩ ⟨6⟩ intoLoop ∧
    ∀ y ∈ ⟨2⟩ :: intoLoop.map Transfer.dst, t.NotBefore x y ∧ t.NotBehind x y := by
  obtain ⟨⟨s, record, stop, p, t⟩, hq, hd⟩ := Option.any_eq_true _ _ |>.mp
    (show (Builder.prepareFirst midLoop).any (fun q =>
      q.before.Flow (q.before.items.range q.record.item q.stop) ⟨2⟩ ⟨6⟩ intoLoop ∧
      q.before.Writes q.record.args ⟨2⟩ ⟨0⟩ ∧ q.before.Reads ⟨6⟩ ⟨0⟩ ∧
      ¬ q.before.Overlooks q.record.args ⟨6⟩ ⟨0⟩ ∧ ∀ x ∈ q.after.vars.get? ⟨0⟩,
        ∀ e ∈ intoLoop, e.isJump = true → q.after.NotBefore x e.dst) = true by decide +kernel)
  obtain ⟨hp, body, hs⟩ := Builder.prepareFirst_ok hq
  obtain ⟨hflow, hwrite, hread, hcounts, hjumps⟩ := of_decide_eq_true hd
  obtain ⟨x, hx, hiff, -⟩ := path_within_life_iff hs hp (hs.range_eq ▸ hflow) hwrite hread
  exact ⟨s, t, record, stop, p, x, hp, hx, hflow, hiff.mpr ⟨hjumps x hx, fun h => absurd h hcounts⟩⟩

/-- The variable is not: its life begins behind the head of the loop, so that going back to the head
leaves it. -/
theorem path_leaves_life : ∃ s t record stop body, ∃ p : Prototype, ∃ x,
    s.Ready ⟨0⟩ record stop body ∧ Build.prepareFunction ⟨0⟩ record stop p s = .ok () t ∧
    s.Flow (record.item :: (body ++ [stop])) ⟨7⟩ ⟨6⟩ aroundLoop ∧
    s.Writes record.args ⟨7⟩ ⟨1⟩ ∧ s.Reads ⟨6⟩ ⟨1⟩ ∧ t.vars.get? ⟨1⟩ = some x ∧
    (∀ e ∈ aroundLoop.dropLast, ¬ s.Writes record.args e.dst ⟨1⟩) ∧
    ¬ ∀ y ∈ ⟨7⟩ :: aroundLoop.map Transfer.dst, t.NotBefore x y ∧ t.NotBehind x y := by
  obtain ⟨⟨s, record, stop, p, t⟩, hq, hd⟩ := Option.any_eq_true _ _ |>.mp
    (show (Builder.prepareFirst midLoop).any (fun q =>
      q.before.Flow (q.before.items.range q.record.item q.stop) ⟨7⟩ ⟨6⟩ aroundLoop ∧
      q.before.Writes q.record.args ⟨7⟩ ⟨1⟩ ∧ q.before.Reads ⟨6⟩ ⟨1⟩ ∧
      (∀ e ∈ aroundLoop.dropLast, ¬ q.before.Writes q.record.args e.dst ⟨1⟩) ∧
      ∃ x ∈ q.after.vars.get? ⟨1⟩,
        ¬ ∀ y ∈ ⟨7⟩ :: aroundLoop.map Transfer.dst, q.after.NotBefore x y ∧ q.after.NotBehind x y) = true
      by decide +kernel)
  obtain ⟨hp, body, hs⟩ := Builder.prepareFirst_ok hq
  obtain ⟨hflow, hwrite, hread, honly, x, hx, hout⟩ := of_decide_eq_true hd
  exact ⟨s, t, record, stop, body, p, x, hs, hp, hs.range_eq ▸ hflow, hwrite, hread, hx, honly, hout⟩

end Session

end Codegen
