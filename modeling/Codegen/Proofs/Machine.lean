import Codegen.Proofs.Program
import Mathlib.Data.List.Forall2
import Mathlib.Logic.Function.Basic

/-! What programs compute. Instructions run on a store of variables as they are written, and on a
machine of registers and homes as they are resolved. Both ways of running them share the meaning of the
opcodes and a memory that homes are no part of. -/
namespace Codegen
open List Option Function

/-- An operand that refers to cells. A memory operand with a home is the memory that a cell lives in. -/
inductive Ref (P : Type) where
  | imm (value : Int)
  | label (l : LabelId)
  | cell (p : P) (size : Nat)
  | mem (base index : Option P) (scale : Nat) (disp : Int) (size : Nat) (home : Option P)
  deriving DecidableEq

/-- Apply a function that may fail to what is there. -/
def optionally {α β : Type} (f : α → Option β) : Option α → Option (Option β)
  | none => some none
  | some a => (f a).map some

namespace Ref

/-- The cell that an access is about. -/
def target? : Ref P → Option P
  | cell p _ => some p
  | mem _ _ _ _ _ home => home
  | _ => none

/-- Replace the cells of an operand, those of its address and the one that the access is about. -/
def mapM (address target : P → Option Q) : Ref P → Option (Ref Q)
  | imm n => some (imm n)
  | label l => some (label l)
  | cell p size => (target p).map (cell · size)
  | mem base index scale disp size home => do
    let base ← optionally address base
    let index ← optionally address index
    let home ← optionally target home
    some (mem base index scale disp size home)

/-- What an instruction sees of an operand: the values of its address, and the value it reads. -/
def view (get : P → Option α) (reads : Bool) : Ref P → Option (Ref (Option α)) :=
  mapM (fun p => (get p).map some) fun p => if reads then (get p).map some else some none

/-- The cells whose values are seen. -/
def seen (reads : Bool) : Ref P → List P
  | cell p _ => if reads then [p] else []
  | mem base index _ _ _ home => base.toList ++ index.toList ++ if reads then home.toList else []
  | _ => []

end Ref

/-- The operand in terms of cells, if all it names are such. -/
def Operand.ref {P : Type} (ofVar : VarId → Option P) (ofReg : Reg → Option P)
    (ofHome : Home → Option P) : Operand → Option (Ref P)
  | .var v => (ofVar v.id).map (.cell · v.size)
  | .reg r => (ofReg r.reg).map (.cell · r.size)
  | .imm n => some (.imm n)
  | .label l => some (.label l)
  | .mem m => do
    let part : AddressPart → Option P
      | .var v => ofVar v
      | .reg r => ofReg r
    let base ← optionally part m.base
    let index ← optionally part m.index
    let home ← optionally ofHome m.home
    some (.mem base index m.scale m.disp m.size home)

/-- An operand as it is written: it names variables and their homes. -/
def Operand.source : Operand → Option (Ref VarId) :=
  ref some (fun _ => none) fun
    | .var v => some v
    | _ => none

/-- An operand as it is resolved: it names registers and homes. -/
def Operand.machine : Operand → Option (Ref Place) :=
  ref (fun _ => none) (fun r => some (.reg r)) fun
    | .var _ => none
    | a => some (.home a)

/-- What an instruction saw of its operands, and the values it wrote. -/
structure Event (w : Nat) where
  opcode : Opcode
  operands : List (Ref (Option (BitVec w)))
  results : List (BitVec w)
  deriving DecidableEq

/-- What opcodes do: given the operands as they are seen and the memory, the value for each operand that
is written, and the new memory. -/
abbrev Meaning (w : Nat) (M : Type) :=
  Opcode → List (Ref (Option (BitVec w))) → M → (Nat → BitVec w) × M

section Perform
variable [DecidableEq P]

/-- Does the instruction clear the cell that both its operands name? -/
def clearing (opcode : Opcode) (refs : List (Ref P)) : Bool :=
  opcode.isZeroingIdiom &&
    match refs with
    | [.cell p _, .cell q _] => p == q
    | _ => false

/-- Is the operand read? -/
def readsAt (opcode : Opcode) (refs : List (Ref P)) (k : Nat) : Bool :=
  !clearing opcode refs && (opcode.constraint k refs.length).access.reads

/-- Is the operand written? -/
def writesAt (opcode : Opcode) (refs : List (Ref P)) (k : Nat) : Bool :=
  (opcode.constraint k refs.length).access.writes

/-- What is seen of the operands from position `k` on. -/
def views (get : P → Option α) (reads : Nat → Bool) (k : Nat) :
    List (Ref P) → Option (List (Ref (Option α)))
  | [] => some []
  | r :: rest => do
    let v ← r.view get (reads k)
    let vs ← views get reads (k + 1) rest
    some (v :: vs)

/-- The cells written by the operands from position `k` on. -/
def written (out : Nat → α) (writes : Nat → Bool) (k : Nat) : List (Ref P) → List (P × α)
  | [] => []
  | r :: rest =>
    (if writes k then r.target?.toList.map (·, out k) else []) ++ written out writes (k + 1) rest

/-- One instruction on cells: what happens, the cells it writes, and the new memory. -/
def perform (I : Meaning w M) (opcode : Opcode) (refs : List (Ref P)) (get : P → Option (BitVec w))
    (mem : M) : Option (Event w × List (P × BitVec w) × M) := do
  let vs ← views get (readsAt opcode refs) 0 refs
  let (out, mem) := I opcode vs mem
  let ws := written out (writesAt opcode refs) 0 refs
  some (⟨opcode, vs, ws.map Prod.snd⟩, ws, mem)

end Perform

/-- The place that an operand of generated code stands for. -/
def Operand.place? (o : Operand) : Option Place :=
  match o.machine with
  | some (.cell p _) => some p
  | some (.mem none none _ 0 _ (some p)) => some p
  | _ => none

/-- Does the opcode copy its second operand to the first? -/
def Opcode.isCopy : Opcode → Bool
  | mov | movq | movdqa | movss | movsd | movaps | movapd => true
  | _ => false

section Run

/-- What an instruction does that the compiler has put in: it copies, exchanges or combines two places. Operand widths are
left out: a place is copied whole, however many of its bytes the operands name. -/
def Instruction.exec (i : Instruction) (m : Place → BitVec w) : Option (Place → BitVec w) :=
  match i.operands with
  | [dst, src] => do
    let d ← dst.place?
    let s ← src.place?
    match i.opcode with
    | .xchg => some (update (update m d (m s)) s (m d))
    | .pxor => some (update m d (m d ^^^ m s))
    | opcode => if opcode.isCopy then some (update m d (m s)) else none
  | _ => none

def Instruction.execAll : List Instruction → (Place → BitVec w) → Option (Place → BitVec w)
  | [], m => some m
  | i :: rest, m => (i.exec m).bind (execAll rest)

theorem Instruction.execAll_append (a b : List Instruction) (m : Place → BitVec w) :
    execAll (a ++ b) m = (execAll a m).bind (execAll b) := by
  induction a generalizing m with
  | nil => rfl
  | cons i rest ih =>
    simp only [cons_append, execAll, bind_assoc]
    exact congrArg _ (funext ih)

/-- One item on a store of variables. The run is stuck where a variable is read that has no value, at
operands that name registers or slots, and where control goes elsewhere. -/
def sourceStep (I : Meaning w M) (_ : ItemId) (kind : ItemKind)
    (c : (VarId → Option (BitVec w)) × M) :
    Option (List (Event w) × (VarId → Option (BitVec w)) × M) :=
  match kind with
  | .instruction i => do
    let refs ← i.operands.mapM Operand.source
    let (event, ws, mem) ← perform I i.opcode refs c.1 c.2
    some ([event], ws.foldl (fun σ e => update σ e.1 (some e.2)) c.1, mem)
  | .hint h =>
    -- the value of a variable that is declared unused is lost
    some ([], if h.directive = .unuse then update c.1 h.var none else c.1, c.2)
  | .jump _ | .call _ | .ret _ | .data _ => none
  | _ => some ([], c)

/-- One item on the machine. Items that `own` does not know were put in by the compiler. -/
def machineStep (I : Meaning w M) (own : ItemId → Bool) (id : ItemId) (kind : ItemKind)
    (c : (Place → BitVec w) × M) : Option (List (Event w) × (Place → BitVec w) × M) :=
  match kind with
  | .instruction i =>
    if own id then do
      let refs ← i.operands.mapM Operand.machine
      let (event, ws, mem) ← perform I i.opcode refs (fun p => some (c.1 p)) c.2
      some ([event], ws.foldl (fun m e => update m e.1 e.2) c.1, mem)
    else (Instruction.exec ⟨i.opcode, i.operands⟩ c.1).map fun m => ([], m, c.2)
  | .jump _ | .call _ | .ret _ | .data _ => none
  | _ => some ([], c)

/-- Run items one after the other. -/
def runItems (step : ItemId → ItemKind → S → Option (List (Event w) × S)) (items : ItemSeq) :
    List ItemId → S → Option (List (Event w) × S)
  | [], c => some ([], c)
  | id :: rest, c => do
    let item ← items.get? id
    let (e, c) ← step id item.kind c
    let (es, c) ← runItems step items rest c
    some (e ++ es, c)

end Run

section RunLemmas
variable {step : ItemId → ItemKind → S → Option (List (Event w) × S)}
variable {items items' : ItemSeq} {es es' : List (Event w)}

theorem runItems_append (ha : runItems step items a c = some (es, c1))
    (hb : runItems step items b c1 = some (es', c2)) :
    runItems step items (a ++ b) c = some (es ++ es', c2) := by
  induction a generalizing c es with
  | nil =>
    cases ha
    exact hb
  | cons id rest ih =>
    simp only [runItems, bind_eq_bind, bind_eq_some_iff, cons_append] at ha ⊢
    obtain ⟨item, hi, ⟨e, c'⟩, hs, ⟨es1, c1'⟩, hr, h⟩ := ha
    cases h
    exact ⟨item, hi, (e, c'), hs, (es1 ++ es', c2), ih hr, by rw [append_assoc]⟩

theorem runItems_append_ok :
    runItems step items (a ++ b) c = some (es, c2) ↔ ∃ e1 e2 c1, runItems step items a c = some (e1, c1) ∧
      runItems step items b c1 = some (e2, c2) ∧ es = e1 ++ e2 := by
  constructor
  · intro h
    induction a generalizing c es with
    | nil => exact ⟨[], es, c, rfl, h, rfl⟩
    | cons id rest ih =>
      simp only [runItems, bind_eq_bind, bind_eq_some_iff, cons_append] at h
      obtain ⟨item, hi, ⟨e, c'⟩, hs, ⟨es1, c1'⟩, hr, h⟩ := h
      cases h
      obtain ⟨e1, e2, c1, h1, h2, rfl⟩ := ih hr
      refine ⟨e ++ e1, e2, c1, ?_, h2, (append_assoc ..).symm⟩
      simp only [runItems, hi, hs, h1, bind_eq_bind, bind_some]
  · rintro ⟨e1, e2, c1, h1, h2, rfl⟩
    exact runItems_append h1 h2

theorem runItems_congr (h : ∀ id ∈ a, (items'.get? id).map Item.kind = (items.get? id).map Item.kind) :
    runItems step items' a c = runItems step items a c := by
  induction a generalizing c with
  | nil => rfl
  | cons id rest ih =>
    obtain ⟨hid, hrest⟩ := forall_mem_cons.mp h
    have hr : ∀ c, runItems step items' rest c = runItems step items rest c := fun c => ih hrest
    simp only [runItems, hr]
    cases hx : items.get? id <;> cases hy : items'.get? id <;> simp_all

end RunLemmas

theorem mem_written {out : Nat → α} {writes : Nat → Bool} {refs : List (Ref P)} : p ∈ (written out writes k refs).map Prod.fst ↔
      ∃ j r, refs[j]? = some r ∧ writes (k + j) = true ∧ r.target? = some p := by
  induction refs generalizing k with
  | nil => simp [written]
  | cons r rest ih =>
    rw [written, map_append, mem_append, ih]
    constructor
    · rintro (h | ⟨j, r', hj, hw, ht⟩)
      · refine ⟨0, r, rfl, ?_⟩
        cases hw : writes k with
        | false => simp [hw] at h
        | true => exact ⟨rfl, by simpa [hw] using h⟩
      · exact ⟨j + 1, r', hj, by rwa [Nat.add_right_comm] at hw, ht⟩
    · rintro ⟨_ | j, r', hj, hw, ht⟩
      · cases hj
        exact .inl (by simp [show writes k = true from hw, ht])
      · exact .inr ⟨j, r', hj, by rwa [Nat.add_right_comm], ht⟩

theorem written_of_perform [DecidableEq P]
    {opcode : Opcode} {refs : List (Ref P)} {get : P → Option (BitVec w)} {mem mem' : M}
    {ws : List (P × BitVec w)} (h : perform I opcode refs get mem = some (e, ws, mem')) :
    ∃ out, ws = written out (writesAt opcode refs) 0 refs := by
  simp only [perform, bind_eq_bind, bind_eq_some_iff] at h
  obtain ⟨vs, -, h⟩ := h
  cases h
  exact ⟨_, rfl⟩

/-- Two operands that differ in their cells only, which are related. -/
inductive Ref.Related {P Q : Type} (R : P → Q → Prop) : Ref P → Ref Q → Prop where
  | imm (n : Int) : Related R (.imm n) (.imm n)
  | label (l : LabelId) : Related R (.label l) (.label l)
  | cell {p : P} {q : Q} (size : Nat) (h : R p q) : Related R (.cell p size) (.cell q size)
  | mem {base index home : Option P} {base' index' home' : Option Q} (scale : Nat) (disp : Int) (size : Nat)
      (hb : Rel R base base') (hi : Rel R index index') (hh : Rel R home home') :
      Related R (.mem base index scale disp size home) (.mem base' index' scale disp size home')

section Related
variable {R : P → Q → Prop} {get : P → Option α} {get' : Q → Option α}

private theorem optionally_related (ho : Rel R o o')
    (hg : ∀ p ∈ o, ∀ q x, R p q → f p = some x → g q = some x) (h : optionally f o = some v) :
    optionally g o' = some v := by
  cases ho with
  | none => exact h
  | @some p q hpq =>
    obtain ⟨x, hx, rfl⟩ := map_eq_some_iff.mp h
    exact map_eq_some_iff.mpr ⟨x, hg p rfl q x hpq hx, rfl⟩

theorem Ref.Related.view (h : Related R r r')
    (hget : ∀ p ∈ r.seen reads, ∀ q x, R p q → get p = some x → get' q = some x)
    (hv : r.view get reads = some v) : r'.view get' reads = some v := by
  have look : ∀ p, p ∈ r.seen reads → ∀ q x, R p q → (get p).map some = some x → (get' q).map some = some x := by
    rintro p hp q x hpq hx
    obtain ⟨y, hy, rfl⟩ := map_eq_some_iff.mp hx
    rw [hget p hp q y hpq hy, map_some]
  have peek : ∀ p, (reads = true → p ∈ r.seen reads) → ∀ q x, R p q →
      (if reads then (get p).map some else some none) = some x →
      (if reads then (get' q).map some else some none) = some x := by
    intro p hp q x hpq hx
    cases reads with
    | true => exact look p (hp rfl) q x hpq hx
    | false => exact hx
  cases h with
  | imm | label => exact hv
  | @cell p q size hpq =>
    obtain ⟨x, hx, rfl⟩ := map_eq_some_iff.mp hv
    exact map_eq_some_iff.mpr ⟨x, peek p (by simp +contextual [Ref.seen]) q x hpq hx, rfl⟩
  | @mem base index home base' index' home' scale disp size hb hi hh =>
    simp only [Ref.view, Ref.mapM, bind_eq_bind, bind_eq_some_iff, some.injEq] at hv ⊢
    obtain ⟨b, hvb, i, hvi, a, hva, rfl⟩ := hv
    refine ⟨b, optionally_related hb (fun p hp => look p ?_) hvb, i,
      optionally_related hi (fun p hp => look p ?_) hvi, a,
      optionally_related hh (fun p hp => peek p ?_) hva, rfl⟩
    · exact mem_append_left _ (mem_append_left _ (mem_toList.mpr hp))
    · exact mem_append_left _ (mem_append_right _ (mem_toList.mpr hp))
    · rintro rfl
      exact mem_append_right _ (mem_toList.mpr hp)

theorem views_related {vs : List (Ref (Option α))} (h : Forall₂ (Ref.Related R) refs refs')
    (hget : ∀ (j : Nat) (r : Ref P), refs[j]? = some r → ∀ p ∈ r.seen (reads (k + j)), ∀ q x, R p q → get p = some x →
      get' q = some x)
    (hv : views get reads k refs = some vs) : views get' reads k refs' = some vs := by
  induction h generalizing k vs with
  | nil => exact hv
  | @cons r r' refs refs' hr _ ih =>
    simp only [views, bind_eq_bind, bind_eq_some_iff, some.injEq] at hv ⊢
    obtain ⟨v, hv, vs, hvs, rfl⟩ := hv
    refine ⟨v, hr.view (hget 0 r rfl) hv, vs, ih (fun j r hj => ?_) hvs, rfl⟩
    have := hget (j + 1) r hj
    rwa [← Nat.add_assoc, Nat.add_right_comm] at this

theorem written_related (out : Nat → α) (writes : Nat → Bool) (k : Nat) (h : Forall₂ (Ref.Related R) refs refs') :
    Forall₂ (fun e e' => R e.1 e'.1 ∧ e.2 = e'.2) (written out writes k refs) (written out writes k refs') := by
  induction h generalizing k with
  | nil => exact .nil
  | @cons r r' refs refs' hr _ ih =>
    refine rel_append ?_ (ih (k + 1))
    split
    · cases hr with
      | imm | label => exact .nil
      | cell size hpq => exact .cons ⟨hpq, rfl⟩ .nil
      | mem scale disp size hb hi hh =>
        cases hh with
        | none => exact .nil
        | some hpq => exact .cons ⟨hpq, rfl⟩ .nil
    · exact .nil

theorem results_related {ws : List (P × α)} {ws' : List (Q × α)}
    (h : Forall₂ (fun e e' => R e.1 e'.1 ∧ e.2 = e'.2) ws ws') :
    ws'.map Prod.snd = ws.map Prod.snd := by
  induction h with
  | nil => rfl
  | cons he _ ih => rw [map_cons, map_cons, ih, he.2]

variable [DecidableEq P] [DecidableEq Q]

section
variable (hR : ∀ {p p' q q'}, R p q → R p' q' → (p = p' ↔ q = q'))
include hR

theorem clearing_related (h : Forall₂ (Ref.Related R) refs refs') : clearing opcode refs' = clearing opcode refs := by
  unfold clearing
  congr 1
  match h with
  | .nil => rfl
  | .cons (.cell _ hp) (.cons (.cell _ hq) .nil) => simp [hR hp hq]
  | .cons (.cell _ _) .nil => rfl
  | .cons (.cell _ _) (.cons (.cell _ _) (.cons _ _)) => rfl
  | .cons (.cell _ _) (.cons (.imm _) _) => rfl
  | .cons (.cell _ _) (.cons (.label _) _) => rfl
  | .cons (.cell _ _) (.cons (.mem ..) _) => rfl
  | .cons (.imm _) _ => rfl
  | .cons (.label _) _ => rfl
  | .cons (.mem ..) _ => rfl

theorem perform_related {opcode : Opcode} {refs : List (Ref P)}
    {refs' : List (Ref Q)} {get : P → Option (BitVec w)} {get' : Q → Option (BitVec w)} {mem mem' : M} {ws : List (P × BitVec w)}
    (h : Forall₂ (Ref.Related R) refs refs')
    (hget : ∀ (k : Nat) (r : Ref P), refs[k]? = some r → ∀ p ∈ r.seen (readsAt opcode refs k), ∀ q x, R p q →
      get p = some x → get' q = some x)
    (hp : perform I opcode refs get mem = some (e, ws, mem')) :
    ∃ ws', perform I opcode refs' get' mem = some (e, ws', mem') ∧
      Forall₂ (fun e e' => R e.1 e'.1 ∧ e.2 = e'.2) ws ws' := by
  have hreads : readsAt opcode refs' = readsAt opcode refs := by
    funext k
    rw [readsAt, readsAt, clearing_related hR h, h.length_eq]
  have hwrites : writesAt opcode refs' = writesAt opcode refs := by
    funext k
    rw [writesAt, writesAt, h.length_eq]
  simp only [perform, bind_eq_bind, bind_eq_some_iff] at hp ⊢
  obtain ⟨vs, hvs, hp⟩ := hp
  cases hp
  have hrel := written_related (I opcode vs mem).1 (writesAt opcode refs) 0 h
  refine ⟨_, ⟨vs, ?_, ?_⟩, hrel⟩
  · rw [hreads]
    exact views_related h (fun k r hk => by simpa using hget k r hk) hvs
  · rw [hwrites]
    rw [results_related hrel]

end

end Related

end Codegen
