import Codegen.Error
import Codegen.Item.Basic
import Codegen.Item.Chain

/-! Items in order. Every item ever made stays in the table; the chain holds those that are part of
the program, and the cursor names the item behind which the next one goes. -/
namespace Codegen

/-- A table of items, the chain of the linked ones, and the place for insertions. -/
structure ItemSeq where
  items : Array Item := #[]
  chain : Chain := .empty
  cursor : Option ItemId := none
  deriving DecidableEq, Repr

namespace ItemSeq

def empty : ItemSeq := {}

/-- Number of items, linked or not. -/
def size (s : ItemSeq) : Nat := s.items.size

def get? (s : ItemSeq) (id : ItemId) : Option Item := s.items[id.index]?

def get (s : ItemSeq) (id : ItemId) : Except Error Item :=
  match s.get? id with
  | some item => .ok item
  | none => .error (.usage (.unknownItem id))

def modify (s : ItemSeq) (id : ItemId) (f : Item → Item) : ItemSeq :=
  { s with items := s.items.modify id.index f }

def offset? (s : ItemSeq) (id : ItemId) : Option Nat := (s.get? id).bind (·.offset)

/-- Make an item that is not linked. -/
def create (s : ItemSeq) (kind : ItemKind) : ItemId × ItemSeq :=
  (⟨s.size⟩, { s with items := s.items.push { kind } })

/-- The linked items in order. -/
def order (s : ItemSeq) : List ItemId := s.chain.ids

def isLinked (s : ItemSeq) (id : ItemId) : Bool := (s.chain.get? id).isSome

/-- The linked item behind a linked item. -/
def next? (s : ItemSeq) (id : ItemId) : Option ItemId := (s.chain.get? id).bind (·.next)

/-- The linked item in front of a linked item. -/
def prev? (s : ItemSeq) (id : ItemId) : Option ItemId := (s.chain.get? id).bind (·.prev)

def first? (s : ItemSeq) : Option ItemId := s.chain.first

def last? (s : ItemSeq) : Option ItemId := s.chain.last

def setCursor (s : ItemSeq) (cursor : Option ItemId) : ItemSeq := { s with cursor }

/-- Link `id` right behind `anchor`, leaving the cursor alone. -/
def insertAfter (s : ItemSeq) (id anchor : ItemId) : Except Error ItemSeq := do
  let _ ← s.get id
  if s.isLinked id then throw .itemAlreadyLinked
  let _ ← s.get anchor
  if !s.isLinked anchor then throw (.usage .anchorNotLinked)
  return { s with chain := s.chain.insertAfter id anchor }

/-- Link `id` in front of all others. -/
def insertFirst (s : ItemSeq) (id : ItemId) : Except Error ItemSeq := do
  let _ ← s.get id
  if s.isLinked id then throw .itemAlreadyLinked
  return { s with chain := s.chain.insertFirst id }

/-- Link `id` behind the cursor, or in front of all others, and move the cursor onto it. -/
def insert (s : ItemSeq) (id : ItemId) : Except Error ItemSeq := do
  let s ← match s.cursor with
    | some anchor => s.insertAfter id anchor
    | none => s.insertFirst id
  return s.setCursor (some id)

/-- Take `id` out of the chain. A cursor on it moves to the item in front. -/
def unlink (s : ItemSeq) (id : ItemId) : Except Error ItemSeq := do
  let _ ← s.get id
  if !s.isLinked id then throw (.usage .itemNotLinked)
  let cursor := if s.cursor = some id then s.prev? id else s.cursor
  return { s with chain := s.chain.unlink id, cursor }

/-- `id` and the items behind it. -/
def suffixFrom (s : ItemSeq) (id : ItemId) : List ItemId := s.chain.walk (s.chain.cells.size + 1) (some id)

/-- The part of a list up to the first occurrence of `stop`, or all of it. -/
def upTo (stop : ItemId) : List ItemId → List ItemId
  | a :: rest => if a = stop then [a] else a :: upTo stop rest
  | [] => []

/-- The items from `start` to `stop`, both included. -/
def range (s : ItemSeq) (start stop : ItemId) : List ItemId := upTo stop (s.suffixFrom start)

theorem get?_modify_self (s : ItemSeq) (id : ItemId) (f : Item → Item) :
    (s.modify id f).get? id = (s.get? id).map f := by
  simp [get?, modify, Array.getElem?_modify]

theorem get?_modify_of_ne (s : ItemSeq) {id other : ItemId} (h : id ≠ other) (f : Item → Item) :
    (s.modify id f).get? other = s.get? other := by
  have hi : id.index ≠ other.index := fun hi => h (by cases id; cases other; simp_all)
  simp [get?, modify, Array.getElem?_modify, hi]

theorem get?_modify_cases {s : ItemSeq} {id x : ItemId} {f : Item → Item} {item' : Item}
    (h : (s.modify id f).get? x = some item') :
    x ≠ id ∧ s.get? x = some item' ∨ x = id ∧ ∃ item, s.get? x = some item ∧ item' = f item := by
  by_cases hx : x = id
  · subst hx
    obtain ⟨item, hi, rfl⟩ := Option.map_eq_some_iff.mp ((get?_modify_self s x f).symm.trans h)
    exact .inr ⟨rfl, item, hi, rfl⟩
  · exact .inl ⟨hx, (get?_modify_of_ne s (Ne.symm hx) f).symm.trans h⟩

theorem chains (s : ItemSeq) : s.chain.Chains s.order := s.chain.chains

theorem nodup_order (s : ItemSeq) : s.order.Nodup := s.chains.nodup

@[simp] theorem order_empty : ({} : ItemSeq).order = [] := rfl

theorem isLinked_iff {s : ItemSeq} {x : ItemId} : s.isLinked x = true ↔ x ∈ s.order := s.chain.chains.get?_isSome

theorem next?_eq_following (s : ItemSeq) (x : ItemId) : s.next? x = following x s.order := Chain.next_eq_following

theorem prev?_eq_preceding (s : ItemSeq) (x : ItemId) : s.prev? x = preceding x s.order := Chain.prev_eq_preceding

theorem suffixFrom_eq_drop (s : ItemSeq) (x : ItemId) : s.suffixFrom x = x :: (s.order.dropWhile (· ≠ x)).tail := by
  have hwalk : ∀ {A C : List ItemId}, s.order = A ++ C → s.chain.walk s.chain.cells.size C.head? = C := fun ho => by
    have h := ho ▸ s.chains
    exact h.walk (Nat.le_trans (by simp) h.length_le)
  have hdrop : ∀ {A C : List ItemId}, x ∉ A → (A ++ C).dropWhile (· ≠ x) = C.dropWhile (· ≠ x) := fun hA =>
    List.dropWhile_append_of_pos fun a ha => by simpa using fun e : a = x => hA (e ▸ ha)
  rw [suffixFrom, ItemLinks.walk]
  by_cases hx : x ∈ s.order
  · obtain ⟨A, C, ho⟩ := List.append_of_mem hx
    rw [s.chains.member ho, Option.bind_some, @hwalk (A ++ [x]) C (by simp [ho]), ho, hdrop (ho ▸ s.chains).not_mem_around.1]
    simp
  · rw [s.chains.other hx, ← s.order.append_nil, hdrop hx, Option.bind_none]
    cases s.chain.cells.size <;> rfl

end ItemSeq

end Codegen
