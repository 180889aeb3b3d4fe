import Codegen.Alignment
import Codegen.Handle

/-! Spill slots. Slots are asked for by size while a function is compiled and reused through a free
list; offsets are given out once every request is known, first to the 16-byte slots, then to the
8-byte slots, the 4-byte slots and all others. Sizes and offsets are words of 32 bits, which is what the numbers here
stand for as long as the slots extend over fewer than 2³¹ bytes. -/
namespace Codegen

structure Slot where
  size : Nat
  offset : Option Nat := none
  deriving DecidableEq, Repr

/-- The slots of a function, those of them that are free, and how many there are of each common size. -/
structure SlotPool where
  slots : Array Slot
  free : List SlotId
  count16 : Nat
  count8 : Nat
  count4 : Nat
  counted : count16 = slots.countP (·.size == 16) ∧ count8 = slots.countP (·.size == 8) ∧
    count4 = slots.countP (·.size == 4)
  deriving DecidableEq, Repr

namespace SlotPool

def empty : SlotPool := ⟨#[], [], 0, 0, 0, rfl, rfl, rfl⟩

def size (p : SlotPool) : Nat := p.slots.size

def slotSize? (p : SlotPool) (s : SlotId) : Option Nat := p.slots[s.index]?.map (·.size)

/-- Take the first free slot of exactly this size, or a new one. -/
def acquire (p : SlotPool) (size : Nat) : SlotId × SlotPool :=
  match p.free.find? fun s => p.slotSize? s == some size with
  | some s => (s, { p with free := p.free.erase s })
  | none => (⟨p.size⟩,
    { slots := p.slots.push { size }, free := p.free
      count16 := p.count16 + if size = 16 then 1 else 0
      count8 := p.count8 + if size = 8 then 1 else 0
      count4 := p.count4 + if size = 4 then 1 else 0
      counted := by simp [Array.countP_push, p.counted] })

/-- Put a slot on the free list, unless it is there. -/
def release (p : SlotPool) (s : SlotId) : SlotPool :=
  if p.free.contains s then p else { p with free := p.free ++ [s] }

/-- The next free offset of each of the four areas, and the end of what is placed. -/
structure Cursor where
  at16 : Nat
  at8 : Nat
  at4 : Nat
  atOther : Nat
  extent : Nat
  deriving DecidableEq, Repr

/-- Where the areas start. -/
def start (p : SlotPool) : Cursor :=
  let at8 := p.count16 * 16
  let at4 := at8 + p.count8 * 8
  let stop := at4 + p.count4 * 4
  ⟨0, at8, at4, alignUp16 stop, stop⟩

/-- The offset of the next slot of this size. Odd sizes of 16 bytes and more are rounded up to a
multiple of 16 and start at one. -/
def Cursor.place (c : Cursor) (size : Nat) : Nat × Cursor :=
  match size with
  | 16 => (c.at16, { c with at16 := c.at16 + 16 })
  | 8 => (c.at8, { c with at8 := c.at8 + 8 })
  | 4 => (c.at4, { c with at4 := c.at4 + 4 })
  | _ =>
    let from_ := if 16 ≤ size then alignUp16 c.atOther else c.atOther
    let next := from_ + if 16 ≤ size then alignUp16 size else size
    (from_, { c with atOther := next, extent := max c.extent next })

/-- Give every slot of the list its offset, in order. -/
def placeAll (c : Cursor) : List Slot → List Slot × Cursor
  | [] => ([], c)
  | s :: rest =>
    let (offset, c) := c.place s.size
    let (placed, c) := placeAll c rest
    ({ s with offset := some offset } :: placed, c)

theorem map_size_placeAll (c : Cursor) (l : List Slot) : (placeAll c l).1.map (·.size) = l.map (·.size) := by
  induction l generalizing c with
  | nil => rfl
  | cons s l ih => simp [placeAll, ih]

theorem countP_placeAll (c : Cursor) (l : List Slot) (n : Nat) :
    (placeAll c l).1.countP (·.size == n) = l.countP (·.size == n) := by
  have h := congrArg (·.countP (· == n)) (map_size_placeAll c l)
  simpa [List.countP_map, Function.comp_def] using h

/-- Give every slot its offset; the result is the number of bytes that the slots extend over. -/
def layout (p : SlotPool) : Nat × SlotPool :=
  let placed := placeAll p.start p.slots.toList
  (placed.2.extent,
    { p with slots := placed.1.toArray, counted := by simp [placed, countP_placeAll, p.counted] })

/-- Offset of a slot, known after `layout`. -/
def offset? (p : SlotPool) (s : SlotId) : Option Nat := p.slots[s.index]?.bind (·.offset)

end SlotPool

end Codegen
