import Codegen.Error
import Codegen.Variable.Basic
import Codegen.Variable.Ring

/-! The variables of a session, and the active ones among them in the order of activation. -/
namespace Codegen

/-- All variables, and the ring of the active ones. -/
structure VarTable where
  vars : Array Variable := #[]
  ring : Ring := .empty
  deriving DecidableEq, Repr

namespace VarTable

def empty : VarTable := {}

def size (t : VarTable) : Nat := t.vars.size

def get? (t : VarTable) (id : VarId) : Option Variable := t.vars[id.index]?

def get (t : VarTable) (id : VarId) : Except Error Variable :=
  match t.get? id with
  | some v => .ok v
  | none => .error (.unknownVariable id)

def modify (t : VarTable) (id : VarId) (f : Variable → Variable) : VarTable :=
  { t with vars := t.vars.modify id.index f }

/-- Add a variable of the given type, which must have a register class. -/
def newVar (t : VarTable) (ty : VarType) (function : FunctionId) :
    Except Error (VarId × VarTable) :=
  match ty.cls with
  | none => .error (.unsupported (.variableType ty))
  | some cls =>
    let id : VarId := ⟨t.size⟩
    .ok (id, { t with vars := t.vars.push { id, ty, cls, function } })

/-- The variables of a function, in creation order. -/
def ofFunction (t : VarTable) (function : FunctionId) : List VarId :=
  (t.vars.toList.filter (·.function == function)).map (·.id)

def active (t : VarTable) : List VarId := t.ring.ids

def isActive (t : VarTable) (id : VarId) : Bool := (t.ring.get? id).isSome

/-- Append to the active variables, unless it is one already. -/
def activate (t : VarTable) (id : VarId) : Except Error VarTable :=
  if t.isActive id then .ok t
  else match t.get? id with
    | some _ => .ok { t with ring := t.ring.add id }
    | none => .error (.unknownVariable id)

def deactivate (t : VarTable) (id : VarId) : VarTable := { t with ring := t.ring.remove id }

def clearActive (t : VarTable) : VarTable := { t with ring := t.ring.clear }

@[simp] theorem active_modify (t : VarTable) (id : VarId) (f : Variable → Variable) :
    (t.modify id f).active = t.active := rfl

theorem isActive_iff (t : VarTable) (id : VarId) : t.isActive id = true ↔ id ∈ t.active := t.ring.rings.get?_isSome

theorem activate_ok {t t' : VarTable} {id : VarId} (h : t.activate id = .ok t') :
    t'.vars = t.vars ∧ t'.active = if id ∈ t.active then t.active else t.active ++ [id] := by
  unfold activate at h
  split at h
  · next hid =>
    cases h
    rw [if_pos ((t.isActive_iff id).mp hid)]
    exact ⟨rfl, rfl⟩
  · split at h
    · cases h
      exact ⟨rfl, t.ring.rings.add.ids⟩
    · cases h

theorem active_deactivate (t : VarTable) (id : VarId) : (t.deactivate id).active = t.active.erase id :=
  t.ring.rings.remove.ids

@[simp] theorem active_clearActive (t : VarTable) : t.clearActive.active = [] := t.ring.rings.clear.ids

theorem get?_modify_self (t : VarTable) (id : VarId) (f : Variable → Variable) :
    (t.modify id f).get? id = (t.get? id).map f := by
  simp [get?, modify, Array.getElem?_modify]

theorem get?_modify_of_ne (t : VarTable) {id other : VarId} (h : id ≠ other)
    (f : Variable → Variable) : (t.modify id f).get? other = t.get? other := by
  have hi : id.index ≠ other.index := fun hi => h (by cases id; cases other; simp_all)
  simp [get?, modify, Array.getElem?_modify, hi]

end VarTable

end Codegen
