/-! Handles into the tables of a session. Each counts from zero in creation order. -/
namespace Codegen

/-- Handle of an item. -/
structure ItemId where
  index : Nat
  deriving DecidableEq, Repr

/-- Handle of a label. Each label owns exactly one target item. -/
structure LabelId where
  index : Nat
  deriving DecidableEq, Repr

/-- Handle of a function. -/
structure FunctionId where
  index : Nat
  deriving DecidableEq, Repr

/-- Handle of a stored prototype. -/
structure PrototypeId where
  index : Nat
  deriving DecidableEq, Repr

/-- Handle of a virtual variable. -/
structure VarId where
  index : Nat
  deriving DecidableEq, Repr

/-- Handle of a spill slot. -/
structure SlotId where
  index : Nat
  deriving DecidableEq, Repr

end Codegen
