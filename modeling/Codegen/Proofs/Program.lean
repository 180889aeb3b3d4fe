import Codegen.Builder
import Codegen.Proofs.Order

/-! Programs as they are built. A function that is closed has its items in one stretch of the order,
names its own variables only, and its arguments arrive in different places. -/
namespace Codegen

/-- Where a value can be. -/
inductive Place where
  | reg (r : Reg)
  | home (a : Home)
  deriving DecidableEq

/-- The place of an argument for the function that receives it. -/
def ArgLocation.place : ArgLocation → Place
  | .register r => .reg r
  | .stack offset => .home (.argument (offset + 8))

namespace Variable

/-- The place that the value of an argument arrives in. -/
def arrival (v : Variable) : Option Place :=
  match v.passing, v.homeReg with
  | .inRegister, some i => some (.reg ⟨v.cls, i⟩)
  | .onStack offset, _ => some (.home (.argument offset))
  | _, _ => none

/-- Nothing is known about the variable but what it was made with. -/
structure Fresh (v : Variable) (id : VarId) : Prop where
  blank : v =
    { id, ty := v.ty, cls := v.cls, function := v.function, homeReg := v.homeReg
      priority := v.priority, passing := v.passing }
  typed : v.ty.cls = some v.cls

end Variable

/-- The variables that an operand names. -/
def Operand.vars : Operand → List VarId
  | .var v => [v.id]
  | .mem m => m.addressVars ++ m.homeVar.toList
  | _ => []

namespace ItemKind

/-- The variables that an item names. -/
def vars : ItemKind → List VarId
  | instruction i => i.operands.flatMap Operand.vars
  | ret r => r.operands.flatMap Operand.vars
  | call c => (c.args ++ [c.target]).flatMap Operand.vars ++ c.returns
  | hint h => [h.var]
  | _ => []

/-- May the item stand in a function that is not compiled yet? -/
def Inside (f : FunctionId) : ItemKind → Prop
  | function _ | functionEnd _ => False
  | ret r => r.function = f
  | jump j => j.state = none
  | target t => t.state = none
  | _ => True

end ItemKind

namespace Session

/-- The variable is one of the function's. -/
def IsVarOf (s : Session) (f : FunctionId) (id : VarId) : Prop :=
  (s.vars.get? id).map (·.function) = some f

/-- The item may stand in the function, and names only variables of the function. -/
def IsInside (s : Session) (f : FunctionId) (id : ItemId) : Prop :=
  ∃ kind, s.items.get? id = some { kind } ∧ kind.Inside f ∧ ∀ v ∈ kind.vars, s.IsVarOf f v

/-- The arguments of a function arrive in different places that the allocator may use. -/
structure Passes (s : Session) (f : FunctionId) (args : List VarId) : Prop where
  nodup : args.Nodup
  arrives : ∀ id ∈ args, ∃ v p, s.vars.get? id = some v ∧ v.function = f ∧ v.arrival = some p ∧
    ∀ r, p = .reg r → (Context.empty.allocable r.cls).contains r.index = true
  distinct : ∀ {a b v w p}, s.vars.get? a = some v → v.function = f → v.arrival = some p →
    s.vars.get? b = some w → w.function = f → w.arrival = some p → a = b
  others : ∀ {id v}, s.vars.get? id = some v → v.function = f → id ∉ args → v.passing = .notPassed

/-- A closed function that is not compiled yet: its items are its opening item, a body, and its
closing item. -/
structure Ready (s : Session) (f : FunctionId) (record : FunctionRecord) (stop : ItemId)
    (body : List ItemId) : Prop where
  function : s.functions[f.index]? = some record
  closed : record.stop = some stop
  order : ∃ A C, s.items.order = A ++ record.item :: (body ++ stop :: C)
  nodup : s.items.order.Nodup
  made : ∀ id ∈ s.items.order, id.index < s.items.size
  opens : s.items.get? record.item = some { kind := .function f }
  closes : s.items.get? stop = some { kind := .functionEnd f }
  inside : ∀ id ∈ body, s.IsInside f id
  fresh : ∀ {id v}, s.vars.get? id = some v → v.function = f → v.Fresh id
  passes : s.Passes f record.args

end Session

end Codegen
