import Codegen.Allocation.Context
import Codegen.Convention
import Codegen.Item.Sequence
import Codegen.Session.Stats
import Codegen.Variable.Table

/-! A session holds a program under construction and everything known about it. Steps on a session
keep what they did before a failure, so that the state after an error is a state too. -/
namespace Codegen

/-- Settings of a session. -/
structure Options where
  cpuVendor : CpuVendor := .unknown
  /-- Hand comments to the encoder. -/
  emitComments : Bool := false
  /-- Overrides what the calling convention says about the alignment of the stack. -/
  stackAlignedByOs : Option Bool := none
  deriving DecidableEq, Repr

/-- A function of the program. -/
structure FunctionRecord where
  prototype : PrototypeId
  hints : FunctionHints
  item : ItemId
  entryLabel : LabelId
  exitLabel : LabelId
  /-- The closing item, once the function is closed. -/
  stop : Option ItemId := none
  args : List VarId
  /-- The frame, once the function is compiled. -/
  frame : Option FrameLayout := none
  deriving DecidableEq, Repr

/-- A program under construction. -/
structure Session where
  options : Options := {}
  items : ItemSeq := .empty
  vars : VarTable := .empty
  /-- The target item of each label. -/
  labels : Array ItemId := #[]
  functions : Array FunctionRecord := #[]
  prototypes : Array Prototype := #[]
  ctx : Context := .empty
  /-- The open function. -/
  current : Option FunctionId := none
  stats : Stats := {}
  deriving DecidableEq, Repr

/-- Steps on a session that may fail. -/
abbrev Build := EStateM Error Session

instance {σ : Type} : MonadLift (Except Error) (EStateM Error σ) where
  monadLift
    | .ok a => pure a
    | .error e => throw e

namespace Session

def function (s : Session) (f : FunctionId) : Except Error FunctionRecord :=
  match s.functions[f.index]? with
  | some r => .ok r
  | none => .error (.usage (.unknownFunction f))

def prototype (s : Session) (p : PrototypeId) : Except Error Prototype :=
  match s.prototypes[p.index]? with
  | some r => .ok r
  | none => .error (.usage (.unknownPrototype p))

/-- The target item of a label. -/
def labelTarget (s : Session) (l : LabelId) : Except Error ItemId :=
  match s.labels[l.index]? with
  | some i => .ok i
  | none => .error (.unknownLabel l)

def labelCount (s : Session) : Nat := s.labels.size

/-- The result types of a function with their registers. -/
def returnsOf (s : Session) (f : FunctionId) : Except Error (List (VarType × Reg)) := do
  let record ← s.function f
  let prototype ← s.prototype record.prototype
  return prototype.returns

end Session

namespace Build

def getVar (id : VarId) : Build Variable := do (← get).vars.get id

/-- Change a variable, which must exist. -/
def modifyVar (id : VarId) (f : Variable → Variable) : Build Unit := do
  let _ ← getVar id
  modify fun s => { s with vars := s.vars.modify id f }

def getItem (id : ItemId) : Build Item := do (← get).items.get id

/-- Change an item, which must exist. -/
def modifyItem (id : ItemId) (f : Item → Item) : Build Unit := do
  let _ ← getItem id
  modify fun s => { s with items := s.items.modify id f }

def setKind (id : ItemId) (kind : ItemKind) : Build Unit := modifyItem id ({ · with kind })

def modifyContext (f : Context → Context) : Build Unit := modify fun s => { s with ctx := f s.ctx }

def modifyStats (f : Stats → Stats) : Build Unit := modify fun s => { s with stats := f s.stats }

def setCursor (cursor : Option ItemId) : Build Unit :=
  modify fun s => { s with items := s.items.setCursor cursor }

def create (kind : ItemKind) : Build ItemId :=
  modifyGet fun s =>
    let (id, items) := s.items.create kind
    (id, { s with items })

def insert (id : ItemId) : Build Unit := do
  let items ← (← get).items.insert id
  modify fun s => { s with items }

def insertAfter (id anchor : ItemId) : Build Unit := do
  let items ← (← get).items.insertAfter id anchor
  modify fun s => { s with items }

def unlink (id : ItemId) : Build Unit := do
  let items ← (← get).items.unlink id
  modify fun s => { s with items }

def getFunction (f : FunctionId) : Build FunctionRecord := do (← get).function f

def modifyFunction (f : FunctionId) (g : FunctionRecord → FunctionRecord) : Build Unit := do
  let _ ← getFunction f
  modify fun s => { s with functions := s.functions.modify f.index g }

def getPrototype (p : PrototypeId) : Build Prototype := do (← get).prototype p

def labelTarget (l : LabelId) : Build ItemId := do (← get).labelTarget l

def addPrototype (p : Prototype) : Build PrototypeId :=
  modifyGet fun s => (⟨s.prototypes.size⟩, { s with prototypes := s.prototypes.push p })

/-- A new label, whose target item is not linked yet. -/
def createLabel : Build LabelId := do
  let label : LabelId := ⟨(← get).labelCount⟩
  let target ← create (.target { label })
  modify fun s => { s with labels := s.labels.push target }
  return label

/-- A new variable of a function. -/
def createVar (ty : VarType) (f : FunctionId) : Build VarId := do
  let (id, vars) ← (← get).vars.newVar ty f
  modify fun s => { s with vars }
  return id

def usage {α : Type} (reason : Misuse) : Build α := throw (.usage reason)

/-- The function being compiled. -/
def compiling : Build FunctionId := do
  match (← get).ctx.function with
  | some f => return f
  | none => throw .noFunction

end Build

end Codegen
