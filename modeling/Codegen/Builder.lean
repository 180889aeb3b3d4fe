import Codegen.Session.Basic

/-! Building a program: functions, variables, instructions, labels, jumps, calls, returns, directives
and data, each appended at the end. -/
namespace Codegen.Builder
open Build

/-- The open function. -/
def current : Build FunctionId := do
  match (← get).current with
  | some f => return f
  | none => throw .noFunction

/-- Link a new item behind all others. -/
def append (kind : ItemKind) : Build ItemId := do
  let id ← create kind
  setCursor (← get).items.last?
  insert id
  return id

/-- The variable must exist and belong to the open function. -/
def checkVar (id : VarId) : Build Unit := do
  let f ← current
  if (← getVar id).function ≠ f then usage (.foreignVariable id)

/-- Variables of an operand must be of the open function, and labels must exist. -/
def checkOperand : Operand → Build Unit
  | .var v => checkVar v.id
  | .mem m => (m.addressVars ++ m.homeVar.toList).forM checkVar
  | .label l => do let _ ← labelTarget l
  | .reg _ => pure ()
  | .imm _ => pure ()

/-- Bind a label here. A label is bound once. -/
def bind (label : LabelId) : Build Unit := do
  let target ← labelTarget label
  let _ ← getItem target
  if (← get).items.isLinked target then usage (.labelAlreadyBound label)
  setCursor (← get).items.last?
  insert target

/-- The variable that receives one argument. Stack arguments lie above the return address. -/
def createArg (f : FunctionId) (info : ArgumentInfo) : Build VarId := do
  let id ← createVar info.ty f
  match info.location with
  | .register r => modifyVar id ({ · with passing := .inRegister, homeReg := some r.index })
  | .stack offset => modifyVar id ({ · with passing := .onStack (offset + 8) })
  return id

/-- Open a function. Its argument variables and its entry and exit labels are made here. -/
def newFunction (prototype : Prototype) (hints : FunctionHints) : Build FunctionId := do
  if (← get).current.isSome then throw .functionInProgress
  let f : FunctionId := ⟨(← get).functions.size⟩
  let args ← prototype.args.mapM (createArg f)
  let prototype ← addPrototype prototype
  let entryLabel ← createLabel
  let exitLabel ← createLabel
  let item ← append (.function f)
  let record : FunctionRecord := { prototype, hints, item, entryLabel, exitLabel, args }
  modify fun s => { s with functions := s.functions.push record, current := some f }
  bind entryLabel
  return f

/-- The argument of the open function at this position. -/
def arg (index : Nat) : Build VarRef := do
  let record ← getFunction (← current)
  match record.args[index]? with
  | some id => return (← getVar id).ref
  | none => usage (.noArgument index)

def newVar (ty : VarType) : Build VarRef := do
  let id ← createVar ty (← current)
  return (← getVar id).ref

def setPriority (id : VarId) (priority : Nat) : Build Unit := modifyVar id ({ · with priority })

/-- Append an instruction that is not a control transfer. -/
def emit (opcode : Opcode) (operands : List Operand) : Build ItemId := do
  if opcode.isControlFlow then usage (.controlFlowOpcode opcode)
  operands.forM checkOperand
  append (.instruction { opcode, operands })

def newLabel : Build LabelId := createLabel

/-- Append a jump, and make it the latest of the jumps to its label. -/
def jump (opcode : Opcode) (label : LabelId) (hint : BranchHint) : Build ItemId := do
  let _ ← current
  let targetId ← labelTarget label
  match (← getItem targetId).kind with
  | .target t =>
    let id ← append (.jump { opcode, target := label, hint, nextJump := t.firstJump })
    setKind targetId (.target { t with firstJump := some id, jumpCount := t.jumpCount + 1 })
    return id
  | _ => usage .labelWithoutTarget

def jmp (label : LabelId) : Build ItemId := jump .jmp label .none

def jcc (condition : Condition) (label : LabelId) (hint : BranchHint) : Build ItemId :=
  jump (.jcc condition) label hint

/-- Return up to two values from the open function. -/
def ret (operands : List Operand) : Build ItemId := do
  let function ← current
  if operands.length > 2 then usage .tooManyReturns
  operands.forM checkOperand
  append (.ret { function, operands })

/-- Arguments of calls are variables, registers and immediates. -/
def checkArgument : Operand → Build Unit
  | .mem _ => throw (.unsupported .callArgument)
  | .label _ => throw (.unsupported .callArgument)
  | operand => checkOperand operand

/-- Call `target`; the first results go to the given variables. -/
def call (target : Operand) (prototype : Prototype) (args : List Operand) (returns : List VarRef) :
    Build ItemId := do
  let _ ← current
  if args.length ≠ prototype.args.length then
    usage (.argumentCount prototype.args.length args.length)
  if returns.length > prototype.returns.length then
    usage (.returnCount prototype.returns.length returns.length)
  args.forM checkArgument
  checkOperand target
  returns.forM fun r => checkOperand (.var r)
  let prototype ← addPrototype prototype
  append (.call { prototype, target, args, returns := returns.map (·.id) })

/-- Append a directive about a variable of the open function. -/
def hint (var : VarRef) (directive : Directive) (reg : Option Reg) : Build ItemId := do
  checkOperand (.var var)
  match reg with
  | some r => if r.cls ≠ (← getVar var.id).cls then usage (.wrongRegisterClass r var.id)
  | none => pure ()
  append (.hint { var := var.id, directive, reg := reg.map (·.index) })

/-- Ask for the variable to be in a register here, in the given one if there is one. -/
def alloc (var : VarRef) (reg : Option Reg) : Build ItemId := hint var .alloc reg

def spill (var : VarRef) : Build ItemId := hint var .spill none

def save (var : VarRef) : Build ItemId := hint var .save none

def saveAndUnuse (var : VarRef) : Build ItemId := hint var .saveAndUnuse none

def unuse (var : VarRef) : Build ItemId := hint var .unuse none

def comment (text : String) : Build ItemId := append (.comment text)

/-- Append padding up to a multiple of a power of two. -/
def align (alignment : Nat) : Build ItemId := do
  if !isAlignment alignment then usage (.alignmentNotPowerOfTwo alignment)
  append (.align alignment)

def embed (bytes : List UInt8) : Build ItemId := append (.data bytes)

/-- Entry and exit labels of the open function. -/
def functionLabels : Build (LabelId × LabelId) := do
  let record ← getFunction (← current)
  return (record.entryLabel, record.exitLabel)

/-- Close the open function. -/
def endFunction : Build FunctionId := do
  let f ← current
  let record ← getFunction f
  bind record.exitLabel
  let stop ← append (.functionEnd f)
  modifyFunction f ({ · with stop := some stop })
  modify fun s => { s with current := none }
  return f

end Codegen.Builder
