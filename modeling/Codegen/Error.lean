import Codegen.Variable.Type

/-! Everything that can go wrong, as causes, with one function for the texts. -/
namespace Codegen

/-- Why an assembler refuses a request. -/
inductive AssemblyFault where
  | undefinedLabel (l : LabelId)
  | reboundLabel (l : LabelId)
  | alignmentNotPowerOfTwo (alignment : Nat)
  | paddingUnstable
  /-- The instruction has no machine form with these values. -/
  | unencodable
  deriving DecidableEq, Repr

def AssemblyFault.text : AssemblyFault → String
  | undefinedLabel l => "label " ++ toString l.index ++ " is not defined"
  | reboundLabel l => "label " ++ toString l.index ++ " bound twice"
  | alignmentNotPowerOfTwo a => "alignment " ++ toString a ++ " is not a power of two"
  | paddingUnstable => "alignment padding did not converge"
  | unencodable => "instruction cannot be encoded"

/-- Failures of an encoder. -/
inductive EncodingError where
  | invalidRegister
  | unsupportedInstruction
  | assembly (fault : AssemblyFault)
  | invalidMemoryOperand
  | unresolvedOperand
  deriving DecidableEq, Repr

def EncodingError.message : EncodingError → String
  | invalidRegister => "Invalid register for operation"
  | unsupportedInstruction => "Unsupported instruction or operand combination"
  | assembly fault => "Assembly error: " ++ fault.text
  | invalidMemoryOperand => "Invalid memory operand"
  | unresolvedOperand => "Operand was not resolved"

/-- Requests that make no sense in the state they are made in. -/
inductive Misuse where
  | unknownItem (i : ItemId)
  | unknownFunction (f : FunctionId)
  | unknownPrototype (p : PrototypeId)
  | anchorNotLinked
  | itemNotLinked
  | foreignVariable (v : VarId)
  | noArgument (index : Nat)
  | controlFlowOpcode (op : Opcode)
  | labelAlreadyBound (l : LabelId)
  | labelWithoutTarget
  | tooManyReturns
  | argumentCount (expected given : Nat)
  | returnCount (available requested : Nat)
  | wrongRegisterClass (r : Reg) (v : VarId)
  | alignmentNotPowerOfTwo (alignment : Nat)
  | noAllocableRegister (v : VarId)
  | candidateWithoutRegister
  | exchangeWithoutRegister
  | moveWithoutRegister
  | saveWithoutRegister
  | spillWithoutRegister (v : VarId)
  | twoFixedRegisters (v : VarId)
  | registerAndHome (v : VarId)
  | needsGpVariable (op : Opcode)
  | notInRegister (v : VarId)
  | addressNotInRegister (v : VarId)
  | addressNotGp (v : VarId)
  | targetRemoved (l : LabelId)
  | notAJump
  | targetWithoutState
  | noReconciliationBlock
  | jumpWithoutState
  | translatedTargetWithoutState
  | argumentWithoutRegister
  | functionReturnCount (available given : Nat)
  | notReturnableIn (v : VarId) (r : Reg)
  | immediateReturnNeedsGp
  | cannotCopy (src dst : Reg)
  | callArgumentCount (given expected : Nat)
  | notPassableIn (v : VarId) (r : Reg)
  | immediateArgumentNeedsGp
  | cannotReceive (v : VarId) (r : Reg)
  | slotNotLaidOut
  | homeNotBound (v : VarId)
  deriving DecidableEq, Repr

def Misuse.text : Misuse → String
  | unknownItem i => "unknown item " ++ toString i.index
  | unknownFunction f => "unknown function " ++ toString f.index
  | unknownPrototype p => "unknown prototype " ++ toString p.index
  | anchorNotLinked => "anchor item is not linked"
  | itemNotLinked => "item is not linked"
  | foreignVariable v => "variable " ++ toString v.index ++ " belongs to another function"
  | noArgument i => "function has no argument " ++ toString i
  | controlFlowOpcode op => op.name ++ " is emitted through the control flow builder methods"
  | labelAlreadyBound l => "label " ++ toString l.index ++ " is already bound"
  | labelWithoutTarget => "label is not bound to a target"
  | tooManyReturns => "at most two values can be returned"
  | argumentCount expected given =>
    "prototype takes " ++ toString expected ++ " arguments, " ++ toString given ++ " given"
  | returnCount available requested =>
    "prototype returns " ++ toString available ++ " values, " ++ toString requested ++ " requested"
  | wrongRegisterClass r v => r.describe ++ " cannot hold variable " ++ toString v.index
  | alignmentNotPowerOfTwo a => "alignment " ++ toString a ++ " is not a power of two"
  | noAllocableRegister v =>
    "no allocable register satisfies the request for variable " ++ toString v.index
  | candidateWithoutRegister => "spill candidate has no register"
  | exchangeWithoutRegister => "exchanging a variable without register"
  | moveWithoutRegister => "moving a variable without register"
  | saveWithoutRegister => "saving a variable that is not in a register"
  | spillWithoutRegister v =>
    "spilling variable " ++ toString v.index ++ " that is not in a register"
  | twoFixedRegisters v => "variable " ++ toString v.index ++ " is bound to two fixed registers"
  | registerAndHome v =>
    "variable " ++ toString v.index ++ " is used both in a register and in its home in one instruction"
  | needsGpVariable op => op.name ++ " needs a general purpose variable"
  | notInRegister v => "variable " ++ toString v.index ++ " is not in a register"
  | addressNotInRegister v => "address variable " ++ toString v.index ++ " is not in a register"
  | addressNotGp v =>
    "address variable " ++ toString v.index ++ " is not a general purpose variable"
  | targetRemoved l =>
    "jump to label " ++ toString l.index ++ " whose code was removed as unreachable"
  | notAJump => "not a jump"
  | targetWithoutState => "jump target has no state"
  | noReconciliationBlock => "no block for reconciliation code"
  | jumpWithoutState => "jump was not translated"
  | translatedTargetWithoutState => "translated target has no state"
  | argumentWithoutRegister => "register argument without register"
  | functionReturnCount available given =>
    "function returns " ++ toString available ++ " values, " ++ toString given ++ " given"
  | notReturnableIn v r =>
    "variable " ++ toString v.index ++ " cannot be returned in " ++ r.describe
  | immediateReturnNeedsGp => "immediate return value needs a GP register"
  | cannotCopy src dst => "cannot copy " ++ src.describe ++ " into " ++ dst.describe
  | callArgumentCount given expected =>
    "call passes " ++ toString given ++ " arguments to a prototype taking " ++ toString expected
  | notPassableIn v r => "variable " ++ toString v.index ++ " cannot be passed in " ++ r.describe
  | immediateArgumentNeedsGp => "immediate argument needs a GP register"
  | cannotReceive v r =>
    "variable " ++ toString v.index ++ " cannot receive a value returned in " ++ r.describe
  | slotNotLaidOut => "spill slot was not laid out"
  | homeNotBound v => "home of variable " ++ toString v.index ++ " was never bound"

/-- Requests that the target machine has no answer to. -/
inductive Unsupported where
  | variableType (t : VarType)
  | argumentType (t : VarType)
  | returnType (t : VarType) (index : Nat)
  | callArgument
  | returnValue
  deriving DecidableEq, Repr

def Unsupported.text : Unsupported → String
  | variableType t => t.name ++ " variables"
  | argumentType t => t.name ++ " arguments"
  | returnType t index => t.name ++ " return value #" ++ toString index
  | callArgument => "memory and label call arguments"
  | returnValue => "memory and label return values"

/-- Failures of building and compiling a program. -/
inductive Error where
  | usage (reason : Misuse)
  | unknownVariable (v : VarId)
  | unknownLabel (l : LabelId)
  | itemAlreadyLinked
  | alreadyTranslated
  | noFunction
  | functionInProgress
  | notEnoughRegisters
  | incompleteFunction
  | unsupported (what : Unsupported)
  | nakedAlignment
  /-- The control flow of a function was not exhausted within the bound of the walk. -/
  | unfinishedWalk
  | encoding (e : EncodingError)
  deriving DecidableEq, Repr

def Error.message : Error → String
  | usage reason => "Usage error: " ++ reason.text
  | unknownVariable v => "Unknown variable: " ++ toString v.index
  | unknownLabel l => "Unknown label: " ++ toString l.index
  | itemAlreadyLinked => "Item is already linked into the graph"
  | alreadyTranslated => "Item was already translated"
  | noFunction => "No function is open"
  | functionInProgress => "A function is already open"
  | notEnoughRegisters => "Not enough registers"
  | incompleteFunction => "Function is not finished"
  | unsupported what => "Unsupported: " ++ what.text
  | nakedAlignment => "Naked function can't align stack"
  | unfinishedWalk => "Control flow was not exhausted"
  | encoding e => e.message

end Codegen
