import Codegen.Lowering.Instruction
import Codegen.Lowering.ParallelCopy
import Codegen.Lowering.Return

/-! Calls: save what the callee may overwrite, pass the arguments, and take the results. -/
namespace Codegen

/-- Where the value for a register argument comes from when it is in no register. -/
inductive ArgSource where
  | home (v : VarId)
  | imm (value : Int)
  deriving DecidableEq, Repr

/-- A register argument that is loaded. -/
structure ArgLoad where
  dst : Reg
  source : ArgSource
  deriving DecidableEq, Repr

namespace Session

/-- The occupied registers that a call with this prototype overwrites, in order. -/
def clobbered (s : Session) (p : Prototype) (cls : RegClass) : List Nat :=
  ((s.ctx.registers.used cls).diff (p.preserved.get cls)).toList

end Session

namespace Build

/-- Visit the variables in the registers that a call overwrites. -/
def forClobbered (p : Prototype) (f : VarId → Build Unit) : Build Unit :=
  RegClass.all.forM fun cls => do
    ((← get).clobbered p cls).forM fun index => do
      match (← get).ctx.registers.occupant ⟨cls, index⟩ with
      | some v => f v
      | none => pure ()

/-- Move a variable that the call does not use out of the way. The old value of a variable that
receives a result is not needed. -/
def clearForCall (used returns : List VarId) (v : VarId) : Build Unit :=
  if used.contains v then pure ()
  else if returns.contains v then unuseVar v .unused
  else spillVar v

/-- A free register to pass a stack argument through, if possible one that the call overwrites
anyway and that passes no argument. -/
def callScratch (cls : RegClass) (p : Prototype) : Build Reg := do
  let free := (← get).ctx.freeRegs cls
  let best := (free.diff (p.preserved.get cls)).diff (p.passed.get cls)
  match best.first?.orElse fun _ => free.first? with
  | some index =>
    markModified ⟨cls, index⟩
    return ⟨cls, index⟩
  | none => throw .notEnoughRegisters

/-- The instruction that stores a stack argument. Cells are only aligned to 8 bytes. -/
def stackStore (ty : VarType) : Opcode := if ty.size = 16 then .movups else ty.moveOpcode

/-- Does the value fit a sign-extended 32-bit immediate? -/
def fitsInt32 (value : Int) : Bool := -2147483648 ≤ value && value ≤ 2147483647

/-- Store one argument into its cell. -/
def passOnStack (p : Prototype) (operand : Operand) (ty : VarType) (offset : Nat) : Build Unit := do
  let dst : Operand := .mem (.atReg (.gp Gp.rsp) offset ty.size)
  match operand with
  | .var ref =>
    let v ← getVar ref.id
    match v.currentReg with
    | some r => emitAll [⟨stackStore ty, [dst, v.regOperand r.index]⟩]
    | none =>
      if v.state = .memory then
        let scratch ← callScratch v.cls p
        let tmp : Operand := .ofReg scratch v.ty.regSize
        let home ← homeOperand v.id
        emitAll [⟨v.ty.moveOpcode, [tmp, home]⟩, ⟨stackStore ty, [dst, tmp]⟩]
  | .imm value =>
    if fitsInt32 value then emitAll [⟨.mov, [dst, .imm value]⟩]
    else
      let scratch ← callScratch .gp p
      emitAll [⟨.mov, [.gpq scratch.index, .imm value]⟩, ⟨.mov, [dst, .gpq scratch.index]⟩]
  | .reg r => emitAll [⟨stackStore ty, [dst, .ofReg r.reg ty.regSize]⟩]
  | .mem _ => throw (.unsupported .callArgument)
  | .label _ => throw (.unsupported .callArgument)

/-- Store the arguments that go on the stack. -/
def passStackArgs (p : Prototype) (args : List Operand) : Build Unit :=
  (args.zip p.args).forM fun (operand, info) =>
    match info.location with
    | .stack offset => passOnStack p operand info.ty offset
    | .register _ => pure ()

/-- Bring the target of a call into registers that pass no argument. -/
def placeCallTarget (p : Prototype) (target : Operand) : Build Operand := do
  let mask := ((← get).ctx.allocable .gp).diff p.passed.gp
  target.registerVars.forM fun v => allocVar v mask .read
  match ← resolveOperand target with
  | .reg r => return .gpq r.reg.index
  | operand => return operand

/-- Store a value that is needed behind the call. -/
def saveForCall (id : ItemId) (var : VarId) : Build Unit := do
  let v ← getVar var
  if v.changed && v.lastItem ≠ some id then saveVar var

/-- How the register arguments get to their registers: by moves between registers, which happen at
once, and then by loads. -/
def registerArgs : List (Operand × ArgumentInfo) → Build (List RegMove × List ArgLoad)
  | [] => return ([], [])
  | (operand, info) :: rest => do
    match info.location with
    | .stack _ => registerArgs rest
    | .register dst =>
      let fromReg := fun (src : Reg) => do
        let (moves, loads) ← registerArgs rest
        return (if src = dst then moves else ⟨dst, src⟩ :: moves, loads)
      let load := fun (source : ArgSource) => do
        let (moves, loads) ← registerArgs rest
        return (moves, ⟨dst, source⟩ :: loads)
      match operand with
      | .var ref =>
        let v ← getVar ref.id
        if v.cls ≠ dst.cls then usage (.notPassableIn v.id dst)
        match v.currentReg with
        | some r => fromReg r
        | none => if v.state = .memory then load (.home v.id) else registerArgs rest
      | .imm value => load (.imm value)
      | .reg r => fromReg r.reg
      | .mem _ => throw (.unsupported .callArgument)
      | .label _ => throw (.unsupported .callArgument)

def emitCopyStep : CopyStep → Build Unit
  | .copy dst src => emitRegCopy dst src
  | .swap a b => do
    let size := a.cls.copyOpcode.2
    emitSwap a.cls (.ofReg a size) (.ofReg b size) a.index b.index
    markModified a
    markModified b

def emitArgLoad (l : ArgLoad) : Build Unit := do
  markModified l.dst
  match l.source with
  | .home id =>
    let v ← getVar id
    let home ← homeOperand id
    emitAll [⟨v.ty.moveOpcode, [.ofReg l.dst v.ty.regSize, home]⟩]
  | .imm value =>
    if l.dst.cls ≠ .gp then usage .immediateArgumentNeedsGp
    emitAll [⟨.mov, [.gpq l.dst.index, .imm value]⟩]

/-- The registers that a call overwrites hold nothing behind it. -/
def dropForCall (id : ItemId) (var : VarId) : Build Unit := do
  unuseVar var (if (← getVar var).lastItem = some id then .unused else .memory)

/-- A variable takes the register of a result. -/
def receiveResult (var : VarId) (r : Reg) : Build Unit := do
  if (← getVar var).cls ≠ r.cls then usage (.cannotReceive var r)
  allocVar var (.single r.index) .write

def translateCall (id : ItemId) (c : CallItem) : Build (Option ItemId) := do
  let p ← getPrototype c.prototype
  if c.args.length ≠ p.args.length then usage (.callArgumentCount c.args.length p.args.length)
  let used := c.args.filterMap Operand.var? ++ c.target.registerVars
  (used ++ c.returns).forM claimVar
  forClobbered p (clearForCall used c.returns)
  passStackArgs p c.args
  let target ← placeCallTarget p c.target
  forClobbered p (saveForCall id)
  let (moves, loads) ← registerArgs (c.args.zip p.args)
  (RegMove.steps moves).forM emitCopyStep
  loads.forM emitArgLoad
  forClobbered p (dropForCall id)
  emitAll [⟨.call, [target]⟩]
  if p.calleePopsStack && 0 < p.argsStackSize then
    emitAll [⟨.sub, [.gpq Gp.rsp, .imm p.argsStackSize]⟩]
  (c.returns.zip p.returns).forM fun (var, (_, r)) => receiveResult var r
  retireActiveAt id
  return (← get).items.next? id

end Build

end Codegen
