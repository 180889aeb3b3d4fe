import Codegen.Allocation.Generate

/-! The first walk over a function: number the items, collect the register accesses of each
instruction, and find the first and last item of every variable. -/
namespace Codegen

namespace AllocRecord

/-- Add an access to the records of an instruction, one record for each variable. -/
def add (var : VarId) (access : Access) (fixed : Option Nat) :
    List AllocRecord → Except Error (List AllocRecord)
  | [] => .ok [⟨var, access, fixed⟩]
  | r :: rest =>
    if r.var = var then
      let access := r.access.merge access
      match r.fixed, fixed with
      | some a, some b =>
        if a = b then .ok (⟨var, access, some a⟩ :: rest)
        else .error (.usage (.twoFixedRegisters var))
      | some a, none => .ok (⟨var, access, some a⟩ :: rest)
      | none, fixed => .ok (⟨var, access, fixed⟩ :: rest)
    else do
      let rest ← add var access fixed rest
      return r :: rest

end AllocRecord

namespace Build

/-- Extend the live range of a variable to an item. -/
def touchVar (item : ItemId) (id : VarId) : Build Unit := do
  let f ← compiling
  let v ← getVar id
  if v.function ≠ f then usage (.foreignVariable id)
  modifyVar id fun v => { v with firstItem := v.firstItem.orElse fun _ => some item, lastItem := some item }
  let vars ← (← get).vars.activate id
  modify fun s => { s with vars }

def countReg (id : VarId) (access : Access) : Build Unit :=
  modifyVar id fun v => { v with counts := v.counts.recordReg access }

def countMem (id : VarId) (access : Access) : Build Unit :=
  modifyVar id fun v => { v with counts := v.counts.recordMem access }

/-- Take `index` as the register to try first, if there is none yet. -/
def suggestReg (id : VarId) (index : Nat) : Build Unit :=
  modifyVar id fun v => { v with homeReg := v.homeReg.orElse fun _ => some index }

/-- Is the instruction one that clears the variable that both its operands name? -/
def isZeroing (i : InstructionItem) : Bool :=
  i.opcode.isZeroingIdiom &&
    match i.operands with
    | [.var a, .var b] => a.id == b.id
    | _ => false

/-- The register accesses and home variables of the operands from position `index` on. -/
def collect (i : InstructionItem) (index : Nat) (records : List AllocRecord) (memVars : List VarId) :
    List Operand → Build (List AllocRecord × List VarId)
  | [] => return (records, memVars)
  | operand :: rest => do
    let constraint := i.opcode.constraint index i.operands.length
    match operand with
    | .var v =>
      if isZeroing i && index = 1 then collect i (index + 1) records memVars rest
      else
        let access := if isZeroing i then .write else constraint.access
        let records ← AllocRecord.add v.id access constraint.fixed records
        collect i (index + 1) records memVars rest
    | .mem m =>
      let records ← m.addressVars.foldlM (fun rs v => AllocRecord.add v .read none rs) records
      match m.homeVar with
      | some v =>
        countMem v constraint.access
        let memVars := if memVars.contains v then memVars else memVars ++ [v]
        collect i (index + 1) records memVars rest
      | none => collect i (index + 1) records memVars rest
    | _ => collect i (index + 1) records memVars rest

/-- Account for one register access of an instruction. -/
def prepareRecord (item : ItemId) (i : InstructionItem) (memVars : List VarId) (r : AllocRecord) :
    Build Unit := do
  if memVars.contains r.var then usage (.registerAndHome r.var)
  touchVar item r.var
  countReg r.var r.access
  match r.fixed with
  | some fixed =>
    if (← getVar r.var).cls ≠ .gp then usage (.needsGpVariable i.opcode)
    suggestReg r.var fixed
  | none => pure ()

def prepareInstruction (id : ItemId) (i : InstructionItem) : Build Unit := do
  let (records, memVars) ← collect i 0 [] [] i.operands
  records.forM (prepareRecord id i memVars)
  memVars.forM fun v => do
    touchVar id v
    ensureHome v
  setKind id (.instruction { i with records, memVars })

/-- A jump back keeps a variable alive that is alive at its target. -/
def extendOver (id : ItemId) (target : Nat) (var : VarId) : Build Unit := do
  let s ← get
  let v ← getVar var
  match v.firstItem.bind s.items.offset?, v.lastItem.bind s.items.offset? with
  | some first, some last =>
    if first ≤ target && target ≤ last then modifyVar var ({ · with lastItem := some id })
  | _, _ => pure ()

/-- Decide whether a jump is expected to be taken. Jumps back are, unless the program says
otherwise. -/
def prepareJump (id : ItemId) (j : JumpItem) : Build Unit := do
  let target ← labelTarget j.target
  let s ← get
  let offset := s.items.offset? target
  let taken := match j.hint with
    | .taken => true
    | .notTaken => false
    | .none => j.opcode == .jmp || offset.any (· < s.ctx.currentOffset)
  setKind id (.jump { j with taken })
  match offset with
  | some t => s.vars.active.forM (extendOver id t)
  | none => pure ()

/-- A value that is returned would best be in its return register already. -/
def prepareReturnOperand (id : ItemId) (operand : Operand) (ret : Option (VarType × Reg)) :
    Build Unit :=
  match operand with
  | .var v => do
    touchVar id v.id
    countReg v.id .read
    match ret with
    | some (_, r) => if r.cls = (← getVar v.id).cls then suggestReg v.id r.index
    | none => pure ()
  | _ => pure ()

def prepareReturnFrom (id : ItemId) : List Operand → List (VarType × Reg) → Build Unit
  | [], _ => pure ()
  | operand :: rest, [] => do
    prepareReturnOperand id operand none
    prepareReturnFrom id rest []
  | operand :: rest, ret :: rets => do
    prepareReturnOperand id operand (some ret)
    prepareReturnFrom id rest rets

def prepareReturn (id : ItemId) (r : ReturnItem) : Build Unit := do
  let returns ← (← get).returnsOf r.function
  prepareReturnFrom id r.operands returns

/-- Note the first call that a variable is active at. -/
def noteCall (id : ItemId) (var : VarId) : Build Unit :=
  modifyVar var fun v => { v with firstCall := v.firstCall.orElse fun _ => some id }

def prepareCall (id : ItemId) (c : CallItem) : Build Unit := do
  let prototype ← getPrototype c.prototype
  modifyContext fun ctx =>
    { ctx with
      isCaller := true
      callStackSize := max ctx.callStackSize (alignUp16 prototype.argsStackSize) }
  ((c.args ++ [c.target]).flatMap Operand.registerVars).forM fun v => do
    touchVar id v
    countReg v .read
  c.returns.forM fun v => do
    touchVar id v
    countReg v .write
  (← get).vars.active.forM (noteCall id)

/-- Number an item and account for the variables it touches. Directives, comments, alignments and
data share the number of the item behind them. -/
def prepareItem (id : ItemId) : Build Unit := do
  let offset := (← get).ctx.currentOffset
  modifyItem id ({ · with offset := some offset })
  let step : Build Unit := modifyContext fun c => { c with currentOffset := c.currentOffset + 1 }
  match (← getItem id).kind with
  | .instruction i => do prepareInstruction id i; step
  | .jump j => do prepareJump id j; step
  | .function f => do ((← getFunction f).args).forM (touchVar id); step
  | .ret r => do prepareReturn id r; step
  | .call c => do prepareCall id c; step
  | .target _ => step
  | .functionEnd _ => step
  | .hint h => touchVar id h.var
  | .align _ => pure ()
  | .comment _ => pure ()
  | .data _ => pure ()

end Build

end Codegen
