import Codegen.Encoder.Basic
import Codegen.LiveRange
import Codegen.Lowering.Item

/-! Compiling the functions of a program and handing the result to an encoder. -/
namespace Codegen

/-- A session together with the encoder it is handed to. -/
structure Compilation (ε : Type) where
  session : Session
  encoder : ε

/-- Steps of a compilation. As with `Build`, what was done before a failure stays. -/
abbrev Compile (ε : Type) := EStateM Error (Compilation ε)

namespace Build

/-- The address of a home in the frame. Displacements are added as words of 32 bits. -/
def bindHome (frame : FrameLayout) (slots : SlotPool) (m : Mem) : Except Error Mem :=
  match m.home with
  | none => .ok m
  | some (.argument offset) =>
    .ok { m with
      base := some (.reg frame.argsBase)
      disp := (m.disp + (offset + frame.argsBaseOffset)).bmod 4294967296
      home := none }
  | some (.slot slot) =>
    match slots.offset? slot with
    | some offset =>
      .ok { m with
        base := some (.reg frame.varsBase)
        disp := (m.disp + (offset + frame.varsBaseOffset)).bmod 4294967296
        home := none }
    | none => .error (.usage .slotNotLaidOut)
  | some (.var v) => .error (.usage (.homeNotBound v))

def bindOperand (frame : FrameLayout) (slots : SlotPool) : Operand → Except Error Operand
  | .mem m => do return .mem (← bindHome frame slots m)
  | operand => return operand

/-- Replace the homes in an instruction by addresses in the frame. -/
def bindHomes (frame : FrameLayout) (id : ItemId) : Build Unit := do
  match (← getItem id).kind with
  | .instruction i =>
    if i.operands.any Operand.hasHome then
      let slots := (← get).ctx.slots
      let operands ← i.operands.mapM fun o => (bindOperand frame slots o : Build Operand)
      setKind id (.instruction { i with operands })
  | _ => pure ()

/-- Forget the previous function and start with this one. -/
def beginFunction (f : FunctionId) (record : FunctionRecord) (stop : ItemId) (p : Prototype) :
    Build Unit :=
  modify fun s =>
    { s with
      vars := s.vars.clearActive
      ctx :=
        { function := some f
          start := some record.item
          stop := some stop
          extraBlock := some stop
          preserved := p.preserved
          allocableRbp := record.hints.naked } }

/-- Number the items of a function and find the live ranges of its variables. -/
def prepareFunction (f : FunctionId) (record : FunctionRecord) (stop : ItemId) (p : Prototype) :
    Build Unit := do
  beginFunction f record stop p
  ((← get).items.range record.item stop).forM prepareItem

/-- Translate the function along its control flow, then reconcile the jumps that were left. -/
def translateAll (start : ItemId) : Build Unit := do
  modifyContext ({ · with active := true })
  translateFrom (3 * (← get).items.size + 3) (some start)
  reconcileForward (← get).ctx.forwardJumps
  modifyContext ({ · with active := false })

/-- Lay out the spill slots and the frame. -/
def layOutFrame (record : FunctionRecord) (p : Prototype) : Build FrameLayout := do
  let (memBytes, slots) := (← get).ctx.slots.layout
  modifyContext ({ · with slots })
  let s ← get
  return FrameInput.layout
    { hints := record.hints
      isCaller := s.ctx.isCaller
      stackAlignedByOs := s.options.stackAlignedByOs.getD p.stackAlignedByOs
      modified := s.ctx.modified
      preserved := s.ctx.preserved
      callStackSize := s.ctx.callStackSize
      memBytes
      mem16Count := slots.count16
      mem8Count := slots.count8
      redZoneSize := p.redZoneSize
      calleePopsStack := p.calleePopsStack
      argsStackSize := p.argsStackSize
      cpuVendor := s.options.cpuVendor }

/-- Put the prologue behind the entry and the epilogue behind the exit, if the exit is still there. -/
def insertFrameCode (record : FunctionRecord) (frame : FrameLayout) : Build Unit := do
  let comments := (← get).options.emitComments
  let entry ← labelTarget record.entryLabel
  setCursor (some entry)
  if comments then emitComment "prolog"
  if !frame.feasible then throw .nakedAlignment
  emitAll frame.prologue
  let exit ← labelTarget record.exitLabel
  let _ ← getItem exit
  if (← get).items.isLinked exit then
    setCursor (some exit)
    if comments then emitComment "epilog"
    emitAll frame.epilogue

/-- Everything up to handing the function over: the result is the last item of its code, with its
frame. -/
def lowerFunction (f : FunctionId) : Build (ItemId × ItemId × FrameLayout) := do
  let record ← getFunction f
  match record.stop with
  | none => throw .incompleteFunction
  | some stop =>
    let start := record.item
    let p ← getPrototype record.prototype
    prepareFunction f record stop p
    translateAll start
    let frame ← layOutFrame record p
    insertFrameCode record frame
    let s ← get
    let last := s.ctx.extraBlock.getD stop
    (s.items.range start last).forM (bindHomes frame)
    return (start, last, frame)

end Build

namespace Compile
variable {ε : Type} [Encoder ε]

/-- A step on the session alone. -/
def onSession {α : Type} (step : Build α) : Compile ε α := fun c =>
  match step c.session with
  | .ok a session => .ok a { c with session }
  | .error e session => .error e { c with session }

/-- A request to the encoder alone. -/
def onEncoder (request : ε → Except EncodingError ε) : Compile ε Unit := do
  match request (← get).encoder with
  | .ok encoder => modify ({ · with encoder })
  | .error e => throw (.encoding e)

def modifyEncoder (f : ε → ε) : Compile ε Unit := modify fun c => { c with encoder := f c.encoder }

/-- Hand over one instruction and count it. -/
def emitInstruction (opcode : Opcode) (operands : List Operand) : Compile ε Unit := do
  let c ← get
  let (result, encoder) := Encoder.emit c.encoder opcode operands
  set { c with encoder }
  if let .error e := result then throw (.encoding e)
  onSession (Build.modifyStats (·.recordInstruction opcode))

/-- Hand over one item. -/
def emitItem (id : ItemId) : Compile ε Unit := do
  let item ← onSession (Build.getItem id)
  match item.kind with
  | .instruction i =>
    let operands := i.opcode.explicitOperands i.operands
    if !operands.all Operand.isResolved then throw (.encoding .unresolvedOperand)
    emitInstruction i.opcode operands
  | .jump j => emitInstruction j.opcode [.label j.target]
  | .target t => onEncoder (Encoder.markLabel · t.label)
  | .ret r =>
    if r.emitJump then
      let record ← onSession (Build.getFunction r.function)
      emitInstruction .jmp [.label record.exitLabel]
  | .align alignment => onEncoder (Encoder.align · alignment)
  | .comment text =>
    if (← get).session.options.emitComments then modifyEncoder (Encoder.comment · text)
  | .data bytes => onEncoder (Encoder.embed · bytes)
  | .function _ => pure ()
  | .functionEnd _ => pure ()
  | .call _ => pure ()
  | .hint _ => pure ()

/-- A label that code refers to must be bound by now. -/
def checkLabel (l : LabelId) : Compile ε Unit := do
  if !Encoder.isLabelMarked (← get).encoder l then throw (.unknownLabel l)

/-- The labels that an item refers to. -/
def labelsOf : ItemKind → List LabelId
  | .jump j => [j.target]
  | .instruction i => i.operands.filterMap Operand.label?
  | _ => []

def checkItem (id : ItemId) : Compile ε Unit := do
  let item ← onSession (Build.getItem id)
  (labelsOf item.kind).forM checkLabel

/-- Make the labels with these numbers known to the encoder. -/
def defineLabels (first count : Nat) : Compile ε Unit :=
  (List.range' first count).forM fun i => modifyEncoder (Encoder.defineLabel · ⟨i⟩)

/-- Compile one function and hand it over. The result is the last item of its code. -/
def compileFunction (f : FunctionId) : Compile ε ItemId := do
  let known := (← get).session.labelCount
  let (start, last, frame) ← onSession (Build.lowerFunction f)
  defineLabels known ((← get).session.labelCount - known)
  let items := (← get).session.items.range start last
  items.forM emitItem
  items.forM checkItem
  onSession (Build.modifyFunction f ({ · with frame := some frame }))
  let codeSize := Encoder.codeSize (← get).encoder
  onSession (Build.modifyStats fun s =>
    { s with functionsCompiled := s.functionsCompiled + 1, totalCodeSize := codeSize })
  return last

/-- The function that an item opens. -/
def opens? (s : Session) (id : ItemId) : Option FunctionId :=
  match s.items.get? id with
  | some { kind := .function f, .. } => some f
  | _ => none

/-- Hand over the items up to the next function; the result is that function. -/
def emitUntilFunction : List ItemId → Compile ε (Option FunctionId)
  | [] => return none
  | id :: rest => do
    match opens? (← get).session id with
    | some f => return some f
    | none =>
      emitItem id
      emitUntilFunction rest

/-- Hand over a program from some items on. Each round takes the items up to the next function and
then that function, so the number of functions bounds the rounds. -/
def serializeFrom (rounds : Nat) (items : List ItemId) : Compile ε Unit := do
  match ← emitUntilFunction items with
  | none => pure ()
  | some f =>
    match rounds with
    | 0 => throw .unfinishedWalk
    | rounds + 1 =>
      let last ← compileFunction f
      serializeFrom rounds ((← get).session.items.suffixFrom last).tail

/-- Compile every function and hand the whole program to the encoder. -/
def serialize : Compile ε Unit := do
  let s := (← get).session
  if s.current.isSome then throw .incompleteFunction
  defineLabels 0 s.labelCount
  serializeFrom s.functions.size s.items.order

/-- Compile the program and let the encoder finish it. -/
def make : Compile ε (List UInt8) := do
  serialize
  let c ← get
  let (result, encoder) := Encoder.finish c.encoder
  set { c with encoder }
  match result with
  | .ok code => return code
  | .error e => throw (.encoding e)

end Compile

end Codegen
