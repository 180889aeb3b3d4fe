import Codegen.X64.Dispatch

/-! Choosing the machine form of an instruction from its opcode and operands, which are some that the opcode is taken
with. -/
namespace Codegen.X64

/-- What a branch does when it is taken. -/
inductive BranchKind where
  | jmp
  | jcc (condition : Condition)
  | call
  deriving DecidableEq, Repr

/-- Where a branch goes: to the label with a rank among those that are set, or to a fixed 64-bit address. -/
inductive BranchTarget where
  | label (rank : Nat)
  | address (a : Nat)
  deriving DecidableEq, Repr

/-- The form of one instruction. -/
inductive Form where
  | machine (m : Machine)
  /-- A branch, whose bytes depend on the distance. -/
  | branch (kind : BranchKind) (target : BranchTarget)
  /-- A form that exists, but not in 64-bit code: taken here, and refused when code is produced. -/
  | refused
  deriving DecidableEq, Repr

/-- The result of choosing a form. -/
abbrev Choice := Except EncodingError Form

def unencodable {α : Type} : Except EncodingError α := .error (.assembly .unencodable)

/-- An immediate field of one byte, signed or unsigned. -/
def byteField (v : Int) : Except EncodingError Immediate :=
  if -128 ≤ v ∧ v ≤ 255 then .ok ⟨1, v⟩ else unencodable

/-- An immediate field of two bytes, signed or unsigned. -/
def wordField (v : Int) : Except EncodingError Immediate :=
  if -32768 ≤ v ∧ v ≤ 65535 then .ok ⟨2, v⟩ else unencodable

/-- The full immediate field of a width. A 64-bit operation extends four bytes. -/
def fullField (w : Width) (v : Int) : Except EncodingError Immediate :=
  match w with
  | .w8 => byteField v
  | .w16 => wordField v
  | .w32 | .w64 => .ok ⟨4, v⟩

/-- An instruction of a width without operands, from which the others are made. The opcode is that
of the 8-bit form; the other widths have the next one. -/
def sized (w : Width) (opcode : UInt8) : Machine where
  operand16 := w = .w16
  rexW := w = .w64
  opcode := [if w = .w8 then opcode else opcode + 1]

/-- Is this a byte register that only a REX byte can name? -/
def isLowByte (w : Width) (index : Nat) : Bool := w = .w8 && 4 ≤ index && index < 8

/-- An instruction of a width on an operand and a register. -/
def regRm (w : Width) (opcode : UInt8) (reg : Nat) (rm : Rm) : Machine :=
  let low := match rm with
    | .reg index => isLowByte w index
    | .mem _ => false
  { sized w opcode with needsRex := isLowByte w reg || low, modrm := some (reg, rm) }

/-- An instruction of a width on one operand; `digit` is part of the opcode. -/
def digitRm (w : Width) (opcode : UInt8) (digit : Nat) (rm : Rm) : Machine :=
  let low := match rm with
    | .reg index => isLowByte w index
    | .mem _ => false
  { sized w opcode with needsRex := low, modrm := some (digit, rm) }

/-- The width of a memory operand that nothing else gives. -/
def memWidth (a : Address) : Except EncodingError Width :=
  match Width.ofBytes? a.size with
  | some w => .ok w
  | none => unencodable

def ok (m : Machine) : Choice := .ok (.machine m)

/-- The arithmetic operation with number `n` and an immediate on an operand other than the
accumulator. -/
def arithImm (n : Nat) (w : Width) (rm : Rm) (v : Int) : Choice := do
  if w ≠ .w8 && fitsInt8 v then
    return .machine { digitRm w 0x82 n rm with imm := some ⟨1, v⟩ }
  let field ← fullField w v
  return .machine { digitRm w 0x80 n rm with imm := some field }

/-- The arithmetic operation with number `n`. -/
def arith (n : Nat) (args : List (Arg BranchTarget)) : Choice :=
  let base := UInt8.ofNat (8 * n)
  match args with
  | [.gp w d, .gp _ s] => ok (regRm w base s (.reg d))
  | [.gp w d, .mem a] => ok (regRm w (base + 2) d (.mem a))
  | [.mem a, .gp w s] => ok (regRm w base s (.mem a))
  | [.gp w d, .imm v] =>
    if d = 0 then do
      let field ← fullField w v
      ok { sized w (base + 4) with imm := some field }
    else arithImm n w (.reg d) v
  | [.mem a, .imm v] => do arithImm n (← memWidth a) (.mem a) v
  | _ => unencodable

def mov (args : List (Arg BranchTarget)) : Choice :=
  match args with
  | [.gp w d, .gp _ s] => ok (regRm w 0x88 s (.reg d))
  | [.gp w d, .mem a] => ok (regRm w 0x8A d (.mem a))
  | [.mem a, .gp w s] => ok (regRm w 0x88 s (.mem a))
  | [.gp .w64 d, .imm v] => ok { rexW := true, opcode := [0xB8], opcodeReg := some d, imm := some ⟨8, v⟩ }
  | [.gp .w8 d, .imm v] => do
    let field ← byteField v
    ok { needsRex := isLowByte .w8 d, opcode := [0xB0], opcodeReg := some d, imm := some field }
  | [.gp w d, .imm v] => do
    let field ← fullField w v
    ok { operand16 := w = .w16, opcode := [0xB8], opcodeReg := some d, imm := some field }
  | [.mem a, .imm v] => do
    let w ← memWidth a
    let field ← fullField w v
    ok { digitRm w 0xC6 0 (.mem a) with imm := some field }
  | _ => unencodable

/-- Two operands of one width whose order does not matter. -/
def commutative (opcode : UInt8) (args : List (Arg BranchTarget)) : Choice :=
  match args with
  | [.gp w d, .gp _ s] => ok (regRm w opcode s (.reg d))
  | [.mem a, .gp w s] => ok (regRm w opcode s (.mem a))
  | _ => unencodable

def test (args : List (Arg BranchTarget)) : Choice :=
  match args with
  | [.gp w d, .imm v] => do
    let field ← fullField w v
    if d = 0 then ok { sized w 0xA8 with imm := some field }
    else ok { digitRm w 0xF6 0 (.reg d) with imm := some field }
  | [.mem a, .imm v] => do
    let w ← memWidth a
    let field ← fullField w v
    ok { digitRm w 0xF6 0 (.mem a) with imm := some field }
  | _ => commutative 0x84 args

def xchg (args : List (Arg BranchTarget)) : Choice :=
  match args with
  | [.gp w d, .gp _ s] =>
    if w ≠ .w8 && s = 0 then
      ok { sized w 0x8F with opcodeReg := some d }
    else commutative 0x86 args
  | _ => commutative 0x86 args

/-- One operand. -/
def unary (opcode : UInt8) (digit : Nat) (args : List (Arg BranchTarget)) : Choice :=
  match args with
  | [.gp w d] => ok (digitRm w opcode digit (.reg d))
  | [.mem a] => do ok (digitRm (← memWidth a) opcode digit (.mem a))
  | _ => unencodable

/-- A shift by a constant. -/
def shiftImm (digit : Nat) (w : Width) (rm : Rm) (v : Int) : Choice :=
  if v = 1 then ok (digitRm w 0xD0 digit rm)
  else do
    let field ← byteField v
    ok { digitRm w 0xC0 digit rm with imm := some field }

def shift (digit : Nat) (args : List (Arg BranchTarget)) : Choice :=
  match args with
  | [.gp w d, .imm v] => shiftImm digit w (.reg d) v
  | [.mem a, .imm v] => do shiftImm digit (← memWidth a) (.mem a) v
  | [.gp w d, .gp _ _] => ok (digitRm w 0xD2 digit (.reg d))
  | [.mem a, .gp _ _] => do ok (digitRm (← memWidth a) 0xD2 digit (.mem a))
  | _ => unencodable

/-- A multiplication with a constant. -/
def imulImm (w : Width) (d : Nat) (rm : Rm) (v : Int) : Choice :=
  let m : Machine := { rexW := w = .w64, opcode := [0x69], modrm := some (d, rm) }
  if fitsInt8 v then ok { m with opcode := [0x6B], imm := some ⟨1, v⟩ }
  else ok { m with imm := some ⟨4, v⟩ }

def imul (args : List (Arg BranchTarget)) : Choice :=
  let two := fun (w : Width) (d : Nat) (rm : Rm) =>
    ok { operand16 := w = .w16, rexW := w = .w64, opcode := [0x0F, 0xAF], modrm := some (d, rm) }
  match args with
  | [.gp w d, .gp _ s] => two w d (.reg s)
  | [.gp w d, .mem a] => two w d (.mem a)
  | [.gp w d, .gp _ s, .imm v] => imulImm w d (.reg s) v
  | [.gp w d, .mem a, .imm v] => imulImm w d (.mem a) v
  | _ => unencodable

def lea (args : List (Arg BranchTarget)) : Choice :=
  match args with
  | [.gp w d, .mem a] => ok { rexW := w = .w64, opcode := [0x8D], modrm := some (d, .mem a) }
  | _ => unencodable

/-- An instruction on a memory operand that is 64 bits wide by default. The 32-bit form does not
exist in 64-bit code. -/
def default64 (opcode : UInt8) (digit : Nat) (a : Address) : Choice :=
  match a.size with
  | 8 => ok { opcode := [opcode], modrm := some (digit, .mem a) }
  | 2 => ok { operand16 := true, opcode := [opcode], modrm := some (digit, .mem a) }
  | 4 => .ok .refused
  | _ => unencodable

def push (args : List (Arg BranchTarget)) : Choice :=
  match args with
  | [.gp _ r] => ok { opcode := [0x50], opcodeReg := some r }
  | [.mem a] => default64 0xFF 6 a
  | [.imm v] =>
    if fitsInt8 v then ok { opcode := [0x6A], imm := some ⟨1, v⟩ }
    else ok { opcode := [0x68], imm := some ⟨4, v⟩ }
  | _ => unencodable

def pop (args : List (Arg BranchTarget)) : Choice :=
  match args with
  | [.gp _ r] => ok { opcode := [0x58], opcodeReg := some r }
  | [.mem a] => default64 0x8F 0 a
  | _ => unencodable

/-- A jump or call. -/
def transfer (kind : BranchKind) (digit : Nat) (args : List (Arg BranchTarget)) : Choice :=
  match args with
  | [.label target] => .ok (.branch kind target)
  | [.gp _ r] => ok { opcode := [0xFF], modrm := some (digit, .reg r) }
  | [.mem a] => default64 0xFF digit a
  | [.imm v] => .ok (.branch kind (.address v.toNat))
  | _ => unencodable

def ret (args : List (Arg BranchTarget)) : Choice :=
  match args with
  | [] => ok { opcode := [0xC3] }
  | [.imm v] => do
    let field ← wordField v
    ok { opcode := [0xC2], imm := some field }
  | _ => unencodable

/-- An instruction of the two-byte opcodes. -/
def twoByte (lead : Option UInt8) (opcode : UInt8) (reg : Nat) (rm : Rm) : Machine where
  lead := lead
  opcode := [0x0F, opcode]
  modrm := some (reg, rm)

/-- The same with a 64-bit integer operand. -/
def twoByte64 (lead : Option UInt8) (opcode : UInt8) (reg : Nat) (rm : Rm) : Machine :=
  { twoByte lead opcode reg rm with rexW := true }

/-- A vector operation on a register and a register or memory. -/
def sse (lead : Option UInt8) (opcode : UInt8) (args : List (Arg BranchTarget)) : Choice :=
  match args with
  | [.xmm d, .xmm s] => ok (twoByte lead opcode d (.reg s))
  | [.xmm d, .mem a] => ok (twoByte lead opcode d (.mem a))
  | _ => unencodable

/-- A vector move, which also stores. -/
def sseMove (lead : Option UInt8) (load store : UInt8) (args : List (Arg BranchTarget)) : Choice :=
  match args with
  | [.mem a, .xmm s] => ok (twoByte lead store s (.mem a))
  | _ => sse lead load args

/-- An integer operation on the registers of both vector classes. -/
def packed (opcode : UInt8) (args : List (Arg BranchTarget)) : Choice :=
  match args with
  | [.mm d, .mm s] => ok (twoByte none opcode d (.reg s))
  | [.mm d, .mem a] => ok (twoByte none opcode d (.mem a))
  | _ => sse (some 0x66) opcode args

/-- Conversion of an integer to a float. -/
def intToFloat (lead : UInt8) (args : List (Arg BranchTarget)) : Choice :=
  match args with
  | [.xmm d, .gp .w64 s] => ok (twoByte64 (some lead) 0x2A d (.reg s))
  | [.xmm d, .gp .w32 s] => ok (twoByte (some lead) 0x2A d (.reg s))
  | [.xmm d, .mem a] =>
    match a.size with
    | 8 => ok (twoByte64 (some lead) 0x2A d (.mem a))
    | 4 => ok (twoByte (some lead) 0x2A d (.mem a))
    | _ => unencodable
  | _ => unencodable

def cvttsd2si (args : List (Arg BranchTarget)) : Choice :=
  match args with
  | [.gp .w64 d, .xmm s] => ok (twoByte64 (some 0xF2) 0x2C d (.reg s))
  | [.gp .w32 d, .xmm s] => ok (twoByte (some 0xF2) 0x2C d (.reg s))
  | [.gp .w64 d, .mem a] => ok (twoByte64 (some 0xF2) 0x2C d (.mem a))
  | [.gp .w32 d, .mem a] => ok (twoByte (some 0xF2) 0x2C d (.mem a))
  | _ => unencodable

def movd (args : List (Arg BranchTarget)) : Choice :=
  match args with
  | [.xmm d, .gp .w32 s] => ok (twoByte (some 0x66) 0x6E d (.reg s))
  | [.gp .w32 d, .xmm s] => ok (twoByte (some 0x66) 0x7E s (.reg d))
  | [.xmm d, .mem a] => ok (twoByte (some 0x66) 0x6E d (.mem a))
  | [.mem a, .xmm s] => ok (twoByte (some 0x66) 0x7E s (.mem a))
  | [.mm d, .gp .w32 s] => ok (twoByte none 0x6E d (.reg s))
  | [.gp .w32 d, .mm s] => ok (twoByte none 0x7E s (.reg d))
  | [.mm d, .mem a] => ok (twoByte none 0x6E d (.mem a))
  | [.mem a, .mm s] => ok (twoByte none 0x7E s (.mem a))
  | _ => unencodable

def movq (args : List (Arg BranchTarget)) : Choice :=
  match args with
  | [.xmm d, .xmm s] => ok (twoByte (some 0xF3) 0x7E d (.reg s))
  | [.xmm d, .gp .w64 s] => ok (twoByte64 (some 0x66) 0x6E d (.reg s))
  | [.gp .w64 d, .xmm s] => ok (twoByte64 (some 0x66) 0x7E s (.reg d))
  | [.xmm d, .mem a] => ok (twoByte (some 0xF3) 0x7E d (.mem a))
  | [.mem a, .xmm s] => ok (twoByte (some 0x66) 0xD6 s (.mem a))
  | [.mm d, .mm s] => ok (twoByte none 0x6F d (.reg s))
  | [.mm d, .gp .w64 s] => ok (twoByte64 none 0x6E d (.reg s))
  | [.gp .w64 d, .mm s] => ok (twoByte64 none 0x7E s (.reg d))
  | [.mm d, .mem a] => ok (twoByte none 0x6F d (.mem a))
  | [.mem a, .mm s] => ok (twoByte none 0x7F s (.mem a))
  | _ => unencodable

/-- The form of an instruction. -/
def select (op : Opcode) (args : List (Arg BranchTarget)) : Choice :=
  match op with
  | .nop => ok { opcode := [0x90] }
  | .mov => mov args
  | .add => arith 0 args
  | .or => arith 1 args
  | .adc => arith 2 args
  | .sbb => arith 3 args
  | .and => arith 4 args
  | .sub => arith 5 args
  | .xor => arith 6 args
  | .cmp => arith 7 args
  | .test => test args
  | .xchg => xchg args
  | .imul => imul args
  | .inc => unary 0xFE 0 args
  | .dec => unary 0xFE 1 args
  | .not => unary 0xF6 2 args
  | .neg => unary 0xF6 3 args
  | .mul => unary 0xF6 4 args
  | .imulWide => unary 0xF6 5 args
  | .div => unary 0xF6 6 args
  | .idiv => unary 0xF6 7 args
  | .rol => shift 0 args
  | .ror => shift 1 args
  | .shl => shift 4 args
  | .shr => shift 5 args
  | .sar => shift 7 args
  | .lea => lea args
  | .push => push args
  | .pop => pop args
  | .cpuid => ok { opcode := [0x0F, 0xA2] }
  | .rdtsc => ok { opcode := [0x0F, 0x31] }
  | .repMovsb => ok { lead := some 0xF3, opcode := [0xA4] }
  | .repStosb => ok { lead := some 0xF3, opcode := [0xAA] }
  | .jmp => transfer .jmp 4 args
  | .jcc condition =>
    match args with
    | [.label target] => .ok (.branch (.jcc condition) target)
    | _ => unencodable
  | .call => transfer .call 2 args
  | .ret => ret args
  | .leave => ok { opcode := [0xC9] }
  | .emms => ok { opcode := [0x0F, 0x77] }
  | .sfence => ok { opcode := [0x0F, 0xAE, 0xF8] }
  | .lfence => ok { opcode := [0x0F, 0xAE, 0xE8] }
  | .mfence => ok { opcode := [0x0F, 0xAE, 0xF0] }
  | .movd => movd args
  | .movq => movq args
  | .movss => sseMove (some 0xF3) 0x10 0x11 args
  | .movsd => sseMove (some 0xF2) 0x10 0x11 args
  | .movups => sseMove none 0x10 0x11 args
  | .movupd => sseMove (some 0x66) 0x10 0x11 args
  | .movaps => sseMove none 0x28 0x29 args
  | .movapd => sseMove (some 0x66) 0x28 0x29 args
  | .movdqa => sseMove (some 0x66) 0x6F 0x7F args
  | .movdqu => sseMove (some 0xF3) 0x6F 0x7F args
  | .addss => sse (some 0xF3) 0x58 args
  | .addsd => sse (some 0xF2) 0x58 args
  | .addps => sse none 0x58 args
  | .addpd => sse (some 0x66) 0x58 args
  | .mulss => sse (some 0xF3) 0x59 args
  | .mulsd => sse (some 0xF2) 0x59 args
  | .mulps => sse none 0x59 args
  | .mulpd => sse (some 0x66) 0x59 args
  | .subss => sse (some 0xF3) 0x5C args
  | .subsd => sse (some 0xF2) 0x5C args
  | .divss => sse (some 0xF3) 0x5E args
  | .divsd => sse (some 0xF2) 0x5E args
  | .sqrtsd => sse (some 0xF2) 0x51 args
  | .xorps => sse none 0x57 args
  | .xorpd => sse (some 0x66) 0x57 args
  | .cvtss2sd => sse (some 0xF3) 0x5A args
  | .cvtsd2ss => sse (some 0xF2) 0x5A args
  | .ucomisd => sse (some 0x66) 0x2E args
  | .ucomiss => sse none 0x2E args
  | .pxor => packed 0xEF args
  | .paddd => packed 0xFE args
  | .paddq => packed 0xD4 args
  | .psubd => packed 0xFA args
  | .psubq => packed 0xFB args
  | .cvtsi2sd => intToFloat 0xF2 args
  | .cvtsi2ss => intToFloat 0xF3 args
  | .cvttsd2si => cvttsd2si args

end Codegen.X64
