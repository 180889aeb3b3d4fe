/-! Branch conditions and opcodes. -/
namespace Codegen

/-- Branch condition. -/
inductive Condition where
  | e
  | ne
  | l
  | le
  | g
  | ge
  | b
  | be
  | a
  | ae
  | s
  | ns
  | o
  | no
  | p
  | np
  deriving DecidableEq, Repr

/-- Opcodes known to the allocator and the encoders. The widening multiplications and the divisions
take `[hi, lo, source]`, `cpuid` takes `[eax, ebx, ecx, edx]`, `rdtsc` takes `[edx, eax]` and the
string operations take `[rdi, rsi or rax, rcx]`. -/
inductive Opcode where
  | nop
  | mov
  | add
  | sub
  | adc
  | sbb
  | and
  | or
  | xor
  | cmp
  | test
  | imul
  | imulWide
  | mul
  | div
  | idiv
  | neg
  | not
  | inc
  | dec
  | shl
  | shr
  | sar
  | rol
  | ror
  | lea
  | push
  | pop
  | xchg
  | cpuid
  | rdtsc
  | repMovsb
  | repStosb
  | jmp
  | jcc (condition : Condition)
  | call
  | ret
  | leave
  | emms
  | sfence
  | lfence
  | mfence
  | movd
  | movq
  | movss
  | movsd
  | movaps
  | movapd
  | movups
  | movupd
  | movdqa
  | movdqu
  | addss
  | addsd
  | subss
  | subsd
  | mulss
  | mulsd
  | divss
  | divsd
  | sqrtsd
  | addps
  | addpd
  | mulps
  | mulpd
  | xorps
  | xorpd
  | pxor
  | paddd
  | paddq
  | psubd
  | psubq
  | cvtsi2sd
  | cvtsi2ss
  | cvtss2sd
  | cvtsd2ss
  | cvttsd2si
  | ucomisd
  | ucomiss
  deriving DecidableEq, Repr

namespace Opcode

/-- The mnemonic used in statistics and messages. -/
def name : Opcode → String
  | nop => "nop"
  | mov => "mov"
  | add => "add"
  | sub => "sub"
  | adc => "adc"
  | sbb => "sbb"
  | and => "and"
  | or => "or"
  | xor => "xor"
  | cmp => "cmp"
  | test => "test"
  | imul | imulWide => "imul"
  | mul => "mul"
  | div => "div"
  | idiv => "idiv"
  | neg => "neg"
  | not => "not"
  | inc => "inc"
  | dec => "dec"
  | shl => "shl"
  | shr => "shr"
  | sar => "sar"
  | rol => "rol"
  | ror => "ror"
  | lea => "lea"
  | push => "push"
  | pop => "pop"
  | xchg => "xchg"
  | cpuid => "cpuid"
  | rdtsc => "rdtsc"
  | repMovsb => "rep movsb"
  | repStosb => "rep stosb"
  | jmp => "jmp"
  | jcc _ => "jcc"
  | call => "call"
  | ret => "ret"
  | leave => "leave"
  | emms => "emms"
  | sfence => "sfence"
  | lfence => "lfence"
  | mfence => "mfence"
  | movd => "movd"
  | movq => "movq"
  | movss => "movss"
  | movsd => "movsd"
  | movaps => "movaps"
  | movapd => "movapd"
  | movups => "movups"
  | movupd => "movupd"
  | movdqa => "movdqa"
  | movdqu => "movdqu"
  | addss => "addss"
  | addsd => "addsd"
  | subss => "subss"
  | subsd => "subsd"
  | mulss => "mulss"
  | mulsd => "mulsd"
  | divss => "divss"
  | divsd => "divsd"
  | sqrtsd => "sqrtsd"
  | addps => "addps"
  | addpd => "addpd"
  | mulps => "mulps"
  | mulpd => "mulpd"
  | xorps => "xorps"
  | xorpd => "xorpd"
  | pxor => "pxor"
  | paddd => "paddd"
  | paddq => "paddq"
  | psubd => "psubd"
  | psubq => "psubq"
  | cvtsi2sd => "cvtsi2sd"
  | cvtsi2ss => "cvtsi2ss"
  | cvtss2sd => "cvtss2sd"
  | cvtsd2ss => "cvtsd2ss"
  | cvttsd2si => "cvttsd2si"
  | ucomisd => "ucomisd"
  | ucomiss => "ucomiss"

def isJump : Opcode → Bool
  | jmp | jcc _ => true
  | _ => false

/-- Opcodes that only transfer control and are never plain instructions of a program. -/
def isControlFlow : Opcode → Bool
  | jmp | jcc _ | call | ret => true
  | _ => false

/-- `op x, x` writes `x` and does not depend on its old value. -/
def isZeroingIdiom : Opcode → Bool
  | xor | sub | pxor | xorps | xorpd | psubd | psubq => true
  | _ => false

end Opcode

end Codegen
