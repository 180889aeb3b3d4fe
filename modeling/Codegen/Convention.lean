import Codegen.Alignment
import Codegen.Error
import Codegen.Register.Mask

/-! The System V calling convention: where arguments and results go. -/
namespace Codegen

/-- Where an argument is passed. -/
inductive ArgLocation where
  | register (r : Reg)
  /-- Offset of the stack cell from the stack pointer at the call. -/
  | stack (offset : Nat)
  deriving DecidableEq, Repr

/-- Progress of placing arguments: the registers handed out so far and the stack bytes in use. -/
structure Assigner where
  gpCount : Nat := 0
  xmmCount : Nat := 0
  stack : Nat := 0
  deriving DecidableEq, Repr

namespace Assigner

def gpArgRegs : List Nat := [Gp.rdi, Gp.rsi, Gp.rdx, Gp.rcx, Gp.r8, Gp.r9]

def xmmArgRegs : List Nat := [0, 1, 2, 3, 4, 5, 6, 7]

def gpRetRegs : List Nat := [Gp.rax, Gp.rdx]

def xmmRetRegs : List Nat := [0, 1]

/-- Registers that a callee must leave unchanged. -/
def calleeSaved : PerClass RegMask where
  gp := .ofList [Gp.rbx, Gp.rbp, Gp.r12, Gp.r13, Gp.r14, Gp.r15]
  mm := .empty
  xmm := .empty

def calleePopsStack : Bool := false

def stackAlignedByOs : Bool := true

/-- Bytes below the stack pointer that a leaf function may use. -/
def redZoneSize : Nat := 128

/-- The next stack cell, of a multiple of 8 bytes. -/
def assignStack (a : Assigner) (size : Nat) : ArgLocation × Assigner :=
  (.stack a.stack, { a with stack := a.stack + (size + 7) / 8 * 8 })

/-- Place the next argument. -/
def assignArg (a : Assigner) (ty : VarType) : Except Error (ArgLocation × Assigner) :=
  match ty.cls with
  | some .gp =>
    match gpArgRegs[a.gpCount]? with
    | some r => .ok (.register (.gp r), { a with gpCount := a.gpCount + 1 })
    | none => .ok (a.assignStack 8)
  | some .xmm =>
    match xmmArgRegs[a.xmmCount]? with
    | some r => .ok (.register (.xmm r), { a with xmmCount := a.xmmCount + 1 })
    | none => .ok (a.assignStack ty.size)
  | some .mm => .ok (a.assignStack 8)
  | none => .error (.unsupported (.argumentType ty))

/-- Register of the result at this position, if the convention has one. -/
def retReg? (ty : VarType) (index : Nat) : Option Reg :=
  match ty.cls with
  | some .gp => gpRetRegs[index]?.map .gp
  | some .xmm => xmmRetRegs[index]?.map .xmm
  | some .mm => if index = 0 then some (.mm 0) else none
  | none => none

def assignRet (ty : VarType) (index : Nat) : Except Error Reg :=
  match retReg? ty index with
  | some r => .ok r
  | none => .error (.unsupported (.returnType ty index))

/-- Bytes of stack arguments, rounded to 16. -/
def stackSize (a : Assigner) : Nat := alignUp16 a.stack

end Assigner

/-- One placed argument. -/
structure ArgumentInfo where
  ty : VarType
  location : ArgLocation
  deriving DecidableEq, Repr

/-- Placement of the arguments and results of one signature. -/
structure Prototype where
  args : List ArgumentInfo
  returns : List (VarType × Reg)
  /-- Bytes of the outgoing stack arguments, a multiple of 16. -/
  argsStackSize : Nat
  preserved : PerClass RegMask
  /-- Registers that carry arguments. -/
  passed : PerClass RegMask
  calleePopsStack : Bool
  stackAlignedByOs : Bool
  redZoneSize : Nat
  deriving DecidableEq, Repr

namespace Assigner

/-- Place arguments from left to right. -/
def assignArgs (a : Assigner) : List VarType → Except Error (List ArgumentInfo) × Assigner
  | [] => (.ok [], a)
  | ty :: rest =>
    match a.assignArg ty with
    | .error e => (.error e, a)
    | .ok (location, a) =>
      match a.assignArgs rest with
      | (.ok infos, a) => (.ok (⟨ty, location⟩ :: infos), a)
      | (.error e, a) => (.error e, a)

/-- Registers for the results, from position `index` on. -/
def assignRets (index : Nat) : List VarType → Except Error (List (VarType × Reg))
  | [] => .ok []
  | ty :: rest => do
    let r ← assignRet ty index
    let others ← assignRets (index + 1) rest
    return (ty, r) :: others

/-- The registers among the locations. -/
def passedMask (args : List ArgumentInfo) : PerClass RegMask :=
  args.foldl (fun masks info =>
    match info.location with
    | .register r => masks.modify r.cls (·.insert r.index)
    | .stack _ => masks) (.all .empty)

/-- Forget what was placed before. -/
def reset (a : Assigner) : Assigner := { a with gpCount := 0, xmmCount := 0, stack := 0 }

/-- Place a whole signature, from the start; the assigner is left where the arguments ended. -/
def prototype (a : Assigner) (args returns : List VarType) : Except Error Prototype × Assigner :=
  match a.reset.assignArgs args with
  | (.error e, a) => (.error e, a)
  | (.ok infos, a) =>
    match assignRets 0 returns with
    | .error e => (.error e, a)
    | .ok rets =>
      (.ok { args := infos
             returns := rets
             argsStackSize := a.stackSize
             preserved := calleeSaved
             passed := passedMask infos
             calleePopsStack := calleePopsStack
             stackAlignedByOs := stackAlignedByOs
             redZoneSize := redZoneSize }, a)

end Assigner

/-- The prototype of a signature under the System V convention. -/
def Prototype.sysv (args returns : List VarType) : Except Error Prototype :=
  (({} : Assigner).prototype args returns).1

end Codegen
