import Codegen.Allocation.Assign

/-! Replacing the variables in operands by the registers and homes they have. -/
namespace Codegen.Build

/-- The base or index of an address, with the register of a variable in the variable's place. -/
def resolveAddress : Option AddressPart → Build (Option AddressPart)
  | some (.var id) => do
    match (← getVar id).currentReg with
    | none => usage (.addressNotInRegister id)
    | some r =>
      if r.cls ≠ .gp then usage (.addressNotGp id)
      return some (.reg r)
  | part => return part

/-- The home that a memory operand names, bound to a slot or to a stack argument. -/
def resolveHomePart (m : Mem) : Build (Option Home) := do
  match m.homeVar with
  | some v => return some (← resolveHome v)
  | none => return m.home

/-- The operand without variables. -/
def resolveOperand : Operand → Build Operand
  | .var v => do
    match (← getVar v.id).currentReg with
    | none => usage (.notInRegister v.id)
    | some r => return .ofReg r v.size
  | .mem m => do
    let base ← resolveAddress m.base
    let index ← resolveAddress m.index
    let home ← resolveHomePart m
    return .mem { m with base, index, home }
  | operand => return operand

end Codegen.Build
