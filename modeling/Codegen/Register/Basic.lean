/-! Physical registers: three classes of registers, each numbered in hardware order. -/
namespace Codegen

/-- A class of interchangeable registers. -/
inductive RegClass where
  | gp
  | mm
  | xmm
  deriving DecidableEq, Repr

namespace RegClass

def all : List RegClass := [.gp, .mm, .xmm]

/-- Number of physical registers in the class. -/
def count : RegClass → Nat
  | .gp => 16
  | .mm => 8
  | .xmm => 16

def name : RegClass → String
  | .gp => "Gp"
  | .mm => "Mm"
  | .xmm => "Xmm"

end RegClass

/-- One register, named by its class and its number within the class. -/
structure Reg where
  cls : RegClass
  index : Nat
  deriving DecidableEq, Repr

namespace Reg

def gp (index : Nat) : Reg := ⟨.gp, index⟩

def mm (index : Nat) : Reg := ⟨.mm, index⟩

def xmm (index : Nat) : Reg := ⟨.xmm, index⟩

/-- The text of a register inside messages. -/
def describe (r : Reg) : String :=
  "Reg \x7b class: " ++ r.cls.name ++ ", index: " ++ toString r.index ++ " \x7d"

end Reg

namespace Gp

/-! Numbers of the general purpose registers. -/

abbrev rax : Nat := 0
abbrev rcx : Nat := 1
abbrev rdx : Nat := 2
abbrev rbx : Nat := 3
abbrev rsp : Nat := 4
abbrev rbp : Nat := 5
abbrev rsi : Nat := 6
abbrev rdi : Nat := 7
abbrev r8 : Nat := 8
abbrev r9 : Nat := 9
abbrev r10 : Nat := 10
abbrev r11 : Nat := 11
abbrev r12 : Nat := 12
abbrev r13 : Nat := 13
abbrev r14 : Nat := 14
abbrev r15 : Nat := 15

end Gp

/-- One value for each register class. -/
structure PerClass (α : Type) where
  gp : α
  mm : α
  xmm : α
  deriving DecidableEq, Repr

namespace PerClass
variable {α : Type}

def all (a : α) : PerClass α := ⟨a, a, a⟩

def get (p : PerClass α) : RegClass → α
  | .gp => p.gp
  | .mm => p.mm
  | .xmm => p.xmm

def set (p : PerClass α) (c : RegClass) (a : α) : PerClass α :=
  match c with
  | .gp => { p with gp := a }
  | .mm => { p with mm := a }
  | .xmm => { p with xmm := a }

def modify (p : PerClass α) (c : RegClass) (f : α → α) : PerClass α := p.set c (f (p.get c))

def toList (p : PerClass α) : List α := [p.gp, p.mm, p.xmm]

@[simp] theorem get_all (a : α) (c : RegClass) : (all a).get c = a := by
  cases c <;> rfl

@[simp] theorem get_set_self (p : PerClass α) (c : RegClass) (a : α) : (p.set c a).get c = a := by
  cases c <;> rfl

theorem get_set_of_ne (p : PerClass α) {c d : RegClass} (h : d ≠ c) (a : α) :
    (p.set c a).get d = p.get d := by
  cases c <;> cases d <;> first | rfl | exact absurd rfl h

@[simp] theorem get_modify_self (p : PerClass α) (c : RegClass) (f : α → α) :
    (p.modify c f).get c = f (p.get c) :=
  get_set_self p c _

theorem get_modify_of_ne (p : PerClass α) {c d : RegClass} (h : d ≠ c) (f : α → α) :
    (p.modify c f).get d = p.get d :=
  get_set_of_ne p h _

end PerClass

end Codegen
