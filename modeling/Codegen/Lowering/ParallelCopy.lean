import Codegen.Register.Basic

/-! Copying several registers at once with single copies and exchanges. -/
namespace Codegen

/-- A copy into `dst` from `src`. -/
structure RegMove where
  dst : Reg
  src : Reg
  deriving DecidableEq, Repr

/-- One step of a parallel copy. -/
inductive CopyStep where
  | copy (dst src : Reg)
  | swap (a b : Reg)
  deriving DecidableEq, Repr

namespace RegMove

/-- Is `r` still to be read by one of the moves? -/
def isSource (moves : List RegMove) (r : Reg) : Bool := moves.any fun m => m.src == r

/-- The first move whose destination nobody reads any more. -/
def ready? (moves : List RegMove) : Option RegMove := moves.find? fun m => !isSource moves m.dst

/-- The move once `a` and `b` have been exchanged. -/
def afterSwap (a b : Reg) (m : RegMove) : RegMove :=
  if m.src = a then { m with src := b }
  else if m.src = b then { m with src := a }
  else m

/-- The moves that are left once `m` has been done by an exchange. -/
def withoutCycleHead (m : RegMove) (rest : List RegMove) : List RegMove :=
  (rest.map (afterSwap m.dst m.src)).filter fun r => r.dst != r.src

theorem length_withoutCycleHead_le (m : RegMove) (rest : List RegMove) :
    (withoutCycleHead m rest).length ≤ rest.length := by
  have := List.length_filter_le (fun r : RegMove => r.dst != r.src) (rest.map (afterSwap m.dst m.src))
  rwa [List.length_map] at this

/-- Steps that carry out all moves at once. Only cycles are left when no move is ready, and an
exchange then takes the first move out of its cycle. -/
def steps (moves : List RegMove) : List CopyStep :=
  match _hr : ready? moves with
  | some m => .copy m.dst m.src :: steps (moves.erase m)
  | none =>
    match moves with
    | [] => []
    | m :: rest => .swap m.dst m.src :: steps (withoutCycleHead m rest)
termination_by moves.length
decreasing_by
  · have hm := List.mem_of_find?_eq_some _hr
    have := List.length_erase_of_mem hm
    have := List.length_pos_of_mem hm
    omega
  · have := length_withoutCycleHead_le m rest
    simp only [List.length_cons]
    omega

end RegMove

end Codegen
