import Codegen.Variable.Table

/-! The active variables under any calls. The ring of links stands for a list that is appended to, deleted from and
emptied. -/
namespace Codegen

/-- A call that makes a variable or changes which ones are active. -/
inductive VarCall where
  | newVar (ty : VarType) (function : FunctionId)
  | activate (id : VarId)
  | deactivate (id : VarId)
  | clearActive
  deriving DecidableEq, Repr

namespace VarCall

def run (t : VarTable) : VarCall → Except Error VarTable
  | newVar ty function => (t.newVar ty function).map (·.2)
  | activate id => t.activate id
  | deactivate id => .ok (t.deactivate id)
  | clearActive => .ok t.clearActive

/-- The table after a call. One that fails leaves the table as it is. -/
def after (t : VarTable) (call : VarCall) : VarTable := (call.run t).toOption.getD t

/-- What a call does to the number of variables and to a plain list. -/
def edit (p : Nat × List VarId) : VarCall → Nat × List VarId
  | newVar ty _ => (if ty.cls.isSome then p.1 + 1 else p.1, p.2)
  | activate id => (p.1, if id.index < p.1 ∧ id ∉ p.2 then p.2 ++ [id] else p.2)
  | deactivate id => (p.1, p.2.erase id)
  | clearActive => (p.1, [])

/-- The table has as many variables, and the active ones are those of the list. -/
structure Tracks (t : VarTable) (p : Nat × List VarId) : Prop where
  size : t.vars.size = p.1
  active : t.active = p.2
  known : ∀ x ∈ p.2, x.index < p.1

namespace Tracks
variable {t : VarTable} {p : Nat × List VarId} {id : VarId} (h : Tracks t p)
include h

theorem activate_known (hid : id.index < p.1) : ∃ t', t.activate id = .ok t' := by
  have hget : t.get? id = some _ := Array.getElem?_eq_getElem (h.size ▸ hid)
  unfold VarTable.activate
  rw [hget]
  split <;> exact ⟨_, rfl⟩

theorem activate_unknown (hid : p.1 ≤ id.index) : t.activate id = .error (.unknownVariable id) := by
  have hget : t.get? id = none := Array.getElem?_eq_none (h.size ▸ hid)
  have hn : ¬ t.isActive id = true := fun hx =>
    Nat.not_lt_of_le hid (h.known id (h.active ▸ (t.isActive_iff id).mp hx))
  rw [VarTable.activate, if_neg hn, hget]

/-- One call does the same to the table and to the list. -/
theorem after (call : VarCall) : Tracks (call.after t) (call.edit p) := by
  cases call with
  | newVar ty function =>
    cases hc : ty.cls with
    | none => simpa [VarCall.after, run, VarTable.newVar, Except.map, Except.toOption, hc, edit] using h
    | some cls =>
      simp only [VarCall.after, run, VarTable.newVar, Except.map, Except.toOption, hc, edit]
      exact ⟨by simp [h.size], h.active, fun x hx => Nat.lt_succ_of_lt (h.known x hx)⟩
  | activate id =>
    by_cases hid : id.index < p.1
    · obtain ⟨t', ht⟩ := h.activate_known hid
      obtain ⟨hv, ha⟩ := VarTable.activate_ok ht
      simp only [VarCall.after, run, ht, Except.toOption, Option.getD_some, edit, hid, true_and]
      by_cases hm : id ∈ p.2
      · rw [if_neg (not_not_intro hm)]
        exact ⟨hv ▸ h.size, by simpa [h.active, hm] using ha, h.known⟩
      · rw [if_pos hm]
        refine ⟨hv ▸ h.size, by simpa [h.active, hm] using ha, fun x hx => ?_⟩
        rcases List.mem_append.mp hx with hx | hx
        · exact h.known x hx
        · exact List.mem_singleton.mp hx ▸ hid
    · simpa [VarCall.after, run, h.activate_unknown (Nat.le_of_not_lt hid), Except.toOption, edit, hid] using h
  | deactivate id =>
    exact ⟨h.size, (t.active_deactivate id).trans (congrArg (List.erase · id) h.active),
      fun x hx => h.known x (List.mem_of_mem_erase hx)⟩
  | clearActive => exact ⟨h.size, t.active_clearActive, by simp [edit]⟩

end Tracks

theorem tracks_after (calls : List VarCall) {t p} (h : Tracks t p) :
    Tracks (calls.foldl VarCall.after t) (calls.foldl edit p) := by
  induction calls generalizing t p with
  | nil => exact h
  | cons call calls ih => exact ih (h.after call)

/-- After any calls the active variables are those of a list to which each variable was appended when it became active
and was not yet, from which it was deleted when it ceased to be, and which was emptied when told. Following the links
from the head comes to an end and gives the list; a variable counts as active if it is in the list; the links of its
members lead round it, forwards and backwards, and no other variable has any. A known variable can be made active, and
an unknown one fails and changes nothing. -/
theorem active_refines_list (calls : List VarCall) :
    let t := calls.foldl VarCall.after .empty
    let p := calls.foldl edit (0, [])
    let l := p.2
    t.size = p.1 ∧ t.active = l ∧ l.Nodup ∧ (∀ x, t.isActive x = true ↔ x ∈ l) ∧
    t.ring.head = l.head? ∧
    (∀ head fuel, l.head? = some head → l.length ≤ fuel → t.ring.walk head fuel head = some l) ∧
    (∀ A x C, l = A ++ x :: C → t.ring.get? x = some ⟨(C ++ A).headD x, (C ++ A).getLastD x⟩) ∧
    (∀ x, x ∉ l → t.ring.get? x = none) ∧
    (∀ id : VarId, id.index < p.1 → ∃ t', (activate id).run t = .ok t') ∧
    ∀ id : VarId, p.1 ≤ id.index →
      (activate id).run t = .error (.unknownVariable id) ∧ (activate id).after t = t := by
  intro t p l
  have h : Tracks t p := tracks_after calls ⟨rfl, rfl, by simp⟩
  have ha : t.active = l := h.active
  have hr : t.ring.Rings l := ha ▸ t.ring.rings
  refine ⟨h.size, ha, hr.nodup, fun x => ha ▸ t.isActive_iff x, hr.head, fun head fuel hl hf => ?_,
    fun A x C => hr.member, fun x => hr.other, fun id => h.activate_known, fun id hid => ?_⟩
  · obtain ⟨C, hC⟩ := List.head?_eq_some_iff.mp hl
    rw [hC] at hr hf ⊢
    exact @Links.Rings.walk _ [] _ _ _ hr hf
  · have hrun := h.activate_unknown hid
    exact ⟨hrun, by rw [VarCall.after, run, hrun]; rfl⟩

end VarCall

end Codegen
