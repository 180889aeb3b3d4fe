import Codegen.Proofs.Program
import Mathlib.Algebra.Group.Nat.Defs
import Mathlib.Data.List.Induction

/-! Arguments have places of their own. The registers of a class are used up in order, and the arguments that get none lie
one above the other in the stack area of the call. -/
namespace Codegen
open List
variable {before : List VarType} {ty : VarType} {cls : RegClass}

/-- The registers that arguments of a class are passed in. -/
def argumentRegs : RegClass → List Nat
  | .gp => [Gp.rdi, Gp.rsi, Gp.rdx, Gp.rcx, Gp.r8, Gp.r9]
  | .xmm => [0, 1, 2, 3, 4, 5, 6, 7]
  | .mm => []

/-- The register of an argument of this type behind other arguments, while there are registers left. -/
def argumentReg? (before : List VarType) (ty : VarType) : Option Reg :=
  ty.cls.bind fun cls => ((argumentRegs cls)[before.countP (·.cls == some cls)]?).map (Reg.mk cls)

theorem argumentReg?_eq_some : argumentReg? before ty = some r ↔
    ty.cls = some r.cls ∧ (argumentRegs r.cls)[before.countP (·.cls == some r.cls)]? = some r.index := by
  obtain ⟨cls, index⟩ := r
  cases hcls : ty.cls with
  | none => simp [argumentReg?, hcls]
  | some cls' =>
    simp only [argumentReg?, hcls, Option.bind_some, Option.map_eq_some_iff, Reg.mk.injEq, Option.some.injEq]
    constructor
    · rintro ⟨i, hi, rfl, rfl⟩
      exact ⟨rfl, hi⟩
    · rintro ⟨rfl, hi⟩
      exact ⟨index, hi, rfl, rfl⟩

/-- Behind an argument in a register, no argument gets that register again. -/
theorem argumentReg?_behind {between : List VarType} {ty' : VarType} (h : argumentReg? before ty = some r) :
    argumentReg? (before ++ ty :: between) ty' ≠ some r := by
  intro h'
  have hnodup : ∀ cls, (argumentRegs cls).Nodup := by rintro (_ | _ | _) <;> decide
  obtain ⟨hcls, hi⟩ := argumentReg?_eq_some.mp h
  obtain ⟨-, hi'⟩ := argumentReg?_eq_some.mp h'
  have := (getElem?_inj (List.getElem?_eq_some_iff.mp hi).1 (hnodup r.cls)).mp (hi.trans hi'.symm)
  rw [countP_append, countP_cons_of_pos (by simp [hcls])] at this
  omega

/-- The first argument has a place of its own, and lies below the second one as far as both are on the stack. -/
def ArgumentInfo.Below (x y : ArgumentInfo) : Prop :=
  x.location ≠ y.location ∧
    ∀ o o', x.location = .stack o → y.location = .stack o' → o < o' ∧ o + x.ty.size ≤ o'

/-- Can a value of the type be the result at this position? -/
def VarType.returnedAt (ty : VarType) (index : Nat) : Prop :=
  match ty.cls with
  | some .mm => index = 0
  | some _ => index < 2
  | none => False

namespace Assigner
variable {a : Assigner} {tys returns : List VarType} {location : ArgLocation} {infos : List ArgumentInfo}
variable {index : Nat}

/-- The registers of a class that have been handed out. -/
def count (a : Assigner) : RegClass → Nat
  | .gp => a.gpCount
  | .xmm => a.xmmCount
  | .mm => 0

/-- What placing one argument does: it takes the next register of its class, or else the next cells of the stack. -/
theorem assignArg_ok (h : a.assignArg ty = .ok (location, b)) :
    ∃ cls, ty.cls = some cls ∧ (∀ c ≠ cls, b.count c = a.count c) ∧
      ((∃ i, (argumentRegs cls)[a.count cls]? = some i ∧ location = .register ⟨cls, i⟩ ∧ b.stack = a.stack ∧
          b.count cls = a.count cls + 1) ∨
        (argumentRegs cls)[a.count cls]? = none ∧ location = .stack a.stack ∧ b.count cls = a.count cls ∧
          a.stack + ty.size ≤ b.stack ∧ ∃ n ≤ 2, b.stack = a.stack + n * 8) := by
  have hsize : (ty.cls = some .gp ∨ ty.cls = some .mm → ty.size ≤ 8) ∧ ty.size ≤ 16 := by
    cases ty <;> decide
  unfold assignArg at h
  split at h
  · rename_i hcls
    split at h <;> rename_i hi <;> cases h <;> refine ⟨_, hcls, by rintro (_ | _ | _) hc <;> trivial, ?_⟩
    · exact .inl ⟨_, hi, rfl, rfl, rfl⟩
    · exact .inr ⟨hi, rfl, rfl, Nat.add_le_add_left (hsize.1 (.inl hcls)) _, 1, by decide, rfl⟩
  · rename_i hcls
    split at h <;> rename_i hi <;> cases h <;> refine ⟨_, hcls, by rintro (_ | _ | _) hc <;> trivial, ?_⟩
    · exact .inl ⟨_, hi, rfl, rfl, rfl⟩
    refine .inr ⟨hi, rfl, rfl, ?_, (ty.size + 7) / 8, by omega, rfl⟩
    dsimp only
    omega
  · rename_i hcls
    cases h
    exact ⟨_, hcls, by rintro (_ | _ | _) hc <;> trivial, .inr ⟨rfl, rfl, rfl,
      Nat.add_le_add_left (hsize.1 (.inr hcls)) _, 1, by decide, rfl⟩⟩
  · cases h

/-- The registers and the stack bytes that arguments of these types take. -/
structure Placed (a : Assigner) (before : List VarType) : Prop where
  count : ∀ cls, a.count cls = min (argumentRegs cls).length (before.countP (·.cls == some cls))
  stack : a.stack % 8 = 0
  small : a.stack ≤ 16 * before.length

theorem Placed.empty : Placed {} [] := ⟨by rintro (_ | _ | _) <;> rfl, rfl, Nat.le_refl _⟩

theorem Placed.next (h : a.Placed before) :
    (argumentRegs cls)[a.count cls]? = (argumentRegs cls)[before.countP (·.cls == some cls)]? := by
  rw [h.count]
  rcases Nat.le_total (argumentRegs cls).length (before.countP (·.cls == some cls)) with hle | hle
  · rw [Nat.min_eq_left hle, getElem?_eq_none (Nat.le_refl _), getElem?_eq_none hle]
  · rw [Nat.min_eq_right hle]

theorem Placed.assignArg (h : a.Placed before) (ha : a.assignArg ty = .ok (location, b)) :
    b.Placed (before ++ [ty]) ∧ (∀ r, location = .register r ↔ argumentReg? before ty = some r) ∧
      a.stack ≤ b.stack ∧ ∀ o, location = .stack o → o = a.stack ∧ o + ty.size ≤ b.stack := by
  obtain ⟨hcount, hstack, hsmall⟩ := id h
  obtain ⟨cls, hcls, hother, hone⟩ := assignArg_ok ha
  have hcounts (hb : b.count cls = min (argumentRegs cls).length (before.countP (·.cls == some cls) + 1)) (c) :
      b.count c = min (argumentRegs c).length ((before ++ [ty]).countP (·.cls == some c)) := by
    rw [countP_append, countP_singleton, hcls]
    by_cases hc : c = cls
    · subst hc
      simpa using hb
    · simpa [Ne.symm hc] using (hother c hc).trans (hcount c)
  have := hcount cls
  have hlength : (before ++ [ty]).length = before.length + 1 := length_append
  rcases hone with ⟨i, hi, rfl, hb, hc⟩ | ⟨hi, rfl, hc, hfit, n, hn, hb⟩
  · have := (List.getElem?_eq_some_iff.mp hi).1
    rw [h.next] at hi
    exact ⟨⟨hcounts (by omega), by omega, by omega⟩, fun r => by simp [argumentReg?, hcls, hi], by omega,
      fun o ho => by cases ho⟩
  · have := getElem?_eq_none_iff.mp hi
    rw [h.next] at hi
    exact ⟨⟨hcounts (by omega), by omega, by omega⟩, fun r => by simp [argumentReg?, hcls, hi], by omega,
      fun o ho => by cases ho; exact ⟨rfl, hfit⟩⟩

theorem Placed.assignArgs (h : a.Placed before) (ha : a.assignArgs tys = (.ok infos, b)) :
    b.Placed (before ++ tys) ∧ a.stack ≤ b.stack ∧ infos.map (·.ty) = tys ∧ infos.Pairwise ArgumentInfo.Below ∧
      (∀ info ∈ infos, ∀ o, info.location = .stack o → a.stack ≤ o ∧ o % 8 = 0 ∧ o + info.ty.size ≤ b.stack) ∧
      ∀ i info, infos[i]? = some info →
        ∀ r, info.location = .register r ↔ argumentReg? (before ++ tys.take i) info.ty = some r := by
  induction tys generalizing a before infos with
  | nil =>
    cases ha
    exact ⟨by rwa [append_nil], Nat.le_refl _, rfl, .nil, by simp, by simp⟩
  | cons ty tys ih =>
    unfold Assigner.assignArgs at ha
    split at ha
    · cases ha
    rename_i location a' hty
    split at ha
    · rename_i rest _ hrest
      cases ha
      obtain ⟨hp, hreg, hle', hcell⟩ := h.assignArg hty
      obtain ⟨hpb, hle, hmap, hpair, hstack, hregs⟩ := ih hp hrest
      simp only [append_assoc, singleton_append] at hpb hregs
      have hsize : 0 < ty.size := by cases ty <;> decide
      have hbelow : ∀ y ∈ rest, ∀ o o', location = .stack o → y.location = .stack o' → o < o' ∧ o + ty.size ≤ o' := by
        intro y hy o o' ho ho'
        have := (hcell o ho).2
        have := (hstack y hy o' ho').1
        omega
      refine ⟨hpb, Nat.le_trans hle' hle, by simp [hmap], .cons (fun y hy => ⟨fun he => ?_, hbelow y hy⟩) hpair,
        forall_mem_cons.mpr ⟨fun o ho => ?_, fun x hx o ho => ?_⟩, fun i info hi => ?_⟩
      · cases hl : location with
        | register r =>
          obtain ⟨i, hi⟩ := getElem?_of_mem hy
          exact argumentReg?_behind ((hreg r).mp hl) ((hregs i y hi r).mp (he ▸ hl))
        | stack o => exact Nat.lt_irrefl _ (hbelow y hy o o hl (he ▸ hl)).1
      · obtain ⟨rfl, hfit⟩ := hcell o ho
        exact ⟨Nat.le_refl _, h.stack, Nat.le_trans hfit hle⟩
      · obtain ⟨h1, h2⟩ := hstack x hx o ho
        exact ⟨Nat.le_trans hle' h1, h2⟩
      · cases i with
        | zero =>
          cases hi
          simpa using hreg
        | succ i => exact hregs i info hi
    · cases ha

/-- Arguments have different places, and those in registers have one of their class. -/
theorem assignArgs_registers (h : ({} : Assigner).assignArgs tys = (.ok infos, b)) :
    (infos.map (·.location)).Nodup ∧ ∀ info ∈ infos, ∀ r, info.location = .register r →
      info.ty.cls = some r.cls ∧ r.index ∈ argumentRegs r.cls := by
  obtain ⟨-, -, -, hpair, -, hreg⟩ := Placed.empty.assignArgs h
  refine ⟨pairwise_map.mpr (hpair.imp And.left), fun info hi r hr => ?_⟩
  obtain ⟨i, hi⟩ := getElem?_of_mem hi
  obtain ⟨hcls, hr⟩ := argumentReg?_eq_some.mp ((hreg i info hi r).mp hr)
  exact ⟨hcls, mem_of_getElem? hr⟩

theorem assignArg_ok_iff : (∃ r, a.assignArg ty = .ok r) ↔ ty.cls ≠ none := by
  unfold assignArg
  split <;> rename_i hcls <;> simp only [hcls, ne_eq, reduceCtorEq, not_false_eq_true, not_true_eq_false, iff_true,
    exists_false] <;> first | exact ⟨_, rfl⟩ | (split <;> exact ⟨_, rfl⟩)

theorem assignArgs_ok_iff : (∃ infos, (a.assignArgs tys).1 = .ok infos) ↔ ∀ ty ∈ tys, ty.cls ≠ none := by
  induction tys generalizing a with
  | nil => simp [assignArgs]
  | cons ty tys ih =>
    rw [forall_mem_cons, ← assignArg_ok_iff (a := a)]
    unfold assignArgs
    split
    · rename_i e he
      simp [he]
    rename_i location a' hty
    rw [← ih (a := a')]
    split <;> rename_i hrest <;> simp [hty, hrest]

theorem assignRet_ok_iff : (∃ r, assignRet ty index = .ok r) ↔ ty.returnedAt index := by
  have hsome : (retReg? ty index).isSome = true ↔ ty.returnedAt index := by
    unfold retReg? VarType.returnedAt
    split <;> simp_all [gpRetRegs, xmmRetRegs]
  rw [← hsome]
  unfold assignRet
  split <;> rename_i hr <;> simp [hr]

theorem assignRets_ok_iff : (∃ rets, assignRets index returns = .ok rets) ↔
    ∀ i (ty : VarType), returns[i]? = some ty → ty.returnedAt (index + i) := by
  induction returns generalizing index with
  | nil => simp [assignRets]
  | cons ty returns ih =>
    simp only [assignRets, Build.except_bind_ok, Build.except_pure_ok]
    constructor
    · rintro ⟨_, r, hr, others, ho, -⟩ (_ | i) ty' hi
      · cases hi
        exact assignRet_ok_iff.mp ⟨r, hr⟩
      · have := ih.mp ⟨others, ho⟩ i ty' hi
        rwa [add_assoc, add_comm 1 i] at this
    intro h
    obtain ⟨r, hr⟩ := assignRet_ok_iff.mpr (h 0 ty rfl)
    obtain ⟨others, ho⟩ := ih.mpr fun i ty' hi => by
      have := h (i + 1) ty' hi
      rwa [add_comm i 1, ← add_assoc] at this
    exact ⟨_, r, hr, others, ho, rfl⟩

theorem passedMask_contains (h : ∀ info ∈ infos, ∀ r, info.location = .register r → r.index < 32) (r : Reg) :
    ((passedMask infos).get r.cls).contains r.index = true ↔ ∃ info ∈ infos, info.location = .register r := by
  induction infos using reverseRecOn with
  | nil => simp [passedMask]
  | append_singleton infos info ih =>
    have hinfos := ih fun x hx => h x (mem_append_left _ hx)
    have hinfo := h info (by simp)
    simp only [mem_append, mem_singleton, or_and_right, exists_or, exists_eq_left, ← hinfos]
    rw [passedMask, foldl_append, foldl_cons, foldl_nil, ← passedMask]
    split
    · rename_i q hq
      rw [hq, ArgLocation.register.injEq]
      by_cases hc : r.cls = q.cls
      · rw [hc, PerClass.get_modify_self, RegMask.contains_insert _ (hinfo q hq)]
        have : q = r ↔ q.index = r.index := by
          obtain ⟨qc, qi⟩ := q
          obtain ⟨rc, ri⟩ := r
          cases hc
          simp
        simp [this]
      · rw [PerClass.get_modify_of_ne _ hc]
        have : q ≠ r := fun he => hc (he ▸ rfl)
        simp [this]
    · rename_i o ho
      simp [ho]

theorem prototype_ok_iff : (∃ p, (a.prototype tys returns).1 = .ok p) ↔
    (∀ ty ∈ tys, ty.cls ≠ none) ∧ ∀ i (ty : VarType), returns[i]? = some ty → ty.returnedAt i := by
  have hrets : (∃ rets, assignRets 0 returns = .ok rets) ↔ _ := assignRets_ok_iff
  simp only [zero_add] at hrets
  rw [← assignArgs_ok_iff (a := a.reset), ← hrets]
  unfold prototype
  split
  · rename_i hargs
    simp [hargs]
  · rename_i hargs
    split <;> rename_i hr <;> simp [hargs, hr]

end Assigner

theorem Prototype.sysv_ok {args returns : List VarType} (h : Prototype.sysv args returns = .ok p) :
    ∃ a, ({} : Assigner).assignArgs args = (.ok p.args, a) ∧ Assigner.assignRets 0 returns = .ok p.returns ∧
      p.preserved = Assigner.calleeSaved ∧ p.passed = Assigner.passedMask p.args ∧ p.calleePopsStack = false ∧
      p.argsStackSize = a.stackSize := by
  simp only [sysv, Assigner.prototype] at h
  split at h
  · cases h
  rename_i infos a ha
  split at h
  · cases h
  rename_i rets hrets
  cases h
  exact ⟨a, ha, hrets, rfl, rfl, rfl, rfl⟩

namespace Assigner

/-- Arguments are placed in the registers of their class in order, as long as these last, and then one above the other on
the stack, whatever the assigner was used for before. This fails for arguments of the stack-machine types and for results
that have no register, and only for these. -/
theorem prototype_places_apart (a : Assigner) (args returns : List VarType) :
    a.prototype args returns = ({} : Assigner).prototype args returns ∧
      ((∃ e, (a.prototype args returns).1 = .error e) ↔
        (∃ ty ∈ args, ty = .x87 ∨ ty = .x87Single ∨ ty = .x87Double) ∨
          ∃ i ty, returns[i]? = some ty ∧ ¬ VarType.returnedAt ty i) ∧
      ∀ p, (a.prototype args returns).1 = .ok p →
        p.args.map (·.ty) = args ∧
        (∀ i info, p.args[i]? = some info →
          ∀ r, info.location = .register r ↔ argumentReg? (args.take i) info.ty = some r) ∧
        p.args.Pairwise ArgumentInfo.Below ∧
        (∀ info ∈ p.args, ∀ o, info.location = .stack o → o % 8 = 0 ∧ o + info.ty.size ≤ p.argsStackSize) ∧
        p.argsStackSize % 16 = 0 ∧ (args.length < 2 ^ 26 → p.argsStackSize < 2 ^ 31) ∧
        ∀ r : Reg, (p.passed.get r.cls).contains r.index = true ↔ ∃ info ∈ p.args, info.location = .register r := by
  have hclass : ∀ ty : VarType, ty.cls = none ↔ ty = .x87 ∨ ty = .x87Single ∨ ty = .x87Double := by
    intro ty
    cases ty <;> decide
  refine ⟨rfl, ?_, fun p hp => ?_⟩
  · have herror : (∃ e, (a.prototype args returns).1 = .error e) ↔ ¬ ∃ p, (a.prototype args returns).1 = .ok p := by
      cases (a.prototype args returns).1 <;> simp
    rw [herror, prototype_ok_iff]
    simp only [← hclass, not_and_or, not_forall, not_not, exists_prop, ne_eq]
  · obtain ⟨b, hargs, -, -, hpassed, -, hsize⟩ := Prototype.sysv_ok hp
    obtain ⟨hb, -, hmap, hpair, hstack, hreg⟩ := Placed.empty.assignArgs hargs
    have hindex : ∀ cls, ∀ i ∈ argumentRegs cls, i < 32 := by
      rintro (_ | _ | _) <;> decide
    rw [stackSize] at hsize
    refine ⟨hmap, hreg, hpair, fun info hi o ho => ?_, ?_, ?_, ?_⟩
    · obtain ⟨-, h8, hin⟩ := hstack info hi o ho
      exact ⟨h8, Nat.le_trans hin (hsize ▸ le_alignUp16 _)⟩
    · rw [hsize]
      exact alignUp16_mod _
    · intro hlen
      have hsmall := hb.small
      have hround := alignUp16_lt b.stack
      rw [nil_append] at hsmall
      omega
    · rw [hpassed]
      exact passedMask_contains fun info hi r hr => hindex _ _ ((assignArgs_registers hargs).2 info hi r hr).2

end Assigner

end Codegen
