import Codegen.Proofs.Order

/-! What steps fail for, and which steps fail for ordinary reasons only. -/
namespace Codegen

/-- What a failure is about. -/
inductive Error.Cause where
  /-- A jump leads to code that was taken out. -/
  | removal
  | label
  | encoding
  /-- The registers of a class do not suffice. -/
  | pressure
  | other
  deriving DecidableEq

def Error.cause : Error → Error.Cause
  | .usage (.targetRemoved _) => .removal
  | .unknownLabel _ => .label
  | .encoding _ => .encoding
  | .notEnoughRegisters => .pressure
  | _ => .other

/-- Causes of failures, the ordinary ones among them. -/
class Lenient (S : Error.Cause → Prop) : Prop where
  other : S .other

instance : Lenient (· ≠ .removal) := ⟨by decide⟩

instance : Lenient (· ≠ .label) := ⟨by decide⟩

instance : Lenient (· ≠ .encoding) := ⟨by decide⟩

instance : Lenient (· ≠ .pressure) := ⟨by decide⟩

/-- If there is no result, this has a cause in `S`. -/
def Unblamed {α : Type} (S : Error.Cause → Prop) (x : Except Error α) : Prop := ∀ e, x = .error e → S e.cause

namespace Unblamed

theorem pure (a : α) : Unblamed S (Pure.pure a) := nofun

theorem throw (h : S e.cause) : Unblamed S (MonadExcept.throw e : Except Error α) := by
  intro e' h'
  cases h'
  exact h

theorem bind (hx : Unblamed S x) (hk : ∀ a, Unblamed S (k a)) : Unblamed S (x >>= k) := by
  intro e h
  cases x with
  | ok a => exact hk a e h
  | error e' => exact hx e (by cases h; rfl)

theorem check [Decidable c] (h : S e.cause)
    (hk : Unblamed S (k ())) : Unblamed S (if c then MonadExcept.throw e >>= k else k ()) := by
  split
  · exact (throw h).bind fun _ => ‹_›
  · exact hk

variable [Lenient S]

theorem item (q : ItemSeq) (x : ItemId) : Unblamed S (q.get x) := by
  unfold ItemSeq.get
  split
  · exact pure _
  · exact throw Lenient.other

theorem variable_ (t : VarTable) (v : VarId) : Unblamed S (t.get v) := by
  unfold VarTable.get
  split
  · exact pure _
  · exact throw Lenient.other

theorem insertAfter (q : ItemSeq) (x anchor : ItemId) : Unblamed S (q.insertAfter x anchor) :=
  (item q x).bind fun _ => .check Lenient.other ((item q anchor).bind fun _ => .check Lenient.other (pure _))

theorem insert (q : ItemSeq) (x : ItemId) : Unblamed S (q.insert x) := by
  unfold ItemSeq.insert
  cases q.cursor with
  | none => exact .bind ((item q x).bind fun _ => .check Lenient.other (pure _)) fun _ => pure _
  | some anchor => exact (insertAfter q x anchor).bind fun _ => pure _

end Unblamed

namespace Build
variable {α : Type} {id : VarId} {item : ItemId}

theorem bind_error {m : EStateM Error σ α} {k : α → EStateM Error σ β} {s s' : σ} :
    (m >>= k) s = .error e s' ↔ m s = .error e s' ∨ ∃ a t, m s = .ok a t ∧ k a t = .error e s' := by
  simp only [bind, EStateM.bind]
  cases m s <;> simp

theorem pure_error : ¬ (pure a : EStateM Error σ α) s = .error e s' := nofun

theorem get_error : ¬ (get : EStateM Error σ σ) s = .error e s' := nofun

theorem bind_eq_of_ok {m : EStateM Error σ α} {k : α → EStateM Error σ β} {a : α} {s s' : σ} (h : m s = .ok a s') :
    (m >>= k) s = k a s' := by
  simp only [bind, EStateM.bind, h]

/-- The step fails only for causes in `S`. -/
def Unhindered (S : Error.Cause → Prop) (m : EStateM Error σ α) : Prop := ∀ s e s', m s = .error e s' → S e.cause

/-- From here, the step fails only for causes in `S`. -/
def UnhinderedAt (S : Error.Cause → Prop) (m : EStateM Error σ α) (s : σ) : Prop := ∀ e s', m s = .error e s' → S e.cause

namespace Unhindered

theorem throw (h : S e.cause) : Unhindered S (MonadExcept.throw e : EStateM Error σ α) := by
  rintro s e' s' h'
  cases h'
  exact h

theorem usage (h : S (Error.usage r).cause) : Unhindered S (usage r : Build α) := throw h

theorem pure (a : α) : Unhindered S (Pure.pure a : EStateM Error σ α) := fun _ _ _ h => absurd h pure_error

theorem bind {m : EStateM Error σ α} {k : α → EStateM Error σ β} (hm : Unhindered S m) (hk : ∀ a, Unhindered S (k a)) :
    Unhindered S (m >>= k) := by
  intro s e s' h
  rcases bind_error.mp h with h | ⟨a, t, -, h⟩
  · exact hm s e s' h
  · exact hk a t e s' h

theorem get : Unhindered S (MonadState.get : EStateM Error σ σ) := fun _ _ _ h => absurd h get_error

theorem modify : Unhindered S (modify g : EStateM Error σ Unit) := by
  intro s e s' h
  cases h

theorem create : Unhindered S (create kind) := by
  intro s e s' h
  cases h

theorem lift (h : Unblamed S x) : Unhindered S (liftM x : EStateM Error σ α) := by
  intro s e s' h'
  cases x with
  | ok a => cases h'
  | error e' =>
    cases h'
    exact h _ rfl

theorem when [Decidable c] (hm : Unhindered S m)
    (hk : Unhindered S (k ())) : Unhindered S (if c then m >>= k else k ()) := by
  split
  · exact hm.bind fun _ => hk
  · exact hk

theorem forM {l : List β} (hg : ∀ b, Unhindered S (g b)) : Unhindered S (l.forM g) := by
  induction l with
  | nil => exact pure ()
  | cons b l ih => exact (hg b).bind fun _ => ih

theorem modifyContext : Unhindered S (modifyContext g) := .modify

theorem modifyStats : Unhindered S (modifyStats g) := .modify

theorem setCursor : Unhindered S (setCursor c) := .modify

theorem createLabel : Unhindered S createLabel :=
  .bind .get fun _ => .bind .create fun _ => .bind .modify fun _ => .pure _

variable [Lenient S]

theorem getVar : Unhindered S (getVar id) := .bind .get fun _ => .lift (.variable_ _ _)

theorem getItem : Unhindered S (getItem item) := .bind .get fun _ => .lift (.item _ _)

theorem modifyVar : Unhindered S (modifyVar id g) := .bind .getVar fun _ => .modify

theorem modifyItem : Unhindered S (modifyItem item g) := .bind .getItem fun _ => .modify

theorem insertAfter : Unhindered S (insertAfter x anchor) :=
  .bind .get fun _ => .bind (.lift (.insertAfter _ _ _)) fun _ => .modify

theorem insert : Unhindered S (insert x) := .bind .get fun _ => .bind (.lift (.insert _ _)) fun _ => .modify

theorem compiling : Unhindered S compiling := by
  refine .bind .get fun s => ?_
  split
  · exact .pure _
  · exact .throw Lenient.other

theorem setKind : Unhindered S (setKind item kind) := .modifyItem

theorem emitAll : Unhindered S (emitAll code) := by
  refine .forM fun i => .bind ?_ fun _ => .pure _
  exact .bind .create fun _ => .bind .insert fun _ => .bind .get fun _ => .when .modifyItem (.pure _)

end Unhindered

namespace UnhinderedAt

theorem bind {m : EStateM Error σ α} {k : α → EStateM Error σ β} (hm : UnhinderedAt S m s)
    (hk : ∀ a t, m s = .ok a t → UnhinderedAt S (k a) t) : UnhinderedAt S (m >>= k) s := by
  intro e s' h
  rcases bind_error.mp h with h | ⟨a, t, ha, h⟩
  · exact hm e s' h
  · exact hk a t ha e s' h

theorem check [Decidable c] (hr : S (Error.usage r).cause)
    (hk : UnhinderedAt S (k ()) s) : UnhinderedAt S (if c then usage r >>= k else k ()) s := by
  split
  · exact bind (Unhindered.usage hr s) fun _ _ h => by cases h
  · exact hk

theorem when [Decidable c] (hm : UnhinderedAt S m s)
    (hk : ∀ t, (if c then m s = .ok () t else t = s) → UnhinderedAt S (k ()) t) :
    UnhinderedAt S (if c then m >>= k else k ()) s := by
  split
  · exact bind hm fun _ t h => hk t (by rwa [if_pos ‹_›])
  · exact hk s (by rw [if_neg ‹_›])

theorem forM {l : List β} {g : β → EStateM Error σ Unit} {I : List β → σ → Prop} (hI : I [] s)
    (hg : ∀ P x R t, l = P ++ x :: R → I P t → UnhinderedAt S (g x) t ∧ ∀ t', g x t = .ok () t' → I (P ++ [x]) t') :
    UnhinderedAt S (l.forM g) s := by
  suffices h : ∀ R P t, l = P ++ R → I P t → UnhinderedAt S (R.forM g) t from h l [] s rfl hI
  intro R
  induction R with
  | nil => exact fun P t _ _ => Unhindered.pure _ t
  | cons x R ih =>
    intro P t hl hP
    obtain ⟨hx, hstep⟩ := hg P x R t hl hP
    exact bind hx fun _ t' ht => ih (P ++ [x]) t' (by simp [hl]) (hstep t' ht)

theorem labelTarget (hl : S .label ∨ l.index < s.labels.size) : UnhinderedAt S
    (labelTarget l) s := by
  refine bind (Unhindered.get s) fun s' t hs => ?_
  obtain ⟨rfl, rfl⟩ := get_ok.mp hs
  refine Unhindered.lift ?_ _
  unfold Session.labelTarget
  split
  · exact .pure _
  · rename_i hnone
    exact .throw (hl.resolve_right (Nat.not_lt.mpr (Array.getElem?_eq_none_iff.mp hnone)))

end UnhinderedAt

end Build

end Codegen
