import Mathlib.Tactic.SplitIfs

/-!
# Functions with early returns

A C function that returns as soon as a check fails is a sequence of checks in
`Except`.  `require` is one check; the lemmas turn the success or the failure of a
sequence into statements about its steps, so that no proof unfolds the monad.
-/

namespace CLib

universe u v w

variable {ε : Type u} {α : Type v} {β : Type v}

/-- Go on if `c` holds, otherwise return with `e`. -/
def require (c : Prop) [Decidable c] (e : ε) : Except ε Unit :=
  if c then .ok () else .error e

/-- Go on with the value of `o`, if there is one, otherwise return with `e`. -/
def requireSome (o : Option α) (e : ε) : Except ε α :=
  match o with
  | none => .error e
  | some a => .ok a

theorem require_eq_ok_iff
    {c : Prop} [Decidable c] {e : ε} {u : Unit} :
    require c e = .ok u ↔ c := by
  unfold require
  split_ifs with h <;> simp [h]

theorem require_eq_error_iff
    {c : Prop} [Decidable c] {e e' : ε} :
    require c e = .error e' ↔ ¬ c ∧ e = e' := by
  unfold require
  split_ifs with h <;> simp [h]

theorem requireSome_eq_ok_iff
    {o : Option α} {e : ε} {a : α} :
    requireSome o e = .ok a ↔ o = some a := by
  cases o <;> simp [requireSome]

theorem requireSome_eq_error_iff
    {o : Option α} {e e' : ε} :
    requireSome o e = .error e' ↔ o = none ∧ e = e' := by
  cases o <;> simp [requireSome]

/-- A sequence succeeds when its first step does and the rest then does. -/
theorem bind_eq_ok_iff
    {x : Except ε α} {f : α → Except ε β} {b : β} :
    (x >>= f) = .ok b ↔ ∃ a, x = .ok a ∧ f a = .ok b := by
  cases x <;> simp [bind, Except.bind]

/-- A sequence fails where its first failing step does. -/
theorem bind_eq_error_iff
    {x : Except ε α} {f : α → Except ε β} {e : ε} :
    (x >>= f) = .error e
      ↔
    x = .error e ∨ ∃ a, x = .ok a ∧ f a = .error e := by
  cases x <;> simp [bind, Except.bind]

@[simp] theorem ok_bind
    (a : α) (f : α → Except ε β) :
    ((.ok a : Except ε α) >>= f) = f a := by
  rfl

end CLib
