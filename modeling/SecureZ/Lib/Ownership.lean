import Mathlib.Logic.Function.Basic
import Mathlib.Tactic.SplitIfs

/-!
# Resources with one owner

Holders, such as threads, each have at most one resource of a kind in hand: a descriptor, a
block of memory.  Ownership is exclusive when no two holders have the same resource, a resource
in hand is open, and every open one is in someone's hand.

The rules say what taking a new resource, giving one back and handing one over do to that.  A
resource may be known by a handle that is used again later, as descriptors are; a table of
handles says which resource each of them stands for.
-/

namespace Ownership

universe u v

variable {κ : Type u} {η : Type v}

/-- Every open resource is in the hand of exactly one holder. -/
structure Exclusive (isOpen : κ → Prop) (held : η → Option κ) : Prop where
  unique : ∀ {h h' k}, held h = some k → held h' = some k → h = h'
  opened : ∀ {h k}, held h = some k → isOpen k
  owned : ∀ {k}, isOpen k → ∃ h, held h = some k

variable {isOpen isOpen' : κ → Prop} {held : η → Option κ} {h h' : η} {k : κ}

/-- Nothing is taken or given back. -/
theorem Exclusive.congr
    (hex : Exclusive isOpen held)
    {held' : η → Option κ}
    (hheld : ∀ i, held' i = held i)
    (hopen : ∀ x, isOpen' x ↔ isOpen x) :
    Exclusive isOpen' held' where
  unique := by
    intro i j x hi hj
    rw [hheld] at hi hj
    exact hex.unique hi hj
  opened := by
    intro i x hi
    rw [hheld] at hi
    exact (hopen x).mpr (hex.opened hi)
  owned := by
    intro x hx
    obtain ⟨i, hi⟩ := hex.owned ((hopen x).mp hx)
    exact ⟨i, by rw [hheld, hi]⟩

/-- Nothing is open and nobody has anything in hand. -/
theorem Exclusive.idle
    (hidle : ∀ i, held i = none)
    (hclosed : ∀ x, ¬ isOpen x) :
    Exclusive isOpen held where
  unique := by
    intro i j x hi
    rw [hidle] at hi
    cases hi
  opened := by
    intro i x hi
    rw [hidle] at hi
    cases hi
  owned := fun hx => absurd hx (hclosed _)

/-- Where no holder has anything in hand, nothing is open. -/
theorem Exclusive.none_open
    (hex : Exclusive isOpen held)
    (hidle : ∀ i, held i = none) :
    ∀ x, ¬ isOpen x := by
  intro x hx
  obtain ⟨i, hi⟩ := hex.owned hx
  rw [hidle i] at hi
  cases hi

variable [DecidableEq η]

/-- A holder takes a resource that was not open. -/
theorem Exclusive.acquire
    (hex : Exclusive isOpen held)
    (hfree : held h = none)
    (hclosed : ¬ isOpen k)
    (hopen : ∀ x, isOpen' x ↔ x = k ∨ isOpen x) :
    Exclusive isOpen' (Function.update held h (some k)) where
  unique := by
    intro i j x hi hj
    by_cases hih : i = h
    · subst hih
      by_cases hji : j = i
      · exact hji.symm
      · rw [Function.update_self, Option.some.injEq] at hi
        rw [Function.update_of_ne hji] at hj
        exact absurd (hi ▸ hex.opened hj) hclosed
    · rw [Function.update_of_ne hih] at hi
      by_cases hjh : j = h
      · subst hjh
        rw [Function.update_self, Option.some.injEq] at hj
        exact absurd (hj ▸ hex.opened hi) hclosed
      · rw [Function.update_of_ne hjh] at hj
        exact hex.unique hi hj
  opened := by
    intro i x hi
    rw [hopen]
    by_cases hih : i = h
    · subst hih
      rw [Function.update_self, Option.some.injEq] at hi
      exact Or.inl hi.symm
    · rw [Function.update_of_ne hih] at hi
      exact Or.inr (hex.opened hi)
  owned := by
    intro x hx
    rcases (hopen x).mp hx with rfl | hx
    · exact ⟨h, Function.update_self h _ held⟩
    · obtain ⟨i, hi⟩ := hex.owned hx
      have hih : i ≠ h := by
        rintro rfl
        rw [hfree] at hi
        cases hi
      exact ⟨i, by rw [Function.update_of_ne hih, hi]⟩

/-- A holder gives its resource back. -/
theorem Exclusive.release
    (hex : Exclusive isOpen held)
    (hheld : held h = some k)
    (hopen : ∀ x, isOpen' x ↔ isOpen x ∧ x ≠ k) :
    Exclusive isOpen' (Function.update held h none) where
  unique := by
    intro i j x hi hj
    have hih : i ≠ h := by
      rintro rfl
      simp at hi
    have hjh : j ≠ h := by
      rintro rfl
      simp at hj
    rw [Function.update_of_ne hih] at hi
    rw [Function.update_of_ne hjh] at hj
    exact hex.unique hi hj
  opened := by
    intro i x hi
    have hih : i ≠ h := by
      rintro rfl
      simp at hi
    rw [Function.update_of_ne hih] at hi
    refine (hopen x).mpr ⟨hex.opened hi, ?_⟩
    rintro rfl
    exact hih (hex.unique hi hheld)
  owned := by
    intro x hx
    obtain ⟨hx, hne⟩ := (hopen x).mp hx
    obtain ⟨i, hi⟩ := hex.owned hx
    have hih : i ≠ h := by
      rintro rfl
      exact hne (Option.some.inj (hi.symm.trans hheld))
    exact ⟨i, by rw [Function.update_of_ne hih, hi]⟩

/-- A holder hands its resource over to one that has none. -/
theorem Exclusive.handOver
    (hex : Exclusive isOpen held)
    (hheld : held h = some k)
    (hfree : held h' = none) :
    Exclusive isOpen (Function.update (Function.update held h none) h' (some k)) := by
  have hreleased : Exclusive (fun x => isOpen x ∧ x ≠ k) (Function.update held h none) :=
    hex.release hheld fun _ => Iff.rfl
  refine hreleased.acquire ?_ (fun hk => hk.2 rfl) fun x => ?_
  · by_cases hne : h' = h
    · rw [hne, Function.update_self]
    · rw [Function.update_of_ne hne, hfree]
  · by_cases hx : x = k
    · subst hx
      exact iff_of_true (hex.opened hheld) (Or.inl rfl)
    · simp [hx]

section Handles

universe w

variable {ι : Type w} [DecidableEq ι] {table : ι → Option κ} {i : ι} {k : κ}

/-- A resource that some handle stands for. -/
def Named (table : ι → Option κ) (k : κ) : Prop :=
  ∃ i, table i = some k

/-- No two handles stand for the same resource. -/
def OneHandle (table : ι → Option κ) : Prop :=
  ∀ {i j k}, table i = some k → table j = some k → i = j

/-- A free handle is given to a resource. -/
theorem named_update_some
    (hfree : table i = none)
    (x : κ) :
    Named (Function.update table i (some k)) x ↔ x = k ∨ Named table x := by
  constructor
  · rintro ⟨j, hj⟩
    by_cases hji : j = i
    · subst hji
      rw [Function.update_self, Option.some.injEq] at hj
      exact Or.inl hj.symm
    · rw [Function.update_of_ne hji] at hj
      exact Or.inr ⟨j, hj⟩
  · rintro (rfl | ⟨j, hj⟩)
    · exact ⟨i, Function.update_self i _ table⟩
    · have hji : j ≠ i := by
        rintro rfl
        rw [hfree] at hj
        cases hj
      exact ⟨j, by rw [Function.update_of_ne hji, hj]⟩

theorem oneHandle_update_some
    (h : OneHandle table)
    (hnew : ¬ Named table k) :
    OneHandle (Function.update table i (some k)) := by
  intro a b x ha hb
  by_cases hai : a = i
  · subst hai
    rw [Function.update_self, Option.some.injEq] at ha
    subst ha
    by_cases hba : b = a
    · exact hba.symm
    · rw [Function.update_of_ne hba] at hb
      exact absurd ⟨b, hb⟩ hnew
  · rw [Function.update_of_ne hai] at ha
    by_cases hbi : b = i
    · subst hbi
      rw [Function.update_self, Option.some.injEq] at hb
      subst hb
      exact absurd ⟨a, ha⟩ hnew
    · rw [Function.update_of_ne hbi] at hb
      exact h ha hb

/-- A handle is given up, and its resource with it. -/
theorem named_update_none
    (h : OneHandle table)
    (hi : table i = some k)
    (x : κ) :
    Named (Function.update table i none) x ↔ Named table x ∧ x ≠ k := by
  constructor
  · rintro ⟨j, hj⟩
    have hji : j ≠ i := by
      rintro rfl
      simp at hj
    rw [Function.update_of_ne hji] at hj
    refine ⟨⟨j, hj⟩, ?_⟩
    rintro rfl
    exact hji (h hj hi)
  · rintro ⟨⟨j, hj⟩, hne⟩
    have hji : j ≠ i := by
      rintro rfl
      exact hne (Option.some.inj (hj.symm.trans hi))
    exact ⟨j, by rw [Function.update_of_ne hji, hj]⟩

theorem oneHandle_update_none
    (h : OneHandle table) :
    OneHandle (Function.update table i none) := by
  intro a b x ha hb
  have hai : a ≠ i := by
    rintro rfl
    simp at ha
  have hbi : b ≠ i := by
    rintro rfl
    simp at hb
  rw [Function.update_of_ne hai] at ha
  rw [Function.update_of_ne hbi] at hb
  exact h ha hb

end Handles

end Ownership
