import Mathlib.Algebra.GroupWithZero.Nat
import Mathlib.Data.Finset.Card
import Mathlib.Order.Interval.Finset.Nat

/-!
# Regions of an address space

Blocks of memory that do not overlap have room in the space that they are part of: their
sizes add up to no more than its size.
-/

namespace Regions

universe u

variable {α : Type u} [DecidableEq α]

/-- Disjoint parts of a finite set have together no more elements than the set. -/
theorem sum_card_le_card
    {parts : List (Finset α)} {space : Finset α}
    (hapart : parts.Pairwise Disjoint)
    (hspace : ∀ part ∈ parts, part ⊆ space) :
    (parts.map Finset.card).sum ≤ space.card := by
  induction parts generalizing space with
  | nil =>
      simp
  | cons part parts ih =>
      rw [List.pairwise_cons] at hapart
      rw [List.forall_mem_cons] at hspace
      -- the other parts lie in what is left of the space
      have hrest : ∀ other ∈ parts, other ⊆ space \ part := by
        intro other hother
        exact Finset.subset_sdiff.mpr
          ⟨hspace.2 other hother, (hapart.1 other hother).symm⟩
      have hcard := Finset.card_sdiff_add_card_eq_card hspace.1
      have hsum := ih hapart.2 hrest
      rw [List.map_cons, List.sum_cons]
      omega

/-- The addresses of a block. -/
def block (addr size : Nat) : Finset Nat :=
  Finset.Ico addr (addr + size)

@[simp] theorem card_block
    (addr size : Nat) :
    (block addr size).card = size := by
  simp [block]

/-- Blocks of which one ends before the other begins are disjoint. -/
theorem disjoint_block
    {a m b n : Nat}
    (h : a + m ≤ b ∨ b + n ≤ a) :
    Disjoint (block a m) (block b n) := by
  rw [Finset.disjoint_left]
  intro x hx hx'
  rw [block, Finset.mem_Ico] at hx hx'
  omega

end Regions
