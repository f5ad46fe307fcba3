import Mathlib.Data.List.Nodup
import Mathlib.Order.Basic

/-!
# Sweeping a table by a copy of its keys

A program that empties a shared table often copies the keys first and then removes the
entries one by one, looking up one key after the other.  Between these steps others add
and remove entries, also under a key that is still in the copy.

An entry has a key, under which it is looked up, and a number, which tells it from every
other entry there ever was.  What the sweep has to remove is given as numbers.  Each lemma
says what one change of the table, or one step of the sweep, preserves.
-/

namespace Sweep

universe u v w

variable {α : Type u} {κ : Type v} {ι : Type w}

section Invariant

variable [LT ι]

/-- Where a sweep is: `targets` are the numbers that it has to remove, `pending` the rest
of its copy once it has one, and `removed` the numbers that it has removed. -/
structure OnTrack
    (key : α → κ)
    (number : α → ι)
    (entries : List α)
    (next : ι)
    (targets : List ι)
    (pending : Option (List κ))
    (removed : List ι) :
    Prop where
  numbered : (entries.map number).Nodup
  entries_below : ∀ e ∈ entries, number e < next
  targets_below : ∀ n ∈ targets, n < next
  removed_below : ∀ n ∈ removed, n < next
  removed_once : removed.Nodup
  gone : ∀ e ∈ entries, number e ∉ removed
  /-- Every target that is still there is under a key of the copy. -/
  covered : ∀ keys ∈ pending, ∀ e ∈ entries, number e ∈ targets → key e ∈ keys

theorem onTrack_empty
    (key : α → κ)
    (number : α → ι)
    (next : ι) :
    OnTrack key number [] next [] none [] := by
  constructor <;> simp

variable {key : α → κ} {number : α → ι} {entries : List α} {next : ι}
variable {targets removed : List ι} {pending : Option (List κ)}

/-- Others may remove entries. -/
theorem onTrack_sublist
    {entries' : List α}
    (h : OnTrack key number entries next targets pending removed)
    (hsub : entries'.Sublist entries) :
    OnTrack key number entries' next targets pending removed where
  numbered := h.numbered.sublist (hsub.map number)
  entries_below e he := h.entries_below e (hsub.subset he)
  targets_below := h.targets_below
  removed_below := h.removed_below
  removed_once := h.removed_once
  gone e he := h.gone e (hsub.subset he)
  covered keys hkeys e he := h.covered keys hkeys e (hsub.subset he)

/-- The sweep begins: it has to remove what is there. -/
theorem onTrack_begin
    (h : OnTrack key number entries next targets none removed) :
    OnTrack key number entries next (entries.map number) none removed where
  numbered := h.numbered
  entries_below := h.entries_below
  targets_below := by simpa using h.entries_below
  removed_below := h.removed_below
  removed_once := h.removed_once
  gone := h.gone
  covered := by simp

/-- The keys are copied. -/
theorem onTrack_copy
    (h : OnTrack key number entries next targets none removed) :
    OnTrack key number entries next targets (some (entries.map key)) removed where
  numbered := h.numbered
  entries_below := h.entries_below
  targets_below := h.targets_below
  removed_below := h.removed_below
  removed_once := h.removed_once
  gone := h.gone
  covered := by
    intro keys hkeys e he _
    obtain rfl := Option.some.inj hkeys
    exact List.mem_map_of_mem he

/-- When nothing is left of the copy, no target is left in the table. -/
theorem targets_gone
    (h : OnTrack key number entries next targets (some []) removed) :
    ∀ n ∈ targets, ∀ e ∈ entries, number e ≠ n := by
  rintro _ hn e he rfl
  simpa using h.covered [] rfl e he hn

end Invariant

section Numbers

variable [Preorder ι]
variable {key : α → κ} {number : α → ι} {entries : List α} {next : ι}
variable {targets removed : List ι} {pending : Option (List κ)}

/-- Numbers may be used up. -/
theorem onTrack_skip
    {next' : ι}
    (h : OnTrack key number entries next targets pending removed)
    (hle : next ≤ next') :
    OnTrack key number entries next' targets pending removed where
  numbered := h.numbered
  entries_below e he := (h.entries_below e he).trans_le hle
  targets_below n hn := (h.targets_below n hn).trans_le hle
  removed_below n hn := (h.removed_below n hn).trans_le hle
  removed_once := h.removed_once
  gone := h.gone
  covered := h.covered

/-- Others may add an entry under any key: it has a new number. -/
theorem onTrack_snoc
    {e : α} {next' : ι}
    (h : OnTrack key number entries next targets pending removed)
    (hnumber : number e = next)
    (hlt : next < next') :
    OnTrack key number (entries ++ [e]) next' targets pending removed := by
  have hrest := onTrack_skip h hlt.le
  refine ⟨?_, ?_, hrest.targets_below, hrest.removed_below, h.removed_once, ?_, ?_⟩
  · rw [List.map_append, List.nodup_append]
    refine ⟨h.numbered, List.nodup_singleton _, ?_⟩
    intro a ha b hb hab
    obtain ⟨d, hd, rfl⟩ := List.mem_map.mp ha
    obtain rfl : b = number e := by simpa using hb
    have hbelow := h.entries_below d hd
    rw [hab, hnumber] at hbelow
    exact lt_irrefl _ hbelow
  · rw [List.forall_mem_append]
    refine ⟨hrest.entries_below, ?_⟩
    simpa [hnumber] using hlt
  · rw [List.forall_mem_append]
    refine ⟨h.gone, ?_⟩
    rw [List.forall_mem_singleton, hnumber]
    exact fun hmem => lt_irrefl _ (h.removed_below _ hmem)
  · intro keys hkeys
    rw [List.forall_mem_append, List.forall_mem_singleton, hnumber]
    refine ⟨h.covered keys hkeys, fun hmem => ?_⟩
    exact absurd (h.targets_below _ hmem) (lt_irrefl _)

end Numbers

section Removal

variable [DecidableEq κ]
variable {key : α → κ} {number : α → ι} {entries : List α}

/-- The number of the entry under a key, if there is one. -/
def numberUnder (key : α → κ) (number : α → ι) (entries : List α) (k : κ) : List ι :=
  ((entries.find? fun e => key e = k).map number).toList

theorem entry_of_mem_numberUnder
    {k : κ} {n : ι}
    (h : n ∈ numberUnder key number entries k) :
    ∃ e ∈ entries, key e = k ∧ number e = n := by
  simp only [numberUnder, Option.mem_toList, Option.map_eq_some_iff] at h
  obtain ⟨e, he, rfl⟩ := h
  exact ⟨e, List.mem_of_find?_eq_some he, by simpa using List.find?_some he, rfl⟩

/-- The next key of the copy is looked up, and what is under it is removed. -/
theorem onTrack_remove
    [LT ι]
    {next : ι} {targets removed : List ι}
    {k : κ} {keys : List κ}
    (h : OnTrack key number entries next targets (some (k :: keys)) removed) :
    OnTrack key number (entries.filter fun e => key e ≠ k) next targets (some keys)
      (removed ++ numberUnder key number entries k) := by
  have hsub : (entries.filter fun e => key e ≠ k).Sublist entries := List.filter_sublist
  have hrest := onTrack_sublist h hsub
  refine ⟨hrest.numbered, hrest.entries_below, h.targets_below, ?_, ?_, ?_, ?_⟩
  · rw [List.forall_mem_append]
    refine ⟨h.removed_below, fun n hn => ?_⟩
    obtain ⟨d, hd, -, rfl⟩ := entry_of_mem_numberUnder hn
    exact h.entries_below d hd
  · rw [List.nodup_append]
    refine ⟨h.removed_once, ?_, ?_⟩
    · unfold numberUnder
      cases (entries.find? fun e => key e = k).map number <;> simp
    · rintro a ha _ hn rfl
      obtain ⟨d, hd, -, rfl⟩ := entry_of_mem_numberUnder hn
      exact h.gone d hd ha
  · intro e he hmem
    rw [List.mem_filter] at he
    rcases List.mem_append.mp hmem with hmem | hmem
    · exact h.gone e he.1 hmem
    · obtain ⟨d, hd, hkey, hnumber⟩ := entry_of_mem_numberUnder hmem
      obtain rfl := List.inj_on_of_nodup_map h.numbered hd he.1 hnumber
      simp [hkey] at he
  · intro keys' hkeys e he htarget
    obtain rfl := Option.some.inj hkeys
    rw [List.mem_filter] at he
    have hmem := h.covered _ rfl e he.1 htarget
    exact (List.mem_cons.mp hmem).resolve_left (by simpa using he.2)

end Removal

end Sweep
