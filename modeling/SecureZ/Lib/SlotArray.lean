import Mathlib.Data.List.Forall2

/-!
# Arrays with a counter

A C program often keeps a collection in a fixed array with a counter: the first `count`
slots are the elements, a new element is written behind the last one, and a removed one
is overwritten by moving the ones behind it down.

The elements in order are a list.  Each lemma says what one access to the array does to
that list, so that what is proved about lists holds of the array.
-/

namespace SlotArray

universe u

variable {α : Type u}

section Accesses

/-- The elements of the collection, in order. -/
def entries (slots : Nat → α) (count : Nat) : List α :=
  (List.range count).map slots

/-- An assignment to one slot. -/
def write (slots : Nat → α) (idx : Nat) (e : α) : Nat → α :=
  fun i => if i = idx then e else slots i

/-- The `memmove` that closes the gap at `idx`. -/
def closeGap (slots : Nat → α) (idx count : Nat) : Nat → α :=
  fun i => if idx ≤ i ∧ i + 1 < count then slots (i + 1) else slots i

/-- The loop that looks for the first element with a property. -/
def find (p : α → Bool) (slots : Nat → α) (count : Nat) : Option Nat :=
  (List.range count).find? fun i => p (slots i)

end Accesses

section Entries

@[simp] theorem length_entries
    (slots : Nat → α) (count : Nat) :
    (entries slots count).length = count := by
  simp [entries]

@[simp] theorem entries_zero
    (slots : Nat → α) :
    entries slots 0 = [] :=
  rfl

theorem entries_succ
    (slots : Nat → α) (count : Nat) :
    entries slots (count + 1) = entries slots count ++ [slots count] := by
  simp [entries, List.range_succ]

theorem getElem?_entries
    {slots : Nat → α} {count i : Nat}
    (h : i < count) :
    (entries slots count)[i]? = some (slots i) := by
  simp [entries, h]

theorem mem_entries
    {slots : Nat → α} {count : Nat} {e : α} :
    e ∈ entries slots count ↔ ∃ i, i < count ∧ slots i = e := by
  simp [entries]

/-- Only the slots below the counter matter. -/
theorem entries_congr
    {slots slots' : Nat → α} {count : Nat}
    (h : ∀ i, i < count → slots i = slots' i) :
    entries slots count = entries slots' count := by
  refine List.map_congr_left fun i hi => h i ?_
  exact List.mem_range.mp hi

end Entries

section Updates

/-- A write behind the elements changes none of them. -/
theorem entries_write_end
    (slots : Nat → α) (count : Nat) (e : α) :
    entries (write slots count e) count = entries slots count := by
  refine entries_congr fun i hi => ?_
  simp [write, Nat.ne_of_lt hi]

/-- A write behind the elements that is counted appends one. -/
theorem entries_write_succ
    (slots : Nat → α) (count : Nat) (e : α) :
    entries (write slots count e) (count + 1) = entries slots count ++ [e] := by
  rw [entries_succ, entries_write_end]
  simp [write]

theorem entries_write
    (slots : Nat → α) (idx count : Nat) (e : α) :
    entries (write slots idx e) count = (entries slots count).set idx e := by
  apply List.ext_getElem?
  intro i
  by_cases hi : i < count
  · rw [getElem?_entries hi, List.getElem?_set]
    by_cases hidx : idx = i
    · simp [hidx, hi, write]
    · rw [if_neg hidx, getElem?_entries hi]
      simp [write, Ne.symm hidx]
  · have hlen : ¬ i < ((entries slots count).set idx e).length := by
      simpa using hi
    rw [List.getElem?_eq_none (by simpa using hi), List.getElem?_eq_none (by simpa using hi)]

/-- Closing a gap removes the element there. -/
theorem entries_closeGap
    {slots : Nat → α} {idx count : Nat}
    (h : idx < count) :
    entries (closeGap slots idx count) (count - 1) = (entries slots count).eraseIdx idx := by
  apply List.ext_getElem?
  intro i
  rw [List.getElem?_eraseIdx]
  by_cases hi : i < count - 1
  · rw [getElem?_entries hi]
    by_cases hidx : i < idx
    · rw [if_pos hidx, getElem?_entries (by omega), closeGap, if_neg (by omega)]
    · rw [if_neg hidx, getElem?_entries (by omega), closeGap, if_pos (by omega)]
  · rw [if_neg (by omega), List.getElem?_eq_none (by simpa using Nat.le_of_not_lt hi),
      List.getElem?_eq_none (by rw [length_entries]; omega)]

/-- The element that is removed may be overwritten first. -/
theorem entries_closeGap_write
    {slots : Nat → α} {idx count : Nat}
    (h : idx < count)
    (e : α) :
    entries (closeGap (write slots idx e) idx count) (count - 1) =
      (entries slots count).eraseIdx idx := by
  rw [entries_closeGap h, entries_write, List.eraseIdx_set_eq]

end Updates

section Search

variable {p : α → Bool} {slots : Nat → α} {count idx : Nat}

theorem find_eq_some_iff :
    find p slots count = some idx
      ↔
    idx < count ∧ p (slots idx) = true ∧ ∀ i, i < idx → p (slots i) = false := by
  unfold find
  rw [List.find?_range_eq_some, List.mem_range]
  constructor
  · rintro ⟨hp, hlt, hbefore⟩
    exact ⟨hlt, hp, fun i hi => by simpa using hbefore i hi⟩
  · rintro ⟨hlt, hp, hbefore⟩
    exact ⟨hp, hlt, fun i hi => by simpa using hbefore i hi⟩

theorem find_eq_none_iff :
    find p slots count = none ↔ ∀ e ∈ entries slots count, p e = false := by
  unfold find
  rw [List.find?_range_eq_none]
  constructor
  · intro h e he
    obtain ⟨i, hi, rfl⟩ := mem_entries.mp he
    simpa using h i hi
  · intro h i hi
    simpa using h (slots i) (mem_entries.mpr ⟨i, hi, rfl⟩)

/-- The loop finds the element that the list has first. -/
theorem find?_entries :
    (entries slots count).find? p = (find p slots count).map slots := by
  rw [entries, List.find?_map]
  rfl

/-- Removing what the loop finds removes the first element with the property. -/
theorem eraseIdx_of_find
    (h : find p slots count = some idx) :
    (entries slots count).eraseIdx idx = (entries slots count).eraseP p := by
  obtain ⟨hlt, hp, hbefore⟩ := find_eq_some_iff.mp h
  have hfind : (entries slots count).findIdx? p = some idx := by
    rw [List.findIdx?_eq_some_iff_getElem]
    refine ⟨by simpa using hlt, by simpa [entries] using hp, ?_⟩
    intro i hi
    simpa [entries] using hbefore i hi
  rw [List.eraseP_eq_eraseIdx, hfind]

end Search

section Keys

variable {β : Type u} [DecidableEq β]

/-- Where keys differ, removing the first element with a key removes all of them. -/
theorem eraseP_key_eq_filter
    (key : α → β) {l : List α}
    (h : l.Pairwise fun a b => key a ≠ key b)
    (k : β) :
    l.eraseP (fun e => key e = k) = l.filter (fun e => key e ≠ k) := by
  induction l with
  | nil =>
      rfl
  | cons a l ih =>
      rw [List.pairwise_cons] at h
      by_cases ha : key a = k
      · have hrest : l.filter (fun e => key e ≠ k) = l := by
          rw [List.filter_eq_self]
          intro e he
          simpa [← ha] using (h.1 e he).symm
        rw [List.eraseP_cons_of_pos (by simpa using ha),
          List.filter_cons_of_neg (by simpa using ha), hrest]
      · rw [List.eraseP_cons_of_neg (by simpa using ha),
          List.filter_cons_of_pos (by simpa using ha), ih h.2]

/-- Where keys differ, dropping the key of one position drops that position. -/
theorem filter_key_eq_eraseIdx
    (key : α → β) {l : List α}
    (h : l.Pairwise fun a b => key a ≠ key b)
    {i : Nat} {a : α}
    (ha : l[i]? = some a) :
    l.filter (fun b => key b ≠ key a) = l.eraseIdx i := by
  induction l generalizing i with
  | nil =>
      simp at ha
  | cons b l ih =>
      rw [List.pairwise_cons] at h
      cases i with
      | zero =>
          obtain rfl := Option.some.inj ha
          rw [List.filter_cons_of_neg (by simp), List.eraseIdx_cons_zero, List.filter_eq_self]
          intro c hc
          simpa using (h.1 c hc).symm
      | succ i =>
          have hmem : a ∈ l := List.mem_of_getElem? ha
          rw [List.filter_cons_of_pos (by simpa using h.1 a hmem), List.eraseIdx_cons_succ,
            ih h.2 ha]

end Keys

section Parallel

variable {β : Type u} {R : α → β → Prop} {as : List α} {bs : List β}

/-- Lists in parallel stay so when both lose the same position. -/
theorem forall₂_eraseIdx
    (h : List.Forall₂ R as bs)
    (i : Nat) :
    List.Forall₂ R (as.eraseIdx i) (bs.eraseIdx i) := by
  induction h generalizing i with
  | nil =>
      exact .nil
  | cons hab hrest ih =>
      cases i with
      | zero => exact hrest
      | succ i => exact .cons hab (ih i)

/-- What stands beside an element in lists in parallel. -/
theorem forall₂_getElem?
    (h : List.Forall₂ R as bs)
    {i : Nat} {b : β}
    (hb : bs[i]? = some b) :
    ∃ a, as[i]? = some a ∧ R a b := by
  induction h generalizing i with
  | nil =>
      simp at hb
  | cons hab hrest ih =>
      cases i with
      | zero =>
          obtain rfl := Option.some.inj hb
          exact ⟨_, rfl, hab⟩
      | succ i => exact ih hb

/-- Every element of the first list has one beside it in the second. -/
theorem forall₂_mem
    (h : List.Forall₂ R as bs)
    {a : α}
    (ha : a ∈ as) :
    ∃ b ∈ bs, R a b := by
  induction h with
  | nil =>
      simp at ha
  | cons hab hrest ih =>
      rcases List.mem_cons.mp ha with rfl | ha
      · exact ⟨_, List.mem_cons_self, hab⟩
      · obtain ⟨b, hb, hR⟩ := ih ha
        exact ⟨b, List.mem_cons_of_mem _ hb, hR⟩

end Parallel

end SlotArray
