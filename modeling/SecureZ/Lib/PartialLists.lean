import Mathlib.Data.List.Nodup

/-!
# Lists of partial values

A function that can fail is applied to every element of a list with `mapM`, and the values
are joined or processed one after the other.  The lemmas say where the values of the elements
are in the result, and carry facts about the elements to the list.
-/

namespace CLib

section Values

/-- Running through lists one after the other is running through them joined. -/
theorem foldlM_bind_eq
    {α β σ : Type} {f : α → Option (List β)} {g : σ → β → Option σ}
    (xs : List α) (s : σ) :
    xs.foldlM (fun s x => (f x).bind fun ys => ys.foldlM g s) s =
      (xs.mapM f).bind fun parts => parts.flatten.foldlM g s := by
  induction xs generalizing s with
  | nil =>
      rfl
  | cons x xs ih =>
      rw [List.foldlM_cons, List.mapM_cons]
      cases f x with
      | none => rfl
      | some ys =>
          simp only [Option.bind_eq_bind, Option.bind_some]
          cases hs : ys.foldlM g s with
          | none =>
              cases xs.mapM f with
              | none => rfl
              | some parts => simp [List.foldlM_append, hs]
          | some s' =>
              simp only [Option.bind_some]
              rw [ih]
              cases xs.mapM f with
              | none => rfl
              | some parts => simp [List.foldlM_append, hs]

/-- Where a list has values, each element has one, and it is among them. -/
theorem value_of_mapM
    {α β : Type} {f : α → Option β} {xs : List α} {ys : List β}
    (h : xs.mapM f = some ys)
    {x : α} (hx : x ∈ xs) :
    ∃ y ∈ ys, f x = some y := by
  induction xs generalizing ys with
  | nil => cases hx
  | cons z xs ih =>
      simp only [List.mapM_cons, Option.bind_eq_bind, Option.bind_eq_some_iff, Option.pure_def,
        Option.some.injEq] at h
      obtain ⟨y, hy, zs, hzs, rfl⟩ := h
      rcases List.mem_cons.mp hx with rfl | hrest
      · exact ⟨y, List.mem_cons_self, hy⟩
      · obtain ⟨v, hv, hfv⟩ := ih hzs hrest
        exact ⟨v, List.mem_cons_of_mem y hv, hfv⟩

/-- Where an element has no value, the list has none. -/
theorem mapM_eq_none_of_mem
    {α β : Type} {f : α → Option β} {xs : List α} {x : α}
    (hx : x ∈ xs)
    (h : f x = none) :
    xs.mapM f = none := by
  rw [Option.eq_none_iff_forall_ne_some]
  intro ys hys
  obtain ⟨y, -, hy⟩ := value_of_mapM hys hx
  rw [h] at hy
  cases hy

/-- Where a list has no values twice, different elements have disjoint ones. -/
theorem disjoint_of_mapM
    {α β : Type} {f : α → Option (List β)} {xs : List α} {parts : List (List β)}
    (h : xs.mapM f = some parts)
    (hnodup : parts.flatten.Nodup)
    {x y : α} (hx : x ∈ xs) (hy : y ∈ xs) (hne : x ≠ y)
    {us vs : List β} (hu : f x = some us) (hv : f y = some vs) :
    us.Disjoint vs := by
  induction xs generalizing parts with
  | nil => cases hx
  | cons z xs ih =>
      simp only [List.mapM_cons, Option.bind_eq_bind, Option.bind_eq_some_iff, Option.pure_def,
        Option.some.injEq] at h
      obtain ⟨ws, hws, rest, hrest, rfl⟩ := h
      rw [List.flatten_cons, List.nodup_append] at hnodup
      obtain ⟨-, hnodupRest, hapart⟩ := hnodup
      -- A value of a later element is in the rest.
      have hlater : ∀ {w : α} {ts : List β}, w ∈ xs → f w = some ts → ws.Disjoint ts := by
        intro w ts hw hts
        obtain ⟨part, hpart, heq⟩ := value_of_mapM hrest hw
        obtain rfl := Option.some.inj (hts.symm.trans heq)
        rw [List.disjoint_left]
        intro b hb hbt
        exact hapart b hb b (List.mem_flatten_of_mem hpart hbt) rfl
      rcases List.mem_cons.mp hx with rfl | hxs <;> rcases List.mem_cons.mp hy with rfl | hys
      · exact absurd rfl hne
      · obtain rfl := Option.some.inj (hu.symm.trans hws)
        exact hlater hys hv
      · obtain rfl := Option.some.inj (hv.symm.trans hws)
        exact fun b hb hbv => hlater hxs hu hbv hb
      · exact ih hrest hnodupRest hxs hys

/-- Where every element has a value, the list has them. -/
theorem mapM_eq_map
    {α β : Type} {f : α → Option β} {g : α → β} {xs : List α}
    (h : ∀ x ∈ xs, f x = some (g x)) :
    xs.mapM f = some (xs.map g) := by
  induction xs with
  | nil => rfl
  | cons x xs ih =>
      rw [List.forall_mem_cons] at h
      simp [List.mapM_cons, h.1, ih h.2]

/-- Values that are changed afterwards are changed for the list. -/
theorem mapM_map_value
    {α β γ : Type} (f : α → Option β) (g : β → γ) (xs : List α) :
    xs.mapM (fun x => (f x).map g) = (xs.mapM f).map (List.map g) := by
  induction xs with
  | nil =>
      rfl
  | cons x xs ih =>
      rw [List.mapM_cons, List.mapM_cons, ih]
      cases f x with
      | none => rfl
      | some y => cases xs.mapM f <;> rfl

end Values

section Fuel

/-- Fuel that is enough for each element of a list is enough for all when it is large. -/
theorem exists_fuel
    {α : Type} {enough : α → Nat → Prop} {xs : List α}
    (h : ∀ x ∈ xs, ∃ k, ∀ fuel, k ≤ fuel → enough x fuel) :
    ∃ k, ∀ x ∈ xs, ∀ fuel, k ≤ fuel → enough x fuel := by
  induction xs with
  | nil => exact ⟨0, by simp⟩
  | cons x xs ih =>
      rw [List.forall_mem_cons] at h
      obtain ⟨⟨k, hk⟩, hrest⟩ := h
      obtain ⟨l, hl⟩ := ih hrest
      refine ⟨max k l, ?_⟩
      rw [List.forall_mem_cons]
      exact ⟨fun fuel hfuel => hk fuel (by omega), fun y hy fuel hfuel => hl y hy fuel (by omega)⟩

end Fuel

end CLib
