import Mathlib.Data.List.Nodup
import Mathlib.Logic.Function.Basic

/-!
# Blocks of memory

The memory of a program that calls `malloc` and `free`, as far as it matters which blocks are
allocated.  The blocks are numbered in the order of their allocation, which tells apart those
that get the same address one after the other.  A pointer has the number of its block and what
was put there when it was allocated, for blocks that nobody writes to later.

A program owns a list of blocks when these are the ones that are allocated and nothing was used
that was not.  The rules say what allocating, using and freeing do to that list.
-/

namespace Blocks

universe u

/-- A pointer to a block. -/
structure Ptr (β : Type u) where
  block : Nat
  content : β
deriving DecidableEq

/-- The blocks that are allocated. -/
structure Memory where
  live : List Nat
  next : Nat
  /-- A block was used that is not allocated. -/
  fault : Bool
  nodup : live.Nodup
  below : ∀ b ∈ live, b < next

variable {β : Type u}

/-- Nothing is allocated. -/
def Memory.start : Memory where
  live := []
  next := 0
  fault := false
  nodup := List.nodup_nil
  below := by simp

/-- An allocation, with what is put into the block. -/
def Memory.alloc (m : Memory) (v : β) : Ptr β × Memory where
  fst := ⟨m.next, v⟩
  snd := {
    live := m.next :: m.live
    next := m.next + 1
    fault := m.fault
    nodup := List.nodup_cons.mpr ⟨fun h => Nat.lt_irrefl _ (m.below _ h), m.nodup⟩
    below := by
      intro b hb
      rcases List.mem_cons.mp hb with rfl | hb
      · exact Nat.lt_succ_self _
      · exact Nat.lt_succ_of_lt (m.below b hb) }

/-- Something is used that is not there. -/
def Memory.fail (m : Memory) : Memory :=
  { m with fault := true }

/-- A read through a pointer. -/
def Memory.touch (m : Memory) (p : Ptr β) : Memory :=
  if p.block ∈ m.live then m else m.fail

/-- `free`, of a pointer that is not null. -/
def Memory.free (m : Memory) (p : Ptr β) : Memory :=
  if p.block ∈ m.live then
    { m with
      live := m.live.erase p.block
      nodup := m.nodup.erase _
      below := fun b hb => m.below b (List.mem_of_mem_erase hb) }
  else m.fail

/-- The blocks that are allocated are these, and nothing was used that was not there. -/
structure Memory.Owns (m : Memory) (owned : List Nat) : Prop where
  noFault : m.fault = false
  live : m.live.Perm owned

theorem owns_start : Memory.start.Owns [] :=
  ⟨rfl, List.Perm.refl _⟩

section Rules

variable {m : Memory} {owned owned' : List Nat} {p : Ptr β}

theorem Memory.Owns.perm
    (h : m.Owns owned)
    (hperm : owned.Perm owned') :
    m.Owns owned' :=
  ⟨h.noFault, h.live.trans hperm⟩

theorem Memory.Owns.alloc
    (h : m.Owns owned)
    (v : β) :
    (m.alloc v).2.Owns ((m.alloc v).1.block :: owned) :=
  ⟨h.noFault, h.live.cons _⟩

@[simp] theorem alloc_content
    (m : Memory) (v : β) :
    (m.alloc v).1.content = v :=
  rfl

/-- What is owned can be used. -/
theorem Memory.Owns.touch
    (h : m.Owns owned)
    (hp : p.block ∈ owned) :
    m.touch p = m :=
  if_pos (h.live.mem_iff.mpr hp)

theorem Memory.Owns.free
    (h : m.Owns (p.block :: owned)) :
    (m.free p).Owns owned := by
  have hlive : p.block ∈ m.live := h.live.mem_iff.mpr (List.mem_cons_self ..)
  rw [Memory.free, if_pos hlive]
  refine ⟨h.noFault, ?_⟩
  have herase := h.live.erase p.block
  rwa [List.erase_cons_head] at herase

/-- Several blocks are used. -/
theorem Memory.Owns.touchAll
    {ps : List (Ptr β)}
    (h : m.Owns owned)
    (hps : ∀ p ∈ ps, p.block ∈ owned) :
    ps.foldl Memory.touch m = m := by
  induction ps with
  | nil => rfl
  | cons p ps ih =>
      rw [List.forall_mem_cons] at hps
      rw [List.foldl_cons, h.touch hps.1, ih hps.2]

/-- Several blocks are freed. -/
theorem Memory.Owns.freeAll
    {ps : List (Ptr β)}
    (h : m.Owns (ps.map Ptr.block ++ owned)) :
    (ps.foldl Memory.free m).Owns owned := by
  induction ps generalizing m with
  | nil => exact h
  | cons p ps ih => exact ih h.free

/-- Behind a fault everything is faulty. -/
theorem fault_free
    (h : m.fault = true)
    (p : Ptr β) :
    (m.free p).fault = true := by
  rw [Memory.free]
  split_ifs
  · exact h
  · rfl

theorem fault_touch
    (h : m.fault = true)
    (p : Ptr β) :
    (m.touch p).fault = true := by
  rw [Memory.touch]
  split_ifs
  · exact h
  · rfl

theorem fault_alloc
    (h : m.fault = true)
    (v : β) :
    (m.alloc v).2.fault = true :=
  h

theorem fault_foldl
    {ε : Type u} {f : Memory → ε → Memory}
    (hf : ∀ m e, m.fault = true → (f m e).fault = true)
    (h : m.fault = true)
    (es : List ε) :
    (es.foldl f m).fault = true := by
  induction es generalizing m with
  | nil => exact h
  | cons e es ih => exact ih (hf m e h)

/-- Something faulty is done on the way. -/
theorem fault_foldl_of_mem
    {ε : Type u} {f : Memory → ε → Memory} {es : List ε} {e : ε}
    (hf : ∀ m e, m.fault = true → (f m e).fault = true)
    (hmem : e ∈ es)
    (he : ∀ m, (f m e).fault = true)
    (m : Memory) :
    (es.foldl f m).fault = true := by
  obtain ⟨before, behind, rfl⟩ := List.append_of_mem hmem
  rw [List.foldl_append, List.foldl_cons]
  exact fault_foldl hf (he _) behind

end Rules

section Slots

variable {ι : Type u} [DecidableEq ι] {slots : List ι} {i : ι}

/-- A slot that is set gives up what was in it. -/
theorem perm_filterMap_update
    (held : ι → Option β)
    (hnodup : slots.Nodup)
    (hi : i ∈ slots)
    (p : β) :
    (slots.filterMap (Function.update held i (some p)) ++ (held i).toList).Perm
      (p :: slots.filterMap held) := by
  obtain ⟨before, behind, rfl⟩ := List.append_of_mem hi
  have hother : ∀ js : List ι, i ∉ js →
      js.filterMap (Function.update held i (some p)) = js.filterMap held := by
    intro js hjs
    apply List.filterMap_congr
    intro j hj
    have hne : j ≠ i := by
      rintro rfl
      exact hjs hj
    exact Function.update_of_ne hne _ _
  obtain ⟨-, hbehind, hdisjoint⟩ := List.nodup_append.mp hnodup
  have hbefore : i ∉ before := fun hin => hdisjoint i hin i (List.mem_cons_self ..) rfl
  rw [List.filterMap_append, List.filterMap_append, hother before hbefore,
    List.filterMap_cons_some (Function.update_self i (some p) held),
    hother behind (List.nodup_cons.mp hbehind).1]
  have hsplit : (i :: behind).filterMap held = (held i).toList ++ behind.filterMap held := by
    cases hheld : held i with
    | none => rw [List.filterMap_cons_none hheld]; rfl
    | some q => rw [List.filterMap_cons_some hheld]; rfl
  rw [hsplit, List.append_assoc]
  have hfirst : (before.filterMap held ++
      ((p :: behind.filterMap held) ++ (held i).toList)).Perm
        (p :: (before.filterMap held ++ (behind.filterMap held ++ (held i).toList))) :=
    List.perm_middle
  exact hfirst.trans ((List.perm_append_comm.append_left _).cons _)

end Slots

end Blocks
