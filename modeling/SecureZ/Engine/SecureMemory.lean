import Mathlib.Data.List.Perm.Basic

/-!
# Secure memory and its tracker

`secure_memory.c` hands out memory of `sodium_malloc` and keeps a list of what it has
handed out, so that an emergency wipe can release all of it.  The list has a mutex; each
function below is one of its critical sections or a call made without the mutex.

A pointer carries the allocation that it came from next to its address: C compares the
addresses, while a release or a use is one of the allocation.
-/

namespace SecureZ
namespace SecureMemory

/-- `size_t`. -/
abbrev SizeT := BitVec 64

/-- A pointer that `sodium_malloc` returned. -/
structure Pointer where
  addr : Nat
  alloc : Nat
deriving DecidableEq

/-- `AllocNode`. -/
structure AllocNode where
  ptr : Pointer
  size : SizeT
deriving DecidableEq

/-- The static state of the module. -/
structure Tracker where
  initialized : Bool
  allocList : List AllocNode
  allocCount : SizeT
  allocTotalBytes : SizeT
deriving DecidableEq

/-- The state after `secure_memory_init`. -/
def secureMemoryInit : Tracker := ⟨true, [], 0, 0⟩

/-- `tracker_add`; `node` says whether the node could be allocated. -/
def trackerAdd (t : Tracker) (node : Bool) (ptr : Pointer) (size : SizeT) : Tracker :=
  if node then
    { t with
      allocList := ⟨ptr, size⟩ :: t.allocList
      allocCount := t.allocCount + 1
      allocTotalBytes := t.allocTotalBytes + size }
  else t

/-- A node holds the address. -/
def AllocNode.isAt (n : AllocNode) (ptr : Pointer) : Bool :=
  n.ptr.addr == ptr.addr

/-- `tracker_remove`: the first node with the address goes, if there is one. -/
def trackerRemove (t : Tracker) (ptr : Pointer) (size : SizeT) : Tracker :=
  if t.allocList.any (fun n => n.isAt ptr) then
    { t with
      allocList := t.allocList.eraseP (fun n => n.isAt ptr)
      allocCount := t.allocCount - 1
      allocTotalBytes := t.allocTotalBytes - size }
  else t

/-- The check at the head of `secure_alloc`. -/
def mayAllocate (t : Tracker) (size : SizeT) : Bool :=
  t.initialized && size != 0

/-- `secure_emergency_wipe`: the tracker, and the pointers released, in order. -/
def secureEmergencyWipe (t : Tracker) : Tracker × List Pointer :=
  ({ t with allocList := [], allocCount := 0, allocTotalBytes := 0 },
    t.allocList.map AllocNode.ptr)

section Lemmas

@[simp] theorem allocList_trackerAdd
    (t : Tracker) (node : Bool) (ptr : Pointer) (size : SizeT) :
    (trackerAdd t node ptr size).allocList =
      if node then ⟨ptr, size⟩ :: t.allocList else t.allocList := by
  cases node <;> rfl

@[simp] theorem allocList_trackerRemove
    (t : Tracker) (ptr : Pointer) (size : SizeT) :
    (trackerRemove t ptr size).allocList =
      t.allocList.eraseP (fun n => n.isAt ptr) := by
  unfold trackerRemove
  split_ifs with h
  · rfl
  · refine (List.eraseP_of_forall_not ?_).symm
    intro n hn hat
    exact h (List.any_eq_true.mpr ⟨n, hn, hat⟩)

/-- The addresses in the list are distinct. -/
def AddrsDistinct (nodes : List AllocNode) : Prop :=
  nodes.Pairwise fun m n => m.ptr.addr ≠ n.ptr.addr

/-- When the addresses are distinct, removing one leaves no node with it. -/
theorem mem_and_ne_of_mem_eraseP
    {nodes : List AllocNode} {ptr : Pointer} {n : AllocNode}
    (hdistinct : AddrsDistinct nodes)
    (hn : n ∈ nodes.eraseP (fun m => m.isAt ptr)) :
    n ∈ nodes ∧ n.ptr.addr ≠ ptr.addr := by
  induction nodes with
  | nil =>
      simp at hn
  | cons m nodes ih =>
      rw [AddrsDistinct, List.pairwise_cons] at hdistinct
      rw [List.eraseP_cons] at hn
      cases hm : m.isAt ptr with
      | true =>
          rw [hm, cond_true] at hn
          have hmaddr : m.ptr.addr = ptr.addr := by simpa [AllocNode.isAt] using hm
          exact ⟨List.mem_cons_of_mem m hn, hmaddr ▸ (hdistinct.1 n hn).symm⟩
      | false =>
          rw [hm, cond_false] at hn
          rcases List.mem_cons.mp hn with rfl | hn
          · exact ⟨List.mem_cons_self, by simpa [AllocNode.isAt] using hm⟩
          · obtain ⟨hmem, hne⟩ := ih hdistinct.2 hn
            exact ⟨List.mem_cons_of_mem m hmem, hne⟩

theorem addrsDistinct_eraseP
    {nodes : List AllocNode}
    (hdistinct : AddrsDistinct nodes)
    (ptr : Pointer) :
    AddrsDistinct (nodes.eraseP (fun m => m.isAt ptr)) :=
  hdistinct.sublist List.eraseP_sublist

end Lemmas

end SecureMemory
end SecureZ
