import SecureZ.Engine.SecureMemory
import SecureZ.Lib.Regions
import SecureZ.Lib.Transition
import Mathlib.Algebra.BigOperators.Group.List.Basic
import Mathlib.Algebra.GroupWithZero.Nat
import Mathlib.Data.BitVec

/-!
# The accounts of the tracker

Next to its list the tracker keeps a number of allocations and a number of bytes, each with
updates of its own.  The state here is the tracker together with the blocks that are
allocated, tracked or not.  What `sodium_malloc` returns is a part of the event: any block
that overlaps none of those.

The main result is about runs of allocations, releases and wipes: the two numbers are those
of the list, the list holds distinct allocated blocks, and a release takes one node out of it.
-/

namespace SecureZ
namespace SecureMemory

section Model

/-- The tracker, the blocks that are allocated, and the number of allocations so far. -/
structure Memory where
  tracker : Tracker
  live : List AllocNode
  allocs : Nat
deriving DecidableEq

/-- Nothing is allocated. -/
def Memory.start (initialized : Bool) : Memory := ⟨⟨initialized, [], 0, 0⟩, [], 0⟩

/-- Of two blocks one ends before the other begins. -/
def AllocNode.isApart (b c : AllocNode) : Bool :=
  decide (b.ptr.addr + b.size.toNat ≤ c.ptr.addr) ||
    decide (c.ptr.addr + c.size.toNat ≤ b.ptr.addr)

/-- `sodium_malloc` may return the block: it is not at `NULL`, it is in the address space, and
it overlaps no block that is allocated. -/
def Memory.grants (m : Memory) (b : AllocNode) : Bool :=
  decide (0 < b.ptr.addr) && decide (b.ptr.addr + b.size.toNat ≤ 2 ^ 64) &&
    m.live.all fun c => b.isApart c

/-- `secure_alloc`; `malloc` is what `sodium_malloc` returns, `node` whether the node of the
tracker could be allocated. -/
def secureAlloc (m : Memory) (size : SizeT) (malloc : Option Nat) (node : Bool) :
    Option Pointer × Memory :=
  if mayAllocate m.tracker size then
    match malloc with
    | none => (none, m)
    | some addr =>
        (some ⟨addr, m.allocs⟩,
          { tracker := trackerAdd m.tracker node ⟨addr, m.allocs⟩ size
            live := ⟨⟨addr, m.allocs⟩, size⟩ :: m.live
            allocs := m.allocs + 1 })
  else (none, m)

/-- `secure_free`. -/
def secureFree (m : Memory) (ptr : Option Pointer) (size : SizeT) : Memory :=
  match ptr with
  | none => m
  | some ptr =>
      { m with
        tracker := trackerRemove m.tracker ptr size
        live := m.live.eraseP fun b => b.isAt ptr }

/-- `secure_emergency_wipe`. -/
def emergencyWipe (m : Memory) : Memory :=
  { m with
    tracker := (secureEmergencyWipe m.tracker).1
    live := m.live.filter fun b => !(secureEmergencyWipe m.tracker).2.contains b.ptr }

/-- `secure_memory_stats`: the count and the total. -/
def secureMemoryStats (m : Memory) : SizeT × SizeT :=
  (m.tracker.allocCount, m.tracker.allocTotalBytes)

/-- A call with the outcomes of its allocations. -/
inductive MemoryCall
  | alloc (size : SizeT) (malloc : Option Nat) (node : Bool)
  | free (block : AllocNode)
  | wipe
deriving DecidableEq

/-- A call.  The block that is released is allocated and is released with its size. -/
def memoryStep (m : Memory) : MemoryCall → Option Memory
  | .alloc size malloc node =>
      if malloc.all fun addr => m.grants ⟨⟨addr, m.allocs⟩, size⟩ then
        some (secureAlloc m size malloc node).2
      else none
  | .free block =>
      if m.live.contains block then some (secureFree m (some block.ptr) block.size) else none
  | .wipe => some (emergencyWipe m)

end Model

section Specification

/-- The sizes of some blocks together. -/
def sizes (nodes : List AllocNode) : Nat :=
  (nodes.map fun n => n.size.toNat).sum

/-- The accounts are those of the list, which holds allocated blocks, each once. -/
structure TrackerExact (m : Memory) : Prop where
  count : m.tracker.allocCount.toNat = m.tracker.allocList.length
  total : m.tracker.allocTotalBytes.toNat = sizes m.tracker.allocList
  distinct : (m.tracker.allocList.map fun n => n.ptr.addr).Nodup
  live : ∀ n ∈ m.tracker.allocList, n ∈ m.live

/-- The release of an allocated block takes its node out of the list, with its size, and leaves
the others in order; when it has none, the tracker stays as it is. -/
def ReleasesExactly (m : Memory) (b : AllocNode) : Prop :=
  (b ∈ m.tracker.allocList →
      b.size.toNat ≤ m.tracker.allocTotalBytes.toNat ∧
        ∃ front rest,
          m.tracker.allocList = front ++ b :: rest ∧
            (secureFree m (some b.ptr) b.size).tracker.allocList = front ++ rest)
    ∧
  (b ∉ m.tracker.allocList → (secureFree m (some b.ptr) b.size).tracker = m.tracker)

/-- After a wipe, list, count and total are empty and zero, and no block of the list is
allocated. -/
def WipesAll (m : Memory) : Prop :=
  (emergencyWipe m).tracker.allocList = [] ∧
    secureMemoryStats (emergencyWipe m) = (0, 0) ∧
    ∀ n ∈ m.tracker.allocList, n ∉ (emergencyWipe m).live

end Specification

section Invariant

/-- Allocated blocks are parts of the address space that do not overlap, and the list holds
some of them in the order of their allocation, as many as are counted. -/
structure Sound (m : Memory) : Prop where
  nonempty : ∀ b ∈ m.live, 0 < b.size.toNat
  inSpace : ∀ b ∈ m.live, 0 < b.ptr.addr ∧ b.ptr.addr + b.size.toNat ≤ 2 ^ 64
  apart : m.live.Pairwise fun b c => b.isApart c = true
  listed : m.tracker.allocList.Sublist m.live
  count : m.tracker.allocCount = BitVec.ofNat 64 m.tracker.allocList.length

/-- The sizes of some nodes, added up as the tracker does. -/
def bytes (nodes : List AllocNode) : SizeT :=
  (nodes.map AllocNode.size).sum

@[simp] theorem bytes_cons
    (n : AllocNode) (nodes : List AllocNode) :
    bytes (n :: nodes) = n.size + bytes nodes := by
  rfl

@[simp] theorem sizes_cons
    (n : AllocNode) (nodes : List AllocNode) :
    sizes (n :: nodes) = n.size.toNat + sizes nodes := by
  rfl

theorem toNat_bytes
    (nodes : List AllocNode) :
    (bytes nodes).toNat = sizes nodes % 2 ^ 64 := by
  induction nodes with
  | nil =>
      rfl
  | cons n nodes ih =>
      rw [bytes_cons, sizes_cons, BitVec.toNat_add, ih]
      omega

theorem sizes_append
    (xs ys : List AllocNode) :
    sizes (xs ++ ys) = sizes xs + sizes ys := by
  simp [sizes]

theorem sizes_le_of_sublist
    {xs ys : List AllocNode}
    (h : xs.Sublist ys) :
    sizes xs ≤ sizes ys := by
  induction h with
  | slnil =>
      exact le_rfl
  | cons n _ ih =>
      rw [sizes_cons]
      omega
  | cons_cons n _ ih =>
      rw [sizes_cons, sizes_cons]
      omega

theorem AllocNode.isApart_comm
    (b c : AllocNode) :
    b.isApart c = c.isApart b :=
  Bool.or_comm _ _

instance : Std.Symm fun b c : AllocNode => b.isApart c = true :=
  ⟨fun b c h => (AllocNode.isApart_comm c b).trans h⟩

variable {m : Memory}

/-- Two allocated blocks at one address are the same block. -/
theorem eq_of_addr_eq
    (h : Sound m)
    {b c : AllocNode}
    (hb : b ∈ m.live)
    (hc : c ∈ m.live)
    (haddr : b.ptr.addr = c.ptr.addr) :
    b = c := by
  by_contra hne
  have hapart : b.isApart c = true := h.apart.forall hb hc hne
  have hb0 := h.nonempty b hb
  have hc0 := h.nonempty c hc
  simp only [AllocNode.isApart, Bool.or_eq_true, decide_eq_true_eq] at hapart
  omega

/-- The allocated blocks have room in the address space. -/
theorem sizes_live_lt
    (h : Sound m) :
    sizes m.live < 2 ^ 64 := by
  have hapart :
      (m.live.map fun b => Regions.block b.ptr.addr b.size.toNat).Pairwise Disjoint := by
    rw [List.pairwise_map]
    refine h.apart.imp fun {b c} hbc => ?_
    simp only [AllocNode.isApart, Bool.or_eq_true, decide_eq_true_eq] at hbc
    exact Regions.disjoint_block hbc
  have hspace :
      ∀ part ∈ m.live.map fun b => Regions.block b.ptr.addr b.size.toNat,
        part ⊆ Regions.block 1 (2 ^ 64 - 1) := by
    intro part hpart
    obtain ⟨b, hb, rfl⟩ := List.mem_map.mp hpart
    have hin := h.inSpace b hb
    intro x hx
    rw [Regions.block, Finset.mem_Ico] at hx ⊢
    omega
  have hsum := Regions.sum_card_le_card hapart hspace
  rw [List.map_map, Regions.card_block] at hsum
  have hsame :
      (m.live.map (Finset.card ∘ fun b => Regions.block b.ptr.addr b.size.toNat)).sum =
        sizes m.live := by
    simp [sizes, Function.comp_def]
  rw [hsame] at hsum
  omega

/-- The list has no more nodes than fit the counter. -/
theorem length_allocList_lt
    (h : Sound m) :
    m.tracker.allocList.length < 2 ^ 64 := by
  have hle : m.live.length ≤ sizes m.live := by
    have hone : ∀ n ∈ m.live.map fun b => b.size.toNat, 1 ≤ n := by
      intro n hn
      obtain ⟨b, hb, rfl⟩ := List.mem_map.mp hn
      exact h.nonempty b hb
    simpa [sizes] using List.length_le_sum_of_one_le _ hone
  have hlisted := h.listed.length_le
  have hsizes := sizes_live_lt h
  omega

/-- The addresses of the list are distinct. -/
theorem nodup_addrs
    (h : Sound m) :
    (m.tracker.allocList.map fun n => n.ptr.addr).Nodup := by
  rw [List.Nodup, List.pairwise_map]
  refine (h.apart.sublist h.listed).imp_of_mem fun {b c} hb hc hbc haddr => ?_
  have hb0 := h.nonempty b (h.listed.subset hb)
  have hc0 := h.nonempty c (h.listed.subset hc)
  simp only [AllocNode.isApart, Bool.or_eq_true, decide_eq_true_eq] at hbc
  omega

/-- A node at the address of an allocated block is the node of that block. -/
theorem any_isAt_iff
    (h : Sound m)
    {b : AllocNode}
    (hb : b ∈ m.live) :
    (m.tracker.allocList.any fun n => n.isAt b.ptr) = true ↔ b ∈ m.tracker.allocList := by
  rw [List.any_eq_true]
  constructor
  · rintro ⟨n, hn, hat⟩
    have haddr : n.ptr.addr = b.ptr.addr := by simpa [AllocNode.isAt] using hat
    rwa [← eq_of_addr_eq h (h.listed.subset hn) hb haddr]
  · exact fun hlisted => ⟨b, hlisted, by simp [AllocNode.isAt]⟩

/-- Among allocated blocks, the first one at the address of a block is that block. -/
theorem split_of_mem
    (h : Sound m)
    {nodes : List AllocNode} {b : AllocNode}
    (hnodes : nodes.Sublist m.live)
    (hb : b ∈ nodes) :
    ∃ front rest,
      nodes = front ++ b :: rest ∧
        nodes.eraseP (fun n => n.isAt b.ptr) = front ++ rest := by
  have hown : b.isAt b.ptr = true := by simp [AllocNode.isAt]
  obtain ⟨n, front, rest, -, hat, hsplit, herase⟩ :=
    List.exists_of_eraseP (p := fun n => n.isAt b.ptr) hb hown
  have haddr : n.ptr.addr = b.ptr.addr := by simpa [AllocNode.isAt] using hat
  have hn : n ∈ nodes := by simp [hsplit]
  obtain rfl : n = b := eq_of_addr_eq h (hnodes.subset hn) (hnodes.subset hb) haddr
  exact ⟨front, rest, hsplit, herase⟩

end Invariant

section Steps

variable {m m' : Memory}

/-- The memory with another block. -/
def Memory.addBlock (m : Memory) (b : AllocNode) (node : Bool) : Memory where
  tracker := trackerAdd m.tracker node b.ptr b.size
  live := b :: m.live
  allocs := m.allocs + 1

/-- An allocation returns nothing and changes nothing, or it adds the block that it returns. -/
theorem secureAlloc_cases
    (m : Memory) (size : SizeT) (malloc : Option Nat) (node : Bool) :
    secureAlloc m size malloc node = (none, m)
      ∨
    ∃ b : AllocNode,
      malloc = some b.ptr.addr ∧
        b.ptr.alloc = m.allocs ∧
        b.size = size ∧
        0 < size.toNat ∧
        secureAlloc m size malloc node = (some b.ptr, m.addBlock b node) := by
  unfold secureAlloc
  split_ifs with hmay
  · cases malloc with
    | none =>
        exact .inl rfl
    | some addr =>
        have hsize : 0 < size.toNat := by
          simp only [mayAllocate, Bool.and_eq_true, bne_iff_ne, ne_eq] at hmay
          have hne : size.toNat ≠ 0 := fun hzero => hmay.2 (BitVec.eq_of_toNat_eq hzero)
          omega
        exact .inr ⟨⟨⟨addr, m.allocs⟩, size⟩, rfl, rfl, rfl, hsize, rfl⟩
  · exact .inl rfl

/-- The block is one that `sodium_malloc` may return. -/
theorem secureAlloc_granted
    {size : SizeT} {malloc : Option Nat}
    (hgrants : (malloc.all fun addr => m.grants ⟨⟨addr, m.allocs⟩, size⟩) = true)
    (node : Bool) :
    secureAlloc m size malloc node = (none, m)
      ∨
    ∃ b : AllocNode,
      b.size = size ∧
        0 < b.size.toNat ∧
        m.grants b = true ∧
        secureAlloc m size malloc node = (some b.ptr, m.addBlock b node) := by
  rcases secureAlloc_cases m size malloc node with hnone | ⟨b, rfl, halloc, rfl, hsize, hb⟩
  · exact .inl hnone
  · rw [← halloc] at hgrants
    exact .inr ⟨b, rfl, hsize, hgrants, hb⟩

/-- Another block that may be allocated keeps the memory sound. -/
theorem sound_addBlock
    (h : Sound m)
    {b : AllocNode}
    (hgrants : m.grants b = true)
    (hsize : 0 < b.size.toNat)
    (node : Bool) :
    Sound (m.addBlock b node) := by
  simp only [Memory.grants, Bool.and_eq_true, decide_eq_true_eq, List.all_eq_true] at hgrants
  obtain ⟨⟨hnull, hspace⟩, hapart⟩ := hgrants
  refine ⟨?_, ?_, ?_, ?_, ?_⟩
  · exact List.forall_mem_cons.mpr ⟨hsize, h.nonempty⟩
  · exact List.forall_mem_cons.mpr ⟨⟨hnull, hspace⟩, h.inSpace⟩
  · exact List.pairwise_cons.mpr ⟨hapart, h.apart⟩
  · cases node with
    | true => exact h.listed.cons_cons _
    | false => exact h.listed.cons _
  · cases node with
    | true =>
        simp only [Memory.addBlock, trackerAdd, if_true, h.count, List.length_cons,
          BitVec.ofNat_add]
        rfl
    | false => exact h.count

/-- An allocation keeps the memory sound. -/
theorem sound_secureAlloc
    (h : Sound m)
    {size : SizeT} {malloc : Option Nat}
    (hgrants : (malloc.all fun addr => m.grants ⟨⟨addr, m.allocs⟩, size⟩) = true)
    (node : Bool) :
    Sound (secureAlloc m size malloc node).2 := by
  rcases secureAlloc_granted hgrants node with hnone | ⟨b, -, hsize, hgranted, hb⟩
  · rwa [hnone]
  · rw [hb]
    exact sound_addBlock h hgranted hsize node

/-- A release keeps it sound, whatever the size that it is told. -/
theorem sound_secureFree
    (h : Sound m)
    (ptr : Option Pointer) (size : SizeT) :
    Sound (secureFree m ptr size) := by
  cases ptr with
  | none =>
      exact h
  | some ptr =>
      have hlive : (m.live.eraseP fun b => b.isAt ptr).Sublist m.live := List.eraseP_sublist
      refine ⟨?_, ?_, ?_, ?_, ?_⟩
      · exact fun b hb => h.nonempty b (hlive.subset hb)
      · exact fun b hb => h.inSpace b (hlive.subset hb)
      · exact h.apart.sublist hlive
      · simp only [secureFree, allocList_trackerRemove]
        exact h.listed.eraseP
      · simp only [secureFree, allocList_trackerRemove]
        unfold trackerRemove
        split_ifs with hany
        · obtain ⟨n, hn, hat⟩ := List.any_eq_true.mp hany
          have hlength := List.length_eraseP_of_mem (p := fun n => n.isAt ptr) hn hat
          have hpos : 1 ≤ m.tracker.allocList.length := List.length_pos_of_mem hn
          rw [hlength, h.count]
          exact BitVec.ofNat_sub_ofNat_of_le _ _ (by decide) hpos
        · have hnone : ∀ n ∈ m.tracker.allocList, ¬ n.isAt ptr = true :=
            fun n hn hat => hany (List.any_eq_true.mpr ⟨n, hn, hat⟩)
          rw [List.eraseP_of_forall_not hnone, h.count]

/-- A wipe keeps it sound. -/
theorem sound_emergencyWipe
    (h : Sound m) :
    Sound (emergencyWipe m) := by
  have hlive : (emergencyWipe m).live.Sublist m.live := List.filter_sublist
  exact
    { nonempty := fun b hb => h.nonempty b (hlive.subset hb)
      inSpace := fun b hb => h.inSpace b (hlive.subset hb)
      apart := h.apart.sublist hlive
      listed := List.nil_sublist _
      count := rfl }

/-- The total is that of the list. -/
def Summed (m : Memory) : Prop :=
  m.tracker.allocTotalBytes = bytes m.tracker.allocList

theorem summed_secureAlloc
    (h : Summed m)
    (size : SizeT) (malloc : Option Nat) (node : Bool) :
    Summed (secureAlloc m size malloc node).2 := by
  rcases secureAlloc_cases m size malloc node with hnone | ⟨b, -, -, -, -, hb⟩
  · rwa [hnone]
  · rw [hb]
    cases node with
    | true =>
        simp only [Summed, Memory.addBlock, trackerAdd, if_true, bytes_cons]
        rw [h, BitVec.add_comm]
    | false =>
        exact h

/-- The bytes of a list with one node more. -/
theorem bytes_split
    (front : List AllocNode) (n : AllocNode) (rest : List AllocNode) :
    bytes (front ++ n :: rest) = bytes (front ++ rest) + n.size := by
  induction front with
  | nil =>
      rw [List.nil_append, List.nil_append, bytes_cons, BitVec.add_comm]
  | cons k front ih =>
      rw [List.cons_append, List.cons_append, bytes_cons, bytes_cons, ih, BitVec.add_assoc]

/-- A release that is told the size of the block takes just that from the total. -/
theorem summed_secureFree
    (hsound : Sound m)
    (h : Summed m)
    {b : AllocNode}
    (hb : b ∈ m.live) :
    Summed (secureFree m (some b.ptr) b.size) := by
  simp only [Summed, secureFree, allocList_trackerRemove]
  unfold trackerRemove
  by_cases hlisted : b ∈ m.tracker.allocList
  · obtain ⟨front, rest, hsplit, herase⟩ := split_of_mem hsound hsound.listed hlisted
    rw [if_pos ((any_isAt_iff hsound hb).mpr hlisted), herase]
    rw [Summed, hsplit, bytes_split] at h
    simp only [h, BitVec.add_sub_cancel]
  · have hany := mt (any_isAt_iff hsound hb).mp hlisted
    rw [if_neg hany, h, List.eraseP_of_forall_not]
    exact fun n hn hat => hany (List.any_eq_true.mpr ⟨n, hn, hat⟩)

end Steps

section Exactness

variable {m m' : Memory}

/-- What the invariant tells of the accounts. -/
theorem exact_of_sound
    (hsound : Sound m)
    (hsummed : Summed m) :
    TrackerExact m where
  count := by
    rw [hsound.count, BitVec.toNat_ofNat]
    exact Nat.mod_eq_of_lt (length_allocList_lt hsound)
  total := by
    have hle := sizes_le_of_sublist hsound.listed
    have hlt := sizes_live_lt hsound
    rw [hsummed, toNat_bytes]
    exact Nat.mod_eq_of_lt (by omega)
  distinct := nodup_addrs hsound
  live := fun _ hn => hsound.listed.subset hn

/-- What it tells of a release. -/
theorem releasesExactly_of_sound
    (hsound : Sound m)
    (hsummed : Summed m)
    {b : AllocNode}
    (hb : b ∈ m.live) :
    ReleasesExactly m b := by
  constructor
  · intro hlisted
    obtain ⟨front, rest, hsplit, herase⟩ := split_of_mem hsound hsound.listed hlisted
    have htotal := (exact_of_sound hsound hsummed).total
    rw [hsplit, sizes_append, sizes_cons] at htotal
    refine ⟨by omega, front, rest, hsplit, ?_⟩
    simpa only [secureFree, allocList_trackerRemove] using herase
  · intro hlisted
    have hany := mt (any_isAt_iff hsound hb).mp hlisted
    simp only [secureFree, trackerRemove, if_neg hany]

/-- What a wipe leaves. -/
theorem wipesAll
    (m : Memory) :
    WipesAll m := by
  refine ⟨rfl, rfl, fun n hn hlive => ?_⟩
  have hkept := (List.mem_filter.mp hlive).2
  have hreleased : n.ptr ∈ (secureEmergencyWipe m.tracker).2 := List.mem_map_of_mem hn
  simp [hreleased] at hkept

/-- Every call keeps the invariant. -/
theorem sound_step
    {call : MemoryCall}
    (h : Sound m ∧ Summed m)
    (hstep : memoryStep m call = some m') :
    Sound m' ∧ Summed m' := by
  cases call with
  | alloc size malloc node =>
      simp only [memoryStep] at hstep
      split_ifs at hstep with hgrants
      obtain rfl := Option.some.inj hstep
      exact ⟨sound_secureAlloc h.1 hgrants node, summed_secureAlloc h.2 size malloc node⟩
  | free block =>
      simp only [memoryStep] at hstep
      split_ifs at hstep with hlive
      obtain rfl := Option.some.inj hstep
      exact ⟨sound_secureFree h.1 _ _, summed_secureFree h.1 h.2 (List.contains_iff_mem.mp hlive)⟩
  | wipe =>
      obtain rfl := Option.some.inj hstep
      exact ⟨sound_emergencyWipe h.1, rfl⟩

theorem sound_start
    (initialized : Bool) :
    Sound (Memory.start initialized) where
  nonempty := by simp [Memory.start]
  inSpace := by simp [Memory.start]
  apart := List.Pairwise.nil
  listed := List.Sublist.slnil
  count := rfl

end Exactness

/--
**The accounts of the tracker.**

After every run of allocations with any outcome, releases of allocated blocks with their sizes
and wipes: the count is the length of the list, the total is the sum of its sizes, the listed
blocks are distinct and allocated; a release of any block takes its node out of the list and
no other, without an underflow; and a wipe leaves nothing.
-/
theorem tracker_exact
    (initialized : Bool) (calls : List MemoryCall) (m : Memory)
    (hrun : Transition.run memoryStep (Memory.start initialized) calls = some m) :
    TrackerExact m ∧ (∀ b ∈ m.live, ReleasesExactly m b) ∧ WipesAll m := by
  have hstart : Sound (Memory.start initialized) ∧ Summed (Memory.start initialized) :=
    ⟨sound_start initialized, rfl⟩
  obtain ⟨hsound, hsummed⟩ :=
    Transition.invariant_of_run (fun _ _ _ h hstep => sound_step h hstep) hstart hrun
  exact ⟨exact_of_sound hsound hsummed,
    fun _ hb => releasesExactly_of_sound hsound hsummed hb, wipesAll m⟩

section Examples

/-- Three allocations, one of which is not tracked, and the release of the first. -/
def exampleCalls : List MemoryCall :=
  [.alloc 32 (some 4096) true, .alloc 8 (some 8192) false, .alloc 5 (some 12288) true,
    .free ⟨⟨4096, 0⟩, 32⟩]

theorem exampleCalls_exact :
    ∃ m,
      Transition.run memoryStep (Memory.start true) exampleCalls = some m ∧
        secureMemoryStats m = (1, 5) ∧
        TrackerExact m ∧ (∀ b ∈ m.live, ReleasesExactly m b) ∧ WipesAll m :=
  ⟨_, rfl, by decide, tracker_exact true exampleCalls _ rfl⟩

end Examples

end SecureMemory
end SecureZ
