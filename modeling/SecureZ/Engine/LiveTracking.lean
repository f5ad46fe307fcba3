import SecureZ.Engine.TrackerAccounting

/-!
# What an emergency wipe reaches

`secure_alloc` gets its memory from `sodium_malloc` and then has the tracker note it; `secure_free`
has the tracker forget it and then gives it back.  Only the tracker holds the mutex, so the
calls of several threads interleave between these two halves.  An emergency wipe gives back
what the list holds.

The node of the list comes from `malloc`, and where that fails nothing is noted and nobody is
told.  The main result is about runs of these halves in any order: it says in which of them
every block that was returned and not freed is in the list, in every state.
-/

namespace SecureZ
namespace SecureMemory

open Transition

section Model

/-- The tracker, and the blocks of `sodium_malloc` that were not given back. -/
structure Lifetimes where
  tracker : Tracker
  /-- `sodium_malloc` returned the block; `tracker_add` comes next. -/
  allocating : List AllocNode
  /-- `secure_alloc` returned the block, and `secure_free` was not called on it. -/
  held : List AllocNode
  /-- `tracker_remove` is done; `sodium_free` comes next. -/
  freeing : List AllocNode
  allocs : Nat
deriving DecidableEq

/-- Before `secure_memory_init`. -/
def Lifetimes.start : Lifetimes := ⟨⟨false, [], 0, 0⟩, [], [], [], 0⟩

/-- The blocks that are not given back. -/
def Lifetimes.live (s : Lifetimes) : List AllocNode :=
  s.allocating ++ (s.held ++ s.freeing)

/-- What `sodium_malloc` may return. -/
def Lifetimes.grants (s : Lifetimes) (b : AllocNode) : Bool :=
  (Memory.mk s.tracker s.live s.allocs).grants b

/-- The blocks that are left when some pointers were given to `sodium_free`. -/
def without (released : List Pointer) (blocks : List AllocNode) : List AllocNode :=
  blocks.filter fun b => !released.contains b.ptr

/-- `secure_emergency_wipe`. -/
def Lifetimes.wipe (s : Lifetimes) : Lifetimes where
  tracker := (secureEmergencyWipe s.tracker).1
  allocating := without (secureEmergencyWipe s.tracker).2 s.allocating
  held := without (secureEmergencyWipe s.tracker).2 s.held
  freeing := without (secureEmergencyWipe s.tracker).2 s.freeing
  allocs := s.allocs

/-- `secure_memory_init`, with the outcome of `sodium_init`. -/
def Lifetimes.init (s : Lifetimes) (sodium : Bool) : Lifetimes :=
  if s.tracker.initialized then s
  else if sodium then { s with tracker := { s.tracker with initialized := true } }
  else s

/-- `secure_memory_shutdown`. -/
def Lifetimes.shutdown (s : Lifetimes) : Lifetimes :=
  if s.tracker.initialized then
    { s.wipe with tracker := { s.wipe.tracker with initialized := false } }
  else s

/-- The steps of the threads. -/
inductive LifetimeEvent
  | init (sodium : Bool)
  | shutdown
  /-- `secure_alloc` up to `sodium_malloc`, which returns an address or fails. -/
  | malloc (size : SizeT) (addr : Option Nat)
  /-- `tracker_add`, with the outcome of the `malloc` of the node; `secure_alloc` returns. -/
  | track (block : AllocNode) (node : Bool)
  /-- `secure_free` up to `tracker_remove`, with the size that it is told. -/
  | untrack (block : AllocNode) (size : SizeT)
  /-- `sodium_free`. -/
  | release (block : AllocNode)
  | wipe
  /-- `secure_free(NULL, ..)`, `secure_wipe`, `secure_memory_stats` and the two functions that
  change the protection. -/
  | other
deriving DecidableEq

/-- One step. -/
def lifetimeStep (s : Lifetimes) : LifetimeEvent → Option Lifetimes
  | .init sodium => some (s.init sodium)
  | .shutdown => some s.shutdown
  | .malloc size addr =>
      match addr with
      | none => some s
      | some addr =>
          if mayAllocate s.tracker size && s.grants ⟨⟨addr, s.allocs⟩, size⟩ then
            some { s with
              allocating := ⟨⟨addr, s.allocs⟩, size⟩ :: s.allocating
              allocs := s.allocs + 1 }
          else none
  | .track b node =>
      if s.allocating.contains b then
        some { s with
          tracker := trackerAdd s.tracker node b.ptr b.size
          allocating := s.allocating.erase b
          held := b :: s.held }
      else none
  | .untrack b size =>
      if s.held.contains b then
        some { s with
          tracker := trackerRemove s.tracker b.ptr size
          held := s.held.erase b
          freeing := b :: s.freeing }
      else none
  | .release b =>
      if s.freeing.contains b then some { s with freeing := s.freeing.erase b } else none
  | .wipe => some s.wipe
  | .other => some s

end Model

section Specification

/-- Every block that was returned and not freed is in the list, and so an emergency wipe gives
it to `sodium_free`, which zeroes it. -/
structure WipeReachesAll (s : Lifetimes) : Prop where
  listed : ∀ b ∈ s.held, b ∈ s.tracker.allocList
  released : ∀ b ∈ s.held, b.ptr ∈ (secureEmergencyWipe s.tracker).2 ∧ b ∉ s.wipe.held

/-- The node of the tracker could be allocated. -/
def NodeAllocated : LifetimeEvent → Prop
  | .track _ node => node = true
  | _ => True

instance (e : LifetimeEvent) : Decidable (NodeAllocated e) := by
  cases e <;> unfold NodeAllocated <;> infer_instance

end Specification

section Invariant

variable {s s' : Lifetimes} {b : AllocNode}

/-- The blocks that are not given back are at different addresses, and the list holds only
blocks that were returned. -/
structure TrackInv (s : Lifetimes) : Prop where
  nonempty : ∀ b ∈ s.live, 0 < b.size.toNat
  distinct : (s.live.map fun b => b.ptr.addr).Nodup
  listed : ∀ b ∈ s.tracker.allocList, b ∈ s.held
  once : AddrsDistinct s.tracker.allocList

/-- The list holds all of them. -/
def AllListed (s : Lifetimes) : Prop :=
  ∀ b ∈ s.held, b ∈ s.tracker.allocList

/-- What is listed is reached. -/
theorem wipeReachesAll_of_allListed
    (h : AllListed s) :
    WipeReachesAll s := by
  have hptr : ∀ b ∈ s.held, b.ptr ∈ (secureEmergencyWipe s.tracker).2 :=
    fun b hb => List.mem_map_of_mem (h b hb)
  refine ⟨h, fun b hb => ⟨hptr b hb, fun hleft => ?_⟩⟩
  have hkept := (List.mem_filter.mp hleft).2
  rw [List.contains_iff_mem.mpr (hptr b hb)] at hkept
  cases hkept

theorem mem_live_of_held
    (hb : b ∈ s.held) :
    b ∈ s.live :=
  List.mem_append_right _ (List.mem_append_left _ hb)

/-- Fewer blocks are at different addresses, too. -/
theorem trackInv_of_sublist
    (h : TrackInv s)
    (hlive : s'.live.Sublist s.live)
    (hlisted : ∀ b ∈ s'.tracker.allocList, b ∈ s'.held)
    (honce : AddrsDistinct s'.tracker.allocList) :
    TrackInv s' where
  nonempty := fun b hb => h.nonempty b (hlive.subset hb)
  distinct := h.distinct.sublist (hlive.map _)
  listed := hlisted
  once := honce

/-- A block that moves from one half of a call to the other. -/
theorem trackInv_of_perm
    (h : TrackInv s)
    (hlive : s'.live.Perm s.live)
    (hlisted : ∀ b ∈ s'.tracker.allocList, b ∈ s'.held)
    (honce : AddrsDistinct s'.tracker.allocList) :
    TrackInv s' where
  nonempty := fun b hb => h.nonempty b (hlive.subset hb)
  distinct := (hlive.map _).nodup_iff.mpr h.distinct
  listed := hlisted
  once := honce

/-- Two of the blocks at one address are the same. -/
theorem TrackInv.eq_of_addr
    (h : TrackInv s)
    {c : AllocNode}
    (hb : b ∈ s.live) (hc : c ∈ s.live)
    (haddr : b.ptr.addr = c.ptr.addr) :
    b = c :=
  List.inj_on_of_nodup_map h.distinct hb hc haddr

/-- `sodium_malloc` returns a block at an address of its own. -/
theorem trackInv_malloc
    (h : TrackInv s)
    (hsize : 0 < b.size.toNat)
    (hgrants : s.grants b = true) :
    TrackInv { s with allocating := b :: s.allocating, allocs := s.allocs + 1 } := by
  simp only [Lifetimes.grants, Memory.grants, Bool.and_eq_true, List.all_eq_true] at hgrants
  have hfresh : ∀ c ∈ s.live, c.ptr.addr ≠ b.ptr.addr := by
    intro c hc haddr
    have hapart := hgrants.2 c hc
    have hpos := h.nonempty c hc
    simp only [AllocNode.isApart, Bool.or_eq_true, decide_eq_true_eq] at hapart
    omega
  refine ⟨?_, ?_, h.listed, h.once⟩
  · exact List.forall_mem_cons.mpr ⟨hsize, h.nonempty⟩
  · refine List.nodup_cons.mpr ⟨fun hmem => ?_, h.distinct⟩
    obtain ⟨c, hc, haddr⟩ := List.mem_map.mp hmem
    exact hfresh c hc haddr

/-- A block that `secure_alloc` has not returned yet is at another address than those that it
has returned. -/
theorem addr_ne_of_allocating
    (h : TrackInv s)
    (hb : b ∈ s.allocating)
    {c : AllocNode} (hc : c ∈ s.held) :
    b.ptr.addr ≠ c.ptr.addr := by
  have hdistinct := h.distinct
  rw [Lifetimes.live, List.map_append] at hdistinct
  have hapart := (List.nodup_append.mp hdistinct).2.2
  exact hapart _ (List.mem_map_of_mem hb) _ (List.mem_map_of_mem (List.mem_append_left _ hc))

/-- `secure_alloc` returns the block. -/
theorem perm_track
    (hb : b ∈ s.allocating)
    (tracker : Tracker) :
    (Lifetimes.live
      { s with tracker := tracker, allocating := s.allocating.erase b, held := b :: s.held }).Perm
        s.live := by
  have hmove : (s.allocating.erase b ++ b :: (s.held ++ s.freeing)).Perm
      (b :: s.allocating.erase b ++ (s.held ++ s.freeing)) :=
    List.perm_middle
  exact hmove.trans ((List.perm_cons_erase hb).symm.append_right _)

/-- `secure_free` begins to give the block back. -/
theorem perm_untrack
    (hb : b ∈ s.held)
    (tracker : Tracker) :
    (Lifetimes.live
      { s with tracker := tracker, held := s.held.erase b, freeing := b :: s.freeing }).Perm
        s.live := by
  have hmove : (s.held.erase b ++ b :: s.freeing).Perm (b :: s.held.erase b ++ s.freeing) :=
    List.perm_middle
  exact (hmove.trans ((List.perm_cons_erase hb).symm.append_right _)).append_left _

/-- A block that is still held is at another address than the one that is freed. -/
theorem addr_ne_of_mem_erase
    (h : TrackInv s)
    (hb : b ∈ s.held)
    {c : AllocNode} (hc : c ∈ s.held.erase b) :
    c ∈ s.held ∧ c.ptr.addr ≠ b.ptr.addr := by
  have hnodup : s.held.Nodup := by
    have hlive := List.Nodup.of_map _ h.distinct
    exact (hlive.sublist (List.sublist_append_right _ _)).sublist (List.sublist_append_left _ _)
  obtain ⟨hne, hmem⟩ := hnodup.mem_erase_iff.mp hc
  exact ⟨hmem, fun haddr =>
    hne (h.eq_of_addr (mem_live_of_held hmem) (mem_live_of_held hb) haddr)⟩

/-- The list without a block holds the others. -/
theorem mem_trackerRemove_iff
    {c : AllocNode}
    (hne : c.ptr.addr ≠ b.ptr.addr)
    (t : Tracker) (size : SizeT) :
    c ∈ (trackerRemove t b.ptr size).allocList ↔ c ∈ t.allocList := by
  have hat : ¬ c.isAt b.ptr = true := by simpa [AllocNode.isAt] using hne
  rw [allocList_trackerRemove]
  exact List.mem_eraseP_of_neg (p := fun n : AllocNode => n.isAt b.ptr) hat

theorem sublist_without
    (released : List Pointer) (blocks : List AllocNode) :
    (without released blocks).Sublist blocks :=
  List.filter_sublist

/-- A wipe leaves fewer blocks and an empty list. -/
theorem trackInv_wipe
    (h : TrackInv s) :
    TrackInv s.wipe := by
  refine trackInv_of_sublist h ?_ (by simp [Lifetimes.wipe, secureEmergencyWipe])
    List.Pairwise.nil
  exact (sublist_without _ _).append ((sublist_without _ _).append (sublist_without _ _))

/-- After a wipe of a list that held all, nothing is held. -/
theorem held_wipe
    (h : AllListed s) :
    s.wipe.held = [] := by
  rw [List.eq_nil_iff_forall_not_mem]
  intro b hb
  have hheld : b ∈ s.held := (sublist_without _ _).subset hb
  exact ((wipeReachesAll_of_allListed h).released b hheld).2 hb

/-- The block that is returned is at another address than those in the list. -/
theorem trackInv_track
    (h : TrackInv s)
    (hb : b ∈ s.allocating)
    (node : Bool) :
    TrackInv { s with
      tracker := trackerAdd s.tracker node b.ptr b.size
      allocating := s.allocating.erase b
      held := b :: s.held } := by
  have hkept : ∀ c ∈ s.tracker.allocList, c ∈ b :: s.held :=
    fun c hc => List.mem_cons_of_mem _ (h.listed c hc)
  refine trackInv_of_perm h (perm_track hb _) ?_ ?_
  · rw [allocList_trackerAdd]
    cases node with
    | true => exact List.forall_mem_cons.mpr ⟨List.mem_cons_self, hkept⟩
    | false => exact hkept
  · rw [allocList_trackerAdd]
    cases node with
    | true =>
        exact List.pairwise_cons.mpr
          ⟨fun c hc => addr_ne_of_allocating h hb (h.listed c hc), h.once⟩
    | false => exact h.once

/-- The block that is freed is no longer in the list. -/
theorem trackInv_untrack
    (h : TrackInv s)
    (hb : b ∈ s.held)
    (size : SizeT) :
    TrackInv { s with
      tracker := trackerRemove s.tracker b.ptr size
      held := s.held.erase b
      freeing := b :: s.freeing } := by
  refine trackInv_of_perm h (perm_untrack hb _) (fun c hc => ?_) ?_
  · rw [allocList_trackerRemove] at hc
    obtain ⟨hlisted, hne⟩ := mem_and_ne_of_mem_eraseP h.once hc
    have hother : c ≠ b := fun heq => hne (by rw [heq])
    exact (List.mem_erase_of_ne hother).mpr (h.listed c hlisted)
  · rw [allocList_trackerRemove]
    exact addrsDistinct_eraseP h.once b.ptr

/-- Every step keeps the invariant. -/
theorem trackInv_step
    {e : LifetimeEvent}
    (h : TrackInv s)
    (hstep : lifetimeStep s e = some s') :
    TrackInv s' := by
  cases e with
  | init sodium =>
      obtain rfl := Option.some.inj hstep
      unfold Lifetimes.init
      split_ifs
      · exact h
      · exact ⟨h.nonempty, h.distinct, h.listed, h.once⟩
      · exact h
  | shutdown =>
      obtain rfl := Option.some.inj hstep
      unfold Lifetimes.shutdown
      split_ifs
      · have hwiped := trackInv_wipe h
        exact ⟨hwiped.nonempty, hwiped.distinct, hwiped.listed, hwiped.once⟩
      · exact h
  | malloc size addr =>
      cases addr with
      | none =>
          obtain rfl := Option.some.inj hstep
          exact h
      | some addr =>
          simp only [lifetimeStep] at hstep
          split_ifs at hstep with hmay
          obtain rfl := Option.some.inj hstep
          rw [Bool.and_eq_true] at hmay
          refine trackInv_malloc h ?_ hmay.2
          have hsize : size ≠ 0 := by
            have hboth := hmay.1
            rw [mayAllocate, Bool.and_eq_true] at hboth
            simpa using hboth.2
          exact Nat.pos_of_ne_zero fun hzero => hsize (BitVec.eq_of_toNat_eq hzero)
  | track b node =>
      simp only [lifetimeStep] at hstep
      split_ifs at hstep with hmem
      obtain rfl := Option.some.inj hstep
      exact trackInv_track h (List.contains_iff_mem.mp hmem) node
  | untrack b size =>
      simp only [lifetimeStep] at hstep
      split_ifs at hstep with hmem
      obtain rfl := Option.some.inj hstep
      exact trackInv_untrack h (List.contains_iff_mem.mp hmem) size
  | release b =>
      simp only [lifetimeStep] at hstep
      split_ifs at hstep
      obtain rfl := Option.some.inj hstep
      refine trackInv_of_sublist h ?_ h.listed h.once
      exact (List.erase_sublist.append_left _).append_left _
  | wipe =>
      obtain rfl := Option.some.inj hstep
      exact trackInv_wipe h
  | other =>
      obtain rfl := Option.some.inj hstep
      exact h

/-- A step with a node for the block that is returned keeps all of them listed. -/
theorem allListed_step
    {e : LifetimeEvent}
    (h : TrackInv s) (hall : AllListed s)
    (hok : NodeAllocated e)
    (hstep : lifetimeStep s e = some s') :
    AllListed s' := by
  cases e with
  | init sodium =>
      obtain rfl := Option.some.inj hstep
      unfold Lifetimes.init
      split_ifs <;> exact hall
  | shutdown =>
      obtain rfl := Option.some.inj hstep
      unfold Lifetimes.shutdown
      split_ifs
      · simp [AllListed, held_wipe hall]
      · exact hall
  | malloc size addr =>
      cases addr with
      | none =>
          obtain rfl := Option.some.inj hstep
          exact hall
      | some addr =>
          simp only [lifetimeStep] at hstep
          split_ifs at hstep
          obtain rfl := Option.some.inj hstep
          exact hall
  | track b node =>
      simp only [lifetimeStep] at hstep
      split_ifs at hstep
      obtain rfl := Option.some.inj hstep
      have hnode : node = true := hok
      simp only [AllListed, allocList_trackerAdd, hnode, if_true, List.forall_mem_cons]
      exact ⟨List.mem_cons_self, fun c hc => List.mem_cons_of_mem _ (hall c hc)⟩
  | untrack b size =>
      simp only [lifetimeStep] at hstep
      split_ifs at hstep with hmem
      obtain rfl := Option.some.inj hstep
      intro c hc
      obtain ⟨hheld, hne⟩ := addr_ne_of_mem_erase h (List.contains_iff_mem.mp hmem) hc
      exact (mem_trackerRemove_iff hne _ _).mpr (hall c hheld)
  | release b =>
      simp only [lifetimeStep] at hstep
      split_ifs at hstep
      obtain rfl := Option.some.inj hstep
      exact hall
  | wipe =>
      obtain rfl := Option.some.inj hstep
      simp [AllListed, held_wipe hall]
  | other =>
      obtain rfl := Option.some.inj hstep
      exact hall

/-- A block that is returned without a node is not reached. -/
theorem not_reached_of_no_node
    {e : LifetimeEvent}
    (h : TrackInv s)
    (hbad : ¬ NodeAllocated e)
    (hstep : lifetimeStep s e = some s') :
    ¬ WipeReachesAll s' := by
  cases e with
  | track b node =>
      simp only [lifetimeStep] at hstep
      split_ifs at hstep with hmem
      obtain rfl := Option.some.inj hstep
      have hnode : node = false := by simpa [NodeAllocated] using hbad
      intro hreached
      have hlisted := hreached.listed b List.mem_cons_self
      rw [allocList_trackerAdd, hnode] at hlisted
      have hb := List.contains_iff_mem.mp hmem
      exact addr_ne_of_allocating h hb (h.listed b hlisted) rfl
  | _ => exact absurd trivial hbad

theorem trackInv_start : TrackInv Lifetimes.start where
  nonempty := by simp [Lifetimes.start, Lifetimes.live]
  distinct := List.nodup_nil
  listed := by simp [Lifetimes.start]
  once := List.Pairwise.nil

end Invariant

/--
**What an emergency wipe reaches.**

In a run of allocations, releases, wipes and the other calls, by any number of threads and with
any outcome of their allocations, an emergency wipe gives every block that was returned and not
freed to `sodium_free`, in every state, if and only if the node of every block that was returned
could be allocated.
-/
theorem wipe_reaches_all_iff
    (events : List LifetimeEvent) (s : Lifetimes)
    (hrun : run lifetimeStep .start events = some s) :
    (∀ pre post t,
        events = pre ++ post →
        run lifetimeStep .start pre = some t →
        WipeReachesAll t)
      ↔
    ∀ e ∈ events, NodeAllocated e := by
  have hstart : TrackInv .start ∧ AllListed .start :=
    ⟨trackInv_start, by simp [AllListed, Lifetimes.start]⟩
  have hkeep : ∀ t e t', TrackInv t ∧ AllListed t → NodeAllocated e →
      lifetimeStep t e = some t' → TrackInv t' ∧ AllListed t' :=
    fun _ _ _ h hok hstep => ⟨trackInv_step h.1 hstep, allListed_step h.1 h.2 hok hstep⟩
  have hbreak : ∀ t e t', TrackInv t ∧ AllListed t → ¬ NodeAllocated e →
      lifetimeStep t e = some t' → ¬ WipeReachesAll t' :=
    fun _ _ _ h hbad hstep => not_reached_of_no_node h.1 hbad hstep
  rw [always_iff_guarded (fun _ h => wipeReachesAll_of_allListed h.2) hkeep hbreak hstart hrun]
  constructor
  · intro h
    exact forall_mem_of_guarded (fun _ e (hok : NodeAllocated e) => hok) h hrun
  · intro h
    exact guarded_of_forall_mem h _

section Examples

/-- The block that the examples allocate. -/
def exampleBlock : AllocNode := ⟨⟨4096, 0⟩, 32⟩

/-- A key is allocated, with the node of the tracker or without. -/
def oneAllocation (node : Bool) : List LifetimeEvent :=
  [.init true, .malloc 32 (some 4096), .track exampleBlock node]

/-- With its node the block is reached in every state. -/
theorem tracked_block_reached :
    (∃ s, run lifetimeStep .start (oneAllocation true) = some s) ∧
      ∀ pre post t,
        oneAllocation true = pre ++ post →
        run lifetimeStep .start pre = some t →
        WipeReachesAll t :=
  ⟨⟨_, rfl⟩, (wipe_reaches_all_iff (oneAllocation true) _ rfl).mpr (by decide)⟩

/-- When its node cannot be allocated, `secure_alloc` returns the block all the same, and the
wipe leaves it as it is. -/
theorem untracked_block_survives :
    ∃ s,
      run lifetimeStep .start (oneAllocation false) = some s ∧
        exampleBlock ∈ s.held ∧
        exampleBlock ∉ s.tracker.allocList ∧
        exampleBlock ∈ s.wipe.held ∧
        ¬ WipeReachesAll s := by
  refine ⟨_, rfl, by decide, by decide, by decide, fun h => ?_⟩
  exact absurd (h.listed exampleBlock (by decide)) (by decide)

end Examples

end SecureMemory
end SecureZ
