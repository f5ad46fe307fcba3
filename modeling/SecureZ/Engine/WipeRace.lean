import SecureZ.Lib.Transition
import SecureZ.Engine.CryptoCore
import SecureZ.Engine.SecureMemory

/-!
# Keys under a concurrent emergency wipe

A thread that encrypts or decrypts a file allocates its key, derives it, uses it once
and releases it.  The pointer is known to the thread and, while it is tracked, to the
list that an emergency wipe releases.

A system is the tracker, the threads, and the trace of the library calls on keys, in the
order in which they happened.  Each thread makes at most one allocation, so allocations
are numbered like threads.  The allocator may hand out an address again once it was
released.
-/

namespace SecureZ
namespace SecureMemory

open Transition CryptoCore

section Model

/-- Which of the two functions a thread runs. -/
inductive FileOp
  /-- `cryptic_encrypt_file`. -/
  | encrypt
  /-- `cryptic_decrypt_file`. -/
  | decrypt
deriving DecidableEq

/-- How far a thread is with its key. -/
inductive Phase
  /-- The function has returned, or goes on without a key. -/
  | ended
  /-- `sodium_malloc` returned the key; it is not tracked yet. -/
  | allocated (key : Pointer)
  /-- `secure_alloc` returned the key. -/
  | tracked (key : Pointer)
  /-- `crypto_derive_key` succeeded. -/
  | derived (key : Pointer)
  /-- The key is no longer needed; `secure_free` comes next. -/
  | finished (key : Pointer)
  /-- `tracker_remove` is done; `sodium_free` comes next. -/
  | untracked (key : Pointer)
deriving DecidableEq

/-- The key that a thread has not released. -/
def Phase.key : Phase → Option Pointer
  | .ended => none
  | .allocated key => some key
  | .tracked key => some key
  | .derived key => some key
  | .finished key => some key
  | .untracked key => some key

/-- The key of a thread between `tracker_add` and `tracker_remove`. -/
def Phase.trackedKey : Phase → Option Pointer
  | .tracked key => some key
  | .derived key => some key
  | .finished key => some key
  | _ => none

/-- A thread. -/
structure Thread where
  op : FileOp
  phase : Phase
deriving DecidableEq

/-- A library call on the memory of an allocation. -/
inductive LibraryCall
  | deriveKey (alloc : Nat)
  | encryptBuffer (alloc : Nat)
  | decryptBuffer (alloc : Nat)
  | sodiumFree (alloc : Nat)
deriving DecidableEq

/-- The allocation of a call. -/
def LibraryCall.alloc : LibraryCall → Nat
  | .deriveKey alloc => alloc
  | .encryptBuffer alloc => alloc
  | .decryptBuffer alloc => alloc
  | .sodiumFree alloc => alloc

/-- The call of a thread that uses its key. -/
def FileOp.useKey : FileOp → Nat → LibraryCall
  | .encrypt => .encryptBuffer
  | .decrypt => .decryptBuffer

/-- The tracker, the threads and the calls so far. -/
structure System where
  tracker : Tracker
  threads : List Thread
  calls : List LibraryCall
deriving DecidableEq

/-- The daemon after `secure_memory_init`. -/
def System.initial : System := ⟨secureMemoryInit, [], []⟩

/-- The steps of the threads. -/
inductive Event
  /-- A thread starts and calls `sodium_malloc`, which returns an address or fails. -/
  | allocate (op : FileOp) (addr : Option Nat)
  /-- `tracker_add`, with the outcome of the `malloc` of the node. -/
  | track (thread : Nat) (node : Bool)
  /-- `crypto_derive_key`, with its outcome. -/
  | derive (thread : Nat) (ok : Bool)
  /-- The `malloc` of the output, and the use of the key if it succeeds. -/
  | use (thread : Nat) (output : Bool)
  /-- `tracker_remove`. -/
  | untrack (thread : Nat)
  /-- `sodium_free`. -/
  | release (thread : Nat)
  /-- `secure_emergency_wipe`. -/
  | wipe
deriving DecidableEq

/-- The size that the key is allocated with. -/
def keySize : SizeT := BitVec.ofNat 64 crypticKeyLen

/-- The address belongs to a key that was not released. -/
def InUse (s : System) (addr : Nat) : Prop :=
  ∃ t ∈ s.threads, ∃ key ∈ t.phase.key,
    key.addr = addr ∧ .sodiumFree key.alloc ∉ s.calls

instance (s : System) (addr : Nat) : Decidable (InUse s addr) :=
  inferInstanceAs (Decidable (∃ t ∈ _, ∃ key ∈ _, _))

/-- The threads after one of them moved on. -/
def advance (threads : List Thread) (i : Nat) (op : FileOp) (phase : Phase) :
    List Thread :=
  threads.set i ⟨op, phase⟩

/-- One step. -/
def step (s : System) : Event → Option System
  | .allocate op none =>
      some { s with threads := s.threads ++ [⟨op, .ended⟩] }
  | .allocate op (some addr) =>
      if mayAllocate s.tracker keySize = true ∧ ¬ InUse s addr then
        some { s with
          threads := s.threads ++ [⟨op, .allocated ⟨addr, s.threads.length⟩⟩] }
      else none
  | .track i node =>
      match s.threads[i]? with
      | some ⟨op, .allocated key⟩ =>
          some { s with
            tracker := trackerAdd s.tracker node key keySize
            threads := advance s.threads i op (.tracked key) }
      | _ => none
  | .derive i ok =>
      match s.threads[i]? with
      | some ⟨op, .tracked key⟩ =>
          some { s with
            threads := advance s.threads i op (if ok then .derived key else .finished key)
            calls := s.calls ++ [.deriveKey key.alloc] }
      | _ => none
  | .use i output =>
      match s.threads[i]? with
      | some ⟨op, .derived key⟩ =>
          some { s with
            threads := advance s.threads i op (.finished key)
            calls := s.calls ++ if output then [op.useKey key.alloc] else [] }
      | _ => none
  | .untrack i =>
      match s.threads[i]? with
      | some ⟨op, .finished key⟩ =>
          some { s with
            tracker := trackerRemove s.tracker key keySize
            threads := advance s.threads i op (.untracked key) }
      | _ => none
  | .release i =>
      match s.threads[i]? with
      | some ⟨op, .untracked key⟩ =>
          some { s with
            threads := advance s.threads i op .ended
            calls := s.calls ++ [.sodiumFree key.alloc] }
      | _ => none
  | .wipe =>
      let (tracker, released) := secureEmergencyWipe s.tracker
      some { s with
        tracker := tracker
        calls := s.calls ++ released.map fun ptr => .sodiumFree ptr.alloc }

end Model

section Specification

/-- No allocation was released twice. -/
def ReleasedOnce (s : System) : Prop :=
  ∀ alloc, s.calls.count (.sodiumFree alloc) ≤ 1

/-- No key was used after it was released. -/
def NoUseAfterRelease (s : System) : Prop :=
  s.calls.Pairwise fun earlier later =>
    ∀ alloc, earlier = .sodiumFree alloc →
      later ≠ .deriveKey alloc ∧ later ≠ .encryptBuffer alloc ∧
        later ≠ .decryptBuffer alloc

/-- The condition on a step: nothing is tracked when a wipe begins. -/
def StepOk (s : System) : Event → Prop
  | .wipe => s.tracker.allocList = []
  | _ => True

instance (s : System) : ∀ e, Decidable (StepOk s e)
  | .wipe => inferInstanceAs (Decidable (_ = _))
  | .allocate _ _ => inferInstanceAs (Decidable True)
  | .track _ _ => inferInstanceAs (Decidable True)
  | .derive _ _ => inferInstanceAs (Decidable True)
  | .use _ _ => inferInstanceAs (Decidable True)
  | .untrack _ => inferInstanceAs (Decidable True)
  | .release _ => inferInstanceAs (Decidable True)

end Specification

section Keys

/-- The key that a thread has not released. -/
def keyAt (threads : List Thread) (i : Nat) : Option Pointer :=
  threads[i]?.bind fun t => t.phase.key

/-- The key of a thread, if it is between `tracker_add` and `tracker_remove`. -/
def trackedAt (threads : List Thread) (i : Nat) : Option Pointer :=
  threads[i]?.bind fun t => t.phase.trackedKey

theorem key_of_trackedKey
    {phase : Phase} {key : Pointer}
    (h : phase.trackedKey = some key) :
    phase.key = some key := by
  cases phase <;> first | exact h | cases h

theorem keyAt_of_trackedAt
    {threads : List Thread} {i : Nat} {key : Pointer}
    (h : trackedAt threads i = some key) :
    keyAt threads i = some key := by
  obtain ⟨t, ht, hkey⟩ := Option.bind_eq_some_iff.mp h
  exact Option.bind_eq_some_iff.mpr ⟨t, ht, key_of_trackedKey hkey⟩

theorem bind_set
    {threads : List Thread} {i : Nat} {t u : Thread}
    (hget : threads[i]? = some t)
    (f : Thread → Option Pointer) (j : Nat) :
    (threads.set i u)[j]?.bind f = if j = i then f u else threads[j]?.bind f := by
  have hi := (List.getElem?_eq_some_iff.mp hget).1
  rw [List.getElem?_set]
  by_cases hj : i = j
  · simp [← hj, hi]
  · simp [hj, Ne.symm hj]

theorem bind_append
    (threads : List Thread) (u : Thread) (f : Thread → Option Pointer) (j : Nat) :
    (threads ++ [u])[j]?.bind f =
      if j = threads.length then f u else threads[j]?.bind f := by
  rcases lt_trichotomy j threads.length with hj | rfl | hj
  · simp [List.getElem?_append_left hj, hj.ne]
  · simp
  · have hout : (threads ++ [u])[j]? = none :=
      List.getElem?_eq_none (by rw [List.length_append]; exact hj)
    simp [hout, List.getElem?_eq_none hj.le, hj.ne']

/-- A thread that keeps its key changes nobody's key. -/
theorem keyAt_advance
    {threads : List Thread} {i : Nat} {op : FileOp} {before after : Phase}
    (hget : threads[i]? = some ⟨op, before⟩)
    (hkey : after.key = before.key) :
    keyAt (advance threads i op after) = keyAt threads := by
  funext j
  unfold keyAt advance
  rw [bind_set hget]
  split_ifs with hj
  · simp [hj, hget, hkey]
  · rfl

end Keys

section Effect

/-- What happens to the tracker while a thread keeps its key. -/
inductive TrackerMove (t : Tracker) (key : Pointer) (before after : Phase) :
    Tracker → Prop
  | added
      (node : Bool)
      (hbefore : before.trackedKey = none)
      (hafter : after.trackedKey = some key) :
      TrackerMove t key before after (trackerAdd t node key keySize)
  | kept
      (hbefore : before.trackedKey = some key)
      (hafter : after.trackedKey = some key) :
      TrackerMove t key before after t
  | removed
      (hbefore : before.trackedKey = some key)
      (hafter : after.trackedKey = none) :
      TrackerMove t key before after (trackerRemove t key keySize)

/-- What a step can do. -/
inductive Effect (s : System) : Event → System → Prop
  | started
      {op : FileOp} {addr : Option Nat} {phase : Phase}
      (hphase :
        phase = .ended ∨
          ∃ a, phase = .allocated ⟨a, s.threads.length⟩ ∧ ¬ InUse s a) :
      Effect s (.allocate op addr) ⟨s.tracker, s.threads ++ [⟨op, phase⟩], s.calls⟩
  | moved
      {e : Event} {i : Nat} {op : FileOp} {before after : Phase} {key : Pointer}
      {calls : List LibraryCall} {tracker : Tracker}
      (hget : s.threads[i]? = some ⟨op, before⟩)
      (hbefore : before.key = some key)
      (hafter : after.key = some key)
      (hcalls : ∀ c ∈ calls, c.alloc = key.alloc ∧ ∀ a, c ≠ .sodiumFree a)
      (hmove : TrackerMove s.tracker key before after tracker) :
      Effect s e ⟨tracker, advance s.threads i op after, s.calls ++ calls⟩
  | released
      {i : Nat} {op : FileOp} {key : Pointer}
      (hget : s.threads[i]? = some ⟨op, .untracked key⟩) :
      Effect s (.release i)
        ⟨s.tracker, advance s.threads i op .ended, s.calls ++ [.sodiumFree key.alloc]⟩
  | wiped :
      Effect s .wipe
        ⟨(secureEmergencyWipe s.tracker).1, s.threads,
          s.calls ++ (secureEmergencyWipe s.tracker).2.map fun ptr => .sodiumFree ptr.alloc⟩

/-- The use of a key is no release. -/
theorem useKey_calls
    (op : FileOp) (key : Pointer) (output : Bool) :
    ∀ c ∈ (if output then [op.useKey key.alloc] else []),
      c.alloc = key.alloc ∧ ∀ a, c ≠ .sodiumFree a := by
  cases op <;> cases output <;> simp [FileOp.useKey, LibraryCall.alloc]

/-- A step does one of these. -/
theorem effect_of_step
    {s s' : System} {e : Event}
    (h : step s e = some s') :
    Effect s e s' := by
  cases e with
  | allocate op addr =>
      cases addr with
      | none =>
          obtain rfl := Option.some.inj h
          exact .started (Or.inl rfl)
      | some a =>
          simp only [step] at h
          split_ifs at h with hfree
          obtain rfl := Option.some.inj h
          exact .started (Or.inr ⟨a, rfl, hfree.2⟩)
  | track i node =>
      simp only [step] at h
      split at h
      · next op key hget =>
          obtain rfl := Option.some.inj h
          have heffect :
              Effect s (.track i node)
                ⟨trackerAdd s.tracker node key keySize,
                  advance s.threads i op (.tracked key), s.calls ++ []⟩ :=
            .moved hget rfl rfl (by simp) (.added node rfl rfl)
          simpa using heffect
      · cases h
  | derive i ok =>
      simp only [step] at h
      split at h
      · next op key hget =>
          obtain rfl := Option.some.inj h
          cases ok <;>
            exact .moved hget rfl rfl (by simp [LibraryCall.alloc]) (.kept rfl rfl)
      · cases h
  | use i output =>
      simp only [step] at h
      split at h
      · next op key hget =>
          obtain rfl := Option.some.inj h
          exact .moved hget rfl rfl (useKey_calls op key output) (.kept rfl rfl)
      · cases h
  | untrack i =>
      simp only [step] at h
      split at h
      · next op key hget =>
          obtain rfl := Option.some.inj h
          have heffect :
              Effect s (.untrack i)
                ⟨trackerRemove s.tracker key keySize,
                  advance s.threads i op (.untracked key), s.calls ++ []⟩ :=
            .moved hget rfl rfl (by simp) (.removed rfl rfl)
          simpa using heffect
      · cases h
  | release i =>
      simp only [step] at h
      split at h
      · next op key hget =>
          obtain rfl := Option.some.inj h
          exact .released hget
      · cases h
  | wipe =>
      obtain rfl := Option.some.inj h
      exact .wiped

end Effect

section Ownership

/-- After a release nothing more is done with the allocation. -/
def Final (earlier later : LibraryCall) : Prop :=
  ∀ alloc, earlier = .sodiumFree alloc → later.alloc ≠ alloc

/-- The threads own what they have not released, and nobody else released it. -/
structure Owned (s : System) : Prop where
  own : ∀ i key, keyAt s.threads i = some key → key.alloc = i
  held : ∀ i key, keyAt s.threads i = some key → .sodiumFree i ∉ s.calls
  made : ∀ c ∈ s.calls, c.alloc < s.threads.length
  final : s.calls.Pairwise Final

/-- A call on a key that its thread has not released comes before any release of it. -/
theorem final_of_owned
    {s : System} {i : Nat} {key : Pointer} {c d : LibraryCall}
    (h : Owned s)
    (hkey : keyAt s.threads i = some key)
    (hc : c ∈ s.calls)
    (hd : d.alloc = key.alloc) :
    Final c d := by
  rintro alloc rfl heq
  have hi := h.own i key hkey
  exact h.held i key hkey (by rwa [← hi, ← hd, heq])

/-- Thread `i` has a key of allocation `i`, so its index is in range. -/
theorem lt_length_of_keyAt
    {threads : List Thread} {i : Nat} {key : Pointer}
    (h : keyAt threads i = some key) :
    i < threads.length := by
  obtain ⟨t, ht, -⟩ := Option.bind_eq_some_iff.mp h
  exact (List.getElem?_eq_some_iff.mp ht).1

theorem keyAt_eq
    {threads : List Thread} {i : Nat} {op : FileOp} {phase : Phase} {key : Pointer}
    (hget : threads[i]? = some ⟨op, phase⟩)
    (hkey : phase.key = some key) :
    keyAt threads i = some key := by
  rw [keyAt, hget]
  exact hkey

/-- A thread that starts has no key, or a new one at an address that is not in use. -/
theorem keyAt_started
    {s : System} {op : FileOp} {phase : Phase} {i : Nat} {key : Pointer}
    (hphase :
      phase = .ended ∨
        ∃ a, phase = .allocated ⟨a, s.threads.length⟩ ∧ ¬ InUse s a)
    (hkey : keyAt (s.threads ++ [⟨op, phase⟩]) i = some key) :
    (i = s.threads.length ∧ key.alloc = i ∧ ¬ InUse s key.addr) ∨
      keyAt s.threads i = some key := by
  rw [keyAt, bind_append] at hkey
  split_ifs at hkey with hi
  · left
    rcases hphase with rfl | ⟨a, rfl, hfree⟩
    · cases hkey
    · obtain rfl := Option.some.inj hkey
      exact ⟨hi, hi.symm, hfree⟩
  · exact Or.inr hkey

/-- A thread that ends leaves the keys of the others. -/
theorem keyAt_ended
    {threads : List Thread} {i j : Nat} {op : FileOp} {t : Thread} {key : Pointer}
    (hget : threads[i]? = some t)
    (hkey : keyAt (advance threads i op .ended) j = some key) :
    j ≠ i ∧ keyAt threads j = some key := by
  rw [keyAt, advance, bind_set hget] at hkey
  split_ifs at hkey with hj
  · cases hkey
  · exact ⟨hj, hkey⟩

/-- A thread that starts owns its key, which nobody can have released. -/
theorem owned_started
    {s : System} {op : FileOp} {phase : Phase}
    (h : Owned s)
    (hphase :
      phase = .ended ∨
        ∃ a, phase = .allocated ⟨a, s.threads.length⟩ ∧ ¬ InUse s a) :
    Owned ⟨s.tracker, s.threads ++ [⟨op, phase⟩], s.calls⟩ := by
  constructor
  · intro i key hkey
    rcases keyAt_started hphase hkey with ⟨-, halloc, -⟩ | hkey
    · exact halloc
    · exact h.own i key hkey
  · intro i key hkey
    rcases keyAt_started hphase hkey with ⟨rfl, -⟩ | hkey
    · intro hfree
      exact lt_irrefl _ (h.made _ hfree)
    · exact h.held i key hkey
  · intro c hc
    have := h.made c hc
    simp only [List.length_append, List.length_singleton]
    omega
  · exact h.final

theorem alloc_lt_of_call
    {s : System} {i : Nat} {key : Pointer} {op : FileOp} {phase : Phase}
    {calls : List LibraryCall}
    (h : Owned s)
    (hkey : keyAt s.threads i = some key)
    (hcalls : ∀ c ∈ calls, c.alloc = key.alloc) :
    ∀ c ∈ s.calls ++ calls, c.alloc < (advance s.threads i op phase).length := by
  intro c hc
  rw [advance, List.length_set]
  rcases List.mem_append.mp hc with hc | hc
  · exact h.made c hc
  · rw [hcalls c hc, h.own i key hkey]
    exact lt_length_of_keyAt hkey

/-- A thread that keeps its key and makes calls on it without releasing it. -/
theorem owned_moved
    {s : System} {tracker : Tracker} {i : Nat} {op : FileOp} {before after : Phase}
    {key : Pointer} {calls : List LibraryCall}
    (h : Owned s)
    (hget : s.threads[i]? = some ⟨op, before⟩)
    (hbefore : before.key = some key)
    (hafter : after.key = some key)
    (hcalls : ∀ c ∈ calls, c.alloc = key.alloc ∧ ∀ a, c ≠ .sodiumFree a) :
    Owned ⟨tracker, advance s.threads i op after, s.calls ++ calls⟩ := by
  have hkey := keyAt_eq hget hbefore
  have hsame : keyAt (advance s.threads i op after) = keyAt s.threads :=
    keyAt_advance hget (hafter.trans hbefore.symm)
  constructor
  · intro j k hk
    rw [hsame] at hk
    exact h.own j k hk
  · intro j k hk hfree
    rw [hsame] at hk
    rcases List.mem_append.mp hfree with hfree | hfree
    · exact h.held j k hk hfree
    · exact (hcalls _ hfree).2 j rfl
  · exact alloc_lt_of_call h hkey fun c hc => (hcalls c hc).1
  · refine List.pairwise_append.mpr ⟨h.final, ?_, ?_⟩
    · refine List.pairwise_of_forall_mem_list ?_
      intro c hc d hd alloc heq
      exact absurd heq ((hcalls c hc).2 alloc)
    · intro c hc d hd
      exact final_of_owned h hkey hc (hcalls d hd).1

/-- A thread that releases its key gives up the ownership. -/
theorem owned_released
    {s : System} {i : Nat} {op : FileOp} {key : Pointer}
    (h : Owned s)
    (hget : s.threads[i]? = some ⟨op, .untracked key⟩) :
    Owned
      ⟨s.tracker, advance s.threads i op .ended, s.calls ++ [.sodiumFree key.alloc]⟩ := by
  have hkey := keyAt_eq hget rfl
  constructor
  · intro j k hk
    exact h.own j k (keyAt_ended hget hk).2
  · intro j k hk hfree
    obtain ⟨hj, hk⟩ := keyAt_ended hget hk
    rcases List.mem_append.mp hfree with hfree | hfree
    · exact h.held j k hk hfree
    · have heq := LibraryCall.sodiumFree.inj (List.mem_singleton.mp hfree)
      exact hj (heq.trans (h.own i key hkey))
  · refine alloc_lt_of_call h hkey ?_
    intro c hc
    obtain rfl := List.mem_singleton.mp hc
    rfl
  · refine List.pairwise_append.mpr ⟨h.final, List.pairwise_singleton _ _, ?_⟩
    intro c hc d hd
    obtain rfl := List.mem_singleton.mp hd
    exact final_of_owned h hkey hc rfl

/-- A step under the condition keeps the ownership. -/
theorem owned_step
    {s s' : System} {e : Event}
    (h : Owned s)
    (hok : StepOk s e)
    (hstep : step s e = some s') :
    Owned s' := by
  cases effect_of_step hstep with
  | started hphase =>
      exact owned_started h hphase
  | moved hget hbefore hafter hcalls hmove =>
      exact owned_moved h hget hbefore hafter hcalls
  | released hget =>
      exact owned_released h hget
  | wiped =>
      have hempty : s.tracker.allocList = [] := hok
      have hcalls :
          (secureEmergencyWipe s.tracker).2.map
              (fun ptr => LibraryCall.sodiumFree ptr.alloc) = [] := by
        simp [secureEmergencyWipe, hempty]
      rw [hcalls, List.append_nil]
      exact ⟨h.own, h.held, h.made, h.final⟩

/-- When nothing is done after a release, there is one release at most. -/
theorem count_sodiumFree_le_one
    {calls : List LibraryCall}
    (h : calls.Pairwise Final)
    (alloc : Nat) :
    calls.count (.sodiumFree alloc) ≤ 1 := by
  induction calls with
  | nil =>
      simp
  | cons c calls ih =>
      rw [List.pairwise_cons] at h
      by_cases hc : c = .sodiumFree alloc
      · have hnone : LibraryCall.sodiumFree alloc ∉ calls :=
          fun hmem => h.1 _ hmem alloc hc rfl
        rw [hc, List.count_cons_self, List.count_eq_zero_of_not_mem hnone]
      · rw [List.count_cons_of_ne hc]
        exact ih h.2

/-- When nothing is done after a release, there is no use after it. -/
theorem noUse_of_final
    {s : System}
    (h : s.calls.Pairwise Final) :
    NoUseAfterRelease s := by
  refine h.imp ?_
  intro c d hfinal alloc hfree
  have hd := hfinal alloc hfree
  refine ⟨?_, ?_, ?_⟩ <;>
  · rintro rfl
    exact hd rfl

end Ownership

section Tracking

/-- Keys that are not released have different addresses, and the list holds the keys of
threads between `tracker_add` and `tracker_remove`, each once. -/
structure Tracked (s : System) : Prop where
  apart :
    ∀ i j key other,
      i ≠ j → keyAt s.threads i = some key → keyAt s.threads j = some other →
      key.addr ≠ other.addr
  listed : ∀ n ∈ s.tracker.allocList, trackedAt s.threads n.ptr.alloc = some n.ptr
  distinct : AddrsDistinct s.tracker.allocList

/-- The address of a key that its thread owns is in use. -/
theorem inUse_of_keyAt
    {s : System} {i : Nat} {key : Pointer}
    (h : Owned s)
    (hkey : keyAt s.threads i = some key) :
    InUse s key.addr := by
  obtain ⟨t, ht, hk⟩ := Option.bind_eq_some_iff.mp hkey
  refine ⟨t, List.mem_of_getElem? ht, key, hk, rfl, ?_⟩
  rw [h.own i key hkey]
  exact h.held i key hkey

theorem trackedAt_eq
    {threads : List Thread} {i : Nat} {op : FileOp} {phase : Phase}
    (hget : threads[i]? = some ⟨op, phase⟩) :
    trackedAt threads i = phase.trackedKey := by
  rw [trackedAt, hget]
  rfl

theorem trackedAt_advance
    {threads : List Thread} {i : Nat} {op : FileOp} {before : Phase}
    (hget : threads[i]? = some ⟨op, before⟩)
    (after : Phase) (j : Nat) :
    trackedAt (advance threads i op after) j =
      if j = i then after.trackedKey else trackedAt threads j :=
  bind_set hget _ j

theorem tracked_started
    {s : System} {op : FileOp} {phase : Phase}
    (howned : Owned s)
    (h : Tracked s)
    (hphase :
      phase = .ended ∨
        ∃ a, phase = .allocated ⟨a, s.threads.length⟩ ∧ ¬ InUse s a) :
    Tracked ⟨s.tracker, s.threads ++ [⟨op, phase⟩], s.calls⟩ := by
  refine ⟨?_, ?_, h.distinct⟩
  · intro i j key other hij hi hj heq
    rcases keyAt_started hphase hi with ⟨hilen, -, hifree⟩ | hi <;>
      rcases keyAt_started hphase hj with ⟨hjlen, -, hjfree⟩ | hj
    · exact hij (hilen.trans hjlen.symm)
    · exact hifree (heq ▸ inUse_of_keyAt howned hj)
    · exact hjfree (heq ▸ inUse_of_keyAt howned hi)
    · exact h.apart i j key other hij hi hj heq
  · intro n hn
    have hold := h.listed n hn
    have hlt := lt_length_of_keyAt (keyAt_of_trackedAt hold)
    show trackedAt (s.threads ++ [⟨op, phase⟩]) _ = _
    rw [trackedAt, bind_append, if_neg hlt.ne]
    exact hold

/-- The nodes of the other threads stay true when a thread moves on. -/
theorem listed_advance_of_ne
    {s : System} {i : Nat} {op : FileOp} {before after : Phase} {n : AllocNode}
    (h : Tracked s)
    (hget : s.threads[i]? = some ⟨op, before⟩)
    (hn : n ∈ s.tracker.allocList)
    (hne : before.trackedKey = some n.ptr → n.ptr.alloc ≠ i) :
    n.ptr.alloc ≠ i ∧
      trackedAt (advance s.threads i op after) n.ptr.alloc = some n.ptr := by
  have hold := h.listed n hn
  have hother : n.ptr.alloc ≠ i := by
    intro hi
    refine hne ?_ hi
    rw [hi, trackedAt_eq hget] at hold
    exact hold
  refine ⟨hother, ?_⟩
  rw [trackedAt_advance hget, if_neg hother]
  exact hold

/-- The node that `tracker_add` puts into the list is the one of its thread. -/
theorem tracked_added
    {s : System} {i : Nat} {op : FileOp} {before after : Phase} {key : Pointer}
    {calls : List LibraryCall}
    (howned : Owned s)
    (h : Tracked s)
    (hget : s.threads[i]? = some ⟨op, before⟩)
    (hbefore : before.key = some key)
    (hafter : after.key = some key)
    (hnone : before.trackedKey = none)
    (hsome : after.trackedKey = some key)
    (node : Bool) :
    Tracked
      ⟨trackerAdd s.tracker node key keySize, advance s.threads i op after, calls⟩ := by
  have hkey := keyAt_eq hget hbefore
  have hsame : keyAt (advance s.threads i op after) = keyAt s.threads :=
    keyAt_advance hget (hafter.trans hbefore.symm)
  have happart := h.apart
  rw [← hsame] at happart
  have hlisted :
      ∀ n ∈ s.tracker.allocList,
        n.ptr.alloc ≠ i ∧
          trackedAt (advance s.threads i op after) n.ptr.alloc = some n.ptr := by
    intro n hn
    refine listed_advance_of_ne h hget hn ?_
    intro htracked
    rw [hnone] at htracked
    cases htracked
  cases node with
  | false =>
      exact ⟨happart, fun n hn => (hlisted n hn).2, h.distinct⟩
  | true =>
      refine ⟨happart, ?_, ?_⟩
      · intro n hn
        rw [allocList_trackerAdd, if_pos rfl] at hn
        rcases List.mem_cons.mp hn with rfl | hn
        · show trackedAt _ key.alloc = _
          rw [trackedAt_advance hget, if_pos (howned.own i key hkey), hsome]
        · exact (hlisted n hn).2
      · rw [allocList_trackerAdd, if_pos rfl]
        refine List.pairwise_cons.mpr ⟨?_, h.distinct⟩
        intro n hn
        exact h.apart i n.ptr.alloc key n.ptr (hlisted n hn).1.symm hkey
          (keyAt_of_trackedAt (h.listed n hn))

theorem tracked_kept
    {s : System} {i : Nat} {op : FileOp} {before after : Phase} {key : Pointer}
    {calls : List LibraryCall}
    (h : Tracked s)
    (hget : s.threads[i]? = some ⟨op, before⟩)
    (hkeep : before.trackedKey = some key)
    (hsome : after.trackedKey = some key) :
    Tracked ⟨s.tracker, advance s.threads i op after, calls⟩ := by
  have hsame : keyAt (advance s.threads i op after) = keyAt s.threads :=
    keyAt_advance hget
      ((key_of_trackedKey hsome).trans (key_of_trackedKey hkeep).symm)
  have happart := h.apart
  rw [← hsame] at happart
  refine ⟨happart, ?_, h.distinct⟩
  intro n hn
  have hold := h.listed n hn
  rw [trackedAt_advance hget]
  split_ifs with hi
  · rw [hi, trackedAt_eq hget, hkeep] at hold
    rw [hsome, hold]
  · exact hold

/-- Since the addresses are distinct, `tracker_remove` finds the node of its thread. -/
theorem tracked_removed
    {s : System} {i : Nat} {op : FileOp} {before after : Phase} {key : Pointer}
    {calls : List LibraryCall}
    (h : Tracked s)
    (hget : s.threads[i]? = some ⟨op, before⟩)
    (hafter : after.key = some key)
    (hkeep : before.trackedKey = some key) :
    Tracked
      ⟨trackerRemove s.tracker key keySize, advance s.threads i op after, calls⟩ := by
  have hsame : keyAt (advance s.threads i op after) = keyAt s.threads :=
    keyAt_advance hget (hafter.trans (key_of_trackedKey hkeep).symm)
  have happart := h.apart
  rw [← hsame] at happart
  refine ⟨happart, ?_, ?_⟩
  · intro n hn
    rw [allocList_trackerRemove] at hn
    obtain ⟨hn, hne⟩ := mem_and_ne_of_mem_eraseP h.distinct hn
    refine (listed_advance_of_ne h hget hn ?_).2
    intro htracked
    rw [hkeep] at htracked
    exact absurd (congrArg Pointer.addr (Option.some.inj htracked)).symm hne
  · rw [allocList_trackerRemove]
    exact addrsDistinct_eraseP h.distinct key

theorem tracked_released
    {s : System} {i : Nat} {op : FileOp} {key : Pointer} {calls : List LibraryCall}
    (h : Tracked s)
    (hget : s.threads[i]? = some ⟨op, .untracked key⟩) :
    Tracked ⟨s.tracker, advance s.threads i op .ended, calls⟩ := by
  refine ⟨?_, ?_, h.distinct⟩
  · intro j k key' other hjk hj hk
    exact h.apart j k key' other hjk (keyAt_ended hget hj).2 (keyAt_ended hget hk).2
  · intro n hn
    refine (listed_advance_of_ne h hget hn ?_).2
    intro htracked
    cases htracked

/-- A step from a state in which the threads own their keys keeps the list true. -/
theorem tracked_step
    {s s' : System} {e : Event}
    (howned : Owned s)
    (h : Tracked s)
    (hstep : step s e = some s') :
    Tracked s' := by
  cases effect_of_step hstep with
  | started hphase =>
      exact tracked_started howned h hphase
  | moved hget hbefore hafter hcalls hmove =>
      cases hmove with
      | added node hnone hsome =>
          exact tracked_added howned h hget hbefore hafter hnone hsome node
      | kept hkeep hsome =>
          exact tracked_kept h hget hkeep hsome
      | removed hkeep hnone =>
          exact tracked_removed h hget hafter hkeep
  | released hget =>
      exact tracked_released h hget
  | wiped =>
      have hempty : (secureEmergencyWipe s.tracker).1.allocList = [] := rfl
      refine ⟨h.apart, ?_, ?_⟩
      · simp [hempty]
      · simp [hempty, AddrsDistinct]

/-- What a run under the condition keeps. -/
theorem tracked_run
    {s : System} {es : List Event}
    (hguard : Guarded step StepOk System.initial es)
    (hrun : run step System.initial es = some s) :
    Owned s ∧ Tracked s := by
  have hkept :
      ∀ s e s', Owned s ∧ Tracked s → StepOk s e → step s e = some s' →
        Owned s' ∧ Tracked s' := by
    intro s e s' h hok hstep
    exact ⟨owned_step h.1 hok hstep, tracked_step h.1 h.2 hstep⟩
  have hinitial : Owned System.initial ∧ Tracked System.initial := by
    constructor <;> constructor <;>
      simp [System.initial, keyAt, secureMemoryInit, AddrsDistinct]
  exact invariant_of_guarded hkept hinitial hguard hrun

end Tracking

section Violation

/-- The state can be continued to one in which an allocation was released twice. -/
def Doomed (s : System) : Prop :=
  ∃ es t, run step s es = some t ∧ ¬ ReleasedOnce t

theorem doomed_of_step
    {s s' : System} {e : Event}
    (hstep : step s e = some s')
    (h : Doomed s') :
    Doomed s := by
  obtain ⟨es, t, hrun, hbad⟩ := h
  exact ⟨e :: es, t, run_cons_eq_some.mpr ⟨s', hstep, hrun⟩, hbad⟩

theorem get_advance
    {threads : List Thread} {i : Nat} {t : Thread}
    (hget : threads[i]? = some t)
    (op : FileOp) (phase : Phase) :
    (advance threads i op phase)[i]? = some ⟨op, phase⟩ :=
  List.getElem?_set_self (List.getElem?_eq_some_iff.mp hget).1

/-- A thread that is about to release a key which was released already. -/
theorem doomed_of_untracked
    {s : System} {i : Nat} {op : FileOp} {key : Pointer}
    (hget : s.threads[i]? = some ⟨op, .untracked key⟩)
    (hfree : .sodiumFree key.alloc ∈ s.calls) :
    Doomed s := by
  refine ⟨[.release i], _, run_cons_eq_some.mpr ⟨_, by simp only [step, hget]; rfl, rfl⟩, ?_⟩
  intro honce
  have hle := honce key.alloc
  have hpos := List.count_pos_iff.mpr hfree
  simp only [List.count_append, List.count_singleton_self] at hle
  omega

theorem doomed_of_finished
    {s : System} {i : Nat} {op : FileOp} {key : Pointer}
    (hget : s.threads[i]? = some ⟨op, .finished key⟩)
    (hfree : .sodiumFree key.alloc ∈ s.calls) :
    Doomed s := by
  refine doomed_of_step (e := .untrack i) (by simp only [step, hget]; rfl) ?_
  exact doomed_of_untracked (get_advance hget op _) hfree

/-- A wipe that releases the key of a thread: the thread goes on to release it too. -/
theorem doomed_of_tracked
    {s : System} {i : Nat} {key : Pointer}
    (hget : trackedAt s.threads i = some key)
    (hfree : .sodiumFree key.alloc ∈ s.calls) :
    Doomed s := by
  obtain ⟨⟨op, phase⟩, ht, hkey⟩ := Option.bind_eq_some_iff.mp hget
  cases phase with
  | ended =>
      cases hkey
  | allocated k =>
      cases hkey
  | untracked k =>
      cases hkey
  | finished k =>
      obtain rfl := Option.some.inj hkey
      exact doomed_of_finished ht hfree
  | tracked k =>
      obtain rfl := Option.some.inj hkey
      refine doomed_of_step (e := .derive i false) (by simp only [step, ht]; rfl) ?_
      exact doomed_of_finished (get_advance ht op _) (List.mem_append_left _ hfree)
  | derived k =>
      obtain rfl := Option.some.inj hkey
      refine doomed_of_step (e := .use i false) (by simp only [step, ht]; rfl) ?_
      exact doomed_of_finished (get_advance ht op _) (List.mem_append_left _ hfree)

/-- A step against the condition is a wipe that releases the key of some thread. -/
theorem doomed_of_not_ok
    {s s' : System} {e : Event}
    (h : Tracked s)
    (hbad : ¬ StepOk s e)
    (hstep : step s e = some s') :
    Doomed s' := by
  cases e with
  | wipe =>
      obtain ⟨n, hn⟩ := List.exists_mem_of_ne_nil _ hbad
      obtain rfl := Option.some.inj hstep
      refine doomed_of_tracked (h.listed n hn) (List.mem_append_right _ ?_)
      exact List.mem_map_of_mem (List.mem_map_of_mem hn)
  | allocate op addr => exact absurd trivial hbad
  | track i node => exact absurd trivial hbad
  | derive i ok => exact absurd trivial hbad
  | use i output => exact absurd trivial hbad
  | untrack i => exact absurd trivial hbad
  | release i => exact absurd trivial hbad

end Violation

section Main

/--
**In a run in which no wipe begins while a key is tracked, no allocation is released
twice and no key is used after its release; and the first wipe that begins while a key
is tracked can be continued to a second release of that key.**
-/
theorem keys_safe_under_wipe
    {s : System} {es : List Event}
    (hguard : Guarded step StepOk System.initial es)
    (hrun : run step System.initial es = some s) :
    ReleasedOnce s ∧ NoUseAfterRelease s ∧
      ∀ e s', step s e = some s' → ¬ StepOk s e →
        ∃ fs t, run step s' fs = some t ∧ ¬ ReleasedOnce t := by
  obtain ⟨howned, htracked⟩ := tracked_run hguard hrun
  refine ⟨count_sodiumFree_le_one howned.final, noUse_of_final howned.final, ?_⟩
  intro e s' hstep hbad
  exact doomed_of_not_ok htracked hbad hstep

/-- Two threads one after the other at the same address, and a wipe behind them. -/
def orderlyRun : List Event :=
  [.allocate .encrypt (some 4096), .track 0 true, .derive 0 true, .use 0 true,
    .untrack 0, .release 0, .allocate .decrypt (some 4096), .track 1 true,
    .derive 1 false, .untrack 1, .wipe, .release 1]

theorem orderly_run_safe :
    ∃ s,
      run step System.initial orderlyRun = some s ∧
        ReleasedOnce s ∧ NoUseAfterRelease s := by
  obtain ⟨s, hs⟩ :=
    Option.isSome_iff_exists.mp
      (by decide +kernel : (run step System.initial orderlyRun).isSome = true)
  have h := keys_safe_under_wipe (by decide +kernel) hs
  exact ⟨s, hs, h.1, h.2.1⟩

/-- A wipe while a thread that encrypts has its key tracked. -/
def wipedRun : List Event :=
  [.allocate .encrypt (some 4096), .track 0 true, .wipe, .derive 0 true, .use 0 true,
    .untrack 0, .release 0]

/-- The key is derived and used after its release, and released again. -/
theorem wiped_key_is_used_and_released_again :
    ∃ s,
      run step System.initial wipedRun = some s ∧
        s.calls = [.sodiumFree 0, .deriveKey 0, .encryptBuffer 0, .sodiumFree 0] ∧
        ¬ ReleasedOnce s ∧ ¬ NoUseAfterRelease s := by
  have hcalls :
      (run step System.initial wipedRun).map System.calls =
        some [.sodiumFree 0, .deriveKey 0, .encryptBuffer 0, .sodiumFree 0] := by
    decide +kernel
  obtain ⟨s, hs, hc⟩ := Option.map_eq_some_iff.mp hcalls
  refine ⟨s, hs, hc, ?_, ?_⟩
  · intro honce
    have hle := honce 0
    rw [hc] at hle
    exact absurd hle (by decide)
  · intro hnone
    rw [NoUseAfterRelease, hc, List.pairwise_cons] at hnone
    exact (hnone.1 (.deriveKey 0) (by simp) 0 rfl).1 rfl

end Main

end SecureMemory
end SecureZ
