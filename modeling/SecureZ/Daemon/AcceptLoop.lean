import SecureZ.Lib.Ownership
import SecureZ.Lib.Transition

/-!
# The accept loop of the daemon

`main` of `crypticd.c` accepts a client, puts the descriptor into a block from `malloc` and
starts a detached thread for it; where `malloc` or `pthread_create` fails it cleans up itself.
The thread takes the descriptor out of the block, frees the block, reads, answers and closes.
The system gives out the number of a closed descriptor and the address of a freed block again.

The connections are numbered in the order in which they are accepted, which tells apart those
that get the same descriptor one after the other.  The main result is about every interleaving
of the loop, its threads and a signal: no descriptor and no block is used after it was given
up, and every system call of a thread is on the connection that the thread was started for.
-/

namespace SecureZ
namespace Daemon

open Transition Ownership

section Model

/-- Where the loop is, with the connection that it has in hand. -/
inductive LoopPc
  | accepting
  | accepted (conn fd : Nat)
  /-- The descriptor is in the block. -/
  | holding (conn fd arg : Nat)
  /-- `malloc` has failed. -/
  | dropping (conn fd : Nat)
  /-- `pthread_create` has failed. -/
  | undoing (conn fd arg : Nat)
  | freeing (arg : Nat)
  | stopped
deriving DecidableEq

/-- Where a thread is in `client_handler`. -/
inductive HandlerPc
  | started (arg : Nat)
  | loaded (fd arg : Nat)
  | reading (fd : Nat)
  | answering (fd : Nat)
  | closing (fd : Nat)
  | finished
deriving DecidableEq

/-- A thread, with the connection that it was started for. -/
structure Handler where
  conn : Nat
  pc : HandlerPc
deriving DecidableEq

/-- The daemon with its open descriptors and allocated blocks. -/
structure ServerState where
  loop : LoopPc
  running : Bool
  /-- The connection that a descriptor is for. -/
  table : Nat → Option Nat
  heap : Nat → Option Nat
  handlers : List Handler
  accepted : Nat
  closed : List Nat
  /-- The system calls on a descriptor: the connection that the caller was started for, and the
  one that the call reaches. -/
  reached : List (Nat × Nat)
  /-- Something was used that is not there. -/
  fault : Bool

/-- What happens to the daemon. -/
inductive ServerEvent
  /-- `SIGTERM` or `SIGINT`. -/
  | signal
  /-- `accept` returns a descriptor, or -1. -/
  | accept (fd : Option Nat)
  | malloc (addr : Option Nat)
  | create (ok : Bool)
  /-- The next call of the loop while it cleans up. -/
  | cleanUp
  /-- The next step of a thread; `data` tells whether `read` returns something. -/
  | handler (i : Nat) (data : Bool)
deriving DecidableEq

/-- The head of the loop. -/
def ServerState.loopHead (s : ServerState) : ServerState :=
  { s with loop := if s.running then .accepting else .stopped }

/-- The daemon when the loop begins. -/
def serverStart (running : Bool) : ServerState :=
  ServerState.loopHead ⟨.accepting, running, fun _ => none, fun _ => none, [], 0, [], [], false⟩

/-- `close(fd)`. -/
def ServerState.close (s : ServerState) (fd : Nat) : ServerState :=
  match s.table fd with
  | some conn => { s with table := Function.update s.table fd none, closed := s.closed ++ [conn] }
  | none => { s with fault := true }

/-- `free(arg)`. -/
def ServerState.free (s : ServerState) (arg : Nat) : ServerState :=
  match s.heap arg with
  | some _ => { s with heap := Function.update s.heap arg none }
  | none => { s with fault := true }

/-- A `read` or a `write` on a descriptor, for a connection. -/
def ServerState.reach (s : ServerState) (conn fd : Nat) : ServerState :=
  match s.table fd with
  | some conn' => { s with reached := s.reached ++ [(conn, conn')] }
  | none => { s with fault := true }

/-- A thread has gone on. -/
def ServerState.setPc (s : ServerState) (i : Nat) (h : Handler) (pc : HandlerPc) : ServerState :=
  { s with handlers := s.handlers.set i ⟨h.conn, pc⟩ }

/-- A step of `client_handler`. -/
def handlerStep (s : ServerState) (i : Nat) (h : Handler) (data : Bool) : Option ServerState :=
  match h.pc with
  | .started arg =>
      match s.heap arg with
      | some fd => some (s.setPc i h (.loaded fd arg))
      | none => some { s with fault := true }
  | .loaded fd arg => some ((s.free arg).setPc i h (.reading fd))
  | .reading fd =>
      some ((s.reach h.conn fd).setPc i h (if data then .answering fd else .closing fd))
  | .answering fd => some ((s.reach h.conn fd).setPc i h (.closing fd))
  | .closing fd => some ((s.close fd).setPc i h .finished)
  | .finished => none

/-- A step of the daemon.  The system gives out what is free only. -/
def serverStep (s : ServerState) : ServerEvent → Option ServerState
  | .signal => some { s with running := false }
  | .accept fd =>
      match s.loop, fd with
      | .accepting, none => some s.loopHead
      | .accepting, some fd =>
          if s.table fd = none then
            some { s with
              table := Function.update s.table fd (some s.accepted)
              accepted := s.accepted + 1
              loop := .accepted s.accepted fd }
          else none
      | _, _ => none
  | .malloc addr =>
      match s.loop, addr with
      | .accepted conn fd, none => some { s with loop := .dropping conn fd }
      | .accepted conn fd, some arg =>
          if s.heap arg = none then
            some { s with
              heap := Function.update s.heap arg (some fd)
              loop := .holding conn fd arg }
          else none
      | _, _ => none
  | .create ok =>
      match s.loop with
      | .holding conn fd arg =>
          if ok then
            some (ServerState.loopHead { s with handlers := s.handlers ++ [⟨conn, .started arg⟩] })
          else some { s with loop := .undoing conn fd arg }
      | _ => none
  | .cleanUp =>
      match s.loop with
      | .dropping _ fd => some (s.close fd).loopHead
      | .undoing _ fd arg => some { s.close fd with loop := .freeing arg }
      | .freeing arg => some (s.free arg).loopHead
      | _ => none
  | .handler i data =>
      match s.handlers[i]? with
      | some h => handlerStep s i h data
      | none => none

end Model

section Holders

/-- The connection that the loop has in hand. -/
def LoopPc.conn : LoopPc → Option Nat
  | .accepted conn _ => some conn
  | .holding conn _ _ => some conn
  | .dropping conn _ => some conn
  | .undoing conn _ _ => some conn
  | _ => none

/-- The descriptor that the loop has in hand. -/
def LoopPc.fd : LoopPc → Option Nat
  | .accepted _ fd => some fd
  | .holding _ fd _ => some fd
  | .dropping _ fd => some fd
  | .undoing _ fd _ => some fd
  | _ => none

/-- The block that the loop has in hand. -/
def LoopPc.arg : LoopPc → Option Nat
  | .holding _ _ arg => some arg
  | .undoing _ _ arg => some arg
  | .freeing arg => some arg
  | _ => none

/-- The block of the loop, with the descriptor that is in it. -/
def LoopPc.cell : LoopPc → Option (Nat × Nat)
  | .holding _ fd arg => some (arg, fd)
  | _ => none

/-- The connection that a thread has in hand. -/
def Handler.live (h : Handler) : Option Nat :=
  if h.pc = .finished then none else some h.conn

/-- The block that a thread has in hand. -/
def HandlerPc.arg : HandlerPc → Option Nat
  | .started arg => some arg
  | .loaded _ arg => some arg
  | _ => none

/-- The descriptor that a thread has in hand, or in its block. -/
def HandlerPc.fd (heap : Nat → Option Nat) : HandlerPc → Option Nat
  | .started arg => heap arg
  | .loaded fd _ => some fd
  | .reading fd => some fd
  | .answering fd => some fd
  | .closing fd => some fd
  | .finished => none

/-- Who has what in hand: the loop is `none`, a thread is its index. -/
def ServerState.connOf (s : ServerState) : Option Nat → Option Nat
  | none => s.loop.conn
  | some i => (s.handlers[i]?).bind Handler.live

/-- The blocks in hand. -/
def ServerState.argOf (s : ServerState) : Option Nat → Option Nat
  | none => s.loop.arg
  | some i => (s.handlers[i]?).bind fun h => h.pc.arg

/-- The descriptors in hand. -/
def ServerState.fdOf (s : ServerState) : Option Nat → Option Nat
  | none => s.loop.fd
  | some i => (s.handlers[i]?).bind fun h => h.pc.fd s.heap

/-- What holds in every state of the daemon. -/
structure ServerInv (s : ServerState) : Prop where
  noFault : s.fault = false
  oneHandle : OneHandle s.table
  conns : Exclusive (Named s.table) s.connOf
  args : Exclusive (fun a => s.heap a ≠ none) s.argOf
  knows : ∀ {i c}, s.connOf i = some c → ∃ fd, s.fdOf i = some fd ∧ s.table fd = some c
  known : ∀ c, Named s.table c ∨ c ∈ s.closed ↔ c < s.accepted
  once : s.closed.Nodup
  apart : ∀ c ∈ s.closed, ¬ Named s.table c
  ended : ∀ h ∈ s.handlers, h.pc = .finished → h.conn ∈ s.closed
  served : (s.handlers.map Handler.conn).Nodup
  own : ∀ r ∈ s.reached, r.1 = r.2
  cell : ∀ {arg fd}, s.loop.cell = some (arg, fd) → s.heap arg = some fd

end Holders

section Steps

variable {s s' : ServerState} {i : Nat} {h : Handler} {pc : HandlerPc} {conn fd arg : Nat}

theorem connOf_setPc
    (hi : s.handlers[i]? = some h)
    (pc : HandlerPc) :
    (s.setPc i h pc).connOf =
      Function.update s.connOf (some i) (Handler.live ⟨h.conn, pc⟩) := by
  have hlt := (List.getElem?_eq_some_iff.mp hi).1
  funext j
  cases j with
  | none =>
      rfl
  | some j =>
      by_cases hji : j = i
      · subst hji
        simp [ServerState.connOf, ServerState.setPc, hlt]
      · rw [Function.update_of_ne (by simpa using hji)]
        simp [ServerState.connOf, ServerState.setPc, List.getElem?_set_ne (Ne.symm hji)]

theorem argOf_setPc
    (hi : s.handlers[i]? = some h)
    (pc : HandlerPc) :
    (s.setPc i h pc).argOf = Function.update s.argOf (some i) pc.arg := by
  have hlt := (List.getElem?_eq_some_iff.mp hi).1
  funext j
  cases j with
  | none =>
      rfl
  | some j =>
      by_cases hji : j = i
      · subst hji
        simp [ServerState.argOf, ServerState.setPc, hlt]
      · rw [Function.update_of_ne (by simpa using hji)]
        simp [ServerState.argOf, ServerState.setPc, List.getElem?_set_ne (Ne.symm hji)]

theorem fdOf_setPc
    (hi : s.handlers[i]? = some h)
    (pc : HandlerPc) :
    (s.setPc i h pc).fdOf = Function.update s.fdOf (some i) (pc.fd s.heap) := by
  have hlt := (List.getElem?_eq_some_iff.mp hi).1
  funext j
  cases j with
  | none =>
      rfl
  | some j =>
      by_cases hji : j = i
      · subst hji
        simp [ServerState.fdOf, ServerState.setPc, hlt]
      · rw [Function.update_of_ne (by simpa using hji)]
        simp [ServerState.fdOf, ServerState.setPc, List.getElem?_set_ne (Ne.symm hji)]

theorem conns_setPc
    (hi : s.handlers[i]? = some h)
    (pc : HandlerPc) :
    (s.setPc i h pc).handlers.map Handler.conn = s.handlers.map Handler.conn := by
  obtain ⟨hlt, rfl⟩ := List.getElem?_eq_some_iff.mp hi
  apply List.ext_getElem?
  intro j
  simp only [ServerState.setPc, List.getElem?_map, List.getElem?_set]
  split_ifs with hij
  · subst hij
    simp [hlt]
  · rfl

/-- The threads that have ended, behind a step of one of them. -/
theorem mem_setPc
    {h' : Handler}
    (hmem : h' ∈ (s.setPc i h pc).handlers) :
    h' = ⟨h.conn, pc⟩ ∨ h' ∈ s.handlers :=
  (List.mem_or_eq_of_mem_set hmem).symm

/-- What a holder has in hand when only the loop goes on. -/
theorem connOf_loop
    (s : ServerState) (pc : LoopPc) :
    ServerState.connOf { s with loop := pc } = Function.update s.connOf none pc.conn := by
  funext j
  cases j <;> rfl

theorem argOf_loop
    (s : ServerState) (pc : LoopPc) :
    ServerState.argOf { s with loop := pc } = Function.update s.argOf none pc.arg := by
  funext j
  cases j <;> rfl

theorem fdOf_loop
    (s : ServerState) (pc : LoopPc) :
    ServerState.fdOf { s with loop := pc } = Function.update s.fdOf none pc.fd := by
  funext j
  cases j <;> rfl

/-- A step that changes what nobody has in hand keeps the invariant. -/
theorem inv_same
    (hinv : ServerInv s)
    (hfault : s'.fault = s.fault)
    (htable : s'.table = s.table)
    (hheap : s'.heap = s.heap)
    (hconns : s'.connOf = s.connOf)
    (hargs : s'.argOf = s.argOf)
    (hfds : s'.fdOf = s.fdOf)
    (haccepted : s'.accepted = s.accepted)
    (hclosed : s'.closed = s.closed)
    (hended : ∀ h ∈ s'.handlers, h.pc = .finished → h.conn ∈ s.closed)
    (hserved : s'.handlers.map Handler.conn = s.handlers.map Handler.conn)
    (hown : ∀ r ∈ s'.reached, r.1 = r.2)
    (hcell : s'.loop.cell = none ∨ s'.loop = s.loop) :
    ServerInv s' where
  noFault := hfault.trans hinv.noFault
  oneHandle := by
    rw [htable]
    exact hinv.oneHandle
  conns := by
    rw [htable, hconns]
    exact hinv.conns
  args := by
    rw [hheap, hargs]
    exact hinv.args
  knows := by
    rw [htable, hconns, hfds]
    exact hinv.knows
  known := by
    rw [htable, hclosed, haccepted]
    exact hinv.known
  once := by
    rw [hclosed]
    exact hinv.once
  apart := by
    rw [hclosed, htable]
    exact hinv.apart
  ended := by
    rw [hclosed]
    exact hended
  served := by
    rw [hserved]
    exact hinv.served
  own := hown
  cell := by
    intro arg fd hin
    rcases hcell with hnone | hloop
    · rw [hnone] at hin
      cases hin
    · rw [hheap]
      exact hinv.cell (hloop ▸ hin)

/-- The loop goes on with the same things in hand. -/
theorem inv_loop
    (hinv : ServerInv s)
    {pc : LoopPc}
    (hconn : pc.conn = s.loop.conn)
    (hfd : pc.fd = s.loop.fd)
    (harg : pc.arg = s.loop.arg)
    (hcell : pc.cell = none) :
    ServerInv { s with loop := pc } := by
  refine inv_same hinv rfl rfl rfl ?_ ?_ ?_ rfl rfl hinv.ended rfl hinv.own (Or.inl hcell)
  · rw [connOf_loop, hconn]
    exact Function.update_eq_self none s.connOf
  · rw [argOf_loop, harg]
    exact Function.update_eq_self none s.argOf
  · rw [fdOf_loop, hfd]
    exact Function.update_eq_self none s.fdOf

theorem inv_loopHead
    (hinv : ServerInv s)
    (hconn : s.loop.conn = none)
    (hfd : s.loop.fd = none)
    (harg : s.loop.arg = none) :
    ServerInv s.loopHead := by
  refine inv_loop hinv ?_ ?_ ?_ ?_
  · rw [hconn]
    split_ifs <;> rfl
  · rw [hfd]
    split_ifs <;> rfl
  · rw [harg]
    split_ifs <;> rfl
  · split_ifs <;> rfl

theorem connOf_handler
    (hi : s.handlers[i]? = some h) :
    s.connOf (some i) = h.live := by
  simp [ServerState.connOf, hi]

theorem argOf_handler
    (hi : s.handlers[i]? = some h) :
    s.argOf (some i) = h.pc.arg := by
  simp [ServerState.argOf, hi]

theorem fdOf_handler
    (hi : s.handlers[i]? = some h) :
    s.fdOf (some i) = h.pc.fd s.heap := by
  simp [ServerState.fdOf, hi]

theorem live_of_ne
    {h : Handler}
    (hpc : h.pc ≠ .finished) :
    h.live = some h.conn :=
  if_neg hpc

/-- A thread goes on with the same things in hand. -/
theorem inv_setPc
    (hinv : ServerInv s)
    (hi : s.handlers[i]? = some h)
    (hold : h.pc ≠ .finished)
    (hnew : pc ≠ .finished)
    (hfd : pc.fd s.heap = h.pc.fd s.heap)
    (harg : pc.arg = h.pc.arg) :
    ServerInv (s.setPc i h pc) := by
  refine inv_same hinv rfl rfl rfl ?_ ?_ ?_ rfl rfl ?_ (conns_setPc hi pc) hinv.own (Or.inr rfl)
  · have hlive : Handler.live ⟨h.conn, pc⟩ = s.connOf (some i) := by
      rw [connOf_handler hi, live_of_ne hold]
      exact live_of_ne hnew
    rw [connOf_setPc hi, hlive, Function.update_eq_self]
  · rw [argOf_setPc hi, harg, ← argOf_handler hi, Function.update_eq_self]
  · rw [fdOf_setPc hi, hfd, ← fdOf_handler hi, Function.update_eq_self]
  · intro h' hmem hfinished
    rcases mem_setPc hmem with rfl | hmem
    · exact absurd hfinished hnew
    · exact hinv.ended h' hmem hfinished

/-- A system call of a thread reaches its own connection. -/
theorem reach_eq
    (hinv : ServerInv s)
    (hi : s.handlers[i]? = some h)
    (hold : h.pc ≠ .finished)
    (hfd : h.pc.fd s.heap = some fd) :
    s.reach h.conn fd = { s with reached := s.reached ++ [(h.conn, h.conn)] } := by
  have hconn : s.connOf (some i) = some h.conn := by
    rw [connOf_handler hi, live_of_ne hold]
  obtain ⟨fd', hfd', htable⟩ := hinv.knows hconn
  rw [fdOf_handler hi, hfd, Option.some.injEq] at hfd'
  rw [ServerState.reach, hfd', htable]

theorem inv_reach
    (hinv : ServerInv s)
    (conn : Nat) :
    ServerInv { s with reached := s.reached ++ [(conn, conn)] } := by
  refine inv_same hinv rfl rfl rfl rfl rfl rfl rfl rfl hinv.ended rfl (fun r hr => ?_)
    (Or.inr rfl)
  rcases List.mem_append.mp hr with hr | hr
  · exact hinv.own r hr
  · rw [List.mem_singleton.mp hr]

/-- A holder closes its descriptor. -/
theorem inv_closed
    (hinv : ServerInv s)
    {j : Option Nat} {c : Nat}
    (hconn : s.connOf j = some c)
    (hfd : s.fdOf j = some fd)
    (htable : s.table fd = some c)
    (hfault : s'.fault = s.fault)
    (htable' : s'.table = Function.update s.table fd none)
    (hheap : s'.heap = s.heap)
    (hconns : s'.connOf = Function.update s.connOf j none)
    (hargs : s'.argOf = s.argOf)
    (hfds : ∀ k, k ≠ j → s'.fdOf k = s.fdOf k)
    (haccepted : s'.accepted = s.accepted)
    (hclosed : s'.closed = s.closed ++ [c])
    (hended : ∀ h ∈ s'.handlers, h.pc = .finished → h.conn ∈ s.closed ++ [c])
    (hserved : s'.handlers.map Handler.conn = s.handlers.map Handler.conn)
    (hown : s'.reached = s.reached)
    (hcell : s'.loop.cell = none ∨ s'.loop = s.loop) :
    ServerInv s' where
  noFault := hfault.trans hinv.noFault
  oneHandle := by
    rw [htable']
    exact oneHandle_update_none hinv.oneHandle
  conns := by
    rw [htable', hconns]
    exact hinv.conns.release hconn (named_update_none hinv.oneHandle htable)
  args := by
    rw [hheap, hargs]
    exact hinv.args
  knows := by
    intro k c' hk
    rw [hconns] at hk
    have hkj : k ≠ j := by
      rintro rfl
      simp at hk
    rw [Function.update_of_ne hkj] at hk
    obtain ⟨fd', hfd', hknown⟩ := hinv.knows hk
    refine ⟨fd', by rw [hfds k hkj, hfd'], ?_⟩
    have hne : fd' ≠ fd := by
      rintro rfl
      obtain rfl : c' = c := Option.some.inj (hknown.symm.trans htable)
      exact hkj (hinv.conns.unique hk hconn)
    rw [htable', Function.update_of_ne hne, hknown]
  known := by
    intro x
    rw [htable', hclosed, haccepted, ← hinv.known x, named_update_none hinv.oneHandle htable]
    by_cases hx : x = c
    · subst hx
      exact iff_of_true (Or.inr (by simp)) (Or.inl ⟨fd, htable⟩)
    · simp [hx]
  once := by
    rw [hclosed, List.nodup_append]
    refine ⟨hinv.once, by simp, ?_⟩
    intro x hx y hy hxy
    rw [List.mem_singleton] at hy
    subst hxy hy
    exact hinv.apart x hx ⟨fd, htable⟩
  apart := by
    intro x hx
    rw [hclosed, List.mem_append, List.mem_singleton] at hx
    rw [htable', named_update_none hinv.oneHandle htable]
    rintro ⟨hnamed, hne⟩
    rcases hx with hx | hx
    · exact hinv.apart x hx hnamed
    · exact hne hx
  ended := by
    rw [hclosed]
    exact hended
  served := by
    rw [hserved]
    exact hinv.served
  own := by
    rw [hown]
    exact hinv.own
  cell := by
    intro arg fd' hin
    rcases hcell with hnone | hloop
    · rw [hnone] at hin
      cases hin
    · rw [hheap]
      exact hinv.cell (hloop ▸ hin)

theorem arg_of_cell
    {pc : LoopPc}
    (h : pc.cell = some (arg, fd)) :
    pc.arg = some arg := by
  cases pc with
  | holding conn fd' arg' =>
      obtain ⟨rfl, -⟩ := Prod.mk.inj (Option.some.inj h)
      rfl
  | accepting => cases h
  | accepted => cases h
  | dropping => cases h
  | undoing => cases h
  | freeing => cases h
  | stopped => cases h

/-- A holder frees its block. -/
theorem inv_freed
    (hinv : ServerInv s)
    {j : Option Nat}
    (harg : s.argOf j = some arg)
    (hfault : s'.fault = s.fault)
    (htable : s'.table = s.table)
    (hheap : s'.heap = Function.update s.heap arg none)
    (hconns : s'.connOf = s.connOf)
    (hargs : s'.argOf = Function.update s.argOf j none)
    (hfds : ∀ k c, s.connOf k = some c → s'.fdOf k = s.fdOf k)
    (haccepted : s'.accepted = s.accepted)
    (hclosed : s'.closed = s.closed)
    (hended : ∀ h ∈ s'.handlers, h.pc = .finished → h.conn ∈ s.closed)
    (hserved : s'.handlers.map Handler.conn = s.handlers.map Handler.conn)
    (hown : s'.reached = s.reached)
    (hcell : s'.loop.cell = none ∨ s'.loop = s.loop ∧ j ≠ none) :
    ServerInv s' where
  noFault := hfault.trans hinv.noFault
  oneHandle := by
    rw [htable]
    exact hinv.oneHandle
  conns := by
    rw [htable, hconns]
    exact hinv.conns
  args := by
    rw [hheap, hargs]
    refine hinv.args.release harg fun x => ?_
    by_cases hx : x = arg
    · simp [hx]
    · simp [hx]
  knows := by
    intro k c hk
    rw [hconns] at hk
    rw [hfds k c hk, htable]
    exact hinv.knows hk
  known := by
    rw [htable, hclosed, haccepted]
    exact hinv.known
  once := by
    rw [hclosed]
    exact hinv.once
  apart := by
    rw [hclosed, htable]
    exact hinv.apart
  ended := by
    rw [hclosed]
    exact hended
  served := by
    rw [hserved]
    exact hinv.served
  own := by
    rw [hown]
    exact hinv.own
  cell := by
    intro arg' fd' hin
    rcases hcell with hnone | ⟨hloop, hj⟩
    · rw [hnone] at hin
      cases hin
    · rw [hloop] at hin
      have hheld : s.argOf none = some arg' := by
        exact arg_of_cell hin
      have hne : arg' ≠ arg := by
        rintro rfl
        exact hj (hinv.args.unique harg hheld)
      rw [hheap, Function.update_of_ne hne]
      exact hinv.cell hin

end Steps

section Loop

variable {s : ServerState} {conn fd arg : Nat}

theorem inv_accept
    (hinv : ServerInv s)
    (hloop : s.loop = .accepting)
    (hfree : s.table fd = none) :
    ServerInv { s with
      table := Function.update s.table fd (some s.accepted)
      accepted := s.accepted + 1
      loop := .accepted s.accepted fd } := by
  have hnew : ¬ Named s.table s.accepted := fun hnamed =>
    absurd ((hinv.known s.accepted).mp (Or.inl hnamed)) (Nat.lt_irrefl _)
  have hhand : s.connOf none = none := by
    rw [ServerState.connOf, hloop]
    rfl
  have hargs : s.argOf none = none := by
    rw [ServerState.argOf, hloop]
    rfl
  have hconns : ServerState.connOf { s with
      table := Function.update s.table fd (some s.accepted)
      accepted := s.accepted + 1
      loop := .accepted s.accepted fd } = Function.update s.connOf none (some s.accepted) :=
    connOf_loop s (.accepted s.accepted fd)
  refine ⟨hinv.noFault, oneHandle_update_some hinv.oneHandle hnew, ?_, ?_, ?_, ?_, hinv.once, ?_,
    hinv.ended, hinv.served, hinv.own, fun hin => by cases hin⟩
  · rw [hconns]
    exact hinv.conns.acquire hhand hnew (named_update_some hfree)
  · refine hinv.args.congr (fun j => ?_) fun _ => Iff.rfl
    cases j with
    | none => exact hargs.symm
    | some j => rfl
  · intro j c hj
    rw [hconns] at hj
    cases j with
    | none =>
        rw [Function.update_self] at hj
        exact ⟨fd, rfl, by rw [← hj]; exact Function.update_self fd _ s.table⟩
    | some j =>
        rw [Function.update_of_ne (by simp)] at hj
        obtain ⟨fd', hfd', htable⟩ := hinv.knows hj
        have hne : fd' ≠ fd := by
          rintro rfl
          rw [hfree] at htable
          cases htable
        exact ⟨fd', hfd', by rw [← htable]; exact Function.update_of_ne hne _ s.table⟩
  · intro c
    change Named (Function.update s.table fd (some s.accepted)) c ∨ c ∈ s.closed ↔
      c < s.accepted + 1
    rw [named_update_some hfree, Nat.lt_succ_iff_lt_or_eq, ← hinv.known c, or_assoc]
    exact or_comm
  · intro c hc
    change ¬ Named (Function.update s.table fd (some s.accepted)) c
    rw [named_update_some hfree]
    rintro (rfl | hnamed)
    · exact absurd ((hinv.known s.accepted).mp (Or.inr hc)) (Nat.lt_irrefl _)
    · exact hinv.apart c hc hnamed

/-- A handler's descriptor is found as before when another block changes. -/
theorem fd_update_heap
    {pc : HandlerPc} {v : Option Nat}
    (harg : pc.arg ≠ some arg) :
    pc.fd (Function.update s.heap arg v) = pc.fd s.heap := by
  cases pc with
  | started arg' =>
      have hne : arg' ≠ arg := fun hsame => harg (by rw [hsame]; rfl)
      exact Function.update_of_ne hne v s.heap
  | loaded => rfl
  | reading => rfl
  | answering => rfl
  | closing => rfl
  | finished => rfl

theorem inv_malloc
    (hinv : ServerInv s)
    (hloop : s.loop = .accepted conn fd)
    (hfree : s.heap arg = none) :
    ServerInv { s with
      heap := Function.update s.heap arg (some fd)
      loop := .holding conn fd arg } := by
  have hhand : s.argOf none = none := by
    rw [ServerState.argOf, hloop]
    rfl
  have hargs : ServerState.argOf { s with
      heap := Function.update s.heap arg (some fd)
      loop := .holding conn fd arg } = Function.update s.argOf none (some arg) :=
    argOf_loop s (.holding conn fd arg)
  have hfds : ∀ k, ServerState.fdOf { s with
      heap := Function.update s.heap arg (some fd)
      loop := .holding conn fd arg } k = s.fdOf k := by
    intro k
    cases k with
    | none =>
        rw [ServerState.fdOf, ServerState.fdOf, hloop]
        rfl
    | some k =>
        change (s.handlers[k]?).bind _ = (s.handlers[k]?).bind _
        cases hk : s.handlers[k]? with
        | none => rfl
        | some h =>
            refine fd_update_heap fun harg => ?_
            exact hinv.args.opened ((argOf_handler hk).trans harg) hfree
  have hconns : ServerState.connOf { s with
      heap := Function.update s.heap arg (some fd)
      loop := .holding conn fd arg } = s.connOf := by
    funext k
    cases k with
    | none =>
        rw [ServerState.connOf, ServerState.connOf, hloop]
        rfl
    | some k => rfl
  refine ⟨hinv.noFault, hinv.oneHandle, ?_, ?_, ?_, hinv.known, hinv.once, hinv.apart,
    hinv.ended, hinv.served, hinv.own, ?_⟩
  · rw [hconns]
    exact hinv.conns
  · rw [hargs]
    refine hinv.args.acquire hhand (fun hopen => hopen hfree) fun x => ?_
    by_cases hx : x = arg
    · simp [hx]
    · simp [hx]
  · intro k c hk
    rw [hconns] at hk
    rw [hfds]
    exact hinv.knows hk
  · intro arg' fd' hin
    obtain ⟨rfl, rfl⟩ := Prod.mk.inj (Option.some.inj hin)
    exact Function.update_self arg (some fd) s.heap

/-- The loop hands what it has over to a new thread. -/
theorem handedOver
    {α : Type} {f : Handler → Option α} {held held' : Option Nat → Option α}
    {handlers : List Handler} {h : Handler} {a : α}
    (hloop : held' none = none)
    (hnew : f h = some a)
    (hheld : ∀ k, held (some k) = (handlers[k]?).bind f)
    (hheld' : ∀ k, held' (some k) = ((handlers ++ [h])[k]?).bind f) :
    held' =
      Function.update (Function.update held none none) (some handlers.length) (some a) := by
  funext k
  cases k with
  | none =>
      rw [Function.update_of_ne (by simp), Function.update_self, hloop]
  | some k =>
      rw [hheld']
      rcases Nat.lt_trichotomy k handlers.length with hlt | rfl | hgt
      · rw [Function.update_of_ne (by simpa using Nat.ne_of_lt hlt),
          Function.update_of_ne (by simp), hheld, List.getElem?_append_left hlt]
      · rw [Function.update_self, List.getElem?_concat_length]
        exact hnew
      · rw [Function.update_of_ne (by simpa using Nat.ne_of_gt hgt),
          Function.update_of_ne (by simp), hheld, List.getElem?_eq_none (by simp; omega),
          List.getElem?_eq_none (by omega)]

/-- A thread that is started takes over the connection and the block. -/
theorem inv_create
    (hinv : ServerInv s)
    (hloop : s.loop = .holding conn fd arg) :
    ServerInv (ServerState.loopHead
      { s with handlers := s.handlers ++ [⟨conn, .started arg⟩] }) := by
  have hconn : s.connOf none = some conn := by
    rw [ServerState.connOf, hloop]
    rfl
  have harg : s.argOf none = some arg := by
    rw [ServerState.argOf, hloop]
    rfl
  have hcell : s.heap arg = some fd := hinv.cell (by rw [hloop]; rfl)
  obtain ⟨fd', hfd', htable⟩ := hinv.knows hconn
  rw [ServerState.fdOf, hloop] at hfd'
  obtain rfl : fd = fd' := Option.some.inj hfd'
  have hnone : s.handlers[s.handlers.length]? = none := List.getElem?_eq_none (Nat.le_refl _)
  have hpc : ∀ {α : Type} (f : LoopPc → Option α), f .accepting = none → f .stopped = none →
      f (if s.running then .accepting else .stopped) = none := by
    intro α f haccepting hstopped
    split_ifs <;> assumption
  have hconns : ServerState.connOf (ServerState.loopHead
      { s with handlers := s.handlers ++ [⟨conn, .started arg⟩] }) =
        Function.update (Function.update s.connOf none none) (some s.handlers.length)
          (some conn) := by
    exact handedOver (f := Handler.live) (hpc LoopPc.conn rfl rfl) rfl
      (fun _ => rfl) (fun _ => rfl)
  have hargs : ServerState.argOf (ServerState.loopHead
      { s with handlers := s.handlers ++ [⟨conn, .started arg⟩] }) =
        Function.update (Function.update s.argOf none none) (some s.handlers.length)
          (some arg) := by
    exact handedOver (f := fun h => h.pc.arg) (hpc LoopPc.arg rfl rfl) rfl
      (fun _ => rfl) (fun _ => rfl)
  have hfds : ServerState.fdOf (ServerState.loopHead
      { s with handlers := s.handlers ++ [⟨conn, .started arg⟩] }) =
        Function.update (Function.update s.fdOf none none) (some s.handlers.length)
          (some fd) := by
    exact handedOver (f := fun h => h.pc.fd s.heap) (h := ⟨conn, .started arg⟩)
      (hpc LoopPc.fd rfl rfl) hcell (fun _ => rfl) (fun _ => rfl)
  refine ⟨hinv.noFault, hinv.oneHandle, ?_, ?_, ?_, hinv.known, hinv.once, hinv.apart, ?_, ?_,
    hinv.own, ?_⟩
  · rw [hconns]
    exact hinv.conns.handOver hconn (by rw [ServerState.connOf, hnone]; rfl)
  · rw [hargs]
    exact hinv.args.handOver harg (by rw [ServerState.argOf, hnone]; rfl)
  · intro k c hk
    rw [hconns] at hk
    rw [hfds]
    by_cases hkn : k = some s.handlers.length
    · subst hkn
      rw [Function.update_self, Option.some.injEq] at hk
      rw [Function.update_self, ← hk]
      exact ⟨fd, rfl, htable⟩
    · rw [Function.update_of_ne hkn] at hk ⊢
      cases k with
      | none =>
          rw [Function.update_self] at hk
          cases hk
      | some k =>
          rw [Function.update_of_ne (by simp)] at hk ⊢
          exact hinv.knows hk
  · intro h hmem hfinished
    rcases List.mem_append.mp hmem with hmem | hmem
    · exact hinv.ended h hmem hfinished
    · rw [List.mem_singleton.mp hmem] at hfinished
      cases hfinished
  · change ((s.handlers ++ [(⟨conn, .started arg⟩ : Handler)]).map Handler.conn).Nodup
    rw [List.map_append, List.nodup_append]
    refine ⟨hinv.served, by simp, ?_⟩
    rintro x hx y hy rfl
    obtain ⟨h, hmem, rfl⟩ := List.mem_map.mp hx
    obtain rfl : h.conn = conn := by simpa using hy
    obtain ⟨k, hk⟩ := List.getElem?_of_mem hmem
    by_cases hpc' : h.pc = .finished
    · exact hinv.apart _ (hinv.ended h hmem hpc') ⟨fd, htable⟩
    · have hlive : s.connOf (some k) = some h.conn := by
        rw [connOf_handler hk, live_of_ne hpc']
      exact absurd (hinv.conns.unique hlive hconn) (by simp)
  · intro arg' fd'' hin
    have hnil := hpc LoopPc.cell rfl rfl
    change LoopPc.cell (if s.running then .accepting else .stopped) = _ at hin
    rw [hnil] at hin
    cases hin

/-- Closing a descriptor that is in hand. -/
theorem close_eq
    (htable : s.table fd = some conn) :
    s.close fd =
      { s with table := Function.update s.table fd none, closed := s.closed ++ [conn] } := by
  rw [ServerState.close, htable]

/-- Freeing a block that is in hand. -/
theorem free_eq
    (hinv : ServerInv s)
    {j : Option Nat}
    (hj : s.argOf j = some arg) :
    s.free arg = { s with heap := Function.update s.heap arg none } := by
  obtain ⟨fd, hcell⟩ := Option.ne_none_iff_exists'.mp (hinv.args.opened hj)
  rw [ServerState.free, hcell]

/-- The loop closes the descriptor that it has in hand. -/
theorem inv_loop_close
    (hinv : ServerInv s)
    (hconn : s.loop.conn = some conn)
    (hfd : s.loop.fd = some fd)
    {pc : LoopPc}
    (hnone : pc.conn = none)
    (harg : pc.arg = s.loop.arg)
    (hcell : pc.cell = none) :
    ServerInv { s.close fd with loop := pc } := by
  obtain ⟨fd', hfd', htable⟩ := hinv.knows (i := none) hconn
  obtain rfl : fd' = fd := Option.some.inj (hfd'.symm.trans hfd)
  rw [close_eq htable]
  refine inv_closed hinv (j := none) hconn hfd htable rfl rfl rfl ?_ ?_ ?_ rfl rfl ?_ rfl rfl
    (Or.inl hcell)
  · rw [connOf_loop, hnone]
    rfl
  · rw [argOf_loop, harg]
    exact Function.update_eq_self none s.argOf
  · intro k hk
    cases k with
    | none => exact absurd rfl hk
    | some k => rfl
  · exact fun h hmem hfinished => List.mem_append_left _ (hinv.ended h hmem hfinished)

theorem inv_cleanUp
    (hinv : ServerInv s)
    {s' : ServerState}
    (hstep : serverStep s .cleanUp = some s') :
    ServerInv s' := by
  cases hloop : s.loop with
  | dropping conn fd =>
      simp only [serverStep, hloop, Option.some.injEq] at hstep
      subst hstep
      rw [ServerState.loopHead]
      refine inv_loop_close hinv (by rw [hloop]; rfl) (by rw [hloop]; rfl) ?_ ?_ ?_
      · split_ifs <;> rfl
      · rw [hloop]
        split_ifs <;> rfl
      · split_ifs <;> rfl
  | undoing conn fd arg =>
      simp only [serverStep, hloop, Option.some.injEq] at hstep
      subst hstep
      exact inv_loop_close hinv (by rw [hloop]; rfl) (by rw [hloop]; rfl) rfl
        (by rw [hloop]; rfl) rfl
  | freeing arg =>
      simp only [serverStep, hloop, Option.some.injEq] at hstep
      subst hstep
      have harg : s.argOf none = some arg := by
        rw [ServerState.argOf, hloop]
        rfl
      rw [free_eq hinv harg]
      refine inv_freed hinv harg rfl rfl rfl ?_ ?_ ?_ rfl rfl hinv.ended rfl rfl (Or.inl ?_)
      · rw [ServerState.loopHead, connOf_loop]
        have hconn : s.connOf none = none := by
          rw [ServerState.connOf, hloop]
          rfl
        funext k
        cases k with
        | none =>
            rw [Function.update_self, hconn]
            split_ifs <;> rfl
        | some k => rfl
      · rw [ServerState.loopHead, argOf_loop]
        funext k
        cases k with
        | none =>
            rw [Function.update_self, Function.update_self]
            split_ifs <;> rfl
        | some k => rfl
      · intro k c hk
        cases k with
        | none =>
            rw [ServerState.connOf, hloop] at hk
            cases hk
        | some k =>
            change (s.handlers[k]?).bind _ = (s.handlers[k]?).bind _
            cases hmem : s.handlers[k]? with
            | none => rfl
            | some h =>
                refine fd_update_heap fun hsame => ?_
                exact absurd (hinv.args.unique ((argOf_handler hmem).trans hsame) harg) (by simp)
      · change LoopPc.cell (if s.running then .accepting else .stopped) = none
        split_ifs <;> rfl
  | accepting => simp [serverStep, hloop] at hstep
  | accepted => simp [serverStep, hloop] at hstep
  | holding => simp [serverStep, hloop] at hstep
  | stopped => simp [serverStep, hloop] at hstep

end Loop

section Handlers

variable {s s' : ServerState} {i : Nat} {h : Handler} {fd arg : Nat}

theorem inv_handler_close
    (hinv : ServerInv s)
    (hi : s.handlers[i]? = some h)
    (hpc : h.pc = .closing fd) :
    ServerInv ((s.close fd).setPc i h .finished) := by
  have hlive : s.connOf (some i) = some h.conn := by
    rw [connOf_handler hi, live_of_ne (by rw [hpc]; simp)]
  obtain ⟨fd', hfd, htable⟩ := hinv.knows hlive
  rw [fdOf_handler hi, hpc] at hfd
  obtain rfl : fd = fd' := Option.some.inj hfd
  rw [close_eq htable]
  refine inv_closed hinv hlive (by rw [fdOf_handler hi, hpc]; rfl) htable rfl rfl rfl ?_ ?_ ?_ rfl
    rfl ?_ (conns_setPc hi _) rfl (Or.inr rfl)
  · exact connOf_setPc hi .finished
  · have hnone : HandlerPc.finished.arg = s.argOf (some i) := by
      rw [argOf_handler hi, hpc]
      rfl
    refine (argOf_setPc hi .finished).trans ?_
    rw [hnone]
    exact Function.update_eq_self (some i) s.argOf
  · intro k hk
    have hfds := congrFun (fdOf_setPc hi .finished) k
    rw [Function.update_of_ne hk] at hfds
    exact hfds
  · intro h' hmem hfinished
    rcases mem_setPc hmem with rfl | hmem
    · simp
    · exact List.mem_append_left _ (hinv.ended h' hmem hfinished)

theorem inv_handler_free
    (hinv : ServerInv s)
    (hi : s.handlers[i]? = some h)
    (hpc : h.pc = .loaded fd arg) :
    ServerInv ((s.free arg).setPc i h (.reading fd)) := by
  have harg : s.argOf (some i) = some arg := by
    rw [argOf_handler hi, hpc]
    rfl
  have hlive : s.connOf (some i) = some h.conn := by
    rw [connOf_handler hi, live_of_ne (by rw [hpc]; simp)]
  rw [free_eq hinv harg]
  refine inv_freed hinv harg rfl rfl rfl ?_ ?_ ?_ rfl rfl ?_ (conns_setPc hi _) rfl
    (Or.inr ⟨rfl, by simp⟩)
  · refine (connOf_setPc hi (.reading fd)).trans ?_
    have hsame : Handler.live ⟨h.conn, .reading fd⟩ = s.connOf (some i) := by
      rw [hlive]
      rfl
    rw [hsame]
    exact Function.update_eq_self (some i) s.connOf
  · exact argOf_setPc hi (.reading fd)
  · intro k c hk
    have hlt := (List.getElem?_eq_some_iff.mp hi).1
    cases k with
    | none => rfl
    | some k =>
        by_cases hki : k = i
        · subst hki
          rw [fdOf_handler hi, hpc]
          simp [ServerState.fdOf, ServerState.setPc, hlt, HandlerPc.fd]
        · change ((s.handlers.set i ⟨h.conn, .reading fd⟩)[k]?).bind _ = (s.handlers[k]?).bind _
          rw [List.getElem?_set_ne (Ne.symm hki)]
          cases hmem : s.handlers[k]? with
          | none => rfl
          | some h' =>
              refine fd_update_heap fun hsame => ?_
              have hsame' := hinv.args.unique ((argOf_handler hmem).trans hsame) harg
              exact hki (Option.some.inj hsame')
  · intro h' hmem hfinished
    rcases mem_setPc hmem with rfl | hmem
    · cases hfinished
    · exact hinv.ended h' hmem hfinished

theorem inv_handler
    (hinv : ServerInv s)
    (hi : s.handlers[i]? = some h)
    {data : Bool}
    (hstep : handlerStep s i h data = some s') :
    ServerInv s' := by
  cases hpc : h.pc with
  | started arg =>
      have harg : s.argOf (some i) = some arg := by
        rw [argOf_handler hi, hpc]
        rfl
      obtain ⟨fd, hcell⟩ := Option.ne_none_iff_exists'.mp (hinv.args.opened harg)
      simp only [handlerStep, hpc, hcell, Option.some.injEq] at hstep
      subst hstep
      refine inv_setPc hinv hi (by rw [hpc]; simp) (by simp) ?_ (by rw [hpc]; rfl)
      rw [hpc]
      exact hcell.symm
  | loaded fd arg =>
      simp only [handlerStep, hpc, Option.some.injEq] at hstep
      subst hstep
      exact inv_handler_free hinv hi hpc
  | reading fd =>
      simp only [handlerStep, hpc, Option.some.injEq] at hstep
      subst hstep
      rw [reach_eq hinv hi (by rw [hpc]; simp) (by rw [hpc]; rfl)]
      refine inv_setPc (inv_reach hinv h.conn) hi (by rw [hpc]; simp) ?_ ?_ ?_
      · split_ifs <;> simp
      · rw [hpc]
        split_ifs <;> rfl
      · rw [hpc]
        split_ifs <;> rfl
  | answering fd =>
      simp only [handlerStep, hpc, Option.some.injEq] at hstep
      subst hstep
      rw [reach_eq hinv hi (by rw [hpc]; simp) (by rw [hpc]; rfl)]
      exact inv_setPc (inv_reach hinv h.conn) hi (by rw [hpc]; simp) (by simp) (by rw [hpc]; rfl)
        (by rw [hpc]; rfl)
  | closing fd =>
      simp only [handlerStep, hpc, Option.some.injEq] at hstep
      subst hstep
      exact inv_handler_close hinv hi hpc
  | finished =>
      simp [handlerStep, hpc] at hstep

end Handlers

section Runs

variable {s s' : ServerState}

/-- Where the loop begins it has nothing in hand. -/
theorem start_idle
    {α : Type} {f : LoopPc → Option α}
    (haccepting : f .accepting = none)
    (hstopped : f .stopped = none)
    (running : Bool) :
    f (serverStart running).loop = none := by
  cases running with
  | false => exact hstopped
  | true => exact haccepting

theorem inv_start (running : Bool) :
    ServerInv (serverStart running) where
  noFault := rfl
  oneHandle := by
    intro i j c hi
    cases hi
  conns := by
    refine Exclusive.idle ?_ ?_
    · rintro (_ | j)
      · exact start_idle (f := LoopPc.conn) rfl rfl running
      · rfl
    · rintro c ⟨fd, hfd⟩
      cases hfd
  args := by
    refine Exclusive.idle ?_ fun a ha => ha rfl
    rintro (_ | j)
    · exact start_idle (f := LoopPc.arg) rfl rfl running
    · rfl
  knows := by
    rintro (_ | j) c hj
    · have hnone := start_idle (f := LoopPc.conn) rfl rfl running
      rw [ServerState.connOf, hnone] at hj
      cases hj
    · cases hj
  known := by
    intro c
    refine iff_of_false ?_ (Nat.not_lt_zero c)
    rintro (⟨fd, hfd⟩ | hclosed)
    · cases hfd
    · cases hclosed
  once := List.nodup_nil
  apart := by
    intro c hc
    cases hc
  ended := by
    intro h hh
    cases hh
  served := List.nodup_nil
  own := by
    intro r hr
    cases hr
  cell := by
    intro arg fd hcell
    rw [start_idle (f := LoopPc.cell) rfl rfl running] at hcell
    cases hcell

/-- Every step of the daemon keeps the invariant. -/
theorem inv_step
    {e : ServerEvent}
    (hinv : ServerInv s)
    (hstep : serverStep s e = some s') :
    ServerInv s' := by
  cases e with
  | signal =>
      obtain rfl := Option.some.inj hstep
      exact inv_same hinv rfl rfl rfl rfl rfl rfl rfl rfl hinv.ended rfl hinv.own (Or.inr rfl)
  | accept fd =>
      simp only [serverStep] at hstep
      split at hstep
      next hloop =>
        obtain rfl := Option.some.inj hstep
        exact inv_loopHead hinv (by rw [hloop]; rfl) (by rw [hloop]; rfl) (by rw [hloop]; rfl)
      next fd hloop =>
        split_ifs at hstep with hfree
        obtain rfl := Option.some.inj hstep
        exact inv_accept hinv hloop hfree
      next => cases hstep
  | malloc addr =>
      simp only [serverStep] at hstep
      split at hstep
      next conn fd hloop =>
        obtain rfl := Option.some.inj hstep
        exact inv_loop hinv (by rw [hloop]; rfl) (by rw [hloop]; rfl) (by rw [hloop]; rfl) rfl
      next conn fd arg hloop =>
        split_ifs at hstep with hfree
        obtain rfl := Option.some.inj hstep
        exact inv_malloc hinv hloop hfree
      next => cases hstep
  | create ok =>
      simp only [serverStep] at hstep
      split at hstep
      next conn fd arg hloop =>
        split_ifs at hstep
        · obtain rfl := Option.some.inj hstep
          exact inv_create hinv hloop
        · obtain rfl := Option.some.inj hstep
          exact inv_loop hinv (by rw [hloop]; rfl) (by rw [hloop]; rfl) (by rw [hloop]; rfl) rfl
      next => cases hstep
  | cleanUp =>
      exact inv_cleanUp hinv hstep
  | handler i data =>
      simp only [serverStep] at hstep
      split at hstep
      next h hi => exact inv_handler hinv hi hstep
      next => cases hstep

theorem inv_run
    {running : Bool} {events : List ServerEvent}
    (hrun : run serverStep (serverStart running) events = some s) :
    ServerInv s :=
  invariant_of_run (fun _ _ _ hinv hstep => inv_step hinv hstep) (inv_start running) hrun

/-- Nothing is in hand where the loop waits or has ended and no thread is left. -/
theorem none_in_hand
    (hloop : s.loop = .accepting ∨ s.loop = .stopped)
    (hdone : ∀ h ∈ s.handlers, h.pc = .finished)
    (j : Option Nat) :
    s.connOf j = none ∧ s.argOf j = none := by
  cases j with
  | none =>
      rcases hloop with hloop | hloop
      · simp [ServerState.connOf, ServerState.argOf, hloop, LoopPc.conn, LoopPc.arg]
      · simp [ServerState.connOf, ServerState.argOf, hloop, LoopPc.conn, LoopPc.arg]
  | some i =>
      cases hi : s.handlers[i]? with
      | none => simp [ServerState.connOf, ServerState.argOf, hi]
      | some h =>
          have hfinished := hdone h (List.mem_of_getElem? hi)
          rw [connOf_handler hi, argOf_handler hi]
          exact ⟨if_pos hfinished, by rw [hfinished]; rfl⟩

/-- **In every interleaving of the accept loop, its threads and a signal no descriptor and no
block is used after it was given up, every read and write of a thread is on the connection that
it was started for, no connection is served or closed twice, and once the loop waits with no
thread left every connection is closed and no block is lost.** -/
theorem clients_kept_apart
    {running : Bool} {events : List ServerEvent}
    (hrun : run serverStep (serverStart running) events = some s) :
    s.fault = false ∧ (∀ r ∈ s.reached, r.1 = r.2) ∧
      s.closed.Nodup ∧ (s.handlers.map Handler.conn).Nodup ∧
      ((s.loop = .accepting ∨ s.loop = .stopped) → (∀ h ∈ s.handlers, h.pc = .finished) →
        (∀ fd, s.table fd = none) ∧ (∀ arg, s.heap arg = none) ∧
          ∀ conn, conn ∈ s.closed ↔ conn < s.accepted) := by
  have hinv := inv_run hrun
  refine ⟨hinv.noFault, hinv.own, hinv.once, hinv.served, fun hloop hdone => ?_⟩
  have hunnamed : ∀ c, ¬ Named s.table c :=
    hinv.conns.none_open fun j => (none_in_hand hloop hdone j).1
  have hblocks : ∀ a, ¬ s.heap a ≠ none :=
    hinv.args.none_open fun j => (none_in_hand hloop hdone j).2
  refine ⟨fun fd => ?_, fun arg => not_not.mp (hblocks arg), fun c => ?_⟩
  · cases htable : s.table fd with
    | none => rfl
    | some c => exact absurd ⟨fd, htable⟩ (hunnamed c)
  · rw [← hinv.known c, or_iff_right (hunnamed c)]

/-- Descriptor 4 is given out three times and block 9 twice; the second client gets no thread. -/
def sampleServerEvents : List ServerEvent :=
  [.accept (some 4), .malloc (some 9), .create true, .handler 0 true, .handler 0 true,
    .handler 0 true, .handler 0 true, .handler 0 true, .accept (some 4), .malloc (some 9),
    .create false, .cleanUp, .cleanUp, .accept (some 4), .malloc (some 9), .create true, .signal,
    .handler 1 true, .accept none, .handler 1 true, .handler 1 false, .handler 1 true]

theorem sample_clients_apart :
    ∃ s, run serverStep (serverStart true) sampleServerEvents = some s ∧
      s.reached = [(0, 0), (0, 0), (2, 2)] ∧ s.closed = [0, 1, 2] ∧ s.loop = .stopped ∧
      s.fault = false ∧ ∀ fd, s.table fd = none := by
  have hrun : run serverStep (serverStart true) sampleServerEvents ≠ none := by
    decide +kernel
  obtain ⟨s, hs⟩ := Option.ne_none_iff_exists'.mp hrun
  have hends : (run serverStep (serverStart true) sampleServerEvents).map
      (fun t => (t.reached, t.closed, t.loop, t.handlers)) =
      some ([(0, 0), (0, 0), (2, 2)], [0, 1, 2], .stopped, [⟨0, .finished⟩, ⟨2, .finished⟩]) := by
    decide +kernel
  rw [hs, Option.map_some, Option.some.injEq, Prod.mk.injEq, Prod.mk.injEq, Prod.mk.injEq]
    at hends
  obtain ⟨hreached, hclosed, hloop, hhandlers⟩ := hends
  obtain ⟨hfault, -, -, -, hidle⟩ := clients_kept_apart hs
  refine ⟨s, hs, hreached, hclosed, hloop, hfault, (hidle (Or.inr hloop) ?_).1⟩
  rw [hhandlers]
  decide

end Runs

end Daemon
end SecureZ
