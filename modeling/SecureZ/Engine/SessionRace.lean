import SecureZ.Lib.Transition
import SecureZ.Engine.SecureSession

/-!
# Sessions under concurrent requests

Every client is served by a thread of its own.  `session_destroy` is one critical
section; `session_create` is one as well, but it reads the id through the pointer into
the array twice more after the unlock, once for the log line and once for its return
value.

A system is the table together with the threads that run `session_create`, each with
the slot it points to and the id that it took inside its critical section.  Events of
the threads are interleaved in any order.
-/

namespace SecureZ
namespace Session

open Transition

section Model

/-- A thread in `session_create`, from its critical section on. -/
inductive Client
  /-- It returned `-1`. -/
  | refused
  /-- It has unlocked the mutex. -/
  | unlocked (slot : Nat) (assigned : Int)
  /-- It has written its log line. -/
  | logged (slot : Nat) (assigned : Int)
  /-- It has returned an id. -/
  | answered (id assigned : Int)
deriving DecidableEq

/-- The slot that a thread still reads. -/
def Client.slot : Client → Option Nat
  | .unlocked slot _ => some slot
  | .logged slot _ => some slot
  | _ => none

/-- The id that a thread took inside its critical section. -/
def Client.assigned : Client → Option Int
  | .refused => none
  | .unlocked _ id => some id
  | .logged _ id => some id
  | .answered _ id => some id

/-- The id that a thread returned. -/
def Client.told : Client → Option Int
  | .answered id _ => some id
  | _ => none

/-- The table and the threads, in the order of their critical sections. -/
structure System where
  table : SessionTable
  clients : List Client

/-- The daemon after `session_init`, with no request yet. -/
def System.initial : System := ⟨sessionInit, []⟩

/-- The steps of the threads. -/
inductive Event
  /-- A `session_start` request: the critical section of `session_create`. -/
  | sessionStart (args : CreateArgs) (sys : CreateSys)
  /-- The read of `s->id` for the log line. -/
  | log (client : Nat)
  /-- The read of `s->id` for the return value. -/
  | answer (client : Nat)
  /-- A `session_end` request. -/
  | sessionEnd (id : Int)

/-- The thread of a creation, by the slot that its critical section ends with. -/
def newClient (t : SessionTable) : Option Nat → Client
  | none => .refused
  | some slot => .unlocked slot (t.slots slot).id

/-- One step.  Counting the next id up past `INT_MAX` has no meaning in C. -/
def step (s : System) : Event → Option System
  | .sessionStart args sys =>
      if createWrites s.table ∧ s.table.nextId = intMax then none
      else
        let locked := createLocked s.table args sys
        some ⟨locked.1, s.clients ++ [newClient locked.1 locked.2]⟩
  | .log client =>
      match s.clients[client]? with
      | some (.unlocked slot assigned) =>
          some ⟨s.table, s.clients.set client (.logged slot assigned)⟩
      | _ => none
  | .answer client =>
      match s.clients[client]? with
      | some (.logged slot assigned) =>
          some ⟨s.table,
            s.clients.set client (.answered (s.table.slots slot).id assigned)⟩
      | _ => none
  | .sessionEnd id => some ⟨(sessionDestroy s.table id).1, s.clients⟩

end Model

section Specification

/-- Every id that was returned is the one that its thread took. -/
def AnswersRight (s : System) : Prop :=
  ∀ c ∈ s.clients, ∀ id ∈ c.told, c.assigned = some id

/-- No id was returned to two threads. -/
def AnswersDistinct (s : System) : Prop :=
  ∀ (i j : Nat) (c d : Client),
    s.clients[i]? = some c → s.clients[j]? = some d →
    ∀ id, c.told = some id → d.told = some id → i = j

/--
The condition on a step: no thread still reads the slot that a creation writes, and no
thread still reads a slot that the end of a session refills.
-/
def StepOk (s : System) : Event → Prop
  | .sessionStart _ _ =>
      createWrites s.table → ∀ c ∈ s.clients, c.slot ≠ some s.table.count
  | .sessionEnd id =>
      ∀ idx ∈ findSession s.table id,
        ∀ c ∈ s.clients, ∀ slot ∈ c.slot, ¬ (idx ≤ slot ∧ slot + 1 < s.table.count)
  | _ => True

instance (s : System) : ∀ e, Decidable (StepOk s e)
  | .sessionStart _ _ => inferInstanceAs (Decidable (_ → _))
  | .log _ => inferInstanceAs (Decidable True)
  | .answer _ => inferInstanceAs (Decidable True)
  | .sessionEnd _ => inferInstanceAs (Decidable (∀ idx ∈ _, _))

instance (s : System) : Decidable (AnswersRight s) :=
  inferInstanceAs (Decidable (∀ c ∈ s.clients, _))

end Specification

section Effect

/-- What a step can do. -/
inductive Effect (s : System) : Event → System → Prop
  | created
      {args : CreateArgs} {sys : CreateSys} {t : SessionTable} {c : Client}
      (hwrites : createWrites s.table)
      (hslots : ∀ i, i ≠ s.table.count → t.slots i = s.table.slots i)
      (hid : (t.slots s.table.count).id = s.table.nextId)
      (hnext : t.nextId = s.table.nextId + 1)
      (hclient : c = .refused ∨ c = .unlocked s.table.count s.table.nextId) :
      Effect s (.sessionStart args sys) ⟨t, s.clients ++ [c]⟩
  | refused
      {args : CreateArgs} {sys : CreateSys}
      (hwrites : ¬ createWrites s.table) :
      Effect s (.sessionStart args sys) ⟨s.table, s.clients ++ [.refused]⟩
  | logged
      {i slot : Nat} {assigned : Int}
      (hget : s.clients[i]? = some (.unlocked slot assigned)) :
      Effect s (.log i) ⟨s.table, s.clients.set i (.logged slot assigned)⟩
  | answered
      {i slot : Nat} {assigned : Int}
      (hget : s.clients[i]? = some (.logged slot assigned)) :
      Effect s (.answer i)
        ⟨s.table, s.clients.set i (.answered (s.table.slots slot).id assigned)⟩
  | unknown
      {id : Int}
      (hfind : findSession s.table id = none) :
      Effect s (.sessionEnd id) s
  | ended
      {id : Int} {idx : Nat}
      (hfind : findSession s.table id = some idx) :
      Effect s (.sessionEnd id) ⟨s.table.remove idx, s.clients⟩

/-- A step does one of these. -/
theorem effect_of_step
    {s s' : System} {e : Event}
    (h : step s e = some s') :
    Effect s e s' := by
  cases e with
  | sessionStart args sys =>
      simp only [step] at h
      split_ifs at h
      obtain rfl := Option.some.inj h
      by_cases hw : createWrites s.table
      · obtain ⟨hslots, hid, hnext, hslot⟩ := createLocked_spec hw args sys
        refine .created hw hslots hid hnext ?_
        cases hr : (createLocked s.table args sys).2 with
        | none =>
            exact Or.inl rfl
        | some slot =>
            obtain rfl := hslot slot hr
            exact Or.inr (by rw [newClient, hid])
      · rw [createLocked_of_not_writes hw]
        exact .refused hw
  | log i =>
      simp only [step] at h
      split at h
      · next slot assigned hget =>
          obtain rfl := Option.some.inj h
          exact .logged hget
      · cases h
  | answer i =>
      simp only [step] at h
      split at h
      · next slot assigned hget =>
          obtain rfl := Option.some.inj h
          exact .answered hget
      · cases h
  | sessionEnd id =>
      obtain rfl := Option.some.inj h
      unfold sessionDestroy
      cases hfind : findSession s.table id with
      | none => exact .unknown hfind
      | some idx => exact .ended hfind

end Effect

section Order

/-- The ids that the threads took, in the order of their critical sections. -/
def assignedIds (clients : List Client) : List (Option Int) :=
  clients.map Client.assigned

/-- The ids grow from thread to thread and lie below the next id. -/
structure IdsOrdered (s : System) : Prop where
  increasing : (assignedIds s.clients).Pairwise fun x y => ∀ a ∈ x, ∀ b ∈ y, a < b
  below : ∀ x ∈ assignedIds s.clients, ∀ a ∈ x, a < s.table.nextId

/-- A thread keeps the id it took. -/
theorem assignedIds_set
    {clients : List Client} {i : Nat} {c d : Client}
    (hget : clients[i]? = some c)
    (heq : d.assigned = c.assigned) :
    assignedIds (clients.set i d) = assignedIds clients := by
  obtain ⟨hi, rfl⟩ := List.getElem?_eq_some_iff.mp hget
  unfold assignedIds
  rw [List.map_set, heq, ← List.getElem_map Client.assigned (h := by simpa using hi),
    List.set_getElem_self]

/-- A thread that takes no id, or one above all others, keeps the ids in order. -/
theorem idsOrdered_snoc
    {s : System} {t : SessionTable} {c : Client}
    (h : IdsOrdered s)
    (hnext : s.table.nextId ≤ t.nextId)
    (hnew : ∀ a ∈ c.assigned, a = s.table.nextId ∧ a < t.nextId) :
    IdsOrdered ⟨t, s.clients ++ [c]⟩ := by
  constructor
  · rw [assignedIds, List.map_append, List.pairwise_append]
    refine ⟨h.increasing, by simp, ?_⟩
    intro x hx y hy a ha b hb
    obtain rfl : y = c.assigned := by simpa using hy
    rw [(hnew b hb).1]
    exact h.below x hx a ha
  · intro x hx a ha
    rw [assignedIds, List.map_append, List.mem_append] at hx
    rcases hx with hx | hx
    · exact (h.below x hx a ha).trans_le hnext
    · obtain rfl : x = c.assigned := by simpa using hx
      exact (hnew a ha).2

/-- A thread that goes on keeps the ids in order. -/
theorem idsOrdered_set
    {s : System} {i : Nat} {c d : Client}
    (h : IdsOrdered s)
    (hget : s.clients[i]? = some c)
    (heq : d.assigned = c.assigned) :
    IdsOrdered ⟨s.table, s.clients.set i d⟩ := by
  have hids := assignedIds_set hget heq
  constructor
  · rw [hids]
    exact h.increasing
  · rw [hids]
    exact h.below

/-- Every step keeps the ids in order. -/
theorem idsOrdered_step
    {s s' : System} {e : Event}
    (h : IdsOrdered s)
    (hstep : step s e = some s') :
    IdsOrdered s' := by
  cases effect_of_step hstep with
  | @created args sys t c hwrites hslots hid hnext hclient =>
      refine idsOrdered_snoc h (by omega) ?_
      rcases hclient with rfl | rfl
      · simp [Client.assigned]
      · intro a ha
        obtain rfl := Option.some.inj ha
        exact ⟨rfl, by omega⟩
  | refused hwrites =>
      exact idsOrdered_snoc h le_rfl (by simp [Client.assigned])
  | logged hget =>
      exact idsOrdered_set h hget rfl
  | answered hget =>
      exact idsOrdered_set h hget rfl
  | unknown hfind =>
      exact h
  | ended hfind =>
      exact ⟨h.increasing, h.below⟩

/-- The ids are in order in every state that a run reaches. -/
theorem idsOrdered_run
    {s : System} {es : List Event}
    (hrun : run step System.initial es = some s) :
    IdsOrdered s :=
  invariant_of_run (fun _ _ _ h hstep => idsOrdered_step h hstep)
    ⟨by simp [assignedIds, System.initial], by simp [assignedIds, System.initial]⟩ hrun

end Order

section Pointers

/-- A thread is right with a table: the slot that it still reads holds the id that it
took, and that is the id that it returned. -/
structure Client.RightWith (t : SessionTable) (c : Client) : Prop where
  holds : ∀ slot ∈ c.slot, c.assigned = some (t.slots slot).id
  told : ∀ id ∈ c.told, c.assigned = some id

/-- All threads are right: so far every answer is, and every later one will be if nobody
writes the slots. -/
def Intact (s : System) : Prop :=
  ∀ c ∈ s.clients, c.RightWith s.table

theorem answersRight_of_intact
    {s : System}
    (h : Intact s) :
    AnswersRight s :=
  fun c hc id hid => (h c hc).told id hid

/-- Only the id in the slot that a thread still reads matters to it. -/
theorem rightWith_of_same_id
    {t t' : SessionTable} {c : Client}
    (h : c.RightWith t)
    (hsame : ∀ slot ∈ c.slot, (t'.slots slot).id = (t.slots slot).id) :
    c.RightWith t' := by
  refine ⟨?_, h.told⟩
  intro slot hslot
  rw [hsame slot hslot]
  exact h.holds slot hslot

theorem forall_mem_snoc
    {clients : List Client} {d : Client} {P : Client → Prop}
    (h : ∀ c ∈ clients, P c)
    (hd : P d) :
    ∀ c ∈ clients ++ [d], P c := by
  intro c hc
  rcases List.mem_append.mp hc with hc | hc
  · exact h c hc
  · obtain rfl := List.mem_singleton.mp hc
    exact hd

theorem forall_mem_set
    {clients : List Client} {i : Nat} {d : Client} {P : Client → Prop}
    (h : ∀ c ∈ clients, P c)
    (hd : P d) :
    ∀ c ∈ clients.set i d, P c := by
  intro c hc
  rcases List.mem_or_eq_of_mem_set hc with hc | rfl
  · exact h c hc
  · exact hd

theorem rightWith_refused
    (t : SessionTable) :
    Client.RightWith t .refused :=
  ⟨by simp [Client.slot], by simp [Client.told]⟩

/-- A step under its condition keeps the slots that are still read. -/
theorem intact_step
    {s s' : System} {e : Event}
    (h : Intact s)
    (hok : StepOk s e)
    (hstep : step s e = some s') :
    Intact s' := by
  cases effect_of_step hstep with
  | @created args sys t c hwrites hslots hid hnext hclient =>
      refine forall_mem_snoc ?_ ?_
      · intro d hd
        refine rightWith_of_same_id (h d hd) ?_
        intro slot hslot
        have hne : slot ≠ s.table.count := by
          rintro rfl
          exact hok hwrites d hd hslot
        rw [hslots slot hne]
      · rcases hclient with rfl | rfl
        · exact rightWith_refused t
        · refine ⟨?_, by simp [Client.told]⟩
          intro slot hslot
          obtain rfl := Option.some.inj hslot
          rw [hid]
          rfl
  | refused hwrites =>
      exact forall_mem_snoc h (rightWith_refused s.table)
  | @logged i slot assigned hget =>
      have hclient := h _ (List.mem_of_getElem? hget)
      exact forall_mem_set h ⟨hclient.holds, by simp [Client.told]⟩
  | @answered i slot assigned hget =>
      have hclient := h _ (List.mem_of_getElem? hget)
      refine forall_mem_set h ⟨by simp [Client.slot], ?_⟩
      intro id htold
      obtain rfl := Option.some.inj htold
      exact hclient.holds slot rfl
  | unknown hfind =>
      exact h
  | @ended id idx hfind =>
      intro c hc
      refine rightWith_of_same_id (h c hc) ?_
      intro slot hslot
      have hstays := hok idx hfind c hc slot hslot
      show (removedSlots s.table idx slot).id = _
      rw [removedSlots_id, if_neg hstays]

/-- What a run under the condition keeps. -/
theorem intact_run
    {s : System} {es : List Event}
    (hguard : Guarded step StepOk System.initial es)
    (hrun : run step System.initial es = some s) :
    Intact s :=
  invariant_of_guarded (fun _ _ _ h hok hstep => intact_step h hok hstep)
    (by simp [Intact, System.initial]) hguard hrun

/-- Right answers are distinct, because the ids that the threads took are. -/
theorem answersDistinct_of_right
    {s : System}
    (hids : IdsOrdered s)
    (hright : AnswersRight s) :
    AnswersDistinct s := by
  have hlt :
      ∀ (i j : Nat) (c d : Client), i < j →
        s.clients[i]? = some c → s.clients[j]? = some d →
        ∀ id, c.told = some id → d.told = some id → False := by
    intro i j c d hij hc hd id hcid hdid
    obtain ⟨hi, hci⟩ := List.getElem?_eq_some_iff.mp hc
    obtain ⟨hj, hdj⟩ := List.getElem?_eq_some_iff.mp hd
    have hpair := List.pairwise_iff_getElem.mp (List.pairwise_map.mp hids.increasing)
      i j hi hj hij
    rw [hci, hdj] at hpair
    have hac := hright c (List.mem_of_getElem? hc) id hcid
    have had := hright d (List.mem_of_getElem? hd) id hdid
    exact lt_irrefl id (hpair id hac id had)
  intro i j c d hc hd id hcid hdid
  rcases lt_trichotomy i j with hij | hij | hij
  · exact (hlt i j c d hij hc hd id hcid hdid).elim
  · exact hij
  · exact (hlt j i d c hij hd hc id hdid hcid).elim

end Pointers

section Violation

theorem step_log
    {s : System} {i slot : Nat} {assigned : Int}
    (hget : s.clients[i]? = some (.unlocked slot assigned)) :
    step s (.log i) = some ⟨s.table, s.clients.set i (.logged slot assigned)⟩ := by
  simp only [step, hget]

theorem step_answer
    {s : System} {i slot : Nat} {assigned : Int}
    (hget : s.clients[i]? = some (.logged slot assigned)) :
    step s (.answer i) =
      some ⟨s.table,
        s.clients.set i (.answered (s.table.slots slot).id assigned)⟩ := by
  simp only [step, hget]

/-- A thread whose slot holds another id than it took goes on to return that id. -/
theorem answer_of_lost_pointer
    {s : System} {c : Client} {slot : Nat}
    (hc : c ∈ s.clients)
    (hslot : slot ∈ c.slot)
    (hlost : c.assigned ≠ some (s.table.slots slot).id) :
    ∃ es t, run step s es = some t ∧ ¬ AnswersRight t := by
  obtain ⟨i, hi, hci⟩ := List.getElem_of_mem hc
  have hget : s.clients[i]? = some c := List.getElem?_eq_some_iff.mpr ⟨hi, hci⟩
  have hwrong :
      ∀ (clients : List Client) (a : Int),
        i < clients.length →
        some a ≠ some (s.table.slots slot).id →
        ¬ AnswersRight
          ⟨s.table, clients.set i (.answered (s.table.slots slot).id a)⟩ := by
    intro clients a hlen hne hright
    exact hne (hright _ (List.mem_set hlen _) _ rfl)
  cases c with
  | refused =>
      cases hslot
  | answered id a =>
      cases hslot
  | logged k a =>
      obtain rfl := Option.some.inj hslot
      exact ⟨[.answer i], _, run_cons_eq_some.mpr ⟨_, step_answer hget, rfl⟩,
        hwrong s.clients a hi hlost⟩
  | unlocked k a =>
      obtain rfl := Option.some.inj hslot
      have hlogged :
          (s.clients.set i (.logged k a))[i]? = some (.logged k a) :=
        List.getElem?_set_self hi
      exact ⟨[.log i, .answer i], _,
        run_cons_eq_some.mpr ⟨_, step_log hget,
          run_cons_eq_some.mpr ⟨_, step_answer hlogged, rfl⟩⟩,
        hwrong (s.clients.set i (.logged k a)) a (by simpa using hi) hlost⟩

/-- A step against the condition takes the slot away from a thread that still reads it. -/
theorem lost_pointer_of_not_ok
    {s s' : System} {e : Event}
    (h : Intact s)
    (hids : IdsOrdered s)
    (hbad : ¬ StepOk s e)
    (hstep : step s e = some s') :
    ∃ c ∈ s'.clients, ∃ slot ∈ c.slot, c.assigned ≠ some (s'.table.slots slot).id := by
  cases effect_of_step hstep with
  | @created args sys t d hwrites hslots hid hnext hclient =>
      simp only [StepOk, hwrites, forall_const, not_forall, not_not] at hbad
      obtain ⟨c, hc, hslot⟩ := hbad
      refine ⟨c, List.mem_append_left _ hc, s.table.count, hslot, ?_⟩
      intro heq
      rw [hid] at heq
      have hmem : c.assigned ∈ assignedIds s.clients := List.mem_map_of_mem hc
      exact lt_irrefl _ (hids.below _ hmem _ heq)
  | refused hwrites =>
      exact absurd (fun hw => absurd hw hwrites) hbad
  | logged hget =>
      exact absurd trivial hbad
  | answered hget =>
      exact absurd trivial hbad
  | unknown hfind =>
      simp [StepOk, hfind] at hbad
  | @ended id idx hfind =>
      simp only [StepOk, not_forall, not_not] at hbad
      obtain ⟨k, hk, c, hc, slot, hslot, hmoved⟩ := hbad
      obtain rfl : idx = k := Option.some.inj (hfind.symm.trans hk)
      refine ⟨c, hc, slot, hslot, ?_⟩
      show _ ≠ some (removedSlots s.table idx slot).id
      rw [removedSlots_id, if_pos hmoved, (h c hc).holds slot hslot]
      intro heq
      have hlt := s.table.ordered slot (slot + 1) (by omega) hmoved.2
      rw [Option.some.inj heq] at hlt
      exact lt_irrefl _ hlt

end Violation

section Main

/--
**In a run in which no thread loses the slot it still reads, every `session_create`
returns the id that it took, and no id is returned twice; and the first step against
this condition can be continued to a wrong answer.**
-/
theorem session_ids_right
    {s : System} {es : List Event}
    (hguard : Guarded step StepOk System.initial es)
    (hrun : run step System.initial es = some s) :
    AnswersRight s ∧ AnswersDistinct s ∧
      ∀ e s', step s e = some s' → ¬ StepOk s e →
        ∃ fs t, run step s' fs = some t ∧ ¬ AnswersRight t := by
  have hintact := intact_run hguard hrun
  have hids := idsOrdered_run hrun
  have hright := answersRight_of_intact hintact
  refine ⟨hright, answersDistinct_of_right hids hright, ?_⟩
  intro e s' hstep hbad
  obtain ⟨c, hc, slot, hslot, hlost⟩ :=
    lost_pointer_of_not_ok hintact hids hbad hstep
  exact answer_of_lost_pointer hc hslot hlost

/-- A `session_start` request for which all system calls succeed. -/
def startRequest (pid : Int) : Event :=
  .sessionStart ⟨none, 0, 0⟩ ⟨0, true, pid⟩

/-- Two clients, one after the other, and the end of the first session. -/
def orderlyRun : List Event :=
  [startRequest 100, startRequest 101, .log 1, .log 0, .answer 0, .answer 1,
    .sessionEnd 1]

theorem orderly_run_answers :
    ∃ s,
      run step System.initial orderlyRun = some s ∧
        AnswersRight s ∧ AnswersDistinct s := by
  obtain ⟨s, hs⟩ :=
    Option.isSome_iff_exists.mp
      (by decide +kernel : (run step System.initial orderlyRun).isSome = true)
  have h := session_ids_right (by decide +kernel) hs
  exact ⟨s, hs, h.1, h.2.1⟩

/--
Client 0 has its session.  Client 1 takes id 2 in slot 1; session 1 is ended; client 2
takes id 3 in slot 1 again.  Then both read slot 1.
-/
def racingRun : List Event :=
  [startRequest 100, .log 0, .answer 0, startRequest 101, .sessionEnd 1,
    startRequest 102, .log 1, .log 2, .answer 2, .answer 1]

/-- Both are told that their session has id 3. -/
theorem racing_clients_share_an_id :
    ∃ s,
      run step System.initial racingRun = some s ∧
        s.clients = [.answered 1 1, .answered 3 2, .answered 3 3] ∧
        ¬ AnswersRight s ∧ ¬ AnswersDistinct s := by
  obtain ⟨s, hs⟩ :=
    Option.isSome_iff_exists.mp
      (by decide +kernel : (run step System.initial racingRun).isSome = true)
  have hclients :
      (run step System.initial racingRun).map System.clients =
        some [.answered 1 1, .answered 3 2, .answered 3 3] := by
    decide +kernel
  rw [hs] at hclients
  obtain hclients := Option.some.inj hclients
  refine ⟨s, hs, hclients, ?_, ?_⟩
  · intro hright
    have := hright (.answered 3 2) (by simp [hclients]) 3 rfl
    cases this
  · intro hdistinct
    have := hdistinct 1 2 (.answered 3 2) (.answered 3 3) (by simp [hclients])
      (by simp [hclients]) 3 rfl rfl
    cases this

end Main

end Session
end SecureZ
