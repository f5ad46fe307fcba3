import SecureZ.Shell.PipeDescriptors

/-!
# Runs of a pipeline whose calls succeed

When `pipe` and `fork` succeed, `execute_pipeline` starts a child for each segment that has a
command.  What it does then hangs on the background mark of the first command alone: with the
mark it returns, without it waits for the children one by one.

The main results say when a pipeline starts the commands `0` to `n - 1` and returns without a
wait, and when it starts them and waits for all of them.  Both are about every run of the
shell with its children.
-/

namespace SecureZ
namespace Shell

open Transition

section Specification

/-- The calls of the turn succeed. -/
def WaitEvent.Succeeds : WaitEvent → Prop
  | .start pipe fork => pipe = true ∧ fork = true
  | _ => True

/-- The calls of all turns succeed. -/
def CallsSucceed (events : List WaitEvent) : Prop :=
  ∀ event ∈ events, event.Succeeds

/-- A run of the call, of external commands, leads to a state. -/
def RunsTo
    (p : Pipeline) (pending : Bool) (code : Option Int)
    (events : List WaitEvent) (s : Execution) : Prop :=
  CallsSucceed events ∧ run (waitStep p) (entry p none pending code) events = some s

/-- The call has returned. -/
def Execution.Returned (s : Execution) : Prop :=
  ∃ value, s.phase = .returned value

/-- The child has ended, and somebody has waited for it. -/
def Child.Ended (c : Child) : Prop :=
  ∃ e r, c = .reaped e r

/-- Whenever the call has returned, the commands `0` to `n - 1` were started. -/
def StartsAll (p : Pipeline) (n : Nat) (pending : Bool) (code : Option Int) : Prop :=
  ∀ events s, RunsTo p pending code events s → s.Returned → s.pids = List.range n

/-- All the commands are started, and the call returns by its own turns, without a wait.  The
commands are in the array of the pipeline. -/
structure RunsInBackground
    (p : Pipeline) (n : Nat) (pending : Bool) (code : Option Int) : Prop where
  inside : p.count ≤ maxPipeSegments
  started : StartsAll p n pending code
  unwaited : ∀ events s, RunsTo p pending code events s → .await ∉ events
  returns : ∃ turns s,
    RunsTo p pending code (List.replicate turns (.start true true)) s ∧ s.Returned

/-- All the commands are started, and when the call returns, all of them have ended. -/
structure RunsInForeground
    (p : Pipeline) (n : Nat) (pending : Bool) (code : Option Int) : Prop where
  inside : p.count ≤ maxPipeSegments
  started : StartsAll p n pending code
  waited : ∀ events s, RunsTo p pending code events s → s.Returned →
    ∀ i < n, (s.children i).Ended
  returns : ∀ events s, RunsTo p pending code events s →
    ∃ more t, RunsTo p pending code (events ++ more) t ∧ t.Returned

/-- The segments with a command are the first `n`. -/
def Shows (p : Pipeline) (n : Nat) : Prop :=
  ∀ i, Busy p i ↔ i < n

end Specification

section Invariant

variable {p : Pipeline} {s s' : Execution}

/-- The segments in front of `i` that have a command. -/
def busyBelow (p : Pipeline) (i : Nat) : List Nat :=
  (List.range i).filter fun j => (p.commands j).argc ≠ 0

/-- What holds of the started children in each phase. -/
def Started (p : Pipeline) (pids : List Nat) (children : Nat → Child) : Phase → Prop
  | .starting i => i ≤ p.count ∧ pids = busyBelow p i
  | .waiting i _ =>
      (p.commands 0).background = false ∧ pids = busyBelow p p.count ∧
        ∀ k < i, ∀ j, pids[k]? = some j → (children j).Ended
  | .gaveUp => False
  | .returned _ =>
      pids = busyBelow p p.count ∧
        ((p.commands 0).background = false → ∀ j ∈ pids, (children j).Ended)

/-- The invariant of a run whose calls succeed. -/
structure RunInv (p : Pipeline) (s : Execution) : Prop where
  present : ∀ j ∈ s.pids, s.children j ≠ .absent
  started : Started p s.pids s.children s.phase

theorem mem_busyBelow
    {i j : Nat} :
    j ∈ busyBelow p i ↔ j < i ∧ (p.commands j).argc ≠ 0 := by
  simp [busyBelow]

theorem busyBelow_succ
    (p : Pipeline) (i : Nat) :
    busyBelow p (i + 1) =
      busyBelow p i ++ if (p.commands i).argc = 0 then [] else [i] := by
  simp only [busyBelow, List.range_succ, List.filter_append]
  split_ifs with hargc <;> simp [hargc]

/-- The busy segments are the first `n` exactly when the list of them is. -/
theorem busyBelow_eq_range_iff
    (p : Pipeline) (n : Nat) :
    busyBelow p p.count = List.range n ↔ Shows p n := by
  constructor
  · intro h i
    have hmem : i ∈ busyBelow p p.count ↔ i ∈ List.range n := by rw [h]
    rwa [mem_busyBelow, List.mem_range] at hmem
  · intro h
    have hle : n ≤ p.count := by
      cases n with
      | zero => exact Nat.zero_le _
      | succ m => exact ((h m).mpr (Nat.lt_succ_self m)).1
    obtain ⟨k, hk⟩ := Nat.exists_eq_add_of_le hle
    have hfirst : ∀ j ∈ List.range n, (p.commands j).argc ≠ 0 :=
      fun j hj => ((h j).mpr (List.mem_range.mp hj)).2
    have hbehind : ∀ j ∈ (List.range k).map (n + ·), ¬ (p.commands j).argc ≠ 0 := by
      intro j hj hargc
      obtain ⟨m, hm, rfl⟩ := List.mem_map.mp hj
      have hlt := (h (n + m)).mp ⟨by rw [hk]; exact Nat.add_lt_add_left (List.mem_range.mp hm) n,
        hargc⟩
      omega
    rw [busyBelow, hk, List.range_add, List.filter_append,
      List.filter_eq_self.mpr (by simpa using hfirst),
      List.filter_eq_nil_iff.mpr (by simpa using hbehind), List.append_nil]

/-- What the other party does to a child keeps what was started. -/
theorem runInv_of_children
    (h : RunInv p s)
    (hpids : s'.pids = s.pids)
    (hphase : s'.phase = s.phase)
    (hpresent : ∀ j ∈ s.pids, s.children j ≠ .absent → s'.children j ≠ .absent)
    (hended : ∀ j ∈ s.pids, (s.children j).Ended → (s'.children j).Ended) :
    RunInv p s' := by
  obtain ⟨hthere, hstarted⟩ := h
  refine ⟨?_, ?_⟩
  · rw [hpids]
    exact fun j hj => hpresent j hj (hthere j hj)
  · rw [hpids, hphase]
    cases hs : s.phase with
    | starting i =>
        rw [hs] at hstarted
        exact hstarted
    | waiting i lastStatus =>
        rw [hs] at hstarted
        obtain ⟨hbg, heq, hdone⟩ := hstarted
        exact ⟨hbg, heq, fun k hk j hj => hended j (List.mem_of_getElem? hj) (hdone k hk j hj)⟩
    | gaveUp =>
        rw [hs] at hstarted
        exact hstarted
    | returned value =>
        rw [hs] at hstarted
        exact ⟨hstarted.1, fun hbg j hj => hended j hj (hstarted.2 hbg j hj)⟩

theorem present_of_moves
    {c c' : Child}
    (hmoves : Moves c c')
    (h : c ≠ .absent) :
    c' ≠ .absent := by
  cases hmoves with
  | stays => exact h
  | exits e => simp
  | taken e => simp

theorem ended_of_moves
    {c c' : Child}
    (hmoves : Moves c c')
    (h : c.Ended) :
    c'.Ended := by
  obtain ⟨e, r, rfl⟩ := h
  cases hmoves
  exact ⟨e, r, rfl⟩

/-- A turn of the loop that starts the commands. -/
theorem runInv_start
    {i : Nat}
    (hphase : s.phase = .starting i)
    (h : RunInv p s) :
    RunInv p (startTurn p s true true i) := by
  obtain ⟨hpresent, hstarted⟩ := h
  rw [hphase] at hstarted
  obtain ⟨hle, hpids⟩ := hstarted
  have hsucc := busyBelow_succ p i
  unfold startTurn
  split_ifs with hi hargc hpipe hfork hbg
  · refine ⟨hpresent, hi, ?_⟩
    rw [hsucc, if_pos hargc, List.append_nil]
    exact hpids
  · exact absurd hpipe.2 (by simp)
  · exact absurd hfork (by simp)
  · refine ⟨?_, hi, ?_⟩
    · intro j hj
      rcases List.mem_append.mp hj with hj | hj
      · have hne : j ≠ i := by
          rw [hpids, mem_busyBelow] at hj
          exact hj.1.ne
        simpa [hne] using hpresent j hj
      · obtain rfl := List.mem_singleton.mp hj
        simp
    · rw [hsucc, if_neg hargc, hpids]
  · have hend : i = p.count := by omega
    exact ⟨hpresent, hend ▸ hpids, fun hfalse => absurd hbg (by simp [hfalse])⟩
  · have hend : i = p.count := by omega
    exact ⟨hpresent, by simpa using hbg, hend ▸ hpids, fun k hk => absurd hk (Nat.not_lt_zero k)⟩

/-- A child that was started is ended by a wait that does not block. -/
theorem ended_of_waitpid
    {c : Child} {status : Option Nat}
    (hpresent : c ≠ .absent)
    (hstatus : c.waitpid = some status) :
    (c.collect .waitpid).Ended := by
  cases c with
  | absent => exact absurd rfl hpresent
  | running => cases hstatus
  | zombie e => exact ⟨e, .waitpid, rfl⟩
  | reaped e r => exact ⟨e, r, rfl⟩

/-- A turn of the loop that waits. -/
theorem runInv_await
    {i : Nat} {lastStatus : Option Int}
    (hphase : s.phase = .waiting i lastStatus)
    (h : RunInv p s)
    (hturn : awaitTurn s i lastStatus = some s') :
    RunInv p s' := by
  obtain ⟨hpresent, hstarted⟩ := h
  rw [hphase] at hstarted
  obtain ⟨hbg, hpids, hdone⟩ := hstarted
  unfold awaitTurn at hturn
  cases hpid : s.pids[i]? with
  | none =>
      simp only [hpid, Option.some.injEq] at hturn
      subst hturn
      have hlength := List.getElem?_eq_none_iff.mp hpid
      refine ⟨hpresent, hpids, fun _ j hj => ?_⟩
      obtain ⟨k, hk, hj⟩ := List.mem_iff_getElem.mp hj
      have hlt : k < i := lt_of_lt_of_le hk hlength
      exact hdone k hlt j (by rw [List.getElem?_eq_getElem hk, hj])
  | some pid =>
      simp only [hpid, Option.map_eq_some_iff] at hturn
      obtain ⟨status, hstatus, rfl⟩ := hturn
      have hchild := hpresent pid (List.mem_of_getElem? hpid)
      have hended := ended_of_waitpid hchild hstatus
      refine ⟨fun j hj => ?_, hbg, hpids, fun k hk j hj => ?_⟩
      · by_cases hself : j = pid
        · subst hself
          obtain ⟨e, r, heq⟩ := hended
          simp [heq]
        · simpa [hself] using hpresent j hj
      · by_cases hself : j = pid
        · subst hself
          simpa using hended
        · have hlt : k < i := by
            rcases Nat.lt_succ_iff_lt_or_eq.mp hk with hk | rfl
            · exact hk
            · exact absurd (Option.some.inj (hj.symm.trans hpid)) hself
          simpa [hself] using hdone k hlt j hj

/-- Every step whose calls succeed keeps the invariant. -/
theorem runInv_step
    {event : WaitEvent}
    (h : RunInv p s)
    (hsucceeds : event.Succeeds)
    (hstep : waitStep p s event = some s') :
    RunInv p s' := by
  cases event with
  | start pipe fork =>
      obtain ⟨rfl, rfl⟩ := hsucceeds
      simp only [waitStep] at hstep
      split at hstep
      · rename_i i hphase
        obtain rfl := Option.some.inj hstep
        exact runInv_start hphase h
      · cases hstep
  | await =>
      simp only [waitStep] at hstep
      split at hstep
      · rename_i i lastStatus hphase
        exact runInv_await hphase h hstep
      · cases hstep
  | exits i e =>
      simp only [waitStep] at hstep
      split_ifs at hstep with hrunning
      obtain rfl := Option.some.inj hstep
      have hmoves := moves_update hrunning e
      exact runInv_of_children h rfl rfl (fun j _ => present_of_moves (hmoves j))
        (fun j _ => ended_of_moves (hmoves j))
  | handler =>
      simp only [waitStep] at hstep
      split_ifs at hstep
      obtain rfl := Option.some.inj hstep
      exact runInv_of_children h rfl rfl (fun j _ => present_of_moves (moves_collect _))
        (fun j _ => ended_of_moves (moves_collect _))

/-- A call that does not enter the loop has no command to start. -/
theorem runInv_entry
    (p : Pipeline) (pending : Bool) (code : Option Int) :
    RunInv p (entry p none pending code) := by
  refine ⟨by simp [entry], ?_⟩
  simp only [entry, entryPhase]
  split_ifs with hnone hempty
  · exact ⟨by simp [busyBelow, hnone], fun _ => by simp⟩
  · exact ⟨by simp [busyBelow, hempty.1, hempty.2], fun _ => by simp⟩
  · exact ⟨Nat.zero_le _, rfl⟩

theorem runInv_of_runsTo
    {pending : Bool} {code : Option Int} {events : List WaitEvent}
    (hruns : RunsTo p pending code events s) :
    RunInv p s :=
  invariant_of_guarded (fun _ _ _ hinv hok hstep => runInv_step hinv hok hstep)
    (runInv_entry p pending code) (guarded_of_forall_mem hruns.1 _) hruns.2

end Invariant

section Progress

variable {p : Pipeline} {s : Execution}

/-- A child is started or left alone. -/
theorem startTurn_ended
    (p : Pipeline) (s : Execution) (i j : Nat)
    (h : ((startTurn p s true true i).children j).Ended) :
    (s.children j).Ended := by
  unfold startTurn at h
  split_ifs at h
  · exact h
  · exact h
  · exact h
  · by_cases hj : j = i
    · obtain ⟨e, r, hchild⟩ := h
      simp [hj] at hchild
    · simpa [hj] using h
  · exact h
  · exact h

/-- The turns of the first loop lead to its end, and no child ends by them. -/
theorem starts_run
    {i : Nat}
    (hphase : s.phase = .starting i)
    (hle : i ≤ p.count) :
    ∃ turns t,
      run (waitStep p) s (List.replicate turns (.start true true)) = some t ∧
        t.phase =
          (if (p.commands 0).background then .returned (some 0) else .waiting 0 (some 0)) ∧
        ∀ j, (t.children j).Ended → (s.children j).Ended := by
  induction hn : p.count - i generalizing i s with
  | zero =>
      have hend : ¬ i < p.count := by omega
      refine ⟨1, startTurn p s true true i, ?_, ?_, startTurn_ended p s i⟩
      · simp [run, waitStep, hphase]
      · rw [startTurn, if_neg hend]
        split_ifs <;> rfl
  | succ n ih =>
      have hi : i < p.count := by omega
      have hnext : (startTurn p s true true i).phase = .starting (i + 1) := by
        rw [startTurn, if_pos hi]
        split_ifs with hargc hpipe hfork
        · rfl
        · exact absurd hpipe.2 (by simp)
        · exact absurd hfork (by simp)
        · rfl
      obtain ⟨turns, t, hrun, hphase', hended⟩ := ih hnext hi (by omega)
      refine ⟨turns + 1, t, ?_, hphase', fun j hj => startTurn_ended p s i j (hended j hj)⟩
      rw [List.replicate_succ, run_cons_eq_some]
      exact ⟨_, by simp [waitStep, hphase], hrun⟩

/-- A wait for a child that has ended goes to the next turn. -/
theorem await_ended
    {i pid : Nat} {lastStatus : Option Int}
    (hphase : s.phase = .waiting i lastStatus)
    (hpid : s.pids[i]? = some pid)
    (hchild : s.children pid ≠ .running) :
    ∃ t lastStatus',
      waitStep p s .await = some t ∧ t.phase = .waiting (i + 1) lastStatus' ∧ t.pids = s.pids := by
  obtain ⟨status, hstatus⟩ : ∃ status, (s.children pid).waitpid = some status := by
    cases hc : s.children pid with
    | running => exact absurd hc hchild
    | absent => exact ⟨none, rfl⟩
    | zombie e => exact ⟨some e.status, rfl⟩
    | reaped e r => exact ⟨none, rfl⟩
  simp only [waitStep, hphase, awaitTurn, hpid, hstatus, Option.map_some]
  exact ⟨_, _, rfl, rfl, rfl⟩

/-- Each child that the shell waits for can exit, so the second loop can end. -/
theorem awaits_run
    {i : Nat} {lastStatus : Option Int}
    (hphase : s.phase = .waiting i lastStatus) :
    ∃ events t,
      CallsSucceed events ∧ .await ∈ events ∧
        run (waitStep p) s events = some t ∧ t.Returned := by
  induction hn : s.pids.length - i generalizing i lastStatus s with
  | zero =>
      have hpid : s.pids[i]? = none := by
        rw [List.getElem?_eq_none_iff]
        omega
      refine ⟨[.await], { s with phase := .returned lastStatus, lastExitCode := lastStatus },
        by simp [CallsSucceed, WaitEvent.Succeeds], by simp, ?_, ⟨_, rfl⟩⟩
      simp [run, waitStep, hphase, awaitTurn, hpid]
  | succ n ih =>
      obtain ⟨pid, hpid⟩ : ∃ pid, s.pids[i]? = some pid :=
        ⟨_, List.getElem?_eq_getElem (by omega)⟩
      by_cases hrunning : s.children pid = .running
      · -- the child exits, and the wait is for a zombie
        let s₁ : Execution :=
          { s with
            children := Function.update s.children pid (.zombie (.exited 0))
            pending := true }
        have hexits : waitStep p s (.exits pid (.exited 0)) = some s₁ := by
          simp [waitStep, hrunning, s₁]
        obtain ⟨t₁, _, hawait, hphase₁, hpids₁⟩ :=
          await_ended (p := p) (s := s₁) hphase hpid (by simp [s₁])
        obtain ⟨events, t, hsucceed, -, hrun, hreturned⟩ :=
          ih hphase₁ (by rw [hpids₁]; exact (show s.pids.length - (i + 1) = n by omega))
        refine ⟨.exits pid (.exited 0) :: .await :: events, t, ?_, by simp, ?_, hreturned⟩
        · simpa [CallsSucceed, WaitEvent.Succeeds] using hsucceed
        · rw [run_cons_eq_some]
          exact ⟨s₁, hexits, run_cons_eq_some.mpr ⟨t₁, hawait, hrun⟩⟩
      · obtain ⟨t₁, _, hawait, hphase₁, hpids₁⟩ := await_ended (p := p) hphase hpid hrunning
        obtain ⟨events, t, hsucceed, -, hrun, hreturned⟩ :=
          ih hphase₁ (by rw [hpids₁]; omega)
        refine ⟨.await :: events, t, ?_, by simp, ?_, hreturned⟩
        · simpa [CallsSucceed, WaitEvent.Succeeds] using hsucceed
        · exact run_cons_eq_some.mpr ⟨t₁, hawait, hrun⟩

theorem callsSucceed_starts
    (turns : Nat) :
    CallsSucceed (List.replicate turns (.start true true)) := by
  intro event hevent
  obtain rfl := List.eq_of_mem_replicate hevent
  exact ⟨rfl, rfl⟩

/-- From every state of a run whose calls succeed, the call can return. -/
theorem exists_return
    (h : RunInv p s) :
    ∃ more t, CallsSucceed more ∧ run (waitStep p) s more = some t ∧ t.Returned := by
  have hstarted := h.started
  cases hphase : s.phase with
  | starting i =>
      rw [hphase] at hstarted
      obtain ⟨turns, t, hrun, hend, -⟩ := starts_run hphase hstarted.1
      split_ifs at hend with hbg
      · exact ⟨_, t, callsSucceed_starts turns, hrun, _, hend⟩
      · obtain ⟨events, t', hsucceed, -, hrun', hreturned⟩ := awaits_run (p := p) hend
        refine ⟨List.replicate turns (.start true true) ++ events, t', ?_, ?_, hreturned⟩
        · intro event hevent
          rcases List.mem_append.mp hevent with hevent | hevent
          · exact callsSucceed_starts turns event hevent
          · exact hsucceed event hevent
        · rw [run_append, hrun]
          exact hrun'
  | waiting i lastStatus =>
      obtain ⟨events, t, hsucceed, -, hrun, hreturned⟩ := awaits_run (p := p) hphase
      exact ⟨events, t, hsucceed, hrun, hreturned⟩
  | gaveUp =>
      rw [hphase] at hstarted
      exact hstarted.elim
  | returned value =>
      exact ⟨[], s, by simp [CallsSucceed], rfl, value, hphase⟩

end Progress

section Runs

variable {p : Pipeline} {n : Nat} {pending : Bool} {code : Option Int}

/-- A run goes on. -/
theorem runsTo_append
    {events more : List WaitEvent} {s t : Execution}
    (hruns : RunsTo p pending code events s)
    (hsucceed : CallsSucceed more)
    (hrun : run (waitStep p) s more = some t) :
    RunsTo p pending code (events ++ more) t := by
  refine ⟨fun event hevent => ?_, ?_⟩
  · rcases List.mem_append.mp hevent with hevent | hevent
    · exact hruns.1 event hevent
    · exact hsucceed event hevent
  · rw [run_append, hruns.2]
    exact hrun

theorem runsTo_nil
    (p : Pipeline) (pending : Bool) (code : Option Int) :
    RunsTo p pending code [] (entry p none pending code) :=
  ⟨by simp [CallsSucceed], rfl⟩

/-- A state in which the call has returned. -/
theorem runInv_returned
    {s : Execution}
    (h : RunInv p s)
    (hreturned : s.Returned) :
    s.pids = busyBelow p p.count ∧
      ((p.commands 0).background = false → ∀ j ∈ s.pids, (s.children j).Ended) := by
  obtain ⟨value, hphase⟩ := hreturned
  have hstarted := h.started
  rw [hphase] at hstarted
  exact hstarted

/-- The commands that are started are those of the segments that have one. -/
theorem startsAll_iff
    (p : Pipeline) (n : Nat) (pending : Bool) (code : Option Int) :
    StartsAll p n pending code ↔ Shows p n := by
  rw [← busyBelow_eq_range_iff]
  constructor
  · intro h
    have hentry := runsTo_nil p pending code
    obtain ⟨more, t, hsucceed, hrun, hreturned⟩ := exists_return (runInv_of_runsTo hentry)
    have hruns := runsTo_append hentry hsucceed hrun
    rw [← h _ t hruns hreturned]
    exact (runInv_returned (runInv_of_runsTo hruns) hreturned).1.symm
  · intro h events s hruns hreturned
    rw [← h]
    exact (runInv_returned (runInv_of_runsTo hruns) hreturned).1

/-- A pipeline whose first segment has a command enters the loop. -/
theorem entry_starting
    (hbusy : Busy p 0)
    (pending : Bool) (code : Option Int) :
    (entry p none pending code).phase = .starting 0 := by
  have hcount := Nat.ne_of_gt hbusy.1
  simp [entry, entryPhase, hcount, hbusy.2]

/-- A run with a wait is one of a pipeline without the mark. -/
theorem background_of_await
    {events : List WaitEvent} {s : Execution}
    (hruns : RunsTo p pending code events s)
    (hawait : .await ∈ events) :
    (p.commands 0).background = false := by
  obtain ⟨front, rest, rfl⟩ := List.append_of_mem hawait
  obtain ⟨hsucceed, hrun⟩ := hruns
  rw [run_append, Option.bind_eq_some_iff] at hrun
  obtain ⟨t, hfront, hrest⟩ := hrun
  have hinv : RunInv p t :=
    runInv_of_runsTo ⟨fun event hevent => hsucceed event (List.mem_append_left _ hevent), hfront⟩
  obtain ⟨t', hstep, -⟩ := run_cons_eq_some.mp hrest
  have hstarted := hinv.started
  cases hphase : t.phase with
  | waiting i lastStatus =>
      rw [hphase] at hstarted
      exact hstarted.1
  | _ => simp [waitStep, hphase] at hstep

/-- All commands run in the background exactly when the first `n` segments are those with a
command and the first one has the mark. -/
theorem runsInBackground_iff
    (hpos : 0 < n) :
    RunsInBackground p n pending code
      ↔
    p.count ≤ maxPipeSegments ∧ Shows p n ∧ (p.commands 0).background = true := by
  constructor
  · intro h
    have hshows := (startsAll_iff p n pending code).mp h.started
    refine ⟨h.inside, hshows, ?_⟩
    by_contra hbg
    have hphase := entry_starting ((hshows 0).mpr hpos) pending code
    obtain ⟨turns, t, hrun, hend, -⟩ := starts_run hphase (Nat.zero_le _)
    rw [if_neg hbg] at hend
    obtain ⟨more, t', hsucceed, hawait, hrun', -⟩ := awaits_run (p := p) hend
    exact h.unwaited _ t' (runsTo_append ⟨callsSucceed_starts turns, hrun⟩ hsucceed hrun')
      (List.mem_append_right _ hawait)
  · rintro ⟨hinside, hshows, hbg⟩
    refine ⟨hinside, (startsAll_iff p n pending code).mpr hshows,
      fun events s hruns hawait => ?_, ?_⟩
    · rw [background_of_await hruns hawait] at hbg
      cases hbg
    · have hphase := entry_starting ((hshows 0).mpr hpos) pending code
      obtain ⟨turns, t, hrun, hend, -⟩ := starts_run hphase (Nat.zero_le _)
      rw [if_pos hbg] at hend
      exact ⟨turns, t, ⟨callsSucceed_starts turns, hrun⟩, _, hend⟩

/-- All commands run in the foreground exactly when the first `n` segments are those with a
command and the first one has no mark. -/
theorem runsInForeground_iff
    (hpos : 0 < n) :
    RunsInForeground p n pending code
      ↔
    p.count ≤ maxPipeSegments ∧ Shows p n ∧ (p.commands 0).background = false := by
  constructor
  · intro h
    have hshows := (startsAll_iff p n pending code).mp h.started
    refine ⟨h.inside, hshows, ?_⟩
    by_contra hbg
    have hphase := entry_starting ((hshows 0).mpr hpos) pending code
    obtain ⟨turns, t, hrun, hend, hended⟩ := starts_run hphase (Nat.zero_le _)
    rw [if_pos (by simpa using hbg)] at hend
    obtain ⟨e, r, hchild⟩ :=
      hended 0 (h.waited _ t ⟨callsSucceed_starts turns, hrun⟩ ⟨_, hend⟩ 0 hpos)
    cases hchild
  · rintro ⟨hinside, hshows, hbg⟩
    have hstarted := (startsAll_iff p n pending code).mpr hshows
    refine ⟨hinside, hstarted, fun events s hruns hreturned i hi => ?_, fun events s hruns => ?_⟩
    · have hended := (runInv_returned (runInv_of_runsTo hruns) hreturned).2 hbg
      rw [hstarted events s hruns hreturned] at hended
      exact hended i (List.mem_range.mpr hi)
    · obtain ⟨more, t, hsucceed, hrun, hreturned⟩ := exists_return (runInv_of_runsTo hruns)
      exact ⟨more, t, runsTo_append hruns hsucceed hrun, hreturned⟩

end Runs

end Shell
end SecureZ
