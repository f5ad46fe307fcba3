import SecureZ.Shell.Parser
import SecureZ.Lib.Transition
import SecureZ.Lib.WaitStatus
import Mathlib.Data.List.Range

/-!
# Waiting for a pipeline

`execute_pipeline` starts a process for each command and then waits for each of them in
turn.  The handler of `SIGCHLD` waits for any child that has exited, so the two compete for
the same children, and `waitpid` leaves its status untouched for a child that the handler
was given.

The system is the shell inside one call of `execute_pipeline` with the children of that
call.  Its events are the turns of the two loops, the exits of the children and the runs of
the handler, interleaved in any order.  The main result says in which runs the call returns
the exit status of the last command.
-/

namespace SecureZ
namespace Shell

open CLib
open Transition

section Statuses

/-- What `execute_pipeline` makes of a status. -/
def exitValue (status : Nat) : Int :=
  if wifexited status then wexitstatus status else 1

/-- The macros take the status of an ended process apart. -/
theorem exitValue_status
    (e : Ending) :
    exitValue e.status = e.value := by
  cases e with
  | exited code => simp [exitValue, Ending.value]
  | killed signal core => simp [exitValue, Ending.value]

end Statuses

section Model

/-- Who was given the status of a child. -/
inductive Reaper
  | handler
  | waitpid
deriving DecidableEq

/-- A child of the shell. -/
inductive Child
  | absent
  | running
  | zombie (e : Ending)
  | reaped (e : Ending) (reaper : Reaper)
deriving DecidableEq

/-- `waitpid` on a child: none while it blocks, none inside when it fails and leaves the
status untouched. -/
def Child.waitpid : Child → Option (Option Nat)
  | .running => none
  | .zombie e => some (some e.status)
  | .reaped _ _ => some none
  | .absent => some none

/-- The child after a wait that did not block. -/
def Child.collect (r : Reaper) : Child → Child
  | .zombie e => .reaped e r
  | c => c

/-- The child has exited and nobody has waited for it. -/
def Child.isZombie : Child → Bool
  | .zombie _ => true
  | _ => false

/-- Where the shell is in `execute_pipeline`.  A value is none when it was computed from the
status that was never set. -/
inductive Phase
  /-- In front of turn `i` of the loop that starts the commands. -/
  | starting (i : Nat)
  /-- In front of turn `i` of the loop that waits, with `last_status`. -/
  | waiting (i : Nat) (lastStatus : Option Int)
  /-- It returned 1 because `pipe` or `fork` failed. -/
  | gaveUp
  | returned (value : Option Int)
deriving DecidableEq

/-- The shell and its children.  A child is known by the index of its command. -/
structure Execution where
  phase : Phase
  pids : List Nat
  children : Nat → Child
  /-- A `SIGCHLD` is pending. -/
  pending : Bool
  /-- `state.last_exit_code`. -/
  lastExitCode : Option Int

/-- The first lines of `execute_pipeline`: an empty pipeline, and a single command with what
its handler returns when `cmd_find` finds one. -/
def entryPhase (p : Pipeline) (builtin : Option Int) : Phase :=
  if p.count = 0 then .returned (some 0)
  else if p.count = 1 ∧ (p.commands 0).argc = 0 then .returned (some 0)
  else
    match builtin with
    | some value => if p.count = 1 then .returned (some value) else .starting 0
    | none => .starting 0

/-- The call of `execute_pipeline`. -/
def entry (p : Pipeline) (builtin : Option Int) (pending : Bool) (code : Option Int) :
    Execution where
  phase := entryPhase p builtin
  pids := []
  children := fun _ => .absent
  pending := pending
  lastExitCode := code

/-- The steps of the shell, the kernel and the children. -/
inductive WaitEvent
  /-- A turn of the loop that starts the commands, with the results of `pipe` and `fork`. -/
  | start (pipe fork : Bool)
  /-- A turn of the loop that waits. -/
  | await
  /-- A child exits. -/
  | exits (i : Nat) (e : Ending)
  /-- A run of `sigchld_handler`. -/
  | handler
deriving DecidableEq

/-- A turn of the loop that starts the commands, or the step behind its end. -/
def startTurn (p : Pipeline) (s : Execution) (pipe fork : Bool) (i : Nat) : Execution :=
  if i < p.count then
    if (p.commands i).argc = 0 then { s with phase := .starting (i + 1) }
    else if i + 1 < p.count ∧ pipe = false then { s with phase := .gaveUp }
    else if fork = false then { s with phase := .gaveUp }
    else
      { s with
        phase := .starting (i + 1)
        pids := s.pids ++ [i]
        children := Function.update s.children i .running }
  else if (p.commands 0).background then { s with phase := .returned (some 0) }
  else { s with phase := .waiting 0 (some 0) }

/-- A turn of the loop that waits, or the step behind its end. -/
def awaitTurn (s : Execution) (i : Nat) (lastStatus : Option Int) : Option Execution :=
  match s.pids[i]? with
  | none => some { s with phase := .returned lastStatus, lastExitCode := lastStatus }
  | some pid =>
      (s.children pid).waitpid.map fun status =>
        { s with
          phase :=
            .waiting (i + 1)
              (if i + 1 = s.pids.length then status.map exitValue else lastStatus)
          children := Function.update s.children pid ((s.children pid).collect .waitpid) }

/-- One step. -/
def waitStep (p : Pipeline) (s : Execution) : WaitEvent → Option Execution
  | .start pipe fork =>
      match s.phase with
      | .starting i => some (startTurn p s pipe fork i)
      | _ => none
  | .await =>
      match s.phase with
      | .waiting i lastStatus => awaitTurn s i lastStatus
      | _ => none
  | .exits i e =>
      if s.children i = .running then
        some { s with children := Function.update s.children i (.zombie e), pending := true }
      else none
  | .handler =>
      if s.pending then
        some { s with children := fun i => (s.children i).collect .handler, pending := false }
      else none

end Model

section Specification

/-- The last command of a pipeline. -/
def Pipeline.last (p : Pipeline) : Nat :=
  p.count - 1

/-- A pipeline of external commands. -/
structure External (p : Pipeline) (builtin : Option Int) : Prop where
  pos : 0 < p.count
  command : ∀ i, i < p.count → (p.commands i).argc ≠ 0
  single : p.count = 1 → builtin = none

/-- The value that is returned and stored is the exit status of the last command. -/
def StatusOfLast (p : Pipeline) (s : Execution) : Prop :=
  ∃ e r,
    s.children p.last = .reaped e r ∧
      s.phase = .returned (some e.value) ∧
      s.lastExitCode = some e.value

/-- The handler does not run while the last command has exited and was not waited for. -/
def SparesLast (p : Pipeline) (s : Execution) (event : WaitEvent) : Prop :=
  event = .handler → (s.children p.last).isZombie = false

instance (p : Pipeline) (s : Execution) (event : WaitEvent) : Decidable (SparesLast p s event) :=
  inferInstanceAs (Decidable (_ → _))

end Specification

section Invariant

variable {p : Pipeline}

/-- The child was started and `waitpid` was not given its status. -/
def Uncollected (c : Child) : Prop :=
  c ≠ .absent ∧ ∀ e, c ≠ .reaped e .waitpid

/-- The value tells of the child what `waitpid` could tell. -/
def Tells (value : Option Int) (c : Child) : Prop :=
  ∃ e r, c = .reaped e r ∧ value = if r = .waitpid then some e.value else none

/-- What holds of the last child in each phase. -/
def LastChild (p : Pipeline) (c : Child) (code : Option Int) (pids : List Nat) : Phase → Prop
  | .starting i =>
      i ≤ p.count ∧ pids = List.range i ∧
        (i < p.count → c = .absent) ∧ (i = p.count → Uncollected c)
  | .waiting i lastStatus =>
      i ≤ p.count ∧ pids = List.range p.count ∧
        (i < p.count → Uncollected c) ∧ (i = p.count → Tells lastStatus c)
  | .gaveUp => True
  | .returned value => code = value ∧ Tells value c

/-- The invariant of a run. -/
def WaitInv (p : Pipeline) (s : Execution) : Prop :=
  LastChild p (s.children p.last) s.lastExitCode s.pids s.phase

/-- What the other party does to a child: it exits, or the handler is given its status. -/
inductive Moves : Child → Child → Prop
  | stays (c : Child) : Moves c c
  | exits (e : Ending) : Moves .running (.zombie e)
  | taken (e : Ending) : Moves (.zombie e) (.reaped e .handler)

theorem moves_collect
    (c : Child) :
    Moves c (c.collect .handler) := by
  cases c with
  | zombie e => exact .taken e
  | _ => exact .stays _

theorem uncollected_of_moves
    {c c' : Child}
    (hmoves : Moves c c')
    (h : Uncollected c) :
    Uncollected c' := by
  cases hmoves with
  | stays => exact h
  | exits e => exact ⟨by simp, by simp⟩
  | taken e => exact ⟨by simp, by simp⟩

theorem tells_of_moves
    {value : Option Int} {c c' : Child}
    (hmoves : Moves c c')
    (h : Tells value c) :
    Tells value c' := by
  obtain ⟨e, r, rfl, hvalue⟩ := h
  cases hmoves
  exact ⟨e, r, rfl, hvalue⟩

/-- A wait that does not block collects the zombie; of a child that the handler took nothing
is told. -/
theorem tells_of_waitpid
    {c : Child} {status : Option Nat}
    (h : Uncollected c)
    (hstatus : c.waitpid = some status) :
    Tells (status.map exitValue) (c.collect .waitpid) := by
  cases c with
  | absent =>
      exact absurd rfl h.1
  | running =>
      cases hstatus
  | zombie e =>
      obtain rfl := Option.some.inj hstatus
      exact ⟨e, .waitpid, rfl, by simp [exitValue_status]⟩
  | reaped e r =>
      obtain rfl := Option.some.inj hstatus
      cases r with
      | waitpid => exact absurd rfl (h.2 e)
      | handler => exact ⟨e, .handler, rfl, rfl⟩

theorem last_ne
    {i : Nat}
    (h : i + 1 < p.count) :
    p.last ≠ i := by
  simp only [Pipeline.last]
  omega

theorem last_eq
    {i : Nat}
    (h : i + 1 = p.count) :
    p.last = i := by
  simp only [Pipeline.last]
  omega

/-- The moves of a child keep what holds of the last one. -/
theorem lastChild_of_moves
    {c c' : Child} {code : Option Int} {pids : List Nat} {phase : Phase}
    (hmoves : Moves c c')
    (h : LastChild p c code pids phase) :
    LastChild p c' code pids phase := by
  cases phase with
  | starting i =>
      obtain ⟨hle, hpids, habsent, hstarted⟩ := h
      refine ⟨hle, hpids, fun hi => ?_, fun hi => uncollected_of_moves hmoves (hstarted hi)⟩
      obtain rfl := habsent hi
      cases hmoves
      rfl
  | waiting i lastStatus =>
      obtain ⟨hle, hpids, huncollected, htells⟩ := h
      exact ⟨hle, hpids, fun hi => uncollected_of_moves hmoves (huncollected hi),
        fun hi => tells_of_moves hmoves (htells hi)⟩
  | gaveUp =>
      trivial
  | returned value =>
      exact ⟨h.1, tells_of_moves hmoves h.2⟩

/-- The turns of the loop that starts the commands. -/
theorem waitInv_start
    {builtin : Option Int}
    (hext : External p builtin)
    (hforeground : (p.commands 0).background = false)
    {s : Execution} {i : Nat}
    (hphase : s.phase = .starting i)
    (hinv : WaitInv p s)
    (pipe fork : Bool) :
    WaitInv p (startTurn p s pipe fork i) := by
  rw [WaitInv, hphase] at hinv
  obtain ⟨hle, hpids, habsent, hstarted⟩ := hinv
  have hpos := hext.pos
  unfold startTurn
  by_cases hi : i < p.count
  · rw [if_pos hi, if_neg (hext.command i hi)]
    by_cases hpipe : i + 1 < p.count ∧ pipe = false
    · rw [if_pos hpipe]
      trivial
    rw [if_neg hpipe]
    by_cases hfork : fork = false
    · rw [if_pos hfork]
      trivial
    rw [if_neg hfork]
    refine ⟨hi, by rw [hpids, List.range_succ], fun hmore => ?_, fun hend => ?_⟩
    · simpa [last_ne hmore] using habsent hi
    · simp [last_eq hend, Uncollected]
  · have hend : i = p.count := by omega
    rw [if_neg hi, hforeground, if_neg (by simp)]
    exact ⟨Nat.zero_le _, by rw [hpids, hend], fun _ => hstarted hend, fun h => by omega⟩

/-- The turns of the loop that waits. -/
theorem waitInv_await
    {builtin : Option Int}
    (hext : External p builtin)
    {s s' : Execution} {i : Nat} {lastStatus : Option Int}
    (hphase : s.phase = .waiting i lastStatus)
    (hinv : WaitInv p s)
    (hturn : awaitTurn s i lastStatus = some s') :
    WaitInv p s' := by
  rw [WaitInv, hphase] at hinv
  obtain ⟨hle, hpids, huncollected, htells⟩ := hinv
  have hpos := hext.pos
  unfold awaitTurn at hturn
  by_cases hi : i < p.count
  · have hpid : s.pids[i]? = some i := by
      rw [hpids, List.getElem?_range hi]
    have hlength : s.pids.length = p.count := by
      rw [hpids, List.length_range]
    simp only [hpid, Option.map_eq_some_iff, hlength] at hturn
    obtain ⟨status, hstatus, rfl⟩ := hturn
    refine ⟨hi, hpids, fun hmore => ?_, fun hend => ?_⟩
    · simpa [last_ne hmore] using huncollected hi
    · have hchild := huncollected hi
      rw [last_eq hend] at hchild
      simp only [last_eq hend, Function.update_self, hend, if_true]
      exact tells_of_waitpid hchild hstatus
  · have hend : i = p.count := by omega
    have hpid : s.pids[i]? = none := by
      rw [hpids, hend]
      simp
    simp only [hpid, Option.some.injEq] at hturn
    subst hturn
    exact ⟨rfl, htells hend⟩

/-- An exit, as the last child sees it. -/
theorem moves_update
    {children : Nat → Child} {i : Nat}
    (hrunning : children i = .running)
    (e : Ending) (j : Nat) :
    Moves (children j) (Function.update children i (.zombie e) j) := by
  by_cases hj : j = i
  · rw [hj, hrunning, Function.update_self]
    exact .exits e
  · rw [Function.update_of_ne hj]
    exact .stays _

/-- Every step keeps the invariant. -/
theorem waitInv_step
    {builtin : Option Int}
    (hext : External p builtin)
    (hforeground : (p.commands 0).background = false)
    {s s' : Execution} {event : WaitEvent}
    (hinv : WaitInv p s)
    (hstep : waitStep p s event = some s') :
    WaitInv p s' := by
  cases event with
  | start pipe fork =>
      simp only [waitStep] at hstep
      split at hstep
      · rename_i i hphase
        obtain rfl := Option.some.inj hstep
        exact waitInv_start hext hforeground hphase hinv pipe fork
      · cases hstep
  | await =>
      simp only [waitStep] at hstep
      split at hstep
      · rename_i i lastStatus hphase
        exact waitInv_await hext hphase hinv hstep
      · cases hstep
  | exits i e =>
      simp only [waitStep] at hstep
      split_ifs at hstep with hrunning
      obtain rfl := Option.some.inj hstep
      exact lastChild_of_moves (moves_update hrunning e p.last) hinv
  | handler =>
      simp only [waitStep] at hstep
      split_ifs at hstep
      obtain rfl := Option.some.inj hstep
      exact lastChild_of_moves (moves_collect _) hinv

/-- The invariant holds when the call begins. -/
theorem waitInv_entry
    {builtin : Option Int}
    (hext : External p builtin)
    (pending : Bool) (code : Option Int) :
    WaitInv p (entry p builtin pending code) := by
  have hpos := hext.pos
  have hargc := hext.command 0 hpos
  have hphase : (entry p builtin pending code).phase = .starting 0 := by
    simp only [entry, entryPhase, hpos.ne', if_false, hargc, and_false]
    cases hb : builtin with
    | none =>
        rfl
    | some value =>
        have hmany : p.count ≠ 1 := by
          intro hone
          rw [hext.single hone] at hb
          cases hb
        simp [hmany]
  rw [WaitInv, hphase]
  exact ⟨Nat.zero_le _, rfl, fun _ => rfl, fun h => absurd h hpos.ne⟩

end Invariant

section Taken

variable {p : Pipeline}

/-- The handler was given the status of the child. -/
def Taken (c : Child) : Prop :=
  ∃ e, c = .reaped e .handler

/-- A run of the handler takes exactly the children that have exited. -/
theorem taken_collect_iff
    (c : Child) :
    Taken (c.collect .handler) ↔ Taken c ∨ c.isZombie = true := by
  cases c <;> simp [Taken, Child.collect, Child.isZombie]

/-- `waitpid` takes no child for the handler. -/
theorem taken_collect_waitpid_iff
    (c : Child) :
    Taken (c.collect .waitpid) ↔ Taken c := by
  cases c <;> simp [Taken, Child.collect]

/-- A change of one child that takes it neither way. -/
theorem taken_update_iff
    {children : Nat → Child} {i : Nat} {c : Child}
    (h : Taken c ↔ Taken (children i))
    (j : Nat) :
    Taken (Function.update children i c j) ↔ Taken (children j) := by
  by_cases hj : j = i
  · rw [hj, Function.update_self, h]
  · rw [Function.update_of_ne hj]

/-- A turn of the loop that starts the commands starts no child a second time. -/
theorem taken_start_iff
    {s : Execution} {i : Nat}
    (hphase : s.phase = .starting i)
    (hinv : WaitInv p s)
    (pipe fork : Bool) :
    Taken ((startTurn p s pipe fork i).children p.last) ↔ Taken (s.children p.last) := by
  rw [WaitInv, hphase] at hinv
  obtain ⟨-, -, habsent, -⟩ := hinv
  unfold startTurn
  split_ifs with hi hargc hpipe hfork
  · rfl
  · rfl
  · rfl
  · by_cases hlast : p.last = i
    · have hchild := habsent hi
      rw [hlast] at hchild ⊢
      simp [hchild, Taken]
    · simp [hlast]
  · rfl
  · rfl

/-- The last child is taken by a run of the handler that does not spare it, and by no other
step. -/
theorem taken_step_iff
    {s s' : Execution} {event : WaitEvent}
    (hinv : WaitInv p s)
    (hstep : waitStep p s event = some s') :
    Taken (s'.children p.last) ↔ Taken (s.children p.last) ∨ ¬ SparesLast p s event := by
  cases event with
  | start pipe fork =>
      simp only [waitStep] at hstep
      split at hstep
      · rename_i i hphase
        obtain rfl := Option.some.inj hstep
        simpa [SparesLast] using taken_start_iff hphase hinv pipe fork
      · cases hstep
  | await =>
      simp only [waitStep, awaitTurn] at hstep
      split at hstep
      · split at hstep
        · obtain rfl := Option.some.inj hstep
          simp [SparesLast]
        · obtain ⟨status, -, rfl⟩ := Option.map_eq_some_iff.mp hstep
          simpa [SparesLast] using
            taken_update_iff (taken_collect_waitpid_iff _) p.last
      · cases hstep
  | exits i e =>
      simp only [waitStep] at hstep
      split_ifs at hstep with hrunning
      obtain rfl := Option.some.inj hstep
      have hsame : Taken (.zombie e) ↔ Taken (s.children i) := by
        simp [hrunning, Taken]
      simpa [SparesLast] using taken_update_iff hsame p.last
  | handler =>
      simp only [waitStep] at hstep
      split_ifs at hstep
      obtain rfl := Option.some.inj hstep
      simpa [SparesLast] using taken_collect_iff (s.children p.last)

/-- Over a run, the last child is taken exactly when some run of the handler does not spare
it. -/
theorem taken_run_iff
    {builtin : Option Int}
    (hext : External p builtin)
    (hforeground : (p.commands 0).background = false)
    {s t : Execution} {events : List WaitEvent}
    (hinv : WaitInv p s)
    (hrun : run (waitStep p) s events = some t) :
    Taken (t.children p.last)
      ↔
    Taken (s.children p.last) ∨ ¬ Guarded (waitStep p) (SparesLast p) s events := by
  induction events generalizing s with
  | nil =>
      obtain rfl := Option.some.inj hrun
      simp [Guarded]
  | cons event events ih =>
      obtain ⟨s', hstep, hrest⟩ := run_cons_eq_some.mp hrun
      rw [ih (waitInv_step hext hforeground hinv hstep) hrest, taken_step_iff hinv hstep,
        or_assoc, ← not_and_or]
      have hguard :
          Guarded (waitStep p) (SparesLast p) s (event :: events)
            ↔
          SparesLast p s event ∧ Guarded (waitStep p) (SparesLast p) s' events := by
        simp [Guarded, hstep]
      rw [hguard]

end Taken

/--
**Waiting for a pipeline.**

Whatever the order of the exits, the runs of the handler and the waits, the call returns and
stores the exit status of the last command if and only if the handler never ran while the
last command had exited and was not waited for.
-/
theorem pipeline_status_iff
    {p : Pipeline} {builtin : Option Int}
    (hext : External p builtin)
    (hforeground : (p.commands 0).background = false)
    {pending : Bool} {code value : Option Int} {events : List WaitEvent} {s : Execution}
    (hrun : run (waitStep p) (entry p builtin pending code) events = some s)
    (hreturned : s.phase = .returned value) :
    StatusOfLast p s
      ↔
    Guarded (waitStep p) (SparesLast p) (entry p builtin pending code) events := by
  have hentry := waitInv_entry hext pending code
  have hinv : WaitInv p s :=
    invariant_of_run (fun _ _ _ hs hstep => waitInv_step hext hforeground hs hstep) hentry hrun
  have htaken := taken_run_iff hext hforeground hentry hrun
  have hfresh : ¬ Taken ((entry p builtin pending code).children p.last) := by
    simp [entry, Taken]
  rw [WaitInv, hreturned] at hinv
  obtain ⟨hcode, e, r, hchild, hvalue⟩ := hinv
  rw [or_iff_right hfresh] at htaken
  rw [← not_iff_not, ← htaken, hchild]
  cases r with
  | handler =>
      simp [StatusOfLast, Taken, hchild, hreturned, hvalue]
  | waitpid =>
      simp [StatusOfLast, Taken, hchild, hreturned, hvalue, hcode]

section Examples

/-- A pipeline of three external commands. -/
def threeCommands : Pipeline where
  commands := fun i =>
    .withArgs [if i = 0 then ascii "yes" else if i = 1 then ascii "cat" else ascii "head"]
  count := 3

theorem threeCommands_external : External threeCommands none :=
  ⟨by decide, fun _ _ => by simp [threeCommands, Command.withArgs], fun h => by cases h⟩

/-- The shell in front of it. -/
def threeEntry : Execution := entry threeCommands none false (some 0)

/-- The handler takes the first command, which a signal has ended, and the shell waits for the
two others; the last one exits with 3. -/
def waitedRun : List WaitEvent :=
  [.start true true, .start true true, .exits 0 (.killed ⟨13, by decide⟩ false), .handler,
    .start true true, .start true true, .await, .exits 1 (.exited 0), .await,
    .exits 2 (.exited 3), .await, .handler, .await]

theorem waited_status :
    ∃ s,
      run (waitStep threeCommands) threeEntry waitedRun = some s ∧
        s.phase = .returned (some 3) ∧
        StatusOfLast threeCommands s := by
  have hend :
      (run (waitStep threeCommands) threeEntry waitedRun).map Execution.phase =
        some (.returned (some 3)) := by
    decide
  obtain ⟨s, hrun, hphase⟩ := Option.map_eq_some_iff.mp hend
  exact ⟨s, hrun, hphase,
    (pipeline_status_iff threeCommands_external rfl hrun hphase).mpr (by decide)⟩

/-- A pipeline of one external command. -/
def oneCommand : Pipeline where
  commands := fun _ => .withArgs [ascii "ls"]
  count := 1

/-- The shell in front of it. -/
def oneEntry : Execution := entry oneCommand none false (some 0)

/-- The command exits with 3, and the handler runs before the shell waits for it. -/
def takenRun : List WaitEvent :=
  [.start true true, .start true true, .exits 0 (.exited 3), .handler, .await, .await]

/-- The value that is returned and stored then was never set. -/
theorem taken_status :
    ∃ s,
      run (waitStep oneCommand) oneEntry takenRun = some s ∧
        s.phase = .returned none ∧
        s.lastExitCode = none ∧
        ¬ StatusOfLast oneCommand s := by
  refine ⟨_, rfl, rfl, rfl, ?_⟩
  rintro ⟨e, r, -, hphase, -⟩
  cases hphase

end Examples

end Shell
end SecureZ
