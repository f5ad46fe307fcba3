import SecureZ.Daemon.Transcript

/-!
# Sessions from the command line

`securesession start`, `end` and `status` of the shell ask for a confirmation, send a request
to the daemon and print what its answer tells.  The id that is ended comes through `atoi`, is
printed into the request with `%d` and is read from it again by substring search.

For the user the three commands are those of the register of sessions.  The main result is
about every run of them, whatever is typed and whether or not the daemon is reached each time:
what is printed is what the register answers.  The sockets deliver each message in one piece.
-/

namespace SecureZ
namespace Daemon

open CLib Transition Session

section Model

/-- A `securesession` command, with what is left on the standard input when it asks for a
confirmation. -/
inductive SessionCommand
  | start (input : Bytes)
  /-- `end`, with what stands behind it on the line. -/
  | stop (arg : Option CString) (input : Bytes)
  | status

/-- `fgets(confirm, sizeof(confirm), stdin)` gives a line that begins with `y`. -/
def confirms (input : Bytes) : Bool :=
  match fgets 8 input with
  | none => false
  | some (confirm, _) => confirm.head? == some (Shell.byte 'y')

/-- The id that `securesession end` works on. -/
def sessionArg : Option CString → Int
  | none => 1
  | some arg => atoi arg.bytes

/-- The request that is sent, none for a command that is cancelled. -/
def SessionCommand.request : SessionCommand → Option CString
  | .start input =>
      if confirms input then some (cstr (ascii "\x7b\"cmd\":\"session_start\"\x7d")) else none
  | .stop arg input =>
      if confirms input then some (cstr (snprintf 256 (sessionEndText (sessionArg arg)))) else none
  | .status => some (cstr (ascii "\x7b\"cmd\":\"session_list\"\x7d"))

/-- What is printed. -/
inductive Printed
  | cancelled
  | started
  | failedToStart
  | destroyed
  | notFound
  /-- The listing, if the loop over the answer ends. -/
  | listing (rows : Option Shell.StatusListing)
  | notRunning
  | nothing
deriving DecidableEq

/-- What is printed for the answer that was read. -/
def SessionCommand.printed (resp : Bytes) : SessionCommand → Printed
  | .start _ => if reportsOk resp then .started else .failedToStart
  | .stop _ _ => if reportsOk resp then .destroyed else .notFound
  | .status => .listing (Shell.securesessionStatus (resp.length + 1) resp)

/-- What is printed when no answer comes. -/
def SessionCommand.unanswered : SessionCommand → Printed
  | .start _ => .notRunning
  -- `end` has no branch for it
  | .stop _ _ => .nothing
  | .status => .notRunning

/-- A command that is typed, and what it meets. -/
structure SessionEvent where
  cmd : SessionCommand
  /-- Whether the daemon can be reached. -/
  up : Bool
  reply : EngineReply

/-- A command in a run of the shell: the table of the daemon, and what was printed. -/
def commandStep (s : SessionTable × List Printed) (e : SessionEvent) :
    Option (SessionTable × List Printed) :=
  match e.cmd.request with
  | none => some (s.1, s.2 ++ [.cancelled])
  | some json =>
      if e.up then
        (answer s.1 (json, e.reply)).map fun a =>
          (a.1, s.2 ++ [e.cmd.printed (Shell.sendCmdRead a.2)])
      else some (s.1, s.2 ++ [e.cmd.unanswered])

end Model

section Purpose

/-- What a command means for the register, none for one that is cancelled. -/
def SessionCommand.operation (reply : EngineReply) : SessionCommand → Option Operation
  | .start input => if confirms input then some (.create ⟨none, 0, 0⟩ reply.sys) else none
  | .stop arg input => if confirms input then some (.destroy (sessionArg arg)) else none
  | .status => some .list

/-- What the user is to be told for an answer of the register. -/
def told : Answer → Printed
  | .created id => if 0 < id then .started else .failedToStart
  | .destroyed status => if status = 0 then .destroyed else .notFound
  | .listed entries => .listing (some ⟨entries.length, entries.map rowOf⟩)
  | .done => .cancelled
  | .info _ => .cancelled

/-- A command in a run of the register, which is not asked while the daemon is away. -/
def meantStep (s : Registry × List Printed) (e : SessionEvent) : Registry × List Printed :=
  match e.cmd.operation e.reply with
  | none => (s.1, s.2 ++ [.cancelled])
  | some op =>
      if e.up then ((s.1.perform op).1, s.2 ++ [told (s.1.perform op).2])
      else (s.1, s.2 ++ [e.cmd.unanswered])

/-- How many of the commands may start a session. -/
def starts (events : List SessionEvent) : Nat :=
  events.countP fun e =>
    match e.cmd with
    | .start _ => true
    | _ => false

/-- `clone` returns a process of type `pid_t` in the parent, or fails. -/
def Clones (reply : EngineReply) : Prop :=
  reply.sys.childPid ≠ 0 ∧ reply.sys.childPid ≤ intMax

end Purpose

section Requests

/-- What `atoi` returns can be printed. -/
theorem isInt_sessionArg
    (arg : Option CString) :
    IsInt (sessionArg arg) := by
  cases arg with
  | none => exact ⟨by decide, by decide⟩
  | some arg =>
      have hpos : (0 : Nat) < 2 ^ 32 := by decide
      have hlower := Int.le_bmod (x := strtol10 arg.bytes) hpos
      have hupper := Int.bmod_lt (x := strtol10 arg.bytes) hpos
      simp only [sessionArg, atoi]
      exact ⟨by omega, by omega⟩

/-- The call that a command is for. -/
def SessionCommand.call : SessionCommand → EngineCall
  | .start _ => .sessionCreate
  | .stop arg _ => .sessionDestroy (sessionArg arg)
  | .status => .sessionList

theorem handleCommand_start :
    handleCommand (cstr (ascii "\x7b\"cmd\":\"session_start\"\x7d")) = .call .sessionCreate := by
  decide +kernel

theorem handleCommand_list :
    handleCommand (cstr (ascii "\x7b\"cmd\":\"session_list\"\x7d")) = .call .sessionList := by
  decide +kernel

/-- The daemon makes just this call for the request of a command. -/
theorem handleCommand_of_request
    {cmd : SessionCommand} {json : CString}
    (h : cmd.request = some json) :
    handleCommand json = .call cmd.call := by
  cases cmd with
  | start input =>
      simp only [SessionCommand.request] at h
      split_ifs at h
      obtain rfl := Option.some.inj h
      exact handleCommand_start
  | stop arg input =>
      simp only [SessionCommand.request] at h
      split_ifs at h
      obtain rfl := Option.some.inj h
      exact handleCommand_sessionEnd (isInt_sessionArg arg)
  | status =>
      obtain rfl := Option.some.inj h
      exact handleCommand_list

/-- An answer that `snprintf` printed is read whole. -/
theorem sendCmdRead_snprintf
    (text : Bytes) :
    Shell.sendCmdRead (snprintf respBufSize text) = snprintf respBufSize text := by
  rw [Shell.sendCmdRead, snprintf, List.take_of_length_le]
  exact (List.length_take_le _ _).trans (by decide)

/-- The answer to a request for which a call is made. -/
theorem answer_of_call
    {t : SessionTable} {json : CString} {c : EngineCall}
    (hcall : handleCommand json = .call c)
    (hlast : ¬ (c = .sessionCreate ∧ createWrites t ∧ t.nextId = intMax))
    (reply : EngineReply) :
    answer t (json, reply) =
      some (tableAfter t reply c, callResponse (reply.engine t) c) := by
  unfold answer
  simp only [hcall]
  rw [if_neg hlast]

theorem sendCmdRead_created
    (e : Engine) :
    Shell.sendCmdRead (callResponse e .sessionCreate) = callResponse e .sessionCreate := by
  simp only [callResponse]
  split_ifs <;> exact sendCmdRead_snprintf _

theorem sendCmdRead_destroyed
    (e : Engine) (id : Int) :
    Shell.sendCmdRead (callResponse e (.sessionDestroy id)) =
      callResponse e (.sessionDestroy id) :=
  sendCmdRead_snprintf _

end Requests

section Steps

variable {t : SessionTable} {r : Registry} {out : List Printed} {reply : EngineReply}

/-- What the shell does for a request that the daemon answers. -/
theorem commandStep_sent
    {cmd : SessionCommand} {json : CString}
    (hrequest : cmd.request = some json)
    (hlast : ¬ (cmd.call = .sessionCreate ∧ createWrites t ∧ t.nextId = intMax)) :
    commandStep (t, out) ⟨cmd, true, reply⟩ =
      some (tableAfter t reply cmd.call,
        out ++ [cmd.printed (Shell.sendCmdRead (callResponse (reply.engine t) cmd.call))]) := by
  simp only [commandStep, hrequest, if_true,
    answer_of_call (handleCommand_of_request hrequest) hlast reply, Option.map_some]

theorem start_step
    (h : Follows t r)
    (hroom : r.nextId < intMax)
    {input : Bytes}
    (hconfirm : confirms input = true) :
    ∃ t', commandStep (t, out) ⟨.start input, true, reply⟩ =
        some (t', (meantStep (r, out) ⟨.start input, true, reply⟩).2) ∧
      Follows t' (meantStep (r, out) ⟨.start input, true, reply⟩).1 := by
  have hrequest : (SessionCommand.start input).request =
      some (cstr (ascii "\x7b\"cmd\":\"session_start\"\x7d")) := by
    rw [SessionCommand.request, if_pos hconfirm]
  have hlast : ¬ ((SessionCommand.start input).call = .sessionCreate ∧ createWrites t ∧
      t.nextId = intMax) := by
    rintro ⟨-, -, hnext⟩
    rw [h.nextId] at hnext
    omega
  obtain ⟨hanswer, hfollows⟩ := follows_create h ⟨none, 0, 0⟩ reply.sys
  have hok := reportsOk_callResponse t reply .sessionCreate
  simp only [Succeeds] at hok
  refine ⟨(sessionCreate t ⟨none, 0, 0⟩ reply.sys).1, ?_, ?_⟩
  · rw [commandStep_sent hrequest hlast]
    simp only [meantStep, SessionCommand.operation, hconfirm, if_true, ← hanswer, told,
      SessionCommand.call, SessionCommand.printed, sendCmdRead_created, tableAfter, hok]
  · simpa only [meantStep, SessionCommand.operation, hconfirm, if_true] using hfollows

theorem stop_step
    (h : Follows t r)
    (hnext : r.nextId ≤ intMax)
    {arg : Option CString} {input : Bytes}
    (hconfirm : confirms input = true) :
    ∃ t', commandStep (t, out) ⟨.stop arg input, true, reply⟩ =
        some (t', (meantStep (r, out) ⟨.stop arg input, true, reply⟩).2) ∧
      Follows t' (meantStep (r, out) ⟨.stop arg input, true, reply⟩).1 := by
  have hrequest : (SessionCommand.stop arg input).request =
      some (cstr (snprintf 256 (sessionEndText (sessionArg arg)))) := by
    rw [SessionCommand.request, if_pos hconfirm]
  have hlast : ¬ ((SessionCommand.stop arg input).call = .sessionCreate ∧ createWrites t ∧
      t.nextId = intMax) := by
    rintro ⟨hcall, -⟩
    cases hcall
  have hroom : r.nextId + creations [.destroy (sessionArg arg)] ≤ intMax := by
    simpa [creations] using hnext
  obtain ⟨t', hperform, hfollows⟩ := follows_perform h hroom
  simp only [perform, Option.some.injEq] at hperform
  obtain ⟨rfl, hanswer⟩ := Prod.mk.inj hperform
  have hok := reportsOk_callResponse t reply (.sessionDestroy (sessionArg arg))
  simp only [Succeeds] at hok
  refine ⟨(sessionDestroy t (sessionArg arg)).1, ?_, ?_⟩
  · rw [commandStep_sent hrequest hlast]
    simp only [meantStep, SessionCommand.operation, hconfirm, if_true, ← hanswer, told,
      SessionCommand.call, SessionCommand.printed, sendCmdRead_destroyed, tableAfter, hok]
  · simpa only [meantStep, SessionCommand.operation, hconfirm, if_true] using hfollows

theorem status_step
    (h : Follows t r)
    (hstartable : Startable t) :
    commandStep (t, out) ⟨.status, true, reply⟩ =
      some (t, (meantStep (r, out) ⟨.status, true, reply⟩).2) := by
  have hlast : ¬ (SessionCommand.status.call = .sessionCreate ∧ createWrites t ∧
      t.nextId = intMax) := by
    rintro ⟨hcall, -⟩
    cases hcall
  have hcount : t.sessions.length ≤ sessionMaxActive :=
    (length_sessions t).trans_le t.count_le
  obtain ⟨hwhole, hfits, -⟩ := sessionListResponse_spec hcount hstartable.started
  have hread : Shell.sendCmdRead (callResponse (reply.engine t) .sessionList) =
      listingText t.sessions := by
    have hresponse : callResponse (reply.engine t) .sessionList =
        (sessionListResponse respBufSize t.sessions).text := rfl
    rw [respBufSize] at hfits
    rw [hresponse, Shell.sendCmdRead, List.take_of_length_le (by rw [respBufSize]; omega),
      hwhole]
  have hturns : t.sessions.length < (listingText t.sessions).length + 1 := by
    have hfixed : (ascii "\x7b\"status\":\"ok\",\"count\":").length = 23 := rfl
    rw [sessionMaxActive] at hcount
    simp only [listingText, listingHeader, List.length_append]
    omega
  rw [commandStep_sent rfl hlast]
  simp only [meantStep, SessionCommand.operation, Registry.perform, told, SessionCommand.call,
    SessionCommand.printed, tableAfter, hread, if_true,
    securesessionStatus_listingText hcount hstartable.started hturns, ← h.sessions]

/-- A command that is cancelled, or does not reach the daemon, asks for nothing. -/
theorem unsent_step
    (h : Follows t r)
    {cmd : SessionCommand} {up : Bool}
    (hunsent : cmd.request = none ∨ up = false) :
    commandStep (t, out) ⟨cmd, up, reply⟩ = some (t, (meantStep (r, out) ⟨cmd, up, reply⟩).2) ∧
      Follows t (meantStep (r, out) ⟨cmd, up, reply⟩).1 := by
  have hsame : cmd.request = none ↔ cmd.operation reply = none := by
    cases cmd with
    | start input => simp [SessionCommand.request, SessionCommand.operation]
    | stop arg input => simp [SessionCommand.request, SessionCommand.operation]
    | status => simp [SessionCommand.request, SessionCommand.operation]
  unfold commandStep meantStep
  cases hrequest : cmd.request with
  | none =>
      simp only [hsame.mp hrequest]
      exact ⟨trivial, h⟩
  | some json =>
      rw [hrequest] at hunsent
      obtain rfl : up = false := hunsent.resolve_left (by simp)
      cases hoperation : cmd.operation reply with
      | none =>
          rw [hsame.mpr hoperation] at hrequest
          cases hrequest
      | some op => exact ⟨rfl, h⟩

/-- Whatever a command does, the sessions in the table were started. -/
theorem startable_commandStep
    (hstartable : Startable t)
    {e : SessionEvent} {t' : SessionTable} {out' : List Printed}
    (hclones : Clones e.reply)
    (hstep : commandStep (t, out) e = some (t', out')) :
    Startable t' := by
  unfold commandStep at hstep
  cases hrequest : e.cmd.request with
  | none =>
      simp only [hrequest, Option.some.injEq] at hstep
      exact (Prod.mk.inj hstep).1 ▸ hstartable
  | some json =>
      simp only [hrequest] at hstep
      split_ifs at hstep
      · obtain ⟨⟨t₁, response⟩, hanswer, heq⟩ := Option.map_eq_some_iff.mp hstep
        obtain ⟨rfl, -⟩ := Prod.mk.inj heq
        obtain ⟨rfl, -, hlast⟩ := answer_call (handleCommand_of_request hrequest) hanswer
        exact startable_tableAfter hstartable hclones hlast
      · exact (Prod.mk.inj (Option.some.inj hstep)).1 ▸ hstartable

/-- Every command does what it means, and leaves sessions that were started. -/
theorem command_step
    (h : Follows t r)
    (hstartable : Startable t)
    {e : SessionEvent}
    (hclones : Clones e.reply)
    (hroom : r.nextId + starts [e] ≤ intMax) :
    ∃ t', commandStep (t, out) e = some (t', (meantStep (r, out) e).2) ∧
      Follows t' (meantStep (r, out) e).1 ∧ Startable t' := by
  suffices hsteps : ∃ t', commandStep (t, out) e = some (t', (meantStep (r, out) e).2) ∧
      Follows t' (meantStep (r, out) e).1 by
    obtain ⟨t', hstep, hfollows⟩ := hsteps
    exact ⟨t', hstep, hfollows, startable_commandStep hstartable hclones hstep⟩
  obtain ⟨cmd, up, reply⟩ := e
  by_cases hunsent : cmd.request = none ∨ up = false
  · exact ⟨t, unsent_step h hunsent⟩
  · rw [not_or, Bool.not_eq_false] at hunsent
    obtain ⟨hsent, rfl⟩ := hunsent
    cases cmd with
    | start input =>
        have hone : starts [⟨SessionCommand.start input, true, reply⟩] = 1 := rfl
        rw [hone] at hroom
        have hconfirm : confirms input = true := by
          by_contra hno
          exact hsent (if_neg hno)
        exact start_step h (by omega) hconfirm
    | stop arg input =>
        have hzero : starts [⟨SessionCommand.stop arg input, true, reply⟩] = 0 := rfl
        rw [hzero] at hroom
        have hconfirm : confirms input = true := by
          by_contra hno
          exact hsent (if_neg hno)
        exact stop_step h (by omega) hconfirm
    | status =>
        exact ⟨t, status_step h hstartable, h⟩

/-- Only a start creates a session. -/
theorem creations_operation_le
    {e : SessionEvent} {op : Operation}
    (h : e.cmd.operation e.reply = some op) :
    creations [op] ≤ starts [e] := by
  obtain ⟨cmd, up, reply⟩ := e
  cases cmd with
  | start input =>
      simp only [SessionCommand.operation] at h
      split_ifs at h
      obtain rfl := Option.some.inj h
      exact le_rfl
  | stop arg input =>
      simp only [SessionCommand.operation] at h
      split_ifs at h
      obtain rfl := Option.some.inj h
      exact le_rfl
  | status =>
      obtain rfl := Option.some.inj h
      exact le_rfl

/-- A command uses up an id at most if it may start a session. -/
theorem nextId_meantStep_le
    (r : Registry) (out : List Printed) (e : SessionEvent) :
    (meantStep (r, out) e).1.nextId ≤ r.nextId + starts [e] := by
  unfold meantStep
  split
  · dsimp only
    omega
  · next op hop =>
      have hle := nextId_perform_le r op
      have hcount := creations_operation_le hop
      split_ifs
      · dsimp only
        omega
      · dsimp only
        omega

end Steps

/--
**The session commands are those of the register.**

For every run of `securesession` commands, one after the other, whatever is typed behind them
and at their prompts, whether or not the daemon is reached each time and whatever process
`clone` comes back with, as long as there are ids for all starts: the daemon answers every
request that reaches it, its table follows the register of sessions, and everything that the
shell prints is what the register answers.
-/
theorem session_commands_refine_registry
    (events : List SessionEvent)
    (hclones : ∀ e ∈ events, Clones e.reply)
    (hroom : 1 + (starts events : Int) ≤ intMax) :
    ∃ t, run commandStep (sessionInit, []) events =
        some (t, (events.foldl meantStep (.empty, [])).2) ∧
      Follows t (events.foldl meantStep (.empty, [])).1 := by
  have hrun : ∀ (t : SessionTable) (r : Registry) (out : List Printed), Follows t r →
      Startable t → r.nextId + (starts events : Int) ≤ intMax →
        ∃ t', run commandStep (t, out) events =
            some (t', (events.foldl meantStep (r, out)).2) ∧
          Follows t' (events.foldl meantStep (r, out)).1 := by
    clear hroom
    induction events with
    | nil => exact fun t r out h _ _ => ⟨t, rfl, h⟩
    | cons e events ih =>
        intro t r out h hstartable hroom
        rw [List.forall_mem_cons] at hclones
        have hcount : starts (e :: events) = starts [e] + starts events := by
          have hsplit : e :: events = [e] ++ events := rfl
          rw [starts, hsplit, List.countP_append]
          rfl
        rw [hcount] at hroom
        have hfirst : r.nextId + (starts [e] : Int) ≤ intMax := by omega
        obtain ⟨t₁, hstep, hfollows, hstartable₁⟩ := command_step h hstartable hclones.1 hfirst
        have hnext := nextId_meantStep_le r out e
        obtain ⟨t', hrest, hlast⟩ := ih hclones.2 t₁ (meantStep (r, out) e).1
          (meantStep (r, out) e).2 hfollows hstartable₁ (by omega)
        exact ⟨t', run_cons_eq_some.mpr ⟨_, hstep, hrest⟩, hlast⟩
  have hinit : Follows sessionInit .empty :=
    ⟨rfl, by simp [SessionTable.sessions, sessionInit, Registry.empty], rfl⟩
  exact hrun sessionInit .empty [] hinit
    ⟨by simp [SessionTable.sessions, sessionInit], by decide⟩ hroom

section Examples

/-- A session is started, listed, ended while the daemon is away, under a wrong number and under
its own, and a last start is not confirmed. -/
def sampleCommands : List SessionEvent :=
  [⟨.start (ascii "yes\n"), true, cloningReply⟩, ⟨.status, true, cloningReply⟩,
    ⟨.stop none (ascii "y\n"), false, cloningReply⟩,
    ⟨.stop (some (cstr (ascii "7"))) (ascii "y\n"), true, cloningReply⟩,
    ⟨.stop none (ascii "y\n"), true, cloningReply⟩,
    ⟨.start (ascii "n\n"), true, cloningReply⟩]

theorem sample_commands_printed :
    ∃ t, run commandStep (sessionInit, []) sampleCommands =
      some (t, [.started, .listing (some ⟨1, [⟨1, ascii "session-1", 100⟩]⟩), .nothing,
        .notFound, .destroyed, .cancelled]) := by
  have hclones : ∀ e ∈ sampleCommands, Clones e.reply := by
    intro e he
    simp only [sampleCommands, List.mem_cons, List.not_mem_nil, or_false] at he
    rcases he with rfl | rfl | rfl | rfl | rfl | rfl <;> exact ⟨by decide, by decide⟩
  have hprinted : (sampleCommands.foldl meantStep (.empty, [])).2 =
      [.started, .listing (some ⟨1, [⟨1, ascii "session-1", 100⟩]⟩), .nothing, .notFound,
        .destroyed, .cancelled] := by
    decide +kernel
  obtain ⟨t, hrun, -⟩ := session_commands_refine_registry sampleCommands hclones (by decide)
  exact ⟨t, hprinted ▸ hrun⟩

end Examples

end Daemon
end SecureZ
