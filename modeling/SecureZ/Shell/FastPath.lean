import SecureZ.Shell.Items
import SecureZ.Shell.PipelineWait

/-!
# A registered command on its own

`execute_pipeline` of `szshell.c` runs a registered command in the shell itself when it
stands alone, and in a child, like any other command, when it stands in a longer pipeline.
The child binds its streams to the pipes and to the files of the redirections, and the shell
stores its exit status in `last_exit_code`.  The path for a single command does neither.

The main result says exactly when the two paths agree.  Of the handlers the model has what
they do to the state of the shell: `cd` moves, `exit` ends the loop and sets the exit code,
and the others leave both alone.
-/

namespace SecureZ
namespace Shell

open CLib

section Registry

/-- The registered commands, in the order of `cmd_register_all`. -/
inductive Builtin
  | cd | exit | help | pwd | echo | clear | export | history | type | alias
  | encrypt | decrypt | lock | unlock | hash | wipe | vault
  | securesession | run
  | status | sysinfo
deriving DecidableEq

def Builtin.name : Builtin → Bytes
  | .cd => ascii "cd"
  | .exit => ascii "exit"
  | .help => ascii "help"
  | .pwd => ascii "pwd"
  | .echo => ascii "echo"
  | .clear => ascii "clear"
  | .export => ascii "export"
  | .history => ascii "history"
  | .type => ascii "type"
  | .alias => ascii "alias"
  | .encrypt => ascii "encrypt"
  | .decrypt => ascii "decrypt"
  | .lock => ascii "lock"
  | .unlock => ascii "unlock"
  | .hash => ascii "hash"
  | .wipe => ascii "wipe"
  | .vault => ascii "vault"
  | .securesession => ascii "securesession"
  | .run => ascii "run"
  | .status => ascii "status"
  | .sysinfo => ascii "sysinfo"

/-- `registry`. -/
def registry : List Builtin :=
  [.cd, .exit, .help, .pwd, .echo, .clear, .export, .history, .type, .alias, .encrypt,
    .decrypt, .lock, .unlock, .hash, .wipe, .vault, .securesession, .run, .status, .sysinfo]

/-- `cmd_find`. -/
def cmdFind (name : Bytes) : Option Builtin :=
  registry.find? fun b => b.name = name

/-- Every registered command is found under its name. -/
theorem cmdFind_name
    (b : Builtin) :
    cmdFind b.name = some b := by
  cases b <;> decide

end Registry

section Handlers

/-- The fields of `ShellState` that handlers write. -/
structure ShellState where
  cwd : Bytes
  running : Bool
  lastExitCode : Int
deriving DecidableEq

/-- What a handler comes back with: its return value, and for `cd` the directory that
`getcwd` then reports. -/
structure HandlerOutcome where
  ret : Int
  cwd : Bytes

/-- `cmd_exit`. -/
def cmdExit (argv : Nat → Option Bytes) (argc : Nat) (st : ShellState) : ShellState × Int :=
  let code :=
    if argc > 1 then atoi ((argv 1).getD []) else st.lastExitCode
  ({ st with running := false, lastExitCode := code }, code)

/-- The handler of a command: the state that it leaves, and what it returns. -/
def Builtin.handler
    (b : Builtin) (c : Command) (o : HandlerOutcome) (st : ShellState) : ShellState × Int :=
  match b with
  | .exit => cmdExit c.argv c.argc st
  | .cd => (if o.ret = 0 then { st with cwd := o.cwd } else st, o.ret)
  | _ => (st, o.ret)

/-- The commands whose return value is the exit code that they set. -/
theorem handler_lastExitCode
    (b : Builtin) (c : Command) (o : HandlerOutcome) (st : ShellState) :
    (b.handler c o st).1.lastExitCode = (b.handler c o st).2
      ↔
    b = .exit ∨ o.ret = st.lastExitCode := by
  cases b with
  | exit => simp [Builtin.handler, cmdExit]
  | cd =>
      simp only [Builtin.handler, reduceCtorEq, false_or]
      split_ifs <;> exact eq_comm
  | _ => simp [Builtin.handler, eq_comm]

end Handlers

section Model

/-- What a stream of a process is bound to. -/
inductive Binding
  /-- The stream of the shell. -/
  | inherited
  | pipe
  | file (path : Bytes) (append : Bool)
deriving DecidableEq

/-- A run of a handler: what its streams are bound to, the state of the process that ran it
when it returns, and what it returns. -/
structure HandlerRun where
  streams : Stream → Binding
  state : ShellState
  ret : Int

/-- The registered command that `argv[0]` names. -/
def Command.registered (c : Command) : Option Builtin :=
  (c.argv 0).bind cmdFind

/-- A run of the handler with some streams. -/
def runHandler
    (b : Builtin) (c : Command) (o : HandlerOutcome) (st : ShellState)
    (streams : Stream → Binding) : HandlerRun :=
  ⟨streams, (b.handler c o st).1, (b.handler c o st).2⟩

/-- The path of `execute_pipeline` for a single command, none when it is not taken. -/
def fastPath (p : Pipeline) (o : HandlerOutcome) (st : ShellState) : Option HandlerRun :=
  if p.count = 1 ∧ (p.commands 0).argc ≠ 0 then
    (p.commands 0).registered.map fun b =>
      runHandler b (p.commands 0) o st fun _ => .inherited
  else none

/-- Whether a redirection appends. -/
def Redirect.appends (r : Redirect) : Stream → Bool
  | .stdin => false
  | .stdout => r.stdoutAppend
  | .stderr => r.stderrAppend

/-- The binding of a stream to the file of its redirection. -/
def Redirect.binding (r : Redirect) (s : Stream) : Binding :=
  match r.target s with
  | none => .inherited
  | some path => .file path (r.appends s)

/-- What a child binds a stream to, with the ends of the pipes that it has. -/
def childBinding (r : Redirect) (prev next : Bool) : Stream → Binding
  | .stdin => if prev then .pipe else r.binding .stdin
  | .stdout => if next then .pipe else r.binding .stdout
  | .stderr => r.binding .stderr

/-- The child opens the file of this stream. -/
def childOpens (r : Redirect) (prev next : Bool) (s : Stream) : Bool :=
  match childBinding r prev next s with
  | .file _ _ => true
  | _ => false

/-- The child of a registered command: the run of the handler, none when a file does not
open, and the status with which it exits. -/
def childRun
    (b : Builtin) (c : Command) (prev next : Bool) (opened : Stream → Bool)
    (o : HandlerOutcome) (st : ShellState) : Option HandlerRun × Ending :=
  if [Stream.stdin, .stdout, .stderr].all fun s => !childOpens c.redir prev next s || opened s
  then
    let run := runHandler b c o st (childBinding c.redir prev next)
    (some run, .exited (UInt8.ofInt run.ret))
  else (none, .exited 1)

end Model

section Specification

/-- The handler ran with the streams bound to the files of the redirections, and
`last_exit_code` is what it returned. -/
structure HandlerRun.Agrees (run : HandlerRun) (c : Command) : Prop where
  streams : run.streams = c.redir.binding
  code : run.state.lastExitCode = run.ret

/-- The command has no redirection. -/
def Redirect.Absent (r : Redirect) : Prop :=
  ∀ s, r.target s = none

end Specification

section Paths

/-- The shell's own streams are those of the redirections only where there are none. -/
theorem binding_eq_inherited_iff
    (r : Redirect) :
    (fun _ => Binding.inherited) = r.binding ↔ r.Absent := by
  unfold Redirect.Absent Redirect.binding
  constructor
  · intro h s
    have hs := congrFun h s
    cases htarget : r.target s with
    | none => rfl
    | some path =>
        rw [htarget] at hs
        cases hs
  · intro h
    funext s
    rw [h s]

/-- The path for a single command returns what the handler returns, without a child. -/
theorem entryPhase_fastPath
    {p : Pipeline} {o : HandlerOutcome} {st : ShellState} {run : HandlerRun}
    (h : fastPath p o st = some run) :
    entryPhase p (some run.ret) = .returned (some run.ret) := by
  unfold fastPath at h
  split_ifs at h with hsingle
  simp [entryPhase, hsingle]

/-- In the last command of a longer pipeline, the output streams are bound to the files of
the redirections, and the shell takes the low byte of what the handler returned from the
status of the child. -/
theorem childRun_last
    {c : Command} {opened : Stream → Bool} {b : Builtin}
    (hopened : ∀ s, opened s = true)
    (o : HandlerOutcome) (st : ShellState) :
    ∃ run e, childRun b c true false opened o st = (some run, e) ∧
      run.streams .stdout = c.redir.binding .stdout ∧
      run.streams .stderr = c.redir.binding .stderr ∧
      run.ret = (b.handler c o st).2 ∧
      exitValue e.status = run.ret % 256 := by
  have hall : ([Stream.stdin, .stdout, .stderr].all fun s =>
      !childOpens c.redir true false s || opened s) = true := by
    simp [hopened]
  refine ⟨_, _, by rw [childRun, if_pos hall], rfl, rfl, rfl, ?_⟩
  have hbyte : ∀ ret : Int, ((UInt8.ofInt ret).toNat : Int) = ret % 256 := by
    intro ret
    simp only [UInt8.ofInt, UInt8.toNat_ofNat']
    omega
  rw [exitValue_status]
  exact hbyte _

/-- On its own, a registered command runs, and it agrees with what its redirections and its
return value ask for exactly when it has no redirection and either is `exit` or returns what
`last_exit_code` already is. -/
theorem fastPath_agrees_iff
    {p : Pipeline} {b : Builtin}
    (hcount : p.count = 1)
    (hargc : (p.commands 0).argc ≠ 0)
    (hregistered : (p.commands 0).registered = some b)
    (o : HandlerOutcome) (st : ShellState) :
    ∃ run, fastPath p o st = some run ∧
      (run.Agrees (p.commands 0)
        ↔
        (p.commands 0).redir.Absent ∧ (b = .exit ∨ o.ret = st.lastExitCode)) := by
  refine ⟨_, by rw [fastPath, if_pos ⟨hcount, hargc⟩, hregistered, Option.map_some], ?_⟩
  rw [← binding_eq_inherited_iff, ← handler_lastExitCode b (p.commands 0) o st]
  exact ⟨fun h => ⟨h.streams, h.code⟩, fun h => ⟨h.1, h.2⟩⟩

/-- A new shell. -/
def freshShell : ShellState := ⟨ascii "/", true, 0⟩

/-- The pipeline of a line, with nothing in the environment. -/
def parsed (line : String) : Pipeline :=
  parseLine (fun _ => none) (cstr (ascii line))

/-- In a new shell, `pwd` agrees. -/
theorem pwd_agrees :
    ∃ run, fastPath (parsed "pwd") ⟨0, []⟩ freshShell = some run ∧
      run.Agrees ((parsed "pwd").commands 0) := by
  obtain ⟨run, hrun, hiff⟩ := fastPath_agrees_iff (p := parsed "pwd") (b := .pwd)
    (by decide +kernel) (by decide +kernel) (by decide +kernel) ⟨0, []⟩ freshShell
  refine ⟨run, hrun, hiff.mpr ⟨fun stream => ?_, .inr rfl⟩⟩
  cases stream with
  | stdin => decide +kernel
  | stdout => decide +kernel
  | stderr => decide +kernel

/-- `pwd > /tmp/out` prints to the terminal. -/
theorem redirection_ignored :
    ∃ run, fastPath (parsed "pwd > /tmp/out") ⟨0, []⟩ freshShell = some run ∧
      run.streams .stdout = .inherited ∧
      ((parsed "pwd > /tmp/out").commands 0).redir.binding .stdout =
        .file (ascii "/tmp/out") false ∧
      ¬ run.Agrees ((parsed "pwd > /tmp/out").commands 0) := by
  have hsingle :
      (parsed "pwd > /tmp/out").count = 1 ∧ ((parsed "pwd > /tmp/out").commands 0).argc ≠ 0 := by
    decide +kernel
  have hregistered : ((parsed "pwd > /tmp/out").commands 0).registered = some .pwd := by
    decide +kernel
  have hbinding :
      ((parsed "pwd > /tmp/out").commands 0).redir.binding .stdout =
        .file (ascii "/tmp/out") false := by
    decide +kernel
  refine ⟨_, by rw [fastPath, if_pos hsingle, hregistered, Option.map_some], rfl, hbinding, ?_⟩
  intro h
  have hstdout := congrFun h.streams .stdout
  rw [hbinding] at hstdout
  cases hstdout

end Paths

end Shell
end SecureZ
