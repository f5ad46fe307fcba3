import SecureZ.Shell.Expansion
import Mathlib.Logic.Function.Basic

/-!
# The command line parser of the shell

`parse_line` in `parser.c` distributes the tokens of a line over the commands of a
pipeline.  It recognises an operator by comparing the token with it, so the text of a
token is all that counts.  The token behind a redirection is taken as the file, whatever
it is.

The two limits are kept in different places: the tokenizer ends after `MAX_ARGS - 1`
tokens, and a `|` in front of segment `MAX_PIPE_SEGMENTS` leaves the loop after the index
was counted up.  Allocation is assumed to succeed.
-/

namespace SecureZ
namespace Shell

open CLib

/-- `MAX_PIPE_SEGMENTS`. -/
def maxPipeSegments : Nat := 16

section Structures

/-- `Redirect`. -/
structure Redirect where
  stdinFile : Option Bytes
  stdoutFile : Option Bytes
  stderrFile : Option Bytes
  stdoutAppend : Bool
  stderrAppend : Bool
deriving DecidableEq

/-- A redirection record after `memset`. -/
def Redirect.zero : Redirect := ⟨none, none, none, false, false⟩

/-- `Command`; a slot of `argv` without an argument is a null pointer. -/
structure Command where
  argv : Nat → Option Bytes
  argc : Nat
  redir : Redirect
  background : Bool

/-- A command after `memset`. -/
def Command.zero : Command := ⟨fun _ => none, 0, .zero, false⟩

/-- `Pipeline`. -/
structure Pipeline where
  commands : Nat → Command
  count : Nat

/-- A pipeline after `memset`. -/
def Pipeline.zero : Pipeline := ⟨fun _ => .zero, 0⟩

end Structures

section Building

/-- `cmd->argv[cmd->argc] = NULL;` -/
def Command.terminate (c : Command) : Command :=
  { c with argv := Function.update c.argv c.argc none }

/-- `cmd->argv[cmd->argc++] = expanded;` -/
def Command.pushArg (c : Command) (arg : Bytes) : Command :=
  { c with argv := Function.update c.argv c.argc (some arg), argc := c.argc + 1 }

/-- `cmd->background = 1;` -/
def Command.setBackground (c : Command) : Command :=
  { c with background := true }

/-- The locals of `parse_line`, with the pipeline that is built. -/
structure Building where
  commands : Nat → Command
  /-- `cmd_idx`. -/
  cmdIdx : Nat
  /-- The slot that `cmd` points to. -/
  cmd : Nat

/-- The state in front of the loop. -/
def Building.start : Building := ⟨fun _ => .zero, 0, 0⟩

/-- A change to the command that `cmd` points to. -/
def Building.update (b : Building) (f : Command → Command) : Building :=
  { b with commands := Function.update b.commands b.cmd (f (b.commands b.cmd)) }

/-- The step to the next segment. -/
def Building.nextCommand (b : Building) : Building where
  commands := Function.update b.commands (b.cmdIdx + 1) .zero
  cmdIdx := b.cmdIdx + 1
  cmd := b.cmdIdx + 1

/-- What the redirection operators do with the file behind them. -/
def redirection (tok : Bytes) : Option (Bytes → Redirect → Redirect) :=
  if tok = ascii "<" then
    some fun file r => { r with stdinFile := some file }
  else if tok = ascii ">" then
    some fun file r => { r with stdoutFile := some file, stdoutAppend := false }
  else if tok = ascii ">>" then
    some fun file r => { r with stdoutFile := some file, stdoutAppend := true }
  else if tok = ascii "2>" then
    some fun file r => { r with stderrFile := some file, stderrAppend := false }
  else none

/-- A redirection of the command. -/
def Command.redirect
    (set : Bytes → Redirect → Redirect) (file : Bytes) (c : Command) : Command :=
  { c with redir := set file c.redir }

/-- The loop of `parse_line` over the tokens that are left. -/
def parseTokens (env : Environment) : List Bytes → Building → Building
  | [], b => b
  | tok :: rest, b =>
      if tok = ascii "|" then
        if maxPipeSegments ≤ b.cmdIdx + 1 then
          -- the `break`: `cmd` still points to the last segment
          { b.update Command.terminate with cmdIdx := b.cmdIdx + 1 }
        else parseTokens env rest (b.update Command.terminate).nextCommand
      else if tok = ascii "&" then
        parseTokens env rest (b.update Command.setBackground)
      else
        match redirection tok, rest with
        | some _, [] => b
        | some set, file :: rest =>
            parseTokens env rest (b.update (Command.redirect set (expandVariables env file)))
        | none, rest =>
            parseTokens env rest (b.update (fun c => c.pushArg (expandVariables env tok)))

/-- The end of `parse_line`. -/
def Building.finish (b : Building) : Pipeline where
  commands := (b.update Command.terminate).commands
  count := b.cmdIdx + 1

/-- `parse_line`. -/
def parseLine (env : Environment) (line : CString) : Pipeline :=
  if line.bytes = [] then .zero
  else if line.bytes.head? = some (byte '#') then .zero
  else
    match tokenize line with
    | [] => .zero
    | tok :: toks => (parseTokens env (tok :: toks) .start).finish

end Building

section Steps

@[simp] theorem update_cmdIdx
    (b : Building) (f : Command → Command) :
    (b.update f).cmdIdx = b.cmdIdx :=
  rfl

@[simp] theorem update_cmd
    (b : Building) (f : Command → Command) :
    (b.update f).cmd = b.cmd :=
  rfl

@[simp] theorem update_commands_cmd
    (b : Building) (f : Command → Command) :
    (b.update f).commands b.cmd = f (b.commands b.cmd) := by
  simp [Building.update]

theorem update_commands_of_ne
    {b : Building} {i : Nat}
    (h : i ≠ b.cmd)
    (f : Command → Command) :
    (b.update f).commands i = b.commands i := by
  simp [Building.update, h]

@[simp] theorem update_update
    (b : Building) (f g : Command → Command) :
    (b.update f).update g = b.update (fun c => g (f c)) := by
  simp [Building.update]

/-- Only what a change does to the current command counts. -/
theorem update_congr
    {b : Building} {f g : Command → Command}
    (h : f (b.commands b.cmd) = g (b.commands b.cmd)) :
    b.update f = b.update g := by
  simp [Building.update, h]

/-- The tokens that `parse_line` does not take as arguments. -/
def operators : List Bytes :=
  [ascii "|", ascii "&", ascii "<", ascii ">", ascii ">>", ascii "2>"]

theorem redirection_eq_none_iff
    {tok : Bytes} :
    redirection tok = none
      ↔
    tok ≠ ascii "<" ∧ tok ≠ ascii ">" ∧ tok ≠ ascii ">>" ∧ tok ≠ ascii "2>" := by
  unfold redirection
  split_ifs with h1 h2 h3 h4 <;> simp_all

theorem parseTokens_pipe
    {env : Environment} {b : Building}
    (h : b.cmdIdx + 1 < maxPipeSegments)
    (rest : List Bytes) :
    parseTokens env (ascii "|" :: rest) b =
      parseTokens env rest (b.update Command.terminate).nextCommand := by
  conv_lhs => unfold parseTokens
  rw [if_pos rfl, if_neg (by omega)]

theorem parseTokens_background
    (env : Environment) (rest : List Bytes) (b : Building) :
    parseTokens env (ascii "&" :: rest) b =
      parseTokens env rest (b.update Command.setBackground) := by
  have hne : ascii "&" ≠ ascii "|" := by decide
  conv_lhs => unfold parseTokens
  rw [if_neg hne, if_pos rfl]

theorem redirection_pipe :
    redirection (ascii "|") = none :=
  redirection_eq_none_iff.mpr (by decide)

theorem redirection_background :
    redirection (ascii "&") = none :=
  redirection_eq_none_iff.mpr (by decide)

theorem ne_of_redirection
    {op : Bytes}
    (h : redirection op ≠ none) :
    op ≠ ascii "|" ∧ op ≠ ascii "&" :=
  ⟨fun heq => h (heq ▸ redirection_pipe), fun heq => h (heq ▸ redirection_background)⟩

/-- What is no operator is neither a pipe nor a `&`, and redirects nothing. -/
theorem not_mem_operators_iff
    {tok : Bytes} :
    tok ∉ operators
      ↔
    tok ≠ ascii "|" ∧ tok ≠ ascii "&" ∧ redirection tok = none := by
  rw [redirection_eq_none_iff]
  simp only [operators, List.mem_cons, List.not_mem_nil, or_false, not_or]

theorem parseTokens_redirect
    {tok : Bytes} {set : Bytes → Redirect → Redirect}
    (h : redirection tok = some set)
    (env : Environment) (file : Bytes) (rest : List Bytes) (b : Building) :
    parseTokens env (tok :: file :: rest) b =
      parseTokens env rest (b.update (Command.redirect set (expandVariables env file))) := by
  obtain ⟨hpipe, hbg⟩ := ne_of_redirection (Option.ne_none_iff_exists'.mpr ⟨set, h⟩)
  simp [parseTokens, hpipe, hbg, h]

theorem parseTokens_argument
    {tok : Bytes}
    (h : tok ∉ operators)
    (env : Environment) (rest : List Bytes) (b : Building) :
    parseTokens env (tok :: rest) b =
      parseTokens env rest (b.update (fun c => c.pushArg (expandVariables env tok))) := by
  obtain ⟨hpipe, hbg, hnone⟩ := not_mem_operators_iff.mp h
  simp [parseTokens, hpipe, hbg, hnone]

/-- Arguments in a row go to the current command. -/
theorem parseTokens_arguments
    {toks : List Bytes}
    (h : ∀ tok ∈ toks, tok ∉ operators)
    (env : Environment) (rest : List Bytes) (b : Building) :
    parseTokens env (toks ++ rest) b =
      parseTokens env rest
        (b.update fun c => (toks.map (expandVariables env)).foldl Command.pushArg c) := by
  induction toks generalizing b with
  | nil =>
      simp [Building.update]
  | cons tok toks ih =>
      rw [List.forall_mem_cons] at h
      rw [List.cons_append, parseTokens_argument h.1, ih h.2, update_update]
      rfl

/-- A command that has arguments and nothing else. -/
def Command.withArgs (args : List Bytes) : Command where
  argv := fun j => args[j]?
  argc := args.length
  redir := .zero
  background := false

theorem pushArg_withArgs
    (args : List Bytes) (arg : Bytes) :
    (Command.withArgs args).pushArg arg = .withArgs (args ++ [arg]) := by
  simp only [Command.withArgs, Command.pushArg, Command.mk.injEq, List.length_append,
    List.length_singleton, and_true]
  funext j
  rcases Nat.lt_trichotomy j args.length with hj | rfl | hj
  · rw [Function.update_of_ne hj.ne, List.getElem?_append_left hj]
  · simp
  · rw [Function.update_of_ne hj.ne', List.getElem?_eq_none hj.le,
      List.getElem?_eq_none (by rw [List.length_append, List.length_singleton]; omega)]

/-- Arguments stored one by one behind others. -/
theorem foldl_pushArg_withArgs
    (args more : List Bytes) :
    more.foldl Command.pushArg (.withArgs args) = .withArgs (args ++ more) := by
  induction more generalizing args with
  | nil =>
      simp
  | cons arg more ih =>
      rw [List.foldl_cons, pushArg_withArgs, ih, List.append_assoc, List.singleton_append]

/-- Arguments stored one by one in an empty command. -/
theorem foldl_pushArg_zero
    (args : List Bytes) :
    args.foldl Command.pushArg .zero = .withArgs args := by
  have hzero : Command.zero = .withArgs [] := by
    simp [Command.zero, Command.withArgs]
  rw [hzero, foldl_pushArg_withArgs, List.nil_append]

@[simp] theorem terminate_withArgs
    (args : List Bytes) :
    (Command.withArgs args).terminate = .withArgs args := by
  simp [Command.terminate, Command.withArgs, Function.update_eq_self_iff]

end Steps

section Lines

/-- A line that begins with anything but `#` is parsed from its tokens. -/
theorem parseLine_of_head
    {line : CString} {b : UInt8}
    (hhead : line.bytes.head? = some b)
    (hb : b ≠ byte '#')
    (env : Environment) :
    parseLine env line =
      if tokenize line = [] then .zero else (parseTokens env (tokenize line) .start).finish := by
  have hempty : line.bytes ≠ [] := by
    intro h
    simp [h] at hhead
  have hcomment : line.bytes.head? ≠ some (byte '#') := by
    simpa [hhead] using hb
  rw [parseLine, if_neg hempty, if_neg hcomment]
  cases tokenize line with
  | nil => simp
  | cons tok toks => simp

end Lines

section Limits

/-- A command with room for `room` more arguments: nothing is stored from its argument
count on. -/
structure Command.HasRoom (room : Nat) (c : Command) : Prop where
  argc_le : c.argc + room ≤ maxArgs - 1
  unset : ∀ j, c.argc ≤ j → c.argv j = none

theorem hasRoom_mono
    {m n : Nat} {c : Command}
    (h : c.HasRoom n)
    (hmn : m ≤ n) :
    c.HasRoom m :=
  ⟨by have := h.argc_le; omega, h.unset⟩

theorem hasRoom_zero
    {room : Nat}
    (h : room ≤ maxArgs - 1) :
    Command.zero.HasRoom room :=
  ⟨by simpa [Command.zero] using h, fun _ _ => rfl⟩

theorem hasRoom_terminate
    {room : Nat} {c : Command}
    (h : c.HasRoom room) :
    c.terminate.HasRoom room := by
  refine ⟨h.argc_le, fun j hj => ?_⟩
  by_cases hjc : j = c.argc
  · simp [Command.terminate, hjc]
  · simpa [Command.terminate, hjc] using h.unset j hj

theorem hasRoom_pushArg
    {room : Nat} {c : Command}
    (h : c.HasRoom (room + 1))
    (arg : Bytes) :
    (c.pushArg arg).HasRoom room := by
  refine ⟨?_, fun j hj => ?_⟩
  · have := h.argc_le
    simp only [Command.pushArg]
    omega
  · have hj' : c.argc + 1 ≤ j := hj
    have hne : j ≠ c.argc := by omega
    simpa [Command.pushArg, hne] using h.unset j (by omega)

/-- A change that keeps the room of the current command keeps that of all. -/
theorem hasRoom_update
    {m n : Nat} {b : Building} {f : Command → Command}
    (h : ∀ i, (b.commands i).HasRoom n)
    (hmn : m ≤ n)
    (hf : ∀ c : Command, c.HasRoom n → (f c).HasRoom m) :
    ∀ i, ((b.update f).commands i).HasRoom m := by
  intro i
  by_cases hi : i = b.cmd
  · subst hi
    rw [update_commands_cmd]
    exact hf _ (h _)
  · rw [update_commands_of_ne hi]
    exact hasRoom_mono (h i) hmn

theorem hasRoom_nextCommand
    {room : Nat} {b : Building}
    (h : ∀ i, (b.commands i).HasRoom room) :
    ∀ i, (b.nextCommand.commands i).HasRoom room := by
  intro i
  by_cases hi : i = b.cmdIdx + 1
  · have hroom := (h 0).argc_le
    simpa [Building.nextCommand, hi] using hasRoom_zero (by omega)
  · simpa [Building.nextCommand, hi] using h i

/-- The loop never runs out of room for arguments. -/
theorem hasRoom_parseTokens
    (env : Environment) (toks : List Bytes)
    {b : Building}
    (h : ∀ i, (b.commands i).HasRoom toks.length) :
    ∀ i, ((parseTokens env toks b).commands i).HasRoom 0 := by
  fun_induction parseTokens env toks b with
  | case1 b => exact h
  | case2 rest b hlimit =>
      exact hasRoom_update h (Nat.zero_le _)
        fun c hc => hasRoom_terminate (hasRoom_mono hc (Nat.zero_le _))
  | case3 rest b hlimit ih =>
      refine ih (hasRoom_nextCommand (hasRoom_update h (by simp) fun c hc => ?_))
      exact hasRoom_terminate (hasRoom_mono hc (by simp))
  | case4 rest b hne ih =>
      refine ih (hasRoom_update h (by simp) fun c hc => ?_)
      exact ⟨(hasRoom_mono hc (by simp)).argc_le, hc.unset⟩
  | case5 tok b hpipe hbg set hset =>
      exact fun i => hasRoom_mono (h i) (Nat.zero_le _)
  | case6 tok b hpipe hbg set file rest hset ih =>
      refine ih (hasRoom_update h (by simp; omega) fun c hc => ?_)
      exact ⟨(hasRoom_mono hc (by simp; omega)).argc_le, hc.unset⟩
  | case7 tok b hpipe hbg rest hset ih =>
      exact ih (hasRoom_update h (by simp) fun c hc => hasRoom_pushArg hc _)

/-- Every command of a parsed line has room for its null pointer behind its arguments. -/
theorem hasRoom_parseLine
    (env : Environment) (line : CString) (i : Nat) :
    ((parseLine env line).commands i).HasRoom 0 := by
  unfold parseLine
  split_ifs
  · exact hasRoom_zero (Nat.zero_le _)
  · exact hasRoom_zero (Nat.zero_le _)
  · have hlen := length_tokenize_le line
    split
    · exact hasRoom_zero (Nat.zero_le _)
    · next tok toks htoks =>
        rw [htoks] at hlen
        have hrun := hasRoom_parseTokens env (tok :: toks) (b := .start)
          fun _ => hasRoom_zero hlen
        exact hasRoom_update hrun le_rfl (fun _ hc => hasRoom_terminate hc) i

/-- The pipes that the loop meets as operators: the token behind a redirection is its
file. -/
def pipeOperators : List Bytes → Nat
  | [] => 0
  | tok :: rest =>
      if tok = ascii "|" then pipeOperators rest + 1
      else if tok = ascii "&" then pipeOperators rest
      else
        match redirection tok, rest with
        | some _, [] => 0
        | some _, _ :: rest => pipeOperators rest
        | none, rest => pipeOperators rest

@[simp] theorem pipeOperators_pipe
    (rest : List Bytes) :
    pipeOperators (ascii "|" :: rest) = pipeOperators rest + 1 := by
  conv_lhs => unfold pipeOperators
  rw [if_pos rfl]

@[simp] theorem pipeOperators_background
    (rest : List Bytes) :
    pipeOperators (ascii "&" :: rest) = pipeOperators rest := by
  have hne : ascii "&" ≠ ascii "|" := by decide
  conv_lhs => unfold pipeOperators
  rw [if_neg hne, if_pos rfl]

theorem pipeOperators_redirect
    {op : Bytes}
    (h : redirection op ≠ none)
    (file : Bytes) (rest : List Bytes) :
    pipeOperators (op :: file :: rest) = pipeOperators rest := by
  obtain ⟨hpipe, hbg⟩ := ne_of_redirection h
  obtain ⟨set, hset⟩ := Option.ne_none_iff_exists'.mp h
  simp [pipeOperators, hpipe, hbg, hset]

theorem pipeOperators_argument
    {tok : Bytes}
    (h : tok ∉ operators)
    (rest : List Bytes) :
    pipeOperators (tok :: rest) = pipeOperators rest := by
  obtain ⟨hpipe, hbg, hnone⟩ := not_mem_operators_iff.mp h
  simp [pipeOperators, hpipe, hbg, hnone]

/-- The index of the last segment: every pipe counts it up until the limit ends the
loop. -/
theorem cmdIdx_parseTokens
    (env : Environment) (toks : List Bytes)
    {b : Building}
    (h : b.cmdIdx < maxPipeSegments) :
    (parseTokens env toks b).cmdIdx = min (b.cmdIdx + pipeOperators toks) maxPipeSegments := by
  fun_induction parseTokens env toks b with
  | case1 b =>
      simp [pipeOperators, h.le]
  | case2 rest b hlimit =>
      rw [pipeOperators_pipe]
      dsimp only
      omega
  | case3 rest b hlimit ih =>
      rw [ih (by simp [Building.nextCommand]; omega), pipeOperators_pipe]
      simp only [Building.nextCommand, update_cmdIdx]
      omega
  | case4 rest b hne ih =>
      rw [ih h, pipeOperators_background, update_cmdIdx]
  | case5 tok b hpipe hbg set hset =>
      simp [pipeOperators, hpipe, hbg, hset, h.le]
  | case6 tok b hpipe hbg set file rest hset ih =>
      have hop : redirection tok ≠ none := Option.ne_none_iff_exists'.mpr ⟨set, hset⟩
      rw [ih h, update_cmdIdx, pipeOperators_redirect hop]
  | case7 tok b hpipe hbg rest hset ih =>
      have harg := not_mem_operators_iff.mpr ⟨hpipe, hbg, hset⟩
      rw [ih h, update_cmdIdx, pipeOperators_argument harg]

end Limits

end Shell
end SecureZ
