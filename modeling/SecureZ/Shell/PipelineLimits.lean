import SecureZ.Shell.Parser
import Mathlib.Data.List.Range

/-!
# Array accesses of the shell's main loop

`execute_pipeline` and the loop in `main` that frees a parsed line index `commands`,
`argv` and `pids` by the counts that the parser returned.  The accesses are listed here
in the order in which they happen, for every outcome of `pipe` and `fork`.

They stay inside the arrays exactly when the line has fewer pipe operators than segments
are allowed.  With one more, the parser leaves its loop with the index counted up and
returns a count that is one too large.
-/

namespace SecureZ
namespace Shell

open CLib

section Accesses

/-- An access to an element of an array. -/
inductive Access
  /-- `pipeline->commands[i]`. -/
  | command (i : Nat)
  /-- `commands[i].argv[j]`. -/
  | arg (i j : Nat)
  /-- `pids[i]`. -/
  | pid (i : Nat)
deriving DecidableEq

/-- The access stays inside its array. -/
def Access.InRange : Access → Prop
  | .command i => i < maxPipeSegments
  | .arg i j => i < maxPipeSegments ∧ j < maxArgs
  | .pid i => i < maxPipeSegments

/-- The arguments that a handler or `execvp` walks over, with the null pointer. -/
def argAccesses (p : Pipeline) (i : Nat) : List Access :=
  (List.range ((p.commands i).argc + 1)).map (.arg i)

/--
The loop of `execute_pipeline` that starts the commands, from command `i` on with `n`
processes started.  `started i` tells whether `pipe` and `fork` succeed for command `i`;
the second component is the number of processes at the end of the loop, none when the
function returned.
-/
def startLoop (p : Pipeline) (started : Nat → Bool) :
    Nat → Nat → Nat → List Access × Option Nat
  | 0, _, n => ([], some n)
  | left + 1, i, n =>
      if (p.commands i).argc = 0 then
        (.command i :: (startLoop p started left (i + 1) n).1,
          (startLoop p started left (i + 1) n).2)
      else if started i then
        (.command i :: argAccesses p i ++ .pid n :: (startLoop p started left (i + 1) (n + 1)).1,
          (startLoop p started left (i + 1) (n + 1)).2)
      else ([.command i], none)

/-- The accesses of `execute_pipeline`; `builtin` tells what `cmd_find` says of a single
command. -/
def executeAccesses (p : Pipeline) (builtin : Bool) (started : Nat → Bool) : List Access :=
  if p.count = 0 then []
  else if p.count = 1 ∧ (p.commands 0).argc = 0 then [.command 0]
  else if p.count = 1 ∧ builtin then .command 0 :: argAccesses p 0
  else
    match startLoop p started p.count 0 0 with
    | (accesses, none) => accesses
    | (accesses, some n) =>
        accesses ++ .command 0 ::
          if (p.commands 0).background then [] else (List.range n).map .pid

/-- The accesses of the freeing loop in `main`. -/
def freeAccesses (p : Pipeline) : List Access :=
  (List.range p.count).flatMap fun i =>
    .command i :: (List.range (p.commands i).argc).map (.arg i)

/-- The counts of a pipeline are within the limits, the arguments end with a null
pointer, and whoever goes by the counts stays inside the arrays. -/
structure RangeSafe (p : Pipeline) : Prop where
  count_le : p.count ≤ maxPipeSegments
  argc_le : ∀ i, i < p.count → (p.commands i).argc ≤ maxArgs - 1
  terminated : ∀ i, i < p.count → (p.commands i).argv (p.commands i).argc = none
  execute_inRange :
    ∀ builtin started, ∀ a ∈ executeAccesses p builtin started, a.InRange
  free_inRange : ∀ a ∈ freeAccesses p, a.InRange

end Accesses

section InRange

variable {p : Pipeline}

theorem argAccesses_inRange
    (hargc : ∀ i, (p.commands i).argc ≤ maxArgs - 1)
    {i : Nat}
    (hi : i < maxPipeSegments) :
    ∀ a ∈ argAccesses p i, a.InRange := by
  intro a ha
  obtain ⟨j, hj, rfl⟩ := List.mem_map.mp ha
  have := hargc i
  rw [List.mem_range] at hj
  exact ⟨hi, by simp only [maxArgs] at this ⊢; omega⟩

/-- The starting loop has never started more processes than it has passed commands. -/
theorem startLoop_inRange
    (hargc : ∀ i, (p.commands i).argc ≤ maxArgs - 1)
    (started : Nat → Bool)
    {left i n : Nat}
    (hi : i + left ≤ maxPipeSegments)
    (hn : n ≤ i) :
    (∀ a ∈ (startLoop p started left i n).1, a.InRange) ∧
      ∀ m ∈ (startLoop p started left i n).2, m ≤ maxPipeSegments := by
  induction left generalizing i n with
  | zero =>
      refine ⟨by simp [startLoop], ?_⟩
      intro m hm
      obtain rfl := Option.some.inj hm
      omega
  | succ left ih =>
      have hcommand : (Access.command i).InRange := by
        simp only [Access.InRange]
        omega
      simp only [startLoop]
      split_ifs with hargs hstart
      · obtain ⟨haccesses, hpids⟩ := ih (i := i + 1) (n := n) (by omega) (by omega)
        exact ⟨List.forall_mem_cons.mpr ⟨hcommand, haccesses⟩, hpids⟩
      · obtain ⟨haccesses, hpids⟩ := ih (i := i + 1) (n := n + 1) (by omega) (by omega)
        have hpid : (Access.pid n).InRange := by
          simp only [Access.InRange]
          omega
        refine ⟨?_, hpids⟩
        rw [List.cons_append]
        refine List.forall_mem_cons.mpr ⟨hcommand, ?_⟩
        refine List.forall_mem_append.mpr ⟨?_, ?_⟩
        · exact argAccesses_inRange hargc (by omega)
        · exact List.forall_mem_cons.mpr ⟨hpid, haccesses⟩
      · exact ⟨by simpa using hcommand, by simp⟩

theorem executeAccesses_inRange
    (hcount : p.count ≤ maxPipeSegments)
    (hargc : ∀ i, (p.commands i).argc ≤ maxArgs - 1)
    (builtin : Bool) (started : Nat → Bool) :
    ∀ a ∈ executeAccesses p builtin started, a.InRange := by
  have hfirst : (Access.command 0).InRange := by
    simp [Access.InRange, maxPipeSegments]
  have hroom : 0 + p.count ≤ maxPipeSegments := by omega
  obtain ⟨haccesses, hpids⟩ := startLoop_inRange hargc started hroom le_rfl
  unfold executeAccesses
  by_cases hzero : p.count = 0
  · simp [hzero]
  rw [if_neg hzero]
  by_cases hempty : p.count = 1 ∧ (p.commands 0).argc = 0
  · simpa [hempty] using hfirst
  rw [if_neg hempty]
  by_cases hbuiltin : p.count = 1 ∧ builtin = true
  · rw [if_pos hbuiltin]
    exact List.forall_mem_cons.mpr
      ⟨hfirst, argAccesses_inRange hargc (by simp [maxPipeSegments])⟩
  rw [if_neg hbuiltin]
  split
  · next accesses heq =>
      rw [heq] at haccesses
      exact haccesses
  · next accesses n heq =>
      rw [heq] at haccesses hpids
      have hn := hpids n rfl
      refine List.forall_mem_append.mpr ⟨haccesses, List.forall_mem_cons.mpr ⟨hfirst, ?_⟩⟩
      split_ifs
      · simp
      · intro a ha
        obtain ⟨j, hj, rfl⟩ := List.mem_map.mp ha
        exact (List.mem_range.mp hj).trans_le hn

theorem freeAccesses_inRange
    (hcount : p.count ≤ maxPipeSegments)
    (hargc : ∀ i, (p.commands i).argc ≤ maxArgs - 1) :
    ∀ a ∈ freeAccesses p, a.InRange := by
  intro a ha
  obtain ⟨i, hi, ha⟩ := List.mem_flatMap.mp ha
  have hi' : i < maxPipeSegments := (List.mem_range.mp hi).trans_le hcount
  rcases List.mem_cons.mp ha with rfl | ha
  · exact hi'
  · obtain ⟨j, hj, rfl⟩ := List.mem_map.mp ha
    have := hargc i
    rw [List.mem_range] at hj
    exact ⟨hi', by simp only [maxArgs] at this ⊢; omega⟩

end InRange

section ParsedLines

/-- The line is not parsed, or its pipe operators leave room for the last segment. -/
def FewPipes (line : CString) : Prop :=
  line.bytes = [] ∨ line.bytes.head? = some (byte '#') ∨
    pipeOperators (tokenize line) < maxPipeSegments

instance (line : CString) : Decidable (FewPipes line) :=
  inferInstanceAs (Decidable (_ ∨ _))

/-- The count that `parse_line` returns is within its limit exactly for such lines. -/
theorem count_parseLine_le_iff
    (env : Environment) (line : CString) :
    (parseLine env line).count ≤ maxPipeSegments ↔ FewPipes line := by
  unfold parseLine FewPipes
  split_ifs with hempty hcomment
  · simp [hempty, Pipeline.zero]
  · simp [hcomment, Pipeline.zero]
  · split
    · next htoks => simp [htoks, pipeOperators, Pipeline.zero, maxPipeSegments]
    · next tok toks htoks =>
        have hidx := cmdIdx_parseTokens env (tok :: toks) (b := .start) (by decide)
        have hstart : Building.start.cmdIdx = 0 := rfl
        rw [htoks]
        simp only [Building.finish, hidx, hstart, hempty, hcomment, false_or]
        omega

/--
**The limits of a parsed line.**  The pipeline that `parse_line` returns keeps its limits,
and `execute_pipeline` and the freeing loop stay inside the arrays, exactly when the line
is not parsed at all or fewer than `MAX_PIPE_SEGMENTS` of its tokens act as pipes.
-/
theorem parseLine_rangeSafe_iff
    (env : Environment) (line : CString) :
    RangeSafe (parseLine env line) ↔ FewPipes line := by
  have hroom := hasRoom_parseLine env line
  have hargc : ∀ i, ((parseLine env line).commands i).argc ≤ maxArgs - 1 :=
    fun i => (hroom i).argc_le
  rw [← count_parseLine_le_iff env line]
  constructor
  · exact RangeSafe.count_le
  · intro hcount
    exact {
      count_le := hcount
      argc_le := fun i _ => hargc i
      terminated := fun i _ => (hroom i).unset _ le_rfl
      execute_inRange := executeAccesses_inRange hcount hargc
      free_inRange := freeAccesses_inRange hcount hargc }

/-- Seventeen commands with pipes between them. -/
def seventeenSegments : CString where
  bytes := ascii "a|a|a|a|a|a|a|a|a|a|a|a|a|a|a|a|a"
  nulFree := by decide

/-- A line with sixteen pipes makes the parser return a count of seventeen. -/
theorem seventeen_segments_not_rangeSafe :
    ¬ RangeSafe (parseLine (fun _ => none) seventeenSegments) := by
  intro h
  have hcount := (count_parseLine_le_iff _ _).mp h.count_le
  revert hcount
  decide +kernel

end ParsedLines

end Shell
end SecureZ
