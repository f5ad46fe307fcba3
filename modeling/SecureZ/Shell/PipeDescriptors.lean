import SecureZ.Shell.PipelineWait
import SecureZ.Lib.Stream

/-!
# The pipe ends that the shell holds

`execute_pipeline` creates a pipe in front of each command but the last, gives its ends to
the children by `fork`, and closes its own copies as it goes: the write end at once, the read
end when the next command has been started.  A segment without a command is skipped, and a
failed `pipe` or `fork` returns from the middle of the loop.

The main result says of every pipeline and every outcome of the calls exactly when the shell
holds no pipe end when it starts to wait and when it returns.
-/

namespace SecureZ
namespace Shell

open CLib

section Model

/-- The two ends of the pipe that is created in turn `i`. -/
inductive PipeEnd
  | read (i : Nat)
  | write (i : Nat)
deriving DecidableEq

/-- The locals of the loop that starts the commands, with the pipe ends that are open in the
shell. -/
structure Starting where
  i : Nat
  prevFd : Option PipeEnd
  held : List PipeEnd
deriving DecidableEq

/-- How the loop is left. -/
inductive Leaving
  /-- `return 1` after a failed `pipe` or `fork`. -/
  | gaveUp
  /-- The wait for the children. -/
  | waits
  /-- `return 0` without a wait. -/
  | returns
deriving DecidableEq

/-- How the loop is left, and the pipe ends that are then open in the shell. -/
structure Left where
  why : Leaving
  held : List PipeEnd
deriving DecidableEq

/-- `if (fd != -1) close(fd);` -/
def closeFd (held : List PipeEnd) (fd : Option PipeEnd) : List PipeEnd :=
  match fd with
  | none => held
  | some e => held.erase e

/-- The ends that turn `i` creates. -/
def createdEnds (p : Pipeline) (i : Nat) : List PipeEnd :=
  if i + 1 < p.count then [.read i, .write i] else []

/-- The end of a turn in the shell, behind a `fork` that succeeded. -/
def Starting.next (p : Pipeline) (s : Starting) : Starting where
  i := s.i + 1
  prevFd := if s.i + 1 < p.count then some (.read s.i) else none
  held :=
    closeFd (closeFd (s.held ++ createdEnds p s.i) s.prevFd)
      (if s.i + 1 < p.count then some (.write s.i) else none)

/-- A turn of the loop, or the step behind its end. -/
def descriptorTurn (p : Pipeline) (pipe fork : Nat → Bool) (s : Starting) :
    Turn Starting Left :=
  if s.i < p.count then
    if (p.commands s.i).argc = 0 then .next { s with i := s.i + 1 }
    else if s.i + 1 < p.count ∧ pipe s.i = false then .done ⟨.gaveUp, s.held⟩
    else if fork s.i = false then .done ⟨.gaveUp, s.held ++ createdEnds p s.i⟩
    else .next (s.next p)
  else if (p.commands 0).background then .done ⟨.returns, s.held⟩
  else .done ⟨.waits, s.held⟩

/-- `execute_pipeline` up to the wait, with what `pipe` and `fork` return in each turn, and
what the handler returns of a single registered command; none when the loop has not ended
within `fuel` turns. -/
def startPipeline
    (fuel : Nat) (p : Pipeline) (builtin : Option Int) (pipe fork : Nat → Bool) :
    Option Left :=
  match entryPhase p builtin with
  | .starting i => iterate (descriptorTurn p pipe fork) fuel ⟨i, none, []⟩
  | _ => some ⟨.returns, []⟩

end Model

section Specification

variable (p : Pipeline) (pipe fork : Nat → Bool)

/-- Segment `i` has a command. -/
def Busy (i : Nat) : Prop :=
  i < p.count ∧ (p.commands i).argc ≠ 0

/-- The calls for segment `i` succeed. -/
def Starts (i : Nat) : Prop :=
  (i + 1 < p.count → pipe i = true) ∧ fork i = true

/-- The segment is the first one whose command is not started. -/
def FirstFailure (i : Nat) : Prop :=
  Busy p i ∧ ¬ Starts p pipe fork i ∧ ∀ j < i, Busy p j → Starts p pipe fork j

/-- Where a call fails, no segment in front has a command, and it was not the `fork` behind a
new pipe; and where none fails, the last segment has a command, or no segment has one. -/
structure ClosesAll : Prop where
  failed : ∀ i, FirstFailure p pipe fork i →
    (∀ j < i, ¬ Busy p j) ∧ (i + 1 < p.count → pipe i = false)
  started : (∀ i, Busy p i → Starts p pipe fork i) →
    Busy p (p.count - 1) ∨ ∀ i, ¬ Busy p i

end Specification

section Invariant

variable {p : Pipeline} {pipe fork : Nat → Bool} {s s' : Starting}

/-- What the loop keeps.  The read end that is left over from the last command is the one
descriptor that the shell holds. -/
structure DescriptorInv (p : Pipeline) (pipe fork : Nat → Bool) (s : Starting) : Prop where
  inside : s.i ≤ p.count
  started : ∀ j < s.i, Busy p j → Starts p pipe fork j
  held : s.held = s.prevFd.toList
  prevFd : s.prevFd = none ↔
    (∀ j < s.i, ¬ Busy p j) ∨ (s.i = p.count ∧ Busy p (p.count - 1))

theorem descriptorInv_start : DescriptorInv p pipe fork ⟨0, none, []⟩ where
  inside := Nat.zero_le _
  started := by simp
  held := rfl
  prevFd := by simp

/-- A started command leaves the read end of its pipe. -/
theorem closeFd_started
    (prevFd : Option PipeEnd) (i : Nat) :
    closeFd
        (closeFd (prevFd.toList ++ createdEnds p i) prevFd)
        (if i + 1 < p.count then some (.write i) else none) =
      (if i + 1 < p.count then some (PipeEnd.read i) else none).toList := by
  have hprev : closeFd (prevFd.toList ++ createdEnds p i) prevFd = createdEnds p i := by
    cases prevFd with
    | none => rfl
    | some e => simp [closeFd]
  rw [hprev, createdEnds]
  split_ifs <;> simp [closeFd]

/-- A turn for a segment without a command. -/
theorem descriptorInv_skip
    (h : DescriptorInv p pipe fork s)
    (hlt : s.i < p.count)
    (hidle : ¬ Busy p s.i) :
    DescriptorInv p pipe fork { s with i := s.i + 1 } := by
  refine ⟨hlt, ?_, h.held, ?_⟩
  · rw [Nat.forall_lt_succ_right]
    exact ⟨h.started, fun hbusy => absurd hbusy hidle⟩
  · simp only
    rw [h.prevFd, Nat.forall_lt_succ_right, and_iff_left hidle]
    refine or_congr_right ⟨fun hend => absurd hend.1 hlt.ne, fun hend => ?_⟩
    have hlast : p.count - 1 = s.i := by omega
    exact absurd (hlast ▸ hend.2) hidle

/-- A turn that starts a command. -/
theorem descriptorInv_command
    (h : DescriptorInv p pipe fork s)
    (hbusy : Busy p s.i)
    (hstarts : Starts p pipe fork s.i) :
    DescriptorInv p pipe fork (s.next p) := by
  refine ⟨hbusy.1, ?_, ?_, ?_⟩
  · simp only [Starting.next]
    rw [Nat.forall_lt_succ_right]
    exact ⟨h.started, fun _ => hstarts⟩
  · rw [Starting.next, h.held]
    exact closeFd_started s.prevFd s.i
  · have hself : ¬ ∀ j < s.i + 1, ¬ Busy p j :=
      fun hnone => hnone s.i (Nat.lt_succ_self _) hbusy
    simp only [Starting.next, hself, false_or]
    by_cases hmore : s.i + 1 < p.count
    · simp [hmore, hmore.ne]
    · have hlt := hbusy.1
      have hend : s.i + 1 = p.count := by omega
      have hlast : p.count - 1 = s.i := by omega
      simp [hend, hlast, hbusy]

theorem descriptorInv_next
    (s s' : Starting)
    (h : DescriptorInv p pipe fork s)
    (hturn : descriptorTurn p pipe fork s = .next s') :
    DescriptorInv p pipe fork s' := by
  unfold descriptorTurn at hturn
  split_ifs at hturn with hlt hempty hpipe hfork
  · obtain rfl := Turn.next.inj hturn
    exact descriptorInv_skip h hlt fun hbusy => hbusy.2 hempty
  · obtain rfl := Turn.next.inj hturn
    refine descriptorInv_command h ⟨hlt, hempty⟩ ⟨fun hmore => ?_, by simpa using hfork⟩
    by_contra hcall
    exact hpipe ⟨hmore, by simpa using hcall⟩

/-- Each turn brings the loop nearer to its end. -/
theorem descriptorTurn_lower
    (s s' : Starting)
    (hturn : descriptorTurn p pipe fork s = .next s') :
    p.count - s'.i < p.count - s.i := by
  unfold descriptorTurn at hturn
  split_ifs at hturn with hlt
  · obtain rfl := Turn.next.inj hturn
    simp only
    omega
  · obtain rfl := Turn.next.inj hturn
    simp only [Starting.next]
    omega

/-- Under the invariant, nothing is held when there is no read end left over. -/
theorem held_eq_nil_iff
    (h : DescriptorInv p pipe fork s) :
    s.held = [] ↔ s.prevFd = none := by
  rw [h.held]
  cases s.prevFd <;> simp

/-- A state in which a call fails is at the first segment that is not started. -/
theorem firstFailure_of_inv
    (h : DescriptorInv p pipe fork s)
    (hlt : s.i < p.count)
    (hcommand : (p.commands s.i).argc ≠ 0)
    (hfail : ¬ Starts p pipe fork s.i) :
    FirstFailure p pipe fork s.i :=
  ⟨⟨hlt, hcommand⟩, hfail, h.started⟩

theorem firstFailure_unique
    {i j : Nat}
    (hi : FirstFailure p pipe fork i)
    (hj : FirstFailure p pipe fork j) :
    i = j := by
  rcases Nat.lt_trichotomy i j with hlt | heq | hlt
  · exact absurd (hj.2.2 i hlt hi.1) hi.2.1
  · exact heq
  · exact absurd (hi.2.2 j hlt hj.1) hj.2.1

/-- With a call that fails, the pipeline closes everything when nothing was created. -/
theorem closesAll_of_failure
    {i : Nat}
    (hfirst : FirstFailure p pipe fork i) :
    ClosesAll p pipe fork ↔
      (∀ j < i, ¬ Busy p j) ∧ (i + 1 < p.count → pipe i = false) := by
  constructor
  · exact fun h => h.failed i hfirst
  · intro h
    refine ⟨fun j hj => ?_, fun hall => absurd (hall i hfirst.1) hfirst.2.1⟩
    obtain rfl := firstFailure_unique hfirst hj
    exact h

/-- With no call that fails, the last segment decides. -/
theorem closesAll_of_started
    (hall : ∀ i, Busy p i → Starts p pipe fork i) :
    ClosesAll p pipe fork ↔ Busy p (p.count - 1) ∨ ∀ i, ¬ Busy p i := by
  constructor
  · exact fun h => h.started hall
  · exact fun h => ⟨fun j hj => absurd (hall j hj.1) hj.2.1, fun _ => h⟩

/-- In front of a segment, nothing is held exactly when no command was started. -/
theorem held_inside_iff
    (h : DescriptorInv p pipe fork s)
    (hlt : s.i < p.count) :
    s.held = [] ↔ ∀ j < s.i, ¬ Busy p j := by
  rw [held_eq_nil_iff h, h.prevFd]
  have hne : s.i ≠ p.count := hlt.ne
  simp [hne]

/-- Behind the last segment, nothing is held exactly when the pipeline closes everything. -/
theorem held_end_iff
    (h : DescriptorInv p pipe fork s)
    (hend : ¬ s.i < p.count) :
    s.held = [] ↔ ClosesAll p pipe fork := by
  have heq : s.i = p.count := Nat.le_antisymm h.inside (Nat.not_lt.mp hend)
  have hall : ∀ i, Busy p i → Starts p pipe fork i :=
    fun i hi => h.started i (heq ▸ hi.1) hi
  have hidle : (∀ j < s.i, ¬ Busy p j) ↔ ∀ i, ¬ Busy p i := by
    rw [heq]
    exact ⟨fun hnone i hi => hnone i hi.1 hi, fun hnone i _ => hnone i⟩
  rw [held_eq_nil_iff h, h.prevFd, closesAll_of_started hall, hidle]
  simp only [heq, true_and]
  exact or_comm

/-- In the last turn, nothing is held exactly when the pipeline closes everything. -/
theorem held_done_iff
    {left : Left}
    (h : DescriptorInv p pipe fork s)
    (hturn : descriptorTurn p pipe fork s = .done left) :
    left.held = [] ↔ ClosesAll p pipe fork := by
  unfold descriptorTurn at hturn
  split_ifs at hturn with hlt hempty hpipe hfork hbg
  · -- `pipe` failed: what is open was open in front of the turn
    obtain rfl := Turn.done.inj hturn
    have hfail : ¬ Starts p pipe fork s.i := by
      intro hstarts
      have hcall := hstarts.1 hpipe.1
      rw [hpipe.2] at hcall
      cases hcall
    rw [closesAll_of_failure (firstFailure_of_inv h hlt hempty hfail)]
    rw [held_inside_iff h hlt]
    simp [hpipe.2]
  · -- `fork` failed: the ends of the new pipe are open as well
    obtain rfl := Turn.done.inj hturn
    have hfail : ¬ Starts p pipe fork s.i := by
      intro hstarts
      rw [hstarts.2] at hfork
      cases hfork
    rw [closesAll_of_failure (firstFailure_of_inv h hlt hempty hfail)]
    rw [List.append_eq_nil_iff, held_inside_iff h hlt, createdEnds]
    refine and_congr_right fun _ => ?_
    by_cases hmore : s.i + 1 < p.count
    · have hcreated : pipe s.i ≠ false := fun hcall => hpipe ⟨hmore, hcall⟩
      simp [hmore, hcreated]
    · simp [hmore]
  · obtain rfl := Turn.done.inj hturn
    exact held_end_iff h hlt
  · obtain rfl := Turn.done.inj hturn
    exact held_end_iff h hlt

/-- A pipeline of at most one segment closes everything. -/
theorem closesAll_of_single
    (p : Pipeline) (pipe fork : Nat → Bool)
    (hsingle : p.count ≤ 1) :
    ClosesAll p pipe fork := by
  have hfirst : ∀ i, Busy p i → i = 0 := by
    intro i hi
    have hlt := hi.1
    omega
  refine ⟨fun i hi => ?_, fun _ => ?_⟩
  · obtain rfl := hfirst i hi.1
    exact ⟨by simp, fun hmore => absurd hmore (by omega)⟩
  · by_cases hbusy : Busy p 0
    · have hzero : p.count - 1 = 0 := by omega
      exact .inl (hzero ▸ hbusy)
    · exact .inr fun i hi => hbusy (hfirst i hi ▸ hi)

/-- The loop is entered, or the pipeline has at most one segment and nothing is started. -/
theorem entryPhase_cases
    (p : Pipeline) (builtin : Option Int) :
    entryPhase p builtin = .starting 0 ∨
      (p.count ≤ 1 ∧ ∃ value, entryPhase p builtin = .returned value) := by
  unfold entryPhase
  cases builtin with
  | none =>
      split_ifs with hnone hempty hone
      · exact .inr ⟨by omega, _, rfl⟩
      · exact .inr ⟨by omega, _, rfl⟩
      · exact .inl rfl
      · exact .inl rfl
  | some value =>
      simp only
      split_ifs with hnone hempty hone
      · exact .inr ⟨by omega, _, rfl⟩
      · exact .inr ⟨by omega, _, rfl⟩
      · exact .inr ⟨by omega, _, rfl⟩
      · exact .inl rfl

/-- Where the loop is left, nothing is held exactly when the pipeline closes everything. -/
theorem held_startPipeline_iff
    (fuel : Nat) (p : Pipeline) (builtin : Option Int) (pipe fork : Nat → Bool) (left : Left)
    (hrun : startPipeline fuel p builtin pipe fork = some left) :
    left.held = [] ↔ ClosesAll p pipe fork := by
  unfold startPipeline at hrun
  rcases entryPhase_cases p builtin with hentry | ⟨hsingle, value, hentry⟩
  · rw [hentry] at hrun
    obtain ⟨s, hinv, hdone⟩ :=
      iterate_invariant (DescriptorInv p pipe fork) (fun s s' => descriptorInv_next s s')
        descriptorInv_start hrun
    exact held_done_iff hinv hdone
  · rw [hentry] at hrun
    obtain rfl := Option.some.inj hrun
    exact ⟨fun _ => closesAll_of_single p pipe fork hsingle, fun _ => rfl⟩

/-- A fuel of one turn for each segment, and one for the end, is enough. -/
theorem startPipeline_returns
    (p : Pipeline) (builtin : Option Int) (pipe fork : Nat → Bool) :
    ∃ left, startPipeline (p.count + 1) p builtin pipe fork = some left := by
  unfold startPipeline
  rcases entryPhase_cases p builtin with hentry | ⟨-, value, hentry⟩
  · rw [hentry]
    exact iterate_terminates (fun s : Starting => p.count - s.i) descriptorTurn_lower
      (Nat.lt_succ_of_le (Nat.sub_le _ _))
  · rw [hentry]
    exact ⟨_, rfl⟩

/-- The turns are those of the shell among its children. -/
theorem startTurn_phase
    (p : Pipeline) (pipe fork : Nat → Bool) (s : Starting) (x : Execution) :
    (startTurn p x (pipe s.i) (fork s.i) s.i).phase =
      match descriptorTurn p pipe fork s with
      | .next s' => .starting s'.i
      | .done left =>
          match left.why with
          | .gaveUp => .gaveUp
          | .waits => .waiting 0 (some 0)
          | .returns => .returned (some 0) := by
  unfold startTurn descriptorTurn
  split_ifs <;> rfl

end Invariant

/-- For every pipeline and all results of the calls, the shell holds none of the pipe ends that
it created, where it starts to wait and where it returns, exactly when the pipeline closes
everything. -/
theorem holds_no_pipe_iff
    (p : Pipeline) (builtin : Option Int) (pipe fork : Nat → Bool) :
    ∃ left,
      startPipeline (p.count + 1) p builtin pipe fork = some left ∧
        (left.held = [] ↔ ClosesAll p pipe fork) := by
  obtain ⟨left, hleft⟩ := startPipeline_returns p builtin pipe fork
  exact ⟨left, hleft, held_startPipeline_iff _ p builtin pipe fork left hleft⟩

/-- While the shell waits for the writer of `cat |`, it holds the read end of its pipe. -/
theorem trailing_bar_keeps_read_end :
    ∃ left,
      startPipeline 3 (parseLine (fun _ => none) (cstr (ascii "cat |"))) none
          (fun _ => true) (fun _ => true) = some left ∧
        left.why = .waits ∧
        ¬ left.held = [] :=
  ⟨⟨.waits, [.read 0]⟩, by decide +kernel, rfl, by decide⟩

end Shell
end SecureZ
