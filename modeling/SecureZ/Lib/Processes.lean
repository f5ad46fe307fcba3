import Mathlib.Logic.Function.Basic
import Mathlib.Data.Option.Basic
import Mathlib.Tactic.SplitIfs

/-!
# Processes and their pids

The processes of a system, by pid.  A process keeps its pid when it has ended, until its parent
has waited for it; only then can the pid be given to another process.  What a signal meets is
whoever has the pid.

The rules say who has a pid behind each call: a wait takes it away, a start gives out one that
nobody has, and nothing else touches it.  A process that was killed runs no more.
-/

namespace Processes

universe u

inductive Status
  | running
  /-- It was killed, and has not ended yet. -/
  | dying
  /-- It has ended, and was not waited for. -/
  | dead
deriving DecidableEq

structure Process (ι : Type u) where
  owner : ι
  status : Status
deriving DecidableEq

abbrev ProcessTable (ι : Type u) := Int → Option (Process ι)

section Calls

variable {ι : Type u}

/-- Who has a pid. -/
def ownerOf (t : ProcessTable ι) (pid : Int) : Option ι :=
  (t pid).map Process.owner

/-- A process starts with a pid that nobody has. -/
def start (t : ProcessTable ι) (pid : Int) (owner : ι) : Option (ProcessTable ι) :=
  if 0 < pid ∧ (t pid).isNone then
    some (Function.update t pid (some ⟨owner, .running⟩))
  else none

/-- A process ends. -/
def exit (t : ProcessTable ι) (pid : Int) : ProcessTable ι :=
  Function.update t pid ((t pid).map fun p => { p with status := .dead })

/-- A process that is killed. -/
def Process.killed (p : Process ι) : Process ι :=
  { p with status := if p.status = .dead then .dead else .dying }

/-- `kill(pid, SIGKILL)`. -/
def kill (t : ProcessTable ι) (pid : Int) : ProcessTable ι :=
  Function.update t pid ((t pid).map Process.killed)

/-- `waitpid(pid, NULL, WNOHANG)`: whether a child that has ended is taken out of the table. -/
def waitNoHang (isChild : ι → Bool) (t : ProcessTable ι) (pid : Int) :
    ProcessTable ι × Bool :=
  match t pid with
  | some ⟨owner, .dead⟩ => if isChild owner then (Function.update t pid none, true) else (t, false)
  | _ => (t, false)

end Calls

section Rules

variable {ι : Type u} {t t' : ProcessTable ι} {pid q : Int} {owner : ι} {isChild : ι → Bool}

/-- The end of a process takes no pid away. -/
@[simp] theorem ownerOf_exit
    (t : ProcessTable ι) (pid q : Int) :
    ownerOf (exit t pid) q = ownerOf t q := by
  by_cases h : q = pid
  · subst h
    simp [ownerOf, exit, Function.comp_def]
  · simp [ownerOf, exit, h]

/-- Nor does a signal. -/
@[simp] theorem ownerOf_kill
    (t : ProcessTable ι) (pid q : Int) :
    ownerOf (kill t pid) q = ownerOf t q := by
  by_cases h : q = pid
  · subst h
    simp [ownerOf, kill, Function.comp_def, Process.killed]
  · simp [ownerOf, kill, h]

/-- A process starts with a pid that nobody has had. -/
theorem start_eq_some
    (h : start t pid owner = some t') :
    0 < pid ∧ t pid = none ∧ t' = Function.update t pid (some ⟨owner, .running⟩) := by
  unfold start at h
  split_ifs at h with hfree
  exact ⟨hfree.1, Option.isNone_iff_eq_none.mp hfree.2, (Option.some.inj h).symm⟩

theorem ownerOf_start
    (h : start t pid owner = some t')
    (q : Int) :
    ownerOf t' q = if q = pid then some owner else ownerOf t q := by
  obtain ⟨-, -, rfl⟩ := start_eq_some h
  by_cases hq : q = pid
  · subst hq
    simp [ownerOf]
  · simp [ownerOf, hq]

/-- Whoever had a pid keeps it. -/
theorem ownerOf_start_of_taken
    (h : start t pid owner = some t')
    (htaken : (ownerOf t q).isSome) :
    ownerOf t' q = ownerOf t q := by
  obtain ⟨-, hfree, -⟩ := start_eq_some h
  rw [ownerOf_start h, if_neg]
  rintro rfl
  simp [ownerOf, hfree] at htaken

/-- A wait that finds no child to take changes nothing; the other kind takes a dead one. -/
theorem waitNoHang_cases
    (isChild : ι → Bool) (t : ProcessTable ι) (pid : Int) :
    waitNoHang isChild t pid = (t, false) ∨
      ∃ owner, isChild owner = true ∧ t pid = some ⟨owner, .dead⟩ ∧
        waitNoHang isChild t pid = (Function.update t pid none, true) := by
  unfold waitNoHang
  split
  · next owner hdead =>
      split_ifs with hchild
      · exact Or.inr ⟨owner, hchild, hdead, rfl⟩
      · exact Or.inl rfl
  · exact Or.inl rfl

/-- A wait that says so has taken a dead child out of the table. -/
theorem waitNoHang_reaped
    (h : (waitNoHang isChild t pid).2 = true) :
    ∃ owner, isChild owner = true ∧ t pid = some ⟨owner, .dead⟩ ∧
      (waitNoHang isChild t pid).1 = Function.update t pid none := by
  rcases waitNoHang_cases isChild t pid with hsame | ⟨owner, hchild, hdead, htaken⟩
  · rw [hsame] at h
    cases h
  · exact ⟨owner, hchild, hdead, by rw [htaken]⟩

/-- A process that is taken out leaves the others their pids. -/
theorem ownerOf_of_remove
    (h : ownerOf (Function.update t pid none) q = some owner) :
    q ≠ pid ∧ ownerOf t q = some owner := by
  by_cases hq : q = pid
  · subst hq
    simp [ownerOf] at h
  · simp only [ownerOf, Function.update_of_ne hq] at h
    exact ⟨hq, h⟩

theorem running_of_remove
    (h : Function.update t pid none q = some ⟨owner, .running⟩) :
    q ≠ pid ∧ t q = some ⟨owner, .running⟩ := by
  by_cases hq : q = pid
  · subst hq
    simp at h
  · rw [Function.update_of_ne hq] at h
    exact ⟨hq, h⟩

/-- A process that runs behind a start is the new one, or has run before. -/
theorem running_of_start
    {owner' : ι}
    (h : start t pid owner = some t')
    (hrun : t' q = some ⟨owner', .running⟩) :
    (q = pid ∧ owner' = owner) ∨ (q ≠ pid ∧ t q = some ⟨owner', .running⟩) := by
  obtain ⟨-, -, rfl⟩ := start_eq_some h
  by_cases hq : q = pid
  · subst hq
    rw [Function.update_self, Option.some.injEq] at hrun
    exact Or.inl ⟨rfl, (congrArg Process.owner hrun).symm⟩
  · rw [Function.update_of_ne hq] at hrun
    exact Or.inr ⟨hq, hrun⟩

/-- A process that runs behind the end of one has run before it. -/
theorem running_of_exit
    (h : exit t pid q = some ⟨owner, .running⟩) :
    t q = some ⟨owner, .running⟩ := by
  unfold exit at h
  by_cases hq : q = pid
  · subst hq
    simp only [Function.update_self, Option.map_eq_some_iff] at h
    obtain ⟨p, -, hp⟩ := h
    cases hp
  · rwa [Function.update_of_ne hq] at h

/-- A process that runs behind a `SIGKILL` is another one, and has run before. -/
theorem running_of_kill
    (h : kill t pid q = some ⟨owner, .running⟩) :
    q ≠ pid ∧ t q = some ⟨owner, .running⟩ := by
  unfold kill at h
  by_cases hq : q = pid
  · subst hq
    simp only [Function.update_self, Option.map_eq_some_iff] at h
    obtain ⟨p, -, hp⟩ := h
    have hstatus := congrArg Process.status hp
    simp only [Process.killed] at hstatus
    split_ifs at hstatus
  · rw [Function.update_of_ne hq] at h
    exact ⟨hq, h⟩

end Rules

end Processes
