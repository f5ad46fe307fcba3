import Mathlib.Tactic.SplitIfs

/-!
# The status of a process that has ended

A process ends with an exit code or by a signal.  `waitpid` stores both in one integer, and the
macros `WIFEXITED` and `WEXITSTATUS` take it apart.
-/

namespace CLib

section Statuses

/-- A signal that ends a process. -/
abbrev Signal := { n : Nat // 0 < n ∧ n < 127 }

/-- How a process ended. -/
inductive Ending
  | exited (code : UInt8)
  | killed (signal : Signal) (core : Bool)
deriving DecidableEq

/-- The status that `waitpid` stores. -/
def Ending.status : Ending → Nat
  | .exited code => 256 * code.toNat
  | .killed signal core => signal.val + if core then 128 else 0

/-- `WIFEXITED`. -/
def wifexited (status : Nat) : Bool :=
  status % 128 = 0

/-- `WEXITSTATUS`. -/
def wexitstatus (status : Nat) : Nat :=
  status / 256 % 256

/-- The exit status of a process, 1 if it did not exit normally. -/
def Ending.value : Ending → Int
  | .exited code => code.toNat
  | .killed _ _ => 1

end Statuses

section Macros

@[simp] theorem wifexited_exited
    (code : UInt8) :
    wifexited (Ending.exited code).status = true := by
  have hnormal : 256 * code.toNat % 128 = 0 := by omega
  simp [wifexited, Ending.status, hnormal]

@[simp] theorem wexitstatus_exited
    (code : UInt8) :
    wexitstatus (Ending.exited code).status = code.toNat := by
  have hlt := code.toNat_lt
  simp only [wexitstatus, Ending.status]
  omega

@[simp] theorem wifexited_killed
    (signal : Signal) (core : Bool) :
    wifexited (Ending.killed signal core).status = false := by
  obtain ⟨n, hpos, hlt⟩ := signal
  have hsignal : ¬ (n + if core then 128 else 0) % 128 = 0 := by
    split_ifs <;> omega
  simp [wifexited, Ending.status, hsignal]

end Macros

end CLib
