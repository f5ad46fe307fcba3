import SecureZ.Lib.Paths
import SecureZ.Lib.WaitStatus
import SecureZ.Engine.HiddenContainer

/-!
# Creating a container

`container_create` fills the vault with `dd`, lets `cryptsetup luksFormat` write the detached
header, opens the container, makes a file system on it and closes it again.  Each error path
removes what it knows of; the steps that only warn, and the ones nobody looks at, leave
something behind.

The main result is about every combination of outcomes of the steps: it says exactly when the
call is all or nothing.  Files are kept by location, so that different paths of one file are
the same file.
-/

namespace SecureZ
namespace Container

open CLib

section Storage

/-- What the calls change: the files, and the names under `/dev/mapper`. -/
structure Storage where
  files : Location → Option Bytes
  mapped : CString → Bool

/-- The file at a place is what a program left there, none for nothing. -/
def Storage.put (s : Storage) (place : Location) (content : Option Bytes) : Storage :=
  { s with files := Function.update s.files place content }

/-- `unlink`. -/
def Storage.unlink (s : Storage) (place : Location) : Storage :=
  s.put place none

/-- A mapping is opened or closed. -/
def Storage.setMapped (s : Storage) (mapper : CString) (active : Bool) : Storage :=
  { s with mapped := Function.update s.mapped mapper active }

/-- Where the vault of a container is. -/
def vaultPlace (cwd : Location) (base name : CString) : Location :=
  location cwd (vaultPath base name).text.bytes

/-- Where the header of a container is. -/
def headerPlace (cwd : Location) (base name : CString) : Location :=
  location cwd (headerPath base name).text.bytes

end Storage

section Model

/-- `run_command`: the exit status of the command, none for a `fork` that fails. -/
def runCommand : Option Ending → Int
  | none => -1
  | some e => if wifexited e.status then wexitstatus e.status else -1

/-- `WIFEXITED(status) && WEXITSTATUS(status) == 0`. -/
def exitedZero (status : Nat) : Bool :=
  wifexited status && wexitstatus status == 0

/-- What the external steps of `container_create` come back with.  A command that could not
be executed has exited with 127; none stands for a `fork` that fails. -/
structure CreateSteps where
  dd : Option Ending
  /-- What is at the vault path after `dd` ran. -/
  vault : Option Bytes
  pipeFormat : Bool
  luksFormat : Option Ending
  /-- What is at the header path after `luksFormat` ran. -/
  header : Option Bytes
  pipeOpen : Bool
  cryptsetupOpen : Option Ending
  /-- The mapping is there although `cryptsetup open` was killed or reports a failure. -/
  strayMapping : Bool
  /-- The child that `waitpid(-1)` finds, none when there is no child. -/
  otherChild : Option Ending
  mkfs : Option Ending
  cryptsetupClose : Option Ending

/-- The end of `container_create`.  The results of `mkfs.ext4` and of `cryptsetup close` are
not looked at. -/
def createFinish (steps : CreateSteps) (mapper : CString) (s : Storage) : Int × Storage :=
  (0, if runCommand steps.cryptsetupClose = 0 then s.setMapped mapper false else s)

/-- The mappings after the second child. -/
def afterOpen (steps : CreateSteps) (mapper : CString) (s : Storage) : Storage :=
  match steps.cryptsetupOpen with
  | none => s
  | some e =>
      if exitedZero e.status || steps.strayMapping then s.setMapped mapper true else s

/-- `status` after the second `waitpid`.  When `fork` failed its argument is -1, for any
child; when there is none, the status of the first child is still there. -/
def openStatus (steps : CreateSteps) (status : Nat) : Nat :=
  match steps.cryptsetupOpen with
  | some e => e.status
  | none => (steps.otherChild.map Ending.status).getD status

/-- `container_create` from the second `pipe` on.  Without a child the password goes to a pipe
that nobody reads; the daemon ignores `SIGPIPE`, and the result of `write` is not looked at. -/
def createOpen
    (steps : CreateSteps) (vault header : Location) (mapper : CString) (status : Nat)
    (s : Storage) : Int × Storage :=
  if steps.pipeOpen = false then (-1, (s.unlink vault).unlink header)
  else if exitedZero (openStatus steps status) = false then
    (-1, ((afterOpen steps mapper s).unlink vault).unlink header)
  else createFinish steps mapper (afterOpen steps mapper s)

/-- `container_create` from the first `pipe` on. -/
def createFormat
    (steps : CreateSteps) (vault header : Location) (mapper : CString) (s : Storage) :
    Int × Storage :=
  if steps.pipeFormat = false then (-1, s.unlink vault)
  else
    match steps.luksFormat with
    | none => (-1, s.unlink vault)
    | some e =>
        if exitedZero e.status = false then
          (-1, ((s.put header steps.header).unlink vault).unlink header)
        else createOpen steps vault header mapper e.status (s.put header steps.header)

/-- The storage after `dd`. -/
def afterDd (steps : CreateSteps) (vault : Location) (s : Storage) : Storage :=
  if steps.dd.isSome then s.put vault steps.vault else s

/-- The arguments pass the checks of `container_create`. -/
def Accepted (name : CString) (sizeMb : Nat) (password : Option CString) : Prop :=
  password.isSome ∧ sizeMb ≠ 0 ∧ name.strlen < containerNameMax

instance (name : CString) (sizeMb : Nat) (password : Option CString) :
    Decidable (Accepted name sizeMb password) :=
  inferInstanceAs (Decidable (_ ∧ _ ∧ _))

/--
`container_create`.  What `chmod` sets at the end is left out, and the password only matters
for the outcomes of the children that read it.
-/
def containerCreate
    (cwd : Location) (base : CString) (name : Option CString) (sizeMb : Nat)
    (password : Option CString) (steps : CreateSteps) (s : Storage) : Int × Storage :=
  match name with
  | none => (-1, s)
  | some name =>
      if ¬ Accepted name sizeMb password then (-1, s)
      else if (s.files (vaultPlace cwd base name)).isSome then (-1, s)
      else if runCommand steps.dd ≠ 0 then
        (-1, afterDd steps (vaultPlace cwd base name) s)
      else
        createFormat steps (vaultPlace cwd base name) (headerPlace cwd base name)
          (mapperName name).text (afterDd steps (vaultPlace cwd base name) s)

end Model

section Specification

/-- Every external step succeeds. -/
structure CreateSteps.AllSucceed (steps : CreateSteps) : Prop where
  dd : steps.dd = some (.exited 0)
  pipeFormat : steps.pipeFormat = true
  luksFormat : steps.luksFormat = some (.exited 0)
  pipeOpen : steps.pipeOpen = true
  cryptsetupOpen : steps.cryptsetupOpen = some (.exited 0)
  mkfs : steps.mkfs = some (.exited 0)
  cryptsetupClose : steps.cryptsetupClose = some (.exited 0)

/-- All or nothing: 0 only if every step succeeded, and after -1 neither file is there and
no mapping is open that was not open before. -/
structure AllOrNothing
    (steps : CreateSteps) (vault header : Location) (mapper : CString) (before : Storage)
    (result : Int × Storage) : Prop where
  succeeded : result.1 = 0 → steps.AllSucceed
  undone :
    result.1 = -1 →
      result.2.files vault = none ∧ result.2.files header = none ∧
        (result.2.mapped mapper = true → before.mapped mapper = true)

/-- The condition on the second child: where `fork` failed, `waitpid` finds another child
that did not end well; where `cryptsetup open` failed, it left no mapping; where it succeeded,
so do `mkfs.ext4` and `cryptsetup close`. -/
def OpenHandled (steps : CreateSteps) (mapped : Bool) : Prop :=
  match steps.cryptsetupOpen with
  | none => ∃ e ∈ steps.otherChild, e ≠ .exited 0
  | some (.exited 0) =>
      steps.mkfs = some (.exited 0) ∧ steps.cryptsetupClose = some (.exited 0)
  | some _ => steps.strayMapping = true → mapped = true

/-- The condition on the steps: a `dd` that ran and failed left no file, and if the call gets
to the second child, what happens there is handled. -/
structure StepsHandled (steps : CreateSteps) (mapped : Bool) : Prop where
  dd : ∀ e ∈ steps.dd, e ≠ .exited 0 → steps.vault = none
  opened :
    steps.dd = some (.exited 0) → steps.pipeFormat = true →
    steps.luksFormat = some (.exited 0) → steps.pipeOpen = true →
      OpenHandled steps mapped

end Specification

section Statuses

/-- The macros see a clean exit exactly where there was one. -/
theorem exitedZero_iff
    {e : Ending} :
    exitedZero e.status = true ↔ e = .exited 0 := by
  cases e with
  | exited code => simp [exitedZero, ← UInt8.toNat_inj]
  | killed signal core => simp [exitedZero]

theorem exitedZero_eq_false_iff
    {e : Ending} :
    exitedZero e.status = false ↔ e ≠ .exited 0 := by
  rw [← Bool.not_eq_true, exitedZero_iff]

/-- `run_command` returns 0 exactly for a command that ran and exited with 0. -/
theorem runCommand_eq_zero_iff
    {r : Option Ending} :
    runCommand r = 0 ↔ r = some (.exited 0) := by
  cases r with
  | none => simp [runCommand]
  | some e =>
      rw [Option.some_inj, ← exitedZero_iff]
      cases hexit : wifexited e.status <;> simp [runCommand, exitedZero, hexit]

end Statuses

section Phases

variable {steps : CreateSteps} {vault header : Location} {mapper : CString}
  {before s : Storage}

/-- After both files are removed, neither is there, and the mappings are as before. -/
theorem files_unlinked
    (s : Storage) (vault header : Location) :
    ((s.unlink vault).unlink header).files vault = none ∧
      ((s.unlink vault).unlink header).files header = none := by
  simp [Storage.unlink, Storage.put, Function.update_apply]

/-- A call that failed has to have left nothing. -/
theorem allOrNothing_failed_iff :
    AllOrNothing steps vault header mapper before (-1, s)
      ↔
    s.files vault = none ∧ s.files header = none ∧
      (s.mapped mapper = true → before.mapped mapper = true) := by
  constructor
  · intro h
    exact h.undone rfl
  · intro h
    exact ⟨fun hzero : (-1 : Int) = 0 => absurd hzero (by decide), fun _ => h⟩

/-- A call that returned 0 has to have had no failing step. -/
theorem allOrNothing_done_iff :
    AllOrNothing steps vault header mapper before (0, s) ↔ steps.AllSucceed := by
  constructor
  · intro h
    exact h.succeeded rfl
  · intro h
    exact ⟨fun _ => h, fun hfailed : (0 : Int) = -1 => absurd hfailed (by decide)⟩

/-- A failed call that removed both files is judged by its mapping. -/
theorem allOrNothing_unlinked_iff :
    AllOrNothing steps vault header mapper before (-1, (s.unlink vault).unlink header)
      ↔
    (s.mapped mapper = true → before.mapped mapper = true) := by
  obtain ⟨hvault, hheader⟩ := files_unlinked s vault header
  rw [allOrNothing_failed_iff, and_iff_right hvault, and_iff_right hheader]
  rfl

/-- Where the second child is taken to have failed, all that can be left is a mapping. -/
theorem mapping_handled_iff
    (hmapped : s.mapped = before.mapped)
    (hstatus : exitedZero (openStatus steps (Ending.exited 0).status) = false) :
    ((afterOpen steps mapper s).mapped mapper = true → before.mapped mapper = true)
      ↔
    OpenHandled steps (before.mapped mapper) := by
  rcases hopen : steps.cryptsetupOpen with _ | e
  · rw [openStatus, hopen] at hstatus
    simp only [afterOpen, OpenHandled, hopen, hmapped]
    rcases hother : steps.otherChild with _ | e
    · rw [hother] at hstatus
      exact absurd hstatus (by decide)
    · rw [hother] at hstatus
      have hne : e ≠ .exited 0 := exitedZero_eq_false_iff.mp hstatus
      simp [hne]
  · rw [openStatus, hopen] at hstatus
    have hne : e ≠ .exited 0 := exitedZero_eq_false_iff.mp hstatus
    have hhandled :
        OpenHandled steps (before.mapped mapper) ↔
          (steps.strayMapping = true → before.mapped mapper = true) := by
      unfold OpenHandled
      rw [hopen]
      split
      · contradiction
      · rename_i heq
        exact absurd (Option.some.inj heq) hne
      · rfl
    rw [hhandled, afterOpen, hopen]
    dsimp only at hstatus ⊢
    rw [hstatus, Bool.false_or]
    split_ifs with hstray
    · simp [Storage.setMapped, hstray]
    · simp [hmapped, hstray]

/-- Where it is taken to have succeeded, the call returns 0: it is right that it does when the
child was there and the last two steps succeed. -/
theorem allSucceed_handled_iff
    {mapped : Bool}
    (hdd : steps.dd = some (.exited 0)) (hpipe : steps.pipeFormat = true)
    (hformat : steps.luksFormat = some (.exited 0)) (hpipeOpen : steps.pipeOpen = true)
    (hstatus : exitedZero (openStatus steps (Ending.exited 0).status) = true) :
    steps.AllSucceed ↔ OpenHandled steps mapped := by
  rcases hopen : steps.cryptsetupOpen with _ | e
  · rw [openStatus, hopen] at hstatus
    constructor
    · intro h
      exact absurd (hopen.symm.trans h.cryptsetupOpen) (by simp)
    · intro h
      rw [OpenHandled, hopen] at h
      obtain ⟨e, he, hne⟩ := h
      rw [Option.mem_def.mp he] at hstatus
      exact absurd (exitedZero_iff.mp hstatus) hne
  · rw [openStatus, hopen] at hstatus
    obtain rfl := exitedZero_iff.mp hstatus
    simp only [OpenHandled, hopen]
    constructor
    · intro h
      exact ⟨h.mkfs, h.cryptsetupClose⟩
    · rintro ⟨hmkfs, hclose⟩
      exact ⟨hdd, hpipe, hformat, hpipeOpen, hopen, hmkfs, hclose⟩

/-- From the second `pipe` on, where everything before succeeded. -/
theorem createOpen_iff
    (hdd : steps.dd = some (.exited 0)) (hpipe : steps.pipeFormat = true)
    (hformat : steps.luksFormat = some (.exited 0))
    (hmapped : s.mapped = before.mapped) :
    AllOrNothing steps vault header mapper before
        (createOpen steps vault header mapper (Ending.exited 0).status s)
      ↔
    (steps.pipeOpen = true → OpenHandled steps (before.mapped mapper)) := by
  unfold createOpen
  split_ifs with hpipeOpen hstatus
  · rw [allOrNothing_unlinked_iff, hmapped]
    simp [hpipeOpen]
  · rw [Bool.not_eq_false] at hpipeOpen
    rw [allOrNothing_unlinked_iff, forall_prop_of_true hpipeOpen]
    exact mapping_handled_iff hmapped hstatus
  · rw [Bool.not_eq_false] at hpipeOpen hstatus
    rw [createFinish, allOrNothing_done_iff, forall_prop_of_true hpipeOpen]
    exact allSucceed_handled_iff hdd hpipe hformat hpipeOpen hstatus

/-- From the first `pipe` on, where `dd` succeeded and there was no header. -/
theorem createFormat_iff
    (hdd : steps.dd = some (.exited 0))
    (hheader : header ≠ vault → s.files header = none)
    (hmapped : s.mapped = before.mapped) :
    AllOrNothing steps vault header mapper before (createFormat steps vault header mapper s)
      ↔
    (steps.pipeFormat = true → steps.luksFormat = some (.exited 0) → steps.pipeOpen = true →
      OpenHandled steps (before.mapped mapper)) := by
  have hvaultOnly :
      AllOrNothing steps vault header mapper before (-1, s.unlink vault) := by
    rw [allOrNothing_failed_iff]
    refine ⟨by simp [Storage.unlink, Storage.put], ?_, fun h => hmapped ▸ h⟩
    by_cases heq : header = vault
    · simp [Storage.unlink, Storage.put, heq]
    · simpa [Storage.unlink, Storage.put, heq] using hheader heq
  unfold createFormat
  split_ifs with hpipe
  · simp [hpipe, hvaultOnly]
  rw [Bool.not_eq_false] at hpipe
  rcases hformat : steps.luksFormat with _ | e
  · simp [hvaultOnly]
  dsimp only
  split_ifs with hstatus
  · have hne : e ≠ .exited 0 := exitedZero_eq_false_iff.mp hstatus
    rw [allOrNothing_unlinked_iff]
    simp [hne, Storage.put, hmapped]
  · rw [Bool.not_eq_false] at hstatus
    obtain rfl := exitedZero_iff.mp hstatus
    have hput : (s.put header steps.header).mapped = before.mapped := hmapped
    rw [createOpen_iff hdd hpipe hformat hput]
    simp [hpipe]

end Phases

section Create

variable {steps : CreateSteps} {vault header : Location} {s : Storage} {mapped : Bool}

@[simp] theorem mapped_afterDd
    (steps : CreateSteps) (vault : Location) (s : Storage) :
    (afterDd steps vault s).mapped = s.mapped := by
  unfold afterDd
  split_ifs <;> rfl

/-- `dd` writes the vault and no other file. -/
theorem files_afterDd_of_ne
    (steps : CreateSteps) {place : Location}
    (h : place ≠ vault) :
    (afterDd steps vault s).files place = s.files place := by
  unfold afterDd
  split_ifs
  · simp [Storage.put, h]
  · rfl

/-- After a `dd` that failed nothing is cleaned up: neither file is there exactly when it left
none itself. -/
theorem dd_handled_iff
    (hne : steps.dd ≠ some (.exited 0))
    (hvault : s.files vault = none) (hheader : s.files header = none) :
    ((afterDd steps vault s).files vault = none ∧ (afterDd steps vault s).files header = none)
      ↔
    StepsHandled steps mapped := by
  rcases hdd : steps.dd with _ | e
  · have hleft : afterDd steps vault s = s := by simp [afterDd, hdd]
    rw [hleft]
    refine ⟨fun _ => ⟨?_, ?_⟩, fun _ => ⟨hvault, hheader⟩⟩ <;> simp [hdd]
  · have hleft : afterDd steps vault s = s.put vault steps.vault := by simp [afterDd, hdd]
    have hfailed : e ≠ .exited 0 := fun h => hne (hdd.trans (congrArg some h))
    rw [hleft]
    constructor
    · rintro ⟨hnone, -⟩
      refine ⟨fun _ _ _ => by simpa [Storage.put] using hnone, fun h => absurd h hne⟩
    · intro h
      have hnone := h.dd e (by rw [hdd]; rfl) hfailed
      by_cases heq : header = vault <;> simp [Storage.put, hnone, heq, hheader]

/--
**When creating a container is all or nothing.**  For every name without a vault or a header
file, every size and password, and every combination of outcomes of the external steps:
`container_create` returns 0 only if every step succeeded and leaves nothing behind when it
returns -1, exactly when its arguments are refused or its steps are handled: a `dd` that
failed left no file; a second `fork` that failed is noticed; a failed `cryptsetup open` left
no mapping; and behind a successful one `mkfs.ext4` and `cryptsetup close` succeed.
-/
theorem container_create_all_or_nothing_iff
    {cwd : Location} {base name : CString} {s : Storage}
    (hvault : s.files (vaultPlace cwd base name) = none)
    (hheader : s.files (headerPlace cwd base name) = none)
    (sizeMb : Nat) (password : Option CString) (steps : CreateSteps) :
    AllOrNothing steps (vaultPlace cwd base name) (headerPlace cwd base name)
        (mapperName name).text s
        (containerCreate cwd base (some name) sizeMb password steps s)
      ↔
    (Accepted name sizeMb password →
      StepsHandled steps (s.mapped (mapperName name).text)) := by
  unfold containerCreate
  dsimp only
  split_ifs with hargs hthere hdd
  · rw [hvault] at hthere
    cases hthere
  · have hne : steps.dd ≠ some (.exited 0) := fun h => hdd (runCommand_eq_zero_iff.mpr h)
    rw [forall_prop_of_true hargs, allOrNothing_failed_iff, ← dd_handled_iff hne hvault hheader]
    exact ⟨fun h => ⟨h.1, h.2.1⟩, fun h => ⟨h.1, h.2, fun hm => by simpa using hm⟩⟩
  · rw [not_not] at hdd
    have hrun := runCommand_eq_zero_iff.mp hdd
    rw [forall_prop_of_true hargs, createFormat_iff hrun ?_ (mapped_afterDd steps _ s)]
    · constructor
      · intro h
        refine ⟨fun e he hne => ?_, fun _ => h⟩
        rw [hrun] at he
        exact absurd (Option.some.inj he).symm hne
      · intro h
        exact h.opened hrun
    · intro hne
      rw [files_afterDd_of_ne steps hne, hheader]
  · rw [allOrNothing_failed_iff]
    simp [hargs, hvault, hheader]

/-- Every step succeeds. -/
def smoothSteps : CreateSteps where
  dd := some (.exited 0)
  vault := some [7]
  pipeFormat := true
  luksFormat := some (.exited 0)
  header := some [8]
  pipeOpen := true
  cryptsetupOpen := some (.exited 0)
  strayMapping := false
  otherChild := none
  mkfs := some (.exited 0)
  cryptsetupClose := some (.exited 0)

/-- `dd` runs out of space. -/
def fullDisk : CreateSteps :=
  { smoothSteps with dd := some (.exited 1) }

/-- The second `fork` fails. -/
def forkFails : CreateSteps :=
  { smoothSteps with cryptsetupOpen := none }

/-- The base directory of root. -/
def rootBase : CString := cstr (ascii "/root/.securez/containers")

/-- A call of `container_create` for `docs` with a password. -/
def createDocs (steps : CreateSteps) (s : Storage) : Int × Storage :=
  containerCreate [] rootBase (some (cstr (ascii "docs"))) 100 (some (cstr (ascii "secret")))
    steps s

/-- Neither a file nor a mapping. -/
def Storage.empty : Storage := ⟨fun _ => none, fun _ => false⟩

/-- With every step succeeding the call is all or nothing. -/
theorem smooth_create_all_or_nothing :
    Storage.empty.files (vaultPlace [] rootBase (cstr (ascii "docs"))) = none ∧
      AllOrNothing smoothSteps (vaultPlace [] rootBase (cstr (ascii "docs")))
        (headerPlace [] rootBase (cstr (ascii "docs")))
        (mapperName (cstr (ascii "docs"))).text .empty (createDocs smoothSteps .empty) :=
  ⟨rfl, (container_create_all_or_nothing_iff rfl rfl 100 (some (cstr (ascii "secret")))
    smoothSteps).mpr fun _ => ⟨by simp [smoothSteps], fun _ _ _ _ => ⟨rfl, rfl⟩⟩⟩

/-- On a full disk the vault stays behind and a second call is refused because of it.  When
the second `fork` fails, the status of the first child is read again, and the call returns 0
without a file system in the container. -/
theorem create_leaves_vault_and_hides_failure :
    ((createDocs fullDisk .empty).1 = -1 ∧
        (createDocs fullDisk .empty).2.files (vaultPlace [] rootBase (cstr (ascii "docs"))) =
          some [7] ∧
        (createDocs smoothSteps (createDocs fullDisk .empty).2).1 = -1) ∧
      (createDocs forkFails .empty).1 = 0 ∧ ¬ forkFails.AllSucceed := by
  refine ⟨⟨by decide, by decide, by decide⟩, by decide, fun h => ?_⟩
  exact absurd h.cryptsetupOpen (by decide)

end Create

end Container
end SecureZ
