import SecureZ.Lib.Bytes
import Mathlib.Logic.Function.Basic
import Mathlib.Tactic.SplitIfs

/-!
# Files by path

A file system as the programs here use it: a map from paths to contents.  The empty
path names no file.  Writing a file and removing it change that path and no other.
`createFile` is the usual way to produce a file: open, write, close, and unlink when a
write failed.  `KeepsFiles` is what one would like of it, all or nothing, and
`createFile_keepsFiles_iff` says under which outcomes of its steps that holds.
-/

namespace CLib

/-- The regular files that can be opened, by path. -/
abbrev FileSystem := CString → Option Bytes

/-- Outcomes of the steps that create a file.  `disk` is what the file holds after
`fclose` when every `fwrite` succeeded, `torn` what it holds when one did not. -/
structure WriteOutcome where
  fopen : Bool
  fwrite : Bool
  unlink : Bool
  disk : Bytes → Bytes
  torn : Bytes → Bytes

/-- Every step succeeds and the file is complete. -/
def WriteOutcome.ok : WriteOutcome where
  fopen := true
  fwrite := true
  unlink := true
  disk := id
  torn := id

namespace FileSystem

/-- `fopen(path, "rb")`: the content of the file. -/
def readFile (fs : FileSystem) (path : CString) : Option Bytes :=
  if path.bytes = [] then none else fs path

/-- The file at `path` replaced by `content`. -/
def writeFile (fs : FileSystem) (path : CString) (content : Bytes) : FileSystem :=
  Function.update fs path (some content)

/-- `unlink(path)`. -/
def unlink (fs : FileSystem) (path : CString) : FileSystem :=
  Function.update fs path none

@[simp] theorem writeFile_self
    (fs : FileSystem) (path : CString) (content : Bytes) :
    fs.writeFile path content path = some content := by
  simp [writeFile]

/-- Frame rule of a write. -/
theorem writeFile_of_ne
    (fs : FileSystem) {path other : CString} (content : Bytes)
    (h : other ≠ path) :
    fs.writeFile path content other = fs other := by
  simp [writeFile, h]

theorem readFile_eq_some_iff
    {fs : FileSystem} {path : CString} {content : Bytes} :
    fs.readFile path = some content
      ↔
    path.bytes ≠ [] ∧ fs path = some content := by
  unfold readFile
  split_ifs with h <;> simp [h]

section Create

/-- Open a file, write it and close it; a failed write unlinks it again. -/
def createFile
    (w : WriteOutcome) (path : CString) (content : Bytes) (fs : FileSystem) :
    Int × FileSystem :=
  if !w.fopen then (-1, fs)
  else if w.fwrite then (0, fs.writeFile path (w.disk content))
  else if w.unlink then (-1, fs.unlink path)
  else (-1, fs.writeFile path (w.torn content))

/-- With every step succeeding, the content is at its path. -/
@[simp] theorem createFile_ok
    (path : CString) (content : Bytes) (fs : FileSystem) :
    createFile .ok path content fs = (0, fs.writeFile path content) := by
  rfl

end Create

end FileSystem

section Buffered

/-- Outcomes of the steps that create a file through a buffer.  When every `fwrite`
succeeds, the last `lost` bytes may still not reach the disk when the file is closed; a
failed `fwrite` leaves `torn`. -/
structure FlushOutcome where
  fopen : Bool
  fwrite : Bool
  unlink : Bool
  lost : Nat
  torn : Bytes
deriving DecidableEq

/-- The same outcomes, as a function of what is written. -/
def FlushOutcome.toWrite (w : FlushOutcome) : WriteOutcome where
  fopen := w.fopen
  fwrite := w.fwrite
  unlink := w.unlink
  disk := fun content => content.take (content.length - w.lost)
  torn := fun _ => w.torn

/-- Every step succeeds, and nothing is lost. -/
def FlushOutcome.complete : FlushOutcome := ⟨true, true, true, 0, []⟩

/-- The file is complete when nothing is lost, or when there was nothing to lose. -/
theorem FlushOutcome.disk_eq_iff
    {w : FlushOutcome} {content : Bytes} :
    w.toWrite.disk content = content ↔ w.lost = 0 ∨ content = [] := by
  have hdisk : w.toWrite.disk content = content.take (content.length - w.lost) := rfl
  rw [hdisk]
  constructor
  · intro h
    have hlen := congrArg List.length h
    rw [List.length_take] at hlen
    by_cases hempty : content.length = 0
    · exact Or.inr (List.eq_nil_of_length_eq_zero hempty)
    · exact Or.inl (by omega)
  · rintro (hlost | rfl)
    · rw [hlost, Nat.sub_zero, List.take_length]
    · exact List.take_nil

/-- A creation that fails keeps every file that was there, and one that succeeds has put
the whole content at the path. -/
structure KeepsFiles
    (result : Int × FileSystem) (fs : FileSystem) (path : CString) (content : Bytes) :
    Prop where
  failed : result.1 = -1 → ∀ p old, fs p = some old → result.2 p = some old
  complete : result.1 = 0 → result.2 path = some content

/-- The outcomes under which creating a file over `old` keeps files.  The path is not
opened; or it is written and closed without loss; or a write fails and nothing was there
before, or what was there is what the failed write leaves. -/
def KeepsOutput (w : FlushOutcome) (old : Option Bytes) (empty : Prop) : Prop :=
  w.fopen = false ∨
    (w.fwrite = true ∧ (w.lost = 0 ∨ empty)) ∨
    (w.fwrite = false ∧ (old = none ∨ (w.unlink = false ∧ old = some w.torn)))

section KeepsFiles

variable {fs : FileSystem} {path : CString} {content written : Bytes}

theorem keepsFiles_unchanged :
    KeepsFiles (-1, fs) fs path content :=
  ⟨fun _ _ _ h => h, fun h => by simp at h⟩

/-- A success must have written the content. -/
theorem keepsFiles_written_iff :
    KeepsFiles (0, fs.writeFile path written) fs path content ↔ written = content := by
  constructor
  · intro h
    have hcomplete : fs.writeFile path written path = some content := h.complete rfl
    simpa using hcomplete
  · rintro rfl
    exact ⟨fun h => by simp at h, fun _ => FileSystem.writeFile_self _ _ _⟩

/-- A failure that unlinks the path must have found nothing there. -/
theorem keepsFiles_unlinked_iff :
    KeepsFiles (-1, fs.unlink path) fs path content ↔ fs path = none := by
  constructor
  · intro h
    cases hold : fs path with
    | none =>
        rfl
    | some old =>
        have hkept : fs.unlink path path = some old := h.failed rfl path old hold
        simp [FileSystem.unlink] at hkept
  · intro hnone
    refine ⟨fun _ p old hold => ?_, fun h => by simp at h⟩
    have hne : p ≠ path := by
      rintro rfl
      simp [hnone] at hold
    simpa [FileSystem.unlink, hne] using hold

/-- A failure that leaves something else at the path must have found nothing else there. -/
theorem keepsFiles_torn_iff :
    KeepsFiles (-1, fs.writeFile path written) fs path content
      ↔
    fs path = none ∨ fs path = some written := by
  constructor
  · intro h
    cases hold : fs path with
    | none =>
        exact Or.inl rfl
    | some old =>
        have hkept : fs.writeFile path written path = some old := h.failed rfl path old hold
        rw [FileSystem.writeFile_self] at hkept
        exact Or.inr hkept.symm
  · intro hold
    refine ⟨fun _ p old hp => ?_, fun h => by simp at h⟩
    by_cases hpath : p = path
    · subst hpath
      rcases hold with hnone | hsome
      · simp [hnone] at hp
      · change fs.writeFile p written p = some old
        rw [FileSystem.writeFile_self, ← hsome, hp]
    · change fs.writeFile path written p = some old
      rw [FileSystem.writeFile_of_ne _ _ hpath, hp]

/-- Creating a file keeps files exactly under the outcomes that keep the output. -/
theorem createFile_keepsFiles_iff
    (w : FlushOutcome) :
    KeepsFiles (FileSystem.createFile w.toWrite path content fs) fs path content
      ↔
    KeepsOutput w (fs path) (content = []) := by
  rw [KeepsOutput, ← FlushOutcome.disk_eq_iff]
  obtain ⟨fopen, fwrite, unlink, lost, torn⟩ := w
  cases fopen with
  | false =>
      simpa [FileSystem.createFile, FlushOutcome.toWrite] using keepsFiles_unchanged
  | true =>
      cases fwrite with
      | true =>
          simp [FileSystem.createFile, FlushOutcome.toWrite, keepsFiles_written_iff]
      | false =>
          cases unlink with
          | true =>
              simp [FileSystem.createFile, FlushOutcome.toWrite, keepsFiles_unlinked_iff]
          | false =>
              simp [FileSystem.createFile, FlushOutcome.toWrite, keepsFiles_torn_iff]

end KeepsFiles

end Buffered

end CLib
