import SecureZ.Lib.PartialLists
import SecureZ.Engine.Integrity

/-!
# The scan, path by path

`scan_directory_recursive` builds the path of each entry in an array of 512 bytes and does
not look whether it fitted.  A path that was cut names something else: the directory that is
being scanned, its parent, or another entry whose name is the part that is left.

The scan is a list of paths that are passed to `hash_and_store`, in order, and of what that
does to the database and to the counter.  The list depends on the disk only.
-/

namespace SecureZ
namespace Integrity

open CLib
open CryptoCore

section Model

variable (na : Sodium) (disk : Disk)

/-- `INT_MAX`. -/
def intMax : Int := 2 ^ 31 - 1

/-- What the scan has done. -/
structure ScanState where
  /-- The paths that `hash_and_store` was called with, in order. -/
  passed : List CString
  /-- What it printed. -/
  recorded : List Recorded
  /-- `*file_count`. -/
  fileCount : Int
  fileCount_le : fileCount ≤ intMax

/-- The state before the scan, with the count so far. -/
def ScanState.start (count : Int) (h : count ≤ intMax) : ScanState := ⟨[], [], count, h⟩

/-- The call of `hash_and_store` for a regular file.  Counting up past `INT_MAX` has no
meaning in C. -/
def passFile (s : ScanState) (path : CString) : Option ScanState :=
  match hashAndStore na disk path with
  | none => some { s with passed := s.passed ++ [path] }
  | some e =>
      if h : s.fileCount < intMax then
        some ⟨s.passed ++ [path], s.recorded ++ [e], s.fileCount + 1, h⟩
      else none

/-- The names that the scan skips. -/
def isDots (name : CString) : Prop :=
  name.bytes = ascii "." ∨ name.bytes = ascii ".."

instance (name : CString) : Decidable (isDots name) :=
  inferInstanceAs (Decidable (_ ∨ _))

/-- A turn of the loop over the names of a directory; `scan` is the call for a directory
below it. -/
def scanEntry
    (scan : CString → ScanState → Option ScanState) (dirPath : CString) (s : ScanState)
    (name : CString) : Option ScanState :=
  if isDots name then some s
  else
    match disk.lstat (fullPath dirPath name) with
    | some .directory => scan (fullPath dirPath name) s
    | some .regular => passFile na disk s (fullPath dirPath name)
    | _ => some s

/-- `scan_directory_recursive` with its calls of `hash_and_store` and its counter.  The fuel
is for the depth of the calls; it is none when that runs out. -/
def scanDirectoryCounted : Nat → CString → ScanState → Option ScanState
  | 0, _, _ => none
  | fuel + 1, dirPath, s =>
      match disk.readdir dirPath with
      | none => some s
      | some names =>
          names.foldlM (scanEntry na disk (scanDirectoryCounted fuel) dirPath) s

end Model

section Passed

variable (disk : Disk)

/-- The paths that are passed to `hash_and_store` for an entry at this path. -/
def passedAt (scan : CString → Option (List CString)) (path : CString) :
    Option (List CString) :=
  match disk.lstat path with
  | some .directory => scan path
  | some .regular => some [path]
  | _ => some []

/-- The paths that are passed for a name. -/
def passedByName
    (scan : CString → Option (List CString)) (dirPath name : CString) :
    Option (List CString) :=
  if isDots name then some [] else passedAt disk scan (fullPath dirPath name)

/-- The paths that a scan passes to `hash_and_store`, in order. -/
def passedPaths : Nat → CString → Option (List CString)
  | 0, _ => none
  | fuel + 1, dirPath =>
      match disk.readdir dirPath with
      | none => some []
      | some names => (names.mapM (passedByName disk (passedPaths fuel) dirPath)).map List.flatten

variable {na : Sodium} {disk : Disk}

/-- The scan is: pass one path after the other. -/
theorem scanDirectoryCounted_eq
    (fuel : Nat) (dirPath : CString) (s : ScanState) :
    scanDirectoryCounted na disk fuel dirPath s =
      (passedPaths disk fuel dirPath).bind fun paths => paths.foldlM (passFile na disk) s := by
  induction fuel generalizing dirPath s with
  | zero =>
      rfl
  | succ fuel ih =>
      rw [scanDirectoryCounted, passedPaths]
      cases disk.readdir dirPath with
      | none => rfl
      | some names =>
          have hentry :
              scanEntry na disk (scanDirectoryCounted na disk fuel) dirPath =
                fun s name =>
                  (passedByName disk (passedPaths disk fuel) dirPath name).bind
                    fun paths => paths.foldlM (passFile na disk) s := by
            funext s name
            unfold scanEntry passedByName passedAt
            split_ifs with hdots
            · rfl
            · split
              · exact ih _ _
              · simp
              · rfl
          dsimp only
          rw [hentry, foldlM_bind_eq]
          cases names.mapM (passedByName disk (passedPaths disk fuel) dirPath) <;> rfl

/-- What is printed are the passed files that can be read. -/
theorem scanDirectoryRecursive_eq
    (fuel : Nat) (dirPath : CString) :
    scanDirectoryRecursive na disk fuel dirPath =
      (passedPaths disk fuel dirPath).map fun paths =>
        paths.filterMap (hashAndStore na disk) := by
  induction fuel generalizing dirPath with
  | zero =>
      rfl
  | succ fuel ih =>
      rw [scanDirectoryRecursive, passedPaths]
      cases disk.readdir dirPath with
      | none => rfl
      | some names =>
          have hname :
              scanName na disk (scanDirectoryRecursive na disk fuel) dirPath =
                fun name =>
                  (passedByName disk (passedPaths disk fuel) dirPath name).map
                    fun paths => paths.filterMap (hashAndStore na disk) := by
            funext name
            by_cases hdots : name.bytes = ascii "." ∨ name.bytes = ascii ".."
            · rw [scanName, if_pos hdots, passedByName, if_pos (show isDots name from hdots)]
              rfl
            · rw [scanName, if_neg hdots, passedByName, if_neg (show ¬ isDots name from hdots),
                passedAt]
              rcases disk.lstat (fullPath dirPath name) with _ | kind
              · rfl
              cases kind with
              | directory => exact ih _
              | regular =>
                  cases hstore : hashAndStore na disk (fullPath dirPath name) <;> simp [hstore]
              | other => rfl
          dsimp only
          rw [hname, mapM_map_value]
          cases names.mapM (passedByName disk (passedPaths disk fuel) dirPath) with
          | none => rfl
          | some parts => simp [List.filterMap_flatten]

/-- Passing files one after the other, and what it leaves. -/
theorem passAll_some
    {paths : List CString} {s s' : ScanState}
    (h : paths.foldlM (passFile na disk) s = some s') :
    s'.passed = s.passed ++ paths ∧
      s'.recorded = s.recorded ++ paths.filterMap (hashAndStore na disk) ∧
      s'.fileCount = s.fileCount + (paths.filterMap (hashAndStore na disk)).length := by
  induction paths generalizing s with
  | nil =>
      obtain rfl := Option.some.inj h
      simp
  | cons p paths ih =>
      rw [List.foldlM_cons, Option.bind_eq_bind, Option.bind_eq_some_iff] at h
      obtain ⟨s₁, hpass, hrest⟩ := h
      obtain ⟨hpassed, hrecorded, hcount⟩ := ih hrest
      unfold passFile at hpass
      split at hpass
      · rename_i hnone
        obtain rfl := Option.some.inj hpass
        rw [List.filterMap_cons_none hnone]
        exact ⟨by simpa using hpassed, hrecorded, hcount⟩
      · rename_i e hsome
        split_ifs at hpass with hroom
        obtain rfl := Option.some.inj hpass
        rw [List.filterMap_cons_some hsome]
        refine ⟨by simpa using hpassed, by simpa using hrecorded, ?_⟩
        rw [hcount, List.length_cons]
        push_cast
        omega

/-- As long as the counter stays an `int`, all files can be passed. -/
theorem exists_passAll
    {paths : List CString} {s : ScanState}
    (h : s.fileCount + (paths.filterMap (hashAndStore na disk)).length ≤ intMax) :
    ∃ s', paths.foldlM (passFile na disk) s = some s' := by
  induction paths generalizing s with
  | nil =>
      exact ⟨s, rfl⟩
  | cons p paths ih =>
      rw [List.foldlM_cons]
      cases hstore : hashAndStore na disk p with
      | none =>
          rw [List.filterMap_cons_none hstore] at h
          have hpass : passFile na disk s p = some { s with passed := s.passed ++ [p] } := by
            rw [passFile, hstore]
          rw [hpass]
          exact ih (s := { s with passed := s.passed ++ [p] }) h
      | some e =>
          rw [List.filterMap_cons_some hstore, List.length_cons] at h
          push_cast at h
          have hroom : s.fileCount < intMax := by omega
          have hpass : passFile na disk s p =
              some ⟨s.passed ++ [p], s.recorded ++ [e], s.fileCount + 1, hroom⟩ := by
            rw [passFile, hstore]
            exact dif_pos hroom
          rw [hpass]
          refine ih (s := ⟨s.passed ++ [p], s.recorded ++ [e], s.fileCount + 1, hroom⟩) ?_
          dsimp only
          omega

end Passed

section Stuck

variable {disk : Disk}

/-- Behind a path that fills the array, every name gives that path again. -/
theorem fullPath_of_full
    {path : CString}
    (h : path.strlen = 511)
    (name : CString) :
    fullPath path name = path := by
  refine CString.ext ?_
  have hlen : path.bytes.length = 511 := h
  simp [fullPath, CString.append, CString.take, List.append_assoc,
    List.take_append_of_le_length hlen.ge, List.take_of_length_le hlen.le]

/-- A directory with something in it is never left when its path fills the array. -/
theorem passedPaths_stuck
    {path name : CString} {names : List CString}
    (hfull : path.strlen = 511)
    (hkind : disk.lstat path = some .directory)
    (hread : disk.readdir path = some names)
    (hname : name ∈ names) (hdots : ¬ isDots name)
    (fuel : Nat) :
    passedPaths disk fuel path = none := by
  induction fuel with
  | zero =>
      rfl
  | succ fuel ih =>
      have hturn : passedByName disk (passedPaths disk fuel) path name = none := by
        rw [passedByName, if_neg hdots, fullPath_of_full hfull, passedAt, hkind]
        exact ih
      rw [passedPaths, hread]
      dsimp only
      rw [mapM_eq_none_of_mem hname hturn, Option.map_none]

end Stuck

end Integrity
end SecureZ
