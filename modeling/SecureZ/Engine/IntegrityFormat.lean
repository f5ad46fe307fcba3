import SecureZ.Engine.Integrity

/-!
# The lines of the integrity database

The writer prints a path as it is, and the readers take a word of the line for it.  A line
is therefore read back as the hash and the path that were written exactly when there is no
white space in the path, whatever else it holds and however long it is.

A check of the whole database right after it was written then finds nothing.
-/

namespace SecureZ
namespace Integrity

open CLib
open CryptoCore

section Specification

/-- Whatever follows it, the next line that is read is the line of `e`, and each of the two
readers takes it as the path and the hash that were written. -/
structure ReadsBack (hex : HexCodec) (e : Recorded) : Prop where
  checkAll :
    ∀ rest old,
      ∃ line storedHex,
        fgets 1024 (e.line hex ++ rest) = some (line, rest) ∧
          checkAllFields line = some (storedHex, e.path) ∧
          hex.hex2bin storedHex old = (true, e.hash)
  checkFile :
    ∀ rest old,
      ∃ line storedHex,
        fgets 1024 (e.line hex ++ rest) = some (line, rest) ∧
          checkFileFields line = some (storedHex, e.path) ∧
          hex.hex2bin storedHex old = (true, e.hash)

/-- The database of the files `recorded` is read back.  A check of it against the files that
it was made from counts nothing and returns 0, and so does a check of each file. -/
structure RoundTrips
    (na : Sodium) (hex : HexCodec) (disk : Disk) (recorded : List Recorded) : Prop where
  readsBack : ∀ e ∈ recorded, ReadsBack hex e
  clean :
    ∀ results maxResults,
      (integrityCheckAll na hex disk (databaseText hex recorded) results maxResults).mismatches =
          0 ∧
        (integrityCheckAll na hex disk (databaseText hex recorded) results maxResults).count = 0
  file :
    ∀ e ∈ recorded, ∀ result,
      (integrityCheckFile na hex disk (some (databaseText hex recorded)) e.path result).1 = 0

end Specification

section Lines

variable {na : Sodium} {hex : HexCodec} {disk : Disk} {e : Recorded}

/-- A line is read back if and only if its path is a word. -/
theorem readsBack_iff
    (hhex : HexCorrect hex)
    (hne : e.path.bytes ≠ [])
    (hshort : e.path.strlen < 512) :
    ReadsBack hex e ↔ IsWord e.path.bytes := by
  constructor
  · intro h
    obtain ⟨line, storedHex, -, hfields, -⟩ := h.checkAll [] e.hash
    unfold checkAllFields at hfields
    split_ifs at hfields
    exact isWord_of_sscanfEntry hfields
  · intro hword
    have hfields := fields_line hhex hword hne hshort
    have hread := fgets_line hhex hword.newline_not_mem hshort
    exact ⟨fun rest old => ⟨_, _, hread rest, hfields.1, hhex.hex2bin_bin2hex e.hash old⟩,
      fun rest old => ⟨_, _, hread rest, hfields.2, hhex.hex2bin_bin2hex e.hash old⟩⟩

end Lines

section Check

variable {na : Sodium} {hex : HexCodec} {disk : Disk} {e : Recorded}

/-- What every turn keeps, the loop keeps. -/
theorem checkLines_invariant
    {P : CheckState → Prop} {lines : List Bytes}
    (hturn : ∀ line ∈ lines, ∀ s, P s → P (checkTurn na hex disk line s))
    (maxResults : Int) {s : CheckState}
    (hs : P s) :
    P (checkLines na hex disk maxResults lines s) := by
  induction lines generalizing s with
  | nil =>
      exact hs
  | cons line lines ih =>
      rw [List.forall_mem_cons] at hturn
      rw [checkLines]
      split_ifs
      · exact ih hturn.2 (hturn.1 s hs)
      · exact hs

/-- The comments are skipped. -/
theorem checkTurn_header
    {line : Bytes}
    (hline : line ∈ headerLines)
    (s : CheckState) :
    checkTurn na hex disk line s = s := by
  have hfields : ∀ line ∈ headerLines, checkAllFields line = none := by decide +kernel
  simp only [checkTurn, hfields line hline]

/-- The turn for a line that is read back: the file with the path is checked against the
hash. -/
theorem checkTurn_line
    (hhex : HexCorrect hex)
    (hword : IsWord e.path.bytes)
    (hne : e.path.bytes ≠ [])
    (hshort : e.path.strlen < 512)
    (s : CheckState) :
    checkTurn na hex disk (e.line hex) s =
      checkHash na disk e.path (s.expecting e.path e.hash) s := by
  simp only [checkTurn, (fields_line hhex hword hne hshort).1, hhex.hex2bin_bin2hex, if_true]

/-- A file that has the recorded hash is not counted. -/
theorem checkTurn_printed
    (hhex : HexCorrect hex)
    (hword : IsWord e.path.bytes)
    (hprinted : Printed na disk e)
    (s : CheckState) :
    (checkTurn na hex disk (e.line hex) s).mismatches = s.mismatches ∧
      (checkTurn na hex disk (e.line hex) s).count = s.count := by
  obtain ⟨content, hread, -⟩ := Option.map_eq_some_iff.mp hprinted.hash
  have haccess : disk.access e.path = true :=
    disk.access_of_read e.path (by rw [hread]; exact Option.some_ne_none content)
  rw [checkTurn_line hhex hword hprinted.nonempty hprinted.short]
  simp [checkHash, haccess, hprinted.hash, CheckState.store]

/-- The lines of a database whose paths are words are those that were written. -/
theorem linesOf_words
    {recorded : List Recorded}
    (hhex : HexCorrect hex)
    (hprinted : ∀ e ∈ recorded, Printed na disk e)
    (hwords : ∀ e ∈ recorded, IsWord e.path.bytes) :
    linesOf 1024 (databaseText hex recorded) = headerLines ++ recorded.map (Recorded.line hex) := by
  rw [linesOf_databaseText]
  congr 1
  induction recorded with
  | nil =>
      rfl
  | cons e recorded ih =>
      rw [List.forall_mem_cons] at hprinted hwords
      rw [List.flatMap_cons, ih hprinted.2 hwords.2,
        linesOf_recorded hhex hwords.1.newline_not_mem hprinted.1.short]
      rfl

/-- A check of files that have their recorded hashes counts nothing. -/
theorem clean_of_words
    {recorded : List Recorded}
    (hhex : HexCorrect hex)
    (hprinted : ∀ e ∈ recorded, Printed na disk e)
    (hwords : ∀ e ∈ recorded, IsWord e.path.bytes)
    (results : Nat → IntegrityResult) (maxResults : Int) :
    (integrityCheckAll na hex disk (databaseText hex recorded) results maxResults).mismatches =
        0 ∧
      (integrityCheckAll na hex disk (databaseText hex recorded) results maxResults).count = 0 := by
  rw [integrityCheckAll, linesOf_words hhex hprinted hwords]
  refine @checkLines_invariant na hex disk (fun s => s.mismatches = 0 ∧ s.count = 0) _ ?_
    maxResults _ ⟨rfl, rfl⟩
  intro line hline s hs
  rcases List.mem_append.mp hline with hheader | hentry
  · rwa [checkTurn_header hheader]
  · obtain ⟨e, he, rfl⟩ := List.mem_map.mp hentry
    obtain ⟨hmismatches, hcount⟩ := checkTurn_printed hhex (hwords e he) (hprinted e he) s
    exact ⟨hmismatches.trans hs.1, hcount.trans hs.2⟩

/-- The fields that a lookup sees are those of the files that were recorded. -/
theorem filterMap_fields
    {recorded : List Recorded}
    (hhex : HexCorrect hex)
    (hprinted : ∀ e ∈ recorded, Printed na disk e)
    (hwords : ∀ e ∈ recorded, IsWord e.path.bytes) :
    (linesOf 1024 (databaseText hex recorded)).filterMap checkFileFields =
      recorded.map fun e => (hex.bin2hex e.hash, e.path) := by
  have hheader : headerLines.filterMap checkFileFields = [] := by decide +kernel
  rw [linesOf_words hhex hprinted hwords, List.filterMap_append, hheader, List.nil_append]
  induction recorded with
  | nil =>
      rfl
  | cons e recorded ih =>
      rw [List.forall_mem_cons] at hprinted hwords
      have hfields := fields_line hhex hwords.1 hprinted.1.nonempty hprinted.1.short
      rw [List.map_cons, List.filterMap_cons_some hfields.2, ih hprinted.2 hwords.2,
        List.map_cons]

/-- A check of a file that has its recorded hash returns 0: whichever line with its path is
found first, it tells the same hash. -/
theorem file_of_words
    {recorded : List Recorded}
    (hhex : HexCorrect hex)
    (hprinted : ∀ e ∈ recorded, Printed na disk e)
    (hwords : ∀ e ∈ recorded, IsWord e.path.bytes)
    (he : e ∈ recorded)
    (result : IntegrityResult) :
    (integrityCheckFile na hex disk (some (databaseText hex recorded)) e.path result).1 = 0 := by
  have hhash := (hprinted e he).hash
  obtain ⟨content, hread, -⟩ := Option.map_eq_some_iff.mp hhash
  have haccess : disk.access e.path = true :=
    disk.access_of_read e.path (by rw [hread]; exact Option.some_ne_none content)
  have hfound :
      findHex e.path (linesOf 1024 (databaseText hex recorded)) = some (hex.bin2hex e.hash) := by
    rw [findHex, filterMap_fields hhex hprinted hwords, List.find?_map, Option.map_map]
    cases hfind : recorded.find? ((fun fields => decide (fields.2 = e.path)) ∘
        fun e => (hex.bin2hex e.hash, e.path)) with
    | none =>
        have hnone := List.find?_eq_none.mp hfind e he
        simp at hnone
    | some e' =>
        have hpath : e'.path = e.path := by simpa using List.find?_some hfind
        have hhash' := (hprinted e' (List.mem_of_find?_eq_some hfind)).hash
        rw [hpath, hhash, Option.some.injEq] at hhash'
        simp [hhash']
  simp [integrityCheckFile, haccess, hhash, hfound, hhex.hex2bin_bin2hex]

end Check

/--
**The database.**

The line of a path is read back if and only if there is no white space in the path, and the
database of a file tree round-trips if and only if there is none in any path that was
recorded.
-/
theorem database_round_trips_iff
    (na : Sodium) (hex : HexCodec)
    (hhex : HexCorrect hex) :
    (∀ e : Recorded,
      e.path.bytes ≠ [] →
      e.path.strlen < 512 →
      (ReadsBack hex e ↔ IsWord e.path.bytes))
      ∧
    (∀ disk fuel recorded,
      integrityInitDatabase na disk fuel = some recorded →
      (RoundTrips na hex disk recorded ↔ ∀ e ∈ recorded, IsWord e.path.bytes)) := by
  refine ⟨fun e hne hshort => readsBack_iff hhex hne hshort, fun disk fuel recorded hinit => ?_⟩
  have hprinted := printed_of_init hinit
  constructor
  · intro h e he
    exact (readsBack_iff hhex (hprinted e he).nonempty (hprinted e he).short).mp
      (h.readsBack e he)
  · intro hwords
    exact
      { readsBack := fun e he =>
          (readsBack_iff hhex (hprinted e he).nonempty (hprinted e he).short).mpr (hwords e he)
        clean := clean_of_words hhex hprinted hwords
        file := fun e he => file_of_words hhex hprinted hwords he }

section Examples

/-- A file system with one file in `/etc`, of that name and content. -/
def oneFile (name : CString) (content : Bytes) : Disk where
  readdir := fun path => if path.bytes = ascii "/etc" then some [name] else none
  lstat := fun path =>
    if path = fullPath (cstr (ascii "/etc")) name then some .regular else none
  access := fun path => path = fullPath (cstr (ascii "/etc")) name
  read := fun path =>
    if path = fullPath (cstr (ascii "/etc")) name then some content else none
  access_of_read := by
    intro path
    split_ifs with hpath <;> simp [hpath]

/-- A file system with files of these names in `/etc`, each with its content, or none when it
cannot be read. -/
def etcFiles (files : List (String × Option Bytes)) : Disk where
  readdir := fun path =>
    if path.bytes = ascii "/etc" then some (files.map fun f => cstr (ascii f.1)) else none
  lstat := fun path =>
    if path ∈ files.map fun f => cstr (ascii ("/etc/" ++ f.1)) then some .regular else none
  access := fun path => path ∈ files.map fun f => cstr (ascii ("/etc/" ++ f.1))
  read := fun path =>
    (files.find? fun f => path = cstr (ascii ("/etc/" ++ f.1))).bind Prod.snd
  access_of_read := by
    intro path h
    obtain ⟨f, hf⟩ : ∃ f, files.find? (fun f => path = cstr (ascii ("/etc/" ++ f.1))) = some f := by
      rw [← Option.ne_none_iff_exists']
      intro hnone
      simp [hnone] at h
    have hpath : path = cstr (ascii ("/etc/" ++ f.1)) := by simpa using List.find?_some hf
    simpa using ⟨f.1, ⟨f.2, List.mem_of_find?_eq_some hf⟩, hpath.symm⟩

/-- Three files are recorded, and the database round-trips. -/
theorem words_round_trip :
    ∃ recorded,
      integrityInitDatabase mirror
          (etcFiles [("a", some [7]), ("b", some []), ("c", some [0, 1])]) 1 = some recorded ∧
        recorded.map Recorded.path =
          [cstr (ascii "/etc/a"), cstr (ascii "/etc/b"), cstr (ascii "/etc/c")] ∧
        RoundTrips mirror plainHex
          (etcFiles [("a", some [7]), ("b", some []), ("c", some [0, 1])]) recorded := by
  have hinit :
      (integrityInitDatabase mirror
          (etcFiles [("a", some [7]), ("b", some []), ("c", some [0, 1])]) 1).map
          (List.map Recorded.path) =
        some [cstr (ascii "/etc/a"), cstr (ascii "/etc/b"), cstr (ascii "/etc/c")] := by
    decide +kernel
  obtain ⟨recorded, hrecorded, hpaths⟩ := Option.map_eq_some_iff.mp hinit
  have hwords : ∀ p ∈ recorded.map Recorded.path, IsWord p.bytes := by
    rw [hpaths]
    decide +kernel
  exact ⟨recorded, hrecorded, hpaths,
    ((database_round_trips_iff mirror plainHex plainHex_correct).2 _ 1 recorded hrecorded).mpr
      fun e he => hwords e.path (List.mem_map_of_mem he)⟩

/-- A result with nothing in it. -/
def emptyResult : IntegrityResult :=
  ⟨⟨cstr [], by decide⟩, Block.zero crypticHashLen, Block.zero crypticHashLen, .ok⟩

/-- The file `/etc/a b` is recorded.  Its line is read as one about `/etc/a`, and a check that
follows reports a mismatch. -/
theorem space_not_round_trips :
    HexCorrect plainHex ∧
      ∃ recorded,
        integrityInitDatabase mirror (oneFile (cstr (ascii "a b")) [7]) 1 = some recorded ∧
          (integrityCheckAll mirror plainHex (oneFile (cstr (ascii "a b")) [7])
              (databaseText plainHex recorded) (fun _ => emptyResult) 1024).mismatches = 1 ∧
          ¬ RoundTrips mirror plainHex (oneFile (cstr (ascii "a b")) [7]) recorded := by
  have hinit :
      (integrityInitDatabase mirror (oneFile (cstr (ascii "a b")) [7]) 1).map (fun recorded =>
          (integrityCheckAll mirror plainHex (oneFile (cstr (ascii "a b")) [7])
            (databaseText plainHex recorded) (fun _ => emptyResult) 1024).mismatches) =
        some 1 := by
    decide +kernel
  obtain ⟨recorded, hrecorded, hmismatch⟩ := Option.map_eq_some_iff.mp hinit
  refine ⟨plainHex_correct, recorded, hrecorded, hmismatch, fun h => ?_⟩
  have hclean := (h.clean (fun _ => emptyResult) 1024).1
  rw [hmismatch] at hclean
  cases hclean

end Examples

end Integrity
end SecureZ
