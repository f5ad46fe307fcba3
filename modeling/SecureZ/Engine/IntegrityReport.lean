import SecureZ.Engine.IntegrityFormat

/-!
# What a clean report tells

`integrity_check_all` returns the number of files that are missing or altered.  A file that
exists and cannot be hashed is counted among the results, of which there is room for
`max_results`, and not among the mismatches: the report is clean all the same, and the loop
ends when there is no more room.  A path with white space is not the path that is checked: its
line is cut there, and what stands behind a newline is a line of its own.

The main result says when a clean report is sound, for every database and every later state
of the file system, in terms of the files that the database is read as.
-/

namespace SecureZ
namespace Integrity

open CLib
open CryptoCore

section Specification

variable (na : Sodium) (hex : HexCodec) (disk : Disk)

/-- The file still exists and hashes to its recorded value. -/
def Intact (e : Recorded) : Prop :=
  disk.access e.path = true ∧ cryptoHashFile na disk e.path = some e.hash

/-- The file exists and cannot be hashed. -/
def Unhashable (e : Recorded) : Prop :=
  disk.access e.path = true ∧ cryptoHashFile na disk e.path = none

instance (e : Recorded) : Decidable (Unhashable na disk e) :=
  inferInstanceAs (Decidable (_ ∧ _))

/-- The file with the path is missing, or it does not hash to `expected`. -/
def MissingOrAltered (path : CString) (expected : Hash) : Prop :=
  disk.access path = false ∨
    ∃ actual, cryptoHashFile na disk path = some actual ∧ expected ≠ actual

/-- A clean report is sound. -/
def CleanSound
    (recorded : List Recorded) (results : Nat → IntegrityResult) (maxResults : Int) : Prop :=
  (integrityCheckAll na hex disk (databaseText hex recorded) results maxResults).mismatches = 0 →
  ∀ e ∈ recorded, Intact na disk e

/-- An entry with its path cut at the first white space. -/
def Recorded.cut (e : Recorded) : Recorded :=
  { e with path := firstWord e.path }

/-- The digits and the paths that the line of an entry is read as: more than one of each when its
path has a newline in it. -/
def Recorded.entries (e : Recorded) : List (CString × CString) :=
  (linesOf 1024 (e.line hex)).filterMap checkAllFields

/-- The files that digits and paths stand for.  Digits are converted in the first of the slots
for hashes, where too few of them leave the rest of what was there, and a file that cannot be
hashed keeps its slot. -/
def filesRead : (Nat → Hash) → List (CString × CString) → List Recorded
  | _, [] => []
  | slots, (storedHex, filepath) :: entries =>
      match hex.hex2bin storedHex (slots 0) with
      | (false, left) => filesRead (Function.update slots 0 left) entries
      | (true, expected) =>
          ⟨filepath, expected⟩ ::
            filesRead
              (if Unhashable na disk ⟨filepath, expected⟩ then fun k => slots (k + 1)
              else Function.update slots 0 expected)
              entries

/-- The files that the recorded ones are read as. -/
def readAs (results : Nat → IntegrityResult) (recorded : List Recorded) : List Recorded :=
  filesRead na hex disk (fun k => (results k).expectedHash)
    (recorded.flatMap (Recorded.entries hex))

/-- A file that stands before the `maxResults`-th one that cannot be hashed is missing or
altered. -/
def MismatchBefore (maxResults : Int) (files : List Recorded) : Prop :=
  ∃ pre e post,
    files = pre ++ e :: post ∧
      ((pre.countP fun p => decide (Unhashable na disk p) : Nat) : Int) < maxResults ∧
      MissingOrAltered na disk e.path e.hash

/-- Every recorded file that exists can be hashed, and one that is not looked at is intact: its
path has white space in it, or what is read before it has `maxResults` files that cannot be
hashed. -/
structure RestIntact
    (maxResults : Int) (read : List Recorded → List Recorded) (recorded : List Recorded) :
    Prop where
  hashable : ∀ e ∈ recorded, ¬ Unhashable na disk e
  intact :
    ∀ pre e post,
      recorded = pre ++ e :: post →
      ¬ IsWord e.path.bytes ∨
        maxResults ≤ (((read pre).countP fun p => decide (Unhashable na disk p) : Nat) : Int) →
      Intact na disk e

end Specification

section Turns

variable {na : Sodium} {hex : HexCodec} {disk : Disk} {e : Recorded}

/-- A file that is not missing, altered or impossible to hash is intact. -/
theorem intact_of_not
    (hfound : ¬ MissingOrAltered na disk e.path e.hash)
    (hhashable : ¬ Unhashable na disk e) :
    Intact na disk e := by
  simp only [MissingOrAltered, not_or, Bool.not_eq_false, not_exists, not_and, not_not] at hfound
  simp only [Unhashable, not_and] at hhashable
  obtain ⟨actual, hactual⟩ := Option.ne_none_iff_exists'.mp (hhashable hfound.1)
  exact ⟨hfound.1, by rw [hactual, hfound.2 actual hactual]⟩

theorem not_intact_of_unhashable
    (h : Unhashable na disk e) :
    ¬ Intact na disk e := by
  rintro ⟨-, hhash⟩
  rw [h.2] at hhash
  cases hhash

/-- A file is checked into one of the two counters, into the first alone, or into none. -/
theorem checkHash_counters
    (filepath : CString) (r : IntegrityResult) (s : CheckState) :
    (MissingOrAltered na disk filepath r.expectedHash →
        (checkHash na disk filepath r s).mismatches = s.mismatches + 1) ∧
      (¬ MissingOrAltered na disk filepath r.expectedHash →
        (checkHash na disk filepath r s).mismatches = s.mismatches ∧
          (checkHash na disk filepath r s).count =
            if disk.access filepath = true ∧ cryptoHashFile na disk filepath = none then
              s.count + 1
            else s.count) := by
  unfold checkHash MissingOrAltered
  cases haccess : disk.access filepath with
  | false =>
      simp [CheckState.report]
  | true =>
  cases hhash : cryptoHashFile na disk filepath with
  | none =>
      simp [CheckState.report]
  | some actual =>
      by_cases hsame : r.expectedHash = actual <;>
        simp [hsame, CheckState.report, CheckState.store]

/-- The slots for the hashes that are still to come. -/
def CheckState.slots (s : CheckState) : Nat → Hash :=
  fun k => (s.results (s.count + k)).expectedHash

theorem slots_store
    (s : CheckState) (r : IntegrityResult) :
    (s.store r).slots = Function.update s.slots 0 r.expectedHash := by
  funext k
  by_cases hk : k = 0
  · subst hk
    simp [CheckState.slots, CheckState.store]
  · have hne : s.count + k ≠ s.count := by omega
    simp [CheckState.slots, CheckState.store, Function.update_of_ne hk, Function.update_of_ne hne]

theorem slots_report
    (s : CheckState) (r : IntegrityResult) (mismatch : Bool) :
    (s.report r mismatch).slots = fun k => s.slots (k + 1) := by
  funext k
  have hne : s.count + 1 + k ≠ s.count := by omega
  simp only [CheckState.slots, CheckState.report, Function.update_of_ne hne]
  congr 2
  omega

/-- Of a file that is neither missing nor altered, the next slot tells whether it could be
hashed. -/
theorem checkHash_slots
    (filepath : CString) (r : IntegrityResult) (s : CheckState)
    (h : ¬ MissingOrAltered na disk filepath r.expectedHash) :
    (checkHash na disk filepath r s).slots =
      if Unhashable na disk ⟨filepath, r.expectedHash⟩ then fun k => s.slots (k + 1)
      else Function.update s.slots 0 r.expectedHash := by
  simp only [MissingOrAltered, not_or, Bool.not_eq_false, not_exists, not_and, not_not] at h
  by_cases hbad : Unhashable na disk ⟨filepath, r.expectedHash⟩
  · have hnone : cryptoHashFile na disk filepath = none := hbad.2
    rw [if_pos hbad, checkHash]
    simp [h.1, hnone, slots_report]
  · obtain ⟨actual, hactual⟩ :=
      Option.ne_none_iff_exists'.mp fun hnone => hbad ⟨h.1, hnone⟩
    rw [if_neg hbad, checkHash]
    simp [h.1, hactual, h.2 actual hactual, slots_store]

/-- What is left of the room behind such a file. -/
theorem room_checkHash
    (filepath : CString) (r : IntegrityResult) (s : CheckState)
    (h : ¬ MissingOrAltered na disk filepath r.expectedHash)
    (maxResults : Int) :
    maxResults - ((checkHash na disk filepath r s).count : Int) =
      maxResults - s.count - if Unhashable na disk ⟨filepath, r.expectedHash⟩ then 1 else 0 := by
  have hcount := ((checkHash_counters filepath r s).2 h).2
  by_cases hbad : Unhashable na disk ⟨filepath, r.expectedHash⟩
  · rw [hcount.trans (if_pos hbad), if_pos hbad]
    omega
  · rw [hcount.trans (if_neg hbad), if_neg hbad]
    omega

/-- What a turn can do: the line is skipped; or its digits are no hash, and the slot takes what
was converted of them; or its file is checked. -/
theorem checkTurn_cases
    (line : Bytes) (s : CheckState) :
    (checkAllFields line = none ∧ checkTurn na hex disk line s = s) ∨
      ∃ storedHex filepath converted expected,
        checkAllFields line = some (storedHex, filepath) ∧
          hex.hex2bin storedHex (s.slots 0) = (converted, expected) ∧
          ((converted = false ∧
              checkTurn na hex disk line s = s.store (s.expecting filepath expected)) ∨
            (converted = true ∧
              checkTurn na hex disk line s =
                checkHash na disk filepath (s.expecting filepath expected) s)) := by
  cases hfields : checkAllFields line with
  | none =>
      exact Or.inl ⟨rfl, by simp only [checkTurn, hfields]⟩
  | some fields =>
      obtain ⟨storedHex, filepath⟩ := fields
      rcases hread : hex.hex2bin storedHex (s.slots 0) with ⟨converted, expected⟩
      have hslot :
          hex.hex2bin storedHex (s.results s.count).expectedHash = (converted, expected) :=
        hread
      refine Or.inr ⟨storedHex, filepath, converted, expected, rfl, hread, ?_⟩
      cases converted with
      | false =>
          exact Or.inl ⟨rfl, by simp only [checkTurn, hfields, hslot, Bool.false_eq_true, if_false]⟩
      | true =>
          exact Or.inr ⟨rfl, by simp only [checkTurn, hfields, hslot, if_true]⟩

end Turns

section Loop

variable {na : Sodium} {hex : HexCodec} {disk : Disk} {maxResults : Int}

/-- A place in a list is its first place or one behind that. -/
theorem exists_split_cons_iff
    {α : Type} {a : α} {l : List α} {P : List α → α → Prop} :
    (∃ pre x post, a :: l = pre ++ x :: post ∧ P pre x)
      ↔
    P [] a ∨ ∃ pre x post, l = pre ++ x :: post ∧ P (a :: pre) x := by
  constructor
  · rintro ⟨pre, x, post, hsplit, h⟩
    cases pre with
    | nil =>
        obtain ⟨rfl, -⟩ := List.cons.inj hsplit
        exact Or.inl h
    | cons b pre =>
        obtain ⟨rfl, hrest⟩ := List.cons.inj hsplit
        exact Or.inr ⟨pre, x, post, hrest, h⟩
  · rintro (h | ⟨pre, x, post, rfl, h⟩)
    · exact ⟨[], a, l, rfl, h⟩
    · exact ⟨a :: pre, x, post, rfl, h⟩

/-- The first file is missing or altered, or one behind it is; one that cannot be hashed leaves
room for one less. -/
theorem mismatchBefore_cons_iff
    (e : Recorded) (files : List Recorded) :
    MismatchBefore na disk maxResults (e :: files)
      ↔
    (0 < maxResults ∧ MissingOrAltered na disk e.path e.hash) ∨
      MismatchBefore na disk (maxResults - if Unhashable na disk e then 1 else 0) files := by
  rw [MismatchBefore, exists_split_cons_iff]
  refine or_congr (by simp) (exists_congr fun pre => exists_congr fun x => ?_)
  refine exists_congr fun post => and_congr_right fun _ => and_congr_left fun _ => ?_
  simp only [List.countP_cons, decide_eq_true_eq]
  split_ifs <;> omega

/-- Without room nothing is found. -/
theorem not_mismatchBefore_of_full
    (hfull : maxResults ≤ 0)
    (files : List Recorded) :
    ¬ MismatchBefore na disk maxResults files := by
  rintro ⟨pre, e, post, -, hroom, -⟩
  omega

/-- Where there is no room, the loop ends. -/
theorem checkLines_of_full
    {s : CheckState}
    (hfull : ¬ (s.count : Int) < maxResults)
    (lines : List Bytes) :
    checkLines na hex disk maxResults lines s = s := by
  cases lines with
  | nil =>
      rfl
  | cons line lines =>
      rw [checkLines, if_neg hfull]

/-- No turn takes a mismatch back. -/
theorem mismatches_le_checkLines
    (lines : List Bytes) (s : CheckState) :
    s.mismatches ≤ (checkLines na hex disk maxResults lines s).mismatches := by
  refine @checkLines_invariant na hex disk (fun t => s.mismatches ≤ t.mismatches) lines ?_
    maxResults s le_rfl
  intro line _ t ht
  obtain ⟨-, hturn⟩ | ⟨storedHex, filepath, converted, expected, -, -, hturn⟩ :=
    @checkTurn_cases na hex disk line t
  · rwa [hturn]
  · rcases hturn with ⟨-, hturn⟩ | ⟨-, hturn⟩
    · rwa [hturn]
    · obtain ⟨hmismatch, hother⟩ :=
        @checkHash_counters na disk filepath (t.expecting filepath expected) t
      rw [hturn]
      by_cases h : MissingOrAltered na disk filepath (t.expecting filepath expected).expectedHash
      · rw [hmismatch h]
        omega
      · rwa [(hother h).1]

/-- The turn of a file that is checked, in front of lines of which it is known. -/
theorem mismatches_checked_iff
    {s : CheckState}
    (hroom : (s.count : Int) < maxResults)
    (filepath : CString) (expected : Hash) (lines : List Bytes)
    (ih : ∀ t : CheckState,
      (checkLines na hex disk maxResults lines t).mismatches = t.mismatches ↔
        ¬ MismatchBefore na disk (maxResults - t.count)
          (filesRead na hex disk t.slots (lines.filterMap checkAllFields))) :
    (checkLines na hex disk maxResults lines
        (checkHash na disk filepath (s.expecting filepath expected) s)).mismatches = s.mismatches
      ↔
    ¬ MismatchBefore na disk (maxResults - s.count)
      (⟨filepath, expected⟩ :: filesRead na hex disk
        (if Unhashable na disk ⟨filepath, expected⟩ then fun k => s.slots (k + 1)
          else Function.update s.slots 0 expected)
        (lines.filterMap checkAllFields)) := by
  obtain ⟨hmismatch, hother⟩ :=
    @checkHash_counters na disk filepath (s.expecting filepath expected) s
  rw [mismatchBefore_cons_iff]
  by_cases h : MissingOrAltered na disk filepath expected
  · have hle :=
      @mismatches_le_checkLines na hex disk maxResults lines
        (checkHash na disk filepath (s.expecting filepath expected) s)
    rw [hmismatch h] at hle
    have hfound : (0 : Int) < maxResults - s.count := by omega
    simp only [hfound, h, and_self, true_or, not_true_eq_false, iff_false]
    omega
  · have hnext := ih (checkHash na disk filepath (s.expecting filepath expected) s)
    have hleft := room_checkHash filepath (s.expecting filepath expected) s h maxResults
    rw [(hother h).1, checkHash_slots filepath (s.expecting filepath expected) s h, hleft,
      CheckState.expecting_expectedHash] at hnext
    rw [hnext]
    simp only [h, and_false, false_or]

/-- The loop counts a mismatch exactly when it has room left for a file, among those that the
lines are read as, that is missing or altered. -/
theorem mismatches_eq_iff
    (lines : List Bytes) (s : CheckState) :
    (checkLines na hex disk maxResults lines s).mismatches = s.mismatches
      ↔
    ¬ MismatchBefore na disk (maxResults - s.count)
      (filesRead na hex disk s.slots (lines.filterMap checkAllFields)) := by
  induction lines generalizing s with
  | nil =>
      simp [checkLines, filesRead, MismatchBefore]
  | cons line lines ih =>
      by_cases hroom : (s.count : Int) < maxResults
      swap
      · rw [checkLines_of_full hroom]
        exact iff_of_true rfl (not_mismatchBefore_of_full (by omega) _)
      rw [checkLines, if_pos hroom]
      obtain ⟨hfields, hturn⟩ | ⟨storedHex, filepath, converted, expected, hfields, hread, hturn⟩ :=
        @checkTurn_cases na hex disk line s
      · rw [hturn, List.filterMap_cons_none hfields, ih]
      rw [List.filterMap_cons_some hfields, filesRead, hread]
      obtain ⟨rfl, hturn⟩ | ⟨rfl, hturn⟩ := hturn
      · have hnext := ih (s.store (s.expecting filepath expected))
        rw [slots_store, CheckState.expecting_expectedHash] at hnext
        rw [hturn]
        exact hnext
      · rw [hturn]
        exact mismatches_checked_iff hroom filepath expected lines ih

end Loop

section Words

variable {na : Sodium} {hex : HexCodec} {disk later : Disk} {recorded : List Recorded}
variable {maxResults : Int}

/-- Lines that are skipped change nothing. -/
theorem checkLines_of_skipped
    {pre : List Bytes}
    (hskipped : ∀ line ∈ pre, ∀ s, checkTurn na hex disk line s = s)
    (lines : List Bytes) (s : CheckState) :
    checkLines na hex disk maxResults (pre ++ lines) s =
      checkLines na hex disk maxResults lines s := by
  induction pre with
  | nil =>
      rfl
  | cons line pre ih =>
      rw [List.forall_mem_cons] at hskipped
      rw [List.cons_append, checkLines]
      split_ifs with hroom
      · rw [hskipped.1 s, ih hskipped.2]
      · rw [checkLines_of_full hroom]

/-- The report is clean exactly when no file that the database is read as, before the results
are full, is missing or altered. -/
theorem clean_iff
    (recorded : List Recorded) (results : Nat → IntegrityResult) :
    (integrityCheckAll na hex later (databaseText hex recorded) results maxResults).mismatches =
        0
      ↔
    ¬ MismatchBefore na later maxResults (readAs na hex later results recorded) := by
  have hloop :=
    @mismatches_eq_iff na hex later maxResults
      (recorded.flatMap fun e => linesOf 1024 (e.line hex)) ⟨results, 0, 0⟩
  rw [integrityCheckAll, linesOf_databaseText,
    checkLines_of_skipped fun line hline => checkTurn_header hline]
  rw [List.filterMap_flatMap] at hloop
  have hslots :
      CheckState.slots ⟨results, 0, 0⟩ = fun k => (results k).expectedHash := by
    funext k
    simp [CheckState.slots]
  have hroom :
      maxResults - ((CheckState.mk results 0 0).count : Int) = maxResults := by
    simp
  rw [hslots, hroom] at hloop
  exact hloop

/-- What is read behind other entries is read into other slots. -/
theorem filesRead_append
    (slots : Nat → Hash) (entries entries' : List (CString × CString)) :
    ∃ slots',
      filesRead na hex later slots (entries ++ entries') =
        filesRead na hex later slots entries ++ filesRead na hex later slots' entries' := by
  induction entries generalizing slots with
  | nil =>
      exact ⟨slots, rfl⟩
  | cons entry entries ih =>
      obtain ⟨storedHex, filepath⟩ := entry
      rcases hread : hex.hex2bin storedHex (slots 0) with ⟨converted, expected⟩
      cases converted with
      | false =>
          simp only [List.cons_append, filesRead, hread]
          exact ih _
      | true =>
          simp only [List.cons_append, filesRead, hread]
          obtain ⟨slots', hrest⟩ :=
            ih (if Unhashable na later ⟨filepath, expected⟩ then fun k => slots (k + 1)
              else Function.update slots 0 expected)
          exact ⟨slots', by rw [hrest]⟩

/-- A path without a newline is read from one line, up to its first white space. -/
theorem entries_cut
    {e : Recorded}
    (hhex : HexCorrect hex)
    (hline : (10 : UInt8) ∉ e.path.bytes)
    (hne : (firstWord e.path).bytes ≠ [])
    (hshort : e.path.strlen < 512) :
    e.entries hex = [(hex.bin2hex e.hash, firstWord e.path)] := by
  rw [Recorded.entries, linesOf_recorded hhex hline hshort,
    List.filterMap_cons_some (fields_cut hhex hne hshort).1, List.filterMap_nil]

/-- All digits of a hash are read back, whatever is in the slot. -/
theorem filesRead_cut
    (hhex : HexCorrect hex)
    (recorded : List Recorded) (slots : Nat → Hash) :
    filesRead na hex later slots
        (recorded.flatMap fun e => [(hex.bin2hex e.hash, firstWord e.path)]) =
      recorded.map Recorded.cut := by
  induction recorded generalizing slots with
  | nil =>
      rfl
  | cons e recorded ih =>
      simp only [List.flatMap_cons, List.cons_append, List.nil_append, filesRead,
        hhex.hex2bin_bin2hex, ih, List.map_cons, Recorded.cut]

/-- Paths without newlines are read up to their first white space. -/
theorem readAs_cut
    (hhex : HexCorrect hex)
    (hlines : ∀ e ∈ recorded, (10 : UInt8) ∉ e.path.bytes)
    (hpaths : ∀ e ∈ recorded, (firstWord e.path).bytes ≠ [] ∧ e.path.strlen < 512)
    (results : Nat → IntegrityResult) :
    readAs na hex later results recorded = recorded.map Recorded.cut := by
  have hentries :
      recorded.flatMap (Recorded.entries hex) =
        recorded.flatMap fun e => [(hex.bin2hex e.hash, firstWord e.path)] :=
    List.flatMap_congr fun e he => entries_cut hhex (hlines e he) (hpaths e he).1 (hpaths e he).2
  rw [readAs, hentries, filesRead_cut hhex]

/-- The first word of a path that begins with a slash is not empty. -/
theorem firstWord_ne_nil
    {path : CString}
    (h : path.bytes.head? = some 47) :
    (firstWord path).bytes ≠ [] := by
  obtain ⟨rest, hrest⟩ := List.head?_eq_some_iff.mp h
  have hslash : isSpace 47 = false := by decide
  simp [firstWord, hrest, hslash]

/-- A path without white space that the loop comes to is among the files that are read, with what
is read before it. -/
theorem readAs_split
    {pre post : List Recorded} {e : Recorded}
    (hhex : HexCorrect hex)
    (hword : IsWord e.path.bytes)
    (hne : e.path.bytes ≠ [])
    (hshort : e.path.strlen < 512)
    (results : Nat → IntegrityResult) :
    ∃ rest,
      readAs na hex later results (pre ++ e :: post) =
        readAs na hex later results pre ++ e :: rest := by
  have hfirst := firstWord_of_isWord hword
  have hentries :=
    @entries_cut hex e hhex hword.newline_not_mem (by rwa [hfirst]) hshort
  rw [hfirst] at hentries
  obtain ⟨slots, hsplit⟩ :=
    @filesRead_append na hex later (fun k => (results k).expectedHash)
      (pre.flatMap (Recorded.entries hex)) ((e :: post).flatMap (Recorded.entries hex))
  refine ⟨filesRead na hex later
    (if Unhashable na later e then fun k => slots (k + 1) else Function.update slots 0 e.hash)
    (post.flatMap (Recorded.entries hex)), ?_⟩
  rw [readAs, List.flatMap_append, hsplit, List.flatMap_cons, hentries, List.cons_append,
    List.nil_append, filesRead, hhex.hex2bin_bin2hex]
  rfl

/-- It matters how the lists in front of the recorded files are read. -/
theorem restIntact_congr
    {read read' : List Recorded → List Recorded}
    (h : ∀ pre e post, recorded = pre ++ e :: post → read pre = read' pre) :
    RestIntact na later maxResults read recorded ↔
      RestIntact na later maxResults read' recorded := by
  constructor
  · rintro ⟨hhashable, hintact⟩
    refine ⟨hhashable, fun pre e post hsplit => ?_⟩
    rw [← h pre e post hsplit]
    exact hintact pre e post hsplit
  · rintro ⟨hhashable, hintact⟩
    refine ⟨hhashable, fun pre e post hsplit => ?_⟩
    rw [h pre e post hsplit]
    exact hintact pre e post hsplit

/-- Paths that are words are read as they are. -/
theorem map_cut_of_words
    (hwords : ∀ e ∈ recorded, IsWord e.path.bytes) :
    recorded.map Recorded.cut = recorded := by
  refine (List.map_congr_left fun e he => ?_).trans (List.map_id recorded)
  rw [Recorded.cut, firstWord_of_isWord (hwords e he)]
  rfl

/-- Where no path has white space, every file is looked at as long as all can be hashed. -/
theorem restIntact_words_iff
    (hwords : ∀ e ∈ recorded, IsWord e.path.bytes)
    (hpositive : 1 ≤ maxResults) :
    RestIntact na later maxResults (List.map Recorded.cut) recorded
      ↔
    ∀ e ∈ recorded, ¬ Unhashable na later e := by
  refine ⟨RestIntact.hashable, fun hhashable => ⟨hhashable, ?_⟩⟩
  rintro pre e post rfl (hspace | hfull)
  · exact absurd (hwords e (by simp)) hspace
  · have hpre := map_cut_of_words fun p hp => hwords p (List.mem_append_left _ hp)
    have hnone : (pre.countP fun p => decide (Unhashable na later p)) = 0 := by
      rw [List.countP_eq_zero]
      intro p hp
      simpa using hhashable p (List.mem_append_left _ hp)
    rw [hpre, hnone] at hfull
    omega

/-- Of any database a clean report is sound exactly when a file that it is read as, before the
results are full, is missing or altered, or the files that are not looked at are intact. -/
theorem cleanSound_iff
    (hhex : HexCorrect hex)
    (hprinted : ∀ e ∈ recorded, Printed na disk e)
    (results : Nat → IntegrityResult) :
    CleanSound na hex later recorded results maxResults
      ↔
    MismatchBefore na later maxResults (readAs na hex later results recorded) ∨
      RestIntact na later maxResults (readAs na hex later results) recorded := by
  rw [CleanSound, clean_iff]
  constructor
  · intro hsound
    by_cases hbefore : MismatchBefore na later maxResults (readAs na hex later results recorded)
    · exact Or.inl hbefore
    · have hall := hsound hbefore
      refine Or.inr ⟨fun e he hbad => not_intact_of_unhashable hbad (hall e he), ?_⟩
      rintro pre e post rfl -
      exact hall e (by simp)
  · rintro (hbefore | hrest) hclean e he
    · exact absurd hbefore hclean
    obtain ⟨pre, post, hsplit⟩ := List.append_of_mem he
    by_cases hseen :
        IsWord e.path.bytes ∧
          (((readAs na hex later results pre).countP
            fun p => decide (Unhashable na later p) : Nat) : Int) < maxResults
    · obtain ⟨hword, hroom⟩ := hseen
      obtain ⟨rest, hread⟩ :=
        @readAs_split na hex later pre post e hhex hword (hprinted e he).nonempty
          (hprinted e he).short results
      rw [hsplit] at hclean
      exact intact_of_not (fun hbad => hclean ⟨_, e, rest, hread, hroom, hbad⟩)
        (hrest.hashable e he)
    · refine hrest.intact pre e post hsplit ?_
      rw [not_and_or, not_lt] at hseen
      exact hseen

end Words

/--
**A clean report.**

For every file tree that was recorded and every later state of the file system, a clean
report is sound if and only if one of the files that the database is read as is missing or
altered, before the results are full of files that cannot be hashed, or every recorded file that
exists can be hashed and those that are not looked at are intact.  Without newlines in the paths
the database is read as the recorded files with each path cut at its first white space.  Without
any white space a clean report is sound if and only if every recorded file that exists can be
hashed, or a file recorded before the `maxResults`-th one that cannot is missing or altered.
-/
theorem clean_report_sound_iff
    (na : Sodium) (hex : HexCodec)
    (hhex : HexCorrect hex)
    (disk later : Disk) (fuel : Nat) (recorded : List Recorded)
    (hinit : integrityInitDatabase na disk fuel = some recorded)
    (results : Nat → IntegrityResult) (maxResults : Int)
    (hpositive : 1 ≤ maxResults) :
    (CleanSound na hex later recorded results maxResults
      ↔
    MismatchBefore na later maxResults (readAs na hex later results recorded) ∨
      RestIntact na later maxResults (readAs na hex later results) recorded)
      ∧
    ((∀ e ∈ recorded, (10 : UInt8) ∉ e.path.bytes) →
      (CleanSound na hex later recorded results maxResults
        ↔
      MismatchBefore na later maxResults (recorded.map Recorded.cut) ∨
        RestIntact na later maxResults (List.map Recorded.cut) recorded))
      ∧
    ((∀ e ∈ recorded, IsWord e.path.bytes) →
      (CleanSound na hex later recorded results maxResults
        ↔
      (∀ e ∈ recorded, ¬ Unhashable na later e) ∨
        MismatchBefore na later maxResults recorded)) := by
  have hprinted := printed_of_init hinit
  have hrooted := rooted_of_init hinit
  have hlines :
      (∀ e ∈ recorded, (10 : UInt8) ∉ e.path.bytes) →
        (CleanSound na hex later recorded results maxResults
          ↔
        MismatchBefore na later maxResults (recorded.map Recorded.cut) ∨
          RestIntact na later maxResults (List.map Recorded.cut) recorded) := by
    intro hlines
    have hread :
        ∀ files : List Recorded, (∀ e ∈ files, e ∈ recorded) →
          readAs na hex later results files = files.map Recorded.cut :=
      fun files hfiles =>
        readAs_cut hhex (fun e he => hlines e (hfiles e he))
          (fun e he => ⟨firstWord_ne_nil (hrooted e (hfiles e he)),
            (hprinted e (hfiles e he)).short⟩) results
    rw [cleanSound_iff hhex hprinted results, hread recorded fun _ => id,
      restIntact_congr fun pre e post hsplit => hread pre fun p hp => by simp [hsplit, hp]]
  refine ⟨cleanSound_iff hhex hprinted results, hlines, fun hwords => ?_⟩
  rw [hlines fun e he => (hwords e he).newline_not_mem, map_cut_of_words hwords,
    restIntact_words_iff hwords hpositive, or_comm]

section Examples

/-- The files `/etc/a b` and `/etc/a` are recorded with the same content and stay as they are.  The
line of the first one is read as one about the second, so the report is clean, and it is sound. -/
theorem unchanged_files_clean_sound :
    ∃ recorded,
      integrityInitDatabase mirror (etcFiles [("a b", some [7]), ("a", some [7])]) 1 =
          some recorded ∧
        recorded.map Recorded.path = [cstr (ascii "/etc/a b"), cstr (ascii "/etc/a")] ∧
        (integrityCheckAll mirror plainHex (etcFiles [("a b", some [7]), ("a", some [7])])
            (databaseText plainHex recorded) (fun _ => emptyResult) 1024).mismatches = 0 ∧
        CleanSound mirror plainHex (etcFiles [("a b", some [7]), ("a", some [7])]) recorded
          (fun _ => emptyResult) 1024 := by
  have hinit :
      (integrityInitDatabase mirror (etcFiles [("a b", some [7]), ("a", some [7])]) 1).map
          (fun recorded =>
            (recorded.map Recorded.path,
              (integrityCheckAll mirror plainHex (etcFiles [("a b", some [7]), ("a", some [7])])
                (databaseText plainHex recorded) (fun _ => emptyResult) 1024).mismatches)) =
        some ([cstr (ascii "/etc/a b"), cstr (ascii "/etc/a")], 0) := by
    decide +kernel
  obtain ⟨recorded, hrecorded, hfound⟩ := Option.map_eq_some_iff.mp hinit
  obtain ⟨hpaths, hmismatches⟩ := Prod.mk.inj hfound
  have hlines : ∀ e ∈ recorded, (10 : UInt8) ∉ e.path.bytes := by
    have hall : ∀ p ∈ recorded.map Recorded.path, (10 : UInt8) ∉ p.bytes := by
      rw [hpaths]
      decide +kernel
    exact fun e he => hall e.path (List.mem_map_of_mem he)
  have hintact :
      ∀ e ∈ recorded, Intact mirror (etcFiles [("a b", some [7]), ("a", some [7])]) e := by
    intro e he
    have hhash := (printed_of_init hrecorded e he).hash
    obtain ⟨content, hread, -⟩ := Option.map_eq_some_iff.mp hhash
    exact ⟨Disk.access_of_read _ e.path (by rw [hread]; exact Option.some_ne_none content), hhash⟩
  have hsound :=
    (clean_report_sound_iff mirror plainHex plainHex_correct
      (etcFiles [("a b", some [7]), ("a", some [7])])
      (etcFiles [("a b", some [7]), ("a", some [7])]) 1 recorded hrecorded
      (fun _ => emptyResult) 1024 (by decide)).2.1 hlines
  refine ⟨recorded, hrecorded, hpaths, hmismatches, hsound.mpr (Or.inr ⟨?_, ?_⟩)⟩
  · exact fun e he hbad => not_intact_of_unhashable hbad (hintact e he)
  · rintro pre e post rfl -
    exact hintact e (by simp)

/-- The file system of `oneFile`, where the file cannot be read any more. -/
def unreadable (name : CString) : Disk :=
  { oneFile name [] with
    read := fun _ => none
    access_of_read := fun _ h => absurd rfl h }

/-- The file `/etc/a` is recorded and cannot be read later: the report is clean, though the
file cannot be hashed. -/
theorem unreadable_file_clean :
    HexCorrect plainHex ∧
      ∃ recorded e,
        integrityInitDatabase mirror (oneFile (cstr (ascii "a")) [7]) 1 = some recorded ∧
          e ∈ recorded ∧
          (integrityCheckAll mirror plainHex (unreadable (cstr (ascii "a")))
              (databaseText plainHex recorded) (fun _ => emptyResult) 1024).mismatches = 0 ∧
          Unhashable mirror (unreadable (cstr (ascii "a"))) e ∧
          ¬ CleanSound mirror plainHex (unreadable (cstr (ascii "a"))) recorded
            (fun _ => emptyResult) 1024 := by
  have hinit :
      (integrityInitDatabase mirror (oneFile (cstr (ascii "a")) [7]) 1).map (fun recorded =>
          (recorded.map Recorded.path,
            (integrityCheckAll mirror plainHex (unreadable (cstr (ascii "a")))
              (databaseText plainHex recorded) (fun _ => emptyResult) 1024).mismatches)) =
        some ([cstr (ascii "/etc/a")], 0) := by
    decide +kernel
  obtain ⟨recorded, hrecorded, hfound⟩ := Option.map_eq_some_iff.mp hinit
  obtain ⟨hpaths, hmismatches⟩ := Prod.mk.inj hfound
  obtain ⟨e, rfl, -⟩ := List.map_eq_singleton_iff.mp hpaths
  have hpath : e.path = cstr (ascii "/etc/a") := by
    simpa using hpaths
  have hbad : Unhashable mirror (unreadable (cstr (ascii "a"))) e := by
    constructor
    · rw [hpath]
      decide +kernel
    · rfl
  refine ⟨plainHex_correct, [e], e, hrecorded, List.mem_singleton_self e, hmismatches, hbad, ?_⟩
  intro hsound
  exact not_intact_of_unhashable hbad (hsound hmismatches e (List.mem_singleton_self e))

end Examples

end Integrity
end SecureZ

