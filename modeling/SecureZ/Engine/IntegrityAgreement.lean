import SecureZ.Engine.IntegrityReport
import Mathlib.Data.List.Nodup

/-!
# The check of one file and the check of all

`integrity_check_all` goes through the database and looks at each file; `integrity_check_file`
looks at the file and searches the database for its path.  They test for existence, hash,
look up and decode in different orders, and the first one fills the result at the current
index anew for every entry until it is counted.

Both come to the same verdict on an entry, and the report lists the entries with a problem in
the order of the database.
-/

namespace SecureZ
namespace Integrity

open CLib
open CryptoCore

section Specification

/-- The results that are counted: path and status of each. -/
def CheckState.reported (s : CheckState) : List (CString × IntegrityStatus) :=
  (List.range s.count).map fun i => ((s.results i).path.text, (s.results i).status)

variable (na : Sodium) (hex : HexCodec) (later : Disk) (recorded : List Recorded)

/-- The status that `integrity_check_file` gives for a path. -/
def fileStatus (path : CString) (result : IntegrityResult) : IntegrityStatus :=
  (integrityCheckFile na hex later (some (databaseText hex recorded)) path result).2.status

/-- The status that a report gives for a path. -/
def reportedStatus (report : List (CString × IntegrityStatus)) (path : CString) :
    Option IntegrityStatus :=
  (report.find? fun r => r.1 = path).map Prod.snd

/-- The two checks agree on the database of the files `recorded`. -/
structure ChecksAgree (maxResults : Int) : Prop where
  /-- The check of one file gives the status that is reported for it, or OK. -/
  status :
    ∀ results result, ∀ e ∈ recorded,
      fileStatus na hex later recorded e.path result =
        (reportedStatus
          (integrityCheckAll na hex later (databaseText hex recorded) results maxResults).reported
          e.path).getD .ok
  /-- The files with a problem are reported in the order of the database. -/
  inOrder :
    ∀ results result,
      ((integrityCheckAll na hex later (databaseText hex recorded) results
          maxResults).reported).map Prod.fst =
        (recorded.map Recorded.path).filter fun path =>
          fileStatus na hex later recorded path result ≠ .ok
  /-- Each of them is reported once. -/
  once :
    ∀ results,
      (((integrityCheckAll na hex later (databaseText hex recorded) results
          maxResults).reported).map Prod.fst).Nodup

end Specification

section Verdicts

variable {na : Sodium} {hex : HexCodec} {later : Disk} {recorded : List Recorded} {e : Recorded}

/-- The verdict on an entry of the database. -/
def verdict (na : Sodium) (later : Disk) (e : Recorded) : IntegrityStatus :=
  if later.access e.path = false then .missing
  else
    match cryptoHashFile na later e.path with
    | none => .error
    | some actual => if e.hash = actual then .ok else .modified

/-- What an entry adds to the report. -/
def problem (na : Sodium) (later : Disk) (e : Recorded) : Option (CString × IntegrityStatus) :=
  if verdict na later e = .ok then none else some (e.path, verdict na later e)

@[simp] theorem CheckState.count_report
    (s : CheckState) (r : IntegrityResult) (mismatch : Bool) :
    (s.report r mismatch).count = s.count + 1 := by
  rfl

@[simp] theorem CheckState.count_store
    (s : CheckState) (r : IntegrityResult) :
    (s.store r).count = s.count := by
  rfl

/-- A result that is counted joins the report. -/
theorem reported_report
    (s : CheckState) (r : IntegrityResult) (mismatch : Bool) :
    (s.report r mismatch).reported = s.reported ++ [(r.path.text, r.status)] := by
  have hbelow :
      ∀ i ∈ List.range s.count,
        ((Function.update s.results s.count r i).path.text,
            (Function.update s.results s.count r i).status) =
          ((s.results i).path.text, (s.results i).status) := by
    intro i hi
    have hne : i ≠ s.count := (List.mem_range.mp hi).ne
    rw [Function.update_of_ne hne]
  simp only [CheckState.reported, CheckState.report, List.range_succ, List.map_append,
    List.map_cons, List.map_nil, Function.update_self, List.map_congr_left hbelow]

/-- A result that is not counted does not show, whatever is left of it for the next entry. -/
theorem reported_store
    (s : CheckState) (r : IntegrityResult) :
    (s.store r).reported = s.reported := by
  refine List.map_congr_left fun i hi => ?_
  have hne : i ≠ s.count := (List.mem_range.mp hi).ne
  simp only [CheckState.store, Function.update_of_ne hne]

/-- One turn of the full check adds the problem of its entry, and counts one at most. -/
theorem checkTurn_reported
    (hhex : HexCorrect hex)
    (hword : IsWord e.path.bytes)
    (hne : e.path.bytes ≠ [])
    (hshort : e.path.strlen < 512)
    (s : CheckState) :
    (checkTurn na hex later (e.line hex) s).reported =
        s.reported ++ (problem na later e).toList ∧
      (checkTurn na hex later (e.line hex) s).count ≤ s.count + 1 := by
  have hpath : (s.expecting e.path e.hash).path.text = e.path :=
    CharArray.store_text_of_fits hshort
  rw [checkTurn_line hhex hword hne hshort, checkHash, problem, verdict]
  cases haccess : later.access e.path with
  | false =>
      simp [reported_report, hpath]
  | true =>
  cases hhash : cryptoHashFile na later e.path with
  | none =>
      simp [reported_report, hpath]
  | some actual =>
      by_cases hsame : e.hash = actual
      · simp [hsame, reported_store]
      · simp [hsame, reported_report, hpath]

/-- The loop of the full check adds the problems of its entries, in order, when there is room
for all of them. -/
theorem checkLines_reported
    {maxResults : Int}
    (hhex : HexCorrect hex)
    (hwords : ∀ e ∈ recorded, IsWord e.path.bytes)
    (hpaths : ∀ e ∈ recorded, e.path.bytes ≠ [] ∧ e.path.strlen < 512)
    (s : CheckState)
    (hroom : (s.count : Int) + recorded.length ≤ maxResults) :
    (checkLines na hex later maxResults (recorded.map (Recorded.line hex)) s).reported =
      s.reported ++ recorded.filterMap (problem na later) := by
  induction recorded generalizing s with
  | nil =>
      simp [checkLines]
  | cons e recorded ih =>
      rw [List.forall_mem_cons] at hwords hpaths
      rw [List.length_cons] at hroom
      obtain ⟨hturn, hcount⟩ :=
        @checkTurn_reported na hex later e hhex hwords.1 hpaths.1.1 hpaths.1.2 s
      rw [List.map_cons, checkLines, if_pos (by omega), ih hwords.2 hpaths.2 _ (by omega), hturn,
        List.append_assoc]
      congr 1
      cases hproblem : problem na later e <;> simp [hproblem]

/-- The full check of a database of words reports the entries with a problem. -/
theorem integrityCheckAll_reported
    {disk : Disk} {maxResults : Int}
    (hhex : HexCorrect hex)
    (hprinted : ∀ e ∈ recorded, Printed na disk e)
    (hwords : ∀ e ∈ recorded, IsWord e.path.bytes)
    (hroom : (recorded.length : Int) ≤ maxResults)
    (results : Nat → IntegrityResult) :
    (integrityCheckAll na hex later (databaseText hex recorded) results maxResults).reported =
      recorded.filterMap (problem na later) := by
  rw [integrityCheckAll, linesOf_words hhex hprinted hwords,
    checkLines_of_skipped fun line hline => checkTurn_header hline,
    checkLines_reported hhex hwords
      (fun e he => ⟨(hprinted e he).nonempty, (hprinted e he).short⟩) _ (by simpa using hroom)]
  rfl

/-- A path that is recorded once is looked up with its own hash. -/
theorem findHex_of_mem
    {disk : Disk}
    (hhex : HexCorrect hex)
    (hprinted : ∀ e ∈ recorded, Printed na disk e)
    (hwords : ∀ e ∈ recorded, IsWord e.path.bytes)
    (hdistinct : (recorded.map Recorded.path).Nodup)
    (he : e ∈ recorded) :
    findHex e.path (linesOf 1024 (databaseText hex recorded)) = some (hex.bin2hex e.hash) := by
  rw [findHex, filterMap_fields hhex hprinted hwords, List.find?_map, Option.map_map]
  cases hfind : recorded.find? ((fun fields => decide (fields.2 = e.path)) ∘
      fun e => (hex.bin2hex e.hash, e.path)) with
  | none =>
      have hnone := List.find?_eq_none.mp hfind e he
      simp at hnone
  | some e' =>
      have hpath : e'.path = e.path := by simpa using List.find?_some hfind
      obtain rfl : e' = e :=
        List.inj_on_of_nodup_map hdistinct (List.mem_of_find?_eq_some hfind) he hpath
      rfl

/-- The check of one recorded file gives the verdict on its entry. -/
theorem fileStatus_of_mem
    {disk : Disk}
    (hhex : HexCorrect hex)
    (hprinted : ∀ e ∈ recorded, Printed na disk e)
    (hwords : ∀ e ∈ recorded, IsWord e.path.bytes)
    (hdistinct : (recorded.map Recorded.path).Nodup)
    (he : e ∈ recorded)
    (result : IntegrityResult) :
    fileStatus na hex later recorded e.path result = verdict na later e := by
  have hfound := findHex_of_mem hhex hprinted hwords hdistinct he
  rw [fileStatus, integrityCheckFile, verdict]
  cases haccess : later.access e.path with
  | false =>
      simp
  | true =>
  cases hhash : cryptoHashFile na later e.path with
  | none =>
      simp
  | some actual =>
      by_cases hsame : e.hash = actual <;> simp [hfound, hhex.hex2bin_bin2hex, hsame]

/-- A problem is reported under the path of its entry. -/
theorem path_of_problem
    {r : CString × IntegrityStatus}
    (h : problem na later e = some r) :
    r.1 = e.path := by
  unfold problem at h
  split_ifs at h
  rw [← Option.some.inj h]

/-- The paths of the problems are those of the entries that are not OK. -/
theorem map_fst_problems
    (na : Sodium) (later : Disk) (recorded : List Recorded) :
    (recorded.filterMap (problem na later)).map Prod.fst =
      (recorded.filter fun e => verdict na later e ≠ .ok).map Recorded.path := by
  induction recorded with
  | nil =>
      rfl
  | cons e recorded ih =>
      by_cases hok : verdict na later e = .ok
      · have hproblem : problem na later e = none := if_pos hok
        rw [List.filterMap_cons_none hproblem, ih, List.filter_cons_of_neg (by simpa using hok)]
      · have hproblem : problem na later e = some (e.path, verdict na later e) := if_neg hok
        rw [List.filterMap_cons_some hproblem, List.map_cons, ih,
          List.filter_cons_of_pos (by simpa using hok), List.map_cons]

/-- Among entries with distinct paths, the problem that is found under a path is that of its
entry. -/
theorem reportedStatus_of_mem
    (hdistinct : (recorded.map Recorded.path).Nodup)
    (he : e ∈ recorded) :
    reportedStatus (recorded.filterMap (problem na later)) e.path =
      (problem na later e).map Prod.snd := by
  have howner :
      ∀ r ∈ recorded.filterMap (problem na later),
        r.1 = e.path → problem na later e = some r := by
    intro r hr hpath
    obtain ⟨e', he', hproblem⟩ := List.mem_filterMap.mp hr
    obtain rfl : e' = e :=
      List.inj_on_of_nodup_map hdistinct he' he ((path_of_problem hproblem).symm.trans hpath)
    exact hproblem
  rw [reportedStatus]
  cases hfind : (recorded.filterMap (problem na later)).find? fun r => r.1 = e.path with
  | some r =>
      have hpath : r.1 = e.path := by simpa using List.find?_some hfind
      rw [howner r (List.mem_of_find?_eq_some hfind) hpath]
  | none =>
      cases hproblem : problem na later e with
      | none =>
          rfl
      | some r =>
          have hnone :=
            List.find?_eq_none.mp hfind r (List.mem_filterMap.mpr ⟨e, he, hproblem⟩)
          simp [path_of_problem hproblem] at hnone

/-- The status that the report of the problems gives, or OK, is the verdict. -/
theorem getD_map_problem
    (na : Sodium) (later : Disk) (e : Recorded) :
    ((problem na later e).map Prod.snd).getD .ok = verdict na later e := by
  unfold problem
  split_ifs with hok
  · exact hok.symm
  · rfl

end Verdicts

/--
**The two checks.**

For every database that was written for distinct paths without white space, and every later
state of the file system: when there is room for all results, the check of one file gives the
status that the full check reports for its path, or OK when it reports none, and the full
check reports each file with a problem once, in the order of the database.
-/
theorem checks_agree
    (na : Sodium) (hex : HexCodec)
    (hhex : HexCorrect hex)
    (disk later : Disk) (fuel : Nat) (recorded : List Recorded)
    (hinit : integrityInitDatabase na disk fuel = some recorded)
    (hwords : ∀ e ∈ recorded, IsWord e.path.bytes)
    (hdistinct : (recorded.map Recorded.path).Nodup)
    (maxResults : Int)
    (hroom : (recorded.length : Int) ≤ maxResults) :
    ChecksAgree na hex later recorded maxResults := by
  have hprinted := printed_of_init hinit
  have hreport := @integrityCheckAll_reported na hex later recorded disk maxResults hhex hprinted
    hwords hroom
  have hstatus := fun e he =>
    @fileStatus_of_mem na hex later recorded e disk hhex hprinted hwords hdistinct he
  have hfilter :
      ∀ result,
        ((recorded.map Recorded.path).filter fun path =>
            fileStatus na hex later recorded path result ≠ .ok) =
          (recorded.filter fun e => verdict na later e ≠ .ok).map Recorded.path := by
    intro result
    rw [List.filter_map]
    congr 1
    refine List.filter_congr fun e he => ?_
    simp only [Function.comp_apply, hstatus e he result]
  refine ⟨?_, ?_, ?_⟩
  · intro results result e he
    rw [hreport, reportedStatus_of_mem hdistinct he, getD_map_problem, hstatus e he]
  · intro results result
    rw [hreport, map_fst_problems, hfilter]
  · intro results
    rw [hreport, map_fst_problems]
    exact hdistinct.sublist (List.filter_sublist.map Recorded.path)

section Examples

/-- Of four recorded files the first is kept, and the others cannot be read, are missing and are
altered later.  The two checks agree on them. -/
theorem problems_agree :
    ∃ recorded,
      integrityInitDatabase mirror
          (etcFiles [("a", some [7]), ("b", some [8]), ("c", some [9]), ("d", some [])]) 1 =
          some recorded ∧
        recorded.map Recorded.path =
          [cstr (ascii "/etc/a"), cstr (ascii "/etc/b"), cstr (ascii "/etc/c"),
            cstr (ascii "/etc/d")] ∧
        ChecksAgree mirror plainHex
          (etcFiles [("a", some [7]), ("b", none), ("d", some [1])]) recorded 1024 := by
  have hinit :
      (integrityInitDatabase mirror
          (etcFiles [("a", some [7]), ("b", some [8]), ("c", some [9]), ("d", some [])]) 1).map
          (List.map Recorded.path) =
        some [cstr (ascii "/etc/a"), cstr (ascii "/etc/b"), cstr (ascii "/etc/c"),
          cstr (ascii "/etc/d")] := by
    decide +kernel
  obtain ⟨recorded, hrecorded, hpaths⟩ := Option.map_eq_some_iff.mp hinit
  have hwords : ∀ p ∈ recorded.map Recorded.path, IsWord p.bytes := by
    rw [hpaths]
    decide +kernel
  refine ⟨recorded, hrecorded, hpaths,
    checks_agree mirror plainHex plainHex_correct _
      (etcFiles [("a", some [7]), ("b", none), ("d", some [1])]) 1 recorded
      hrecorded (fun e he => hwords e.path (List.mem_map_of_mem he)) ?_ 1024 ?_⟩
  · rw [hpaths]
    decide +kernel
  · have hlength := congrArg List.length hpaths
    rw [List.length_map] at hlength
    rw [hlength]
    decide

end Examples

end Integrity
end SecureZ
