import SecureZ.Lib.FileTree
import SecureZ.Lib.Stream

/-!
# The branch in the prompt

`detect_git_branch` of `prompt.c` goes from the working directory upwards and takes the first
line of the first `.git/HEAD` that it can open and read.  It cuts its buffer at the last slash
and stops when nothing would be left in front of it.

The main result is about every working directory and every state of the files: the branch is
that of the nearest repository, except that the directory at the root counts only when it is
the working directory itself.
-/

namespace SecureZ
namespace Shell

open CLib

section Model

/-- What `detect_git_branch` leaves in `branch`. -/
inductive BranchResult
  | absent
  | found (branch : CString)
  /-- A byte in front of the line was read. -/
  | undefined
deriving DecidableEq

/-- `prefix`. -/
def refPrefix : Bytes := ascii "ref: refs/heads/"

/-- What is copied of the line of a `HEAD`, into a buffer of 64 bytes. -/
def branchOf (line : CString) : BranchResult :=
  if refPrefix.isPrefixOf line.bytes then
    .found ((cstr (stripNewline (line.bytes.drop refPrefix.length))).take 63)
  else
    let hashLen := if line.strlen > 8 then 7 else line.strlen
    if hashLen = 0 then .undefined
    else if line.bytes[hashLen - 1]? = some 10 then .found (line.take (hashLen - 1))
    else .found (line.take hashLen)

/-- The path that is opened in a directory, in a buffer of 1024 bytes. -/
def headPath (cwd : CString) : CString :=
  cstr (snprintf 1024 (cwd.bytes ++ ascii "/.git/HEAD"))

/-- The index of the last slash. -/
def strrchrSlash (path : Bytes) : Option Nat :=
  let behind := (path.reverse.takeWhile (· ≠ 47)).length
  if behind = path.length then none else some (path.length - behind - 1)

/-- A directory up, unless the loop is left. -/
def goUp (cwd : CString) : Option CString :=
  match strrchrSlash cwd.bytes with
  | none => none
  | some 0 => none
  | some (i + 1) => some (cwd.take (i + 1))

/-- The line that is read of the `HEAD` in a directory; `files` tells what can be opened. -/
def headLine (files : CString → Option Bytes) (cwd : CString) : Option CString :=
  (files (headPath cwd)).bind fun content => (fgets 256 content).map fun r => cstr r.1

/-- A turn of the loop. -/
def branchTurn (files : CString → Option Bytes) (cwd : CString) : Turn CString BranchResult :=
  match headLine files cwd with
  | some line => .done (branchOf line)
  | none =>
      match goUp cwd with
      | none => .done .absent
      | some up => .next up

/-- `detect_git_branch`, with what `getcwd` gives. -/
def detectGitBranch (files : CString → Option Bytes) (cwd : Option CString) :
    Option BranchResult :=
  match cwd with
  | none => some .absent
  | some cwd => iterate (branchTurn files) (cwd.strlen + 1) cwd

end Model

section Specification

/-- The path of the directory below these names. -/
def directory (names : List FileName) : CString where
  bytes := if names = [] then [47] else names.flatMap fun n => 47 :: n.text.bytes
  nulFree := by
    have hfree : (0 : UInt8) ∉ names.flatMap fun n => 47 :: n.text.bytes := by
      simp only [List.mem_flatMap, not_exists, not_and, List.mem_cons, not_or]
      exact fun n _ => ⟨by decide, n.text.nulFree⟩
    split_ifs
    · decide
    · exact hfree

/-- What git writes into a `HEAD`. -/
inductive Head
  /-- The name of a branch. -/
  | branch (name : CString)
  /-- The hash of a commit. -/
  | detached (hash : CString)

/-- The name of a branch is on one line; a hash has forty hexadecimal digits. -/
def Head.WellFormed : Head → Prop
  | .branch name => (10 : UInt8) ∉ name.bytes
  | .detached hash =>
      hash.strlen = 40 ∧ ∀ b ∈ hash.bytes, (isDigit b || (97 ≤ b && b ≤ 102)) = true

/-- The text of the file. -/
def Head.text : Head → Bytes
  | .branch name => refPrefix ++ name.bytes ++ [10]
  | .detached hash => hash.bytes ++ [10]

/-- What is to be shown of it. -/
def Head.shown : Head → CString
  | .branch name => name.take 63
  | .detached hash => hash.take 7

/-- The `HEAD` of a repository in a directory. -/
def headFile (names : List FileName) : CString :=
  (directory names).append (cstr (ascii "/.git/HEAD"))

/-- There is no `HEAD` in the directory that can be opened, or it is empty. -/
def NoRepository (files : CString → Option Bytes) (names : List FileName) : Prop :=
  ∀ content, files (headFile names) = some content → content = []

/-- The nearest repository above or at a directory, that in the root excepted. -/
structure Nearest
    (files : CString → Option Bytes) (names above : List FileName) : Prop where
  isPrefix : above <+: names
  notRoot : above = [] → names = []
  repository : ¬ NoRepository files above
  none_below : ∀ below, above <+: below → below <+: names → below ≠ above →
    NoRepository files below

end Specification

section Directories

variable {files : CString → Option Bytes} {names above : List FileName}

theorem directory_ne
    (hne : names ≠ []) :
    (directory names).bytes = names.flatMap fun n => 47 :: n.text.bytes :=
  if_neg hne

/-- The last slash of a path is in front of its last name. -/
theorem strrchrSlash_append
    {front name : Bytes}
    (hname : (47 : UInt8) ∉ name) :
    strrchrSlash (front ++ 47 :: name) = some front.length := by
  have hall : ∀ b ∈ name.reverse, decide (b ≠ 47) = true := by
    intro b hb
    have : b ≠ 47 := fun h => hname (h ▸ List.mem_reverse.mp hb)
    simpa using this
  have hbehind : ((front ++ 47 :: name).reverse.takeWhile (· ≠ 47)).length = name.length := by
    rw [List.reverse_append, List.reverse_cons, List.append_assoc,
      List.takeWhile_append_of_pos hall]
    simp
  simp only [strrchrSlash, hbehind, List.length_append, List.length_cons]
  rw [if_neg (by omega)]
  congr 1
  omega

theorem goUp_root :
    goUp (directory []) = none := by
  decide

theorem goUp_snoc
    (names : List FileName) (n : FileName) :
    goUp (directory (names ++ [n])) = if names = [] then none else some (directory names) := by
  have hpath : (directory (names ++ [n])).bytes =
      (names.flatMap fun n => 47 :: n.text.bytes) ++ 47 :: n.text.bytes := by
    rw [directory_ne (by simp), List.flatMap_append]
    simp
  rw [goUp, hpath, strrchrSlash_append n.plain.noSlash]
  by_cases hne : names = []
  · rw [if_pos hne, hne]
    rfl
  · obtain ⟨m, ms, rfl⟩ := List.exists_cons_of_ne_nil hne
    rw [if_neg hne]
    have hlen : ((m :: ms).flatMap fun n => 47 :: n.text.bytes).length =
        (m.text.bytes ++ ms.flatMap fun n => 47 :: n.text.bytes).length + 1 := by
      simp
    simp only [hlen]
    congr 1
    ext1
    rw [directory_ne hne, ← hlen]
    change List.take _ (directory _).bytes = _
    rw [hpath, List.take_left]

theorem strlen_directory_snoc_le
    (names : List FileName) (n : FileName) :
    names ≠ [] → (directory names).strlen + 1 ≤ (directory (names ++ [n])).strlen := by
  intro hne
  rw [CString.strlen, CString.strlen, directory_ne hne, directory_ne (by simp),
    List.flatMap_append]
  simp

/-- In a directory with a path that is not too long, the `HEAD` itself is opened. -/
theorem headPath_directory
    (hlen : (directory names).strlen ≤ 1013) :
    headPath (directory names) = headFile names := by
  ext1
  rw [headPath, snprintf_of_fits, cstr_bytes_of_nulFree]
  · rfl
  · exact (headFile names).nulFree
  · rw [List.length_append]
    have hfixed : (ascii "/.git/HEAD").length = 10 := rfl
    simp only [CString.strlen] at hlen
    omega

/-- A line is read exactly when there is a repository. -/
theorem headLine_eq_none_iff
    (hlen : (directory names).strlen ≤ 1013) :
    headLine files (directory names) = none ↔ NoRepository files names := by
  rw [headLine, headPath_directory hlen, NoRepository]
  cases hopen : files (headFile names) with
  | none =>
      simp
  | some content =>
      cases content <;> simp [fgets]

end Directories

section Search

variable {files : CString → Option Bytes} {names above other : List FileName}

/-- There is one nearest repository. -/
theorem nearest_unique
    (h : Nearest files names above)
    (hother : Nearest files names other) :
    above = other := by
  rcases List.prefix_or_prefix_of_prefix h.isPrefix hother.isPrefix with hle | hle
  · by_contra hne
    exact hother.repository (h.none_below other hle hother.isPrefix (Ne.symm hne))
  · by_contra hne
    exact h.repository (hother.none_below above hle h.isPrefix hne)

/-- A repository in the directory itself is the nearest. -/
theorem nearest_self
    (h : ¬ NoRepository files names) :
    Nearest files names names where
  isPrefix := List.prefix_rfl
  notRoot := id
  repository := h
  none_below := fun _ hle hge hne =>
    absurd (hle.eq_of_length (Nat.le_antisymm hle.length_le hge.length_le)) (Ne.symm hne)

theorem prefix_snoc_iff
    {n : FileName} :
    above <+: names ++ [n] ↔ above = names ++ [n] ∨ above <+: names :=
  List.prefix_concat_iff

/-- Without one, it is that of the directory above. -/
theorem nearest_snoc_iff
    {n : FileName}
    (hnone : NoRepository files (names ++ [n]))
    (hne : names ≠ []) :
    Nearest files (names ++ [n]) above ↔ Nearest files names above := by
  constructor
  · intro h
    have hself : above ≠ names ++ [n] := fun hsame => h.repository (hsame ▸ hnone)
    have hunder := (prefix_snoc_iff.mp h.isPrefix).resolve_left hself
    exact ⟨hunder, fun hnil => absurd (h.notRoot hnil) (by simp), h.repository,
      fun below hle hge => h.none_below below hle (hge.trans (List.prefix_append _ _))⟩
  · intro h
    refine ⟨h.isPrefix.trans (List.prefix_append _ _), fun hnil => absurd (h.notRoot hnil) hne,
      h.repository, fun below hle hge hother => ?_⟩
    rcases prefix_snoc_iff.mp hge with rfl | hge
    · exact hnone
    · exact h.none_below below hle hge hother

theorem branchTurn_none
    (h : headLine files (directory names) = none)
    {r : Turn CString BranchResult}
    (hup : (match goUp (directory names) with
      | none => Turn.done BranchResult.absent
      | some up => .next up) = r) :
    branchTurn files (directory names) = r := by
  rw [branchTurn, h]
  exact hup

/-- A line that is read ends the search, and the repository is the nearest. -/
theorem branchTurn_some
    {line : CString}
    (hlen : (directory names).strlen ≤ 1013)
    (hline : headLine files (directory names) = some line) :
    Nearest files names names ∧ branchTurn files (directory names) = .done (branchOf line) := by
  have hself : ¬ NoRepository files names := by
    rw [← headLine_eq_none_iff hlen, hline]
    simp
  exact ⟨nearest_self hself, by rw [branchTurn, hline]⟩

/-- The search ends, with the line of the nearest repository if there is one. -/
theorem search_spec
    (files : CString → Option Bytes)
    (hlen : (directory names).strlen ≤ 1013)
    {fuel : Nat}
    (hfuel : names.length < fuel) :
    ∃ r, iterate (branchTurn files) fuel (directory names) = some r ∧
      ((∃ above line, Nearest files names above ∧
          headLine files (directory above) = some line ∧ r = branchOf line) ∨
        (∀ above, ¬ Nearest files names above) ∧ r = .absent) := by
  induction names using List.reverseRecOn generalizing fuel with
  | nil =>
      obtain ⟨k, rfl⟩ : ∃ k, fuel = k + 1 := ⟨fuel - 1, by omega⟩
      cases hline : headLine files (directory []) with
      | some line =>
          obtain ⟨hself, hdone⟩ := branchTurn_some hlen hline
          exact ⟨branchOf line, iterate_done hdone k, Or.inl ⟨[], line, hself, hline, rfl⟩⟩
      | none =>
          have hnone := (headLine_eq_none_iff hlen).mp hline
          refine ⟨.absent, iterate_done (branchTurn_none hline (by rw [goUp_root])) k,
            Or.inr ⟨fun above h => h.repository ?_, rfl⟩⟩
          rwa [List.prefix_nil.mp h.isPrefix]
  | append_singleton names n ih =>
      obtain ⟨k, rfl⟩ : ∃ k, fuel = k + 1 := ⟨fuel - 1, by omega⟩
      rw [List.length_append, List.length_singleton] at hfuel
      cases hline : headLine files (directory (names ++ [n])) with
      | some line =>
          obtain ⟨hself, hdone⟩ := branchTurn_some hlen hline
          exact ⟨branchOf line, iterate_done hdone k, Or.inl ⟨_, line, hself, hline, rfl⟩⟩
      | none =>
          have hnone := (headLine_eq_none_iff hlen).mp hline
          by_cases hne : names = []
          · subst hne
            refine ⟨.absent, iterate_done (branchTurn_none hline (by rw [goUp_snoc, if_pos rfl])) k,
              Or.inr ⟨fun above h => h.repository ?_, rfl⟩⟩
            rcases prefix_snoc_iff.mp h.isPrefix with rfl | hnil
            · exact hnone
            · exact absurd (h.notRoot (List.prefix_nil.mp hnil)) (by simp)
          · have hup : (directory names).strlen ≤ 1013 := by
              have := strlen_directory_snoc_le names n hne
              omega
            obtain ⟨r, hrun, hcase⟩ := ih hup (by omega : names.length < k)
            rw [iterate_next (branchTurn_none hline (by rw [goUp_snoc, if_neg hne]))]
            refine ⟨r, hrun, ?_⟩
            simpa only [nearest_snoc_iff hnone hne] using hcase

end Search

section Heads

/-- The line that is read of a file that is not empty. -/
theorem headLine_of_file
    {files : CString → Option Bytes} {names : List FileName} {b : UInt8} {bs : Bytes}
    (hlen : (directory names).strlen ≤ 1013)
    (hfile : files (headFile names) = some (b :: bs)) :
    headLine files (directory names) = some (cstr (fgetsLine 255 (b :: bs))) := by
  rw [headLine, headPath_directory hlen, hfile]
  rfl

theorem branchOf_cons_nul
    (bs : Bytes) :
    branchOf (cstr (fgetsLine 255 (0 :: bs))) = .undefined := by
  have hline : cstr (fgetsLine 255 (0 :: bs)) = cstr [] := by
    ext1
    simp [fgetsLine, cstr]
  rw [hline]
  decide

/-- A line with a first character is copied into the buffer of the branch. -/
theorem branchOf_cons
    {b : UInt8}
    (hb : b ≠ 0)
    (bs : Bytes) :
    ∃ branch, branchOf (cstr (fgetsLine 255 (b :: bs))) = .found branch ∧
      branch.strlen ≤ 63 := by
  have hcut : ∀ (n : Nat) (line : CString), n ≤ 63 → (line.take n).strlen ≤ 63 := by
    intro n line hn
    have := List.length_take_le n line.bytes
    simp only [CString.take, CString.strlen]
    omega
  have hpos : (cstr (fgetsLine 255 (b :: bs))).strlen ≠ 0 := by
    have hread : fgetsLine 255 (b :: bs) = [b] ∨
        fgetsLine 255 (b :: bs) = b :: fgetsLine 254 bs := by
      simp only [fgetsLine]
      split_ifs
      · exact Or.inl rfl
      · exact Or.inr rfl
    rcases hread with hread | hread <;> rw [hread] <;> simp [cstr, CString.strlen, hb]
  unfold branchOf
  by_cases href : refPrefix.isPrefixOf (cstr (fgetsLine 255 (b :: bs))).bytes = true
  · rw [if_pos href]
    exact ⟨_, rfl, hcut _ _ (Nat.le_refl 63)⟩
  · rw [if_neg href]
    by_cases hlong : (cstr (fgetsLine 255 (b :: bs))).strlen > 8
    · simp only [if_pos hlong]
      rw [if_neg (by decide)]
      split_ifs
      · exact ⟨_, rfl, hcut _ _ (by decide)⟩
      · exact ⟨_, rfl, hcut _ _ (by decide)⟩
    · simp only [if_neg hlong, if_neg hpos]
      split_ifs
      · exact ⟨_, rfl, hcut _ _ (by omega)⟩
      · exact ⟨_, rfl, hcut _ _ (by omega)⟩

/-- The text of a line that has no newline is read up to the end of the buffer. -/
theorem fgetsLine_line
    {line : Bytes}
    (hline : (10 : UInt8) ∉ line) :
    fgetsLine 255 (line ++ [10]) = if line.length < 255 then line ++ [10] else line.take 255 := by
  split_ifs with hlen
  · exact fgetsLine_of_fits hline hlen
  · have hcut : (line.take 255).length = 255 := by
      rw [List.length_take]
      omega
    have hfree : (10 : UInt8) ∉ line.take 255 := fun h => hline (List.mem_of_mem_take h)
    have hread := @fgetsLine_of_full _ (line.drop 255 ++ [10]) hfree
    rwa [hcut, ← List.append_assoc, List.take_append_drop] at hread

theorem branchOf_branch
    {name : CString}
    (hname : (10 : UInt8) ∉ name.bytes) :
    branchOf (cstr (fgetsLine 255 (Head.branch name).text)) = .found (name.take 63) := by
  have href : (10 : UInt8) ∉ refPrefix ∧ (0 : UInt8) ∉ refPrefix ∧ refPrefix.length = 16 := by
    decide
  have hread : ∃ rest, (cstr (fgetsLine 255 (Head.branch name).text)).bytes = refPrefix ++ rest ∧
      (0 : UInt8) ∉ rest ∧ stripNewline rest = name.bytes.take 239 := by
    rw [Head.text, fgetsLine_line (by simp [href.1, hname])]
    split_ifs with hlen
    · refine ⟨name.bytes ++ [10], ?_, by simp [name.nulFree], ?_⟩
      · rw [cstr_bytes_of_nulFree (by simp [href.2.1, name.nulFree]), List.append_assoc]
      · rw [stripNewline_append_newline, List.take_of_length_le]
        rw [List.length_append] at hlen
        omega
    · have htake : (refPrefix ++ name.bytes).take 255 = refPrefix ++ name.bytes.take 239 := by
        rw [List.take_append, List.take_of_length_le (by omega), href.2.2]
      refine ⟨name.bytes.take 239, ?_, fun h => name.nulFree (List.mem_of_mem_take h), ?_⟩
      · rw [htake, cstr_bytes_of_nulFree]
        simp only [List.mem_append, not_or]
        exact ⟨href.2.1, fun h => name.nulFree (List.mem_of_mem_take h)⟩
      · exact stripNewline_of_not_mem fun h => hname (List.mem_of_mem_take h)
  obtain ⟨rest, hbytes, hfree, hstrip⟩ := hread
  rw [branchOf, hbytes, if_pos (by simp), List.drop_left, hstrip]
  congr 1
  ext1
  have hshort : (0 : UInt8) ∉ name.bytes.take 239 :=
    fun h => name.nulFree (List.mem_of_mem_take h)
  change (cstr (name.bytes.take 239)).bytes.take 63 = name.bytes.take 63
  rw [cstr_bytes_of_nulFree hshort, List.take_take]
  rfl

theorem branchOf_detached
    {hash : CString}
    (hlen : hash.strlen = 40)
    (hdigits : ∀ b ∈ hash.bytes, (isDigit b || (97 ≤ b && b ≤ 102)) = true) :
    branchOf (cstr (fgetsLine 255 (Head.detached hash).text)) = .found (hash.take 7) := by
  have hnewline : (10 : UInt8) ∉ hash.bytes := fun h => absurd (hdigits 10 h) (by decide)
  have hline : (cstr (fgetsLine 255 (Head.detached hash).text)).bytes = hash.bytes ++ [10] := by
    rw [CString.strlen] at hlen
    rw [Head.text, fgetsLine_line hnewline, if_pos (by omega),
      cstr_bytes_of_nulFree (by simp [hash.nulFree])]
  have hnot : ¬ refPrefix.isPrefixOf (hash.bytes ++ [10]) = true := by
    intro href
    rw [List.isPrefixOf_iff_prefix] at href
    obtain ⟨rest, hrest⟩ := href
    have hfirst : (hash.bytes ++ [10]).head? = some 114 := by
      rw [← hrest]
      rfl
    cases hbytes : hash.bytes with
    | nil =>
        rw [CString.strlen, hbytes] at hlen
        cases hlen
    | cons b bs =>
        rw [hbytes] at hfirst
        obtain rfl : b = 114 := by simpa using hfirst
        exact absurd (hdigits 114 (by simp [hbytes])) (by decide)
  have hlong : (cstr (fgetsLine 255 (Head.detached hash).text)).strlen = 41 := by
    rw [CString.strlen, hline, List.length_append, ← CString.strlen, hlen]
    rfl
  have hseventh : ¬ (hash.bytes ++ [10])[7 - 1]? = some 10 := by
    rw [CString.strlen] at hlen
    rw [List.getElem?_append_left (by omega)]
    exact fun h => hnewline (List.mem_of_getElem? h)
  have hcut : (if 41 > 8 then 7 else 41) = 7 := rfl
  simp only [branchOf, hlong, hline, if_neg hnot, hcut]
  rw [if_neg (by decide), if_neg hseventh]
  congr 1
  ext1
  change (cstr (fgetsLine 255 (Head.detached hash).text)).bytes.take 7 = hash.bytes.take 7
  rw [CString.strlen] at hlen
  rw [hline, List.take_append_of_le_length (by omega)]

/-- Only a line that begins with a NUL has the byte in front of it read. -/
theorem branchOf_eq_undefined_iff
    {b : UInt8} {bs : Bytes} :
    branchOf (cstr (fgetsLine 255 (b :: bs))) = .undefined ↔ b = 0 := by
  constructor
  · intro h
    by_contra hb
    obtain ⟨branch, hfound, -⟩ := branchOf_cons hb bs
    rw [hfound] at h
    cases h
  · rintro rfl
    exact branchOf_cons_nul bs

/-- What git writes is shown as it is to be. -/
theorem branchOf_head
    {head : Head}
    (h : head.WellFormed) :
    branchOf (cstr (fgetsLine 255 head.text)) = .found head.shown := by
  cases head with
  | branch name => exact branchOf_branch h
  | detached hash => exact branchOf_detached h.1 h.2

end Heads

section Ending

variable {files : CString → Option Bytes} {cwd up : CString}

/-- The last slash stands in the path. -/
theorem strrchrSlash_lt
    {path : Bytes} {i : Nat}
    (h : strrchrSlash path = some i) :
    i < path.length := by
  have hbehind : (path.reverse.takeWhile (· ≠ 47)).length ≤ path.reverse.length :=
    (List.takeWhile_prefix _).length_le
  rw [List.length_reverse] at hbehind
  simp only [strrchrSlash] at h
  split_ifs at h with hnone
  have hindex := Option.some.inj h
  omega

/-- Each directory up has a shorter path. -/
theorem strlen_goUp_lt
    (h : goUp cwd = some up) :
    up.strlen < cwd.strlen := by
  unfold goUp at h
  split at h
  · cases h
  · cases h
  · next i hslash =>
      obtain rfl := Option.some.inj h
      have hlt := strrchrSlash_lt hslash
      have htake := List.length_take_le (i + 1) cwd.bytes
      simp only [CString.strlen, CString.take]
      omega

theorem branchTurn_next
    {s s' : CString}
    (h : branchTurn files s = .next s') :
    goUp s = some s' := by
  unfold branchTurn at h
  split at h
  · cases h
  · split at h
    · cases h
    · next hup => exact hup.trans (congrArg some (Turn.next.inj h))

theorem branchTurn_done
    {s : CString} {r : BranchResult}
    (h : branchTurn files s = .done r) :
    r = .absent ∨ ∃ line, headLine files s = some line ∧ r = branchOf line := by
  unfold branchTurn at h
  split at h
  · next line hline => exact .inr ⟨line, hline, (Turn.done.inj h).symm⟩
  · split at h
    · exact .inl (Turn.done.inj h).symm
    · cases h

/-- From every directory the search ends. -/
theorem detectGitBranch_ends
    (files : CString → Option Bytes) (cwd : Option CString) :
    ∃ r, detectGitBranch files cwd = some r := by
  cases cwd with
  | none => exact ⟨.absent, rfl⟩
  | some cwd =>
      exact iterate_terminates CString.strlen
        (fun _ _ hturn => strlen_goUp_lt (branchTurn_next hturn)) (Nat.lt_succ_self _)

/-- Where memory in front of a line is read, a `HEAD` that was opened begins with a NUL. -/
theorem head_of_undefined
    {cwd : Option CString}
    (h : detectGitBranch files cwd = some .undefined) :
    ∃ dir rest, files (headPath dir) = some (0 :: rest) := by
  cases cwd with
  | none => cases h
  | some cwd =>
      obtain ⟨dir, hturn⟩ := exists_done_of_iterate h
      obtain hno | ⟨line, hline, hresult⟩ := branchTurn_done hturn
      · cases hno
      · obtain ⟨content, hfile, hread⟩ := Option.bind_eq_some_iff.mp hline
        cases content with
        | nil => cases hread
        | cons b bs =>
            obtain rfl := Option.some.inj hread
            rw [branchOf_eq_undefined_iff.mp hresult.symm] at hfile
            exact ⟨dir, bs, hfile⟩

end Ending

section Main

theorem length_le_strlen_directory
    (names : List FileName) :
    names.length ≤ (directory names).strlen := by
  cases names with
  | nil =>
      exact Nat.zero_le _
  | cons n ns =>
      rw [CString.strlen, directory_ne (List.cons_ne_nil n ns)]
      induction n :: ns with
      | nil =>
          exact Nat.zero_le _
      | cons n ns ih =>
          rw [List.flatMap_cons, List.length_append, List.length_cons, List.length_cons]
          omega

variable {files : CString → Option Bytes} {names above : List FileName}

/-- The file of the nearest repository, with its first byte. -/
theorem nearest_file
    (h : Nearest files names above) :
    ∃ b bs, files (headFile above) = some (b :: bs) := by
  by_contra hno
  refine h.repository fun content hfile => ?_
  cases content with
  | nil =>
      rfl
  | cons b bs =>
      exact absurd ⟨b, bs, hfile⟩ hno

theorem strlen_directory_le_of_nearest
    (h : Nearest files names above)
    (hlen : (directory names).strlen ≤ 1013) :
    (directory above).strlen ≤ 1013 := by
  by_cases hne : above = []
  · subst hne
    decide
  · obtain ⟨rest, rfl⟩ := h.isPrefix
    rw [CString.strlen, directory_ne (by simp [hne]), List.flatMap_append] at hlen
    rw [CString.strlen, directory_ne hne]
    rw [List.length_append] at hlen
    omega

/-- What is read of the nearest repository. -/
theorem headLine_of_nearest
    (h : Nearest files names above)
    (hlen : (directory names).strlen ≤ 1013)
    {b : UInt8} {bs : Bytes}
    (hfile : files (headFile above) = some (b :: bs)) :
    headLine files (directory above) = some (cstr (fgetsLine 255 (b :: bs))) :=
  headLine_of_file (strlen_directory_le_of_nearest h hlen) hfile

/--
**The branch of the nearest repository.**

For every working directory whose path leaves room for the name of the `HEAD`, and for every
state of the files, the search ends.  A branch is shown with at most 63 bytes of its name and a
detached hash with seven digits; no branch is shown exactly when no directory on the way up,
that at the root excepted, has a `HEAD` that is not empty; and memory in front of the line is
read exactly when the nearest `HEAD` begins with a NUL.
-/
theorem branch_of_nearest_repository
    (files : CString → Option Bytes) (names : List FileName)
    (hlen : (directory names).strlen ≤ 1013) :
    ∃ r, detectGitBranch files (some (directory names)) = some r ∧
      (∀ (above : List FileName) (head : Head), Nearest files names above → head.WellFormed →
        files (headFile above) = some head.text → r = .found head.shown) ∧
      (r = .absent ↔ ∀ above, ¬ Nearest files names above) ∧
      (r = .undefined ↔ ∃ above rest, Nearest files names above ∧
        files (headFile above) = some (0 :: rest)) ∧
      ∀ branch, r = .found branch → branch.strlen ≤ 63 := by
  have hfuel := length_le_strlen_directory names
  obtain ⟨r, hrun, hcase⟩ :=
    search_spec files hlen (Nat.lt_succ_of_le hfuel)
  refine ⟨r, hrun, ?_⟩
  rcases hcase with ⟨above, line, hnearest, hline, rfl⟩ | ⟨hnone, rfl⟩
  · obtain ⟨b, bs, hfile⟩ := nearest_file hnearest
    rw [headLine_of_nearest hnearest hlen hfile, Option.some.injEq] at hline
    subst hline
    refine ⟨?_, ?_, ?_, ?_⟩
    · intro other head hother hwell htext
      obtain rfl := nearest_unique hnearest hother
      rw [← Option.some.inj (htext.symm.trans hfile)]
      exact branchOf_head hwell
    · refine iff_of_false ?_ (fun hno => hno above hnearest)
      by_cases hb : b = 0
      · rw [hb, branchOf_cons_nul]
        simp
      · obtain ⟨branch, hfound, -⟩ := branchOf_cons hb bs
        rw [hfound]
        simp
    · rw [branchOf_eq_undefined_iff]
      constructor
      · rintro rfl
        exact ⟨above, bs, hnearest, hfile⟩
      · rintro ⟨other, rest, hother, hzero⟩
        obtain rfl := nearest_unique hnearest hother
        exact (List.cons.inj (Option.some.inj (hfile.symm.trans hzero))).1
    · intro branch hfound
      by_cases hb : b = 0
      · rw [hb, branchOf_cons_nul] at hfound
        cases hfound
      · obtain ⟨branch', hfound', hshort⟩ := branchOf_cons hb bs
        obtain rfl := BranchResult.found.inj (hfound'.symm.trans hfound)
        exact hshort
  · refine ⟨fun above _ h => absurd h (hnone above), iff_of_true rfl hnone, ?_, by simp⟩
    refine iff_of_false (by simp) ?_
    rintro ⟨above, -, h, -⟩
    exact hnone above h

end Main

section Examples

/-- `/home/bob/src`. -/
def sourceNames : List FileName :=
  [⟨cstr (ascii "home"), by decide⟩, ⟨cstr (ascii "bob"), by decide⟩,
    ⟨cstr (ascii "src"), by decide⟩]

/-- There is a repository in the home directory, and one at the root. -/
def twoRepositories (path : CString) : Option Bytes :=
  if path = headFile (sourceNames.take 2) then some (Head.branch (cstr (ascii "main"))).text
  else if path = headFile [] then some (Head.branch (cstr (ascii "root"))).text
  else none

theorem main_is_nearest :
    Nearest twoRepositories sourceNames (sourceNames.take 2) where
  isPrefix := List.take_prefix 2 sourceNames
  notRoot := by decide
  repository := by
    intro h
    exact absurd (h (Head.branch (cstr (ascii "main"))).text (if_pos rfl)) (by decide)
  none_below := by
    rintro below hle ⟨rest, hsplit⟩ hne content hfile
    have hlen := congrArg List.length hsplit
    have habove := hle.length_le
    have htwo : (sourceNames.take 2).length = 2 ∧ sourceNames.length = 3 := ⟨rfl, rfl⟩
    have hlonger : below.length ≠ 2 := fun h =>
      hne (hle.eq_of_length (htwo.1.trans h.symm)).symm
    rw [List.length_append] at hlen
    have hrest : rest = [] := List.eq_nil_of_length_eq_zero (by omega)
    rw [hrest, List.append_nil] at hsplit
    subst hsplit
    have hnone : twoRepositories (headFile sourceNames) = none := by decide +kernel
    rw [hnone] at hfile
    cases hfile

/-- The branch of the home directory is shown. -/
theorem main_is_shown :
    detectGitBranch twoRepositories (some (directory sourceNames)) =
      some (.found (cstr (ascii "main"))) := by
  obtain ⟨r, hrun, hshown, -⟩ :=
    branch_of_nearest_repository twoRepositories sourceNames (by decide)
  have hname : (10 : UInt8) ∉ (cstr (ascii "main")).bytes := by decide
  rw [hrun, hshown _ (.branch (cstr (ascii "main"))) main_is_nearest hname (if_pos rfl)]
  rfl

end Examples

end Shell
end SecureZ
