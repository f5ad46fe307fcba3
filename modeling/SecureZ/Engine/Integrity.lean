import SecureZ.Engine.CryptoCore
import SecureZ.Lib.TextLines

/-!
# The integrity database

`integrity.c` hashes every regular file below the watched directories and prints a line for
each of them, the hash in hexadecimal and the path as it is.  The two readers go through
the file with `fgets` and take each line apart with `sscanf`.

The file system is a parameter, `Disk`: what the calls of the module return for a path.
The scan has fuel for the depth of the directories; it is none when that runs out.  The
conversions between bytes and hexadecimal digits are those of libsodium, a parameter too.
-/

namespace SecureZ
namespace Integrity

open CLib
open CryptoCore

section Disk

/-- What `lstat` tells of a path. -/
inductive FileKind
  | directory
  | regular
  | other
deriving DecidableEq

/-- The file system at one time. -/
structure Disk where
  /-- `opendir` and the names that `readdir` returns. -/
  readdir : CString → Option (List CString)
  lstat : CString → Option FileKind
  /-- `access(path, F_OK) == 0`. -/
  access : CString → Bool
  /-- The content of a file, none when it cannot be opened and read to its end. -/
  read : CString → Option Bytes
  access_of_read : ∀ path, read path ≠ none → access path = true

/-- `sodium_bin2hex` for a hash, and `sodium_hex2bin` into the memory of one: whether it
returns 0, and what it leaves there. -/
structure HexCodec where
  bin2hex : Hash → CString
  hex2bin : CString → Hash → Bool × Hash

/-- A hexadecimal digit, in lower case. -/
def isHexDigit (b : UInt8) : Bool :=
  isDigit b || (97 ≤ b && b ≤ 102)

/-- What libsodium documents of the two: a hash is written with two digits for each byte,
and its digits are read back. -/
structure HexCorrect (hex : HexCodec) : Prop where
  length : ∀ hash, (hex.bin2hex hash).strlen = 2 * crypticHashLen
  digits : ∀ hash, ∀ b ∈ (hex.bin2hex hash).bytes, isHexDigit b = true
  hex2bin_bin2hex : ∀ hash old, hex.hex2bin (hex.bin2hex hash) old = (true, hash)

end Disk

section Writing

variable (na : Sodium) (disk : Disk)

/-- `crypto_hash_file`. -/
def cryptoHashFile (path : CString) : Option Hash :=
  (disk.read path).map (cryptoHashBuffer na)

/-- A file with its hash, as a line of the database tells them. -/
structure Recorded where
  path : CString
  hash : Hash
deriving DecidableEq

/-- The line that `hash_and_store` prints. -/
def Recorded.line (hex : HexCodec) (e : Recorded) : Bytes :=
  (hex.bin2hex e.hash).bytes ++ ascii "  " ++ e.path.bytes ++ ascii "\n"

/-- `hash_and_store`: what it prints, none when it returns -1. -/
def hashAndStore (path : CString) : Option Recorded :=
  (cryptoHashFile na disk path).map (Recorded.mk path)

/-- The path of a name in a directory, cut to the buffer of 512 bytes. -/
def fullPath (dirPath name : CString) : CString :=
  ((dirPath.append (cstr (ascii "/"))).append name).take 511

/-- A turn of the loop over the names of a directory; `scan` is the call for a directory
below it. -/
def scanName
    (scan : CString → Option (List Recorded)) (dirPath name : CString) :
    Option (List Recorded) :=
  if name.bytes = ascii "." ∨ name.bytes = ascii ".." then some []
  else
    match disk.lstat (fullPath dirPath name) with
    | some .directory => scan (fullPath dirPath name)
    | some .regular => some (hashAndStore na disk (fullPath dirPath name)).toList
    | _ => some []

/-- `scan_directory_recursive`: what it prints. -/
def scanDirectoryRecursive : Nat → CString → Option (List Recorded)
  | 0, _ => none
  | fuel + 1, dirPath =>
      match disk.readdir dirPath with
      | none => some []
      | some names =>
          (names.mapM (scanName na disk (scanDirectoryRecursive fuel) dirPath)).map List.flatten

/-- `watched_dirs`. -/
def watchedDirs : List CString :=
  [cstr (ascii "/bin"), cstr (ascii "/sbin"), cstr (ascii "/usr/bin"), cstr (ascii "/usr/sbin"),
    cstr (ascii "/etc"), cstr (ascii "/boot")]

/-- `integrity_init_database`: the files that it records, in order. -/
def integrityInitDatabase (fuel : Nat) : Option (List Recorded) :=
  (watchedDirs.mapM (scanDirectoryRecursive na disk fuel)).map List.flatten

/-- The comments at the beginning of the database. -/
def headerLines : List Bytes :=
  [ascii "# SecureZ+ Integrity Database\n", ascii "# Format: blake2b_hash  filepath\n"]

/-- The database with the files that are recorded. -/
def databaseText (hex : HexCodec) (recorded : List Recorded) : Bytes :=
  headerLines.flatten ++ (recorded.map (Recorded.line hex)).flatten

end Writing

section Reading

/-- `sscanf(line, "%64s %511s", stored_hex, filepath)`, where it returns 2. -/
def sscanfEntry (line : Bytes) : Option (CString × CString) := do
  let (storedHex, rest) ← scanWord 64 (cstr line).bytes
  let (filepath, _) ← scanWord 511 rest
  return (cstr storedHex, cstr filepath)

/-- The fields of a line that `integrity_check_all` does not skip. -/
def checkAllFields (line : Bytes) : Option (CString × CString) :=
  if line.head? = some (35 : UInt8) ∨ line.head? = some (10 : UInt8) then none
  else sscanfEntry line

/-- The fields of a line that `integrity_check_file` does not skip. -/
def checkFileFields (line : Bytes) : Option (CString × CString) :=
  if line.head? = some (35 : UInt8) then none else sscanfEntry line

/-- `IntegrityStatus`. -/
inductive IntegrityStatus
  | ok
  | modified
  | missing
  | new
  | error
deriving DecidableEq

/-- `IntegrityResult`. -/
structure IntegrityResult where
  path : CharArray 512
  expectedHash : Hash
  actualHash : Hash
  status : IntegrityStatus
deriving DecidableEq

/-- The results of `integrity_check_all` with its two counters. -/
structure CheckState where
  results : Nat → IntegrityResult
  count : Nat
  mismatches : Nat

/-- The result at the current index, with the path and the expected hash of a line. -/
def CheckState.expecting
    (s : CheckState) (filepath : CString) (expected : Hash) : IntegrityResult :=
  { s.results s.count with path := .store 512 filepath, expectedHash := expected }

@[simp] theorem CheckState.expecting_expectedHash
    (s : CheckState) (filepath : CString) (expected : Hash) :
    (s.expecting filepath expected).expectedHash = expected := by
  rfl

/-- `*r = ...` at the current index. -/
def CheckState.store (s : CheckState) (r : IntegrityResult) : CheckState :=
  { s with results := Function.update s.results s.count r }

/-- A result that is counted, as a mismatch or not. -/
def CheckState.report (s : CheckState) (r : IntegrityResult) (mismatch : Bool) : CheckState where
  results := Function.update s.results s.count r
  count := s.count + 1
  mismatches := if mismatch then s.mismatches + 1 else s.mismatches

variable (na : Sodium) (hex : HexCodec) (disk : Disk)

/-- The rest of a turn of the loop of `integrity_check_all`, from the check of the file on;
`r` is the result with the path and the expected hash. -/
def checkHash (filepath : CString) (r : IntegrityResult) (s : CheckState) : CheckState :=
  if disk.access filepath = false then s.report { r with status := .missing } true
  else
    match cryptoHashFile na disk filepath with
    | none => s.report { r with status := .error } false
    | some actual =>
        if r.expectedHash ≠ actual then
          s.report { r with actualHash := actual, status := .modified } true
        else s.store { r with actualHash := actual, status := .ok }

/-- A turn of the loop of `integrity_check_all`. -/
def checkTurn (line : Bytes) (s : CheckState) : CheckState :=
  match checkAllFields line with
  | none => s
  | some (storedHex, filepath) =>
      let (converted, expected) := hex.hex2bin storedHex (s.results s.count).expectedHash
      let r := s.expecting filepath expected
      if converted then checkHash na disk filepath r s else s.store r

/-- The loop of `integrity_check_all` over the lines that `fgets` reads. -/
def checkLines (maxResults : Int) : List Bytes → CheckState → CheckState
  | [], s => s
  | line :: lines, s =>
      if s.count < maxResults then checkLines maxResults lines (checkTurn na hex disk line s)
      else s

/-- `integrity_check_all` with the database `db`: the results, `*count`, and the mismatches
that it returns. -/
def integrityCheckAll
    (db : Bytes) (results : Nat → IntegrityResult) (maxResults : Int) : CheckState :=
  checkLines na hex disk maxResults (linesOf 1024 db) ⟨results, 0, 0⟩

/-- The digits that the loop of `integrity_check_file` finds for a path. -/
def findHex (path : CString) (lines : List Bytes) : Option CString :=
  (lines.filterMap checkFileFields).find? (fun fields => fields.2 = path) |>.map Prod.fst

/-- `integrity_check_file` with the database `db`, none when that cannot be opened. -/
def integrityCheckFile
    (db : Option Bytes) (path : CString) (result : IntegrityResult) :
    Int × IntegrityResult :=
  let r := { result with path := CharArray.store 512 path }
  if disk.access path = false then (1, { r with status := .missing })
  else
    match cryptoHashFile na disk path with
    | none => (-1, { r with status := .error })
    | some actual =>
        let r := { r with actualHash := actual }
        match db with
        | none => (-1, r)
        | some db =>
            match findHex path (linesOf 1024 db) with
            | none => (1, { r with status := .new })
            | some storedHex =>
                let r := { r with expectedHash := (hex.hex2bin storedHex r.expectedHash).2 }
                if r.expectedHash = actual then (0, { r with status := .ok })
                else (1, { r with status := .modified })

end Reading

section Scan

variable {na : Sodium} {disk : Disk}

/-- What holds of every value of a function holds of all that it gives for a list. -/
theorem forall_of_mapM
    {α β : Type} {f : α → Option β} {P : β → Prop} {xs : List α} {ys : List β}
    (h : ∀ x ∈ xs, ∀ y, f x = some y → P y)
    (hmap : xs.mapM f = some ys) :
    ∀ y ∈ ys, P y := by
  induction xs generalizing ys with
  | nil =>
      simp only [List.mapM_nil, Option.pure_def, Option.some.injEq] at hmap
      simp [← hmap]
  | cons x xs ih =>
      simp only [List.mapM_cons, Option.bind_eq_bind, Option.bind_eq_some_iff, Option.pure_def,
        Option.some.injEq] at hmap
      obtain ⟨y, hy, zs, hzs, rfl⟩ := hmap
      rw [List.forall_mem_cons] at h ⊢
      exact ⟨h.1 y hy, ih h.2 hzs⟩

/-- A function that has a value for every element of a list has them for the list. -/
theorem mapM_isSome
    {α β : Type} {f : α → Option β} {xs : List α}
    (h : ∀ x ∈ xs, ∃ y, f x = some y) :
    ∃ ys, xs.mapM f = some ys := by
  induction xs with
  | nil =>
      exact ⟨[], rfl⟩
  | cons x xs ih =>
      rw [List.forall_mem_cons] at h
      obtain ⟨⟨y, hy⟩, hrest⟩ := h
      obtain ⟨ys, hys⟩ := ih hrest
      exact ⟨y :: ys, by simp [List.mapM_cons, hy, hys]⟩

/-- A recorded file has the recorded hash, and its path came from the buffer of the scan. -/
structure Printed (na : Sodium) (disk : Disk) (e : Recorded) : Prop where
  hash : cryptoHashFile na disk e.path = some e.hash
  nonempty : e.path.bytes ≠ []
  short : e.path.strlen < 512

theorem fullPath_ne_nil
    (dirPath name : CString) :
    (fullPath dirPath name).bytes ≠ [] := by
  have hslash : (cstr (ascii "/")).bytes = [47] := by decide
  simp [fullPath, CString.take, CString.append, hslash]

theorem fullPath_short
    (dirPath name : CString) :
    (fullPath dirPath name).strlen < 512 := by
  simp only [fullPath, CString.take, CString.strlen, List.length_take]
  omega

theorem printed_hashAndStore
    {dirPath name : CString} {e : Recorded}
    (h : hashAndStore na disk (fullPath dirPath name) = some e) :
    Printed na disk e := by
  obtain ⟨hash, hhash, rfl⟩ := Option.map_eq_some_iff.mp h
  exact ⟨hhash, fullPath_ne_nil dirPath name, fullPath_short dirPath name⟩

/-- The scan records files as they are, each under a path that is put together from the one that
the scan began with. -/
theorem recorded_of_scan
    {Q : CString → Prop}
    (hfull : ∀ dirPath name, Q dirPath → Q (fullPath dirPath name))
    {fuel : Nat} {dirPath : CString} {recorded : List Recorded}
    (hdir : Q dirPath)
    (h : scanDirectoryRecursive na disk fuel dirPath = some recorded) :
    ∀ e ∈ recorded, Printed na disk e ∧ Q e.path := by
  induction fuel generalizing dirPath recorded with
  | zero =>
      cases h
  | succ fuel ih =>
      simp only [scanDirectoryRecursive] at h
      split at h
      · obtain rfl := Option.some.inj h
        simp
      · obtain ⟨parts, hparts, rfl⟩ := Option.map_eq_some_iff.mp h
        have hname :
            ∀ name part,
              scanName na disk (scanDirectoryRecursive na disk fuel) dirPath name = some part →
              ∀ e ∈ part, Printed na disk e ∧ Q e.path := by
          intro name part hpart
          unfold scanName at hpart
          split_ifs at hpart with hdot
          · obtain rfl := Option.some.inj hpart
            simp
          · split at hpart
            · exact ih (hfull dirPath name hdir) hpart
            · obtain rfl := Option.some.inj hpart
              intro e he
              have hstored := Option.mem_toList.mp he
              obtain ⟨hash, -, hpath⟩ := Option.map_eq_some_iff.mp hstored
              rw [← hpath]
              exact ⟨hpath ▸ printed_hashAndStore hstored, hfull dirPath name hdir⟩
            · obtain rfl := Option.some.inj hpart
              simp
        intro e he
        obtain ⟨part, hpart, he⟩ := List.mem_flatten.mp he
        exact forall_of_mapM (fun name _ => hname name) hparts part hpart e he

/-- Every file of the database was recorded as it was. -/
theorem printed_of_init
    {fuel : Nat} {recorded : List Recorded}
    (h : integrityInitDatabase na disk fuel = some recorded) :
    ∀ e ∈ recorded, Printed na disk e := by
  obtain ⟨parts, hparts, rfl⟩ := Option.map_eq_some_iff.mp h
  intro e he
  obtain ⟨part, hpart, he⟩ := List.mem_flatten.mp he
  have hscan :
      ∀ dirPath ∈ watchedDirs, ∀ part,
        scanDirectoryRecursive na disk fuel dirPath = some part → ∀ e ∈ part, Printed na disk e :=
    fun _ _ _ hpart e he =>
      (@recorded_of_scan na disk (fun _ => True) (fun _ _ => id) fuel _ _ trivial hpart e he).1
  exact forall_of_mapM hscan hparts part hpart e he

/-- Every path of the database begins with a slash. -/
theorem rooted_of_init
    {fuel : Nat} {recorded : List Recorded}
    (h : integrityInitDatabase na disk fuel = some recorded) :
    ∀ e ∈ recorded, e.path.bytes.head? = some 47 := by
  obtain ⟨parts, hparts, rfl⟩ := Option.map_eq_some_iff.mp h
  intro e he
  obtain ⟨part, hpart, he⟩ := List.mem_flatten.mp he
  have hfull :
      ∀ dirPath name : CString,
        dirPath.bytes.head? = some 47 → (fullPath dirPath name).bytes.head? = some 47 := by
    intro dirPath name hdir
    obtain ⟨rest, hrest⟩ := List.head?_eq_some_iff.mp hdir
    simp [fullPath, CString.take, CString.append, hrest]
  have hwatched : ∀ dirPath ∈ watchedDirs, dirPath.bytes.head? = some 47 := by decide +kernel
  have hscan :
      ∀ dirPath ∈ watchedDirs, ∀ part,
        scanDirectoryRecursive na disk fuel dirPath = some part →
        ∀ e ∈ part, e.path.bytes.head? = some 47 :=
    fun dirPath hdir _ hpart e he => (recorded_of_scan hfull (hwatched dirPath hdir) hpart e he).2
  exact forall_of_mapM hscan hparts part hpart e he

/-- Where the directories below a directory are less deep than it is, enough fuel is left for
each of them, and the scan ends. -/
theorem scan_terminates
    {depth : CString → Nat}
    (hdepth :
      ∀ dirPath names name,
        disk.readdir dirPath = some names →
        name ∈ names →
        name.bytes ≠ ascii "." →
        name.bytes ≠ ascii ".." →
        disk.lstat (fullPath dirPath name) = some .directory →
        depth (fullPath dirPath name) < depth dirPath)
    {fuel : Nat} {dirPath : CString}
    (hfuel : depth dirPath < fuel) :
    ∃ recorded, scanDirectoryRecursive na disk fuel dirPath = some recorded := by
  induction fuel generalizing dirPath with
  | zero =>
      omega
  | succ fuel ih =>
      simp only [scanDirectoryRecursive]
      cases hnames : disk.readdir dirPath with
      | none =>
          exact ⟨[], rfl⟩
      | some names =>
          have hname :
              ∀ name ∈ names,
                ∃ part,
                  scanName na disk (scanDirectoryRecursive na disk fuel) dirPath name =
                    some part := by
            intro name hname
            unfold scanName
            split_ifs with hdot
            · exact ⟨[], rfl⟩
            · rw [not_or] at hdot
              split
              · rename_i hkind
                have hless := hdepth dirPath names name hnames hname hdot.1 hdot.2 hkind
                exact ih (by omega)
              · exact ⟨_, rfl⟩
              · exact ⟨[], rfl⟩
          obtain ⟨parts, hparts⟩ := mapM_isSome hname
          exact ⟨parts.flatten, by simp [hparts]⟩

end Scan

section Fields

variable {hex : HexCodec} {e : Recorded}

theorem not_isSpace_of_isHexDigit
    {b : UInt8}
    (h : isHexDigit b = true) :
    isSpace b = false := by
  simp only [isHexDigit, isDigit, isSpace, Bool.or_eq_true, Bool.and_eq_true, decide_eq_true_eq,
    Bool.or_eq_false_iff, beq_eq_false_iff_ne, Bool.and_eq_false_iff, decide_eq_false_iff_not,
    UInt8.le_iff_toNat_le, ne_eq, ← UInt8.toNat_inj] at h ⊢
  have h9 : (9 : UInt8).toNat = 9 := rfl
  have h13 : (13 : UInt8).toNat = 13 := rfl
  have h32 : (32 : UInt8).toNat = 32 := rfl
  have h48 : (48 : UInt8).toNat = 48 := rfl
  have h57 : (57 : UInt8).toNat = 57 := rfl
  have h97 : (97 : UInt8).toNat = 97 := rfl
  have h102 : (102 : UInt8).toNat = 102 := rfl
  omega

theorem isWord_bin2hex
    (hhex : HexCorrect hex)
    (hash : Hash) :
    IsWord (hex.bin2hex hash).bytes :=
  fun b hb => not_isSpace_of_isHexDigit (hhex.digits hash b hb)

/-- A path that is read back has no white space in it. -/
theorem isWord_of_sscanfEntry
    {line : Bytes} {storedHex filepath : CString}
    (h : sscanfEntry line = some (storedHex, filepath)) :
    IsWord filepath.bytes := by
  simp only [sscanfEntry, Option.bind_eq_bind, Option.bind_eq_some_iff, Option.pure_def,
    Option.some.injEq, Prod.mk.injEq] at h
  obtain ⟨⟨word, rest⟩, -, ⟨path, tail⟩, hpath, -, rfl⟩ := h
  exact fun b hb => isWord_of_scanWord hpath b ((List.takeWhile_prefix _).subset hb)

/-- A line is short, has no NUL inside and begins with a digit of its hash. -/
theorem length_line
    (hhex : HexCorrect hex)
    (e : Recorded) :
    (e.line hex).length = 67 + e.path.strlen := by
  have hlength := hhex.length e.hash
  simp only [CString.strlen, crypticHashLen] at hlength ⊢
  simp only [Recorded.line, List.length_append, hlength]
  have htwo : (ascii "  ").length = 2 := rfl
  have hone : (ascii "\n").length = 1 := rfl
  omega

theorem cstr_line
    (hex : HexCodec) (e : Recorded) :
    (cstr (e.line hex)).bytes = e.line hex := by
  refine cstr_bytes_of_nulFree ?_
  have htwo : (0 : UInt8) ∉ ascii "  " := by decide
  have hone : (0 : UInt8) ∉ ascii "\n" := by decide
  simp only [Recorded.line, List.mem_append, not_or]
  exact ⟨⟨⟨(hex.bin2hex e.hash).nulFree, htwo⟩, e.path.nulFree⟩, hone⟩

theorem head_line
    (hhex : HexCorrect hex)
    (e : Recorded) :
    (e.line hex).head? ≠ some 35 ∧ (e.line hex).head? ≠ some 10 := by
  have hlength := hhex.length e.hash
  have hdigits := hhex.digits e.hash
  simp only [Recorded.line]
  cases hbytes : (hex.bin2hex e.hash).bytes with
  | nil =>
      simp [CString.strlen, hbytes, crypticHashLen] at hlength
  | cons b bs =>
      have hb : isHexDigit b = true := hdigits b (by simp [hbytes])
      constructor
      · intro h
        obtain rfl : b = 35 := by simpa using h
        exact absurd hb (by decide)
      · intro h
        obtain rfl : b = 10 := by simpa using h
        exact absurd hb (by decide)

/-- A path up to its first white space. -/
def firstWord (path : CString) : CString where
  bytes := path.bytes.takeWhile fun b => !isSpace b
  nulFree := fun h => path.nulFree ((List.takeWhile_prefix _).subset h)

theorem isWord_firstWord
    (path : CString) :
    IsWord (firstWord path).bytes :=
  fun b hb => by simpa using List.mem_takeWhile_imp hb

theorem firstWord_of_isWord
    {path : CString}
    (h : IsWord path.bytes) :
    firstWord path = path := by
  ext1
  exact List.takeWhile_eq_self_iff.mpr fun b hb => by simp [h b hb]

/-- On its line the first word of a path ends at a space, at the newline at the latest. -/
theorem firstWord_split
    (path : CString) :
    ∃ b rest, isSpace b = true ∧ path.bytes ++ [10] = (firstWord path).bytes ++ b :: rest := by
  have hsplit : (firstWord path).bytes ++ path.bytes.dropWhile (fun b => !isSpace b) = path.bytes :=
    List.takeWhile_append_dropWhile
  cases hdrop : path.bytes.dropWhile fun b => !isSpace b with
  | nil =>
      rw [hdrop, List.append_nil] at hsplit
      exact ⟨10, [], by decide, by rw [hsplit]⟩
  | cons b rest =>
      have hb := List.head?_dropWhile_not (fun b => !isSpace b) path.bytes
      rw [hdrop] at hb hsplit
      refine ⟨b, rest ++ [10], by simpa using hb, ?_⟩
      rw [← List.cons_append, ← List.append_assoc, hsplit]

/-- The fields of a line: the path is taken up to its first white space. -/
theorem sscanfEntry_line
    (hhex : HexCorrect hex)
    (hne : (firstWord e.path).bytes ≠ [])
    (hshort : e.path.strlen < 512) :
    sscanfEntry (e.line hex) = some (hex.bin2hex e.hash, firstWord e.path) := by
  have hlength := hhex.length e.hash
  have hnonempty : (hex.bin2hex e.hash).bytes ≠ [] := by
    intro hnil
    simp [CString.strlen, hnil, crypticHashLen] at hlength
  obtain ⟨b, rest, hb, hpath⟩ := firstWord_split e.path
  have hsplit :
      e.line hex =
        (hex.bin2hex e.hash).bytes ++ 32 :: (32 :: ((firstWord e.path).bytes ++ b :: rest)) := by
    rw [← hpath]
    simp [Recorded.line, ascii]
  have hfirst :
      scanWord 64 (e.line hex) =
        some ((hex.bin2hex e.hash).bytes,
          32 :: (32 :: ((firstWord e.path).bytes ++ b :: rest))) := by
    rw [hsplit]
    exact scanWord_word (isWord_bin2hex hhex e.hash) hnonempty hlength.le (by decide)
  have hlen : (firstWord e.path).bytes.length ≤ 511 :=
    (List.takeWhile_prefix _).length_le.trans (Nat.le_of_lt_succ hshort)
  have hsecond :
      scanWord 511 (32 :: (32 :: ((firstWord e.path).bytes ++ b :: rest))) =
        some ((firstWord e.path).bytes, b :: rest) := by
    rw [scanWord_space (by decide), scanWord_space (by decide)]
    exact scanWord_word (isWord_firstWord e.path) hne hlen hb
  simp [sscanfEntry, cstr_line, hfirst, hsecond]

/-- Both readers take it so. -/
theorem fields_cut
    (hhex : HexCorrect hex)
    (hne : (firstWord e.path).bytes ≠ [])
    (hshort : e.path.strlen < 512) :
    checkAllFields (e.line hex) = some (hex.bin2hex e.hash, firstWord e.path) ∧
      checkFileFields (e.line hex) = some (hex.bin2hex e.hash, firstWord e.path) := by
  obtain ⟨hcomment, hempty⟩ := head_line hhex e
  have hfields := sscanfEntry_line hhex hne hshort
  simp [checkAllFields, checkFileFields, hcomment, hempty, hfields]

/-- A path without white space is taken as it is. -/
theorem fields_line
    (hhex : HexCorrect hex)
    (hword : IsWord e.path.bytes)
    (hne : e.path.bytes ≠ [])
    (hshort : e.path.strlen < 512) :
    checkAllFields (e.line hex) = some (hex.bin2hex e.hash, e.path) ∧
      checkFileFields (e.line hex) = some (hex.bin2hex e.hash, e.path) := by
  have hfirst := firstWord_of_isWord hword
  have hfields := @fields_cut hex e hhex (by rwa [hfirst]) hshort
  rwa [hfirst] at hfields

/-- The lines of the database. -/
theorem linesOf_databaseText
    (hex : HexCodec) (recorded : List Recorded) :
    linesOf 1024 (databaseText hex recorded) =
      headerLines ++ recorded.flatMap fun e => linesOf 1024 (e.line hex) := by
  have hend :
      ∀ e : Recorded, e.line hex = [] ∨ (e.line hex).getLast? = some 10 := by
    intro e
    have hnewline : ascii "\n" = [10] := rfl
    rw [Recorded.line, hnewline, List.getLast?_concat]
    exact Or.inr rfl
  have hlines :
      linesOf 1024 (recorded.map (Recorded.line hex)).flatten =
        recorded.flatMap fun e => linesOf 1024 (e.line hex) := by
    induction recorded with
    | nil =>
        rfl
    | cons e recorded ih =>
        rw [List.map_cons, List.flatten_cons, linesOf_append (by decide) (hend e), ih,
          List.flatMap_cons]
  have hheader : linesOf 1024 headerLines.flatten = headerLines := by decide +kernel
  rw [databaseText, linesOf_append (by decide) (Or.inr (by decide)), hheader, hlines]

/-- `fgets` reads the line of a path without a newline as a whole. -/
theorem fgets_line
    (hhex : HexCorrect hex)
    (hpath : (10 : UInt8) ∉ e.path.bytes)
    (hshort : e.path.strlen < 512)
    (rest : Bytes) :
    fgets 1024 (e.line hex ++ rest) = some (e.line hex, rest) := by
  have htwo : (10 : UInt8) ∉ ascii "  " := by decide
  have hnl : (10 : UInt8) ∉ (hex.bin2hex e.hash).bytes ++ ascii "  " ++ e.path.bytes := by
    simp only [List.mem_append, not_or]
    exact ⟨⟨(isWord_bin2hex hhex e.hash).newline_not_mem, htwo⟩, hpath⟩
  have hsplit :
      e.line hex = ((hex.bin2hex e.hash).bytes ++ ascii "  " ++ e.path.bytes) ++ [10] :=
    rfl
  have hlength := length_line hhex e
  rw [hsplit, List.length_append, List.length_singleton] at hlength
  refine fgets_of_line (by rw [hsplit]; simp) ?_
  rw [hsplit, List.append_assoc, List.singleton_append]
  exact fgetsLine_of_fits hnl (by omega)

theorem linesOf_recorded
    (hhex : HexCorrect hex)
    (hpath : (10 : UInt8) ∉ e.path.bytes)
    (hshort : e.path.strlen < 512) :
    linesOf 1024 (e.line hex) = [e.line hex] := by
  have hread := fgets_line hhex hpath hshort []
  rw [List.append_nil] at hread
  rw [linesOf_of_fgets (by decide) hread, linesOf_nil]

end Fields

section PlainHex

/-- The digit of a number below 16. -/
def hexDigit (n : Nat) : UInt8 :=
  if n < 10 then UInt8.ofNat (48 + n) else UInt8.ofNat (87 + n)

/-- The number of a digit. -/
def hexValue (b : UInt8) : Nat :=
  if isDigit b then b.toNat - 48 else b.toNat - 87

/-- The two digits of a byte. -/
def hexByte (b : UInt8) : Bytes :=
  [hexDigit (b.toNat / 16), hexDigit (b.toNat % 16)]

/-- The bytes of a row of digits. -/
def unhex : Bytes → Bytes
  | high :: low :: rest => UInt8.ofNat (16 * hexValue high + hexValue low) :: unhex rest
  | _ => []

theorem hexDigit_spec :
    ∀ n < 16, hexValue (hexDigit n) = n ∧ isHexDigit (hexDigit n) = true := by
  decide

theorem isHexDigit_of_mem_hexByte
    {b c : UInt8}
    (h : c ∈ hexByte b) :
    isHexDigit c = true := by
  have hb : b.toNat < 256 := b.toNat_lt
  simp only [hexByte, List.mem_cons, List.not_mem_nil, or_false] at h
  rcases h with rfl | rfl
  · exact (hexDigit_spec _ (by omega)).2
  · exact (hexDigit_spec _ (by omega)).2

theorem unhex_flatMap
    (bs : Bytes) :
    unhex (bs.flatMap hexByte) = bs := by
  induction bs with
  | nil =>
      rfl
  | cons b bs ih =>
      have hb : b.toNat < 256 := b.toNat_lt
      have hhigh := (hexDigit_spec (b.toNat / 16) (by omega)).1
      have hlow := (hexDigit_spec (b.toNat % 16) (by omega)).1
      have hbyte : 16 * (b.toNat / 16) + b.toNat % 16 = b.toNat := Nat.div_add_mod _ _
      have hcons :
          (b :: bs).flatMap hexByte =
            hexDigit (b.toNat / 16) :: hexDigit (b.toNat % 16) :: bs.flatMap hexByte :=
        rfl
      rw [hcons, unhex, hhigh, hlow, hbyte, ih, UInt8.ofNat_toNat]

/-- A concrete pair of conversions in which the assumptions hold. -/
def plainHex : HexCodec where
  bin2hex := fun hash =>
    { bytes := hash.bytes.flatMap hexByte
      nulFree := by
        intro h
        obtain ⟨b, -, hb⟩ := List.mem_flatMap.mp h
        exact absurd (isHexDigit_of_mem_hexByte hb) (by decide) }
  hex2bin := fun digits old =>
    if digits.strlen = 2 * crypticHashLen ∧ digits.bytes.all isHexDigit then
      (true, Block.pad crypticHashLen (unhex digits.bytes))
    else (false, old)

theorem plainHex_correct : HexCorrect plainHex := by
  have hlength : ∀ hash, (plainHex.bin2hex hash).strlen = 2 * crypticHashLen := by
    intro hash
    have htwo : ∀ bs : Bytes, (bs.flatMap hexByte).length = 2 * bs.length := by
      intro bs
      induction bs with
      | nil => rfl
      | cons b bs ih =>
          simp only [List.flatMap_cons, List.length_append, ih, hexByte, List.length_cons,
            List.length_nil]
          omega
    simp only [plainHex, CString.strlen]
    rw [htwo, hash.size]
  have hdigits : ∀ hash, ∀ b ∈ (plainHex.bin2hex hash).bytes, isHexDigit b = true := by
    intro hash b hb
    obtain ⟨c, -, hc⟩ := List.mem_flatMap.mp hb
    exact isHexDigit_of_mem_hexByte hc
  refine ⟨hlength, hdigits, fun hash old => ?_⟩
  have hunhex : unhex (plainHex.bin2hex hash).bytes = hash.bytes := unhex_flatMap hash.bytes
  have hread :
      plainHex.hex2bin (plainHex.bin2hex hash) old =
        (true, Block.pad crypticHashLen (unhex (plainHex.bin2hex hash).bytes)) :=
    if_pos ⟨hlength hash, List.all_eq_true.mpr (hdigits hash)⟩
  rw [hread, hunhex, Block.pad_bytes]

end PlainHex

end Integrity
end SecureZ
