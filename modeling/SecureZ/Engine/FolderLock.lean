import SecureZ.Lib.PosixShell
import SecureZ.Daemon.Requests

/-!
# Locking and unlocking a folder

`cryptic_lock_folder` and `cryptic_unlock_folder` print the path between two single
quotes into a 1024-byte command line for `fscrypt` and hand it to `system`.

The path is not escaped, so a single quote in it ends the quotation; and a line that
does not fit loses its end.  Both are settled here: for which paths every shell that
keeps to the quoting rule reads the intended command or runs nothing.
-/

namespace SecureZ
namespace FolderLock

open CLib PosixShell Daemon

section Model

/-- The size of the command buffer. -/
def cmdSize : Nat := 1024

/-- The command line of both functions. -/
def folderCmd (verb : Bytes) (path : CString) : Bytes :=
  snprintf cmdSize (ascii "fscrypt " ++ verb ++ ascii " '" ++ path.bytes ++ ascii "' 2>&1")

/-- What a call leaves: its return value, and whether the shell executed a line. -/
structure FolderCall where
  ret : Int
  ran : Bool
deriving DecidableEq

/-- The body of both functions; a null pointer is `none`. -/
def folderCall
    (sh : Shell) (verb : Bytes) (path password : Option CString) :
    FolderCall :=
  match path, password with
  | some path, some _ =>
      let ret := sh (folderCmd verb path)
      ⟨if ret.status ≠ 0 then -1 else 0, ret.ran⟩
  | _, _ => ⟨-1, false⟩

/-- `cryptic_lock_folder`. -/
def crypticLockFolder (sh : Shell) (path password : Option CString) : FolderCall :=
  folderCall sh (ascii "lock") path password

/-- `cryptic_unlock_folder`. -/
def crypticUnlockFolder (sh : Shell) (path password : Option CString) : FolderCall :=
  folderCall sh (ascii "unlock") path password

/-- The two operations. -/
inductive FolderOp
  | lock
  | unlock
deriving DecidableEq

/-- The word that `fscrypt` gets for an operation. -/
def FolderOp.verb : FolderOp → Bytes
  | .lock => ascii "lock"
  | .unlock => ascii "unlock"

/-- The function of an operation. -/
def FolderOp.run : FolderOp → Shell → Option CString → Option CString → FolderCall
  | .lock => crypticLockFolder
  | .unlock => crypticUnlockFolder

end Model

section Specification

/--
A call is safe: a shell reads its line as the one command that is meant, or the call
fails and nothing has run.
-/
def FolderCallSafe
    (sh : Shell) (op : FolderOp) (path password : CString) :
    Prop :=
  readLine (folderCmd op.verb path) =
      .simple [ascii "fscrypt", op.verb, path.bytes] [ascii "2>&1"] ∨
    op.run sh (some path) (some password) = ⟨-1, false⟩

/-- The command line in front of the path. -/
def front (op : FolderOp) : Bytes :=
  ascii "fscrypt " ++ op.verb ++ ascii " '"

/-- The command line behind the path. -/
def tail : Bytes := ascii "' 2>&1"

/-- The length of the command line before it is cut. -/
def cmdLength (op : FolderOp) (path : CString) : Nat :=
  (front op).length + path.bytes.length + tail.length

/--
The paths that are handled as meant.  A path without a single quote is, unless the cut
takes the redirection and leaves the quotation closed, which happens at three lengths.
A path with a single quote is only when the text made of the front, the path and the
tail, cut to the buffer, leaves a quotation open or ends inside the redirection.
-/
def FolderPathSafe (op : FolderOp) (path : CString) : Prop :=
  if apostrophe ∈ path.bytes then
    QuoteLeftOpen ((front op ++ path.bytes ++ tail).take 1023) ∨
      RedirectCutOff ((front op ++ path.bytes ++ tail).take 1023)
  else
    cmdLength op path ≤ 1025 ∨ 1029 ≤ cmdLength op path

end Specification

section Reading

theorem cmdLength_eq
    (op : FolderOp) (path : CString) :
    cmdLength op path = (front op).length + path.bytes.length + 6 := by
  rfl

theorem front_length_lt
    (op : FolderOp) :
    (front op).length < 1023 := by
  cases op <;> decide

theorem folderCmd_eq_take
    (op : FolderOp) (path : CString) :
    folderCmd op.verb path = (front op ++ path.bytes ++ tail).take 1023 := by
  simp [folderCmd, front, tail, cmdSize, snprintf]

/-- The line that is handed over is the front, part of the path and part of the tail. -/
theorem folderCmd_eq
    (op : FolderOp) (path : CString) :
    folderCmd op.verb path =
      front op ++
        (path.bytes.take (1023 - (front op).length) ++
          tail.take (1029 - cmdLength op path)) := by
  have hf := front_length_lt op
  rw [folderCmd_eq_take, List.append_assoc, List.take_append,
    List.take_of_length_le hf.le, List.take_append, cmdLength_eq]
  congr 3
  omega

/-- The two words of the command, as they are read. -/
def commandWords (op : FolderOp) : List Token :=
  [bare (ascii "fscrypt"), bare op.verb]

/-- The front opens a quotation behind the two words of the command. -/
theorem lex_front
    (op : FolderOp) :
    lex (front op) = ⟨true, some [], commandWords op⟩ := by
  cases op <;> rfl

/-- A path without a single quote is read as one literal word. -/
theorem lex_front_append
    (op : FolderOp) {path : Bytes}
    (hpath : apostrophe ∉ path)
    (rest : Bytes) :
    lex (front op ++ (path ++ rest)) =
      rest.foldl lexStep ⟨true, some (literal path), commandWords op⟩ := by
  have hfront := lex_front op
  unfold lex at hfront ⊢
  rw [List.foldl_append, hfront, List.foldl_append, foldl_lexStep_quoted hpath]
  rfl

/-- What the shell reads when `k` bytes are left of the text behind the path. -/
def readingAfter (op : FolderOp) (path : Bytes) : Nat → Reading
  | 0 => .rejected
  | 1 => .simple [ascii "fscrypt", op.verb, path] []
  | 2 => .simple [ascii "fscrypt", op.verb, path] []
  | 3 => .simple [ascii "fscrypt", op.verb, path, ascii "2"] []
  | 4 => .rejected
  | 5 => .rejected
  | _ + 6 => .simple [ascii "fscrypt", op.verb, path] [ascii "2>&1"]

/-- The state of the lexer when `k` bytes are left of the text behind the path. -/
def stateAfter (op : FolderOp) (path : Bytes) : Nat → LexState
  | 0 => ⟨true, some (literal path), commandWords op⟩
  | 1 => ⟨false, some (literal path), commandWords op⟩
  | 2 => ⟨false, none, commandWords op ++ [literal path]⟩
  | 3 => ⟨false, some (bare (ascii "2")), commandWords op ++ [literal path]⟩
  | 4 => ⟨false, some (bare (ascii "2>")), commandWords op ++ [literal path]⟩
  | 5 => ⟨false, some (bare (ascii "2>&")), commandWords op ++ [literal path]⟩
  | _ + 6 => ⟨false, some (bare (ascii "2>&1")), commandWords op ++ [literal path]⟩

theorem lex_front_append_tail
    (op : FolderOp) {path : Bytes}
    (hpath : apostrophe ∉ path)
    (k : Nat) :
    lex (front op ++ (path ++ tail.take k)) = stateAfter op path k := by
  rw [lex_front_append op hpath]
  match k with
  | 0 | 1 | 2 | 3 | 4 | 5 => rfl
  | k + 6 =>
    have htail : tail.take (k + 6) = tail :=
      List.take_of_length_le (by simp [tail, ascii])
    rw [htail]
    rfl

/-- Both words are plain, and they are the words of the command. -/
theorem commandWords_plain
    (op : FolderOp) :
    (commandWords op).all keepsReading = true ∧
      (commandWords op).all (fun t => isPlain t || isRedirect t) = true ∧
      ((commandWords op).filter isPlain).map text = [ascii "fscrypt", op.verb] ∧
      (commandWords op).filter isRedirect = [] := by
  cases op <;> decide

/-- The words that the text behind the path leaves when it is cut inside its last word. -/
theorem tail_tokens :
    (isPlain (bare (ascii "2")) = true ∧ isRedirect (bare (ascii "2")) = false) ∧
      (isPlain (bare (ascii "2>")) = false ∧ isRedirect (bare (ascii "2>")) = false ∧
        isCutRedirect (bare (ascii "2>")) = true) ∧
      (isPlain (bare (ascii "2>&")) = false ∧ isRedirect (bare (ascii "2>&")) = false ∧
        isCutRedirect (bare (ascii "2>&")) = true) ∧
      isPlain (bare (ascii "2>&1")) = false ∧ isRedirect (bare (ascii "2>&1")) = true := by
  decide

/-- What the line is read as, whatever is left of the text behind the path. -/
theorem readLine_front_append
    (op : FolderOp) {path : Bytes}
    (hpath : apostrophe ∉ path)
    (k : Nat) :
    readLine (front op ++ (path ++ tail.take k)) = readingAfter op path k := by
  obtain ⟨hkeeps, hplain, hwords, hredirects⟩ := commandWords_plain op
  obtain ⟨⟨h2, h2r⟩, ⟨h3, h3r, h3c⟩, ⟨h4, h4r, h4c⟩, h5, h5r⟩ := tail_tokens
  rw [readLine, lex_front_append_tail op hpath]
  match k with
  | 0 =>
    simp only [stateAfter, LexState.reading, LexState.tokens, List.all_append, hkeeps]
    simp [readingAfter]
  | 1 | 2 | 3 | 4 | 5 | k + 6 =>
    simp only [stateAfter, LexState.reading, LexState.tokens, List.all_append, hplain,
      List.filter_append, List.map_append, hwords, hredirects]
    simp [readingAfter, h2, h2r, h3, h3r, h3c, h4, h4r, h4c, h5, h5r]

/-- The reading of the line of a path without a single quote, by its length. -/
theorem readLine_folderCmd
    (op : FolderOp) {path : CString}
    (hpath : apostrophe ∉ path.bytes) :
    readLine (folderCmd op.verb path) =
      readingAfter op (path.bytes.take (1023 - (front op).length))
        (1029 - cmdLength op path) := by
  have htake : apostrophe ∉ path.bytes.take (1023 - (front op).length) :=
    fun h => hpath (List.mem_of_mem_take h)
  rw [folderCmd_eq, readLine_front_append op htake]

end Reading

section CallSafe

/-- A line that every shell rejects makes the call fail with nothing run. -/
theorem run_of_rejected
    {sh : Shell} {op : FolderOp} {path : CString}
    (hsh : ObeysQuoting sh)
    (hline : readLine (folderCmd op.verb path) = .rejected)
    (password : CString) :
    op.run sh (some path) (some password) = ⟨-1, false⟩ := by
  obtain ⟨hran, hstatus⟩ := hsh _ hline
  cases op <;>
    simpa [FolderOp.run, crypticLockFolder, crypticUnlockFolder, folderCall,
      FolderOp.verb] using ⟨hstatus, hran⟩

/-- The eager shell runs every line that is not rejected. -/
theorem run_eagerShell_ne
    {op : FolderOp} {path : CString}
    (hline : readLine (folderCmd op.verb path) ≠ .rejected)
    (password : CString) :
    op.run eagerShell (some path) (some password) ≠ ⟨-1, false⟩ := by
  intro hrun
  have hran := eagerShell_ran hline
  cases op <;>
    simp_all [FolderOp.run, crypticLockFolder, crypticUnlockFolder, folderCall,
      FolderOp.verb]

/--
For every shell that keeps to the quoting rule the call is safe, if and only if the
line is read as the command that is meant or is rejected.
-/
theorem forall_shell_safe_iff
    (op : FolderOp) (path password : CString) :
    (∀ sh, ObeysQuoting sh → FolderCallSafe sh op path password)
      ↔
    readLine (folderCmd op.verb path) =
        .simple [ascii "fscrypt", op.verb, path.bytes] [ascii "2>&1"] ∨
      readLine (folderCmd op.verb path) = .rejected := by
  constructor
  · intro h
    rcases h eagerShell eagerShell_obeysQuoting with hline | hrun
    · exact Or.inl hline
    · right
      by_contra hline
      exact run_eagerShell_ne hline password hrun
  · rintro (hline | hline) sh hsh
    · exact Or.inl hline
    · exact Or.inr (run_of_rejected hsh hline password)

/-- With no single quote in the path, only the cut decides. -/
theorem readLine_safe_iff
    (op : FolderOp) {path : CString}
    (hpath : apostrophe ∉ path.bytes) :
    (readLine (folderCmd op.verb path) =
        .simple [ascii "fscrypt", op.verb, path.bytes] [ascii "2>&1"] ∨
      readLine (folderCmd op.verb path) = .rejected)
      ↔
    cmdLength op path ≤ 1025 ∨ 1029 ≤ cmdLength op path := by
  rw [readLine_folderCmd op hpath]
  have hlen := cmdLength_eq op path
  have hf := front_length_lt op
  generalize hk : 1029 - cmdLength op path = k
  match k with
  | 0 =>
    simp only [readingAfter, or_true, true_iff]
    omega
  | 1 | 2 | 3 =>
    simp only [readingAfter, Reading.simple.injEq, reduceCtorEq, or_false]
    have hno : ¬ (cmdLength op path ≤ 1025 ∨ 1029 ≤ cmdLength op path) := by omega
    simp [hno]
  | 4 | 5 =>
    simp only [readingAfter, or_true, true_iff]
    omega
  | k + 6 =>
    have hwhole : path.bytes.take (1023 - (front op).length) = path.bytes :=
      List.take_of_length_le (by omega)
    simp only [readingAfter, hwhole, true_or, true_iff]
    omega

/--
**A lock or unlock call is safe with every shell that keeps to the quoting rule if and
only if its path is one that the command line holds.**
-/
theorem folder_call_safe_iff
    (op : FolderOp) (path password : CString) :
    (∀ sh, ObeysQuoting sh → FolderCallSafe sh op path password)
      ↔
    FolderPathSafe op path := by
  rw [forall_shell_safe_iff, FolderPathSafe, ← folderCmd_eq_take,
    ← readLine_eq_rejected_iff]
  split_ifs with hpath
  · constructor
    · rintro (hline | hline)
      · exact absurd hpath (apostrophe_not_mem_words hline (by simp))
      · exact hline
    · exact Or.inr
  · exact readLine_safe_iff op hpath

/-- A request for a folder whose name holds two single quotes. -/
def quotedPathRequest : CString :=
  cstr (ascii "\x7b\"cmd\":\"lock\",\"path\":\"/a' '/b\"\x7d")

/-- The daemon locks two folders for it, neither of them the one that was asked for. -/
theorem quoted_path_is_split :
    ∃ path password,
      handleCommand quotedPathRequest = .call (.lockFolder path password) ∧
        path.bytes = ascii "/a' '/b" ∧
        readLine (folderCmd FolderOp.lock.verb path) =
          .simple [ascii "fscrypt", ascii "lock", ascii "/a", ascii "/b"]
            [ascii "2>&1"] ∧
        ¬ ∀ sh, ObeysQuoting sh → FolderCallSafe sh .lock path password := by
  refine ⟨cstr (ascii "/a' '/b"), cstr (ascii "dummy"), by decide +kernel, by decide,
    by decide +kernel, ?_⟩
  intro h
  rcases h eagerShell eagerShell_obeysQuoting with hline | hrun
  · exact absurd hline (by decide +kernel)
  · exact absurd hrun (by decide +kernel)

end CallSafe

end FolderLock
end SecureZ
