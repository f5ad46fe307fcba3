import SecureZ.Lib.CText

/-!
# The requests of the daemon

`handle_command` of `crypticd.c` reads a request by substring search: `extract_field`
looks for `"field":"` and takes the text up to the next quote, `extract_int` looks for
`"field":` and reads a number.  What the dispatcher does with a request is a
`Dispatch`: the engine call it makes with the arguments it read, or the error response
it sends without calling anything.

`malloc` of a field value is taken to succeed.
-/

namespace SecureZ
namespace Daemon

open CLib

/-- The double quote. -/
def quote : UInt8 := 34

/-- `RESP_BUF_SIZE`. -/
def respBufSize : Nat := 4096

section Extract

/-- The text that `extract_field` searches for. -/
def fieldSearch (field : Bytes) : Bytes :=
  snprintf 128 (ascii "\"" ++ field ++ ascii "\":\"")

/-- The text that `extract_int` searches for. -/
def intSearch (field : Bytes) : Bytes :=
  snprintf 128 (ascii "\"" ++ field ++ ascii "\":")

/-- `extract_field`. -/
def extractField (json : CString) (field : Bytes) : Option CString := do
  let found ← strstr (fieldSearch field) json.bytes
  let start := found.drop (fieldSearch field).length
  let stop ← strchr start quote
  return cstr (start.take (start.length - stop.length))

/-- `extract_int`. -/
def extractInt (json : CString) (field : Bytes) : Int :=
  match strstr (intSearch field) json.bytes with
  | none => -1
  | some found => atoi (found.drop (intSearch field).length)

end Extract

section Dispatch

/-- The commands of the dispatcher, in the order in which it compares them. -/
inductive Command
  | status
  | encrypt
  | decrypt
  | hash
  | wipe
  | lock
  | unlock
  | sessionStart
  | sessionEnd
  | sessionList
  | containerCreate
  | containerOpen
  | containerClose
  | containerList
  | emergencyWipe
deriving DecidableEq

/-- The text that a command is compared with. -/
def Command.text : Command → Bytes
  | .status => ascii "status"
  | .encrypt => ascii "encrypt"
  | .decrypt => ascii "decrypt"
  | .hash => ascii "hash"
  | .wipe => ascii "wipe"
  | .lock => ascii "lock"
  | .unlock => ascii "unlock"
  | .sessionStart => ascii "session_start"
  | .sessionEnd => ascii "session_end"
  | .sessionList => ascii "session_list"
  | .containerCreate => ascii "container_create"
  | .containerOpen => ascii "container_open"
  | .containerClose => ascii "container_close"
  | .containerList => ascii "container_list"
  | .emergencyWipe => ascii "emergency_wipe"

/-- All commands, in order. -/
def Command.all : List Command :=
  [.status, .encrypt, .decrypt, .hash, .wipe, .lock, .unlock, .sessionStart,
    .sessionEnd, .sessionList, .containerCreate, .containerOpen, .containerClose,
    .containerList, .emergencyWipe]

/-- The chain of `strcmp` on the command text. -/
def parseCommand (cmd : CString) : Option Command :=
  Command.all.find? fun c => c.text = cmd.bytes

/-- The calls of the dispatcher into the engine. -/
inductive EngineCall
  | status
  | encryptFile (path password : CString)
  | decryptFile (path password : CString)
  | hashFile (path : CString)
  | secureDelete (path : CString)
  | lockFolder (path password : CString)
  | unlockFolder (path password : CString)
  | sessionCreate
  | sessionDestroy (id : Int)
  | sessionList
  | containerCreate (name : CString) (size : Nat) (password : CString)
  | containerOpen (name password : CString)
  | containerClose (name : CString)
  | containerList
  | emergencyWipe
deriving DecidableEq

/-- The command that a function is called for. -/
def EngineCall.command : EngineCall → Command
  | .status => .status
  | .encryptFile _ _ => .encrypt
  | .decryptFile _ _ => .decrypt
  | .hashFile _ => .hash
  | .secureDelete _ => .wipe
  | .lockFolder _ _ => .lock
  | .unlockFolder _ _ => .unlock
  | .sessionCreate => .sessionStart
  | .sessionDestroy _ => .sessionEnd
  | .sessionList => .sessionList
  | .containerCreate _ _ _ => .containerCreate
  | .containerOpen _ _ => .containerOpen
  | .containerClose _ => .containerClose
  | .containerList => .containerList
  | .emergencyWipe => .emergencyWipe

/-- What the dispatcher does with a request. -/
inductive Dispatch
  | call (c : EngineCall)
  | refuse (response : Bytes)
deriving DecidableEq

/-- The error response with a message. -/
def errorResponse (msg : Bytes) : Bytes :=
  snprintf respBufSize
    (ascii "\x7b\"status\":\"error\",\"msg\":\"" ++ msg ++ ascii "\"\x7d")

/-- A command that needs one text field. -/
def fieldCommand
    (json : CString) (field missing : Bytes) (call : CString → EngineCall) :
    Dispatch :=
  match extractField json field with
  | some value => .call (call value)
  | none => .refuse (errorResponse missing)

/-- A command that needs a text field and a password. -/
def passwordCommand
    (json : CString) (field missing : Bytes) (call : CString → CString → EngineCall) :
    Dispatch :=
  match extractField json field, extractField json (ascii "password") with
  | some value, some pw => .call (call value pw)
  | _, _ => .refuse (errorResponse missing)

/-- The branch of a command. -/
def commandBranch (json : CString) : Command → Dispatch
  | .status => .call .status
  | .encrypt =>
      passwordCommand json (ascii "path") (ascii "missing path or password")
        .encryptFile
  | .decrypt =>
      passwordCommand json (ascii "path") (ascii "missing path or password")
        .decryptFile
  | .hash => fieldCommand json (ascii "path") (ascii "missing path") .hashFile
  | .wipe => fieldCommand json (ascii "path") (ascii "missing path") .secureDelete
  | .lock =>
      fieldCommand json (ascii "path") (ascii "missing path")
        fun path => .lockFolder path (cstr (ascii "dummy"))
  | .unlock =>
      passwordCommand json (ascii "path") (ascii "missing path or password")
        .unlockFolder
  | .sessionStart => .call .sessionCreate
  | .sessionEnd => .call (.sessionDestroy (extractInt json (ascii "id")))
  | .sessionList => .call .sessionList
  | .containerCreate =>
      if extractInt json (ascii "size") ≤ 0 then
        .refuse (errorResponse (ascii "missing name, size, or password"))
      else
        passwordCommand json (ascii "name") (ascii "missing name, size, or password")
          fun name pw => .containerCreate name (extractInt json (ascii "size")).toNat pw
  | .containerOpen =>
      passwordCommand json (ascii "name") (ascii "missing name or password")
        .containerOpen
  | .containerClose => fieldCommand json (ascii "name") (ascii "missing name") .containerClose
  | .containerList => .call .containerList
  | .emergencyWipe => .call .emergencyWipe

/-- `handle_command`, up to the call into the engine. -/
def handleCommand (json : CString) : Dispatch :=
  match extractField json (ascii "cmd") with
  | none => .refuse (errorResponse (ascii "missing cmd field"))
  | some cmd =>
      match parseCommand cmd with
      | none => .refuse (errorResponse (ascii "unknown command: " ++ cmd.bytes))
      | some c => commandBranch json c

end Dispatch

section Lemmas

/-- The texts of the commands are distinct, so the chain finds the command itself. -/
theorem parseCommand_text
    (c : Command) :
    parseCommand (cstr c.text) = some c := by
  cases c <;> decide

/-- A request whose command is read takes the branch of that command. -/
theorem handleCommand_of_cmd
    {json : CString} {c : Command}
    (h : extractField json (ascii "cmd") = some (cstr c.text)) :
    handleCommand json = commandBranch json c := by
  simp only [handleCommand, h, parseCommand_text]

/-- A one-field command makes the call with the value that it read. -/
theorem fieldCommand_eq_call_iff
    {json : CString} {field missing : Bytes} {call : CString → EngineCall}
    {c : EngineCall} :
    fieldCommand json field missing call = .call c
      ↔
    ∃ value, extractField json field = some value ∧ call value = c := by
  unfold fieldCommand
  cases extractField json field <;> simp

/-- A command with a password makes the call with both values that it read. -/
theorem passwordCommand_eq_call_iff
    {json : CString} {field missing : Bytes} {call : CString → CString → EngineCall}
    {c : EngineCall} :
    passwordCommand json field missing call = .call c
      ↔
    ∃ value pw,
      extractField json field = some value ∧
        extractField json (ascii "password") = some pw ∧
        call value pw = c := by
  unfold passwordCommand
  cases extractField json field with
  | none => simp
  | some value => cases extractField json (ascii "password") <;> simp

end Lemmas

section Search

/-- For the short names of the fields, the search text is not cut. -/
theorem fieldSearch_eq
    {field : Bytes}
    (h : field.length < 124) :
    fieldSearch field = quote :: (field ++ quote :: 58 :: [quote]) := by
  rw [fieldSearch, snprintf_of_fits]
  · simp [ascii, quote]
  · simp [ascii]
    omega

theorem intSearch_eq
    {field : Bytes}
    (h : field.length < 124) :
    intSearch field = quote :: (field ++ quote :: 58 :: []) := by
  rw [intSearch, snprintf_of_fits]
  · simp [ascii, quote]
  · simp [ascii]
    omega

/-- What is copied of a text up to its first quote. -/
theorem copied_eq_iff
    {text : Bytes} {value : CString}
    (hnul : (0 : UInt8) ∉ text) :
    (∃ stop, strchr text quote = some stop ∧
        cstr (text.take (text.length - stop.length)) = value)
      ↔
    quote ∈ text ∧ before quote text = value.bytes := by
  have hcopy : (cstr (before quote text)).bytes = before quote text :=
    cstr_bytes_of_nulFree fun h => hnul ((List.takeWhile_prefix _).subset h)
  constructor
  · rintro ⟨stop, hstop, rfl⟩
    have hmem : quote ∈ text := by
      by_contra hno
      rw [strchr_eq_none_iff.mpr hno] at hstop
      cases hstop
    rw [take_strchr hstop, hcopy]
    exact ⟨hmem, rfl⟩
  · rintro ⟨hmem, hbefore⟩
    cases hstop : strchr text quote with
    | none =>
        exact absurd hmem (strchr_eq_none_iff.mp hstop)
    | some stop =>
        refine ⟨stop, rfl, CString.ext ?_⟩
        rw [take_strchr hstop, hcopy, hbefore]

/--
What `extract_field` reads from a request that may be cut off.

When nothing in front of the field is mistaken for it, the value is read as it was
written if and only if it has no quote inside and its closing quote is still there.
-/
theorem extractField_eq_some_iff
    {json value : CString} {field front rest : Bytes} {n : Nat}
    (hjson :
      json.bytes =
        (front ++ (fieldSearch field ++ (value.bytes ++ quote :: rest))).take n)
    (hfront : skips (fieldSearch field) front = true) :
    extractField json field = some value
      ↔
    quote ∉ value.bytes ∧
      front.length + (fieldSearch field).length + value.bytes.length + 1 ≤ n := by
  have hnul := json.nulFree
  rw [extractField, hjson]
  rw [hjson] at hnul
  by_cases hn : front.length + (fieldSearch field).length ≤ n
  · rw [strstr_take_of_skips hfront hn]
    obtain ⟨k, rfl⟩ := Nat.exists_eq_add_of_le hn
    rw [Nat.add_sub_cancel_left]
    rw [Nat.add_assoc, List.take_length_add_append, List.take_length_add_append] at hnul
    have hrest : (0 : UInt8) ∉ (value.bytes ++ quote :: rest).take k :=
      fun h => hnul (by simp [h])
    simp only [Option.bind_eq_bind, Option.bind_some, List.drop_left, Option.pure_def,
      Option.bind_eq_some_iff, Option.some.injEq]
    rw [copied_eq_iff hrest, before_take_iff]
    constructor
    · rintro ⟨hquote, hlong⟩
      exact ⟨hquote, by omega⟩
    · rintro ⟨hquote, hlong⟩
      exact ⟨hquote, by omega⟩
  · rw [strstr_take_eq_none hfront (by omega)]
    simp only [Option.bind_eq_bind, Option.bind_none, reduceCtorEq, false_iff, not_and]
    intro _
    omega

end Search

end Daemon
end SecureZ
