import SecureZ.Lib.CText

/-!
# The security commands of the shell

`crypto_cmds.c` asks for a password, makes the path absolute and formats a request into
a buffer of 4096 bytes with `snprintf`, which cuts off what does not fit.  Nothing is
escaped: path, name and password stand in the request as they were given.

A resolved path and a password line carry the bounds of the buffers they come from.
-/

namespace SecureZ
namespace Shell

open CLib

/-- What `prompt_password` returns: a line of at most 255 bytes. -/
structure PasswordLine where
  line : CString
  short : line.strlen ≤ 255

/-- What `resolve_path` returns: a path of at most 1023 bytes. -/
structure ResolvedPath where
  path : CString
  short : path.strlen ≤ 1023

/-- The size argument of `vault create`: text that reads as a positive number and holds
no quote. -/
structure VaultSize where
  text : CString
  quoteFree : (34 : UInt8) ∉ text.bytes
  positive : 0 < atoi text.bytes

section Inputs

/-- The C string in a buffer is no longer than the buffer. -/
theorem strlen_cstr_le
    {buf : Bytes} {n : Nat}
    (h : buf.length ≤ n) :
    (cstr buf).strlen ≤ n :=
  (cstr_length_le buf).trans h

/-- `prompt_password` on the input that is left on the terminal. -/
def promptPassword (input : Bytes) : Option (PasswordLine × Bytes) :=
  match fgets 256 input with
  | none => none
  | some (_, left) =>
      some ({
        line := cstr (stripNewline (cstr (fgetsLine 255 input)).bytes)
        short := by
          refine strlen_cstr_le ((stripNewline_prefix_self _).length_le.trans ?_)
          exact (cstr_length_le _).trans (length_fgetsLine_le 255 input) }, left)

/-- `resolve_path`, with the working directory of the shell. -/
def resolvePath (path cwd : CString) : ResolvedPath :=
  if path.bytes.head? = some 47 then
    { path := path.take 1023
      short := by simp [CString.take, CString.strlen] }
  else
    { path := cstr (snprintf 1024 (cwd.bytes ++ ascii "/" ++ path.bytes))
      short := strlen_cstr_le (by simp [snprintf]) }

end Inputs

section Requests

/-- The request buffer of a command. -/
def formatRequest (text : Bytes) : CString :=
  cstr (snprintf 4096 text)

/-- The format of a request with one text field. -/
def fieldText (cmd key : Bytes) (value : CString) : Bytes :=
  ascii "\x7b\"cmd\":\"" ++ cmd ++ ascii "\",\"" ++ key ++ ascii "\":\"" ++ value.bytes ++
    ascii "\"\x7d"

/-- The format of a request with a text field and a password. -/
def passwordText (cmd key : Bytes) (value pw : CString) : Bytes :=
  ascii "\x7b\"cmd\":\"" ++ cmd ++ ascii "\",\"" ++ key ++ ascii "\":\"" ++ value.bytes ++
    ascii "\",\"password\":\"" ++ pw.bytes ++ ascii "\"\x7d"

/-- The format of the request of `vault create`. -/
def vaultCreateText (name size pw : CString) : Bytes :=
  ascii "\x7b\"cmd\":\"container_create\",\"name\":\"" ++ name.bytes ++
    ascii "\",\"size\":" ++ size.bytes ++ ascii ",\"password\":\"" ++ pw.bytes ++
    ascii "\"\x7d"

/-- The commands that send a request with a path, a name or a password. -/
inductive ShellCommand
  | encrypt (path : ResolvedPath) (pw : PasswordLine)
  | decrypt (path : ResolvedPath) (pw : PasswordLine)
  | lock (path : ResolvedPath)
  | unlock (path : ResolvedPath) (pw : PasswordLine)
  | hash (path : ResolvedPath)
  | wipe (path : ResolvedPath)
  | vaultCreate (name : CString) (size : VaultSize) (pw : PasswordLine)
  | vaultOpen (name : CString) (pw : PasswordLine)
  | vaultClose (name : CString)

/-- The text of the request, before it is cut to the buffer. -/
def ShellCommand.text : ShellCommand → Bytes
  | .encrypt path pw => passwordText (ascii "encrypt") (ascii "path") path.path pw.line
  | .decrypt path pw => passwordText (ascii "decrypt") (ascii "path") path.path pw.line
  | .lock path => fieldText (ascii "lock") (ascii "path") path.path
  | .unlock path pw => passwordText (ascii "unlock") (ascii "path") path.path pw.line
  | .hash path => fieldText (ascii "hash") (ascii "path") path.path
  | .wipe path => fieldText (ascii "wipe") (ascii "path") path.path
  | .vaultCreate name size pw => vaultCreateText name size.text pw.line
  | .vaultOpen name pw => passwordText (ascii "container_open") (ascii "name") name pw.line
  | .vaultClose name => fieldText (ascii "container_close") (ascii "name") name

/-- The request that the command sends to the daemon. -/
def ShellCommand.request (c : ShellCommand) : CString :=
  formatRequest c.text

/-- A request is its text up to the end of the buffer. -/
theorem formatRequest_bytes
    {text : Bytes}
    (h : (0 : UInt8) ∉ text) :
    (formatRequest text).bytes = text.take 4095 :=
  cstr_bytes_of_nulFree fun h0 => h (List.mem_of_mem_take h0)

end Requests

end Shell
end SecureZ
