import SecureZ.Daemon.Requests
import SecureZ.Shell.CryptoCmds

/-!
# The shell and the daemon agree on a request

The shell writes path, name and password into a request as they are; the daemon reads
each of them up to the next quote.  The main result is the exact condition under which
the daemon makes the call that the command is for, with the very arguments: none of the
texts holds a quote, and the request is not cut off before the last closing quote.

The proof goes field by field.  What stands in front of a field is a row of quoted
texts, and `skips_value` says that a quoted text without a quote inside hides no other
field; `extractField_eq_some_iff` then settles the field itself.
-/

namespace SecureZ
namespace Daemon

open CLib
open Shell

section Fields

/-- The request up to the value of its second field. -/
def frontOfKey (cmd : Bytes) : Bytes :=
  ascii "\x7b\"cmd\":" ++ quote :: (cmd ++ [quote, 44])

/-- The request up to the password. -/
def frontOfPassword (cmd key : Bytes) (value : CString) : Bytes :=
  frontOfKey cmd ++ ((quote :: (key ++ [quote, 58])) ++
    quote :: (value.bytes ++ [quote, 44]))

/-- What keeps the search for a field from finding it inside a quoted text. -/
structure IsFieldName (field : Bytes) : Prop where
  short : field.length < 124
  quoteFree : quote ∉ field
  noComma : field.head?.getD 44 ≠ 44

/-- The keys that stand behind the command in a request. -/
def IsKey (key : Bytes) : Prop :=
  key = ascii "path" ∨ key = ascii "name"

theorem isFieldName_key
    {key : Bytes}
    (hkey : IsKey key) :
    IsFieldName key := by
  rcases hkey with rfl | rfl <;> exact ⟨by decide, by decide, by decide⟩

theorem isFieldName_password : IsFieldName (ascii "password") :=
  ⟨by decide, by decide, by decide⟩

theorem isFieldName_size : IsFieldName (ascii "size") :=
  ⟨by decide, by decide, by decide⟩

/-- A quoted text without a quote inside hides no field. -/
theorem skips_value
    {field value : Bytes}
    (hfield : IsFieldName field)
    (hvalue : quote ∉ value) :
    skips (fieldSearch field) (quote :: (value ++ [quote, 44])) = true := by
  rw [fieldSearch_eq hfield.short]
  exact skips_quoted hfield.quoteFree hvalue (by decide) (by decide) hfield.noComma

/-- Nor does it hide a number. -/
theorem skips_value_int
    {field value : Bytes}
    (hfield : IsFieldName field)
    (hvalue : quote ∉ value) :
    skips (intSearch field) (quote :: (value ++ [quote, 44])) = true := by
  rw [intSearch_eq hfield.short]
  exact skips_quoted hfield.quoteFree hvalue (by decide) (by decide) hfield.noComma

theorem skips_frontOfKey
    {cmd key : Bytes}
    (hkey : IsKey key)
    (hcmd : quote ∉ cmd) :
    skips (fieldSearch key) (frontOfKey cmd) = true := by
  have hvalue := skips_value (isFieldName_key hkey) hcmd
  rcases hkey with rfl | rfl <;>
    exact skips_append rfl hvalue

theorem skips_frontOfPassword
    {cmd key : Bytes} {value : CString}
    (hkey : IsKey key)
    (hcmd : quote ∉ cmd)
    (hvalue : quote ∉ value.bytes) :
    skips (fieldSearch (ascii "password")) (frontOfPassword cmd key value) = true := by
  have hfront : skips (fieldSearch (ascii "password")) (frontOfKey cmd) = true :=
    skips_append rfl (skips_value isFieldName_password hcmd)
  have hvalue' := skips_value isFieldName_password hvalue
  rcases hkey with rfl | rfl <;>
    exact skips_append hfront (skips_append rfl hvalue')

end Fields

section Texts

/-- A field of a request whose text is cut to the buffer. -/
theorem extractField_request
    {text front rest field : Bytes} {value : CString}
    (hnul : (0 : UInt8) ∉ text)
    (htext : text = front ++ (fieldSearch field ++ (value.bytes ++ quote :: rest)))
    (hfront : skips (fieldSearch field) front = true) :
    extractField (formatRequest text) field = some value
      ↔
    quote ∉ value.bytes ∧ text.length ≤ 4095 + rest.length := by
  have hjson := formatRequest_bytes hnul
  subst htext
  rw [extractField_eq_some_iff hjson hfront]
  simp only [List.length_append, List.length_cons]
  constructor
  · rintro ⟨hquote, hle⟩
    exact ⟨hquote, by omega⟩
  · rintro ⟨hquote, hle⟩
    exact ⟨hquote, by omega⟩

theorem nul_not_mem_text
    (c : Command) :
    (0 : UInt8) ∉ c.text := by
  cases c <;> decide

theorem quote_not_mem_text
    (c : Command) :
    quote ∉ c.text := by
  cases c <;> decide

/-- A request that starts with its command takes the branch of that command. -/
theorem handleCommand_request
    {c : Command} {text rest : Bytes}
    (hnul : (0 : UInt8) ∉ text)
    (htext :
      text = ascii "\x7b" ++ (fieldSearch (ascii "cmd") ++ (c.text ++ quote :: rest))) :
    handleCommand (formatRequest text) = commandBranch (formatRequest text) c := by
  have hbytes : (cstr c.text).bytes = c.text := cstr_bytes_of_nulFree (nul_not_mem_text c)
  have hshort : c.text.length ≤ 16 := by cases c <;> decide
  refine handleCommand_of_cmd ((extractField_request hnul
    (by rw [hbytes]; exact htext) (by decide)).mpr ⟨?_, ?_⟩)
  · rw [hbytes]
    exact quote_not_mem_text c
  · have hlen := congrArg List.length htext
    have hfront : (ascii "\x7b").length = 1 := rfl
    have hsearch : (fieldSearch (ascii "cmd")).length = 7 := rfl
    simp only [List.length_append, List.length_cons, hfront, hsearch] at hlen
    omega

theorem nul_not_mem_key
    {key : Bytes}
    (hkey : IsKey key) :
    (0 : UInt8) ∉ key := by
  rcases hkey with rfl | rfl <;> decide

/-- A request with one field makes the call that it is for exactly when the value holds
no quote and its closing quote fits. -/
theorem fieldText_call_iff
    (c : Command) {key missing : Bytes} {call : CString → EngineCall}
    (hkey : IsKey key)
    (hbranch : ∀ json, commandBranch json c = fieldCommand json key missing call)
    (hcall : Function.Injective call)
    (value : CString) :
    handleCommand (formatRequest (fieldText c.text key value)) = .call (call value)
      ↔
    quote ∉ value.bytes ∧ (fieldText c.text key value).length ≤ 4096 := by
  have hnul : (0 : UInt8) ∉ fieldText c.text key value := by
    simp [fieldText, ascii, nul_not_mem_text, nul_not_mem_key hkey, value.nulFree]
  have hcmd :
      fieldText c.text key value =
        ascii "\x7b" ++ (fieldSearch (ascii "cmd") ++ (c.text ++ quote ::
          (ascii ",\"" ++ key ++ ascii "\":\"" ++ value.bytes ++ ascii "\"\x7d"))) := by
    simp [fieldText, fieldSearch_eq, ascii, quote]
  have hvalue :
      fieldText c.text key value =
        frontOfKey c.text ++ (fieldSearch key ++ (value.bytes ++ quote :: ascii "\x7d")) := by
    simp [fieldText, frontOfKey, fieldSearch_eq (isFieldName_key hkey).short, ascii, quote]
  have hextract :=
    extractField_request hnul hvalue (skips_frontOfKey hkey (quote_not_mem_text c))
  rw [handleCommand_request hnul hcmd, hbranch, fieldCommand_eq_call_iff]
  constructor
  · rintro ⟨got, hgot, hsame⟩
    rw [hcall hsame] at hgot
    exact hextract.mp hgot
  · intro h
    exact ⟨value, hextract.mpr h, rfl⟩

theorem nul_not_mem_passwordText
    (c : Command) {key : Bytes}
    (hkey : IsKey key)
    (value pw : CString) :
    (0 : UInt8) ∉ passwordText c.text key value pw := by
  simp [passwordText, ascii, nul_not_mem_text, nul_not_mem_key hkey, value.nulFree, pw.nulFree]

/-- Where the command stands in a request with a password. -/
theorem passwordText_cmd
    (cmd key : Bytes) (value pw : CString) :
    passwordText cmd key value pw =
      ascii "\x7b" ++ (fieldSearch (ascii "cmd") ++ (cmd ++ quote ::
        (ascii ",\"" ++ key ++ ascii "\":\"" ++ value.bytes ++
          ascii "\",\"password\":\"" ++ pw.bytes ++ ascii "\"\x7d"))) := by
  simp [passwordText, fieldSearch_eq, ascii, quote]

/-- Where the field stands. -/
theorem passwordText_key
    (cmd : Bytes) {key : Bytes}
    (hkey : IsKey key)
    (value pw : CString) :
    passwordText cmd key value pw =
      frontOfKey cmd ++ (fieldSearch key ++ (value.bytes ++ quote ::
        (ascii ",\"password\":\"" ++ pw.bytes ++ ascii "\"\x7d"))) := by
  simp [passwordText, frontOfKey, fieldSearch_eq (isFieldName_key hkey).short, ascii, quote]

/-- Where the password stands. -/
theorem passwordText_password
    (cmd key : Bytes) (value pw : CString) :
    passwordText cmd key value pw =
      frontOfPassword cmd key value ++ (fieldSearch (ascii "password") ++
        (pw.bytes ++ quote :: ascii "\x7d")) := by
  simp [passwordText, frontOfPassword, frontOfKey, fieldSearch_eq, ascii, quote]

/-- A request with a field and a password makes the call that it is for exactly when
neither holds a quote and the closing quote of the password fits. -/
theorem passwordText_call_iff
    (c : Command) {key missing : Bytes} {call : CString → CString → EngineCall}
    (hkey : IsKey key)
    (hbranch : ∀ json, commandBranch json c = passwordCommand json key missing call)
    (hcall : ∀ a b a' b', call a b = call a' b' → a = a' ∧ b = b')
    (value pw : CString) :
    handleCommand (formatRequest (passwordText c.text key value pw)) =
        .call (call value pw)
      ↔
    (quote ∉ value.bytes ∧ quote ∉ pw.bytes) ∧
      (passwordText c.text key value pw).length ≤ 4096 := by
  have hnul := nul_not_mem_passwordText c hkey value pw
  have hcmd := passwordText_cmd c.text key value pw
  have hvalue := passwordText_key c.text hkey value pw
  have hpassword := passwordText_password c.text key value pw
  have hextract :=
    extractField_request hnul hvalue (skips_frontOfKey hkey (quote_not_mem_text c))
  rw [handleCommand_request hnul hcmd, hbranch, passwordCommand_eq_call_iff]
  constructor
  · rintro ⟨gotValue, gotPw, hgotValue, hgotPw, hsame⟩
    obtain ⟨rfl, rfl⟩ := hcall _ _ _ _ hsame
    have hquote := (hextract.mp hgotValue).1
    have hextractPw :=
      extractField_request hnul hpassword
        (skips_frontOfPassword hkey (quote_not_mem_text c) hquote)
    obtain ⟨hquotePw, hfits⟩ := hextractPw.mp hgotPw
    exact ⟨⟨hquote, hquotePw⟩, hfits⟩
  · rintro ⟨⟨hquote, hquotePw⟩, hfits⟩
    have hextractPw :=
      extractField_request hnul hpassword
        (skips_frontOfPassword hkey (quote_not_mem_text c) hquote)
    refine ⟨value, pw, hextract.mpr ⟨hquote, ?_⟩, hextractPw.mpr ⟨hquotePw, hfits⟩, rfl⟩
    have hlast : (ascii "\"\x7d").length = 2 := rfl
    simp only [List.length_append, hlast]
    omega

end Texts

section Vault

variable {name size pw : CString}

/-- The request of `vault create` up to the size. -/
def frontOfSize (name : CString) : Bytes :=
  ascii "\x7b\"cmd\":\"container_create\",\"name\":" ++
    quote :: (name.bytes ++ [quote, 44])

/-- The request of `vault create` up to the password. -/
def frontOfCreatePassword (name size : CString) : Bytes :=
  frontOfSize name ++ (ascii "\"size\":" ++ (size.bytes ++ [44]))

theorem skips_frontOfSize
    (hname : quote ∉ name.bytes) :
    skips (intSearch (ascii "size")) (frontOfSize name) = true :=
  skips_append rfl (skips_value_int isFieldName_size hname)

theorem skips_frontOfCreatePassword
    (hname : quote ∉ name.bytes)
    (hsize : quote ∉ size.bytes) :
    skips (fieldSearch (ascii "password")) (frontOfCreatePassword name size) = true := by
  have hfront : skips (fieldSearch (ascii "password")) (frontOfSize name) = true :=
    skips_append rfl (skips_value isFieldName_password hname)
  have hdigits : skips (fieldSearch (ascii "password")) size.bytes = true := by
    rw [fieldSearch_eq isFieldName_password.short]
    exact skips_of_head_not_mem hsize
  exact skips_append hfront (skips_append rfl (skips_append hdigits rfl))

theorem nul_not_mem_vaultCreateText
    (name size pw : CString) :
    (0 : UInt8) ∉ vaultCreateText name size pw := by
  simp [vaultCreateText, ascii, name.nulFree, size.nulFree, pw.nulFree]

/-- Where the command stands in the request of `vault create`. -/
theorem vaultCreateText_cmd
    (name size pw : CString) :
    vaultCreateText name size pw =
      ascii "\x7b" ++ (fieldSearch (ascii "cmd") ++ (Command.containerCreate.text ++ quote ::
        (ascii ",\"name\":\"" ++ name.bytes ++ ascii "\",\"size\":" ++ size.bytes ++
          ascii ",\"password\":\"" ++ pw.bytes ++ ascii "\"\x7d"))) := by
  simp [vaultCreateText, fieldSearch_eq, Command.text, ascii, quote]

/-- Where the name stands. -/
theorem vaultCreateText_name
    (name size pw : CString) :
    vaultCreateText name size pw =
      frontOfKey (ascii "container_create") ++ (fieldSearch (ascii "name") ++
        (name.bytes ++ quote :: (ascii ",\"size\":" ++ size.bytes ++
          ascii ",\"password\":\"" ++ pw.bytes ++ ascii "\"\x7d"))) := by
  simp [vaultCreateText, frontOfKey, fieldSearch_eq, ascii, quote]

/-- Where the size stands. -/
theorem vaultCreateText_size
    (name size pw : CString) :
    vaultCreateText name size pw =
      frontOfSize name ++ (intSearch (ascii "size") ++ (size.bytes ++ 44 ::
        (ascii "\"password\":\"" ++ pw.bytes ++ ascii "\"\x7d"))) := by
  simp [vaultCreateText, frontOfSize, intSearch_eq, ascii, quote]

/-- Where the password stands. -/
theorem vaultCreateText_password
    (name size pw : CString) :
    vaultCreateText name size pw =
      frontOfCreatePassword name size ++ (fieldSearch (ascii "password") ++
        (pw.bytes ++ quote :: ascii "\x7d")) := by
  simp [vaultCreateText, frontOfCreatePassword, frontOfSize, fieldSearch_eq, ascii, quote]

/-- A size that is not cut off is read as its own text. -/
theorem extractInt_size
    {text rest : Bytes}
    (hnul : (0 : UInt8) ∉ text)
    (htext : text = frontOfSize name ++ (intSearch (ascii "size") ++ (size.bytes ++ 44 :: rest)))
    (hname : quote ∉ name.bytes)
    (hfits : text.length ≤ 4095 + rest.length) :
    extractInt (formatRequest text) (ascii "size") = atoi size.bytes := by
  have hjson := formatRequest_bytes hnul
  have hlen := congrArg List.length htext
  simp only [List.length_append, List.length_cons] at hlen
  subst htext
  obtain ⟨m, hm⟩ :
      ∃ m,
        4095 - ((frontOfSize name).length + (intSearch (ascii "size")).length) =
          size.bytes.length + (m + 1) :=
    ⟨4095 - ((frontOfSize name).length + (intSearch (ascii "size")).length) -
      size.bytes.length - 1, by omega⟩
  rw [extractInt, hjson, strstr_take_of_skips (skips_frontOfSize hname) (by omega), hm,
    List.take_length_add_append, List.take_succ_cons]
  simp only [List.drop_left]
  exact atoi_append rfl _ _

/-- The request of `vault create` makes its call exactly when neither name nor password
holds a quote and the closing quote of the password fits. -/
theorem vaultCreateText_call_iff
    (name pw : CString) (size : VaultSize) :
    handleCommand (formatRequest (vaultCreateText name size.text pw)) =
        .call (.containerCreate name (atoi size.text.bytes).toNat pw)
      ↔
    (quote ∉ name.bytes ∧ quote ∉ pw.bytes) ∧
      (vaultCreateText name size.text pw).length ≤ 4096 := by
  have hnul := nul_not_mem_vaultCreateText name size.text pw
  have hcmd := vaultCreateText_cmd name size.text pw
  have hname := vaultCreateText_name name size.text pw
  have hsize := vaultCreateText_size name size.text pw
  have hpassword := vaultCreateText_password name size.text pw
  have hlast : (ascii "\"\x7d").length = 2 := rfl
  have hextract :=
    extractField_request hnul hname (skips_frontOfKey (Or.inr rfl) (by decide))
  rw [handleCommand_request hnul hcmd, commandBranch]
  constructor
  · intro hcall
    split_ifs at hcall with hnonpos
    obtain ⟨gotName, gotPw, hgotName, hgotPw, hsame⟩ :=
      passwordCommand_eq_call_iff.mp hcall
    obtain ⟨rfl, _, rfl⟩ := EngineCall.containerCreate.inj hsame
    have hquote := (hextract.mp hgotName).1
    have hextractPw :=
      extractField_request hnul hpassword
        (skips_frontOfCreatePassword hquote size.quoteFree)
    obtain ⟨hquotePw, hfits⟩ := hextractPw.mp hgotPw
    exact ⟨⟨hquote, hquotePw⟩, hfits⟩
  · rintro ⟨⟨hquote, hquotePw⟩, hfits⟩
    have hextractPw :=
      extractField_request hnul hpassword
        (skips_frontOfCreatePassword hquote size.quoteFree)
    have hint :=
      extractInt_size hnul hsize hquote (by
        simp only [List.length_append, hlast]
        omega)
    rw [hint, if_neg (not_le.mpr size.positive), passwordCommand_eq_call_iff]
    refine ⟨name, pw, hextract.mpr ⟨hquote, ?_⟩, hextractPw.mpr ⟨hquotePw, hfits⟩, rfl⟩
    simp only [List.length_append, hlast]
    omega

end Vault

section Agreement

/-- The engine call that a command of the shell is for. -/
def intended : ShellCommand → EngineCall
  | .encrypt path pw => .encryptFile path.path pw.line
  | .decrypt path pw => .decryptFile path.path pw.line
  | .lock path => .lockFolder path.path (cstr (ascii "dummy"))
  | .unlock path pw => .unlockFolder path.path pw.line
  | .hash path => .hashFile path.path
  | .wipe path => .secureDelete path.path
  | .vaultCreate name size pw =>
      .containerCreate name (atoi size.text.bytes).toNat pw.line
  | .vaultOpen name pw => .containerOpen name pw.line
  | .vaultClose name => .containerClose name

/-- The texts that the user put into the request hold no quote. -/
def QuoteFree : ShellCommand → Prop
  | .encrypt path pw => quote ∉ path.path.bytes ∧ quote ∉ pw.line.bytes
  | .decrypt path pw => quote ∉ path.path.bytes ∧ quote ∉ pw.line.bytes
  | .lock path => quote ∉ path.path.bytes
  | .unlock path pw => quote ∉ path.path.bytes ∧ quote ∉ pw.line.bytes
  | .hash path => quote ∉ path.path.bytes
  | .wipe path => quote ∉ path.path.bytes
  | .vaultCreate name _ pw => quote ∉ name.bytes ∧ quote ∉ pw.line.bytes
  | .vaultOpen name pw => quote ∉ name.bytes ∧ quote ∉ pw.line.bytes
  | .vaultClose name => quote ∉ name.bytes

/-- The request of a vault command fits the buffer up to its last closing quote; a vault
name may be of any length. -/
def VaultFits : ShellCommand → Prop
  | .vaultCreate name size pw => (vaultCreateText name size.text pw.line).length ≤ 4096
  | .vaultOpen name pw =>
      (passwordText (ascii "container_open") (ascii "name") name pw.line).length ≤ 4096
  | .vaultClose name =>
      (fieldText (ascii "container_close") (ascii "name") name).length ≤ 4096
  | _ => True

/-- A request with a resolved path always fits the buffer. -/
theorem length_passwordText_le
    {cmd : Bytes}
    (path : ResolvedPath) (pw : PasswordLine)
    (hcmd : cmd.length ≤ 16) :
    (passwordText cmd (ascii "path") path.path pw.line).length ≤ 4096 := by
  have hpath := path.short
  have hpw := pw.short
  simp only [CString.strlen] at hpath hpw
  simp [passwordText, ascii]
  omega

theorem length_fieldText_le
    {cmd : Bytes}
    (path : ResolvedPath)
    (hcmd : cmd.length ≤ 16) :
    (fieldText cmd (ascii "path") path.path).length ≤ 4096 := by
  have hpath := path.short
  simp only [CString.strlen] at hpath
  simp [fieldText, ascii]
  omega

/-- Only vault commands can be cut off. -/
theorem length_text_le_iff
    (c : ShellCommand) :
    c.text.length ≤ 4096 ↔ VaultFits c := by
  cases c with
  | encrypt path pw => exact iff_of_true (length_passwordText_le path pw (by decide)) trivial
  | decrypt path pw => exact iff_of_true (length_passwordText_le path pw (by decide)) trivial
  | lock path => exact iff_of_true (length_fieldText_le path (by decide)) trivial
  | unlock path pw => exact iff_of_true (length_passwordText_le path pw (by decide)) trivial
  | hash path => exact iff_of_true (length_fieldText_le path (by decide)) trivial
  | wipe path => exact iff_of_true (length_fieldText_le path (by decide)) trivial
  | vaultCreate name size pw => exact Iff.rfl
  | vaultOpen name pw => exact Iff.rfl
  | vaultClose name => exact Iff.rfl

/--
**Agreement of shell and daemon.**

The daemon makes exactly the call that a command of the shell is for if and only if
path, name and password hold no quote and, for a vault command, the request fits the
buffer it is formatted in up to its last closing quote.
-/
theorem shell_daemon_agree_iff
    (c : ShellCommand) :
    handleCommand c.request = .call (intended c)
      ↔
    QuoteFree c ∧ VaultFits c := by
  rw [← length_text_le_iff]
  cases c with
  | encrypt path pw =>
      exact passwordText_call_iff .encrypt (Or.inl rfl) (fun _ => rfl)
        (fun _ _ _ _ h => EngineCall.encryptFile.inj h) path.path pw.line
  | decrypt path pw =>
      exact passwordText_call_iff .decrypt (Or.inl rfl) (fun _ => rfl)
        (fun _ _ _ _ h => EngineCall.decryptFile.inj h) path.path pw.line
  | lock path =>
      exact fieldText_call_iff .lock (Or.inl rfl) (fun _ => rfl)
        (fun _ _ h => (EngineCall.lockFolder.inj h).1) path.path
  | unlock path pw =>
      exact passwordText_call_iff .unlock (Or.inl rfl) (fun _ => rfl)
        (fun _ _ _ _ h => EngineCall.unlockFolder.inj h) path.path pw.line
  | hash path =>
      exact fieldText_call_iff .hash (Or.inl rfl) (fun _ => rfl)
        (fun _ _ h => EngineCall.hashFile.inj h) path.path
  | wipe path =>
      exact fieldText_call_iff .wipe (Or.inl rfl) (fun _ => rfl)
        (fun _ _ h => EngineCall.secureDelete.inj h) path.path
  | vaultCreate name size pw =>
      exact vaultCreateText_call_iff name pw.line size
  | vaultOpen name pw =>
      exact passwordText_call_iff .containerOpen (Or.inr rfl) (fun _ => rfl)
        (fun _ _ _ _ h => EngineCall.containerOpen.inj h) name pw.line
  | vaultClose name =>
      exact fieldText_call_iff .containerClose (Or.inr rfl) (fun _ => rfl)
        (fun _ _ h => EngineCall.containerClose.inj h) name

/-- The line `ab"cd`, typed at the prompt. -/
def quotedLine : PasswordLine where
  line := cstr (ascii "ab\"cd")
  short := by decide

/-- With the password `ab"cd`, the file is encrypted under `ab`. -/
theorem quoted_password_is_shortened :
    (promptPassword (ascii "ab\"cd\n")).map (fun r => r.1.line) = some quotedLine.line ∧
      handleCommand
          (ShellCommand.encrypt (resolvePath (cstr (ascii "/x")) (cstr [])) quotedLine).request =
        .call (.encryptFile (cstr (ascii "/x")) (cstr (ascii "ab"))) ∧
      handleCommand
          (ShellCommand.encrypt (resolvePath (cstr (ascii "/x")) (cstr [])) quotedLine).request ≠
        .call (intended
          (ShellCommand.encrypt (resolvePath (cstr (ascii "/x")) (cstr [])) quotedLine)) := by
  refine ⟨by decide, by decide +kernel, by decide +kernel⟩

end Agreement

end Daemon
end SecureZ
