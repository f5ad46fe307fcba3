import SecureZ.Daemon.Agreement
import SecureZ.Daemon.SessionControl
import SecureZ.Engine.SzencRoundTrip
import SecureZ.Lib.Answers
import SecureZ.Shell.PasswordPrompt

/-!
# Files from the command line

`encrypt`, `decrypt`, `lock`, `unlock`, `hash` and `wipe` of `crypto_cmds.c` ask what they have
to ask, make the path absolute, send a request to the daemon and print what its answer tells.
The daemon reads the request by substring search and calls the engine.

For the user a command is the call of the engine that it is for.  The first result is about
every run of commands and every engine: with texts that hold no quote, the way over the two
formats changes neither the calls nor what is printed.  The second one follows a file from the
keyboard to the disk and back.  The sockets deliver each message in one piece.
-/

namespace SecureZ
namespace Daemon

open CLib CryptoCore Session SzencFile Transition
open Shell (ShellCommand)

section Model

/-- A command with what stands behind its name. -/
inductive FileCommand
  | encrypt (args : List CString)
  | decrypt (args : List CString)
  | lock (args : List CString)
  | unlock (args : List CString)
  | hash (args : List CString)
  | wipe (args : List CString)

/-- What a command prints. -/
inductive Said
  | usage
  | cancelled
  | mismatch
  | nothing
  | noDaemon
  | done
  | failed
  | digest (hex : Bytes)
deriving DecidableEq

/-- What a command has come to when it has asked what it asks. -/
inductive Prepared
  | stop (ret : Int) (said : Said)
  | send (c : ShellCommand)

/-- A command that sends the path alone. -/
def pathOnly (send : Shell.ResolvedPath → ShellCommand) (cwd : CString) : List CString → Prepared
  | [] => .stop 1 .usage
  | file :: _ => .send (send (Shell.resolvePath file cwd))

/-- A command that asks for the password once. -/
def onePassword
    (send : Shell.ResolvedPath → Shell.PasswordLine → ShellCommand) (cwd : CString)
    (input : Bytes) : List CString → Prepared
  | [] => .stop 1 .usage
  | file :: _ =>
      match Shell.promptPassword input with
      | none => .stop 1 .nothing
      | some (pw, _) => .send (send (Shell.resolvePath file cwd) pw)

/-- `cmd_encrypt`, up to the request. -/
def prepareEncrypt (cwd : CString) (input : Bytes) : List CString → Prepared
  | [] => .stop 1 .usage
  | file :: _ =>
      match Shell.promptPassword input with
      | none => .stop 1 .cancelled
      | some (pw, left) =>
          if pw.line.strlen = 0 then .stop 1 .cancelled
          else
            match Shell.promptPassword left with
            | none => .stop 1 .mismatch
            -- `pw` points to the buffer too, which now holds the second line
            | some (confirm, _) => .send (.encrypt (Shell.resolvePath file cwd) confirm)

/-- `cmd_wipe`, up to the request. -/
def prepareWipe (cwd : CString) (input : Bytes) : List CString → Prepared
  | [] => .stop 1 .usage
  | file :: _ =>
      match fgets 16 input with
      | none => .stop 0 .cancelled
      | some (confirm, _) =>
          if (ascii "yes").isPrefixOf confirm then .send (.wipe (Shell.resolvePath file cwd))
          else .stop 0 .cancelled

/-- A command up to the request, with the working directory and what is left on the standard
input. -/
def FileCommand.prepare (cwd : CString) (input : Bytes) : FileCommand → Prepared
  | .encrypt args => prepareEncrypt cwd input args
  | .decrypt args => onePassword .decrypt cwd input args
  | .lock args => pathOnly .lock cwd args
  | .unlock args => onePassword .unlock cwd input args
  | .hash args => pathOnly .hash cwd args
  | .wipe args => prepareWipe cwd input args

/-- What `cmd_hash` prints for an answer. -/
def hashSaid (resp : Bytes) : Said :=
  match strstr (ascii "\"hash\":\"") resp with
  | none => .failed
  | some found =>
      match strchr (found.drop 8) quote with
      | none => .nothing
      | some stop => .digest ((found.drop 8).take ((found.drop 8).length - stop.length))

/-- What a command returns and prints for the answer of the daemon, if there is one. -/
def FileCommand.report (resp : Option Bytes) (cmd : FileCommand) : Int × Said :=
  match resp with
  | none => (1, .noDaemon)
  | some resp =>
      match cmd with
      | .hash _ => (0, hashSaid resp)
      | _ => (0, if reportsOk resp then .done else .failed)

/-- A command that is typed, and what it meets: the working directory, the input at its
prompts, whether the daemon can be reached, and what the system does for the engine. -/
structure FileEvent (ι : Type) where
  command : FileCommand
  cwd : CString
  input : Bytes
  up : Bool
  sys : ι

/-- An engine: what a call returns, the digits that it writes, and the state behind it. -/
abbrev FileEngine (ι σ : Type) := ι → EngineCall → σ → (Int × CString) × σ

/-- What the engine tells the daemon. -/
def engineOf (r : Int × CString) : Engine :=
  EngineReply.engine sessionInit { noReply with ret := r.1, hex := r.2 }

variable {ι σ : Type}

/-- The daemon serves a request. -/
def serveFile (perform : FileEngine ι σ) (sys : ι) (json : CString) (s : σ) : Bytes × σ :=
  match handleCommand json with
  | .refuse response => (response, s)
  | .call c => (callResponse (engineOf (perform sys c s).1) c, (perform sys c s).2)

/-- A command of the shell: what it returns and prints, and the state of the engine. -/
def typedCommand (perform : FileEngine ι σ) (e : FileEvent ι) (s : σ) : (Int × Said) × σ :=
  match e.command.prepare e.cwd e.input with
  | .stop ret said => ((ret, said), s)
  | .send c =>
      if e.up then
        (e.command.report (some (Shell.sendCmdRead (serveFile perform e.sys c.request s).1)),
          (serveFile perform e.sys c.request s).2)
      else (e.command.report none, s)

end Model

section Purpose

variable {ι σ : Type}

/-- What the user is to be told when a call has returned. -/
def FileCommand.told (cmd : FileCommand) (r : Int × CString) : Int × Said :=
  match cmd with
  | .hash _ => (0, if r.1 = 0 then .digest r.2.bytes else .failed)
  | _ => (0, if r.1 = 0 then .done else .failed)

/-- What a command is for: the call, made directly. -/
def meantCommand (perform : FileEngine ι σ) (e : FileEvent ι) (s : σ) : (Int × Said) × σ :=
  match e.command.prepare e.cwd e.input with
  | .stop ret said => ((ret, said), s)
  | .send c =>
      if e.up then
        (e.command.told (perform e.sys (intended c) s).1, (perform e.sys (intended c) s).2)
      else ((1, .noDaemon), s)

/-- The texts that a command sends hold no quote. -/
def FileEvent.Plain (e : FileEvent ι) : Prop :=
  ∀ c, e.command.prepare e.cwd e.input = .send c → QuoteFree c

/-- The digits of a hash hold no quote and are not many. -/
def WritesDigits (perform : FileEngine ι σ) : Prop :=
  ∀ sys path s, quote ∉ (perform sys (.hashFile path) s).1.2.bytes ∧
    (perform sys (.hashFile path) s).1.2.strlen ≤ 128

end Purpose

section Requests

/-- The command of a request. -/
def FileCommand.sends : FileCommand → ShellCommand → Prop
  | .encrypt _, .encrypt _ _ => True
  | .decrypt _, .decrypt _ _ => True
  | .lock _, .lock _ => True
  | .unlock _, .unlock _ _ => True
  | .hash _, .hash _ => True
  | .wipe _, .wipe _ => True
  | _, _ => False

theorem sends_of_prepare
    {cmd : FileCommand} {cwd : CString} {input : Bytes} {c : ShellCommand}
    (h : cmd.prepare cwd input = .send c) :
    cmd.sends c := by
  cases cmd with
  | encrypt args =>
      cases args with
      | nil => cases h
      | cons file args =>
          simp only [FileCommand.prepare, prepareEncrypt] at h
          split at h
          · cases h
          · split_ifs at h
            split at h
            · cases h
            · obtain rfl := Prepared.send.inj h
              trivial
  | decrypt args =>
      cases args with
      | nil => cases h
      | cons file args =>
          simp only [FileCommand.prepare, onePassword] at h
          split at h
          · cases h
          · obtain rfl := Prepared.send.inj h
            trivial
  | lock args =>
      cases args with
      | nil => cases h
      | cons file args =>
          obtain rfl := Prepared.send.inj h
          trivial
  | unlock args =>
      cases args with
      | nil => cases h
      | cons file args =>
          simp only [FileCommand.prepare, onePassword] at h
          split at h
          · cases h
          · obtain rfl := Prepared.send.inj h
            trivial
  | hash args =>
      cases args with
      | nil => cases h
      | cons file args =>
          obtain rfl := Prepared.send.inj h
          trivial
  | wipe args =>
      cases args with
      | nil => cases h
      | cons file args =>
          simp only [FileCommand.prepare, prepareWipe] at h
          split at h
          · cases h
          · split_ifs at h
            obtain rfl := Prepared.send.inj h
            trivial

/-- With texts that hold no quote, the daemon makes the call that the command is for. -/
theorem handleCommand_sent
    {cmd : FileCommand} {c : ShellCommand}
    (hsends : cmd.sends c)
    (hquote : QuoteFree c) :
    handleCommand c.request = .call (intended c) := by
  cases c with
  | encrypt path pw =>
      exact (passwordText_call_iff .encrypt (Or.inl rfl) (fun _ => rfl)
        (fun _ _ _ _ h => EngineCall.encryptFile.inj h) path.path pw.line).mpr
          ⟨hquote, length_passwordText_le path pw (by decide)⟩
  | decrypt path pw =>
      exact (passwordText_call_iff .decrypt (Or.inl rfl) (fun _ => rfl)
        (fun _ _ _ _ h => EngineCall.decryptFile.inj h) path.path pw.line).mpr
          ⟨hquote, length_passwordText_le path pw (by decide)⟩
  | lock path =>
      exact (fieldText_call_iff .lock (Or.inl rfl) (fun _ => rfl)
        (fun _ _ h => (EngineCall.lockFolder.inj h).1) path.path).mpr
          ⟨hquote, length_fieldText_le path (by decide)⟩
  | unlock path pw =>
      exact (passwordText_call_iff .unlock (Or.inl rfl) (fun _ => rfl)
        (fun _ _ _ _ h => EngineCall.unlockFolder.inj h) path.path pw.line).mpr
          ⟨hquote, length_passwordText_le path pw (by decide)⟩
  | hash path =>
      exact (fieldText_call_iff .hash (Or.inl rfl) (fun _ => rfl)
        (fun _ _ h => EngineCall.hashFile.inj h) path.path).mpr
          ⟨hquote, length_fieldText_le path (by decide)⟩
  | wipe path =>
      exact (fieldText_call_iff .wipe (Or.inl rfl) (fun _ => rfl)
        (fun _ _ h => EngineCall.secureDelete.inj h) path.path).mpr
          ⟨hquote, length_fieldText_le path (by decide)⟩
  | vaultCreate name size pw => cases cmd <;> exact hsends.elim
  | vaultOpen name pw => cases cmd <;> exact hsends.elim
  | vaultClose name => cases cmd <;> exact hsends.elim

end Requests

section Answers

/-- The digits between the quotes are those that the engine wrote. -/
theorem hashSaid_digits
    {hex : CString}
    (hquote : quote ∉ hex.bytes)
    (hshort : hex.strlen ≤ 128) :
    hashSaid (snprintf respBufSize
      (ascii "\x7b\"status\":\"ok\",\"hash\":\"" ++ hex.bytes ++ ascii "\"\x7d")) =
        .digest hex.bytes := by
  have hfits : (ascii "\x7b\"status\":\"ok\",\"hash\":\"" ++ hex.bytes ++
      ascii "\"\x7d").length < respBufSize := by
    rw [CString.strlen] at hshort
    simp only [List.length_append]
    have hfront : (ascii "\x7b\"status\":\"ok\",\"hash\":\"").length = 23 := rfl
    have hback : (ascii "\"\x7d").length = 2 := rfl
    rw [respBufSize]
    omega
  have hsplit : ascii "\x7b\"status\":\"ok\",\"hash\":\"" ++ hex.bytes ++ ascii "\"\x7d" =
      ascii "\x7b\"status\":\"ok\"," ++
        (ascii "\"hash\":\"" ++ (hex.bytes ++ quote :: ascii "\x7d")) := by
    simp [ascii, quote]
  have hskip : skips (ascii "\"hash\":\"") (ascii "\x7b\"status\":\"ok\",") = true := by
    decide
  have hlen : (ascii "\"hash\":\"").length = 8 := rfl
  rw [snprintf_of_fits hfits, hsplit, hashSaid, strstr_append_needle hskip]
  simp only
  rw [← hlen, List.drop_left]
  cases hstop : strchr (hex.bytes ++ quote :: ascii "\x7d") quote with
  | none => exact absurd (by simp) (strchr_eq_none_iff.mp hstop)
  | some stop =>
      simp only
      rw [take_strchr hstop, before_append_of_not_mem hquote]

/-- The answer to a hash. -/
theorem callResponse_hash
    (r : Int × CString) (path : CString) :
    callResponse (engineOf r) (.hashFile path) =
      if r.1 = 0 then
        snprintf respBufSize
          (ascii "\x7b\"status\":\"ok\",\"hash\":\"" ++ r.2.bytes ++ ascii "\"\x7d")
      else errorResponse (ascii "hash failed") := by
  have hreads : (engineOf r).hashFile path = if r.1 = 0 then some r.2.bytes else none := rfl
  rw [callResponse, hreads]
  by_cases hret : r.1 = 0
  · rw [if_pos hret, if_pos hret]
  · rw [if_neg hret, if_neg hret]

variable {ι σ : Type} {perform : FileEngine ι σ} {cmd : FileCommand} {c : ShellCommand}

/-- An answer that tells what a call returned. -/
theorem reportsOk_returned
    (ret : Int) :
    (if reportsOk (Shell.sendCmdRead (returnResponse ret)) = true then Said.done else .failed) =
      if ret = 0 then .done else .failed := by
  have hread : Shell.sendCmdRead (returnResponse ret) = returnResponse ret := by
    unfold returnResponse
    split_ifs <;> exact sendCmdRead_snprintf _
  rw [hread]
  simp only [reportsOk_returnResponse]

/-- What is printed for the answer is what the user is to be told. -/
theorem report_eq_told
    (hdigits : WritesDigits perform)
    (hsends : cmd.sends c)
    (sys : ι) (s : σ) :
    cmd.report (some (Shell.sendCmdRead
        (callResponse (engineOf (perform sys (intended c) s).1) (intended c)))) =
      cmd.told (perform sys (intended c) s).1 := by
  cases c with
  | encrypt path pw =>
      cases cmd with
      | encrypt args => exact congrArg (Prod.mk 0) (reportsOk_returned _)
      | _ => exact hsends.elim
  | decrypt path pw =>
      cases cmd with
      | decrypt args => exact congrArg (Prod.mk 0) (reportsOk_returned _)
      | _ => exact hsends.elim
  | lock path =>
      cases cmd with
      | lock args => exact congrArg (Prod.mk 0) (reportsOk_returned _)
      | _ => exact hsends.elim
  | unlock path pw =>
      cases cmd with
      | unlock args => exact congrArg (Prod.mk 0) (reportsOk_returned _)
      | _ => exact hsends.elim
  | hash path =>
      cases cmd with
      | hash args =>
          obtain ⟨hquote, hshort⟩ := hdigits sys path.path s
          refine congrArg (Prod.mk 0) ?_
          rw [intended, callResponse_hash]
          by_cases hret : (perform sys (.hashFile path.path) s).1.1 = 0
          · rw [if_pos hret, if_pos hret, sendCmdRead_snprintf]
            exact hashSaid_digits hquote hshort
          · rw [if_neg hret, if_neg hret]
            decide
      | _ => exact hsends.elim
  | wipe path =>
      cases cmd with
      | wipe args => exact congrArg (Prod.mk 0) (reportsOk_returned _)
      | _ => exact hsends.elim
  | vaultCreate name size pw => cases cmd <;> exact hsends.elim
  | vaultOpen name pw => cases cmd <;> exact hsends.elim
  | vaultClose name => cases cmd <;> exact hsends.elim

end Answers

section Runs

variable {ι σ : Type} {perform : FileEngine ι σ}

/-- A command that is typed is the call that it is for. -/
theorem typedCommand_eq
    (hdigits : WritesDigits perform)
    {e : FileEvent ι}
    (hplain : e.Plain)
    (s : σ) :
    typedCommand perform e s = meantCommand perform e s := by
  unfold typedCommand meantCommand
  cases hprepare : e.command.prepare e.cwd e.input with
  | stop ret said => rfl
  | send c =>
      have hsends := sends_of_prepare hprepare
      have hcall := handleCommand_sent hsends (hplain c hprepare)
      have hserve : serveFile perform e.sys c.request s =
          (callResponse (engineOf (perform e.sys (intended c) s).1) (intended c),
            (perform e.sys (intended c) s).2) := by
        simp only [serveFile, hcall]
      simp only [hserve, report_eq_told hdigits hsends]
      rfl

/-- The typed commands and the calls that they are for. -/
theorem typed_matches
    (hdigits : WritesDigits perform) :
    Matches (typedCommand perform) (meantCommand perform) Eq FileEvent.Plain where
  answer := by
    rintro e s t hplain rfl
    rw [typedCommand_eq hdigits hplain]
  after := by
    rintro e s t hplain rfl
    rw [typedCommand_eq hdigits hplain]

/--
**The typed commands are the calls that they are for.**

For every engine and every run of file commands whose texts hold no quote, whatever is typed at
the prompts, whether or not the daemon can be reached each time: every command returns and
prints what the direct call would have it return and print, and the engine is left as it would
be by the direct calls.
-/
theorem typed_commands_transparent
    (hdigits : WritesDigits perform)
    {events : List (FileEvent ι)}
    (hplain : ∀ e ∈ events, e.Plain)
    (s : σ) :
    answers (typedCommand perform) s events = answers (meantCommand perform) s events ∧
      stateAfter (typedCommand perform) s events = stateAfter (meantCommand perform) s events :=
  ⟨answers_eq_of_matches (typed_matches hdigits) hplain rfl,
    stateAfter_of_matches (typed_matches hdigits) hplain rfl⟩

end Runs

section Prompts

/-- A line that fits is read whole. -/
theorem promptPassword_line
    {pw : CString}
    (hnl : (10 : UInt8) ∉ pw.bytes)
    (hlen : pw.strlen ≤ 254)
    (rest : Bytes) :
    ∃ line, Shell.promptPassword (pw.bytes ++ 10 :: rest) = some (line, rest) ∧ line.line = pw := by
  have hread : fgetsText 256 (pw.bytes ++ 10 :: rest) = some (pw, rest) :=
    fgetsText_line hnl (by omega) rest
  obtain ⟨s', hprompt, hleft, htext⟩ :=
    Shell.promptPassword_spec (s := ⟨pw.bytes ++ 10 :: rest, []⟩) hread
  have hrefines := Shell.promptPassword_refines ⟨pw.bytes ++ 10 :: rest, []⟩
  rw [hprompt] at hrefines
  simp only [Option.map_some, hleft, htext] at hrefines
  obtain ⟨⟨line, left⟩, hgot, hpair⟩ := Option.map_eq_some_iff.mp hrefines
  obtain ⟨hline, hrest⟩ := Prod.mk.inj hpair
  exact ⟨line, by rw [hgot, ← hrest], hline⟩

/-- What is sent for `encrypt` is what the handler with its one buffer sends. -/
theorem prepareEncrypt_sent
    (name file cwd : CString) (more : List CString) (reply : Bool) (s : Shell.Terminal) :
    (Shell.cmdEncrypt (name :: file :: more) cwd reply s).sent =
      match prepareEncrypt cwd s.input (file :: more) with
      | .send (.encrypt path pw) => some (.encrypt path pw.line)
      | _ => none := by
  have hfirst := Shell.promptPassword_refines s
  cases hp : s.promptPassword with
  | mk p s₁ =>
      rw [hp] at hfirst
      cases p with
      | none =>
          rw [Option.map_none, Option.map_eq_none_iff] at hfirst
          simp only [Shell.cmdEncrypt, hp, prepareEncrypt, hfirst]
      | some p =>
          obtain ⟨⟨pw, left⟩, hgot, hpair⟩ := Option.map_eq_some_iff.mp hfirst
          obtain ⟨hline, hleft⟩ := Prod.mk.inj hpair
          simp only at hline hleft
          simp only [Shell.cmdEncrypt, hp, prepareEncrypt, hgot, hline]
          by_cases hempty : (s₁.text p).strlen = 0
          · rw [if_pos hempty, if_pos hempty]
          · rw [if_neg hempty, if_neg hempty]
            have hsecond := Shell.promptPassword_refines s₁
            rw [← hleft] at hsecond
            cases hp₂ : s₁.promptPassword with
            | mk q s₂ =>
                rw [hp₂] at hsecond
                cases q with
                | none =>
                    rw [Option.map_none, Option.map_eq_none_iff] at hsecond
                    simp only [hsecond]
                | some q =>
                    obtain ⟨⟨confirm, left₂⟩, hgot₂, hpair₂⟩ := Option.map_eq_some_iff.mp hsecond
                    have hconfirm := (Prod.mk.inj hpair₂).1
                    simp only at hconfirm
                    cases p
                    cases q
                    simp [hgot₂, hconfirm]

end Prompts

section Restoring

/-- `sodium_bin2hex`. -/
def sodiumBin2hex (bin : Bytes) : CString :=
  cstr (bin.flatMap fun b =>
    [(ascii "0123456789abcdef").getD (b.toNat / 16) 0,
      (ascii "0123456789abcdef").getD (b.toNat % 16) 0])

/-- An engine whose calls on files are those of `cryptic_engine.c`, where no system call fails. -/
structure WorksOnFiles (na : Sodium) (perform : FileEngine (Salt × Nonce) FileSystem) : Prop where
  encrypt : ∀ sys path pw fs,
    (perform sys (.encryptFile path pw) fs).1.1 =
        (crypticEncryptFile na .ok .ok sys.1 sys.2 path pw fs).1 ∧
      (perform sys (.encryptFile path pw) fs).2 =
        (crypticEncryptFile na .ok .ok sys.1 sys.2 path pw fs).2
  decrypt : ∀ sys path pw fs,
    (perform sys (.decryptFile path pw) fs).1.1 =
        (crypticDecryptFile na .ok .ok path pw fs).1 ∧
      (perform sys (.decryptFile path pw) fs).2 = (crypticDecryptFile na .ok .ok path pw fs).2
  hash : ∀ sys path fs content, fs.readFile path = some content →
    perform sys (.hashFile path) fs = ((0, sodiumBin2hex (na.generichash content).bytes), fs)
  digits : WritesDigits perform

theorem append_bytes
    (a b : CString) :
    (a.append b).bytes = a.bytes ++ b.bytes :=
  rfl

/-- The text of a resolved path, before it is cut to the buffer. -/
def pathText (name cwd : CString) : Bytes :=
  if name.bytes.head? = some 47 then name.bytes else cwd.bytes ++ ascii "/" ++ name.bytes

theorem resolvePath_bytes
    (name cwd : CString) :
    (Shell.resolvePath name cwd).path.bytes = (pathText name cwd).take 1023 := by
  unfold Shell.resolvePath pathText
  split_ifs with habsolute
  · rfl
  · have hfree : (0 : UInt8) ∉ snprintf 1024 (cwd.bytes ++ ascii "/" ++ name.bytes) := by
      intro h
      have hmem := List.mem_of_mem_take h
      simp only [List.mem_append, cwd.nulFree, name.nulFree, or_false, false_or] at hmem
      exact absurd hmem (by decide)
    exact cstr_bytes_of_nulFree hfree

/-- An encrypted file has the name that `encrypt` gives to it. -/
theorem resolvePath_szenc
    {name cwd : CString}
    (hfits : (Shell.resolvePath name cwd).path.strlen + 6 ≤ 1023) :
    (Shell.resolvePath (name.append szencExtension) cwd).path =
      (Shell.resolvePath name cwd).path.append szencExtension := by
  have htext : pathText (name.append szencExtension) cwd =
      pathText name cwd ++ szencExtension.bytes := by
    have hdot : szencExtension.bytes.head? ≠ some 47 := by decide
    rw [pathText, pathText, append_bytes]
    cases name.bytes with
    | nil => simp [hdot]
    | cons b bs =>
        simp only [List.cons_append, List.head?_cons, Option.some.injEq]
        split_ifs <;> simp
  have hext : szencExtension.bytes.length = 6 := rfl
  rw [CString.strlen, resolvePath_bytes, List.length_take] at hfits
  ext1
  rw [resolvePath_bytes, htext, append_bytes, resolvePath_bytes,
    List.take_of_length_le (by rw [List.length_append, hext]; omega),
    List.take_of_length_le (by omega)]

variable {na : Sodium} {perform : FileEngine (Salt × Nonce) FileSystem}

/-- An encryption that is typed, with the line that was read. -/
theorem meant_encrypt
    (hengine : WorksOnFiles na perform)
    (name cwd : CString) {pw : CString}
    (hnl : (10 : UInt8) ∉ pw.bytes)
    (hlen : pw.strlen ≤ 254)
    (hne : pw.strlen ≠ 0)
    (rest : Bytes) (sys : Salt × Nonce) (fs : FileSystem) :
    meantCommand perform
        ⟨.encrypt [name], cwd, pw.bytes ++ 10 :: (pw.bytes ++ 10 :: rest), true, sys⟩ fs =
      ((0,
          if (crypticEncryptFile na .ok .ok sys.1 sys.2 (Shell.resolvePath name cwd).path pw fs).1 =
              0 then
            .done
          else .failed),
        (crypticEncryptFile na .ok .ok sys.1 sys.2 (Shell.resolvePath name cwd).path pw fs).2) := by
  obtain ⟨first, hfirst, hline⟩ := promptPassword_line hnl hlen (pw.bytes ++ 10 :: rest)
  obtain ⟨second, hsecond, hline₂⟩ := promptPassword_line hnl hlen rest
  obtain ⟨hret, hfs⟩ := hengine.encrypt sys (Shell.resolvePath name cwd).path pw fs
  have hprepare : FileCommand.prepare cwd (pw.bytes ++ 10 :: (pw.bytes ++ 10 :: rest))
      (.encrypt [name]) = .send (.encrypt (Shell.resolvePath name cwd) second) := by
    rw [← hline] at hne
    simp only [FileCommand.prepare, prepareEncrypt, hfirst, if_neg hne, hsecond]
  simp only [meantCommand, hprepare, if_true, intended, FileCommand.told, hline₂, hret, hfs]

theorem meant_decrypt
    (hengine : WorksOnFiles na perform)
    (name cwd : CString) {pw : CString}
    (hnl : (10 : UInt8) ∉ pw.bytes)
    (hlen : pw.strlen ≤ 254)
    (rest : Bytes) (sys : Salt × Nonce) (fs : FileSystem) :
    meantCommand perform ⟨.decrypt [name], cwd, pw.bytes ++ 10 :: rest, true, sys⟩ fs =
      ((0, if (crypticDecryptFile na .ok .ok (Shell.resolvePath name cwd).path pw fs).1 = 0 then
          .done else .failed),
        (crypticDecryptFile na .ok .ok (Shell.resolvePath name cwd).path pw fs).2) := by
  obtain ⟨line, hread, hline⟩ := promptPassword_line hnl hlen rest
  obtain ⟨hret, hfs⟩ := hengine.decrypt sys (Shell.resolvePath name cwd).path pw fs
  have hprepare : FileCommand.prepare cwd (pw.bytes ++ 10 :: rest) (.decrypt [name]) =
      .send (.decrypt (Shell.resolvePath name cwd) line) := by
    simp only [FileCommand.prepare, onePassword, hread]
  simp only [meantCommand, hprepare, if_true, intended, FileCommand.told, hline, hret, hfs]

/-- A hash that is typed. -/
theorem meant_hash
    (hengine : WorksOnFiles na perform)
    (name cwd : CString) (sys : Salt × Nonce)
    {fs : FileSystem} {content : Bytes}
    (hread : fs.readFile (Shell.resolvePath name cwd).path = some content) :
    (meantCommand perform ⟨.hash [name], cwd, [], true, sys⟩ fs).1 =
      (0, .digest (sodiumBin2hex (na.generichash content).bytes).bytes) := by
  have hcall := hengine.hash sys _ fs content hread
  simp only [meantCommand, FileCommand.prepare, pathOnly, if_true, intended, hcall,
    FileCommand.told]

/-- The commands on this file hold no quote. -/
theorem plain_commands
    (name cwd pw : CString)
    (hpath : quote ∉ (Shell.resolvePath name cwd).path.bytes)
    (hpw : quote ∉ pw.bytes)
    (hnl : (10 : UInt8) ∉ pw.bytes)
    (hlen : pw.strlen ≤ 254)
    (hfits : (Shell.resolvePath name cwd).path.strlen + 6 ≤ 1023)
    (rest : Bytes) (sys : Salt × Nonce) :
    FileEvent.Plain
        ⟨.encrypt [name], cwd, pw.bytes ++ 10 :: (pw.bytes ++ 10 :: rest), true, sys⟩ ∧
      FileEvent.Plain
        ⟨.decrypt [name.append szencExtension], cwd, pw.bytes ++ 10 :: rest, true, sys⟩ ∧
      FileEvent.Plain ⟨.hash [name], cwd, [], true, sys⟩ := by
  obtain ⟨first, hfirst, hline⟩ := promptPassword_line hnl hlen (pw.bytes ++ 10 :: rest)
  obtain ⟨second, hsecond, hline₂⟩ := promptPassword_line hnl hlen rest
  refine ⟨fun c hc => ?_, fun c hc => ?_, fun c hc => ?_⟩
  · simp only [FileCommand.prepare, prepareEncrypt, hfirst] at hc
    split_ifs at hc
    simp only [hsecond] at hc
    obtain rfl := Prepared.send.inj hc
    exact ⟨hpath, hline₂ ▸ hpw⟩
  · simp only [FileCommand.prepare, onePassword, hsecond] at hc
    obtain rfl := Prepared.send.inj hc
    refine ⟨?_, hline₂ ▸ hpw⟩
    have hdot : quote ∉ szencExtension.bytes := by decide
    rw [resolvePath_szenc hfits, append_bytes, List.mem_append, not_or]
    exact ⟨hpath, hdot⟩
  · obtain rfl := Prepared.send.inj hc
    exact hpath

/--
**From the keyboard to the disk and back.**

The daemon is reached and no call of it fails, the unchecked `fclose` included; the path leaves
room for the six bytes of the extension, the password line has at most 254 bytes, and neither
holds a quote.  Where `encrypt` of a file says that it is done, it has changed the encrypted
file alone; and from every later state of the files in which that one is left alone, `decrypt`
of it with the same line typed says that it is done, puts the first content back and changes
nothing else, and `hash` then prints the digits of the hash of that content.
-/
theorem typed_file_restored
    (hna : AeadIdeal na)
    (hengine : WorksOnFiles na perform)
    (name cwd pw : CString)
    (hpath : quote ∉ (Shell.resolvePath name cwd).path.bytes)
    (hfits : (Shell.resolvePath name cwd).path.strlen + 6 ≤ 1023)
    (hpw : quote ∉ pw.bytes)
    (hnl : (10 : UInt8) ∉ pw.bytes)
    (hlen : pw.strlen ≤ 254)
    {rest : Bytes} {sys : Salt × Nonce} {fs fs₁ : FileSystem} {content : Bytes}
    (hfile : fs (Shell.resolvePath name cwd).path = some content)
    (hdone : typedCommand perform
      ⟨.encrypt [name], cwd, pw.bytes ++ 10 :: (pw.bytes ++ 10 :: rest), true, sys⟩ fs =
        ((0, .done), fs₁)) :
    (∀ other, other ≠ (Shell.resolvePath name cwd).path.append szencExtension →
        fs₁ other = fs other) ∧
      ∀ (fs₂ : FileSystem) (rest' : Bytes) (sys' : Salt × Nonce),
        fs₂ ((Shell.resolvePath name cwd).path.append szencExtension) =
            fs₁ ((Shell.resolvePath name cwd).path.append szencExtension) →
          typedCommand perform
              ⟨.decrypt [name.append szencExtension], cwd, pw.bytes ++ 10 :: rest', true, sys'⟩
                fs₂ =
            ((0, .done), fs₂.writeFile (Shell.resolvePath name cwd).path content) ∧
          (typedCommand perform ⟨.hash [name], cwd, [], true, sys'⟩
              (fs₂.writeFile (Shell.resolvePath name cwd).path content)).1 =
            (0, .digest (sodiumBin2hex (na.generichash content).bytes).bytes) := by
  have hplain := fun rest sys => plain_commands name cwd pw hpath hpw hnl hlen hfits rest sys
  have hne : pw.strlen ≠ 0 := by
    intro hzero
    obtain ⟨first, hfirst, hline⟩ := promptPassword_line hnl hlen (pw.bytes ++ 10 :: rest)
    rw [← hline] at hzero
    simp only [typedCommand, FileCommand.prepare, prepareEncrypt, hfirst, if_pos hzero] at hdone
    cases hdone
  rw [typedCommand_eq hengine.digits (hplain rest sys).1,
    meant_encrypt hengine name cwd hnl hlen hne] at hdone
  obtain ⟨hsaid, hfs⟩ := Prod.mk.inj hdone
  have hzero : (crypticEncryptFile na .ok .ok sys.1 sys.2 (Shell.resolvePath name cwd).path pw
      fs).1 = 0 := by
    by_contra hfailed
    rw [if_neg hfailed] at hsaid
    cases hsaid
  obtain ⟨content', image, hread, hsealed, hwritten⟩ :=
    crypticEncryptFile_ok (Prod.ext hzero hfs)
  obtain ⟨hpathNe, hsame⟩ := FileSystem.readFile_eq_some_iff.mp hread
  obtain rfl : content' = content := Option.some.inj (hsame.symm.trans hfile)
  subst hwritten
  refine ⟨fun other hother => FileSystem.writeFile_of_ne _ _ hother,
    fun fs₂ rest' sys' hkept => ?_⟩
  have hextNe : ((Shell.resolvePath name cwd).path.append szencExtension).bytes ≠ [] := by
    simp [append_bytes, hpathNe]
  have himage : fs₂.readFile ((Shell.resolvePath name cwd).path.append szencExtension) =
      some image :=
    FileSystem.readFile_eq_some_iff.mpr ⟨hextNe, by rw [hkept]; simp⟩
  have hdecrypt := crypticDecryptFile_of_sealed hna himage hsealed
  rw [decryptOutPath_append hpathNe] at hdecrypt
  constructor
  · rw [typedCommand_eq hengine.digits (hplain rest' sys').2.1, meant_decrypt hengine _ _ hnl hlen,
      resolvePath_szenc hfits, hdecrypt]
    rfl
  · rw [typedCommand_eq hengine.digits (hplain rest' sys').2.2]
    refine meant_hash hengine name cwd sys' ?_
    exact FileSystem.readFile_eq_some_iff.mpr ⟨hpathNe, by simp⟩

end Restoring

section Examples

/-- The digits are few and hold no quote. -/
theorem sodiumBin2hex_spec
    (bin : Bytes) :
    quote ∉ (sodiumBin2hex bin).bytes ∧ (sodiumBin2hex bin).strlen ≤ 2 * bin.length := by
  have hlength : ∀ bs : Bytes, (bs.flatMap fun b =>
      [(ascii "0123456789abcdef").getD (b.toNat / 16) 0,
        (ascii "0123456789abcdef").getD (b.toNat % 16) 0]).length = 2 * bs.length := by
    intro bs
    induction bs with
    | nil => rfl
    | cons b bs ih =>
        simp only [List.flatMap_cons, List.length_append, ih, List.length_cons, List.length_nil]
        omega
  constructor
  · intro hmem
    obtain ⟨b, -, hb⟩ := List.mem_flatMap.mp ((List.takeWhile_prefix _).subset hmem)
    have hdigit : ∀ n, quote ≠ (ascii "0123456789abcdef").getD n 0 := by
      intro n hn
      have hall : ∀ d ∈ ascii "0123456789abcdef", quote ≠ d := by decide +kernel
      rw [List.getD_eq_getElem?_getD] at hn
      cases hat : (ascii "0123456789abcdef")[n]? with
      | none =>
          rw [hat] at hn
          exact absurd hn (by decide)
      | some d =>
          rw [hat] at hn
          exact hall d (List.mem_of_getElem? hat) hn
    simp only [List.mem_cons, List.not_mem_nil, or_false] at hb
    rcases hb with hb | hb
    · exact hdigit _ hb
    · exact hdigit _ hb
  · rw [← hlength bin]
    exact cstr_length_le _

/-- The calls on files of `cryptic_engine.c`; a call for which nothing is set up fails. -/
def fileEngine (na : Sodium) : FileEngine (Salt × Nonce) FileSystem
  | sys, .encryptFile path pw, fs =>
      (((crypticEncryptFile na .ok .ok sys.1 sys.2 path pw fs).1, cstr []),
        (crypticEncryptFile na .ok .ok sys.1 sys.2 path pw fs).2)
  | _, .decryptFile path pw, fs =>
      (((crypticDecryptFile na .ok .ok path pw fs).1, cstr []),
        (crypticDecryptFile na .ok .ok path pw fs).2)
  | _, .hashFile path, fs =>
      match fs.readFile path with
      | none => ((-1, cstr []), fs)
      | some content => ((0, sodiumBin2hex (na.generichash content).bytes), fs)
  | _, _, fs => ((-1, cstr []), fs)

theorem worksOnFiles_fileEngine
    (na : Sodium) :
    WorksOnFiles na (fileEngine na) where
  encrypt := fun _ _ _ _ => ⟨rfl, rfl⟩
  decrypt := fun _ _ _ _ => ⟨rfl, rfl⟩
  hash := by
    intro sys path fs content hread
    simp only [fileEngine, hread]
  digits := by
    intro sys path fs
    cases hread : fs.readFile path with
    | none =>
        simp only [fileEngine, hread]
        decide
    | some content =>
        obtain ⟨hquote, hlength⟩ := sodiumBin2hex_spec (na.generichash content).bytes
        simp only [fileEngine, hread]
        refine ⟨hquote, hlength.trans ?_⟩
        rw [(na.generichash content).size]
        decide

/-- `/a` with two bytes in it. -/
def sampleFiles : FileSystem :=
  FileSystem.writeFile (fun _ => none) (cstr (ascii "/a")) [1, 2]

/-- `encrypt /a` with the password `k`, and `hash /a`. -/
def sampleFileCommands : List (FileEvent (Salt × Nonce)) :=
  [⟨.encrypt [cstr (ascii "/a")], cstr [], ascii "k\nk\n", true, (Block.zero 16, Block.zero 24)⟩,
    ⟨.hash [cstr (ascii "/a")], cstr [], [], true, (Block.zero 16, Block.zero 24)⟩]

theorem sampleFileCommands_plain :
    ∀ e ∈ sampleFileCommands, e.Plain := by
  have hplain := plain_commands (cstr (ascii "/a")) (cstr []) (cstr (ascii "k")) (by decide)
    (by decide) (by decide) (by decide) (by decide) [] (Block.zero 16, Block.zero 24)
  intro e he
  rcases List.mem_cons.mp he with rfl | he
  · exact hplain.1
  · obtain rfl := List.mem_singleton.mp he
    exact hplain.2.2

/-- `/a` is encrypted, and `hash /a` prints 64 digits. -/
theorem sample_commands_transparent :
    answers (typedCommand (fileEngine mirror)) sampleFiles sampleFileCommands =
      [(0, .done), (0, .digest (ascii
        "0102000000000000000000000000000000000000000000000000000000000000"))] := by
  rw [(typed_commands_transparent (worksOnFiles_fileEngine mirror).digits sampleFileCommands_plain
    sampleFiles).1]
  decide +kernel

/-- `/a` is restored, although it was lost. -/
theorem sample_file_restored :
    ∃ fs₂ : FileSystem, fs₂ (Shell.resolvePath (cstr (ascii "/a")) (cstr [])).path = none ∧
      typedCommand (fileEngine mirror)
          ⟨.decrypt [(cstr (ascii "/a")).append szencExtension], cstr [], ascii "k\n", true,
            (Block.zero 16, Block.zero 24)⟩ fs₂ =
        ((0, .done),
          fs₂.writeFile (Shell.resolvePath (cstr (ascii "/a")) (cstr [])).path [1, 2]) := by
  have hfile : sampleFiles (Shell.resolvePath (cstr (ascii "/a")) (cstr [])).path =
      some [1, 2] := by
    decide
  have hdone : typedCommand (fileEngine mirror)
      ⟨.encrypt [cstr (ascii "/a")], cstr [], ascii "k\nk\n", true,
        (Block.zero 16, Block.zero 24)⟩ sampleFiles = ((0, .done), _) :=
    Prod.ext (by decide +kernel) rfl
  have hne : (Shell.resolvePath (cstr (ascii "/a")) (cstr [])).path.append szencExtension ≠
      (Shell.resolvePath (cstr (ascii "/a")) (cstr [])).path := by
    decide
  obtain ⟨-, hback⟩ := typed_file_restored mirror_aeadIdeal (worksOnFiles_fileEngine mirror)
    (cstr (ascii "/a")) (cstr []) (cstr (ascii "k")) (by decide) (by decide) (by decide)
    (by decide) (by decide) hfile hdone
  exact ⟨_, Function.update_self .., (hback (Function.update _ _ none) [] _
    (Function.update_of_ne hne _ _)).1⟩

end Examples

end Daemon
end SecureZ
