import SecureZ.Auth.MasterKeyPolicy
import SecureZ.Auth.ThreePrograms
import SecureZ.Lib.Answers

/-!
# The master key as a register

The keystore, the utility and the PAM module set, change and verify the master key over one
file, which holds the hash of it as a line.  What their callers see is a register that holds
the password itself: a setup fills it when it is absent, a change needs the password that is
in it, a login compares with it.

A write that does not reach the disk leaves a file that no password opens; where even the
file is empty, the utility verifies against what its buffer happens to hold.

The main result is about every list of calls of the three programs: they are answered as the
register answers them.
-/

namespace SecureZ
namespace PamSecurez

open CLib
open CryptoCore
open MasterKey

section Login

/-- What `pam_sm_authenticate` is given: the result of `sodium_init`, the user and the
password of the conversation. -/
structure LoginRequest where
  sodiumInit : Bool
  user : Option CString
  password : Option CString
deriving DecidableEq

/-- What `pam_sm_authenticate` writes to the log. -/
inductive LoginLog
  | initFailed
  | noUser
  | noPassword
  | authenticated (user : CString)
  | failed (user : CString)
  | notConfigured
deriving DecidableEq

/-- What `pam_sm_authenticate` returns. -/
inductive LoginResult
  | userUnknown
  | result (r : PamResult)
deriving DecidableEq

/-- The line of the log for the result of `verify_password`. -/
def loginLog (user : CString) : PamResult → LoginLog
  | .success => .authenticated user
  | .authErr => .failed user
  | _ => .notConfigured

/-- `pam_sm_authenticate`. -/
def pamSmAuthenticate (na : Sodium) (req : LoginRequest) (fs : FileSystem) :
    LoginResult × LoginLog :=
  if !req.sodiumInit then (.result .systemErr, .initFailed)
  else
    match req.user with
    | none => (.userUnknown, .noUser)
    | some user =>
        match req.password with
        | none => (.result .authErr, .noPassword)
        | some password =>
            let result := verifyPassword na password fs
            (.result result, loginLog user result)

end Login

end PamSecurez

namespace MasterKey

open CLib
open CryptoCore
open KeyStorage
open PamSecurez
open Transition (answers stateAfter Matches answers_eq_of_matches stateAfter_of_matches)

section Model

/-- A call of one of the programs. -/
inductive Call
  /-- A call that may write. -/
  | write (op : Operation)
  /-- `pam_sm_authenticate`. -/
  | login (req : LoginRequest)
  /-- `keystore_master_verify`. -/
  | keystoreVerify (password : CString)
  /-- `do_verify`, with the standard input. -/
  | typedVerify (input : Bytes)

/-- What a caller is told. -/
inductive Told
  | written (done : Bool)
  | login (result : LoginResult) (log : LoginLog)
  | verified (accepted : Bool)
deriving DecidableEq

/-- A call that may write: whether it reports success, and the files behind it. -/
def performWrite (na : Sodium) (fs : FileSystem) : Operation → Bool × FileSystem
  | .setup w hashSalt password =>
      let r := keystoreMasterSetup na w.toWrite hashSalt password fs
      (r.1 = 0, r.2)
  | .change w hashSalt oldPassword newPassword =>
      let r := keystoreMasterChange na w.toWrite hashSalt oldPassword newPassword fs
      (r.1 = 0, r.2)
  | .setupPiped w hashSalt input =>
      let r := doSetupPiped na w.toWrite hashSalt input fs
      (r.1 = 0, r.2)
  | .setupPrompted w hashSalt input =>
      let r := doSetupPrompted na w.toWrite hashSalt (.start input) fs
      (r.1 = 0, r.2)
  | .changePrompted w hashSalt junk input =>
      let r := changeMasterKey na w.toWrite hashSalt junk (.start input) fs
      (r.1 = 0, r.2)
  | .chauthtok w hashSalt req =>
      let r := pamSmChauthtok na w.toWrite hashSalt req fs
      (r.1 = .success, r.2)

/-- A call, on the files. -/
def performCall (na : Sodium) (call : Call) (fs : FileSystem) : Told × FileSystem :=
  match call with
  | .write op => (.written (performWrite na fs op).1, (performWrite na fs op).2)
  | .login req =>
      (.login (pamSmAuthenticate na req fs).1 (pamSmAuthenticate na req fs).2, fs)
  | .keystoreVerify password => (.verified (keystoreMasterVerify na password fs), fs)
  | .typedVerify input => (.verified (doVerify na (.start input) fs = 0), fs)

end Model

section Register

/-- The register of the master key. -/
inductive Register
  | absent
  | set (password : CString)
  /-- A hash that is cut off. -/
  | damaged
  /-- A file with nothing in it. -/
  | empty
deriving DecidableEq

/-- What a write of the hash of a password leaves, the end of it perhaps lost. -/
def Register.written (w : FlushOutcome) (password hash : CString) : Register :=
  if w.lost ≤ 1 then .set password
  else if w.lost ≤ hash.strlen then .damaged
  else .empty

/-- The password is written over what is there, unless there is no memory for its hash or the
file does not open. -/
def Register.overwrite (na : Sodium) (w : FlushOutcome) (hashSalt : Salt) (password : CString)
    (k : Register) : Bool × Register :=
  match na.pwhashStr password hashSalt with
  | none => (false, k)
  | some hash => if w.fopen then (true, .written w password hash) else (false, k)

/-- The password is written where the register is absent. -/
def Register.install (na : Sodium) (w : FlushOutcome) (hashSalt : Salt) (password : CString)
    (k : Register) : Bool × Register :=
  if k = .absent then k.overwrite na w hashSalt password else (false, k)

/-- The register behind the removal that a change begins with. -/
def Register.cleared (w : FlushOutcome) (k : Register) : Register :=
  if w.unlink then .absent else k

/-- A setup at the terminal: the first line is measured, and the second is the password. -/
def Register.setupTyped (na : Sodium) (w : FlushOutcome) (hashSalt : Salt) (input : Bytes)
    (k : Register) : Bool × Register :=
  match promptTexts input with
  | none => (false, k)
  | some (first, second) =>
      if first.strlen < 16 then (false, k) else k.install na w hashSalt second

/-- The password is the one that `--change` asks for. -/
def Register.opens (na : Sodium) (junk password : CString) : Register → Bool
  | .set key => password = key
  | .empty => na.pwhashStrVerify junk password
  | _ => false

/-- A call that may write. -/
def Register.perform (na : Sodium) (k : Register) : Operation → Bool × Register
  | .setup w hashSalt password =>
      if password.strlen < 16 then (false, k) else k.install na w hashSalt password
  | .change w hashSalt oldPassword newPassword =>
      if k ≠ .set oldPassword ∨ newPassword.strlen < 16 then (false, k)
      else (k.cleared w).install na w hashSalt newPassword
  | .setupPiped w hashSalt input =>
      match readPasswordStdin input with
      | none => (false, k)
      | some password =>
          if password.strlen < 16 then (false, k) else k.install na w hashSalt password
  | .setupPrompted w hashSalt input => k.setupTyped na w hashSalt input
  | .changePrompted w hashSalt junk input =>
      match fgetsText 256 input with
      | none => (false, k)
      | some (old, rest) =>
          if k.opens na junk old then (k.cleared w).setupTyped na w hashSalt rest
          else (false, k)
  | .chauthtok w hashSalt req =>
      if !req.sodiumInit then (false, k)
      else if req.prelimCheck then (true, k)
      else
        match req.oldPw, req.newPw with
        | some old, some new =>
            if k ≠ .set old ∨ new.strlen < 16 then (false, k)
            else k.overwrite na w hashSalt new
        | _, _ => (false, k)

/-- The result of a comparison with the register at a login. -/
def Register.compare (password : CString) : Register → PamResult
  | .set key => if password = key then .success else .authErr
  | .damaged => .authErr
  | _ => .authinfoUnavail

/-- A login. -/
def Register.login (req : LoginRequest) (k : Register) : LoginResult × LoginLog :=
  if !req.sodiumInit then (.result .systemErr, .initFailed)
  else
    match req.user, req.password with
    | none, _ => (.userUnknown, .noUser)
    | some _, none => (.result .authErr, .noPassword)
    | some user, some password =>
        (.result (k.compare password), loginLog user (k.compare password))

/-- A call, on the register. -/
def Register.call (na : Sodium) (call : Call) (k : Register) : Told × Register :=
  match call with
  | .write op => (.written (k.perform na op).1, (k.perform na op).2)
  | .login req => (.login (k.login req).1 (k.login req).2, k)
  | .keystoreVerify password => (.verified (k = .set password), k)
  | .typedVerify input =>
      (.verified ((fgetsText 256 input).any fun line => k = .set line.1), k)

/-- The password that a call is to set. -/
def Operation.password : Operation → Option CString
  | .setup _ _ password => some password
  | .change _ _ _ newPassword => some newPassword
  | .setupPiped _ _ input => readPasswordStdin input
  | .setupPrompted _ _ input => (promptTexts input).map Prod.snd
  | .changePrompted _ _ _ input =>
      ((fgetsText 256 input).bind fun line => promptTexts line.2).map Prod.snd
  | .chauthtok _ _ req => if req.prelimCheck then none else req.newPw

/-- The password that a caller is told is set. -/
def reportedKey : Call × Told → Option CString
  | (.write op, .written true) => op.password
  | _ => none

/-- The password that was reported last. -/
def lastReported (calls : List Call) (told : List Told) : Option CString :=
  ((calls.zip told).filterMap reportedKey).getLast?

end Register

section Representation

variable {na : Sodium} {fs : FileSystem} {k : Register}

/-- The file holds what the register holds, for every verifier with a large enough buffer. -/
def Holds (na : Sodium) (fs : FileSystem) : Register → Prop
  | .absent => fs masterHashPath = none
  | .set key =>
      fs masterHashPath ≠ none ∧ ∀ size, 128 ≤ size →
        ∃ stored, readStored size fs = some (some stored) ∧
          ∀ q, na.pwhashStrVerify stored q = decide (q = key)
  | .damaged =>
      fs masterHashPath ≠ none ∧ ∀ size, 128 ≤ size →
        ∃ stored, readStored size fs = some (some stored) ∧
          ∀ q, na.pwhashStrVerify stored q = false
  | .empty =>
      fs masterHashPath ≠ none ∧ ∀ size, 128 ≤ size → readStored size fs = some none

theorem there_iff
    (h : Holds na fs k) :
    (fs masterHashPath).isSome = true ↔ k ≠ .absent := by
  rw [Option.isSome_iff_ne_none]
  cases k with
  | absent =>
      have habsent : fs masterHashPath = none := h
      simp [habsent]
  | _ => simpa using h.1

/-- A hash that was written is what the register then holds. -/
theorem holds_written
    {w : FlushOutcome} {hashSalt : Salt} {password hash : CString}
    (hna : PwhashStrExact na)
    (hstr : na.pwhashStr password hashSalt = some hash)
    (fs : FileSystem) :
    Holds na (hashWritten w hash fs) (.written w password hash) := by
  obtain ⟨hpos, hlen, hnl⟩ := hna.line password hashSalt hash hstr
  have hthere : hashWritten w hash fs masterHashPath ≠ none := by
    rw [hashWritten, FileSystem.writeFile_self]
    simp
  unfold Register.written
  split_ifs with hwhole hcut
  · refine ⟨hthere, fun size hsize => ⟨hash, ?_, fun q => ?_⟩⟩
    · rw [readStored_hashWritten hsize hnl hlen, if_pos (by omega),
        CString.take_of_strlen_le (by omega)]
    · rw [Bool.eq_iff_iff, decide_eq_true_iff]
      exact hna.verify_iff password hashSalt hash hstr q
  · refine ⟨hthere, fun size hsize => ⟨hash.take (hash.strlen + 1 - w.lost), ?_, fun q => ?_⟩⟩
    · rw [readStored_hashWritten hsize hnl hlen, if_pos hcut]
    · exact hna.cut password hashSalt hash _ hstr (by omega) q
  · refine ⟨hthere, fun size hsize => ?_⟩
    rw [readStored_hashWritten hsize hnl hlen, if_neg hcut]

/-- What `verify_password` returns. -/
theorem verifyPassword_holds
    (h : Holds na fs k)
    (password : CString) :
    verifyPassword na password fs = k.compare password := by
  unfold verifyPassword
  cases k with
  | absent =>
      have hread : readStored 256 fs = none := by
        rw [readStored, FileSystem.readFile, h]
        simp
      simp [hread, Register.compare]
  | set key =>
      obtain ⟨stored, hread, hverify⟩ := h.2 256 (by decide)
      simp [hread, hverify, Register.compare]
  | damaged =>
      obtain ⟨stored, hread, hverify⟩ := h.2 256 (by decide)
      simp [hread, hverify, Register.compare]
  | empty =>
      simp [h.2 256 (by decide), Register.compare]

end Representation

section Calls

variable {na : Sodium} {fs : FileSystem} {k : Register}

/-- The call reports what the register does, and leaves what it holds. -/
def Agrees (na : Sodium) (r : Bool × FileSystem) (t : Bool × Register) : Prop :=
  r.1 = t.1 ∧ Holds na r.2 t.2

/-- The end of `do_setup` fills the register. -/
theorem agrees_writeHash
    (hna : PwhashStrExact na)
    (h : Holds na fs k)
    (w : FlushOutcome) (hashSalt : Salt) (password : CString) :
    Agrees na
      (decide ((writeHash na w.toWrite hashSalt password fs).1 = 0),
        (writeHash na w.toWrite hashSalt password fs).2)
      (k.install na w hashSalt password) := by
  unfold writeHash Register.install Register.overwrite
  simp only [there_iff h]
  by_cases habsent : k = .absent
  · simp only [habsent, ne_eq, not_true_eq_false, if_false, if_true]
    cases hstr : na.pwhashStr password hashSalt with
    | none => exact ⟨rfl, habsent ▸ h⟩
    | some hash =>
        have hopen : w.toWrite.fopen = w.fopen := rfl
        simp only [hopen]
        cases w.fopen with
        | false => exact ⟨rfl, habsent ▸ h⟩
        | true => exact ⟨rfl, holds_written hna hstr fs⟩
  · simp only [habsent, ne_eq, not_false_eq_true, if_true, if_false]
    exact ⟨rfl, h⟩

/-- The setup of the keystore is the end of `do_setup`, with a code of its own. -/
theorem keystoreMasterSetup_eq_writeHash
    {password : CString}
    (hlong : ¬ password.strlen < 16)
    (w : WriteOutcome) (hashSalt : Salt) (fs : FileSystem) :
    keystoreMasterSetup na w hashSalt password fs =
      (if (writeHash na w hashSalt password fs).1 = 0 then 0 else -1,
        (writeHash na w hashSalt password fs).2) := by
  rw [keystoreMasterSetup, if_neg hlong, ← masterHashPath_eq, writeHash]
  by_cases hthere : (fs masterHashPath).isSome = true
  · simp [hthere]
  · simp only [hthere, if_false, Bool.false_eq_true]
    cases na.pwhashStr password hashSalt with
    | none => rfl
    | some hash => cases w.fopen <;> simp

/-- So it fills the register, too. -/
theorem agrees_keystoreMasterSetup
    (hna : PwhashStrExact na)
    (h : Holds na fs k)
    (w : FlushOutcome) (hashSalt : Salt) {password : CString}
    (hlong : ¬ password.strlen < 16) :
    Agrees na
      (decide ((keystoreMasterSetup na w.toWrite hashSalt password fs).1 = 0),
        (keystoreMasterSetup na w.toWrite hashSalt password fs).2)
      (k.install na w hashSalt password) := by
  have hcode : ∀ n : Int, ((if n = 0 then 0 else -1 : Int) = 0) ↔ n = 0 := by
    intro n
    split_ifs with hn <;> simp [hn]
  rw [keystoreMasterSetup_eq_writeHash hlong]
  simp only [hcode]
  exact agrees_writeHash hna h w hashSalt password

/-- The removal that a change begins with. -/
theorem holds_cleared
    (h : Holds na fs k)
    (w : FlushOutcome) :
    Holds na (if w.toWrite.unlink then fs.unlink masterHashPath else fs) (k.cleared w) := by
  have hunlink : w.toWrite.unlink = w.unlink := rfl
  rw [hunlink, Register.cleared]
  cases w.unlink with
  | false => exact h
  | true => simp [Holds, FileSystem.unlink]

/-- A setup at the terminal. -/
theorem agrees_doSetupPrompted
    (hna : PwhashStrExact na)
    (h : Holds na fs k)
    (w : FlushOutcome) (hashSalt : Salt) (c : Console) :
    Agrees na
      (decide ((doSetupPrompted na w.toWrite hashSalt c fs).1 = 0),
        (doSetupPrompted na w.toWrite hashSalt c fs).2)
      (k.setupTyped na w hashSalt c.input) := by
  rw [doSetupPrompted_eq, Register.setupTyped]
  cases promptTexts c.input with
  | none => exact ⟨rfl, h⟩
  | some texts =>
      simp only
      split_ifs with hshort
      · exact ⟨rfl, h⟩
      · exact agrees_writeHash hna h w hashSalt texts.2

theorem keystoreMasterVerify_holds
    (h : Holds na fs k)
    (password : CString) :
    keystoreMasterVerify na password fs = decide (k = .set password) := by
  rw [keystoreMasterVerify_eq]
  have hsize : 128 ≤ pwhashStrbytes := by decide
  cases k with
  | absent =>
      have hread : readStored pwhashStrbytes fs = none := by
        rw [readStored, FileSystem.readFile, h]
        simp
      simp [hread]
  | set key =>
      obtain ⟨stored, hread, hverify⟩ := h.2 pwhashStrbytes hsize
      simp [hread, hverify, eq_comm]
  | damaged =>
      obtain ⟨stored, hread, hverify⟩ := h.2 pwhashStrbytes hsize
      simp [hread, hverify]
  | empty =>
      simp [h.2 pwhashStrbytes hsize]

/-- `--change` asks for the password of the register. -/
theorem agrees_changeMasterKey
    (hna : PwhashStrExact na)
    (h : Holds na fs k)
    (w : FlushOutcome) (hashSalt : Salt) (junk : CString) (input : Bytes) :
    Agrees na (performWrite na fs (.changePrompted w hashSalt junk input))
      (k.perform na (.changePrompted w hashSalt junk input)) := by
  cases hline : fgetsText 256 input with
  | none =>
      simp only [performWrite, Register.perform, changeMasterKey, promptPassword, Console.start,
        hline, Bool.not_false, if_true]
      exact ⟨rfl, h⟩
  | some line =>
      obtain ⟨old, rest⟩ := line
      have hsize : 128 ≤ pwhashStrbytes := by decide
      have hsetup := agrees_doSetupPrompted hna (holds_cleared h w) w hashSalt ⟨rest, old⟩
      simp only [performWrite, Register.perform, changeMasterKey, promptPassword, Console.start,
        hline, Bool.not_true, Bool.false_eq_true, if_false]
      cases k with
      | absent =>
          have hread : readStored pwhashStrbytes fs = none := by
            rw [readStored, FileSystem.readFile, h]
            simp
          simp only [hread, Register.opens, Bool.false_eq_true, if_false]
          exact ⟨rfl, h⟩
      | set key =>
          obtain ⟨stored, hread, hverify⟩ := h.2 pwhashStrbytes hsize
          simp only [hread, Option.getD_some, hverify, Register.opens]
          by_cases hkey : old = key
          · simpa only [hkey, decide_true, Bool.not_true, Bool.false_eq_true, if_false, if_true]
              using hkey ▸ hsetup
          · simp only [hkey, decide_false, Bool.not_false, if_true, Bool.false_eq_true, if_false]
            exact ⟨rfl, h⟩
      | damaged =>
          obtain ⟨stored, hread, hverify⟩ := h.2 pwhashStrbytes hsize
          simp only [hread, Option.getD_some, hverify, Register.opens, Bool.not_false, if_true,
            Bool.false_eq_true, if_false]
          exact ⟨rfl, h⟩
      | empty =>
          cases hjunk : na.pwhashStrVerify junk old with
          | false =>
              simp only [h.2 pwhashStrbytes hsize, Option.getD_none, Register.opens, hjunk,
                Bool.not_false, if_true, Bool.false_eq_true, if_false]
              exact ⟨rfl, h⟩
          | true =>
              simp only [h.2 pwhashStrbytes hsize, Option.getD_none, Register.opens, hjunk,
                Bool.not_true, Bool.false_eq_true, if_false, if_true]
              exact hsetup

/-- A change by the PAM module writes over what is there. -/
theorem agrees_chauthtok
    (hna : PwhashStrExact na)
    (h : Holds na fs k)
    (w : FlushOutcome) (hashSalt : Salt) (req : ChangeRequest) :
    Agrees na (performWrite na fs (.chauthtok w hashSalt req))
      (k.perform na (.chauthtok w hashSalt req)) := by
  have hcompare : ∀ old, k.compare old = .success ↔ k = .set old := by
    intro old
    cases k with
    | set key => simp [Register.compare, eq_comm]
    | _ => simp [Register.compare]
  obtain ⟨sodiumInit, prelimCheck, oldPw, newPw⟩ := req
  simp only [performWrite, Register.perform, pamSmChauthtok, verifyPassword_holds h, ne_eq,
    hcompare]
  cases sodiumInit with
  | false => exact ⟨rfl, h⟩
  | true =>
  cases prelimCheck with
  | true => exact ⟨rfl, h⟩
  | false =>
  cases oldPw with
  | none => exact ⟨rfl, h⟩
  | some old =>
      simp only [Bool.not_true, Bool.false_eq_true, if_false]
      by_cases hold : k = .set old
      · cases newPw with
        | none =>
            simp only [hold, not_true_eq_false, if_false]
            exact ⟨rfl, hold ▸ h⟩
        | some new =>
            simp only [hold, not_true_eq_false, if_false, false_or]
            by_cases hshort : new.strlen < 16
            · simp only [hshort, if_true]
              exact ⟨rfl, hold ▸ h⟩
            · simp only [hshort, if_false, replaceHash, Register.overwrite]
              cases hstr : na.pwhashStr new hashSalt with
              | none => exact ⟨rfl, hold ▸ h⟩
              | some hash =>
                  have hopen : w.toWrite.fopen = w.fopen := rfl
                  simp only [hopen]
                  cases w.fopen with
                  | false => exact ⟨rfl, hold ▸ h⟩
                  | true => exact ⟨rfl, holds_written hna hstr fs⟩
      · cases newPw with
        | none =>
            simp only [hold, not_false_eq_true, if_true]
            exact ⟨rfl, h⟩
        | some new =>
            simp only [hold, not_false_eq_true, if_true, true_or]
            exact ⟨rfl, h⟩

/-- Every call that may write does what the register does. -/
theorem agrees_performWrite
    (hna : PwhashStrExact na)
    (h : Holds na fs k)
    (op : Operation) :
    Agrees na (performWrite na fs op) (k.perform na op) := by
  cases op with
  | setup w hashSalt password =>
      simp only [performWrite, Register.perform]
      by_cases hshort : password.strlen < 16
      · simp only [keystoreMasterSetup, hshort, if_true]
        exact ⟨rfl, h⟩
      · rw [if_neg hshort]
        exact agrees_keystoreMasterSetup hna h w hashSalt hshort
  | change w hashSalt oldPassword newPassword =>
      simp only [performWrite, Register.perform, keystoreMasterChange,
        keystoreMasterVerify_holds h]
      by_cases hold : k = .set oldPassword
      · by_cases hshort : newPassword.strlen < 16
        · simp only [hold, decide_true, Bool.not_true, Bool.false_eq_true, if_false, hshort,
            if_true, or_true]
          exact ⟨rfl, hold ▸ h⟩
        · have hsetup :=
            agrees_keystoreMasterSetup hna (holds_cleared h w) w hashSalt hshort
          rw [hold] at hsetup
          simp only [hold, decide_true, Bool.not_true, Bool.false_eq_true, if_false, hshort,
            ne_eq, not_true_eq_false, or_self]
          exact hsetup
      · simp only [hold, decide_false, Bool.not_false, if_true, ne_eq, not_false_eq_true, true_or]
        exact ⟨rfl, h⟩
  | setupPiped w hashSalt input =>
      cases hread : readPasswordStdin input with
      | none =>
          simp only [performWrite, Register.perform, doSetupPiped, hread]
          exact ⟨rfl, h⟩
      | some password =>
          simp only [performWrite, Register.perform, doSetupPiped, hread]
          by_cases hshort : password.strlen < 16
          · simp only [hshort, if_true]
            exact ⟨rfl, h⟩
          · simp only [hshort, if_false]
            exact agrees_writeHash hna h w hashSalt password
  | setupPrompted w hashSalt input =>
      exact agrees_doSetupPrompted hna h w hashSalt (.start input)
  | changePrompted w hashSalt junk input =>
      exact agrees_changeMasterKey hna h w hashSalt junk input
  | chauthtok w hashSalt req =>
      exact agrees_chauthtok hna h w hashSalt req

end Calls

section Reports

variable {na : Sodium} {k : Register}

/-- What a call does to the register: it writes the password and reports it, or leaves the
register and reports no password, or has removed what was there. -/
inductive Outcome (op : Operation) (k : Register) : Bool × Register → Prop
  | written (w : FlushOutcome) (password hash : CString)
      (hpassword : op.password = some password) :
      Outcome op k (true, .written w password hash)
  | kept (done : Bool) (hsilent : done = false ∨ op.password = none) :
      Outcome op k (done, k)
  | removed : Outcome op k (false, .absent)

/-- The end of a call that writes a password, from the register or without it. -/
theorem outcome_overwrite
    {op : Operation} {k' : Register} {password : CString}
    (hk : k' = k ∨ k' = .absent)
    (hpassword : op.password = some password)
    (w : FlushOutcome) (hashSalt : Salt) :
    Outcome op k (k'.overwrite na w hashSalt password) := by
  have hfailed : Outcome op k (false, k') := by
    rcases hk with rfl | rfl
    · exact .kept false (Or.inl rfl)
    · exact .removed
  unfold Register.overwrite
  cases na.pwhashStr password hashSalt with
  | none => exact hfailed
  | some hash =>
      simp only
      split_ifs
      · exact .written w password hash hpassword
      · exact hfailed

theorem outcome_install
    {op : Operation} {k' : Register} {password : CString}
    (hk : k' = k ∨ k' = .absent)
    (hpassword : op.password = some password)
    (w : FlushOutcome) (hashSalt : Salt) :
    Outcome op k (k'.install na w hashSalt password) := by
  unfold Register.install
  split_ifs with habsent
  · exact outcome_overwrite hk hpassword w hashSalt
  · rcases hk with rfl | rfl
    · exact .kept false (Or.inl rfl)
    · exact absurd rfl habsent

theorem outcome_setupTyped
    {op : Operation} {k' : Register} {input : Bytes}
    (hk : k' = k ∨ k' = .absent)
    (hpassword : op.password = (promptTexts input).map Prod.snd)
    (w : FlushOutcome) (hashSalt : Salt) :
    Outcome op k (k'.setupTyped na w hashSalt input) := by
  have hfailed : Outcome op k (false, k') := by
    rcases hk with rfl | rfl
    · exact .kept false (Or.inl rfl)
    · exact .removed
  unfold Register.setupTyped
  cases htexts : promptTexts input with
  | none => exact hfailed
  | some texts =>
      simp only
      split_ifs
      · exact hfailed
      · rw [htexts, Option.map_some] at hpassword
        exact outcome_install hk hpassword w hashSalt

theorem cleared_cases
    (w : FlushOutcome) (k : Register) :
    k.cleared w = k ∨ k.cleared w = .absent := by
  unfold Register.cleared
  split_ifs
  · exact Or.inr rfl
  · exact Or.inl rfl

theorem outcome_perform
    (na : Sodium) (k : Register) (op : Operation) :
    Outcome op k (k.perform na op) := by
  have hkept : Outcome op k (false, k) := .kept false (Or.inl rfl)
  cases op with
  | setup w hashSalt password =>
      simp only [Register.perform]
      split_ifs
      · exact hkept
      · exact outcome_install (Or.inl rfl) rfl w hashSalt
  | change w hashSalt oldPassword newPassword =>
      simp only [Register.perform]
      split_ifs
      · exact hkept
      · exact outcome_install (cleared_cases w k) rfl w hashSalt
  | setupPiped w hashSalt input =>
      simp only [Register.perform]
      cases hread : readPasswordStdin input with
      | none => exact hkept
      | some password =>
          have hpassword : (Operation.setupPiped w hashSalt input).password = some password :=
            hread
          simp only
          split_ifs
          · exact hkept
          · exact outcome_install (Or.inl rfl) hpassword w hashSalt
  | setupPrompted w hashSalt input =>
      exact outcome_setupTyped (Or.inl rfl) rfl w hashSalt
  | changePrompted w hashSalt junk input =>
      simp only [Register.perform]
      cases hline : fgetsText 256 input with
      | none => exact hkept
      | some line =>
          simp only
          split_ifs
          · refine outcome_setupTyped (cleared_cases w k) ?_ w hashSalt
            simp [Operation.password, hline]
          · exact hkept
  | chauthtok w hashSalt req =>
      obtain ⟨sodiumInit, prelimCheck, oldPw, newPw⟩ := req
      simp only [Register.perform]
      split_ifs with hinit hprelim
      · exact hkept
      · exact .kept true (Or.inr (by simp [Operation.password, hprelim]))
      · cases oldPw with
        | none => exact hkept
        | some old =>
        cases newPw with
        | none => exact hkept
        | some new =>
            simp only
            split_ifs
            · exact hkept
            · exact outcome_overwrite (Or.inl rfl)
                (by simp [Operation.password, hprelim]) w hashSalt

/-- A password in the register is the one that was reported last, or was there before. -/
theorem lastReported_of_set
    {calls : List Call} {key : CString}
    (h : stateAfter (Register.call na) k calls = .set key) :
    lastReported calls (answers (Register.call na) k calls) = some key ∨
      (lastReported calls (answers (Register.call na) k calls) = none ∧ k = .set key) := by
  induction calls generalizing k with
  | nil => exact Or.inr ⟨rfl, h⟩
  | cons call calls ih =>
      have hsplit : lastReported (call :: calls) (answers (Register.call na) k (call :: calls)) =
          (lastReported calls (answers (Register.call na) (Register.call na call k).2 calls)).or
            (reportedKey (call, (Register.call na call k).1)) := by
        simp only [lastReported, answers, List.zip_cons_cons]
        rw [← List.singleton_append, List.filterMap_append, List.getLast?_append]
        congr 1
        cases hkey : reportedKey (call, (Register.call na call k).1) <;> simp [hkey]
      rw [hsplit]
      rcases ih h with hlast | ⟨hnone, hset⟩
      · exact Or.inl (by rw [hlast, Option.some_or])
      · rw [hnone, Option.none_or]
        cases call with
        | write op =>
            simp only [Register.call] at hset ⊢
            have houtcome := outcome_perform na k op
            generalize k.perform na op = r at houtcome hset
            cases houtcome with
            | written w password hash hpassword =>
                left
                have hsame : password = key := by
                  simp only [Register.written] at hset
                  split_ifs at hset
                  exact Register.set.inj hset
                rw [reportedKey, hpassword, hsame]
            | kept done hsilent =>
                right
                refine ⟨?_, hset⟩
                cases done with
                | false => rfl
                | true => exact hsilent.resolve_left (by simp)
            | removed => cases hset
        | login req => exact Or.inr ⟨rfl, hset⟩
        | keystoreVerify password => exact Or.inr ⟨rfl, hset⟩
        | typedVerify input => exact Or.inr ⟨rfl, hset⟩

end Reports

section Main

variable {na : Sodium} {fs : FileSystem} {k : Register}

/-- What `pam_sm_authenticate` does. -/
theorem pamSmAuthenticate_holds
    (h : Holds na fs k)
    (req : LoginRequest) :
    pamSmAuthenticate na req fs = k.login req := by
  obtain ⟨sodiumInit, user, password⟩ := req
  unfold pamSmAuthenticate Register.login
  cases sodiumInit with
  | false => rfl
  | true => cases user <;> cases password <;> simp [verifyPassword_holds h]

/-- What `do_verify` does. -/
theorem doVerify_holds
    (h : Holds na fs k)
    (input : Bytes) :
    doVerify na (.start input) fs = 0 ↔
      ((fgetsText 256 input).any fun line => k = .set line.1) = true := by
  have hsame := keystoreMasterVerify_eq na
  cases hline : fgetsText 256 input with
  | none => simp [doVerify, promptPassword, Console.start, hline]
  | some line =>
      obtain ⟨text, rest⟩ := line
      have hverify := keystoreMasterVerify_holds h text
      rw [hsame] at hverify
      simp only [doVerify, promptPassword, Console.start, hline, Bool.not_true,
        Bool.false_eq_true, if_false, Option.any_some, ← hverify]
      cases readStored pwhashStrbytes fs with
      | none => simp
      | some stored => cases stored <;> simp

/-- Every call is answered as the register answers it. -/
theorem matches_register
    (hna : PwhashStrExact na) :
    Matches (performCall na) (Register.call na) (Holds na) fun _ => True where
  answer := by
    intro call fs k _ h
    cases call with
    | write op => exact congrArg Told.written (agrees_performWrite hna h op).1
    | login req => simp only [performCall, Register.call, pamSmAuthenticate_holds h]
    | keystoreVerify password =>
        simp only [performCall, Register.call, keystoreMasterVerify_holds h]
    | typedVerify input =>
        simp only [performCall, Register.call, doVerify_holds h, Bool.decide_eq_true]
  after := by
    intro call fs k _ h
    cases call with
    | write op => exact (agrees_performWrite hna h op).2
    | _ => exact h

end Main

section Examples

/-- The password is set, a login with it succeeds, a change reports success although the end
of its hash is lost, and no login succeeds any more. -/
def lossyCalls : List Call :=
  [.write (.setup .complete (Block.zero 16) sixteenBytes),
    .login ⟨true, some (cstr (ascii "bob")), some sixteenBytes⟩,
    .write (.change { FlushOutcome.complete with lost := 2 } (Block.zero 16) sixteenBytes
      sixteenBytes),
    .login ⟨true, some (cstr (ascii "bob")), some sixteenBytes⟩]

end Examples

end MasterKey
end SecureZ
