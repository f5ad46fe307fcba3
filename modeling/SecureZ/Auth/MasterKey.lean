import SecureZ.Engine.KeyStorage

/-!
# The master key utility

`master_key.c` sets, verifies and changes the master key from a terminal or a pipe.  A
program is modelled from the text that its standard input still gives.

`prompt_password` returns a pointer to its one static buffer.  What the pointer shows is
what the last prompt read, so the buffer is part of the state and a password obtained
before is looked up there, not remembered.
-/

namespace SecureZ
namespace MasterKey

open CLib
open CryptoCore
open KeyStorage

theorem nulFree_masterHashPath : 0 ∉ ascii "/etc/securez/master.key" := by
  decide

/-- `MASTER_HASH_PATH`. -/
def masterHashPath : CString where
  bytes := ascii "/etc/securez/master.key"
  nulFree := nulFree_masterHashPath

/-- The two programs and the keystore share the file. -/
theorem masterHashPath_eq : masterHashPath = keystoreMasterPath := by
  rfl

section Reading

/-- `read_password_stdin`: the password, none at the end of input. -/
def readPasswordStdin (input : Bytes) : Option CString :=
  (fgetsText 256 input).map Prod.fst

/-- Standard input, and the static buffer of `prompt_password`. -/
structure Console where
  input : Bytes
  password : CString
deriving DecidableEq

/-- A program just started, with `input` ahead. -/
def Console.start (input : Bytes) : Console :=
  ⟨input, cstr []⟩

/-- `prompt_password`: whether it returns its buffer, and the console after it.  At the end
of input it returns the null pointer and leaves the buffer alone. -/
def promptPassword (c : Console) : Bool × Console :=
  match fgetsText 256 c.input with
  | none => (false, c)
  | some (text, rest) => (true, ⟨rest, text⟩)

/-- What two prompts read, one after the other. -/
def promptTexts (input : Bytes) : Option (CString × CString) := do
  let (first, middle) ← fgetsText 256 input
  let (second, _) ← fgetsText 256 middle
  return (first, second)

/-- What a program reads from the hash file into a buffer of `size` bytes: none when the
file cannot be opened, and none inside when nothing could be read from it. -/
def readStored (size : Nat) (fs : FileSystem) : Option (Option CString) :=
  (fs.readFile masterHashPath).map fun content => (fgetsText size content).map Prod.fst

end Reading

section Commands

variable (na : Sodium)

/-- The end of `do_setup`, once there is a password: the hash of it is written, unless a
file is there. -/
def writeHash
    (w : WriteOutcome) (hashSalt : Salt) (password : CString) (fs : FileSystem) :
    Int × FileSystem :=
  if (fs masterHashPath).isSome then (1, fs)
  else
    match na.pwhashStr password hashSalt with
    | none => (1, fs)
    | some hash =>
        if w.fopen then (0, fs.writeFile masterHashPath (w.disk (hash.bytes ++ [10])))
        else (1, fs)

/-- `do_setup(1)`: the password comes from a pipe. -/
def doSetupPiped
    (w : WriteOutcome) (hashSalt : Salt) (input : Bytes) (fs : FileSystem) :
    Int × FileSystem :=
  match readPasswordStdin input with
  | none => (1, fs)
  | some password =>
      if password.strlen < 16 then (1, fs)
      else writeHash na w hashSalt password fs

/-- `do_setup(0)`: the password is prompted for twice. -/
def doSetupPrompted
    (w : WriteOutcome) (hashSalt : Salt) (c : Console) (fs : FileSystem) :
    Int × FileSystem :=
  let (gotPassword, c) := promptPassword c
  if !gotPassword || c.password.strlen < 16 then (1, fs)
  else
    let (gotConfirm, c) := promptPassword c
    -- `password` and `confirm` point to the same buffer
    if !gotConfirm || c.password ≠ c.password then (1, fs)
    else writeHash na w hashSalt c.password fs

/-- `do_verify`. -/
def doVerify (c : Console) (fs : FileSystem) : Int :=
  let (got, c) := promptPassword c
  if !got then 1
  else
    match readStored pwhashStrbytes fs with
    | none => 1
    | some none => 1
    | some (some stored) => if na.pwhashStrVerify stored c.password then 0 else 1

/-- The branch of `main` for `--change`.  It does not look at the result of `fgets`: `junk` is
the text that the buffer holds when the file is empty. -/
def changeMasterKey
    (w : WriteOutcome) (hashSalt : Salt) (junk : CString) (c : Console) (fs : FileSystem) :
    Int × FileSystem :=
  let (got, c) := promptPassword c
  if !got then (1, fs)
  else
    match readStored pwhashStrbytes fs with
    | none => (1, fs)
    | some stored =>
        if !na.pwhashStrVerify (stored.getD junk) c.password then (1, fs)
        else
          doSetupPrompted na w hashSalt c (if w.unlink then fs.unlink masterHashPath else fs)

end Commands

section Lemmas

/-- The comparison of the two passwords never fails: `do_setup(0)` measures what the first
prompt read, and writes the hash of what the second prompt read. -/
theorem doSetupPrompted_eq
    (na : Sodium) (w : WriteOutcome) (hashSalt : Salt) (c : Console) (fs : FileSystem) :
    doSetupPrompted na w hashSalt c fs =
      match promptTexts c.input with
      | none => (1, fs)
      | some (first, second) =>
          if first.strlen < 16 then (1, fs) else writeHash na w hashSalt second fs := by
  cases hfirst : fgetsText 256 c.input with
  | none =>
      simp [doSetupPrompted, promptPassword, promptTexts, hfirst]
  | some r =>
      obtain ⟨first, middle⟩ := r
      cases hsecond : fgetsText 256 middle <;>
        simp [doSetupPrompted, promptPassword, promptTexts, hfirst, hsecond]

/-- Either nothing is written, or the hash of the password is. -/
theorem writeHash_cases
    (na : Sodium) (w : WriteOutcome) (hashSalt : Salt) (password : CString) (fs : FileSystem) :
    writeHash na w hashSalt password fs = (1, fs) ∨
      ∃ hash,
        na.pwhashStr password hashSalt = some hash ∧
          writeHash na w hashSalt password fs =
            (0, fs.writeFile masterHashPath (w.disk (hash.bytes ++ [10]))) := by
  by_cases hthere : (fs masterHashPath).isSome
  · exact Or.inl (by simp [writeHash, hthere])
  cases hstr : na.pwhashStr password hashSalt with
  | none =>
      exact Or.inl (by simp [writeHash, hthere, hstr])
  | some hash =>
      cases hopen : w.fopen with
      | false => exact Or.inl (by simp [writeHash, hthere, hstr, hopen])
      | true => exact Or.inr ⟨hash, rfl, by simp [writeHash, hthere, hstr, hopen]⟩

/-- The setup of the keystore is the same, with its own length check. -/
theorem keystoreMasterSetup_cases
    (na : Sodium) (w : WriteOutcome) (hashSalt : Salt) (password : CString) (fs : FileSystem) :
    keystoreMasterSetup na w hashSalt password fs = (-1, fs) ∨
      ∃ hash,
        16 ≤ password.strlen ∧
          na.pwhashStr password hashSalt = some hash ∧
          keystoreMasterSetup na w hashSalt password fs =
            (0, fs.writeFile masterHashPath (w.disk (hash.bytes ++ [10]))) := by
  rw [masterHashPath_eq]
  by_cases hshort : password.strlen < 16
  · exact Or.inl (by simp [keystoreMasterSetup, hshort])
  by_cases hthere : (fs keystoreMasterPath).isSome
  · exact Or.inl (by simp [keystoreMasterSetup, hshort, hthere])
  cases hstr : na.pwhashStr password hashSalt with
  | none =>
      exact Or.inl (by simp [keystoreMasterSetup, hshort, hthere, hstr])
  | some hash =>
      cases hopen : w.fopen with
      | false =>
          exact Or.inl (by simp [keystoreMasterSetup, hshort, hthere, hstr, hopen])
      | true =>
          exact Or.inr ⟨hash, Nat.le_of_not_lt hshort, rfl,
            by simp [keystoreMasterSetup, hshort, hthere, hstr, hopen]⟩

/-- The verification of the keystore, with the reading of the file as here. -/
theorem keystoreMasterVerify_eq
    (na : Sodium) (password : CString) (fs : FileSystem) :
    keystoreMasterVerify na password fs =
      match readStored pwhashStrbytes fs with
      | some (some stored) => na.pwhashStrVerify stored password
      | _ => false := by
  rw [keystoreMasterVerify, readStored, masterHashPath_eq]
  cases fs.readFile keystoreMasterPath with
  | none =>
      rfl
  | some content =>
      cases hline : fgets pwhashStrbytes content <;> simp [fgetsText, hline]

end Lemmas

end MasterKey
end SecureZ
