import SecureZ.Auth.ThreePrograms

/-!
# A change of the master key that fails

Both programs that change the master key remove the old hash and then run a whole setup,
which has refusals and failures of its own.  A change is safe when its failure leaves the
file as it was, so that the old password still verifies, and its success makes the new
password verify.

The main result says under which inputs and outcomes each of the two changes is safe.
-/

namespace SecureZ
namespace MasterKey

open CLib
open CryptoCore
open KeyStorage

section Specification

/-- What a change that returned `r` promises about the files `fs` that it found. -/
structure ChangeSafe
    (na : Sodium) (oldPassword newPassword : CString) (fs : FileSystem)
    (r : Int × FileSystem) :
    Prop where
  unchanged : r.1 ≠ 0 → r.2 masterHashPath = fs masterHashPath
  oldVerifies :
    r.1 ≠ 0 →
    keystoreMasterVerify na oldPassword fs = true →
    keystoreMasterVerify na oldPassword r.2 = true
  newVerifies : r.1 = 0 → keystoreMasterVerify na newPassword r.2 = true

/-- The hash of `password` can be made and written, but for the newline behind it. -/
def CanReplace
    (na : Sodium) (w : FlushOutcome) (hashSalt : Salt) (password : CString) : Prop :=
  (na.pwhashStr password hashSalt).isSome = true ∧ w.fopen = true ∧ w.lost ≤ 1

instance
    (na : Sodium) (w : FlushOutcome) (hashSalt : Salt) (password : CString) :
    Decidable (CanReplace na w hashSalt password) :=
  inferInstanceAs (Decidable (_ ∧ _))

/-- What is typed for `--change`: the two passwords, and what comes after them. -/
def changeInput (oldPassword newPassword : CString) (rest : Bytes) : Bytes :=
  typed oldPassword ++ (typed newPassword ++ rest)

/-- The utility goes on to remove the file: the first prompt reads a text, and the file that
is there verifies it. -/
def OldAccepted (na : Sodium) (junk : CString) (input : Bytes) (fs : FileSystem) : Prop :=
  (promptPassword (.start input)).1 = true ∧
    ∃ stored,
      readStored pwhashStrbytes fs = some stored ∧
        na.pwhashStrVerify (stored.getD junk) (promptPassword (.start input)).2.password = true

/-- The two prompts behind the first one read a text of the required length, and then
`newPassword`. -/
def NewAccepted (newPassword : CString) (input : Bytes) : Prop :=
  ∃ first,
    promptTexts (promptPassword (.start input)).2.input = some (first, newPassword) ∧
      16 ≤ first.strlen

end Specification

section Verification

variable {na : Sodium} {oldPassword newPassword : CString} {fs : FileSystem}

/-- A stored line is read from a file that is there. -/
theorem exists_of_readStored
    {size : Nat} {stored : Option CString}
    (h : readStored size fs = some stored) :
    fs masterHashPath ≠ none := by
  obtain ⟨content, hread, -⟩ := Option.map_eq_some_iff.mp h
  rw [(FileSystem.readFile_eq_some_iff.mp hread).2]
  exact Option.some_ne_none content

/-- A failure that leaves the files alone is safe. -/
theorem changeSafe_unchanged
    {code : Int}
    (hcode : code ≠ 0) :
    ChangeSafe na oldPassword newPassword fs (code, fs) where
  unchanged := fun _ => rfl
  oldVerifies := fun _ h => h
  newVerifies := fun h => absurd h hcode

/-- A failure that has removed the file is not. -/
theorem not_changeSafe_removed
    {code : Int}
    (hcode : code ≠ 0)
    (hthere : fs masterHashPath ≠ none) :
    ¬ ChangeSafe na oldPassword newPassword fs (code, fs.unlink masterHashPath) := by
  intro h
  have hsame : fs.unlink masterHashPath masterHashPath = fs masterHashPath := h.unchanged hcode
  rw [FileSystem.unlink, Function.update_self] at hsame
  exact hthere hsame.symm

end Verification

section Replacement

variable {na : Sodium} {w : FlushOutcome} {hashSalt : Salt}
variable {oldPassword newPassword password : CString} {fs : FileSystem}

/-- The end of both setups, behind the removal: the hash is made and written, and a failure
returns `code`. -/
def replaced
    (na : Sodium) (code : Int) (w : FlushOutcome) (hashSalt : Salt) (password : CString)
    (fs : FileSystem) :
    Int × FileSystem :=
  match na.pwhashStr password hashSalt with
  | none => (code, fs.unlink masterHashPath)
  | some hash =>
      if w.fopen then (0, hashWritten w hash (fs.unlink masterHashPath))
      else (code, fs.unlink masterHashPath)

theorem unlink_isSome
    (fs : FileSystem) :
    (fs.unlink masterHashPath masterHashPath).isSome = false := by
  simp [FileSystem.unlink]

theorem writeHash_unlinked :
    writeHash na w.toWrite hashSalt password (fs.unlink masterHashPath) =
      replaced na 1 w hashSalt password fs := by
  rw [writeHash, unlink_isSome]
  rfl

theorem keystoreMasterSetup_unlinked
    (hlong : 16 ≤ password.strlen) :
    keystoreMasterSetup na w.toWrite hashSalt password (fs.unlink masterHashPath) =
      replaced na (-1) w hashSalt password fs := by
  rw [keystoreMasterSetup, if_neg (Nat.not_lt_of_le hlong), ← masterHashPath_eq, unlink_isSome]
  rfl

/-- Where the file stays, the setups refuse. -/
theorem writeHash_of_there
    {w : WriteOutcome}
    (hthere : fs masterHashPath ≠ none) :
    writeHash na w hashSalt password fs = (1, fs) := by
  rw [writeHash, if_pos (Option.isSome_iff_ne_none.mpr hthere)]

theorem keystoreMasterSetup_of_there
    {w : WriteOutcome}
    (hthere : fs masterHashPath ≠ none) :
    keystoreMasterSetup na w hashSalt password fs = (-1, fs) := by
  rw [keystoreMasterSetup, ← masterHashPath_eq, if_pos (Option.isSome_iff_ne_none.mpr hthere),
    ite_self]

/-- Behind the removal, a change is safe exactly when it can be completed with the password
that is meant. -/
theorem changeSafe_replaced_iff
    (hna : PwhashStrExact na)
    {code : Int}
    (hcode : code ≠ 0)
    (hthere : fs masterHashPath ≠ none) :
    ChangeSafe na oldPassword newPassword fs (replaced na code w hashSalt password fs)
      ↔
    CanReplace na w hashSalt password ∧ newPassword = password := by
  unfold replaced CanReplace
  cases hstr : na.pwhashStr password hashSalt with
  | none =>
      simpa using not_changeSafe_removed hcode hthere
  | some hash =>
      cases hopen : w.fopen with
      | false =>
          simpa using not_changeSafe_removed hcode hthere
      | true =>
          have hverify :
              keystoreMasterVerify na newPassword
                  (hashWritten w hash (fs.unlink masterHashPath)) = true
                ↔
              w.lost ≤ 1 ∧ newPassword = password := by
            rw [keystoreMasterVerify_iff]
            exact verify_hashWritten hna hstr (by decide) _ _
          simp only [if_true, Option.isSome_some, true_and]
          rw [← hverify]
          constructor
          · exact fun h => h.newVerifies rfl
          · exact fun h => ⟨fun hne => absurd rfl hne, fun hne => absurd rfl hne, fun _ => h⟩

end Replacement

section Changes

variable {na : Sodium} {w : FlushOutcome} {hashSalt : Salt} {fs : FileSystem}

/-- The change of the keystore. -/
theorem keystoreMasterChange_safe_iff
    (hna : PwhashStrExact na)
    (oldPassword newPassword : CString) :
    ChangeSafe na oldPassword newPassword fs
        (keystoreMasterChange na w.toWrite hashSalt oldPassword newPassword fs)
      ↔
    (keystoreMasterVerify na oldPassword fs = true →
      16 ≤ newPassword.strlen →
      w.unlink = true →
      CanReplace na w hashSalt newPassword) := by
  unfold keystoreMasterChange
  by_cases hverify : keystoreMasterVerify na oldPassword fs = true
  · by_cases hshort : newPassword.strlen < 16
    · have hnot : ¬ 16 ≤ newPassword.strlen := Nat.not_le_of_lt hshort
      simpa [hverify, hshort, hnot] using changeSafe_unchanged (by decide)
    · have hlong : 16 ≤ newPassword.strlen := Nat.le_of_not_lt hshort
      obtain ⟨stored, hread, -⟩ := keystoreMasterVerify_iff.mp hverify
      have hthere := exists_of_readStored hread
      have hoff : w.toWrite.unlink = w.unlink := rfl
      simp only [hverify, Bool.not_true, Bool.false_eq_true, if_false, hshort, hlong,
        forall_const, hoff, ← masterHashPath_eq]
      cases w.unlink with
      | false =>
          simpa [keystoreMasterSetup_of_there hthere] using changeSafe_unchanged (by decide)
      | true =>
          simp only [if_true, forall_const, keystoreMasterSetup_unlinked hlong]
          rw [changeSafe_replaced_iff hna (by decide) hthere]
          exact and_iff_left rfl
  · simpa [hverify] using changeSafe_unchanged (by decide)

/-- The setup that the utility runs for a change, behind the removal. -/
theorem doSetupPrompted_unlinked_safe_iff
    (hna : PwhashStrExact na)
    (hthere : fs masterHashPath ≠ none)
    (oldPassword newPassword : CString) (c : Console) :
    ChangeSafe na oldPassword newPassword fs
        (doSetupPrompted na w.toWrite hashSalt c (fs.unlink masterHashPath))
      ↔
    (∃ first, promptTexts c.input = some (first, newPassword) ∧ 16 ≤ first.strlen) ∧
      CanReplace na w hashSalt newPassword := by
  rw [doSetupPrompted_eq]
  cases htexts : promptTexts c.input with
  | none =>
      simpa using not_changeSafe_removed (by decide) hthere
  | some texts =>
      obtain ⟨first, second⟩ := texts
      by_cases hshort : first.strlen < 16
      · have hnot : ¬ 16 ≤ first.strlen := Nat.not_le_of_lt hshort
        simpa [hshort, hnot] using not_changeSafe_removed (by decide) hthere
      · have hlong : 16 ≤ first.strlen := Nat.le_of_not_lt hshort
        simp only [hshort, if_false, writeHash_unlinked]
        rw [changeSafe_replaced_iff hna (by decide) hthere]
        constructor
        · rintro ⟨hcan, rfl⟩
          exact ⟨⟨first, rfl, hlong⟩, hcan⟩
        · rintro ⟨⟨first', htexts', -⟩, hcan⟩
          obtain ⟨-, rfl⟩ := Prod.mk.inj (Option.some.inj htexts')
          exact ⟨hcan, rfl⟩

/-- Where the file stays, the setup of the utility leaves it alone. -/
theorem doSetupPrompted_of_there
    {w : WriteOutcome}
    (hthere : fs masterHashPath ≠ none)
    (c : Console) :
    doSetupPrompted na w hashSalt c fs = (1, fs) := by
  rw [doSetupPrompted_eq]
  cases promptTexts c.input with
  | none =>
      rfl
  | some texts =>
      simp only [writeHash_of_there hthere, ite_self]

/-- The change of the utility. -/
theorem changeMasterKey_safe_iff
    (hna : PwhashStrExact na)
    (junk oldPassword newPassword : CString) (input : Bytes) :
    ChangeSafe na oldPassword newPassword fs
        (changeMasterKey na w.toWrite hashSalt junk (.start input) fs)
      ↔
    (OldAccepted na junk input fs →
      w.unlink = true →
      NewAccepted newPassword input ∧ CanReplace na w hashSalt newPassword) := by
  unfold changeMasterKey OldAccepted NewAccepted
  obtain ⟨got, c⟩ := promptPassword (.start input)
  cases got with
  | false =>
      simpa using changeSafe_unchanged (by decide)
  | true =>
  cases hread : readStored pwhashStrbytes fs with
  | none =>
      simpa using changeSafe_unchanged (by decide)
  | some stored =>
  cases hverify : na.pwhashStrVerify (stored.getD junk) c.password with
  | false =>
      simpa [hverify] using changeSafe_unchanged (by decide)
  | true =>
      have hthere := exists_of_readStored hread
      have hoff : w.toWrite.unlink = w.unlink := rfl
      simp only [Bool.not_true, Bool.false_eq_true, if_false, hverify, hoff, true_and,
        Option.some.injEq, exists_eq_left', forall_const]
      cases w.unlink with
      | false =>
          simpa [doSetupPrompted_of_there hthere] using changeSafe_unchanged (by decide)
      | true =>
          simp only [if_true, forall_const]
          exact doSetupPrompted_unlinked_safe_iff hna hthere oldPassword newPassword c

end Changes

/--
**A change that fails.**

A change of the keystore is safe exactly when, if it comes to removing the old hash, the new
one can be made and written.  A change at the terminal is safe exactly when then moreover
the prompts read the new password, at the required length.
-/
theorem change_safe_iff
    (na : Sodium)
    (hna : PwhashStrExact na)
    (w : FlushOutcome) (hashSalt : Salt) (oldPassword newPassword junk : CString) (rest : Bytes)
    (fs : FileSystem) :
    (ChangeSafe na oldPassword newPassword fs
        (keystoreMasterChange na w.toWrite hashSalt oldPassword newPassword fs)
      ↔
    (keystoreMasterVerify na oldPassword fs = true →
      16 ≤ newPassword.strlen →
      w.unlink = true →
      CanReplace na w hashSalt newPassword))
      ∧
    (ChangeSafe na oldPassword newPassword fs
        (changeMasterKey na w.toWrite hashSalt junk
          (.start (changeInput oldPassword newPassword rest)) fs)
      ↔
    (OldAccepted na junk (changeInput oldPassword newPassword rest) fs →
      w.unlink = true →
      NewAccepted newPassword (changeInput oldPassword newPassword rest) ∧
        CanReplace na w hashSalt newPassword)) :=
  ⟨keystoreMasterChange_safe_iff hna oldPassword newPassword,
    changeMasterKey_safe_iff hna junk oldPassword newPassword
      (changeInput oldPassword newPassword rest)⟩

section Typed

variable {oldPassword newPassword : CString}

/-- Of two passwords that fit the buffer, the new one typed twice, the prompts read what was
typed, so that the change goes on exactly when the new password is long enough. -/
theorem newAccepted_typed_iff
    (hold : (10 : UInt8) ∉ oldPassword.bytes)
    (holdFits : oldPassword.strlen ≤ 254)
    (hnew : (10 : UInt8) ∉ newPassword.bytes)
    (hnewFits : newPassword.strlen ≤ 254)
    (rest : Bytes) :
    NewAccepted newPassword (changeInput oldPassword newPassword (typed newPassword ++ rest))
      ↔
    16 ≤ newPassword.strlen := by
  have hline :
      ∀ p : CString, (10 : UInt8) ∉ p.bytes → p.strlen ≤ 254 →
        ∀ rest, fgetsText 256 (typed p ++ rest) = some (p, rest) := by
    intro p hnl hfits rest
    rw [typed, List.append_assoc]
    exact fgetsText_line hnl (by omega) rest
  have hprompt :
      (promptPassword
          (.start (changeInput oldPassword newPassword (typed newPassword ++ rest)))).2.input =
        typed newPassword ++ (typed newPassword ++ rest) := by
    simp only [promptPassword, Console.start, changeInput, hline _ hold holdFits]
  have htexts :
      promptTexts (typed newPassword ++ (typed newPassword ++ rest)) =
        some (newPassword, newPassword) := by
    simp only [promptTexts, hline _ hnew hnewFits, Option.bind_eq_bind, Option.bind_some,
      Option.pure_def]
  rw [NewAccepted, hprompt, htexts]
  simp

end Typed

section Examples

/-- The hash file of `sixteenBytes`, and nothing else. -/
def sixteenSet : FileSystem :=
  hashWritten .complete (sixteenBytes.append hashMark) (fun _ => none)

/-- A salt. -/
def zeroSalt : Salt := Block.zero crypticSaltLen

/-- Another password of sixteen bytes. -/
def otherSixteen : CString := cstr (ascii "fedcba9876543210")

/-- The file is removed, and the new one cannot be opened. -/
def noSpace : FlushOutcome := { FlushOutcome.complete with fopen := false }

/-- With every step succeeding, both changes are safe. -/
theorem complete_change_safe :
    ChangeSafe markedMirror sixteenBytes otherSixteen sixteenSet
        (keystoreMasterChange markedMirror FlushOutcome.complete.toWrite zeroSalt sixteenBytes
          otherSixteen sixteenSet) ∧
      ChangeSafe markedMirror sixteenBytes otherSixteen sixteenSet
        (changeMasterKey markedMirror FlushOutcome.complete.toWrite zeroSalt (cstr [])
          (.start (changeInput sixteenBytes otherSixteen (typed otherSixteen))) sixteenSet) := by
  have hsafe :=
    change_safe_iff markedMirror markedMirror_pwhashStrExact .complete zeroSalt
      sixteenBytes otherSixteen (cstr []) (typed otherSixteen) sixteenSet
  have hcan : CanReplace markedMirror .complete zeroSalt otherSixteen := by
    decide +kernel
  have hnew :
      NewAccepted otherSixteen
        (changeInput sixteenBytes otherSixteen (typed otherSixteen)) := by
    have htyped :=
      (@newAccepted_typed_iff sixteenBytes otherSixteen (by decide) (by decide) (by decide)
        (by decide) []).mpr (by decide)
    rwa [List.append_nil] at htyped
  exact ⟨hsafe.1.mpr fun _ _ _ => hcan, hsafe.2.mpr fun _ _ => ⟨hnew, hcan⟩⟩

/-- Without space for the new file the change of the keystore fails, and with a short new
password that of the utility does.  Both have removed the old hash. -/
theorem failed_change_loses_key :
    PwhashStrExact markedMirror ∧
      keystoreMasterVerify markedMirror sixteenBytes sixteenSet = true ∧
      ¬ ChangeSafe markedMirror sixteenBytes otherSixteen sixteenSet
        (keystoreMasterChange markedMirror noSpace.toWrite zeroSalt sixteenBytes otherSixteen
          sixteenSet) ∧
      ¬ ChangeSafe markedMirror sixteenBytes hashMark sixteenSet
        (changeMasterKey markedMirror FlushOutcome.complete.toWrite zeroSalt (cstr [])
          (.start (changeInput sixteenBytes hashMark (typed hashMark))) sixteenSet) := by
  have hverify : keystoreMasterVerify markedMirror sixteenBytes sixteenSet = true := by
    decide +kernel
  have hthere : sixteenSet masterHashPath ≠ none := by
    decide +kernel
  refine ⟨markedMirror_pwhashStrExact, hverify, fun hsafe => ?_, ?_⟩
  · have hcan :=
      (keystoreMasterChange_safe_iff markedMirror_pwhashStrExact sixteenBytes otherSixteen).mp
        hsafe hverify (by decide) rfl
    exact absurd hcan.2.1 (by decide)
  · exact not_changeSafe_removed (by decide : (1 : Int) ≠ 0) hthere

end Examples

end MasterKey
end SecureZ
