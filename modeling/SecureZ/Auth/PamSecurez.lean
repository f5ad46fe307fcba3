import SecureZ.Auth.MasterKey

/-!
# The PAM module

`pam_securez.c` verifies the master key for a login, and changes it.  The passwords come
from the PAM conversation, which may fail to give one.
-/

namespace SecureZ
namespace PamSecurez

open CLib
open CryptoCore
open MasterKey

/-- The results of the module. -/
inductive PamResult
  | success
  | authErr
  | authinfoUnavail
  | authtokErr
  | systemErr
deriving DecidableEq

variable (na : Sodium)

/-- `verify_password`. -/
def verifyPassword (password : CString) (fs : FileSystem) : PamResult :=
  match readStored 256 fs with
  | none => .authinfoUnavail
  | some none => .authinfoUnavail
  | some (some stored) => if na.pwhashStrVerify stored password then .success else .authErr

/-- What `pam_sm_chauthtok` is given: the result of `sodium_init`, the flag of the
preliminary check, and the two passwords of the conversation. -/
structure ChangeRequest where
  sodiumInit : Bool
  prelimCheck : Bool
  oldPw : Option CString
  newPw : Option CString
deriving DecidableEq

/-- The end of `pam_sm_chauthtok`: the hash of the new password replaces the file. -/
def replaceHash
    (w : WriteOutcome) (hashSalt : Salt) (newPw : CString) (fs : FileSystem) :
    PamResult × FileSystem :=
  match na.pwhashStr newPw hashSalt with
  | none => (.systemErr, fs)
  | some hash =>
      if w.fopen then
        (.success, fs.writeFile masterHashPath (w.disk (hash.bytes ++ [10])))
      else (.systemErr, fs)

/-- `pam_sm_chauthtok`. -/
def pamSmChauthtok
    (w : WriteOutcome) (hashSalt : Salt) (req : ChangeRequest) (fs : FileSystem) :
    PamResult × FileSystem :=
  if !req.sodiumInit then (.systemErr, fs)
  else if req.prelimCheck then (.success, fs)
  else
    match req.oldPw with
    | none => (.authErr, fs)
    | some oldPw =>
        if verifyPassword na oldPw fs ≠ .success then (.authErr, fs)
        else
          match req.newPw with
          | none => (.authtokErr, fs)
          | some newPw =>
              if newPw.strlen < 16 then (.authtokErr, fs)
              else replaceHash na w hashSalt newPw fs

section Lemmas

/-- Either the hash is written, or the files are left alone. -/
theorem replaceHash_cases
    (w : WriteOutcome) (hashSalt : Salt) (newPw : CString) (fs : FileSystem) :
    replaceHash na w hashSalt newPw fs = (.systemErr, fs)
      ∨
    ∃ hash,
      na.pwhashStr newPw hashSalt = some hash ∧
        replaceHash na w hashSalt newPw fs =
          (.success, fs.writeFile masterHashPath (w.disk (hash.bytes ++ [10]))) := by
  unfold replaceHash
  cases na.pwhashStr newPw hashSalt with
  | none =>
      exact Or.inl rfl
  | some hash =>
      cases w.fopen with
      | false => exact Or.inl rfl
      | true => exact Or.inr ⟨hash, rfl, rfl⟩

/-- Either the files are left alone, without a success that is more than preliminary, or the
hash of the new password is written. -/
theorem pamSmChauthtok_cases
    (w : WriteOutcome) (hashSalt : Salt) (req : ChangeRequest) (fs : FileSystem) :
    (∃ result,
        pamSmChauthtok na w hashSalt req fs = (result, fs) ∧
          (result ≠ .success ∨ req.prelimCheck = true))
      ∨
    ∃ newPw hash,
      req.newPw = some newPw ∧
        req.prelimCheck = false ∧
        16 ≤ newPw.strlen ∧
        na.pwhashStr newPw hashSalt = some hash ∧
        pamSmChauthtok na w hashSalt req fs =
          (.success, fs.writeFile masterHashPath (w.disk (hash.bytes ++ [10]))) := by
  obtain ⟨sodiumInit, prelimCheck, oldPw, newPw⟩ := req
  cases sodiumInit with
  | false =>
      exact Or.inl ⟨.systemErr, rfl, Or.inl (by simp)⟩
  | true =>
  cases prelimCheck with
  | true =>
      exact Or.inl ⟨.success, rfl, Or.inr rfl⟩
  | false =>
  cases oldPw with
  | none =>
      exact Or.inl ⟨.authErr, rfl, Or.inl (by simp)⟩
  | some oldPw =>
      by_cases hverify : verifyPassword na oldPw fs = .success
      · cases newPw with
        | none =>
            exact Or.inl ⟨.authtokErr, by simp [pamSmChauthtok, hverify], Or.inl (by simp)⟩
        | some newPw =>
            by_cases hshort : newPw.strlen < 16
            · exact Or.inl
                ⟨.authtokErr, by simp [pamSmChauthtok, hverify, hshort], Or.inl (by simp)⟩
            · have hreached :
                  pamSmChauthtok na w hashSalt ⟨true, false, some oldPw, some newPw⟩ fs =
                    replaceHash na w hashSalt newPw fs := by
                simp [pamSmChauthtok, hverify, hshort]
              rw [hreached]
              rcases replaceHash_cases na w hashSalt newPw fs with
                hfailed | ⟨hash, hstr, hdone⟩
              · exact Or.inl ⟨.systemErr, hfailed, Or.inl (by simp)⟩
              · exact Or.inr
                  ⟨newPw, hash, rfl, rfl, Nat.le_of_not_lt hshort, hstr, hdone⟩
      · exact Or.inl ⟨.authErr, by simp [pamSmChauthtok, hverify], Or.inl (by simp)⟩

end Lemmas

end PamSecurez
end SecureZ
