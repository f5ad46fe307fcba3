import SecureZ.Engine.KeyStorage
import SecureZ.Lib.Answers

/-!
# The emergency wipe of the keystore

`keystore_emergency_wipe` overwrites the two files of the keystore with random bytes and
unlinks them.  Every step may fail, no result is looked at, and the function returns 0 and says
that all keys are destroyed in any case.

A file that is unlinked leaves what it held on the volume.  The main result says exactly when
both files are gone, where an empty keystore counts as none, that then no later use of the
keystore can tell it from one that was never used, and what is left on the volume of the files
that were unlinked.
-/

namespace SecureZ
namespace KeyStorage

open CLib Transition
open CryptoCore

section Model

/-- The files, and the contents of files that were unlinked. -/
structure Volume where
  files : FileSystem
  freed : List Bytes

/-- Outcomes of the steps that destroy a file.  Of the random bytes, `written` reach it. -/
structure DestroyOutcome where
  stat : Bool
  fopen : Bool
  malloc : Bool
  written : Nat
  unlink : Bool
deriving DecidableEq

/-- `unlink` on a volume. -/
def Volume.unlink (v : Volume) (path : CString) : Volume :=
  match v.files path with
  | none => v
  | some content => ⟨v.files.unlink path, content :: v.freed⟩

/-- A file with random bytes written over its beginning, the file being opened with `r+b`. -/
def overwritten (o : DestroyOutcome) (random old : Bytes) : Bytes :=
  if o.fopen ∧ o.malloc then random.take o.written ++ old.drop (random.take o.written).length
  else old

/-- Overwriting and unlinking a file that holds `old`. -/
def Volume.destroy
    (v : Volume) (o : DestroyOutcome) (random : Bytes) (path : CString) (old : Bytes) : Volume :=
  let v := { v with files := v.files.writeFile path (overwritten o random old) }
  if o.unlink then v.unlink path else v

/-- The part for the keystore: the file is destroyed if it is found and not empty.  `draw` is
`randombytes_buf`. -/
def wipeKeystore (o : DestroyOutcome) (draw : (n : Nat) → Block n) (v : Volume) : Volume :=
  match v.files keystorePath with
  | none => v
  | some old =>
      if o.stat ∧ 0 < old.length then v.destroy o (draw old.length).bytes keystorePath old else v

/-- The part for the master key: 256 random bytes from the stack. -/
def wipeMaster (o : DestroyOutcome) (draw : (n : Nat) → Block n) (v : Volume) : Volume :=
  match v.files keystoreMasterPath with
  | none => v
  | some old =>
      if o.stat then v.destroy { o with malloc := true } (draw 256).bytes keystoreMasterPath old
      else v

/-- `keystore_emergency_wipe`. -/
def keystoreEmergencyWipe
    (o m : DestroyOutcome) (draw draw' : (n : Nat) → Block n) (v : Volume) : Int × Volume :=
  (0, wipeMaster m draw' (wipeKeystore o draw v))

/-- The uses of a keystore. -/
inductive KeystoreCall
  | masterSetup (w : WriteOutcome) (hashSalt : Salt) (password : CString)
  | masterVerify (password : CString)
  | masterChange (w : WriteOutcome) (hashSalt : Salt) (oldPassword newPassword : CString)
  | store (o : StoreOutcome) (r : StoreRequest) (masterPw : CString)
  | retrieve (o : RetrieveOutcome) (name masterPw : CString)
  | delete (name masterPw : CString)
  | list

/-- What a use comes back with. -/
inductive KeystoreAnswer
  | returned (ret : Int)
  | verified (ok : Bool)
  | retrieved (key : Option Bytes)
  | listed (keys : List KeyInfo)
deriving DecidableEq

/-- `keystore_delete`, which is not implemented. -/
def keystoreDelete (_name _masterPw : CString) : Int := -1

/-- A use of the keystore. -/
def keystorePerform (na : Sodium) : KeystoreCall → FileSystem → KeystoreAnswer × FileSystem
  | .masterSetup w hashSalt password, fs =>
      let r := keystoreMasterSetup na w hashSalt password fs
      (.returned r.1, r.2)
  | .masterVerify password, fs => (.verified (keystoreMasterVerify na password fs), fs)
  | .masterChange w hashSalt oldPassword newPassword, fs =>
      let r := keystoreMasterChange na w hashSalt oldPassword newPassword fs
      (.returned r.1, r.2)
  | .store o r masterPw, fs =>
      let result := keystoreStore na o r masterPw fs
      (.returned result.1, result.2)
  | .retrieve o name masterPw, fs => (.retrieved (keystoreRetrieve na o name masterPw fs), fs)
  | .delete name masterPw, fs => (.returned (keystoreDelete name masterPw), fs)
  | .list, fs => (.listed (keystoreList fs), fs)

end Model

section Specification

/-- Nothing of a keystore is there; a keystore file that is empty is left alone. -/
structure Gone (fs : FileSystem) : Prop where
  keystore : (fs keystorePath).getD [] = []
  master : fs keystoreMasterPath = none

/-- The files that are there are found and unlinked. -/
structure Completes (o m : DestroyOutcome) (fs : FileSystem) : Prop where
  keystore : (fs keystorePath).getD [] ≠ [] → o.stat = true ∧ o.unlink = true
  master : fs keystoreMasterPath ≠ none → m.stat = true ∧ m.unlink = true

/-- The files that are there are overwritten to their end. -/
structure Shreds (o m : DestroyOutcome) (fs : FileSystem) : Prop where
  keystore : ∀ old, fs keystorePath = some old →
    o.fopen = true ∧ o.malloc = true ∧ old.length ≤ o.written
  master : ∀ old, fs keystoreMasterPath = some old →
    m.fopen = true ∧ 256 ≤ m.written ∧ old.length ≤ 256

end Specification

section Views

/-- Two file systems that hold the same keystore; an empty file is as good as none. -/
structure SameKeystore (fs fs' : FileSystem) : Prop where
  keystore : (fs keystorePath).getD [] = (fs' keystorePath).getD []
  master : fs keystoreMasterPath = fs' keystoreMasterPath

variable {na : Sodium} {fs fs' : FileSystem}

theorem paths_ne : keystorePath ≠ keystoreMasterPath := by
  decide

theorem sameKeystore_writeKeystore
    (h : SameKeystore fs fs')
    (content : Bytes) :
    SameKeystore (fs.writeFile keystorePath content) (fs'.writeFile keystorePath content) where
  keystore := by simp
  master := by
    rw [FileSystem.writeFile_of_ne _ _ paths_ne.symm, FileSystem.writeFile_of_ne _ _ paths_ne.symm]
    exact h.master

theorem sameKeystore_writeMaster
    (h : SameKeystore fs fs')
    (content : Bytes) :
    SameKeystore (fs.writeFile keystoreMasterPath content)
      (fs'.writeFile keystoreMasterPath content) where
  keystore := by
    rw [FileSystem.writeFile_of_ne _ _ paths_ne, FileSystem.writeFile_of_ne _ _ paths_ne]
    exact h.keystore
  master := by simp

theorem sameKeystore_unlinkMaster
    (h : SameKeystore fs fs') :
    SameKeystore (fs.unlink keystoreMasterPath) (fs'.unlink keystoreMasterPath) where
  keystore := by simpa [FileSystem.unlink, paths_ne] using h.keystore
  master := by simp [FileSystem.unlink]

theorem masterVerify_same
    (h : SameKeystore fs fs')
    (password : CString) :
    keystoreMasterVerify na password fs = keystoreMasterVerify na password fs' := by
  simp only [keystoreMasterVerify, FileSystem.readFile, h.master]

theorem masterSetup_same
    (na : Sodium)
    (h : SameKeystore fs fs')
    (w : WriteOutcome) (hashSalt : Salt) (password : CString) :
    (keystoreMasterSetup na w hashSalt password fs).1 =
        (keystoreMasterSetup na w hashSalt password fs').1 ∧
      SameKeystore (keystoreMasterSetup na w hashSalt password fs).2
        (keystoreMasterSetup na w hashSalt password fs').2 := by
  simp only [keystoreMasterSetup, h.master]
  by_cases hshort : password.strlen < 16
  · rw [if_pos hshort, if_pos hshort]
    exact ⟨rfl, h⟩
  · rw [if_neg hshort, if_neg hshort]
    by_cases hthere : (fs' keystoreMasterPath).isSome = true
    · rw [if_pos hthere, if_pos hthere]
      exact ⟨rfl, h⟩
    · rw [if_neg hthere, if_neg hthere]
      cases na.pwhashStr password hashSalt with
      | none =>
          exact ⟨rfl, h⟩
      | some hash =>
          by_cases hopen : w.fopen = true
          · simp only [hopen, if_true]
            exact ⟨trivial, sameKeystore_writeMaster h _⟩
          · simp only [hopen, Bool.false_eq_true, if_false]
            exact ⟨trivial, h⟩

theorem masterChange_same
    (na : Sodium)
    (h : SameKeystore fs fs')
    (w : WriteOutcome) (hashSalt : Salt) (oldPassword newPassword : CString) :
    (keystoreMasterChange na w hashSalt oldPassword newPassword fs).1 =
        (keystoreMasterChange na w hashSalt oldPassword newPassword fs').1 ∧
      SameKeystore (keystoreMasterChange na w hashSalt oldPassword newPassword fs).2
        (keystoreMasterChange na w hashSalt oldPassword newPassword fs').2 := by
  simp only [keystoreMasterChange, masterVerify_same h]
  by_cases hwrong : (!keystoreMasterVerify na oldPassword fs') = true
  · rw [if_pos hwrong, if_pos hwrong]
    exact ⟨rfl, h⟩
  · rw [if_neg hwrong, if_neg hwrong]
    by_cases hshort : newPassword.strlen < 16
    · rw [if_pos hshort, if_pos hshort]
      exact ⟨rfl, h⟩
    · rw [if_neg hshort, if_neg hshort]
      by_cases hunlink : w.unlink = true
      · rw [if_pos hunlink, if_pos hunlink]
        exact masterSetup_same na (sameKeystore_unlinkMaster h) w hashSalt newPassword
      · rw [if_neg hunlink, if_neg hunlink]
        exact masterSetup_same na h w hashSalt newPassword

theorem store_same
    (na : Sodium)
    (h : SameKeystore fs fs')
    (o : StoreOutcome) (r : StoreRequest) (masterPw : CString) :
    (keystoreStore na o r masterPw fs).1 = (keystoreStore na o r masterPw fs').1 ∧
      SameKeystore (keystoreStore na o r masterPw fs).2
        (keystoreStore na o r masterPw fs').2 := by
  simp only [keystoreStore, masterVerify_same h, h.keystore]
  by_cases hempty : r.keyData = []
  · rw [if_pos hempty, if_pos hempty]
    exact ⟨rfl, h⟩
  · rw [if_neg hempty, if_neg hempty]
    by_cases hwrong : (!keystoreMasterVerify na masterPw fs') = true
    · rw [if_pos hwrong, if_pos hwrong]
      exact ⟨rfl, h⟩
    · rw [if_neg hwrong, if_neg hwrong]
      cases wrappedEntry na o r masterPw with
      | none =>
          exact ⟨rfl, h⟩
      | some entry =>
          simp only
          by_cases happend : o.fopenAppend = true
          · rw [if_pos happend, if_pos happend]
            exact ⟨rfl, sameKeystore_writeKeystore h _⟩
          · rw [if_neg happend, if_neg happend]
            by_cases hcreate : o.fopenCreate = true
            · rw [if_pos hcreate, if_pos hcreate]
              exact ⟨rfl, sameKeystore_writeKeystore h _⟩
            · rw [if_neg hcreate, if_neg hcreate]
              exact ⟨rfl, h⟩

theorem findEntry_nil
    (name : CString) :
    findEntry name [] = none :=
  rfl

theorem readFile_keystore
    (fs : FileSystem) :
    fs.readFile keystorePath = fs keystorePath :=
  if_neg (by decide)

theorem retrieve_same
    (h : SameKeystore fs fs')
    (o : RetrieveOutcome) (name masterPw : CString) :
    keystoreRetrieve na o name masterPw fs = keystoreRetrieve na o name masterPw fs' := by
  have hkeystore := h.keystore
  simp only [keystoreRetrieve, masterVerify_same h, readFile_keystore]
  cases hfs : fs keystorePath with
  | none =>
      cases hfs' : fs' keystorePath with
      | none =>
          rfl
      | some content =>
          rw [hfs, hfs'] at hkeystore
          obtain rfl : content = [] := hkeystore.symm
          simp only [Option.bind_eq_bind, Option.bind_some, findEntry_nil, Option.bind_none]
  | some content =>
      cases hfs' : fs' keystorePath with
      | none =>
          rw [hfs, hfs'] at hkeystore
          obtain rfl : content = [] := hkeystore
          simp only [Option.bind_eq_bind, Option.bind_some, findEntry_nil, Option.bind_none]
      | some content' =>
          rw [hfs, hfs'] at hkeystore
          obtain rfl : content = content' := hkeystore
          rfl

theorem list_same
    (h : SameKeystore fs fs') :
    keystoreList fs = keystoreList fs' := by
  have hlist : ∀ fs : FileSystem, keystoreList fs = listEntries ((fs keystorePath).getD []) := by
    intro fs
    rw [keystoreList, readFile_keystore]
    cases fs keystorePath <;> rfl
  rw [hlist, hlist, h.keystore]

/-- File systems that hold the same keystore are answered alike. -/
theorem keystore_matches
    (na : Sodium) :
    Matches (keystorePerform na) (keystorePerform na) SameKeystore (fun _ => True) := by
  have hboth : ∀ (c : KeystoreCall) (fs fs' : FileSystem), SameKeystore fs fs' →
      (keystorePerform na c fs).1 = (keystorePerform na c fs').1 ∧
        SameKeystore (keystorePerform na c fs).2 (keystorePerform na c fs').2 := by
    intro c fs fs' h
    cases c with
    | masterSetup w hashSalt password =>
        obtain ⟨hret, hsame⟩ := masterSetup_same na h w hashSalt password
        exact ⟨congrArg KeystoreAnswer.returned hret, hsame⟩
    | masterVerify password =>
        exact ⟨congrArg KeystoreAnswer.verified (masterVerify_same h password), h⟩
    | masterChange w hashSalt oldPassword newPassword =>
        obtain ⟨hret, hsame⟩ := masterChange_same na h w hashSalt oldPassword newPassword
        exact ⟨congrArg KeystoreAnswer.returned hret, hsame⟩
    | store o r masterPw =>
        obtain ⟨hret, hsame⟩ := store_same na h o r masterPw
        exact ⟨congrArg KeystoreAnswer.returned hret, hsame⟩
    | retrieve o name masterPw =>
        exact ⟨congrArg KeystoreAnswer.retrieved (retrieve_same h o name masterPw), h⟩
    | delete name masterPw =>
        exact ⟨rfl, h⟩
    | list =>
        exact ⟨congrArg KeystoreAnswer.listed (list_same h), h⟩
  exact ⟨fun c fs fs' _ h => (hboth c fs fs' h).1, fun c fs fs' _ h => (hboth c fs fs' h).2⟩

end Views

section Wiping

variable {o m : DestroyOutcome} {draw draw' : (n : Nat) → Block n} {v : Volume}
  {path : CString} {random old : Bytes}

/-- A file that is destroyed holds something else, or is gone. -/
theorem files_destroy
    (v : Volume) (o : DestroyOutcome) (random : Bytes) (path : CString) (old : Bytes) :
    (v.destroy o random path old).files =
      Function.update v.files path
        (if o.unlink then none else some (overwritten o random old)) := by
  unfold Volume.destroy
  split_ifs with hunlink
  · simp [Volume.unlink, FileSystem.unlink, FileSystem.writeFile]
  · rfl

theorem freed_destroy
    (v : Volume) (o : DestroyOutcome) (random : Bytes) (path : CString) (old : Bytes) :
    (v.destroy o random path old).freed =
      if o.unlink then overwritten o random old :: v.freed else v.freed := by
  unfold Volume.destroy
  split_ifs with hunlink
  · simp [Volume.unlink]
  · rfl

/-- The file is not shorter behind the overwriting than before. -/
theorem overwritten_ne_nil
    (hold : old ≠ [])
    (o : DestroyOutcome) (random : Bytes) :
    overwritten o random old ≠ [] := by
  unfold overwritten
  split_ifs
  · intro hnil
    obtain ⟨htake, hdrop⟩ := List.append_eq_nil_iff.mp hnil
    rw [htake, List.length_nil, List.drop_zero] at hdrop
    exact hold hdrop
  · exact hold

/-- A file that is overwritten to its end holds random bytes only. -/
theorem overwritten_of_whole
    (hopen : o.fopen = true)
    (hmalloc : o.malloc = true)
    (hwritten : random.length ≤ o.written)
    (hold : old.length ≤ random.length) :
    overwritten o random old = random := by
  rw [overwritten, if_pos ⟨hopen, hmalloc⟩, List.take_of_length_le hwritten,
    List.drop_eq_nil_of_le hold, List.append_nil]

theorem wipeKeystore_of_ne
    {p : CString}
    (hp : p ≠ keystorePath) :
    (wipeKeystore o draw v).files p = v.files p := by
  unfold wipeKeystore
  cases v.files keystorePath with
  | none =>
      rfl
  | some old =>
      simp only
      split_ifs
      · rw [files_destroy, Function.update_of_ne hp]
      · rfl

theorem wipeMaster_of_ne
    {p : CString}
    (hp : p ≠ keystoreMasterPath) :
    (wipeMaster m draw v).files p = v.files p := by
  unfold wipeMaster
  cases v.files keystoreMasterPath with
  | none =>
      rfl
  | some old =>
      simp only
      split_ifs
      · rw [files_destroy, Function.update_of_ne hp]
      · rfl

/-- What becomes of the keystore file. -/
theorem wipeKeystore_gone_iff :
    ((wipeKeystore o draw v).files keystorePath).getD [] = [] ↔
      ((v.files keystorePath).getD [] ≠ [] → o.stat = true ∧ o.unlink = true) := by
  unfold wipeKeystore
  cases hold : v.files keystorePath with
  | none =>
      simp [hold]
  | some old =>
      rw [Option.getD_some]
      by_cases hempty : old = []
      · simp [hempty, hold]
      · have hpos : 0 < old.length := List.length_pos_iff.mpr hempty
        simp only [hpos, and_true]
        by_cases hstat : o.stat = true
        · have hleft := overwritten_ne_nil hempty o (draw old.length).bytes
          rw [if_pos hstat, files_destroy, Function.update_self]
          cases hunlink : o.unlink <;> simp [hleft, hempty, hstat]
        · simp [hstat, hold, hempty]

/-- What becomes of the master key. -/
theorem wipeMaster_gone_iff :
    (wipeMaster m draw v).files keystoreMasterPath = none ↔
      (v.files keystoreMasterPath ≠ none → m.stat = true ∧ m.unlink = true) := by
  unfold wipeMaster
  cases hold : v.files keystoreMasterPath with
  | none =>
      simp [hold]
  | some old =>
      simp only
      by_cases hstat : m.stat = true
      · rw [if_pos hstat, files_destroy, Function.update_self]
        cases hunlink : m.unlink <;> simp [hstat]
      · simp [hstat, hold]

/-- What the keystore file leaves on the volume. -/
theorem freed_wipeKeystore
    (hshred : ∀ old, v.files keystorePath = some old →
      o.fopen = true ∧ o.malloc = true ∧ old.length ≤ o.written)
    {b : Bytes}
    (hb : b ∈ (wipeKeystore o draw v).freed) :
    b ∈ v.freed ∨ ∃ n, b = (draw n).bytes := by
  unfold wipeKeystore at hb
  cases hold : v.files keystorePath with
  | none =>
      rw [hold] at hb
      exact Or.inl hb
  | some old =>
      obtain ⟨hopen, hmalloc, hwritten⟩ := hshred old hold
      have hsize := (draw old.length).size
      have hwhole : overwritten o (draw old.length).bytes old = (draw old.length).bytes :=
        overwritten_of_whole hopen hmalloc (by omega) (by omega)
      simp only [hold] at hb
      split_ifs at hb
      · rw [freed_destroy, hwhole] at hb
        split_ifs at hb
        · rcases List.mem_cons.mp hb with rfl | hb
          · exact Or.inr ⟨_, rfl⟩
          · exact Or.inl hb
        · exact Or.inl hb
      · exact Or.inl hb

/-- What the master key leaves on the volume. -/
theorem freed_wipeMaster
    (hshred : ∀ old, v.files keystoreMasterPath = some old →
      m.fopen = true ∧ 256 ≤ m.written ∧ old.length ≤ 256)
    {b : Bytes}
    (hb : b ∈ (wipeMaster m draw v).freed) :
    b ∈ v.freed ∨ ∃ n, b = (draw n).bytes := by
  unfold wipeMaster at hb
  cases hold : v.files keystoreMasterPath with
  | none =>
      rw [hold] at hb
      exact Or.inl hb
  | some old =>
      obtain ⟨hopen, hwritten, hshort⟩ := hshred old hold
      have hsize := (draw 256).size
      have hwhole : overwritten { m with malloc := true } (draw 256).bytes old =
          (draw 256).bytes :=
        overwritten_of_whole hopen rfl (by rw [hsize]; exact hwritten) (by omega)
      simp only [hold] at hb
      split_ifs at hb
      · rw [freed_destroy, hwhole] at hb
        split_ifs at hb
        · rcases List.mem_cons.mp hb with rfl | hb
          · exact Or.inr ⟨_, rfl⟩
          · exact Or.inl hb
        · exact Or.inl hb
      · exact Or.inl hb

end Wiping

section Main

/-- The keystore of a system that never had one. -/
def noKeystore : FileSystem := fun _ => none

theorem sameKeystore_of_gone
    {fs : FileSystem}
    (h : Gone fs) :
    SameKeystore fs noKeystore :=
  ⟨h.keystore, h.master⟩

theorem gone_wipe_iff
    {o m : DestroyOutcome} {draw draw' : (n : Nat) → Block n} {v : Volume} :
    Gone (keystoreEmergencyWipe o m draw draw' v).2.files ↔ Completes o m v.files := by
  have hkeystore : (wipeMaster m draw' (wipeKeystore o draw v)).files keystorePath =
      (wipeKeystore o draw v).files keystorePath :=
    wipeMaster_of_ne paths_ne
  have hmaster : (wipeKeystore o draw v).files keystoreMasterPath =
      v.files keystoreMasterPath :=
    wipeKeystore_of_ne paths_ne.symm
  constructor
  · rintro ⟨hgone, hgone'⟩
    change ((wipeMaster m draw' (wipeKeystore o draw v)).files keystorePath).getD [] = [] at hgone
    rw [hkeystore] at hgone
    exact ⟨wipeKeystore_gone_iff.mp hgone, hmaster ▸ wipeMaster_gone_iff.mp hgone'⟩
  · rintro ⟨hdone, hdone'⟩
    refine ⟨?_, wipeMaster_gone_iff.mpr (hmaster ▸ hdone')⟩
    change ((wipeMaster m draw' (wipeKeystore o draw v)).files keystorePath).getD [] = []
    rw [hkeystore]
    exact wipeKeystore_gone_iff.mpr hdone

/--
**What an emergency wipe destroys.**

Whatever fails, 0 is returned and no file outside the keystore changes.  Both files are gone,
an empty keystore file counting as gone, exactly when each other one that was there was found
and unlinked; from then on every list of uses of the keystore, by whomever and under whatever
passwords, is answered as if there had never been one.  Where the files were overwritten to
their end, the contents that the wipe has unlinked are random bytes.
-/
theorem emergency_wipe_forgets
    (na : Sodium) (o m : DestroyOutcome) (draw draw' : (n : Nat) → Block n) (v : Volume) :
    (keystoreEmergencyWipe o m draw draw' v).1 = 0 ∧
      (∀ p, p ≠ keystorePath → p ≠ keystoreMasterPath →
        (keystoreEmergencyWipe o m draw draw' v).2.files p = v.files p) ∧
      (Gone (keystoreEmergencyWipe o m draw draw' v).2.files ↔ Completes o m v.files) ∧
      (Completes o m v.files → ∀ calls,
        answers (keystorePerform na) (keystoreEmergencyWipe o m draw draw' v).2.files calls =
          answers (keystorePerform na) noKeystore calls) ∧
      (Shreds o m v.files → ∀ b ∈ (keystoreEmergencyWipe o m draw draw' v).2.freed,
        b ∈ v.freed ∨ ∃ n, b = (draw n).bytes ∨ b = (draw' n).bytes) := by
  refine ⟨rfl, fun p hp hp' => ?_, gone_wipe_iff, fun hdone calls => ?_, fun hshred b hb => ?_⟩
  · change (wipeMaster m draw' (wipeKeystore o draw v)).files p = v.files p
    rw [wipeMaster_of_ne hp', wipeKeystore_of_ne hp]
  · exact answers_eq_of_matches (keystore_matches na) (fun _ _ => trivial)
      (sameKeystore_of_gone (gone_wipe_iff.mpr hdone))
  · have hmaster : (wipeKeystore o draw v).files keystoreMasterPath =
        v.files keystoreMasterPath :=
      wipeKeystore_of_ne paths_ne.symm
    rcases freed_wipeMaster (hmaster ▸ hshred.master) hb with hb | ⟨n, rfl⟩
    · rcases freed_wipeKeystore hshred.keystore hb with hb | ⟨n, rfl⟩
      · exact Or.inl hb
      · exact Or.inr ⟨n, Or.inl rfl⟩
    · exact Or.inr ⟨n, Or.inr rfl⟩

/-- The master password of a user. -/
def wipedPw : CString := cstr (ascii "correct horse battery")

/-- A key that is stored. -/
def wipedKey : StoreRequest where
  name := cstr (ascii "disk")
  type := .container
  keyData := [7, 7]
  salt := Block.zero 16
  nonce := Block.zero 24
  time := 0

/-- Its keystore. -/
def usedVolume : Volume where
  files := stateAfter (keystorePerform mirror) noKeystore
    [.masterSetup .ok (Block.zero 16) wipedPw, .store .ok wipedKey wipedPw]
  freed := []

/-- Where memory runs out and the keystore cannot be unlinked, 0 is returned all the same, and
the key is there again as soon as the old password is set up. -/
example :
    answers (keystorePerform mirror)
        (keystoreEmergencyWipe ⟨true, true, false, 0, false⟩ ⟨true, true, true, 256, true⟩
          Block.zero Block.zero usedVolume).2.files
        [.masterSetup .ok (Block.zero 16) wipedPw, .retrieve .ok (cstr (ascii "disk")) wipedPw] =
      [.returned 0, .retrieved (some [7, 7])] := by
  decide +kernel

end Main

end KeyStorage
end SecureZ
