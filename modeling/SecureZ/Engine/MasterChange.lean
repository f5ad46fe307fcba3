import SecureZ.Engine.KeyStorageLog

/-!
# Changing the master password

`keystore_master_change` replaces the hash of the master password and leaves the log of
keys as it is.  Every key stays wrapped under the key that the old password derives,
so the new password verifies and then unwraps nothing.

The main result says exactly when a change keeps the stored keys: when there are none,
or when the new password is the old one (and every key is short enough to be retrieved
at all).
-/

namespace SecureZ
namespace KeyStorage

open CLib
open CryptoCore

section Master

variable {na : Sodium}

/-- The file that holds a password hash verifies the password. -/
theorem keystoreMasterVerify_of_hash
    {password hash : CString} {salt : Salt} {fs : FileSystem}
    (hhash : PwhashStrCorrect na)
    (hstr : na.pwhashStr password salt = some hash)
    (hfile : fs keystoreMasterPath = some (hash.bytes ++ [10])) :
    keystoreMasterVerify na password fs = true := by
  obtain ⟨hverify, hlen, hnl⟩ := hhash password salt hash hstr
  have hread : fs.readFile keystoreMasterPath = some (hash.bytes ++ [10]) :=
    FileSystem.readFile_eq_some_iff.mpr ⟨by decide, hfile⟩
  have hnul : (0 : UInt8) ∉ fgetsLine 127 (hash.bytes ++ [10]) := by
    intro h
    have hmem := (fgetsLine_prefix_input 127 (hash.bytes ++ [10])).subset h
    simp [hash.nulFree] at hmem
  have hstrip : stripNewline (fgetsLine 127 (hash.bytes ++ [10])) = hash.bytes :=
    stripNewline_fgetsLine hnl (by omega)
  have hgets :
      fgets pwhashStrbytes (hash.bytes ++ [10]) =
        some (fgetsLine 127 (hash.bytes ++ [10]),
          (hash.bytes ++ [10]).drop (fgetsLine 127 (hash.bytes ++ [10])).length) := by
    cases hash.bytes <;> rfl
  simp only [keystoreMasterVerify, hread, hgets, cstr_bytes_of_nulFree hnul, hstrip,
    cstr_bytes, hverify]

/-- A successful setup hashed the password into the master file. -/
theorem keystoreMasterSetup_ok
    {hashSalt : Salt} {password : CString} {fs fs' : FileSystem}
    (h : keystoreMasterSetup na .ok hashSalt password fs = (0, fs')) :
    ∃ hash,
      na.pwhashStr password hashSalt = some hash ∧
        fs' = fs.writeFile keystoreMasterPath (hash.bytes ++ [10]) := by
  unfold keystoreMasterSetup at h
  split_ifs at h with hlong hsome hopen
  · simp at h
  · simp at h
  · cases hstr : na.pwhashStr password hashSalt with
    | none =>
        simp [hstr] at h
    | some hash =>
        simp only [hstr, WriteOutcome.ok, id_eq, Prod.mk.injEq, true_and] at h
        exact ⟨hash, rfl, h.symm⟩
  · simp [WriteOutcome.ok] at hopen

/-- What a successful change leaves: the hash of the new password, and nothing else is
touched. -/
theorem keystoreMasterChange_ok
    {hashSalt : Salt} {old new : CString} {fs fs' : FileSystem}
    (h : keystoreMasterChange na .ok hashSalt old new fs = (0, fs')) :
    ∃ hash,
      na.pwhashStr new hashSalt = some hash ∧
        fs' keystoreMasterPath = some (hash.bytes ++ [10]) ∧
        fs' keystorePath = fs keystorePath := by
  unfold keystoreMasterChange at h
  split_ifs at h with hverify hlong hunlink
  · simp at h
  · simp at h
  · obtain ⟨hash, hstr, rfl⟩ := keystoreMasterSetup_ok h
    refine ⟨hash, hstr, FileSystem.writeFile_self _ _ _, ?_⟩
    rw [FileSystem.writeFile_of_ne _ _ keystoreMasterPath_ne.symm]
    simp [FileSystem.unlink, keystoreMasterPath_ne.symm]
  · simp [WriteOutcome.ok] at hunlink

end Master

section Keys

variable {na : Sodium} {masterPw : CString} {reqs : List StoreRequest}
variable {entries : List Entry}

/-- A key too long for the length field is never retrieved: its ciphertext is read only
in part. -/
theorem keystoreRetrieve_too_long
    {pre post : List StoreRequest} {r : StoreRequest} {fs : FileSystem}
    (haead : AeadCorrect na)
    (htrunc : RejectsTruncation na)
    (hsealed : List.Forall₂ (SealedAs na masterPw) (pre ++ r :: post) entries)
    (hlog : fs keystorePath = some (logBytes entries))
    (hnames : ∀ q ∈ pre, q.name ≠ r.name)
    (hfits : ∀ q ∈ pre, KeyFits q)
    (hlong : ¬ KeyFits r)
    (hsize : r.keyData.length < 2 ^ 64)
    (hverify : keystoreMasterVerify na masterPw fs = true) :
    keystoreRetrieve na .ok r.name masterPw fs = none := by
  obtain ⟨pre', e, post', rfl, hpre, hre⟩ := sealed_split hsealed
  have hskip := skips_of_names haead hnames hfits hpre
  rw [keystoreRetrieve_found pre' hverify hlog hskip hre.name]
  obtain ⟨wrapKey, hkey, hcipher⟩ := hre.cipher
  have hcut : e.encLen < e.cipher.length := by
    have hframed : ¬ e.cipher.length < 2 ^ 32 :=
      fun h => hlong ((hre.framed_iff haead).mp h)
    have hmod : e.encLen < 2 ^ 32 := Nat.mod_lt _ (by decide)
    omega
  rw [hcipher] at hcut
  have hreject := htrunc r.keyData e.nonce wrapKey e.encLen hsize hcut
  rw [hkey, Option.bind_some, hcipher]
  split_ifs
  · rfl
  · exact hreject

/-- When every key of a run of stores is retrieved, every one fits. -/
theorem keyFits_of_retrieved
    {fs : FileSystem}
    (haead : AeadCorrect na)
    (htrunc : RejectsTruncation na)
    (hsealed : List.Forall₂ (SealedAs na masterPw) reqs entries)
    (hlog : fs keystorePath = some (logBytes entries))
    (hdistinct : (reqs.map StoreRequest.name).Nodup)
    (hsize : ∀ r ∈ reqs, r.keyData.length < 2 ^ 64)
    (hverify : keystoreMasterVerify na masterPw fs = true)
    (hgot : ∀ r ∈ reqs, keystoreRetrieve na .ok r.name masterPw fs ≠ none) :
    ∀ r ∈ reqs, KeyFits r := by
  by_contra hnot
  push Not at hnot
  obtain ⟨r₁, hr₁, hlong₁⟩ := hnot
  -- The first key that does not fit is the one that is not retrieved.
  have hfind : (reqs.find? fun r => decide (¬ KeyFits r)).isSome = true :=
    List.find?_isSome.mpr ⟨r₁, hr₁, by simpa using hlong₁⟩
  obtain ⟨r, hr⟩ := Option.isSome_iff_exists.mp hfind
  obtain ⟨hlong, pre, post, rfl, hpre⟩ := List.find?_eq_some_iff_append.mp hr
  exact hgot r (by simp)
    (keystoreRetrieve_too_long haead htrunc hsealed hlog (names_ne_of_distinct hdistinct)
      (fun q hq => by simpa using hpre q hq) (by simpa using hlong)
      (hsize r (by simp)) hverify)

/-- A key that fits is not retrieved under a password whose keys are separate. -/
theorem keystoreRetrieve_separate
    {post : List Entry} {new : CString} {r : StoreRequest} {e : Entry} {fs : FileSystem}
    (hsep : KeysSeparate na masterPw new)
    (hre : SealedAs na masterPw r e)
    (hframed : e.Framed)
    (hlog : fs keystorePath = some (logBytes (e :: post)))
    (hverify : keystoreMasterVerify na new fs = true) :
    keystoreRetrieve na .ok r.name new fs = none := by
  rw [keystoreRetrieve_found [] hverify hlog (by simp) hre.name]
  obtain ⟨wrapKey, hkey, hcipher⟩ := hre.cipher
  cases hnew : normalKey na new e.salt with
  | none =>
      rfl
  | some newKey =>
      have hreject := hsep e.salt wrapKey newKey r.keyData e.nonce hkey hnew
      rw [Option.bind_some, Entry.encLen_of_framed hframed, List.take_length, hcipher]
      split_ifs
      · rfl
      · exact hreject

end Keys

/-- A change of the master password that keeps the keys: every stored name is retrieved
under the new password afterwards with the key data that it was retrieved with under
the old password before. -/
def ChangeKeepsKeys
    (na : Sodium) (old new : CString) (reqs : List StoreRequest)
    (before after : FileSystem) : Prop :=
  ∀ r ∈ reqs,
    ∃ keyData,
      keystoreRetrieve na .ok r.name old before = some keyData ∧
        keystoreRetrieve na .ok r.name new after = some keyData

/--
**Changing the master password.**

After any run of successful stores into an empty keystore, a successful change keeps
the stored keys if and only if there are none, or the password is not changed and every
key was short enough for its length field.
-/
theorem change_keeps_keys_iff
    (na : Sodium)
    (haead : AeadCorrect na)
    (htrunc : RejectsTruncation na)
    (hhash : PwhashStrCorrect na)
    (old new : CString)
    (hsep : old ≠ new → KeysSeparate na old new)
    (fs before after : FileSystem)
    (hempty : (fs keystorePath).getD [] = [])
    (reqs : List StoreRequest)
    (hrun : Transition.run (storeStep na old) fs reqs = some before)
    (hdistinct : (reqs.map StoreRequest.name).Nodup)
    (hshort : ∀ r ∈ reqs, r.name.strlen < keystoreNameMax)
    (hsize : ∀ r ∈ reqs, r.keyData.length < 2 ^ 64)
    (hashSalt : Salt)
    (hchange : keystoreMasterChange na .ok hashSalt old new before = (0, after)) :
    ChangeKeepsKeys na old new reqs before after
      ↔
    reqs = [] ∨ (old = new ∧ ∀ r ∈ reqs, KeyFits r) := by
  obtain ⟨entries, hsealed, -, hfile⟩ := run_stores_empty hempty hshort hrun
  obtain ⟨hash, hstr, hnew, hkeep⟩ := keystoreMasterChange_ok hchange
  have hafter := keystoreMasterVerify_of_hash hhash hstr hnew
  rcases reqs with _ | ⟨r₀, reqs⟩
  · simp [ChangeKeepsKeys]
  obtain ⟨hverify, hcontent⟩ := hfile (by simp)
  rw [hcontent] at hkeep
  constructor
  · intro hkeeps
    have hgot :
        ∀ r ∈ r₀ :: reqs, keystoreRetrieve na .ok r.name old before ≠ none := by
      intro r hr hnone
      obtain ⟨keyData, hold, -⟩ := hkeeps r hr
      rw [hnone] at hold
      cases hold
    have hall : ∀ r ∈ r₀ :: reqs, KeyFits r :=
      keyFits_of_retrieved haead htrunc hsealed hcontent hdistinct hsize hverify hgot
    refine Or.inr ⟨?_, hall⟩
    by_contra hne
    obtain ⟨e, post, hre, -, rfl⟩ := List.forall₂_cons_left_iff.mp hsealed
    obtain ⟨keyData, -, hgot⟩ := hkeeps r₀ List.mem_cons_self
    rw [keystoreRetrieve_separate (hsep hne) hre
      ((hre.framed_iff haead).mpr (hall r₀ List.mem_cons_self)) hkeep hafter] at hgot
    cases hgot
  · rintro (hnil | ⟨rfl, hall⟩)
    · cases hnil
    intro r hr
    exact ⟨r.keyData,
      keystoreRetrieve_of_mem haead hsealed hdistinct hall hverify hcontent hr,
      keystoreRetrieve_of_mem haead hsealed hdistinct hall hafter hkeep hr⟩

section Examples

/-- A second master password. -/
def otherPw : CString :=
  cstr (ascii "fedcba9876543210")

theorem mirror_keysSeparate : KeysSeparate mirror examplePw otherPw := by
  intro salt key key' m nonce hkey hkey'
  have hold : key = Block.pad crypticKeyLen examplePw.bytes :=
    (Option.some.inj hkey).symm
  have hnew : key' = Block.pad crypticKeyLen otherPw.bytes :=
    (Option.some.inj hkey').symm
  subst hold hnew
  have htag := length_mirrorTag (Block.pad crypticKeyLen examplePw.bytes) m.length
  simp only [mirror, List.length_append, htag, Nat.add_sub_cancel_left]
  rw [if_neg]
  rw [List.take_left' htag, mirrorTag, mirrorTag]
  intro h
  exact absurd (List.append_inj_left h (by decide)) (by decide)

/-- With one key stored, changing the password to itself keeps the key, and changing it
to the other one does not. -/
theorem change_keeps_keys_one :
    ∃ before same other,
      Transition.run (storeStep mirror examplePw) exampleMaster [exampleStore 1] =
          some before ∧
        keystoreMasterChange mirror .ok (Block.zero 16) examplePw examplePw before =
          (0, same) ∧
        keystoreMasterChange mirror .ok (Block.zero 16) examplePw otherPw before =
          (0, other) ∧
        ChangeKeepsKeys mirror examplePw examplePw [exampleStore 1] before same ∧
        ¬ ChangeKeepsKeys mirror examplePw otherPw [exampleStore 1] before other := by
  have haead := mirror_aeadIdeal.toAeadCorrect
  refine ⟨_, _, _, rfl, rfl, rfl, ?_, ?_⟩
  · refine (change_keeps_keys_iff mirror haead mirror_rejectsTruncation
      mirror_pwhashStrCorrect examplePw examplePw (fun h => absurd rfl h)
      exampleMaster _ _ (by decide) _ rfl (by decide) (by decide) (by decide)
      (Block.zero 16) rfl).mpr (Or.inr ⟨rfl, by decide⟩)
  · refine fun hkeeps => absurd ((change_keeps_keys_iff mirror haead
      mirror_rejectsTruncation mirror_pwhashStrCorrect examplePw otherPw
      (fun _ => mirror_keysSeparate) exampleMaster _ _ (by decide) _ rfl (by decide)
      (by decide) (by decide) (Block.zero 16) rfl).mp hkeeps) (by decide)

/-- One key is stored and the password changed: it was retrieved before, and is not
retrieved after. -/
theorem change_loses_key :
    ∃ before after,
      Transition.run (storeStep mirror examplePw) exampleMaster [exampleStore 1] =
          some before ∧
        keystoreMasterChange mirror .ok (Block.zero 16) examplePw otherPw before =
          (0, after) ∧
        keystoreRetrieve mirror .ok (cstr [1]) examplePw before = some [1] ∧
        ¬ ChangeKeepsKeys mirror examplePw otherPw [exampleStore 1] before after := by
  refine ⟨_, _, rfl, rfl, by decide +kernel, ?_⟩
  intro hkeeps
  obtain ⟨keyData, -, hgot⟩ := hkeeps (exampleStore 1) (by simp)
  have hnone :
      keystoreRetrieve mirror .ok (cstr [1]) otherPw
        (keystoreMasterChange mirror .ok (Block.zero 16) examplePw otherPw
          (keystoreStore mirror .ok (exampleStore 1) examplePw exampleMaster).2).2 =
        none := by
    decide +kernel
  exact absurd (hgot.symm.trans hnone) (by simp)

end Examples

end KeyStorage
end SecureZ
