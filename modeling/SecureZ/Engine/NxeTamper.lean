import SecureZ.Engine.NxeBuilder

/-!
# What a protected `.nxe` file protects

The password authenticates the payload, the signature covers the payload and nothing
else, and the public key that verifies it comes from the same header.  Flags,
permissions and public key are therefore words that anybody can edit.

What holds is a statement about the payload: a file that was made without the secrets
and that keeps the protection the original had runs the original executable or does
not run.  A file that drops the protection, or brings a key of its own, runs anything.
-/

namespace SecureZ
namespace Nxe

open CLib
open CryptoCore

section Adversary

/-- The payload that the header of a file points to. -/
def filePayload (file : Bytes) : Bytes :=
  slice file (NxeHeader.ofBytes file).payloadOffset.toNat
    (NxeHeader.ofBytes file).payloadSize.toNat

/--
`file'` was made by somebody who saw `file` and knows neither the password nor the
secret key: its payload is an encryption under a key of the password only if salt,
nonce and payload are those of `file`, and its signature field is a signature over its
payload only if that payload is the one of `file`.
-/
structure MadeWithoutSecrets
    (na : Sodium) (password : Option CString) (pk : Option PublicKey)
    (file file' : Bytes) : Prop where
  ciphertext :
    ∀ pw key m,
      password = some pw →
      normalKey na pw (NxeHeader.ofBytes file').salt = some key →
      filePayload file' =
        cryptoEncryptBuffer na m (NxeHeader.ofBytes file').nonce key →
      (NxeHeader.ofBytes file').salt = (NxeHeader.ofBytes file).salt ∧
        (NxeHeader.ofBytes file').nonce = (NxeHeader.ofBytes file).nonce ∧
        filePayload file' = filePayload file
  signature :
    ∀ p s,
      pk = some p →
      MatchingKeys na s p →
      (NxeHeader.ofBytes file').signature =
        cryptoSignBuffer na (filePayload file') s →
      filePayload file' = filePayload file

/-- The file still asks for the protection: for decryption if there is a password,
otherwise for verification under the same public key. -/
def KeepsProtection
    (password : Option CString) (pk : Option PublicKey) (file' : Bytes) :
    Prop :=
  match password with
  | some _ => (NxeHeader.ofBytes file').hasFlag nxeFlagEncrypted = true
  | none =>
      (NxeHeader.ofBytes file').hasFlag nxeFlagSigned = true ∧
        pk = some (NxeHeader.ofBytes file').pubkey

/-- Full tamper evidence of a file built from `elf`: every other file that was made
without the secrets fails or runs `elf` with the flags and permissions of the file. -/
def TamperEvident
    (na : Sodium) (password : Option CString) (pk : Option PublicKey)
    (elf file : Bytes) : Prop :=
  ∀ file',
    file' ≠ file →
    MadeWithoutSecrets na password pk file file' →
    ∀ o,
      (∃ stop, nxeLoadAndExec na o file' password = .error (.failed stop))
        ∨
      ∃ hdr',
        nxeLoadAndExec na o file' password = .ok { header := hdr', memfd := elf } ∧
          hdr'.flags = (NxeHeader.ofBytes file).flags ∧
          hdr'.permissions = (NxeHeader.ofBytes file).permissions

end Adversary

section Payload

variable {na : Sodium} {o : LoadOutcome} {file : Bytes} {password : Option CString}

/-- A load that reaches `execve` went through every stage. -/
theorem nxeLoadAndExec_eq_ok
    {launch : Launch}
    (h : nxeLoadAndExec na o file password = .ok launch) :
    AcceptedHeader file launch.header ∧
      verifyStage na file launch.header = .ok () ∧
      decryptStage na o file password launch.header = .ok launch.memfd := by
  simp only [nxeLoadAndExec, bind_eq_ok_iff] at h
  obtain ⟨hdr, hchecked, _, hverify, elf, hdecrypt, hlaunch⟩ := h
  simp only [launchStage, bind_eq_ok_iff, require_eq_ok_iff, pure, Except.pure,
    Except.ok.injEq] at hlaunch
  obtain ⟨_, _, _, _, _, _, rfl⟩ := hlaunch
  exact ⟨acceptedHeader_of_checkedHeader hchecked, hverify, hdecrypt⟩

/-- Whatever the loader reads as payload is the payload of the file. -/
theorem readPayload_eq_filePayload
    {payload : Bytes}
    (h : readPayload file (NxeHeader.ofBytes file) = .ok payload) :
    payload = filePayload file :=
  (readPayload_eq_ok_iff.mp h).2

/-- The encrypted branch hands over the decryption of the payload. -/
theorem decryptStage_encrypted
    {hdr : NxeHeader} {pw : CString} {elf : Bytes}
    (hflag : hdr.hasFlag nxeFlagEncrypted = true)
    (h : decryptStage na o file (some pw) hdr = .ok elf) :
    ∃ key payload,
      normalKey na pw hdr.salt = some key ∧
        readPayload file hdr = .ok payload ∧
        cryptoDecryptBuffer na payload hdr.nonce key = some elf := by
  simp only [decryptStage, hflag, if_true, bind_eq_ok_iff, requireSome_eq_ok_iff,
    require_eq_ok_iff, Option.some.injEq] at h
  obtain ⟨_, rfl, _, _, key, hkey, _, _, payload, hread, hplain⟩ := h
  exact ⟨key, payload, hkey, hread, hplain⟩

/-- Without a password only the plain branch can succeed, and it copies the payload. -/
theorem decryptStage_no_password
    {hdr : NxeHeader} {elf : Bytes}
    (h : decryptStage na o file none hdr = .ok elf) :
    readPayload file hdr = .ok elf := by
  unfold decryptStage at h
  split_ifs at h
  · simp [bind_eq_ok_iff, requireSome_eq_ok_iff] at h
  · simp only [bind_eq_ok_iff] at h
    exact h.choose_spec.2

/-- The signed branch verified the payload. -/
theorem verifyStage_signed
    {hdr : NxeHeader} {u : Unit}
    (hflag : hdr.hasFlag nxeFlagSigned = true)
    (h : verifyStage na file hdr = .ok u) :
    ∃ payload,
      readPayload file hdr = .ok payload ∧
        cryptoVerifySignature na hdr.signature payload hdr.pubkey = true := by
  simp only [verifyStage, hflag, if_true, bind_eq_ok_iff, require_eq_ok_iff] at h
  exact h

end Payload

section Built

variable {na : Sodium} {elf payload : Bytes} {password : Option CString}
variable {sk : Option SecretKey} {pk : Option PublicKey} {flags : UInt32}
variable {hdr : NxeHeader}

/-- Read back from the file, the payload of a built file is what the builder wrote. -/
theorem filePayload_built
    (haead : AeadCorrect na)
    (h : Built na elf password sk pk flags hdr payload) :
    filePayload (hdr.toBytes ++ payload) = payload := by
  have hlength := length_payload haead h.payloadOf
  have helf := h.elfSize
  have hbuilt : builtSize password elf ≤ sizeofNxeHeader + elf.length + crypticMacLen := by
    unfold builtSize
    split_ifs <;> omega
  have hsmall : elfLimit + crypticMacLen < 2 ^ 32 := by decide
  have hread :
      readPayload (hdr.toBytes ++ payload)
        (NxeHeader.ofBytes (hdr.toBytes ++ payload)) = .ok payload := by
    rw [hdr.ofBytes_toBytes_append]
    exact readPayload_built h (by omega)
  exact (readPayload_eq_filePayload hread).symm

/-- With the password protection kept, what reaches `execve` is what was built. -/
theorem memfd_eq_of_encrypted
    {pw : CString} {file' : Bytes} {o : LoadOutcome} {launch : Launch}
    (haead : AeadIdeal na)
    (hbuilt : Built na elf (some pw) sk pk flags hdr payload)
    (hmade : MadeWithoutSecrets na (some pw) pk (hdr.toBytes ++ payload) file')
    (hflag : (NxeHeader.ofBytes file').hasFlag nxeFlagEncrypted = true)
    (hload : nxeLoadAndExec na o file' (some pw) = .ok launch) :
    launch.memfd = elf := by
  obtain ⟨haccepted, _, hdecrypt⟩ := nxeLoadAndExec_eq_ok hload
  rw [haccepted.parsed] at hdecrypt
  obtain ⟨key', payload', hkey', hread, hplain⟩ := decryptStage_encrypted hflag hdecrypt
  obtain rfl := readPayload_eq_filePayload hread
  have hcipher := haead.encrypt_of_decrypt _ _ _ _ hplain
  obtain ⟨hsalt, hnonce, hsame⟩ := hmade.ciphertext pw key' _ rfl hkey' hcipher
  rw [hdr.ofBytes_toBytes_append] at hsalt hnonce
  rw [filePayload_built haead.toAeadCorrect hbuilt] at hsame
  obtain ⟨key, hkey, hpayload⟩ := hbuilt.payloadOf
  rw [hsalt, hkey] at hkey'
  obtain rfl := Option.some.inj hkey'
  rw [hnonce, hsame, hpayload] at hplain
  have horiginal := haead.decrypt_encrypt elf hdr.nonce key
  exact Option.some.inj (hplain.symm.trans horiginal)

/-- With the signature kept under the same public key, what reaches `execve` is what
was built. -/
theorem memfd_eq_of_signed
    {p : PublicKey} {file' : Bytes} {o : LoadOutcome} {launch : Launch}
    (haead : AeadCorrect na)
    (hsign : SignIdeal na)
    (hbuilt : Built na elf none sk (some p) flags hdr payload)
    (hmade : MadeWithoutSecrets na none (some p) (hdr.toBytes ++ payload) file')
    (hflag : (NxeHeader.ofBytes file').hasFlag nxeFlagSigned = true)
    (hpubkey : (NxeHeader.ofBytes file').pubkey = p)
    (hload : nxeLoadAndExec na o file' none = .ok launch) :
    launch.memfd = elf := by
  obtain ⟨haccepted, hverify, hdecrypt⟩ := nxeLoadAndExec_eq_ok hload
  rw [haccepted.parsed] at hverify hdecrypt
  obtain ⟨payload', hread, hgood⟩ := verifyStage_signed hflag hverify
  have hmemfd := readPayload_eq_filePayload (decryptStage_no_password hdecrypt)
  obtain rfl := readPayload_eq_filePayload hread
  rw [hpubkey] at hgood
  obtain ⟨s, hmatch, hsignature⟩ := hsign _ _ _ hgood
  have hsame := hmade.signature p s rfl hmatch hsignature
  rw [filePayload_built haead hbuilt] at hsame
  obtain rfl : payload = elf := hbuilt.payloadOf
  rw [hmemfd, hsame]

end Built

section Edits

/-- A public key for the examples: `b` and then zeros. -/
def exampleKey (b : UInt8) : PublicKey :=
  Block.pad 32 [b]

/-- The password of the examples. -/
def examplePassword : CString :=
  cstr (ascii "k")

/-- The file that the builder writes, with the mirror primitives and a zero salt and
nonce, for the one-byte executable `b`. -/
def exampleFile
    (b : UInt8) (password : Option CString) (pk : Option PublicKey) :
    Bytes :=
  (nxeImage mirror .ok (Block.zero 16) (Block.zero 24) [b] password
    (pk.map fun p => Block.pad 64 p.bytes) pk 0 0).getD []

/-- A file with the permissions word of its header overwritten. -/
def withPermissions (file : Bytes) (permissions : UInt32) : Bytes :=
  file.take 140 ++ (u32Bytes permissions ++ file.drop 144)

/-- A file that shows, where a mirror signature shows the public key of its signer,
something else than `p`, was made without the key that matches `p`. -/
theorem madeWithoutSecrets_of_signature
    {password : Option CString} {p : PublicKey} {file file' : Bytes}
    (hshort : (filePayload file').length < crypticMacLen)
    (hsignature : (NxeHeader.ofBytes file').signature.bytes.take 32 ≠ p.bytes) :
    MadeWithoutSecrets mirror password (some p) file file' where
  ciphertext := by
    intro pw key m _ _ hcipher
    have hlength := mirror_aeadIdeal.length_encrypt m (NxeHeader.ofBytes file').nonce key
    rw [hcipher, cryptoEncryptBuffer, hlength] at hshort
    omega
  signature := by
    intro q s hq hmatch hsigned
    obtain rfl := Option.some.inj hq
    have hshown := mirror_take_of_matching hmatch (filePayload file')
    rw [hsigned] at hsignature
    exact absurd hshown hsignature

/-- Editing only header words that locate neither salt, nonce nor payload. -/
theorem madeWithoutSecrets_of_same
    {na : Sodium} {password : Option CString} {pk : Option PublicKey}
    {file file' : Bytes}
    (hsalt : (NxeHeader.ofBytes file').salt = (NxeHeader.ofBytes file).salt)
    (hnonce : (NxeHeader.ofBytes file').nonce = (NxeHeader.ofBytes file).nonce)
    (hpayload : filePayload file' = filePayload file) :
    MadeWithoutSecrets na password pk file file' where
  ciphertext := fun _ _ _ _ _ _ => ⟨hsalt, hnonce, hpayload⟩
  signature := fun _ _ _ _ _ => hpayload

/-- A load of an edited file that runs something else refutes tamper evidence. -/
theorem not_tamperEvident_of_launch
    {na : Sodium} {password : Option CString} {pk : Option PublicKey}
    {elf file file' memfd : Bytes}
    (hne : file' ≠ file)
    (hmade : MadeWithoutSecrets na password pk file file')
    (hload :
      nxeLoadAndExec na .ok file' password =
        .ok { header := NxeHeader.ofBytes file', memfd := memfd })
    (hother : memfd ≠ elf) :
    ¬ TamperEvident na password pk elf file := by
  intro h
  rcases h file' hne hmade .ok with ⟨stop, hfail⟩ | ⟨hdr', hrun, _⟩
  · rw [hload] at hfail
    cases hfail
  · rw [hload] at hrun
    exact hother (Launch.mk.inj (Except.ok.inj hrun)).2

/-- The file of the examples, encrypted and signed. -/
def exampleSealed : Bytes :=
  exampleFile 1 (some examplePassword) (some (exampleKey 7))

/-- Its copy with all permissions granted. -/
def exampleEdited : Bytes :=
  withPermissions exampleSealed 0xFFFFFFFF

theorem exampleEdited_made :
    MadeWithoutSecrets mirror (some examplePassword) (some (exampleKey 7))
      exampleSealed exampleEdited :=
  madeWithoutSecrets_of_same (by decide) (by decide) (by decide)

end Edits

end Nxe
end SecureZ
