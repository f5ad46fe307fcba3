import SecureZ.Engine.SzencFile

/-!
# The encrypted file format round-trips and is accepted exactly

The format has a one-line meaning, `SealedFile`: the salt, the nonce and the
encryption of the content under the key that the password derives with that salt.
Encryption writes a sealed file, and decryption accepts exactly the sealed ones: its
length checks and offsets never reject one and never let another through.

All statements here are about runs in which every read, write and allocation
succeeds.
-/

namespace SecureZ
namespace SzencFile

open CLib
open CryptoCore

/-- `file` is `content` sealed under `password`. -/
def SealedFile
    (na : Sodium) (password : CString) (content file : Bytes) :
    Prop :=
  ∃ salt nonce key,
    normalKey na password salt = some key ∧
      file =
        salt.bytes ++ nonce.bytes ++
          cryptoEncryptBuffer na content nonce key

section Paths

/-- The extension that encryption appends is the one that decryption strips. -/
theorem decryptOutPath_append
    {path : CString}
    (hne : path.bytes ≠ []) :
    decryptOutPath (path.append szencExtension) = path := by
  have hpos : 0 < path.bytes.length := List.length_pos_iff.mpr hne
  have hstrip :
      (path.append szencExtension).strlen - szencExtension.strlen =
        path.bytes.length := by
    simp [CString.append, CString.strlen]
  have hlong :
      szencExtension.strlen < (path.append szencExtension).strlen := by
    simp only [CString.append, CString.strlen, List.length_append]
    omega
  unfold decryptOutPath
  simp only [hstrip]
  rw [if_pos ⟨hlong, by simp [CString.append]⟩]
  ext1
  simp [CString.append, CString.take]

end Paths

section Stages

variable {na : Sodium} {path password : CString} {fs : FileSystem}

/-- With every step succeeding, encryption prepares a sealed image of a file of up to
one gigabyte. -/
theorem encryptedImage_eq_some
    {salt : Salt} {nonce : Nonce} {image : Bytes}
    (h : encryptedImage na .ok salt nonce path password fs = some image) :
    ∃ content,
      fs.readFile path = some content ∧
        SealedFile na password content image := by
  simp only [encryptedImage, ReadOutcome.ok, Option.bind_eq_bind,
    Option.bind_eq_some_iff, Option.guard_eq_some', Option.pure_def,
    Option.some.injEq] at h
  obtain ⟨_, _, content, hread, _, _, _, _, _, _, _, _, key, hkey, _, _, _, _, rfl⟩ := h
  exact ⟨content, hread, salt, nonce, key, hkey, rfl⟩

/-- The three reads of decryption cut the file into salt, nonce and ciphertext. -/
theorem decryptedContent_eq_some_iff
    {file m : Bytes}
    (hread : fs.readFile path = some file) :
    decryptedContent na .ok path password fs = some m
      ↔
    ∃ (salt : Salt) (nonce : Nonce) (c : Bytes) (key : Key),
      file = salt.bytes ++ (nonce.bytes ++ c) ∧
        crypticMacLen ≤ c.length ∧
        normalKey na password salt = some key ∧
        cryptoDecryptBuffer na c nonce key = some m := by
  constructor
  · intro h
    simp only [decryptedContent, ReadOutcome.ok, hread, Option.bind_eq_bind,
      Option.bind_eq_some_iff, Option.guard_eq_some', Option.pure_def,
      Option.some.injEq] at h
    obtain ⟨_, _, _, rfl, _, hlen, _, _, ⟨salt, f₁⟩, hsalt, ⟨nonce, f₂⟩, hnonce,
      _, _, ⟨c, f₃⟩, hc, _, _, key, hkey, _, _, _, hm, _, _, rfl⟩ := h
    obtain ⟨hr₁, _⟩ := Stream.freadExact_eq_some (Stream.freadBlock_eq_some hsalt)
    obtain ⟨hr₂, _⟩ := Stream.freadExact_eq_some (Stream.freadBlock_eq_some hnonce)
    obtain ⟨hr₃, hclen, _⟩ := Stream.freadExact_eq_some hc
    rw [Stream.rest_fopen] at hr₁
    rw [hr₂, hr₃] at hr₁
    have htotal := congrArg List.length hr₁
    simp only [List.length_append, salt.size, nonce.size] at htotal
    have hheader : szencHeaderLen = crypticSaltLen + crypticNonceLen := rfl
    have htail : f₃.rest = [] :=
      List.eq_nil_of_length_eq_zero (by omega)
    rw [htail, List.append_nil] at hr₁
    exact ⟨salt, nonce, c, key, hr₁, by omega, hkey, hm⟩
  · rintro ⟨salt, nonce, c, key, rfl, hmac, hkey, hm⟩
    obtain ⟨f₁, hsalt, hr₁, _⟩ :=
      Stream.freadBlock_of_rest
        (Stream.rest_fopen (salt.bytes ++ (nonce.bytes ++ c)))
    obtain ⟨f₂, hnonce, hr₂, _⟩ := Stream.freadBlock_of_rest hr₁
    have hheader : szencHeaderLen = crypticSaltLen + crypticNonceLen := rfl
    have htotal :
        (salt.bytes ++ (nonce.bytes ++ c)).length =
          szencHeaderLen + c.length := by
      simp only [List.length_append, salt.size, nonce.size]
      omega
    have hall : f₂.rest = c ++ [] := by
      rw [hr₂, List.append_nil]
    obtain ⟨f₃, hc, _⟩ := Stream.freadExact_of_rest hall rfl
    simp only [decryptedContent, ReadOutcome.ok, hread,
      Option.bind_eq_bind, Option.bind_eq_some_iff, Option.guard_eq_some']
    refine ⟨(), trivial, _, rfl, (), ⟨trivial, by omega⟩, (), trivial,
      _, hsalt, _, hnonce, (), trivial, (c, f₃), ?_, (), trivial,
      key, hkey, (), trivial, m, hm, (), trivial, rfl⟩
    rw [htotal, Nat.add_sub_cancel_left]
    exact hc

end Stages

section Acceptance

variable {na : Sodium} {path password : CString} {fs : FileSystem}

/-- Decryption accepts exactly the sealed files, and returns what was sealed. -/
theorem decryptedContent_iff_sealed
    (hna : AeadIdeal na)
    {file m : Bytes}
    (hread : fs.readFile path = some file) :
    decryptedContent na .ok path password fs = some m
      ↔
    SealedFile na password m file := by
  rw [decryptedContent_eq_some_iff hread]
  constructor
  · rintro ⟨salt, nonce, c, key, rfl, _, hkey, hm⟩
    have hc : c = cryptoEncryptBuffer na m nonce key :=
      hna.encrypt_of_decrypt c nonce key m hm
    refine ⟨salt, nonce, key, hkey, ?_⟩
    rw [hc, List.append_assoc]
  · rintro ⟨salt, nonce, key, hkey, rfl⟩
    refine ⟨salt, nonce, cryptoEncryptBuffer na m nonce key, key, ?_, ?_, hkey, ?_⟩
    · rw [List.append_assoc]
    · rw [cryptoEncryptBuffer, hna.length_encrypt]
      omega
    · exact hna.decrypt_encrypt m nonce key

theorem crypticDecryptFile_of_sealed
    (hna : AeadIdeal na)
    {file m : Bytes}
    (hread : fs.readFile path = some file)
    (hsealed : SealedFile na password m file) :
    crypticDecryptFile na .ok .ok path password fs =
      (0, fs.writeFile (decryptOutPath path) m) := by
  have hm := (decryptedContent_iff_sealed hna hread).mpr hsealed
  simp [crypticDecryptFile, hm]

theorem crypticDecryptFile_of_not_sealed
    (hna : AeadIdeal na)
    {file : Bytes}
    (hread : fs.readFile path = some file)
    (hnot : ∀ m, ¬ SealedFile na password m file) :
    crypticDecryptFile na .ok .ok path password fs = (-1, fs) := by
  have hnone : decryptedContent na .ok path password fs = none := by
    cases h : decryptedContent na .ok path password fs with
    | none =>
        rfl
    | some m =>
        exact absurd ((decryptedContent_iff_sealed hna hread).mp h) (hnot m)
  simp [crypticDecryptFile, hnone]

/-- A successful encryption leaves the original alone and seals it next to it. -/
theorem crypticEncryptFile_ok
    {salt : Salt} {nonce : Nonce} {fs' : FileSystem}
    (h : crypticEncryptFile na .ok .ok salt nonce path password fs = (0, fs')) :
    ∃ content image,
      fs.readFile path = some content ∧
        SealedFile na password content image ∧
        fs' = fs.writeFile (path.append szencExtension) image := by
  unfold crypticEncryptFile at h
  cases himage : encryptedImage na .ok salt nonce path password fs with
  | none =>
      simp [himage] at h
  | some image =>
      obtain ⟨content, hread, hsealed⟩ := encryptedImage_eq_some himage
      simp only [himage, FileSystem.createFile_ok, Prod.mk.injEq, true_and] at h
      exact ⟨content, image, hread, hsealed, h.symm⟩

/-- Decryption returns 0 exactly for a file that is sealed, and its output is what was
sealed. -/
theorem crypticDecryptFile_eq_zero_iff
    (hna : AeadIdeal na)
    {file : Bytes} {fs' : FileSystem}
    (hread : fs.readFile path = some file) :
    crypticDecryptFile na .ok .ok path password fs = (0, fs')
      ↔
    ∃ m, SealedFile na password m file ∧ fs' = fs.writeFile (decryptOutPath path) m := by
  constructor
  · intro hdec
    by_cases hsealed : ∃ m, SealedFile na password m file
    · obtain ⟨m, hm⟩ := hsealed
      rw [crypticDecryptFile_of_sealed hna hread hm] at hdec
      exact ⟨m, hm, (Prod.mk.inj hdec).2.symm⟩
    · have hnot : ∀ m, ¬ SealedFile na password m file :=
        fun m hm => hsealed ⟨m, hm⟩
      rw [crypticDecryptFile_of_not_sealed hna hread hnot] at hdec
      simp at hdec
  · rintro ⟨m, hm, rfl⟩
    exact crypticDecryptFile_of_sealed hna hread hm

end Acceptance

/--
**The encrypted file format.**

What encryption stored under a path is decrypted, under the same password, to exactly
the original bytes at the original path, and no other file changes: at once and from every
later state of the files that keeps the encrypted one, whatever became of the original.
A file is accepted exactly if it is sealed, the output then holds what was sealed, and any
other file is refused with nothing created or changed.
-/
theorem szenc_roundtrip_and_exact
    (na : Sodium)
    (hna : AeadIdeal na) :
    (∀ (fs fs' : FileSystem) (path password : CString)
        (salt : Salt) (nonce : Nonce) (content : Bytes),
      fs path = some content →
      content.length ≤ 2 ^ 30 →
      crypticEncryptFile na .ok .ok salt nonce path password fs = (0, fs') →
      ∀ later : FileSystem,
        later (path.append szencExtension) = fs' (path.append szencExtension) →
        ∃ later',
          crypticDecryptFile na .ok .ok
              (path.append szencExtension) password later = (0, later') ∧
            later' path = some content ∧
            ∀ other, other ≠ path → later' other = later other)
      ∧
    (∀ (fs : FileSystem) (path password : CString) (file : Bytes),
      fs.readFile path = some file →
      (∀ fs',
        crypticDecryptFile na .ok .ok path password fs = (0, fs')
          ↔
        ∃ m,
          SealedFile na password m file ∧
            fs' = fs.writeFile (decryptOutPath path) m)
        ∧
      ((∀ m, ¬ SealedFile na password m file) →
        crypticDecryptFile na .ok .ok path password fs = (-1, fs))) := by
  constructor
  · intro fs fs' path password salt nonce content hcontent _ henc later hkept
    obtain ⟨content', image, hread, hsealed, rfl⟩ := crypticEncryptFile_ok henc
    obtain ⟨hne, hsame⟩ := FileSystem.readFile_eq_some_iff.mp hread
    obtain rfl : content' = content :=
      Option.some.inj (hsame.symm.trans hcontent)
    have hpath : (path.append szencExtension).bytes ≠ [] := by
      simp [CString.append, hne]
    rw [FileSystem.writeFile_self] at hkept
    have hsealedRead : later.readFile (path.append szencExtension) = some image :=
      FileSystem.readFile_eq_some_iff.mpr ⟨hpath, hkept⟩
    refine ⟨_, crypticDecryptFile_of_sealed hna hsealedRead hsealed, ?_, ?_⟩
    · rw [decryptOutPath_append hne]
      simp
    · intro other hother
      rw [decryptOutPath_append hne]
      exact FileSystem.writeFile_of_ne _ _ hother
  · intro fs path password file hread
    exact ⟨fun fs' => crypticDecryptFile_eq_zero_iff hna hread,
      crypticDecryptFile_of_not_sealed hna hread⟩

/-- The file `a` of three bytes is encrypted under the password `k` and removed; decryption
puts it back. -/
theorem szenc_roundtrip_removed_file :
    ∃ (fs' later' : FileSystem),
      crypticEncryptFile mirror .ok .ok (Block.zero 16) (Block.zero 24)
          (cstr (ascii "a")) (cstr (ascii "k"))
          (FileSystem.writeFile (fun _ => none) (cstr (ascii "a")) [1, 0, 7]) = (0, fs') ∧
        fs'.unlink (cstr (ascii "a")) (cstr (ascii "a")) = none ∧
        crypticDecryptFile mirror .ok .ok
          ((cstr (ascii "a")).append szencExtension) (cstr (ascii "k"))
          (fs'.unlink (cstr (ascii "a"))) = (0, later') ∧
        later' (cstr (ascii "a")) = some [1, 0, 7] := by
  have hother : (cstr (ascii "a")).append szencExtension ≠ cstr (ascii "a") := by decide
  obtain ⟨fs', henc⟩ :
      ∃ fs',
        crypticEncryptFile mirror .ok .ok (Block.zero 16) (Block.zero 24)
          (cstr (ascii "a")) (cstr (ascii "k"))
          (FileSystem.writeFile (fun _ => none) (cstr (ascii "a")) [1, 0, 7]) = (0, fs') :=
    ⟨_, Prod.ext rfl rfl⟩
  have hkept :
      fs'.unlink (cstr (ascii "a")) ((cstr (ascii "a")).append szencExtension) =
        fs' ((cstr (ascii "a")).append szencExtension) := by
    simp [FileSystem.unlink, hother]
  obtain ⟨later', hdec, hout, _⟩ :=
    (szenc_roundtrip_and_exact mirror mirror_aeadIdeal).1
      _ _ _ _ _ _ [1, 0, 7] (FileSystem.writeFile_self ..) (by decide) henc _ hkept
  exact ⟨fs', later', henc, by simp [FileSystem.unlink], hdec, hout⟩

end SzencFile
end SecureZ
