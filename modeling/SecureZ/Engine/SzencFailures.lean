import SecureZ.Engine.SzencRoundTrip

/-!
# When encrypting or decrypting a file fails

Both functions open their output for writing before they know that it can be written,
unlink it when a write fails, and do not look at the result of closing it.  Whatever was
at the output path is gone by then; for a decryption that is usually the user's original
file.

The results here are about every combination of outcomes of the steps.  The property that
a failed call keeps every file, and a successful one leaves complete output, is reduced to
the same property of `createFile`.
-/

namespace SecureZ
namespace SzencFile

open CLib
open CryptoCore

section Specification

/-- A call of `cryptic_encrypt_file` keeps every file when it returns -1, and has put salt,
nonce and ciphertext at the output path when it returns 0. -/
structure EncryptKeepsFiles
    (na : Sodium) (r : ReadOutcome) (w : FlushOutcome) (salt : Salt) (nonce : Nonce)
    (path password : CString) (fs : FileSystem) : Prop where
  failed :
    (crypticEncryptFile na r w.toWrite salt nonce path password fs).1 = -1 →
    ∀ p old,
      fs p = some old →
      (crypticEncryptFile na r w.toWrite salt nonce path password fs).2 p = some old
  complete :
    (crypticEncryptFile na r w.toWrite salt nonce path password fs).1 = 0 →
    ∃ content key,
      fs.readFile path = some content ∧
        normalKey na password salt = some key ∧
        (crypticEncryptFile na r w.toWrite salt nonce path password fs).2
            (path.append szencExtension) =
          some (salt.bytes ++ nonce.bytes ++ cryptoEncryptBuffer na content nonce key)

/-- The file at `path` opens with the password to `m`: it is salt, nonce and ciphertext. -/
def OpensTo
    (na : Sodium) (path password : CString) (fs : FileSystem) (m : Bytes) : Prop :=
  ∃ (salt : Salt) (nonce : Nonce) (c : Bytes) (key : Key),
    fs.readFile path = some (salt.bytes ++ (nonce.bytes ++ c)) ∧
      crypticMacLen ≤ c.length ∧
      normalKey na password salt = some key ∧
      cryptoDecryptBuffer na c nonce key = some m

/-- A call of `cryptic_decrypt_file` keeps every file when it returns -1, and has put the
plaintext at the output path when it returns 0. -/
structure DecryptKeepsFiles
    (na : Sodium) (r : ReadOutcome) (w : FlushOutcome)
    (path password : CString) (fs : FileSystem) : Prop where
  failed :
    (crypticDecryptFile na r w.toWrite path password fs).1 = -1 →
    ∀ p old,
      fs p = some old →
      (crypticDecryptFile na r w.toWrite path password fs).2 p = some old
  complete :
    (crypticDecryptFile na r w.toWrite path password fs).1 = 0 →
    ∃ m,
      OpensTo na path password fs m ∧
        (crypticDecryptFile na r w.toWrite path password fs).2 (decryptOutPath path) = some m

/-- The steps before the output is opened all succeed: a file of at most one gigabyte is
there and a key is derived. -/
def EncryptReachesOutput
    (na : Sodium) (r : ReadOutcome) (salt : Salt) (path password : CString)
    (fs : FileSystem) : Prop :=
  r = .ok ∧
    (∃ content, fs.readFile path = some content ∧ content.length ≤ 2 ^ 30) ∧
    (normalKey na password salt).isSome

/-- The steps before the output is opened all succeed: the file opens to `m`. -/
def DecryptReachesOutput
    (na : Sodium) (r : ReadOutcome) (path password : CString) (fs : FileSystem) (m : Bytes) :
    Prop :=
  r = .ok ∧ OpensTo na path password fs m

end Specification

section Reaching

variable {na : Sodium} {r : ReadOutcome} {path password : CString} {fs : FileSystem}

/-- What `cryptic_encrypt_file` is about to write, and when it gets there. -/
theorem encryptedImage_eq_some_iff
    {salt : Salt} {nonce : Nonce} {image : Bytes} :
    encryptedImage na r salt nonce path password fs = some image
      ↔
    r = .ok ∧
      ∃ content key,
        fs.readFile path = some content ∧
          content.length ≤ 2 ^ 30 ∧
          normalKey na password salt = some key ∧
          image = salt.bytes ++ nonce.bytes ++ cryptoEncryptBuffer na content nonce key := by
  obtain ⟨fopen, ftell, mallocIn, fread, secureAlloc, mallocOut, mallocPath⟩ := r
  simp only [encryptedImage, ReadOutcome.ok, Option.bind_eq_bind, Option.bind_eq_some_iff,
    Option.guard_eq_some', Option.pure_def, Option.some.injEq, ReadOutcome.mk.injEq]
  constructor
  · rintro ⟨_, hopen, content, hread, _, ⟨htell, hlen⟩, _, hin, _, hfread, _, halloc, key, hkey,
      _, hout, _, hpath, rfl⟩
    exact ⟨⟨hopen, htell, hin, hfread, halloc, hout, hpath⟩, content, key, hread, hlen, hkey, rfl⟩
  · rintro ⟨⟨hopen, htell, hin, hfread, halloc, hout, hpath⟩, content, key, hread, hlen, hkey, rfl⟩
    exact ⟨(), hopen, content, hread, (), ⟨htell, hlen⟩, (), hin, (), hfread, (), halloc, key,
      hkey, (), hout, (), hpath, rfl⟩

/-- A decryption that gets to its output made every step before. -/
theorem outcome_ok_of_decryptedContent
    {m : Bytes}
    (h : decryptedContent na r path password fs = some m) :
    r = .ok := by
  obtain ⟨fopen, ftell, mallocIn, fread, secureAlloc, mallocOut, mallocPath⟩ := r
  simp only [decryptedContent, Option.bind_eq_bind, Option.bind_eq_some_iff,
    Option.guard_eq_some', Option.pure_def, Option.some.injEq] at h
  obtain ⟨_, hopen, _, _, _, ⟨htell, _⟩, _, hfread, _, _, _, _, _, hin, _, _, _, halloc, _, _,
    _, hout, _, _, _, hpath, _⟩ := h
  simp only [ReadOutcome.ok, ReadOutcome.mk.injEq]
  exact ⟨hopen, htell, hin, hfread, halloc, hout, hpath⟩

theorem decryptedContent_eq_some_iff_reaches
    {m : Bytes} :
    decryptedContent na r path password fs = some m
      ↔
    DecryptReachesOutput na r path password fs m := by
  constructor
  · intro h
    obtain rfl := outcome_ok_of_decryptedContent h
    cases hread : fs.readFile path with
    | none =>
        simp [decryptedContent, hread] at h
    | some file =>
        obtain ⟨salt, nonce, c, key, rfl, hmac, hkey, hm⟩ :=
          (decryptedContent_eq_some_iff hread).mp h
        exact ⟨rfl, salt, nonce, c, key, hread, hmac, hkey, hm⟩
  · rintro ⟨rfl, salt, nonce, c, key, hread, hmac, hkey, hm⟩
    exact (decryptedContent_eq_some_iff hread).mpr ⟨salt, nonce, c, key, rfl, hmac, hkey, hm⟩

end Reaching

section Failures

variable {na : Sodium} {r : ReadOutcome} {w : FlushOutcome} {path password : CString}
variable {fs : FileSystem}

/-- An encryption that does not get to its output changes nothing. -/
theorem encryptKeepsFiles_of_stops
    {salt : Salt} {nonce : Nonce}
    (h : encryptedImage na r salt nonce path password fs = none) :
    EncryptKeepsFiles na r w salt nonce path password fs := by
  have hresult :
      crypticEncryptFile na r w.toWrite salt nonce path password fs = (-1, fs) := by
    simp [crypticEncryptFile, h]
  constructor
  · rw [hresult]
    exact fun _ _ _ hold => hold
  · rw [hresult]
    intro hzero
    simp at hzero

/-- From its output on, an encryption is the creation of a file. -/
theorem encryptKeepsFiles_iff_creates
    {salt : Salt} {nonce : Nonce} {content : Bytes} {key : Key}
    (hread : fs.readFile path = some content)
    (hkey : normalKey na password salt = some key)
    (h :
      encryptedImage na r salt nonce path password fs =
        some (salt.bytes ++ nonce.bytes ++ cryptoEncryptBuffer na content nonce key)) :
    EncryptKeepsFiles na r w salt nonce path password fs
      ↔
    KeepsOutput w (fs (path.append szencExtension)) False := by
  have hresult :
      crypticEncryptFile na r w.toWrite salt nonce path password fs =
        FileSystem.createFile w.toWrite (path.append szencExtension)
          (salt.bytes ++ nonce.bytes ++ cryptoEncryptBuffer na content nonce key) fs := by
    simp [crypticEncryptFile, h]
  have hnonempty :
      salt.bytes ++ nonce.bytes ++ cryptoEncryptBuffer na content nonce key = [] ↔ False := by
    refine iff_false_intro fun hnil => ?_
    have hlen := congrArg List.length hnil
    simp [salt.size, crypticSaltLen] at hlen
  rw [← hnonempty, ← createFile_keepsFiles_iff w, ← hresult]
  constructor
  · rintro ⟨hfailed, hcomplete⟩
    refine ⟨hfailed, fun hzero => ?_⟩
    obtain ⟨content', key', hread', hkey', hout⟩ := hcomplete hzero
    rw [hread, Option.some.injEq] at hread'
    rw [hkey, Option.some.injEq] at hkey'
    rw [hout, hread', hkey']
  · rintro ⟨hfailed, hcomplete⟩
    exact ⟨hfailed, fun hzero => ⟨content, key, hread, hkey, hcomplete hzero⟩⟩

theorem encryptKeepsFiles_iff
    {salt : Salt} {nonce : Nonce} :
    EncryptKeepsFiles na r w salt nonce path password fs
      ↔
    (EncryptReachesOutput na r salt path password fs →
      KeepsOutput w (fs (path.append szencExtension)) False) := by
  cases himage : encryptedImage na r salt nonce path password fs with
  | none =>
      refine ⟨fun _ hreaches => ?_, fun _ => encryptKeepsFiles_of_stops himage⟩
      obtain ⟨hok, ⟨content, hread, hlen⟩, hsome⟩ := hreaches
      obtain ⟨key, hkey⟩ := Option.isSome_iff_exists.mp hsome
      have himage' :
          encryptedImage na r salt nonce path password fs =
            some (salt.bytes ++ nonce.bytes ++ cryptoEncryptBuffer na content nonce key) :=
        encryptedImage_eq_some_iff.mpr ⟨hok, content, key, hread, hlen, hkey, rfl⟩
      rw [himage] at himage'
      cases himage'
  | some image =>
      obtain ⟨hok, content, key, hread, hlen, hkey, rfl⟩ := encryptedImage_eq_some_iff.mp himage
      rw [encryptKeepsFiles_iff_creates hread hkey himage]
      have hreaches : EncryptReachesOutput na r salt path password fs :=
        ⟨hok, ⟨content, hread, hlen⟩, by simp [hkey]⟩
      exact ⟨fun h _ => h, fun h => h hreaches⟩

/-- A decryption that does not get to its output changes nothing. -/
theorem decryptKeepsFiles_of_stops
    (h : decryptedContent na r path password fs = none) :
    DecryptKeepsFiles na r w path password fs := by
  have hresult : crypticDecryptFile na r w.toWrite path password fs = (-1, fs) := by
    simp [crypticDecryptFile, h]
  constructor
  · rw [hresult]
    exact fun _ _ _ hold => hold
  · rw [hresult]
    intro hzero
    simp at hzero

theorem decryptKeepsFiles_iff :
    DecryptKeepsFiles na r w path password fs
      ↔
    ∀ m,
      DecryptReachesOutput na r path password fs m →
      KeepsOutput w (fs (decryptOutPath path)) (m = []) := by
  cases hcontent : decryptedContent na r path password fs with
  | none =>
      refine ⟨fun _ m hreaches => ?_, fun _ => decryptKeepsFiles_of_stops hcontent⟩
      rw [← decryptedContent_eq_some_iff_reaches, hcontent] at hreaches
      cases hreaches
  | some m =>
      have hresult :
          crypticDecryptFile na r w.toWrite path password fs =
            FileSystem.createFile w.toWrite (decryptOutPath path) m fs := by
        simp [crypticDecryptFile, hcontent]
      have hunique :
          ∀ m', DecryptReachesOutput na r path password fs m' → m' = m := by
        intro m' hreaches
        rw [← decryptedContent_eq_some_iff_reaches, hcontent, Option.some.injEq] at hreaches
        exact hreaches.symm
      have hreaches := decryptedContent_eq_some_iff_reaches.mp hcontent
      have hcreates :
          DecryptKeepsFiles na r w path password fs
            ↔
          KeepsOutput w (fs (decryptOutPath path)) (m = []) := by
        rw [← createFile_keepsFiles_iff w, ← hresult]
        constructor
        · rintro ⟨hfailed, hcomplete⟩
          refine ⟨hfailed, fun hzero => ?_⟩
          obtain ⟨m', hopens, hout⟩ := hcomplete hzero
          rw [hout, hunique m' ⟨hreaches.1, hopens⟩]
        · rintro ⟨hfailed, hcomplete⟩
          exact ⟨hfailed, fun hzero => ⟨m, hreaches.2, hcomplete hzero⟩⟩
      rw [hcreates]
      constructor
      · intro hkeeps m' hm'
        rwa [hunique m' hm']
      · exact fun h => h m hreaches

end Failures

/--
**Failing and succeeding.**

A call that returns -1 keeps every file and a call that returns 0 leaves complete output,
exactly when the call either stops before its output, or creates the output under outcomes
that keep it: it is not opened, or written and closed without loss, or a write fails where
no file was.
-/
theorem szenc_keeps_files_iff
    (na : Sodium) (r : ReadOutcome) (w : FlushOutcome) (salt : Salt) (nonce : Nonce)
    (path password : CString) (fs : FileSystem) :
    (EncryptKeepsFiles na r w salt nonce path password fs
        ↔
      (EncryptReachesOutput na r salt path password fs →
        KeepsOutput w (fs (path.append szencExtension)) False))
      ∧
    (DecryptKeepsFiles na r w path password fs
        ↔
      ∀ m,
        DecryptReachesOutput na r path password fs m →
        KeepsOutput w (fs (decryptOutPath path)) (m = [])) :=
  ⟨encryptKeepsFiles_iff, decryptKeepsFiles_iff⟩

section Examples

/-- The path `a`, and the password `k`. -/
def pathA : CString := cstr (ascii "a")

def passwordK : CString := cstr (ascii "k")

/-- The file `a` with the one byte 7, encrypted to `a.szenc`. -/
def sealedA : FileSystem :=
  (crypticEncryptFile mirror .ok .ok (Block.zero 16) (Block.zero 24) pathA passwordK
    (FileSystem.writeFile (fun _ => none) pathA [7])).2

/-- The disk is full: the output is opened, no byte is written, and it is unlinked. -/
def diskFull : FlushOutcome := { FlushOutcome.complete with fwrite := false }

/-- With the disk full, decrypting `a.szenc` returns -1 and the file `a` is gone. -/
theorem full_disk_loses_original :
    sealedA pathA = some [7] ∧
      ¬ DecryptKeepsFiles mirror .ok diskFull (pathA.append szencExtension) passwordK
        sealedA := by
  have hbefore : sealedA pathA = some [7] := by decide +kernel
  refine ⟨hbefore, fun h => ?_⟩
  have hfails :
      (crypticDecryptFile mirror .ok diskFull.toWrite (pathA.append szencExtension) passwordK
        sealedA).1 = -1 := by
    decide +kernel
  have hgone :
      (crypticDecryptFile mirror .ok diskFull.toWrite (pathA.append szencExtension) passwordK
        sealedA).2 pathA = none := by
    decide +kernel
  have hkept := h.failed hfails pathA [7] hbefore
  rw [hgone] at hkept
  cases hkept

end Examples

end SzencFile
end SecureZ
