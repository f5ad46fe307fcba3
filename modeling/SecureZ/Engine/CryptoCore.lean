import SecureZ.Lib.CText

/-!
# The cryptographic core

`crypto_core.c` delegates every primitive to libsodium.  The library is not part of
the repository, so it is a parameter of the model, `Sodium`: one field for each
function that the engine calls.  What a result relies on is stated separately, as
properties of such a parameter that libsodium documents.

A key, a salt, a nonce, a signature and a hash have the fixed sizes of
`crypto_core.h`.  `crypto_pwhash` and `crypto_pwhash_str` may run out of memory.
-/

namespace SecureZ
namespace CryptoCore

open CLib

/-- `CRYPTIC_KEY_LEN`. -/
def crypticKeyLen : Nat := 32

/-- `CRYPTIC_SALT_LEN`. -/
def crypticSaltLen : Nat := 16

/-- `CRYPTIC_NONCE_LEN`. -/
def crypticNonceLen : Nat := 24

/-- `CRYPTIC_MAC_LEN`. -/
def crypticMacLen : Nat := 16

/-- `CRYPTIC_HASH_LEN`. -/
def crypticHashLen : Nat := 32

/-- `CRYPTIC_KDF_OPSLIMIT_NORMAL`. -/
def crypticKdfOpslimitNormal : Nat := 3

/-- `CRYPTIC_KDF_MEMLIMIT_NORMAL`. -/
def crypticKdfMemlimitNormal : Nat := 256 * 1024 * 1024

abbrev Key := Block crypticKeyLen
abbrev Salt := Block crypticSaltLen
abbrev Nonce := Block crypticNonceLen
abbrev Hash := Block crypticHashLen
abbrev Sig := Block 64
abbrev PublicKey := Block 32
abbrev SecretKey := Block 64

/-- The libsodium functions that the engine calls. -/
structure Sodium where
  /-- `crypto_pwhash` with Argon2id; none when memory runs out. -/
  pwhash : CString → Salt → Nat → Nat → Option Key
  /-- `crypto_aead_xchacha20poly1305_ietf_encrypt` without associated data. -/
  aeadEncrypt : Bytes → Nonce → Key → Bytes
  /-- `crypto_aead_xchacha20poly1305_ietf_decrypt`; none when it rejects. -/
  aeadDecrypt : Bytes → Nonce → Key → Option Bytes
  /-- `crypto_sign_ed25519_detached`. -/
  signDetached : Bytes → SecretKey → Sig
  /-- `crypto_sign_ed25519_verify_detached`. -/
  verifyDetached : Sig → Bytes → PublicKey → Bool
  /-- `crypto_generichash` with a 32-byte output. -/
  generichash : Bytes → Hash
  /-- `crypto_pwhash_str` with the salt it draws; none when memory runs out. -/
  pwhashStr : CString → Salt → Option CString
  /-- `crypto_pwhash_str_verify`. -/
  pwhashStrVerify : CString → CString → Bool

section Wrappers

variable (na : Sodium)

/-- `crypto_derive_key`. -/
def cryptoDeriveKey
    (password : CString) (salt : Salt) (opslimit memlimit : Nat) :
    Option Key :=
  na.pwhash password salt opslimit memlimit

/-- `crypto_encrypt_buffer`; the tag is appended to the ciphertext. -/
def cryptoEncryptBuffer
    (plaintext : Bytes) (nonce : Nonce) (key : Key) :
    Bytes :=
  na.aeadEncrypt plaintext nonce key

/-- `crypto_decrypt_buffer`. -/
def cryptoDecryptBuffer
    (ciphertext : Bytes) (nonce : Nonce) (key : Key) :
    Option Bytes :=
  na.aeadDecrypt ciphertext nonce key

/-- `crypto_sign_buffer`. -/
def cryptoSignBuffer
    (message : Bytes) (sk : SecretKey) :
    Sig :=
  na.signDetached message sk

/-- `crypto_verify_signature`. -/
def cryptoVerifySignature
    (sig : Sig) (message : Bytes) (pk : PublicKey) :
    Bool :=
  na.verifyDetached sig message pk

/-- `crypto_hash_buffer`. -/
def cryptoHashBuffer
    (data : Bytes) :
    Hash :=
  na.generichash data

/-- The key that every caller derives, with the normal Argon2id limits. -/
def normalKey
    (password : CString) (salt : Salt) :
    Option Key :=
  cryptoDeriveKey na password salt
    crypticKdfOpslimitNormal crypticKdfMemlimitNormal

end Wrappers

section Assumptions

/-- What libsodium documents of the cipher: it decrypts what it encrypted, and the
ciphertext is the message length plus the tag. -/
structure AeadCorrect (na : Sodium) : Prop where
  decrypt_encrypt :
    ∀ m nonce key,
      na.aeadDecrypt (na.aeadEncrypt m nonce key) nonce key = some m
  length_encrypt :
    ∀ m nonce key,
      (na.aeadEncrypt m nonce key).length = m.length + crypticMacLen

/-- The ideal cipher: moreover nothing but an encryption is accepted. -/
structure AeadIdeal (na : Sodium) : Prop extends AeadCorrect na where
  encrypt_of_decrypt :
    ∀ c nonce key m,
      na.aeadDecrypt c nonce key = some m →
      c = na.aeadEncrypt m nonce key

/-- A truncated ciphertext is rejected; a length of a message is a `size_t`. -/
def RejectsTruncation (na : Sodium) : Prop :=
  ∀ m nonce key n,
    m.length < 2 ^ 64 →
    n < (na.aeadEncrypt m nonce key).length →
    na.aeadDecrypt ((na.aeadEncrypt m nonce key).take n) nonce key = none

/-- What is encrypted under a key of one password is rejected under the key that the
other password derives with the same salt. -/
def KeysSeparate (na : Sodium) (pw pw' : CString) : Prop :=
  ∀ salt key key' m nonce,
    normalKey na pw salt = some key →
    normalKey na pw' salt = some key' →
    na.aeadDecrypt (na.aeadEncrypt m nonce key) nonce key' = none

/-- A public key verifies what the secret key signs. -/
def MatchingKeys (na : Sodium) (sk : SecretKey) (pk : PublicKey) : Prop :=
  ∀ m, na.verifyDetached (na.signDetached m sk) m pk = true

/-- The ideal signature: nothing is accepted but what a matching secret key signed. -/
def SignIdeal (na : Sodium) : Prop :=
  ∀ sig m pk,
    na.verifyDetached sig m pk = true →
    ∃ sk, MatchingKeys na sk pk ∧ sig = na.signDetached m sk

/-- A password hash string verifies its password, fits a `crypto_pwhash_STRBYTES`
buffer and is one line of text. -/
def PwhashStrCorrect (na : Sodium) : Prop :=
  ∀ pw salt h,
    na.pwhashStr pw salt = some h →
    na.pwhashStrVerify h pw = true ∧
      h.bytes.length < 128 ∧
      (10 : UInt8) ∉ h.bytes

/-- Ideal password hashing: a hash string is accepted for its password and for no other, it
is one line of text that fits a `crypto_pwhash_STRBYTES` buffer, and a hash string that is
cut off is accepted for nothing. -/
structure PwhashStrExact (na : Sodium) : Prop where
  verify_iff :
    ∀ pw salt h,
      na.pwhashStr pw salt = some h →
      ∀ q, na.pwhashStrVerify h q = true ↔ q = pw
  line :
    ∀ pw salt h,
      na.pwhashStr pw salt = some h →
      0 < h.strlen ∧ h.strlen < 128 ∧ (10 : UInt8) ∉ h.bytes
  cut :
    ∀ pw salt h n,
      na.pwhashStr pw salt = some h →
      n < h.strlen →
      ∀ q, na.pwhashStrVerify (h.take n) q = false

end Assumptions

section Mirror

/-- The tag of the mirror cipher: the start of the key and the length of the message. -/
def mirrorTag (key : Key) (length : Nat) : Bytes :=
  key.bytes.take 8 ++ leBytes 8 length

/-- The signature of the mirror scheme: the message and half of the signing key. -/
def mirrorSig (m key : Bytes) : Sig :=
  Block.pad 64 ((Block.pad 32 key).bytes ++ m)

/--
A concrete instance in which the assumptions hold and the model can be evaluated:
the key is the padded password, the cipher puts a tag in front of the message, a secret
key signs for the public key that it starts with, and a password is its own hash
when it is one short line.
-/
def mirror : Sodium where
  pwhash := fun pw _ _ _ => some (Block.pad crypticKeyLen pw.bytes)
  aeadEncrypt := fun m _ key => mirrorTag key m.length ++ m
  aeadDecrypt := fun c _ key =>
    if c.take crypticMacLen = mirrorTag key (c.length - crypticMacLen) then
      some (c.drop crypticMacLen)
    else none
  signDetached := fun m sk => mirrorSig m sk.bytes
  verifyDetached := fun sig m pk => sig = mirrorSig m pk.bytes
  generichash := fun data => Block.pad crypticHashLen data
  pwhashStr := fun pw _ =>
    if pw.bytes.length < 128 ∧ (10 : UInt8) ∉ pw.bytes then some pw else none
  pwhashStrVerify := fun h pw => h = pw

theorem length_mirrorTag
    (key : Key) (length : Nat) :
    (mirrorTag key length).length = crypticMacLen := by
  simp [mirrorTag, key.size, crypticMacLen, crypticKeyLen]

theorem mirror_aeadIdeal : AeadIdeal mirror where
  decrypt_encrypt := by
    intro m nonce key
    have htag := length_mirrorTag key m.length
    have htake : (mirrorTag key m.length ++ m).take crypticMacLen =
        mirrorTag key m.length :=
      List.take_left' htag
    have hdrop : (mirrorTag key m.length ++ m).drop crypticMacLen = m :=
      List.drop_left' htag
    simp [mirror, htag, htake, hdrop]
  length_encrypt := by
    intro m nonce key
    simp [mirror, length_mirrorTag, Nat.add_comm]
  encrypt_of_decrypt := by
    intro c nonce key m h
    simp only [mirror] at h ⊢
    split_ifs at h with htag
    obtain rfl := Option.some.inj h
    rw [List.length_drop, ← htag, List.take_append_drop]

/-- A truncated mirror ciphertext carries the wrong length. -/
theorem mirror_rejectsTruncation : RejectsTruncation mirror := by
  intro m nonce key n hm hn
  have htag := length_mirrorTag key m.length
  simp only [mirror, List.length_append, htag] at hn ⊢
  rw [if_neg]
  intro h
  have hlen := congrArg List.length h
  simp only [List.length_take, List.length_append, htag, length_mirrorTag] at hlen
  rw [List.take_take, Nat.min_eq_left (by omega), List.take_left' htag] at h
  simp only [List.length_take, List.length_append, htag] at h
  have hfield := congrArg leNat (List.append_cancel_left h)
  rw [leNat_leBytes_of_lt (by omega), leNat_leBytes_of_lt (by omega)] at hfield
  omega

theorem mirror_pwhashStrCorrect : PwhashStrCorrect mirror := by
  intro pw salt h hstr
  simp only [mirror] at hstr ⊢
  split_ifs at hstr with hline
  obtain rfl := Option.some.inj hstr
  simp [hline]

/-- The mark that ends the hash strings of `markedMirror`. -/
def hashMark : CString where
  bytes := ascii "$"
  nulFree := by decide

/-- The mirror with an end mark on its hash strings, so that one that is cut off shows. -/
def markedMirror : Sodium :=
  { mirror with
    pwhashStr := fun pw _ =>
      if pw.strlen < 127 ∧ (10 : UInt8) ∉ pw.bytes ∧ (36 : UInt8) ∉ pw.bytes then
        some (pw.append hashMark)
      else none
    pwhashStrVerify := fun h pw => h = pw.append hashMark }

theorem markedMirror_pwhashStr
    {pw h : CString} {salt : Salt}
    (hstr : markedMirror.pwhashStr pw salt = some h) :
    h = pw.append hashMark ∧ pw.strlen < 127 ∧ (10 : UInt8) ∉ pw.bytes ∧
      (36 : UInt8) ∉ pw.bytes := by
  simp only [markedMirror] at hstr
  split_ifs at hstr with hline
  exact ⟨(Option.some.inj hstr).symm, hline⟩

theorem markedMirror_pwhashStrExact : PwhashStrExact markedMirror where
  verify_iff := by
    intro pw salt h hstr q
    obtain ⟨rfl, -⟩ := markedMirror_pwhashStr hstr
    simp only [markedMirror, decide_eq_true_eq]
    constructor
    · intro heq
      have hbytes := congrArg CString.bytes heq
      exact CString.ext (List.append_cancel_right hbytes).symm
    · rintro rfl
      rfl
  line := by
    intro pw salt h hstr
    obtain ⟨rfl, hlen, hnl, -⟩ := markedMirror_pwhashStr hstr
    have hmark : hashMark.bytes.length = 1 := rfl
    simp only [CString.strlen] at hlen
    refine ⟨?_, ?_, ?_⟩
    · simp only [CString.append, CString.strlen, List.length_append]
      omega
    · simp only [CString.append, CString.strlen, List.length_append]
      omega
    · simpa [CString.append, hnl] using (by decide : (10 : UInt8) ∉ hashMark.bytes)
  cut := by
    intro pw salt h n hstr hn q
    obtain ⟨rfl, -, -, hmark⟩ := markedMirror_pwhashStr hstr
    have hlen : hashMark.bytes.length = 1 := rfl
    simp only [CString.append, CString.strlen, List.length_append] at hn
    simp only [markedMirror, decide_eq_false_iff_not]
    intro heq
    have hbytes := congrArg CString.bytes heq
    simp only [CString.take, CString.append] at hbytes
    rw [List.take_append_of_le_length (by omega)] at hbytes
    have hmem : (36 : UInt8) ∈ q.bytes ++ hashMark.bytes :=
      List.mem_append_right _ (by decide)
    rw [← hbytes] at hmem
    exact hmark (List.mem_of_mem_take hmem)

/-- A secret key that starts with the public key matches it. -/
theorem mirror_matchingKeys
    (pk : PublicKey) :
    MatchingKeys mirror (Block.pad 64 pk.bytes) pk := by
  intro m
  have hlong : pk.bytes.take 64 = pk.bytes :=
    List.take_of_length_le (by rw [pk.size]; omega)
  have hshort : pk.bytes.take 32 = pk.bytes :=
    List.take_of_length_le (by rw [pk.size])
  simp [mirror, mirrorSig, Block.pad, pk.size, hlong, hshort]

theorem mirror_signIdeal : SignIdeal mirror := by
  intro sig m pk hverify
  have hmatch := mirror_matchingKeys pk
  have hsig : sig = mirrorSig m pk.bytes := by
    simpa [mirror] using hverify
  have hsame : mirrorSig m (Block.pad 64 pk.bytes).bytes = mirrorSig m pk.bytes := by
    simpa [mirror] using hmatch m
  exact ⟨Block.pad 64 pk.bytes, hmatch, hsig.trans hsame.symm⟩

/-- A mirror signature shows the public key of the signer. -/
theorem mirror_take_of_matching
    {sk : SecretKey} {pk : PublicKey}
    (hmatch : MatchingKeys mirror sk pk) (m : Bytes) :
    (mirror.signDetached m sk).bytes.take 32 = pk.bytes := by
  have hsame : mirror.signDetached m sk = mirrorSig m pk.bytes := by
    simpa [mirror] using hmatch m
  have hlong : (32 : Nat) ≤ 64 := by decide
  rw [hsame]
  simp [mirrorSig, Block.pad, pk.size, List.take_append, List.take_take, hlong]

end Mirror

end CryptoCore
end SecureZ
