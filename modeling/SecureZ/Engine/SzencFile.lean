import SecureZ.Engine.CryptoCore
import SecureZ.Lib.FileSystem
import SecureZ.Lib.Stream

/-!
# Encrypted files

`cryptic_encrypt_file` and `cryptic_decrypt_file` of `cryptic_engine.c`.  An
encrypted file is laid out as `[salt:16][nonce:24][ciphertext+mac]`; it is stored
under the path of the original with `.szenc` appended, and decrypting strips that
extension or, where there is none, appends `.dec`.

Every step that can fail for reasons outside the engine (opening, allocating,
reading, writing) has its outcome in a record that the functions take, so that they
are defined for every combination of outcomes.  Each function is cut where the first
change to the file system happens: what is written is computed first, and
`createFile` puts it on disk.
-/

namespace SecureZ
namespace SzencFile

open CLib
open CryptoCore

/-- `SZENC_HEADER_LEN`. -/
def szencHeaderLen : Nat :=
  crypticSaltLen + crypticNonceLen

/-- `SZENC_EXTENSION`. -/
def szencExtension : CString where
  bytes := ascii ".szenc"
  nulFree := by decide

/-- The extension that decryption appends when there is none to strip. -/
def decExtension : CString where
  bytes := ascii ".dec"
  nulFree := by decide

/-- Outcomes of the steps that read a file and prepare its new content. -/
structure ReadOutcome where
  fopen : Bool
  ftell : Bool
  mallocIn : Bool
  fread : Bool
  secureAlloc : Bool
  mallocOut : Bool
  mallocPath : Bool
deriving DecidableEq

/-- Every read and allocation succeeds. -/
def ReadOutcome.ok : ReadOutcome where
  fopen := true
  ftell := true
  mallocIn := true
  fread := true
  secureAlloc := true
  mallocOut := true
  mallocPath := true

section Encrypt

/-- The file that `cryptic_encrypt_file` is about to write. -/
def encryptedImage
    (na : Sodium) (r : ReadOutcome) (salt : Salt) (nonce : Nonce)
    (path password : CString) (fs : FileSystem) :
    Option Bytes := do
  guard r.fopen
  let content ← fs.readFile path
  guard (r.ftell ∧ content.length ≤ 2 ^ 30)
  guard r.mallocIn
  guard r.fread
  guard r.secureAlloc
  let key ← normalKey na password salt
  guard r.mallocOut
  guard r.mallocPath
  return salt.bytes ++ nonce.bytes ++ cryptoEncryptBuffer na content nonce key

/-- `cryptic_encrypt_file`, with the salt and the nonce that it draws. -/
def crypticEncryptFile
    (na : Sodium) (r : ReadOutcome) (w : WriteOutcome)
    (salt : Salt) (nonce : Nonce)
    (path password : CString) (fs : FileSystem) :
    Int × FileSystem :=
  match encryptedImage na r salt nonce path password fs with
  | none => (-1, fs)
  | some image => FileSystem.createFile w (path.append szencExtension) image fs

end Encrypt

section Decrypt

/-- Where `cryptic_decrypt_file` puts its output. -/
def decryptOutPath (path : CString) : CString :=
  let extLen := szencExtension.strlen
  if extLen < path.strlen ∧
      path.bytes.drop (path.strlen - extLen) = szencExtension.bytes then
    path.take (path.strlen - extLen)
  else
    path.append decExtension

/-- The plaintext that `cryptic_decrypt_file` is about to write. -/
def decryptedContent
    (na : Sodium) (r : ReadOutcome)
    (path password : CString) (fs : FileSystem) :
    Option Bytes := do
  guard r.fopen
  let content ← fs.readFile path
  guard (r.ftell ∧ szencHeaderLen + crypticMacLen ≤ content.length)
  guard r.fread
  let (salt, f) ← (Stream.fopen content).freadBlock crypticSaltLen
  let (nonce, f) ← f.freadBlock crypticNonceLen
  guard r.mallocIn
  let (ciphertext, _) ← f.freadExact (content.length - szencHeaderLen)
  guard r.secureAlloc
  let key ← normalKey na password salt
  guard r.mallocOut
  let plaintext ← cryptoDecryptBuffer na ciphertext nonce key
  guard r.mallocPath
  return plaintext

/-- `cryptic_decrypt_file`. -/
def crypticDecryptFile
    (na : Sodium) (r : ReadOutcome) (w : WriteOutcome)
    (path password : CString) (fs : FileSystem) :
    Int × FileSystem :=
  match decryptedContent na r path password fs with
  | none => (-1, fs)
  | some plaintext => FileSystem.createFile w (decryptOutPath path) plaintext fs

end Decrypt

end SzencFile
end SecureZ
