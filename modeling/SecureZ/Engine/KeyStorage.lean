import SecureZ.Engine.CryptoCore
import SecureZ.Lib.FileSystem
import SecureZ.Lib.Stream

/-!
# The keystore

`key_storage.c` keeps two files: the hash string of the master password, and a log of
entries to which every stored key is appended.  An entry is written field by field and
has no framing: each of the two readers skips it by the lengths it reads.

Every loop of a reader is a step function on the stream, run by `iterate` with one turn
more than the file has bytes; that this is never too few is proved with each reader.
-/

namespace SecureZ
namespace KeyStorage

open CLib
open CryptoCore

/-- `KEYSTORE_NAME_MAX`. -/
def keystoreNameMax : Nat := 64

/-- `KEYSTORE_MAX_KEYS`. -/
def keystoreMaxKeys : Nat := 128

/-- `KEYSTORE_PATH`. -/
def keystorePath : CString where
  bytes := ascii "/etc/securez/keystore.db"
  nulFree := by decide

/-- `KEYSTORE_MASTER_PATH`. -/
def keystoreMasterPath : CString where
  bytes := ascii "/etc/securez/master.key"
  nulFree := by decide

/-- `crypto_pwhash_STRBYTES`. -/
def pwhashStrbytes : Nat := 128

/-- `KeyType`. -/
inductive KeyType
  | encryption
  | signing
  | container
  | custom
deriving DecidableEq

/-- The value of the enumeration constant. -/
def KeyType.toU32 : KeyType → UInt32
  | .encryption => 0
  | .signing => 1
  | .container => 2
  | .custom => 3

section Master

variable (na : Sodium)

/-- `keystore_master_setup`, with the salt that `crypto_pwhash_str` draws. -/
def keystoreMasterSetup
    (w : WriteOutcome) (hashSalt : Salt) (password : CString) (fs : FileSystem) :
    Int × FileSystem :=
  if password.strlen < 16 then (-1, fs)
  else if (fs keystoreMasterPath).isSome then (-1, fs)
  else
    match na.pwhashStr password hashSalt with
    | none => (-1, fs)
    | some hash =>
        if w.fopen then
          (0, fs.writeFile keystoreMasterPath (w.disk (hash.bytes ++ [10])))
        else (-1, fs)

/-- `keystore_master_verify`: whether it returns 0. -/
def keystoreMasterVerify (password : CString) (fs : FileSystem) : Bool :=
  match fs.readFile keystoreMasterPath with
  | none => false
  | some content =>
      match fgets pwhashStrbytes content with
      | none => false
      | some (line, _) =>
          na.pwhashStrVerify (cstr (stripNewline (cstr line).bytes)) password

/-- `keystore_master_change`. -/
def keystoreMasterChange
    (w : WriteOutcome) (hashSalt : Salt) (oldPassword newPassword : CString)
    (fs : FileSystem) :
    Int × FileSystem :=
  if !keystoreMasterVerify na oldPassword fs then (-1, fs)
  else if newPassword.strlen < 16 then (-1, fs)
  else
    keystoreMasterSetup na w hashSalt newPassword
      (if w.unlink then fs.unlink keystoreMasterPath else fs)

end Master

section Store

/-- The arguments of `keystore_store` other than the master password, with the salt,
the nonce and the time that the call draws. -/
structure StoreRequest where
  name : CString
  type : KeyType
  keyData : Bytes
  salt : Salt
  nonce : Nonce
  time : UInt64
deriving DecidableEq

/-- Outcomes of the steps of a store.  `appended` is what reaches the file of the bytes
that are written; no result of `fwrite` is looked at. -/
structure StoreOutcome where
  secureAlloc : Bool
  malloc : Bool
  fopenAppend : Bool
  fopenCreate : Bool
  appended : Bytes → Bytes

/-- Every step succeeds and every byte reaches the file. -/
def StoreOutcome.ok : StoreOutcome where
  secureAlloc := true
  malloc := true
  fopenAppend := true
  fopenCreate := true
  appended := id

/-- The fields of an entry, as the writes put them one after another. -/
def entryBytes (r : StoreRequest) (encrypted : Bytes) : Bytes :=
  let nameLen := r.name.strlen % 2 ^ 16
  let encLen := encrypted.length % 2 ^ 32
  leBytes 2 nameLen ++ (r.name.bytes.take nameLen ++ (leBytes 4 r.type.toU32.toNat ++
    (leBytes 8 r.time.toNat ++ (leBytes 4 encLen ++ (r.salt.bytes ++
      (r.nonce.bytes ++ encrypted))))))

/-- The entry for a request, wrapped under the master password. -/
def wrappedEntry
    (na : Sodium) (o : StoreOutcome) (r : StoreRequest) (masterPw : CString) :
    Option Bytes := do
  guard o.secureAlloc
  let wrapKey ← normalKey na masterPw r.salt
  guard o.malloc
  return entryBytes r (cryptoEncryptBuffer na r.keyData r.nonce wrapKey)

/-- `keystore_store`. -/
def keystoreStore
    (na : Sodium) (o : StoreOutcome) (r : StoreRequest) (masterPw : CString)
    (fs : FileSystem) :
    Int × FileSystem :=
  if r.keyData = [] then (-1, fs)
  else if !keystoreMasterVerify na masterPw fs then (-1, fs)
  else
    match wrappedEntry na o r masterPw with
    | none => (-1, fs)
    | some entry =>
        if o.fopenAppend then
          (0, fs.writeFile keystorePath
            ((fs keystorePath).getD [] ++ o.appended entry))
        else if o.fopenCreate then
          (0, fs.writeFile keystorePath (o.appended entry))
        else (-1, fs)

end Store

section Retrieve

/-- What `keystore_retrieve` keeps of the fields in front of the encrypted data. -/
structure EntryHead where
  name : CString
  encLen : Nat
  salt : Salt
  nonce : Nonce
deriving DecidableEq

/-- The reads of one turn of `keystore_retrieve`. -/
def retrieveHead (f : Stream) : Option (EntryHead × Stream) := do
  let (nameLen, f) ← f.freadExact 2
  guard (leNat nameLen < keystoreNameMax)
  let (name, f) ← f.freadExact (leNat nameLen)
  let (_, f) ← f.freadExact 4
  let (_, f) ← f.freadExact 8
  let (encLen, f) ← f.freadExact 4
  let (salt, f) ← f.freadBlock crypticSaltLen
  let (nonce, f) ← f.freadBlock crypticNonceLen
  return ({ name := cstr name, encLen := leNat encLen, salt, nonce }, f)

/-- One turn of the loop of `keystore_retrieve`: the loop ends at the entry with the
name, at the end of the file or where a read fails, and otherwise skips the entry. -/
def retrieveTurn
    (name : CString) (f : Stream) :
    Turn Stream (Option (EntryHead × Stream)) :=
  if f.eof then .done none
  else
    match retrieveHead f with
    | none => .done none
    | some (head, f) =>
        if head.name = name then .done (some (head, f))
        else .next (f.fseekCur head.encLen)

/-- The entry with the name, in the file `content`. -/
def findEntry (name : CString) (content : Bytes) : Option (EntryHead × Stream) :=
  (iterate (retrieveTurn name) (content.length + 1) (Stream.fopen content)).join

/-- Outcomes of the allocations of `keystore_retrieve`. -/
structure RetrieveOutcome where
  malloc : Bool
  secureAllocKey : Bool
  secureAllocData : Bool
deriving DecidableEq

/-- Every allocation succeeds. -/
def RetrieveOutcome.ok : RetrieveOutcome where
  malloc := true
  secureAllocKey := true
  secureAllocData := true

/-- `keystore_retrieve`: the key data when it returns 0, none when it returns -1.
`secure_alloc` refuses a size of zero. -/
def keystoreRetrieve
    (na : Sodium) (o : RetrieveOutcome) (name masterPw : CString) (fs : FileSystem) :
    Option Bytes := do
  guard (keystoreMasterVerify na masterPw fs = true)
  let content ← fs.readFile keystorePath
  let (head, f) ← findEntry name content
  guard o.malloc
  let (encrypted, _) ← f.freadExact head.encLen
  guard o.secureAllocKey
  let wrapKey ← normalKey na masterPw head.salt
  guard (o.secureAllocData ∧ head.encLen ≠ 0)
  cryptoDecryptBuffer na encrypted head.nonce wrapKey

end Retrieve

section Listing

/-- `KeyInfo`. -/
structure KeyInfo where
  name : CString
  type : UInt32
  keyLen : Nat
  createdAt : UInt64
  lastUsed : UInt64
  locked : Bool
deriving DecidableEq

/-- The reads of one turn of `keystore_list`. -/
def listHead (f : Stream) : Option (KeyInfo × Stream) := do
  let (nameLen, f) ← f.freadExact 2
  guard (leNat nameLen < keystoreNameMax)
  let (name, f) ← f.freadExact (leNat nameLen)
  let (type, f) ← f.freadExact 4
  let (createdAt, f) ← f.freadExact 8
  let (encLen, f) ← f.freadExact 4
  return ({ name := cstr name
            type := UInt32.ofNat (leNat type)
            keyLen := leNat encLen
            createdAt := UInt64.ofNat (leNat createdAt)
            lastUsed := 0
            locked := false }, f)

/-- One turn of the loop of `keystore_list`.  The distance that it skips is added up in
`unsigned int`. -/
def listTurn (s : List KeyInfo × Stream) :
    Turn (List KeyInfo × Stream) (List KeyInfo) :=
  if s.2.eof = true ∨ keystoreMaxKeys ≤ s.1.length then .done s.1
  else
    match listHead s.2 with
    | none => .done s.1
    | some (k, f) =>
        .next (s.1 ++ [k],
          f.fseekCur ((crypticSaltLen + crypticNonceLen + k.keyLen) % 2 ^ 32))

/-- The keys that the loop of `keystore_list` collects from the file `content`. -/
def listEntries (content : Bytes) : List KeyInfo :=
  (iterate listTurn (content.length + 1) ([], Stream.fopen content)).getD []

/-- `keystore_list`: the array up to `*count`; the function returns 0. -/
def keystoreList (fs : FileSystem) : List KeyInfo :=
  match fs.readFile keystorePath with
  | none => []
  | some content => listEntries content

end Listing

section Termination

theorem length_rest_retrieveHead
    {f f' : Stream} {head : EntryHead}
    (h : retrieveHead f = some (head, f')) :
    f'.rest.length < f.rest.length := by
  simp only [retrieveHead, Option.bind_eq_bind, Option.bind_eq_some_iff,
    Option.guard_eq_some', Option.pure_def, Option.some.injEq, Prod.mk.injEq] at h
  obtain ⟨⟨_, f₁⟩, h₁, _, _, ⟨_, f₂⟩, h₂, ⟨_, f₃⟩, h₃, ⟨_, f₄⟩, h₄, ⟨_, f₅⟩, h₅,
    ⟨_, f₆⟩, h₆, ⟨_, f₇⟩, h₇, _, rfl⟩ := h
  have e₁ := Stream.length_rest_freadExact h₁
  have e₂ := Stream.length_rest_freadExact h₂
  have e₃ := Stream.length_rest_freadExact h₃
  have e₄ := Stream.length_rest_freadExact h₄
  have e₅ := Stream.length_rest_freadExact h₅
  have e₆ := Stream.length_rest_freadExact (Stream.freadBlock_eq_some h₆)
  have e₇ := Stream.length_rest_freadExact (Stream.freadBlock_eq_some h₇)
  dsimp only at *
  omega

theorem length_rest_listHead
    {f f' : Stream} {k : KeyInfo}
    (h : listHead f = some (k, f')) :
    f'.rest.length < f.rest.length := by
  simp only [listHead, Option.bind_eq_bind, Option.bind_eq_some_iff,
    Option.guard_eq_some', Option.pure_def, Option.some.injEq, Prod.mk.injEq] at h
  obtain ⟨⟨_, f₁⟩, h₁, _, _, ⟨_, f₂⟩, h₂, ⟨_, f₃⟩, h₃, ⟨_, f₄⟩, h₄, ⟨_, f₅⟩, h₅,
    _, rfl⟩ := h
  have e₁ := Stream.length_rest_freadExact h₁
  have e₂ := Stream.length_rest_freadExact h₂
  have e₃ := Stream.length_rest_freadExact h₃
  have e₄ := Stream.length_rest_freadExact h₄
  have e₅ := Stream.length_rest_freadExact h₅
  dsimp only at *
  omega

/-- On any file the loop of `keystore_retrieve` ends before the turns run out. -/
theorem retrieve_terminates
    (name : CString) (content : Bytes) :
    ∃ found,
      iterate (retrieveTurn name) (content.length + 1) (Stream.fopen content) =
        some found := by
  refine iterate_terminates (fun f => f.rest.length) ?_ (by simp)
  intro f f' hturn
  unfold retrieveTurn at hturn
  split_ifs at hturn
  split at hturn
  · cases hturn
  · rename_i head g hhead
    split_ifs at hturn
    obtain rfl := Turn.next.inj hturn
    have hlt := length_rest_retrieveHead hhead
    rw [Stream.rest_fseekCur, List.length_drop]
    omega

/-- On any file the loop of `keystore_list` ends before the turns run out. -/
theorem list_terminates
    (content : Bytes) :
    ∃ keys,
      iterate listTurn (content.length + 1) ([], Stream.fopen content) =
        some keys := by
  refine iterate_terminates (fun s => s.2.rest.length) ?_ (by simp)
  rintro ⟨keys, f⟩ ⟨keys', f'⟩ hturn
  unfold listTurn at hturn
  split_ifs at hturn
  split at hturn
  · cases hturn
  · rename_i k g hhead
    obtain ⟨rfl, rfl⟩ := Prod.mk.inj (Turn.next.inj hturn)
    have hlt : g.rest.length < f.rest.length := length_rest_listHead hhead
    simp only [Stream.rest_fseekCur, List.length_drop]
    omega

end Termination

end KeyStorage
end SecureZ
