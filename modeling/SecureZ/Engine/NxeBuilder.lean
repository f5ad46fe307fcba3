import SecureZ.Engine.NxeLoader
import SecureZ.Lib.FileSystem

/-!
# Building a `.nxe` file

`nxe_build` wraps an executable: it hashes it, encrypts it when there is a password,
signs the result when there is a key pair, and writes header and payload.  `Built`
says what the header and the payload of a built file are; the rest of the development
uses that description and not the code of the builder.

The builder accepts executables of up to 100 MB, the loader files of up to 100 MB.
The main result says which built files the loader runs: those that, with header and
tag, still fit into the limit of the loader.
-/

namespace SecureZ
namespace Nxe

open CLib
open CryptoCore

/-- Outcomes of the steps of a build that read and allocate. -/
structure BuildOutcome where
  fopen : Bool
  ftell : Bool
  mallocElf : Bool
  fread : Bool
  secureAlloc : Bool
  mallocPayload : Bool
deriving DecidableEq

/-- Every read and allocation succeeds. -/
def BuildOutcome.ok : BuildOutcome where
  fopen := true
  ftell := true
  mallocElf := true
  fread := true
  secureAlloc := true
  mallocPayload := true

section Model

/-- The limit of `nxe_build` on the size of the executable, 100 MB. -/
def elfLimit : Nat := 100 * 2 ^ 20

/-- The header before the payload is prepared. -/
def baseHeader
    (na : Sodium) (elf : Bytes) (permissions flags : UInt32) :
    NxeHeader :=
  { NxeHeader.zero with
    magic := Block.pad 4 nxeMagic
    version := nxeVersion10
    flags := flags ||| nxeFlagRamOnly
    permissions := permissions
    payloadOffset := UInt32.ofNat sizeofNxeHeader
    payloadHash := cryptoHashBuffer na elf }

/-- Prepare the payload: encrypt if there is a password, otherwise copy. -/
def payloadStage
    (na : Sodium) (b : BuildOutcome) (salt : Salt) (nonce : Nonce)
    (password : Option CString) (elf : Bytes) (hdr : NxeHeader) :
    Option (NxeHeader × Bytes) :=
  match password with
  | some pw => do
      guard b.secureAlloc
      let key ← normalKey na pw salt
      guard b.mallocPayload
      return ({ hdr with
          flags := hdr.flags ||| nxeFlagEncrypted
          salt := salt
          nonce := nonce }, cryptoEncryptBuffer na elf nonce key)
  | none => do
      guard b.mallocPayload
      return (hdr, elf)

/-- Record the payload size, and sign if both keys are provided. -/
def signStage
    (na : Sodium) (sk : Option SecretKey) (pk : Option PublicKey)
    (payload : Bytes) (hdr : NxeHeader) :
    NxeHeader :=
  let hdr := { hdr with payloadSize := UInt32.ofNat payload.length }
  match sk, pk with
  | some sk, some pk =>
      { hdr with
        flags := hdr.flags ||| nxeFlagSigned
        pubkey := pk
        signature := cryptoSignBuffer na payload sk }
  | _, _ => hdr

/-- The file that `nxe_build` is about to write for an executable. -/
def nxeImage
    (na : Sodium) (b : BuildOutcome) (salt : Salt) (nonce : Nonce)
    (elf : Bytes) (password : Option CString)
    (sk : Option SecretKey) (pk : Option PublicKey) (permissions flags : UInt32) :
    Option Bytes := do
  guard b.fopen
  guard (b.ftell ∧ 0 < elf.length ∧ elf.length ≤ elfLimit)
  guard b.mallocElf
  guard b.fread
  let (hdr, payload) ←
    payloadStage na b salt nonce password elf (baseHeader na elf permissions flags)
  return (signStage na sk pk payload hdr).toBytes ++ payload

/-- `nxe_build`, with the salt and the nonce that it draws. -/
def nxeBuild
    (na : Sodium) (b : BuildOutcome) (w : WriteOutcome) (salt : Salt) (nonce : Nonce)
    (elfPath nxePath : Option CString) (password : Option CString)
    (sk : Option SecretKey) (pk : Option PublicKey) (permissions flags : UInt32)
    (fs : FileSystem) :
    Int × FileSystem :=
  match elfPath, nxePath with
  | some elfPath, some nxePath =>
      match fs.readFile elfPath with
      | none => (-1, fs)
      | some elf =>
          match nxeImage na b salt nonce elf password sk pk permissions flags with
          | none => (-1, fs)
          | some image => FileSystem.createFile w nxePath image fs
  | _, _ => (-1, fs)

end Model

section Description

/-- The key pair was given, so that the file is signed. -/
def bothKeys (sk : Option SecretKey) (pk : Option PublicKey) : Bool :=
  sk.isSome && pk.isSome

/-- The flags word of a built file. -/
def builtFlags
    (password : Option CString) (sk : Option SecretKey) (pk : Option PublicKey)
    (flags : UInt32) :
    UInt32 :=
  flags ||| nxeFlagRamOnly
    ||| (if password.isSome then nxeFlagEncrypted else 0)
    ||| (if bothKeys sk pk then nxeFlagSigned else 0)

/-- The payload of a built file, under the salt and the nonce of its header. -/
def PayloadOf
    (na : Sodium) (elf : Bytes) (password : Option CString)
    (hdr : NxeHeader) (payload : Bytes) :
    Prop :=
  match password with
  | none => payload = elf
  | some pw =>
      ∃ key,
        normalKey na pw hdr.salt = some key ∧
          payload = cryptoEncryptBuffer na elf hdr.nonce key

/-- What the builder guarantees of the header and the payload of a file. -/
structure Built
    (na : Sodium) (elf : Bytes) (password : Option CString)
    (sk : Option SecretKey) (pk : Option PublicKey) (flags : UInt32)
    (hdr : NxeHeader) (payload : Bytes) : Prop where
  valid : hdr.Valid
  payloadSize : hdr.payloadSize = UInt32.ofNat payload.length
  payloadHash : hdr.payloadHash = cryptoHashBuffer na elf
  elfSize : elf.length ≤ elfLimit
  flagsWord : hdr.flags = builtFlags password sk pk flags
  payloadOf : PayloadOf na elf password hdr payload
  signed :
    ∀ s p,
      sk = some s →
      pk = some p →
      hdr.pubkey = p ∧ hdr.signature = cryptoSignBuffer na payload s

variable {na : Sodium} {b : BuildOutcome} {salt : Salt} {nonce : Nonce}
variable {elf : Bytes} {password : Option CString}
variable {sk : Option SecretKey} {pk : Option PublicKey} {permissions flags : UInt32}

theorem baseHeader_valid :
    (baseHeader na elf permissions flags).Valid :=
  ⟨rfl, rfl, rfl⟩

/-- What the payload stage changes in the header, and the payload it prepares. -/
theorem payloadStage_eq_some
    {hdr hdr' : NxeHeader} {payload : Bytes}
    (h : payloadStage na b salt nonce password elf hdr = some (hdr', payload)) :
    PayloadOf na elf password hdr' payload ∧
      (hdr.Valid → hdr'.Valid) ∧
      hdr'.payloadHash = hdr.payloadHash ∧
      hdr'.flags = hdr.flags ||| (if password.isSome then nxeFlagEncrypted else 0) := by
  cases password with
  | none =>
      simp only [payloadStage, Option.bind_eq_bind, Option.bind_eq_some_iff,
        Option.pure_def, Option.some.injEq, Prod.mk.injEq] at h
      obtain ⟨_, _, rfl, rfl⟩ := h
      exact ⟨rfl, id, rfl, by simp⟩
  | some pw =>
      simp only [payloadStage, Option.bind_eq_bind, Option.bind_eq_some_iff,
        Option.pure_def, Option.some.injEq, Prod.mk.injEq] at h
      obtain ⟨_, _, key, hkey, _, _, rfl, rfl⟩ := h
      exact ⟨⟨key, hkey, rfl⟩, fun hv => ⟨hv.magic, hv.version, hv.payloadOffset⟩,
        rfl, rfl⟩

/-- Signing completes a header whose payload is prepared. -/
theorem built_signStage
    {hdr : NxeHeader} {payload : Bytes}
    (hvalid : hdr.Valid)
    (hhash : hdr.payloadHash = cryptoHashBuffer na elf)
    (hsize : elf.length ≤ elfLimit)
    (hflags :
      hdr.flags =
        flags ||| nxeFlagRamOnly |||
          (if password.isSome then nxeFlagEncrypted else 0))
    (hpayload : PayloadOf na elf password hdr payload) :
    Built na elf password sk pk flags (signStage na sk pk payload hdr) payload := by
  have hvalid' : ∀ s p, (signStage na s p payload hdr).Valid := by
    intro s p
    unfold signStage
    split <;> exact ⟨hvalid.magic, hvalid.version, hvalid.payloadOffset⟩
  cases sk with
  | none =>
      exact ⟨hvalid' none pk, rfl, hhash, hsize,
        by simp [signStage, builtFlags, bothKeys, hflags],
        hpayload, by simp⟩
  | some s =>
      cases pk with
      | none =>
          exact ⟨hvalid' (some s) none, rfl, hhash, hsize,
            by simp [signStage, builtFlags, bothKeys, hflags], hpayload, by simp⟩
      | some p =>
          exact ⟨hvalid' (some s) (some p), rfl, hhash, hsize,
            by simp [signStage, builtFlags, bothKeys, hflags], hpayload,
            by simp [signStage]⟩

/-- The builder writes a header and a payload that fit the description. -/
theorem built_of_nxeImage
    {file : Bytes}
    (h :
      nxeImage na b salt nonce elf password sk pk permissions flags = some file) :
    ∃ hdr payload,
      file = hdr.toBytes ++ payload ∧
        Built na elf password sk pk flags hdr payload := by
  simp only [nxeImage, Option.bind_eq_bind, Option.bind_eq_some_iff,
    Option.guard_eq_some', Option.pure_def, Option.some.injEq] at h
  obtain ⟨_, _, _, ⟨_, _, hsize⟩, _, _, _, _, ⟨hdr, payload⟩, hstage, rfl⟩ := h
  obtain ⟨hpayload, hvalid, hhash, hflags⟩ := payloadStage_eq_some hstage
  exact ⟨_, payload, rfl,
    built_signStage (hvalid baseHeader_valid) hhash hsize hflags hpayload⟩

/-- A successful build read the executable and wrote its image. -/
theorem nxeBuild_ok
    {elfPath nxePath : CString} {fs fs' : FileSystem}
    (hread : fs.readFile elfPath = some elf)
    (h :
      nxeBuild na b .ok salt nonce (some elfPath) (some nxePath) password sk pk
        permissions flags fs = (0, fs')) :
    ∃ file,
      nxeImage na b salt nonce elf password sk pk permissions flags = some file ∧
        fs' = fs.writeFile nxePath file := by
  simp only [nxeBuild, hread] at h
  cases himage : nxeImage na b salt nonce elf password sk pk permissions flags with
  | none =>
      simp [himage] at h
  | some file =>
      simp only [himage, FileSystem.createFile_ok, Prod.mk.injEq, true_and] at h
      exact ⟨file, rfl, h.symm⟩

end Description

section Flags

/-- The flags word sets no bit outside a mask. -/
def FlagsWithin (flags mask : UInt32) : Prop :=
  flags &&& mask = flags

theorem or_and_ne_zero
    (a b f : UInt32) :
    ((a ||| b) &&& f != 0) = ((a &&& f != 0) || (b &&& f != 0)) := by
  have hdist : (a ||| b) &&& f = (a &&& f) ||| (b &&& f) := by
    simp [← UInt32.toBitVec_inj, BitVec.and_or_distrib_right]
  rw [hdist, Bool.eq_iff_iff]
  simp only [bne_iff_ne, ne_eq, UInt32.or_eq_zero_iff, Bool.or_eq_true]
  tauto

/-- A flag outside the mask is not set. -/
theorem and_eq_zero_of_within
    {flags mask f : UInt32}
    (hflags : FlagsWithin flags mask)
    (hmask : mask &&& f = 0) :
    flags &&& f = 0 := by
  rw [← hflags, UInt32.and_assoc, hmask, UInt32.and_zero]

variable {na : Sodium} {elf payload : Bytes} {password : Option CString}
variable {sk : Option SecretKey} {pk : Option PublicKey} {flags : UInt32}
variable {hdr : NxeHeader}

/-- With flags that the caller may set, a built file is marked as encrypted exactly
when there was a password. -/
theorem Built.hasFlag_encrypted
    (h : Built na elf password sk pk flags hdr payload)
    (hflags : FlagsWithin flags (nxeFlagRamOnly ||| nxeFlagSandboxed)) :
    hdr.hasFlag nxeFlagEncrypted = password.isSome := by
  have hzero : flags &&& nxeFlagEncrypted = 0 :=
    and_eq_zero_of_within hflags (by decide)
  rw [NxeHeader.hasFlag, h.flagsWord, builtFlags, or_and_ne_zero, or_and_ne_zero,
    or_and_ne_zero, hzero]
  generalize password.isSome = isEncrypted, bothKeys sk pk = isSigned
  revert isEncrypted isSigned
  decide

/-- And marked as signed exactly when there was a key pair. -/
theorem Built.hasFlag_signed
    (h : Built na elf password sk pk flags hdr payload)
    (hflags : FlagsWithin flags (nxeFlagRamOnly ||| nxeFlagSandboxed)) :
    hdr.hasFlag nxeFlagSigned = bothKeys sk pk := by
  have hzero : flags &&& nxeFlagSigned = 0 :=
    and_eq_zero_of_within hflags (by decide)
  rw [NxeHeader.hasFlag, h.flagsWord, builtFlags, or_and_ne_zero, or_and_ne_zero,
    or_and_ne_zero, hzero]
  generalize password.isSome = isEncrypted, bothKeys sk pk = isSigned
  revert isEncrypted isSigned
  decide

end Flags

section Run

variable {na : Sodium} {elf payload : Bytes} {password : Option CString}
variable {sk : Option SecretKey} {pk : Option PublicKey} {permissions flags : UInt32}
variable {salt : Salt} {nonce : Nonce} {hdr : NxeHeader}

/-- The size of the file that is built for an executable. -/
def builtSize (password : Option CString) (elf : Bytes) : Nat :=
  sizeofNxeHeader + elf.length + (if password.isSome then crypticMacLen else 0)

theorem length_payload
    (haead : AeadCorrect na)
    (h : PayloadOf na elf password hdr payload) :
    sizeofNxeHeader + payload.length = builtSize password elf := by
  cases password with
  | none =>
      obtain rfl : payload = elf := h
      simp [builtSize]
  | some pw =>
      obtain ⟨key, _, rfl⟩ := h
      simp only [cryptoEncryptBuffer, haead.length_encrypt, builtSize,
        Option.isSome_some, if_true]
      omega

/-- The loader finds header and payload of a built file where the builder put them. -/
theorem readPayload_built
    (h : Built na elf password sk pk flags hdr payload)
    (hsize : payload.length < 2 ^ 32) :
    readPayload (hdr.toBytes ++ payload) hdr = .ok payload := by
  have hpayloadSize : hdr.payloadSize.toNat = payload.length := by
    rw [h.payloadSize]
    simpa using hsize
  have hoffset : hdr.payloadOffset.toNat = hdr.toBytes.length := by
    rw [h.valid.payloadOffset, hdr.length_toBytes]
  rw [readPayload_eq_ok_iff, hpayloadSize, hoffset]
  simp

/-- The checks before the payload is read pass on a file within the limit. -/
theorem checkedHeader_built
    (h : Built na elf password sk pk flags hdr payload)
    (hlimit : sizeofNxeHeader + payload.length ≤ readLimit) :
    checkedHeader .ok (hdr.toBytes ++ payload) = .ok hdr := by
  have hlength :
      (hdr.toBytes ++ payload).length = sizeofNxeHeader + payload.length := by
    rw [List.length_append, hdr.length_toBytes]
  have hsmall : readLimit < 2 ^ 32 := by decide
  have hpayloadSize : hdr.payloadSize.toNat = payload.length := by
    rw [h.payloadSize]
    simpa using (by omega : payload.length < 2 ^ 32)
  have hexact : hdr.payloadOffset.toNat + hdr.payloadSize.toNat < 2 ^ 32 := by
    rw [h.valid.payloadOffset, hpayloadSize]
    omega
  refine checkedHeader_ok_of_accepted ⟨?_, ?_, ?_, h.valid, ?_⟩
  · rw [hlength]
    exact hlimit
  · rw [hlength]
    omega
  · rw [hdr.ofBytes_toBytes_append]
  · rw [payloadEnd_toNat_of_lt hexact, h.valid.payloadOffset, hpayloadSize, hlength]

/-- A file above the limit is not even read. -/
theorem nxeLoadAndExec_of_limit_lt
    {o : LoadOutcome} {file : Bytes}
    (hlimit : readLimit < file.length)
    (launch : Launch) :
    nxeLoadAndExec na o file password ≠ .ok launch := by
  intro h
  rw [nxeLoadAndExec, bind_eq_ok_iff] at h
  obtain ⟨hdr, hchecked, _⟩ := h
  have := (acceptedHeader_of_checkedHeader hchecked).limit
  omega

/-- A built file within the limit runs what was built. -/
theorem nxeLoadAndExec_built
    (haead : AeadCorrect na)
    (hkeys : ∀ s p, sk = some s → pk = some p → MatchingKeys na s p)
    (hflags : FlagsWithin flags (nxeFlagRamOnly ||| nxeFlagSandboxed))
    (h : Built na elf password sk pk flags hdr payload)
    (hlimit : sizeofNxeHeader + payload.length ≤ readLimit) :
    nxeLoadAndExec na .ok (hdr.toBytes ++ payload) password =
      .ok { header := hdr, memfd := elf } := by
  have hsmall : readLimit < 2 ^ 32 := by decide
  have hread := readPayload_built h (by omega)
  have hverify : verifyStage na (hdr.toBytes ++ payload) hdr = .ok () := by
    rw [verifyStage, h.hasFlag_signed hflags]
    split_ifs with hboth
    · obtain ⟨s, rfl⟩ := Option.isSome_iff_exists.mp (Bool.and_eq_true_iff.mp hboth).1
      obtain ⟨p, rfl⟩ := Option.isSome_iff_exists.mp (Bool.and_eq_true_iff.mp hboth).2
      obtain ⟨hpubkey, hsignature⟩ := h.signed s p rfl rfl
      have hgood := hkeys s p rfl rfl payload
      rw [hread, ok_bind, require_eq_ok_iff, hpubkey, hsignature]
      exact hgood
    · rfl
  have hdecrypt :
      decryptStage na .ok (hdr.toBytes ++ payload) password hdr = .ok elf := by
    have hpayload := h.payloadOf
    rw [decryptStage, h.hasFlag_encrypted hflags]
    cases password with
    | none =>
        obtain rfl : payload = elf := hpayload
        simp [hread, require, LoadOutcome.ok]
    | some pw =>
        obtain ⟨key, hkey, hcipher⟩ := hpayload
        have hplain : cryptoDecryptBuffer na payload hdr.nonce key = some elf := by
          rw [hcipher]
          exact haead.decrypt_encrypt elf hdr.nonce key
        simp [hread, hkey, hplain, require, requireSome, LoadOutcome.ok]
  have hlaunch : launchStage na .ok hdr elf = .ok { header := hdr, memfd := elf } := by
    simp [launchStage, require, h.payloadHash, LoadOutcome.ok, pure, Except.pure]
  rw [nxeLoadAndExec, checkedHeader_built h hlimit, ok_bind, hverify, ok_bind, hdecrypt,
    ok_bind, hlaunch]

/--
**Building and running.**

A file that was built runs, under the password it was built with, exactly the
executable it was built from if and only if header, executable and tag together are
within the limit of the loader.
-/
theorem built_file_runs_iff
    (na : Sodium)
    (haead : AeadCorrect na)
    (elf : Bytes)
    (password : Option CString)
    (sk : Option SecretKey) (pk : Option PublicKey)
    (hkeys : ∀ s p, sk = some s → pk = some p → MatchingKeys na s p)
    (permissions flags : UInt32)
    (hflags : FlagsWithin flags (nxeFlagRamOnly ||| nxeFlagSandboxed))
    (salt : Salt) (nonce : Nonce)
    (elfPath nxePath : CString) (fs fs' : FileSystem)
    (hread : fs.readFile elfPath = some elf)
    (hbuild :
      nxeBuild na .ok .ok salt nonce (some elfPath) (some nxePath) password sk pk
        permissions flags fs = (0, fs')) :
    (∃ file hdr,
      fs' nxePath = some file ∧
        nxeLoadAndExec na .ok file password = .ok { header := hdr, memfd := elf })
      ↔
    builtSize password elf ≤ readLimit := by
  obtain ⟨file, himage, rfl⟩ := nxeBuild_ok hread hbuild
  obtain ⟨hdr, payload, rfl, hbuilt⟩ := built_of_nxeImage himage
  rw [← length_payload haead hbuilt.payloadOf]
  constructor
  · rintro ⟨file, hdr', hfile, hload⟩
    by_contra hlimit
    rw [FileSystem.writeFile_self] at hfile
    obtain rfl := Option.some.inj hfile
    refine nxeLoadAndExec_of_limit_lt ?_ _ hload
    rw [List.length_append, hdr.length_toBytes]
    omega
  · intro hlimit
    exact ⟨_, hdr, by simp, nxeLoadAndExec_built haead hkeys hflags hbuilt hlimit⟩

/-- A build without password and keys succeeds for every size the builder allows. -/
theorem nxeBuild_unprotected
    {elfPath : CString} {fs : FileSystem}
    (nxePath : CString)
    (hread : fs.readFile elfPath = some elf)
    (hpos : 0 < elf.length)
    (hmax : elf.length ≤ elfLimit) :
    ∃ file,
      nxeBuild na .ok .ok salt nonce (some elfPath) (some nxePath) none none none
          permissions flags fs = (0, fs.writeFile nxePath file) ∧
        sizeofNxeHeader + elf.length = file.length := by
  refine ⟨(signStage na none none elf
    (baseHeader na elf permissions flags)).toBytes ++ elf, ?_, ?_⟩
  · simp [nxeBuild, hread, nxeImage, payloadStage, BuildOutcome.ok, hpos, hmax]
  · rw [List.length_append, NxeHeader.length_toBytes]

/-- The executable `xs`, at the path `e`. -/
def onlyElf (xs : Bytes) : FileSystem :=
  FileSystem.writeFile (fun _ => none) (cstr (ascii "e")) xs

/-- A one-byte executable, encrypted and signed, is built and runs. -/
theorem protected_elf_runs :
    ∃ fs' file hdr,
      nxeBuild mirror .ok .ok (Block.zero 16) (Block.zero 24)
          (some (cstr (ascii "e"))) (some (cstr (ascii "n"))) (some (cstr (ascii "k")))
          (some (Block.pad 64 (Block.pad 32 [7]).bytes)) (some (Block.pad 32 [7])) 0 0
          (onlyElf [1]) = (0, fs') ∧
        fs' (cstr (ascii "n")) = some file ∧
        nxeLoadAndExec mirror .ok file (some (cstr (ascii "k"))) =
          .ok { header := hdr, memfd := [1] } := by
  have hkeys :
      ∀ s p,
        some (Block.pad 64 (Block.pad 32 [7]).bytes) = some s →
        some (Block.pad 32 [7]) = some p →
        MatchingKeys mirror s p := by
    rintro s p hs hp
    obtain rfl := Option.some.inj hs
    obtain rfl := Option.some.inj hp
    exact mirror_matchingKeys _
  obtain ⟨file, hdr, hfile, hload⟩ :=
    (built_file_runs_iff mirror mirror_aeadIdeal.toAeadCorrect [1]
      (some (cstr (ascii "k"))) _ _ hkeys 0 0 rfl (Block.zero 16) (Block.zero 24)
      (cstr (ascii "e")) (cstr (ascii "n")) (onlyElf [1]) _ rfl rfl).mpr (by decide)
  exact ⟨_, file, hdr, rfl, hfile, hload⟩

/-- An executable of exactly 100 MB is built and not run. -/
theorem limit_sized_elf_does_not_run :
    ∃ fs',
      nxeBuild mirror .ok .ok (Block.zero 16) (Block.zero 24)
          (some (cstr (ascii "e"))) (some (cstr (ascii "n"))) none none none 0 0
          (onlyElf (List.replicate elfLimit 0)) = (0, fs') ∧
        ¬ ∃ file hdr,
          fs' (cstr (ascii "n")) = some file ∧
            nxeLoadAndExec mirror .ok file none =
              .ok { header := hdr, memfd := List.replicate elfLimit 0 } := by
  have hlength : (List.replicate elfLimit (0 : UInt8)).length = elfLimit :=
    List.length_replicate
  have hread :
      (onlyElf (List.replicate elfLimit 0)).readFile (cstr (ascii "e")) =
        some (List.replicate elfLimit 0) :=
    FileSystem.readFile_eq_some_iff.mpr ⟨by decide, FileSystem.writeFile_self _ _ _⟩
  obtain ⟨file, hbuild, hsize⟩ :=
    nxeBuild_unprotected (cstr (ascii "n")) hread
      (by rw [hlength]; decide) hlength.le
  refine ⟨_, hbuild, ?_⟩
  rintro ⟨file', hdr, hfile, hload⟩
  rw [FileSystem.writeFile_self] at hfile
  obtain rfl := Option.some.inj hfile
  refine nxeLoadAndExec_of_limit_lt ?_ _ hload
  rw [← hsize, hlength]
  decide

end Run

end Nxe
end SecureZ
