import SecureZ.Engine.NxeFormat

/-!
# Loading a `.nxe` file

`nxe_load_and_exec` reads a file, checks its header, verifies the signature, decrypts
the payload, compares its hash and puts it into a memory file, which `execve` then
runs.  A load ends in one of three ways: it reaches `execve`, it returns -1 at a check
or a failed call, or it reads memory behind the file buffer, which is no defined end.

The bounds check of the payload adds two `uint32_t` fields, in 32 bits, and only then
compares with the file length.  The main result says for which files that check keeps
the payload inside the file: for all but those whose size field makes the sum wrap.
-/

namespace SecureZ
namespace Nxe

open CLib
open CryptoCore

/-- The places where a load returns -1. -/
inductive LoadStop
  | cannotRead
  | tooSmall
  | invalidMagic
  | unsupportedVersion
  | invalidPayloadOffset
  | payloadBeyondFile
  | signatureFailed
  | noPassword
  | secureAllocFailed
  | kdfFailed
  | mallocFailed
  | decryptionFailed
  | hashMismatch
  | memfdCreateFailed
  | writeFailed
deriving DecidableEq

/-- How a load ends that does not reach `execve`. -/
inductive LoadEnd
  | failed (stop : LoadStop)
  | outOfBounds
deriving DecidableEq

/-- What a load hands to `execve`: the header it checked and the memory file. -/
structure Launch where
  header : NxeHeader
  memfd : Bytes
deriving DecidableEq

/-- Outcomes of the system calls and allocations of a load. -/
structure LoadOutcome where
  fopen : Bool
  ftell : Bool
  mallocFile : Bool
  fread : Bool
  secureAlloc : Bool
  mallocElf : Bool
  memfdCreate : Bool
  write : Bool
deriving DecidableEq

/-- Every call and allocation succeeds. -/
def LoadOutcome.ok : LoadOutcome where
  fopen := true
  ftell := true
  mallocFile := true
  fread := true
  secureAlloc := true
  mallocElf := true
  memfdCreate := true
  write := true

section Model

/-- The limit of `read_full_file`, 100 MB. -/
def readLimit : Nat := 100 * 2 ^ 20

/-- `read_full_file`, on a file that holds `file`. -/
def readFullFile
    (o : LoadOutcome) (file : Bytes) :
    Except LoadEnd Bytes := do
  require (o.fopen = true) (.failed .cannotRead)
  require (o.ftell = true ∧ file.length ≤ readLimit) (.failed .cannotRead)
  require (o.mallocFile = true) (.failed .cannotRead)
  require (o.fread = true) (.failed .cannotRead)
  return file

/-- `validate_header`. -/
def validateHeader
    (hdr : NxeHeader) :
    Except LoadEnd Unit := do
  require (hdr.magic.bytes = nxeMagic) (.failed .invalidMagic)
  require (hdr.version = nxeVersion10) (.failed .unsupportedVersion)
  require (hdr.payloadOffset.toNat = sizeofNxeHeader) (.failed .invalidPayloadOffset)

/-- The end of the payload as the loader computes it, in 32 bits. -/
def NxeHeader.payloadEnd (hdr : NxeHeader) : UInt32 :=
  hdr.payloadOffset + hdr.payloadSize

/-- The load up to and including the check that the payload is inside the file. -/
def checkedHeader
    (o : LoadOutcome) (file : Bytes) :
    Except LoadEnd NxeHeader := do
  let data ← readFullFile o file
  require (sizeofNxeHeader ≤ data.length) (.failed .tooSmall)
  let hdr := NxeHeader.ofBytes data
  validateHeader hdr
  require (hdr.payloadEnd.toNat ≤ data.length) (.failed .payloadBeyondFile)
  return hdr

/-- The memory at `file_data + hdr.payload_offset`, `hdr.payload_size` bytes. -/
def readPayload
    (file : Bytes) (hdr : NxeHeader) :
    Except LoadEnd Bytes :=
  requireSome (readSlice file hdr.payloadOffset.toNat hdr.payloadSize.toNat) .outOfBounds

/-- Step 1: verify the signature, if the file is signed. -/
def verifyStage
    (na : Sodium) (file : Bytes) (hdr : NxeHeader) :
    Except LoadEnd Unit :=
  if hdr.hasFlag nxeFlagSigned then do
    let payload ← readPayload file hdr
    require (cryptoVerifySignature na hdr.signature payload hdr.pubkey = true)
      (.failed .signatureFailed)
  else
    .ok ()

/-- Step 2: decrypt the payload if it is encrypted, otherwise copy it. -/
def decryptStage
    (na : Sodium) (o : LoadOutcome) (file : Bytes)
    (password : Option CString) (hdr : NxeHeader) :
    Except LoadEnd Bytes :=
  if hdr.hasFlag nxeFlagEncrypted then do
    let pw ← requireSome password (.failed .noPassword)
    require (o.secureAlloc = true) (.failed .secureAllocFailed)
    let key ← requireSome (normalKey na pw hdr.salt) (.failed .kdfFailed)
    require (o.mallocElf = true) (.failed .mallocFailed)
    let payload ← readPayload file hdr
    requireSome (cryptoDecryptBuffer na payload hdr.nonce key)
      (.failed .decryptionFailed)
  else do
    require (o.mallocElf = true) (.failed .mallocFailed)
    readPayload file hdr

/-- Steps 3 and 4: compare the hash and put the executable into a memory file. -/
def launchStage
    (na : Sodium) (o : LoadOutcome) (hdr : NxeHeader) (elf : Bytes) :
    Except LoadEnd Launch := do
  require (cryptoHashBuffer na elf = hdr.payloadHash) (.failed .hashMismatch)
  require (o.memfdCreate = true) (.failed .memfdCreateFailed)
  require (o.write = true) (.failed .writeFailed)
  return { header := hdr, memfd := elf }

/-- `nxe_load_and_exec`, up to its `execve`. -/
def nxeLoadAndExec
    (na : Sodium) (o : LoadOutcome) (file : Bytes) (password : Option CString) :
    Except LoadEnd Launch := do
  let hdr ← checkedHeader o file
  verifyStage na file hdr
  let elf ← decryptStage na o file password hdr
  launchStage na o hdr elf

end Model

section Stages

/-- What `validate_header` accepts. -/
structure NxeHeader.Valid (hdr : NxeHeader) : Prop where
  magic : hdr.magic.bytes = nxeMagic
  version : hdr.version = nxeVersion10
  payloadOffset : hdr.payloadOffset.toNat = sizeofNxeHeader

theorem validateHeader_eq_ok_iff
    {hdr : NxeHeader} {u : Unit} :
    validateHeader hdr = .ok u ↔ hdr.Valid := by
  simp only [validateHeader, bind_eq_ok_iff, require_eq_ok_iff]
  constructor
  · rintro ⟨_, hmagic, _, hversion, hoffset⟩
    exact ⟨hmagic, hversion, hoffset⟩
  · rintro ⟨hmagic, hversion, hoffset⟩
    exact ⟨(), hmagic, (), hversion, hoffset⟩

variable {na : Sodium} {o : LoadOutcome} {file : Bytes}

theorem readFullFile_eq_ok_iff
    {data : Bytes} :
    readFullFile o file = .ok data
      ↔
    o.fopen = true ∧ o.ftell = true ∧ o.mallocFile = true ∧ o.fread = true ∧
      file.length ≤ readLimit ∧ data = file := by
  simp only [readFullFile, bind_eq_ok_iff, require_eq_ok_iff, pure, Except.pure,
    Except.ok.injEq]
  constructor
  · rintro ⟨_, hopen, _, ⟨htell, hlimit⟩, _, hmalloc, _, hread, hdata⟩
    exact ⟨hopen, htell, hmalloc, hread, hlimit, hdata.symm⟩
  · rintro ⟨hopen, htell, hmalloc, hread, hlimit, hdata⟩
    exact ⟨(), hopen, (), ⟨htell, hlimit⟩, (), hmalloc, (), hread, hdata.symm⟩

/-- The checks that a header passes, apart from the calls that may fail. -/
structure AcceptedHeader (file : Bytes) (hdr : NxeHeader) : Prop where
  limit : file.length ≤ readLimit
  fits : sizeofNxeHeader ≤ file.length
  parsed : hdr = NxeHeader.ofBytes file
  valid : hdr.Valid
  bound : hdr.payloadEnd.toNat ≤ file.length

/-- A header that passes all checks is the one at the start of the file. -/
theorem acceptedHeader_of_checkedHeader
    {hdr : NxeHeader}
    (h : checkedHeader o file = .ok hdr) :
    AcceptedHeader file hdr := by
  simp only [checkedHeader, bind_eq_ok_iff, require_eq_ok_iff, readFullFile_eq_ok_iff,
    validateHeader_eq_ok_iff, pure, Except.pure, Except.ok.injEq] at h
  obtain ⟨_, ⟨_, _, _, _, hlimit, rfl⟩, _, hfits, _, hvalid, _, hbound, rfl⟩ := h
  exact ⟨hlimit, hfits, rfl, hvalid, hbound⟩

/-- With every call succeeding the checks are all that stands in the way. -/
theorem checkedHeader_ok_of_accepted
    {hdr : NxeHeader}
    (h : AcceptedHeader file hdr) :
    checkedHeader .ok file = .ok hdr := by
  obtain ⟨hlimit, hfits, rfl, hvalid, hbound⟩ := h
  simp only [checkedHeader, bind_eq_ok_iff, require_eq_ok_iff, readFullFile_eq_ok_iff,
    validateHeader_eq_ok_iff, pure, Except.pure, Except.ok.injEq]
  exact ⟨file, ⟨rfl, rfl, rfl, rfl, hlimit, rfl⟩, (), hfits, (), hvalid, (), hbound, rfl⟩

/-- None of the early checks reads behind the file. -/
theorem checkedHeader_ne_outOfBounds :
    checkedHeader o file ≠ .error .outOfBounds := by
  intro h
  simp [checkedHeader, readFullFile, validateHeader, bind_eq_error_iff,
    require_eq_error_iff, pure, Except.pure] at h

theorem readPayload_eq_ok_iff
    {hdr : NxeHeader} {payload : Bytes} :
    readPayload file hdr = .ok payload
      ↔
    hdr.payloadOffset.toNat + hdr.payloadSize.toNat ≤ file.length ∧
      payload = slice file hdr.payloadOffset.toNat hdr.payloadSize.toNat := by
  rw [readPayload, requireSome_eq_ok_iff, readSlice_eq_some_iff]

/-- A payload inside the file is read without leaving it. -/
theorem readPayload_ne_outOfBounds
    {hdr : NxeHeader}
    (h : hdr.payloadOffset.toNat + hdr.payloadSize.toNat ≤ file.length) :
    readPayload file hdr ≠ .error .outOfBounds := by
  rw [readPayload_eq_ok_iff.mpr ⟨h, rfl⟩]
  simp

end Stages

section Bounds

/-- The 32-bit sum is the exact one when it does not wrap. -/
theorem payloadEnd_toNat_of_lt
    {hdr : NxeHeader}
    (h : hdr.payloadOffset.toNat + hdr.payloadSize.toNat < 2 ^ 32) :
    hdr.payloadEnd.toNat = hdr.payloadOffset.toNat + hdr.payloadSize.toNat := by
  rw [NxeHeader.payloadEnd, UInt32.toNat_add, Nat.mod_eq_of_lt h]

/-- With the payload right behind the header, a sum that wraps ends inside the
header. -/
theorem payloadEnd_lt_of_wraps
    {hdr : NxeHeader}
    (hoffset : hdr.payloadOffset.toNat = sizeofNxeHeader)
    (hwraps : 2 ^ 32 ≤ hdr.payloadOffset.toNat + hdr.payloadSize.toNat) :
    hdr.payloadEnd.toNat < sizeofNxeHeader := by
  have hsize : hdr.payloadSize.toNat < 2 ^ 32 := hdr.payloadSize.toNat_lt
  rw [NxeHeader.payloadEnd, UInt32.toNat_add]
  simp only [sizeofNxeHeader] at *
  omega

/-- The files on which the bounds check is blind: readable, with a valid header, and
a size field so large that offset plus size wraps. -/
structure SizeFieldWraps (file : Bytes) : Prop where
  limit : file.length ≤ readLimit
  fits : sizeofNxeHeader ≤ file.length
  valid : (NxeHeader.ofBytes file).Valid
  wraps : 2 ^ 32 - sizeofNxeHeader ≤ (NxeHeader.ofBytes file).payloadSize.toNat

/-- The payload of every load of the file that passes the bounds check is inside the
file, and no load reads behind the file. -/
structure PayloadInside (file : Bytes) : Prop where
  inside :
    ∀ o hdr,
      checkedHeader o file = .ok hdr →
      hdr.payloadOffset.toNat + hdr.payloadSize.toNat ≤ file.length
  noOverread :
    ∀ na o password,
      nxeLoadAndExec na o file password ≠ .error .outOfBounds

/-- An accepted header whose sum does not wrap has its payload inside the file. -/
theorem payload_inside_of_accepted
    {file : Bytes} {hdr : NxeHeader}
    (h : AcceptedHeader file hdr)
    (hwraps : ¬ SizeFieldWraps file) :
    hdr.payloadOffset.toNat + hdr.payloadSize.toNat ≤ file.length := by
  have hbound := h.bound
  by_cases hlt : hdr.payloadOffset.toNat + hdr.payloadSize.toNat < 2 ^ 32
  · rwa [payloadEnd_toNat_of_lt hlt] at hbound
  · obtain ⟨hlimit, hfits, rfl, hvalid, _⟩ := h
    have hoffset := hvalid.payloadOffset
    exact absurd ⟨hlimit, hfits, hvalid, by omega⟩ hwraps

/-- After the bounds check, the loader reads only the payload. -/
theorem nxeLoadAndExec_ne_outOfBounds
    {na : Sodium} {o : LoadOutcome} {file : Bytes} {password : Option CString}
    (hinside :
      ∀ hdr,
        checkedHeader o file = .ok hdr →
        hdr.payloadOffset.toNat + hdr.payloadSize.toNat ≤ file.length) :
    nxeLoadAndExec na o file password ≠ .error .outOfBounds := by
  intro h
  rw [nxeLoadAndExec, bind_eq_error_iff] at h
  rcases h with h | ⟨hdr, hchecked, h⟩
  · exact checkedHeader_ne_outOfBounds h
  have hread := readPayload_ne_outOfBounds (hinside hdr hchecked)
  rw [bind_eq_error_iff] at h
  rcases h with h | ⟨_, _, h⟩
  · unfold verifyStage at h
    split_ifs at h
    simp [bind_eq_error_iff, require_eq_error_iff, hread] at h
  rw [bind_eq_error_iff] at h
  rcases h with h | ⟨elf, _, h⟩
  · unfold decryptStage at h
    split_ifs at h <;>
      simp [bind_eq_error_iff, require_eq_error_iff, requireSome_eq_error_iff,
        hread] at h
  · simp [launchStage, bind_eq_error_iff, require_eq_error_iff, pure,
      Except.pure] at h

/--
**The bounds check of the loader.**

The payload of a file stays inside the file, and no byte outside is read, exactly
when the file is not one whose size field wraps the 32-bit sum.
-/
theorem payload_inside_iff
    (file : Bytes) :
    PayloadInside file ↔ ¬ SizeFieldWraps file := by
  constructor
  · intro hinside hwraps
    have hend := payloadEnd_lt_of_wraps hwraps.valid.payloadOffset
      (by
        have := hwraps.valid.payloadOffset
        have := hwraps.wraps
        simp only [sizeofNxeHeader] at *
        omega)
    have hchecked :=
      checkedHeader_ok_of_accepted
        ⟨hwraps.limit, hwraps.fits, rfl, hwraps.valid, hend.le.trans hwraps.fits⟩
    have hle := hinside.inside .ok _ hchecked
    have hlimit := hwraps.limit
    have hsize := hwraps.wraps
    simp only [readLimit, sizeofNxeHeader] at hlimit hsize
    omega
  · intro hwraps
    have hinside :
        ∀ o hdr,
          checkedHeader o file = .ok hdr →
          hdr.payloadOffset.toNat + hdr.payloadSize.toNat ≤ file.length :=
      fun o hdr h =>
        payload_inside_of_accepted (acceptedHeader_of_checkedHeader h) hwraps
    exact ⟨hinside, fun na o password => nxeLoadAndExec_ne_outOfBounds (hinside o)⟩

/-- A header that claims a payload of `2 ^ 32 - 1` bytes. -/
def hugeHeader : NxeHeader :=
  { NxeHeader.zero with
    magic := Block.pad 4 nxeMagic
    version := nxeVersion10
    payloadOffset := 256
    payloadSize := 0xFFFFFFFF }

/-- A file of that header alone passes the bounds check, with nothing behind the
header to read. -/
theorem hugeHeader_payload_outside :
    ¬ PayloadInside hugeHeader.toBytes := by
  intro h
  have hparsed : NxeHeader.ofBytes hugeHeader.toBytes = hugeHeader := by
    have := hugeHeader.ofBytes_toBytes_append []
    rwa [List.append_nil] at this
  have hlength := hugeHeader.length_toBytes
  have hend : hugeHeader.payloadEnd.toNat = 255 := by decide
  have hchecked : checkedHeader .ok hugeHeader.toBytes = .ok hugeHeader :=
    checkedHeader_ok_of_accepted
      { limit := by rw [hlength]; decide
        fits := hlength.ge
        parsed := hparsed.symm
        valid := ⟨by decide, by decide, by decide⟩
        bound := by rw [hend, hlength]; decide }
  have hle := h.inside .ok _ hchecked
  rw [hlength] at hle
  exact absurd hle (by decide)

end Bounds

end Nxe
end SecureZ
