import SecureZ.Engine.NxeLoader

/-!
# Verifying a `.nxe` file without running it

`nxe_verify` repeats the checks of `nxe_load_and_exec` by hand: it reads the file, checks
the header and verifies the signature.  It does not check that the payload is inside the
file.

The main result says on which files the two still agree: on all but those whose payload
ends behind the file, and on these only where nothing is signed and the bounds check of
the loader is blind as well.
-/

namespace SecureZ
namespace Nxe

open CLib
open CryptoCore

section Model

/-- `nxe_verify`: success stands for the return value 0. -/
def nxeVerify
    (na : Sodium) (o : LoadOutcome) (file : Bytes) :
    Except LoadEnd Unit := do
  let data ← readFullFile o file
  require (sizeofNxeHeader ≤ data.length) (.failed .tooSmall)
  let hdr := NxeHeader.ofBytes data
  validateHeader hdr
  verifyStage na data hdr

/-- The size, header, payload and signature steps of `nxe_load_and_exec`. -/
def loadChecks
    (na : Sodium) (o : LoadOutcome) (file : Bytes) :
    Except LoadEnd NxeHeader := do
  let hdr ← checkedHeader o file
  verifyStage na file hdr
  return hdr

/-- The loader makes these checks, and then decrypts and launches. -/
theorem nxeLoadAndExec_eq
    (na : Sodium) (o : LoadOutcome) (file : Bytes) (password : Option CString) :
    nxeLoadAndExec na o file password =
      loadChecks na o file >>= fun hdr =>
        decryptStage na o file password hdr >>= launchStage na o hdr := by
  unfold nxeLoadAndExec loadChecks
  cases hchecked : checkedHeader o file with
  | error e => rfl
  | ok hdr =>
      simp only [ok_bind]
      cases verifyStage na file hdr <;> rfl

/-- Verifying accepts exactly what the loader lets through its checks, and reads no byte
outside the file. -/
structure VerifyAgrees (file : Bytes) : Prop where
  agrees :
    ∀ na o, nxeVerify na o file = .ok () ↔ ∃ hdr, loadChecks na o file = .ok hdr
  inside :
    ∀ na o, nxeVerify na o file ≠ .error .outOfBounds

/-- The files with a valid header whose payload ends behind the file. -/
structure EndsPastFile (file : Bytes) : Prop where
  limit : file.length ≤ readLimit
  fits : sizeofNxeHeader ≤ file.length
  valid : (NxeHeader.ofBytes file).Valid
  past :
    file.length <
      (NxeHeader.ofBytes file).payloadOffset.toNat +
        (NxeHeader.ofBytes file).payloadSize.toNat

/-- The file asks for a signature check, or its payload end is computed without wrapping. -/
def SignedOrExact (file : Bytes) : Prop :=
  (NxeHeader.ofBytes file).hasFlag nxeFlagSigned = true ∨
    (NxeHeader.ofBytes file).payloadOffset.toNat +
      (NxeHeader.ofBytes file).payloadSize.toNat < 2 ^ 32

end Model

section Checks

variable {na : Sodium} {o : LoadOutcome} {file : Bytes}

/-- The checks that both functions make before they look at the payload. -/
structure ReadsHeader (o : LoadOutcome) (file : Bytes) : Prop where
  opens : o.fopen = true
  tells : o.ftell = true
  allocates : o.mallocFile = true
  reads : o.fread = true
  limit : file.length ≤ readLimit
  fits : sizeofNxeHeader ≤ file.length
  valid : (NxeHeader.ofBytes file).Valid

theorem nxeVerify_eq_ok_iff :
    nxeVerify na o file = .ok ()
      ↔
    ReadsHeader o file ∧ verifyStage na file (NxeHeader.ofBytes file) = .ok () := by
  simp only [nxeVerify, bind_eq_ok_iff, require_eq_ok_iff, readFullFile_eq_ok_iff,
    validateHeader_eq_ok_iff]
  constructor
  · rintro ⟨_, ⟨hopen, htell, hmalloc, hread, hlimit, rfl⟩, _, hfits, _, hvalid, hverify⟩
    exact ⟨⟨hopen, htell, hmalloc, hread, hlimit, hfits, hvalid⟩, hverify⟩
  · rintro ⟨⟨hopen, htell, hmalloc, hread, hlimit, hfits, hvalid⟩, hverify⟩
    exact ⟨file, ⟨hopen, htell, hmalloc, hread, hlimit, rfl⟩, (), hfits, (), hvalid, hverify⟩

theorem loadChecks_eq_ok_iff
    {hdr : NxeHeader} :
    loadChecks na o file = .ok hdr
      ↔
    ReadsHeader o file ∧ hdr = NxeHeader.ofBytes file ∧
      hdr.payloadEnd.toNat ≤ file.length ∧ verifyStage na file hdr = .ok () := by
  simp only [loadChecks, checkedHeader, bind_eq_ok_iff, require_eq_ok_iff,
    readFullFile_eq_ok_iff, validateHeader_eq_ok_iff, pure, Except.pure, Except.ok.injEq]
  constructor
  · rintro ⟨_, ⟨_, ⟨hopen, htell, hmalloc, hread, hlimit, rfl⟩, _, hfits, _, hvalid, _, hend, rfl⟩,
      _, hverify, rfl⟩
    exact ⟨⟨hopen, htell, hmalloc, hread, hlimit, hfits, hvalid⟩, rfl, hend, hverify⟩
  · rintro ⟨⟨hopen, htell, hmalloc, hread, hlimit, hfits, hvalid⟩, rfl, hend, hverify⟩
    exact ⟨_, ⟨file, ⟨hopen, htell, hmalloc, hread, hlimit, rfl⟩, (), hfits, (), hvalid, (),
      hend, rfl⟩, (), hverify, rfl⟩

/-- Where the checks of the header fail, nothing behind the file is read. -/
theorem nxeVerify_outOfBounds_iff :
    nxeVerify na o file = .error .outOfBounds
      ↔
    ReadsHeader o file ∧
      verifyStage na file (NxeHeader.ofBytes file) = .error .outOfBounds := by
  constructor
  · intro h
    rw [nxeVerify, bind_eq_error_iff] at h
    rcases h with h | ⟨data, hread, h⟩
    · simp [readFullFile, bind_eq_error_iff, require_eq_error_iff, pure, Except.pure] at h
    obtain ⟨hopen, htell, hmalloc, hfread, hlimit, rfl⟩ := readFullFile_eq_ok_iff.mp hread
    rw [bind_eq_error_iff] at h
    rcases h with h | ⟨_, hfits, h⟩
    · simp [require_eq_error_iff] at h
    rw [require_eq_ok_iff] at hfits
    rw [bind_eq_error_iff] at h
    rcases h with h | ⟨_, hvalid, h⟩
    · simp [validateHeader, bind_eq_error_iff, require_eq_error_iff] at h
    rw [validateHeader_eq_ok_iff] at hvalid
    exact ⟨⟨hopen, htell, hmalloc, hfread, hlimit, hfits, hvalid⟩, h⟩
  · rintro ⟨hreads, hstage⟩
    have hread : readFullFile o file = .ok file :=
      readFullFile_eq_ok_iff.mpr
        ⟨hreads.opens, hreads.tells, hreads.allocates, hreads.reads, hreads.limit, rfl⟩
    have hfits : require (sizeofNxeHeader ≤ file.length) (LoadEnd.failed .tooSmall) = .ok () :=
      require_eq_ok_iff.mpr hreads.fits
    have hvalid : validateHeader (NxeHeader.ofBytes file) = .ok () :=
      validateHeader_eq_ok_iff.mpr hreads.valid
    simp only [nxeVerify, hread, ok_bind, hfits, hvalid, hstage]

/-- The signature step reads behind the file exactly when a signature is checked over a
payload that ends there. -/
theorem verifyStage_outOfBounds_iff
    {hdr : NxeHeader} :
    verifyStage na file hdr = .error .outOfBounds
      ↔
    hdr.hasFlag nxeFlagSigned = true ∧
      file.length < hdr.payloadOffset.toNat + hdr.payloadSize.toNat := by
  unfold verifyStage
  split_ifs with hsigned
  · by_cases hinside : hdr.payloadOffset.toNat + hdr.payloadSize.toNat ≤ file.length
    · rw [readPayload_eq_ok_iff.mpr ⟨hinside, rfl⟩]
      simp [require_eq_error_iff, hinside]
    · have hread : readPayload file hdr = .error .outOfBounds := by
        simp [readPayload, readSlice, requireSome, hinside]
      rw [hread]
      simpa [hsigned, bind, Except.bind] using Nat.lt_of_not_le hinside
  · simp [hsigned]

theorem verifyStage_of_unsigned
    {hdr : NxeHeader}
    (h : hdr.hasFlag nxeFlagSigned = false) :
    verifyStage na file hdr = .ok () := by
  simp [verifyStage, h]

end Checks

section Agreement

/-- A file that can be read, with every call succeeding. -/
theorem readsHeader_ok
    {file : Bytes}
    (h : EndsPastFile file) :
    ReadsHeader .ok file :=
  ⟨rfl, rfl, rfl, rfl, h.limit, h.fits, h.valid⟩

/-- On a payload inside the file both functions make the same checks. -/
theorem verifyAgrees_of_inside
    {file : Bytes}
    (h : ¬ EndsPastFile file) :
    VerifyAgrees file := by
  have hinside :
      ∀ o, ReadsHeader o file →
        (NxeHeader.ofBytes file).payloadOffset.toNat +
          (NxeHeader.ofBytes file).payloadSize.toNat ≤ file.length := by
    intro o ho
    by_contra hpast
    exact h ⟨ho.limit, ho.fits, ho.valid, Nat.lt_of_not_le hpast⟩
  constructor
  · intro na o
    rw [nxeVerify_eq_ok_iff]
    constructor
    · rintro ⟨hreads, hverify⟩
      have hle := hinside o hreads
      have hlimit := hreads.limit
      have hlt :
          (NxeHeader.ofBytes file).payloadOffset.toNat +
            (NxeHeader.ofBytes file).payloadSize.toNat < 2 ^ 32 := by
        simp only [readLimit] at hlimit
        omega
      rw [← payloadEnd_toNat_of_lt hlt] at hle
      exact ⟨_, loadChecks_eq_ok_iff.mpr ⟨hreads, rfl, hle, hverify⟩⟩
    · rintro ⟨hdr, hload⟩
      obtain ⟨hreads, rfl, -, hverify⟩ := loadChecks_eq_ok_iff.mp hload
      exact ⟨hreads, hverify⟩
  · intro na o hout
    obtain ⟨hreads, hstage⟩ := nxeVerify_outOfBounds_iff.mp hout
    have hpast := (verifyStage_outOfBounds_iff.mp hstage).2
    exact absurd (hinside o hreads) (Nat.not_le_of_lt hpast)

/-- Where nothing is signed and the sum wraps, both functions accept. -/
theorem verifyAgrees_of_wraps
    {file : Bytes}
    (h : EndsPastFile file)
    (hnot : ¬ SignedOrExact file) :
    VerifyAgrees file := by
  simp only [SignedOrExact, not_or, Bool.not_eq_true, Nat.not_lt] at hnot
  obtain ⟨hunsigned, hwraps⟩ := hnot
  have hend := payloadEnd_lt_of_wraps h.valid.payloadOffset hwraps
  constructor
  · intro na o
    rw [nxeVerify_eq_ok_iff]
    constructor
    · rintro ⟨hreads, hverify⟩
      exact ⟨_, loadChecks_eq_ok_iff.mpr ⟨hreads, rfl, hend.le.trans h.fits, hverify⟩⟩
    · rintro ⟨hdr, hload⟩
      obtain ⟨hreads, rfl, -, hverify⟩ := loadChecks_eq_ok_iff.mp hload
      exact ⟨hreads, hverify⟩
  · intro na o hout
    obtain ⟨-, hstage⟩ := nxeVerify_outOfBounds_iff.mp hout
    rw [verifyStage_of_unsigned hunsigned] at hstage
    cases hstage

/-- A signature that is checked behind the file is read from there. -/
theorem not_verifyAgrees_of_signed
    {file : Bytes}
    (h : EndsPastFile file)
    (hsigned : (NxeHeader.ofBytes file).hasFlag nxeFlagSigned = true) :
    ¬ VerifyAgrees file := by
  intro hagrees
  have hstage :
      verifyStage mirror file (NxeHeader.ofBytes file) = .error .outOfBounds :=
    verifyStage_outOfBounds_iff.mpr ⟨hsigned, h.past⟩
  exact hagrees.inside mirror .ok
    (nxeVerify_outOfBounds_iff.mpr ⟨readsHeader_ok h, hstage⟩)

/-- An unsigned file whose payload the loader misses is accepted. -/
theorem not_verifyAgrees_of_exact
    {file : Bytes}
    (h : EndsPastFile file)
    (hunsigned : (NxeHeader.ofBytes file).hasFlag nxeFlagSigned = false)
    (hexact :
      (NxeHeader.ofBytes file).payloadOffset.toNat +
        (NxeHeader.ofBytes file).payloadSize.toNat < 2 ^ 32) :
    ¬ VerifyAgrees file := by
  intro hagrees
  have haccepted : nxeVerify mirror .ok file = .ok () :=
    nxeVerify_eq_ok_iff.mpr ⟨readsHeader_ok h, verifyStage_of_unsigned hunsigned⟩
  obtain ⟨hdr, hload⟩ := (hagrees.agrees mirror .ok).mp haccepted
  obtain ⟨-, rfl, hend, -⟩ := loadChecks_eq_ok_iff.mp hload
  rw [payloadEnd_toNat_of_lt hexact] at hend
  exact Nat.not_le_of_lt h.past hend

/--
**Verification and loading.**

`nxe_verify` accepts exactly the files that pass the checks of the loader, and stays
inside them, unless the payload ends behind the file and either a signature is checked
or the loader sees the end where it is.
-/
theorem verify_agrees_iff
    (file : Bytes) :
    VerifyAgrees file ↔ ¬ (EndsPastFile file ∧ SignedOrExact file) := by
  constructor
  · rintro hagrees ⟨hpast, hcase⟩
    cases hsigned : (NxeHeader.ofBytes file).hasFlag nxeFlagSigned with
    | true =>
        exact not_verifyAgrees_of_signed hpast hsigned hagrees
    | false =>
        rcases hcase with hflag | hexact
        · simp [hsigned] at hflag
        · exact not_verifyAgrees_of_exact hpast hsigned hexact hagrees
  · intro h
    by_cases hpast : EndsPastFile file
    · exact verifyAgrees_of_wraps hpast fun hsigned => h ⟨hpast, hsigned⟩
    · exact verifyAgrees_of_inside hpast

/-- A header that claims a payload of one byte. -/
def oneByteHeader : NxeHeader :=
  { hugeHeader with payloadSize := 1 }

/-- A file of that header alone is verified, and the loader refuses it. -/
theorem oneByteHeader_verified :
    ¬ VerifyAgrees oneByteHeader.toBytes := by
  intro h
  have hparsed : NxeHeader.ofBytes oneByteHeader.toBytes = oneByteHeader := by
    have := oneByteHeader.ofBytes_toBytes_append []
    rwa [List.append_nil] at this
  have hlength : oneByteHeader.toBytes.length = 256 := oneByteHeader.length_toBytes
  have hpast : EndsPastFile oneByteHeader.toBytes :=
    { limit := by rw [hlength]; decide
      fits := by rw [hlength]; decide
      valid := by rw [hparsed]; exact ⟨rfl, rfl, rfl⟩
      past := by rw [hparsed, hlength]; decide }
  exact not_verifyAgrees_of_exact hpast (by rw [hparsed]; rfl) (by rw [hparsed]; decide) h

end Agreement

end Nxe
end SecureZ
