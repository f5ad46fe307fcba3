import SecureZ.Engine.CryptoCore
import SecureZ.Lib.Checks

/-!
# The `.nxe` header

`nxe_format.h` declares the header as a packed structure of 256 bytes, followed on
disk by the payload.  Multi-byte fields are little-endian.  `NxeHeader.toBytes` is
what `fwrite` of the structure writes, `NxeHeader.ofBytes` what `memcpy` into it
reads; reading back what was written gives the header and leaves the payload.
-/

namespace SecureZ
namespace Nxe

open CLib
open CryptoCore

/-- `NXE_MAGIC`, the four bytes `N X E 0x01`. -/
def nxeMagic : Bytes :=
  [78, 88, 69, 1]

/-- `NXE_VERSION_1_0`. -/
def nxeVersion10 : UInt32 := 0x00010000

/-- `NXE_FLAG_ENCRYPTED`. -/
def nxeFlagEncrypted : UInt32 := 1

/-- `NXE_FLAG_SIGNED`. -/
def nxeFlagSigned : UInt32 := 2

/-- `NXE_FLAG_RAM_ONLY`. -/
def nxeFlagRamOnly : UInt32 := 4

/-- `NXE_FLAG_SANDBOXED`. -/
def nxeFlagSandboxed : UInt32 := 8

/-- `sizeof(NxeHeader)`, as the static assertion fixes it. -/
def sizeofNxeHeader : Nat := 256

/-- The packed header. -/
structure NxeHeader where
  magic : Block 4
  version : UInt32
  flags : UInt32
  signature : Sig
  pubkey : PublicKey
  payloadHash : Hash
  permissions : UInt32
  payloadOffset : UInt32
  payloadSize : UInt32
  nonce : Nonce
  salt : Salt
  reserved : Block 64
deriving DecidableEq

/-- A flag test, `hdr.flags & flag`. -/
def NxeHeader.hasFlag (hdr : NxeHeader) (flag : UInt32) : Bool :=
  hdr.flags &&& flag != 0

/-- The header after `memset(&hdr, 0, sizeof(hdr))`. -/
def NxeHeader.zero : NxeHeader where
  magic := Block.zero 4
  version := 0
  flags := 0
  signature := Block.zero 64
  pubkey := Block.zero 32
  payloadHash := Block.zero 32
  permissions := 0
  payloadOffset := 0
  payloadSize := 0
  nonce := Block.zero 24
  salt := Block.zero 16
  reserved := Block.zero 64

section Layout

/-- The four bytes of a `uint32_t` in memory. -/
def u32Bytes (v : UInt32) : Bytes :=
  leBytes 4 v.toNat

/-- The `uint32_t` at the start of a buffer, and what follows it. -/
def takeU32 (bs : Bytes) : UInt32 × Bytes :=
  (UInt32.ofNat (leNat (bs.take 4)), bs.drop 4)

/-- The array of `n` bytes at the start of a buffer, and what follows it. -/
def takeBlock (n : Nat) (bs : Bytes) : Block n × Bytes :=
  (Block.pad n (bs.take n), bs.drop n)

@[simp] theorem length_u32Bytes
    (v : UInt32) :
    (u32Bytes v).length = 4 := by
  simp [u32Bytes]

@[simp] theorem takeU32_append
    (v : UInt32) (rest : Bytes) :
    takeU32 (u32Bytes v ++ rest) = (v, rest) := by
  have htake : (u32Bytes v ++ rest).take 4 = u32Bytes v :=
    List.take_left' (length_u32Bytes v)
  have hdrop : (u32Bytes v ++ rest).drop 4 = rest :=
    List.drop_left' (length_u32Bytes v)
  have hval : leNat (u32Bytes v) = v.toNat :=
    leNat_leBytes_of_lt v.toNat_lt
  simp [takeU32, htake, hdrop, hval]

@[simp] theorem takeBlock_append
    {n : Nat}
    (b : Block n) (rest : Bytes) :
    takeBlock n (b.bytes ++ rest) = (b, rest) := by
  have htake : (b.bytes ++ rest).take n = b.bytes :=
    List.take_left' b.size
  have hdrop : (b.bytes ++ rest).drop n = rest :=
    List.drop_left' b.size
  simp [takeBlock, htake, hdrop]

/-- The header as it lies in memory and on disk. -/
def NxeHeader.toBytes (hdr : NxeHeader) : Bytes :=
  hdr.magic.bytes ++ (u32Bytes hdr.version ++ (u32Bytes hdr.flags ++
    (hdr.signature.bytes ++ (hdr.pubkey.bytes ++ (hdr.payloadHash.bytes ++
      (u32Bytes hdr.permissions ++ (u32Bytes hdr.payloadOffset ++
        (u32Bytes hdr.payloadSize ++ (hdr.nonce.bytes ++
          (hdr.salt.bytes ++ hdr.reserved.bytes))))))))))

/-- The header at the start of a buffer. -/
def NxeHeader.ofBytes (bs : Bytes) : NxeHeader :=
  let (magic, bs) := takeBlock 4 bs
  let (version, bs) := takeU32 bs
  let (flags, bs) := takeU32 bs
  let (signature, bs) := takeBlock 64 bs
  let (pubkey, bs) := takeBlock 32 bs
  let (payloadHash, bs) := takeBlock crypticHashLen bs
  let (permissions, bs) := takeU32 bs
  let (payloadOffset, bs) := takeU32 bs
  let (payloadSize, bs) := takeU32 bs
  let (nonce, bs) := takeBlock crypticNonceLen bs
  let (salt, bs) := takeBlock crypticSaltLen bs
  let (reserved, _) := takeBlock 64 bs
  { magic, version, flags, signature, pubkey, payloadHash, permissions,
    payloadOffset, payloadSize, nonce, salt, reserved }

/-- The static assertion of the header file. -/
theorem NxeHeader.length_toBytes
    (hdr : NxeHeader) :
    hdr.toBytes.length = sizeofNxeHeader := by
  simp [NxeHeader.toBytes, Block.size, sizeofNxeHeader, crypticHashLen,
    crypticNonceLen, crypticSaltLen]

/-- Reading back a header that was written. -/
theorem NxeHeader.ofBytes_toBytes_append
    (hdr : NxeHeader) (rest : Bytes) :
    NxeHeader.ofBytes (hdr.toBytes ++ rest) = hdr := by
  simp [NxeHeader.ofBytes, NxeHeader.toBytes, List.append_assoc]

end Layout

end Nxe
end SecureZ
