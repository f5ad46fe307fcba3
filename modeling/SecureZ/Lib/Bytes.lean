import Mathlib.Data.List.TakeWhile
import Mathlib.Tactic.Ring

/-!
# Byte strings and fixed-width integers

The byte-level vocabulary that a model of a C program needs: byte strings, slices
of them, little-endian integers of a fixed width, and C strings.

Nothing here depends on the program that is modelled.  A byte string is a list of
`UInt8`.  An integer of width `w` is written as `w` bytes, least significant byte
first, and is read back modulo `256 ^ w`.  A C string is a byte string without a
NUL byte, carried together with the proof of that.
-/

namespace CLib

/-- A byte string. -/
abbrev Bytes := List UInt8

/-- The bytes of an ASCII literal. -/
def ascii (s : String) : Bytes :=
  s.toList.map (fun c => UInt8.ofNat c.toNat)

section LittleEndian

/-- The `w` low bytes of `v`, least significant first. -/
def leBytes : Nat → Nat → Bytes
  | 0, _ => []
  | w + 1, v => UInt8.ofNat v :: leBytes w (v / 256)

/-- The number whose little-endian bytes are given. -/
def leNat : Bytes → Nat
  | [] => 0
  | b :: bs => b.toNat + 256 * leNat bs

@[simp] theorem length_leBytes
    (w v : Nat) :
    (leBytes w v).length = w := by
  induction w generalizing v with
  | zero =>
      rfl
  | succ w ih =>
      simp [leBytes, ih]

/-- Writing and reading back keeps the value modulo the width. -/
theorem leNat_leBytes
    (w v : Nat) :
    leNat (leBytes w v) = v % 256 ^ w := by
  induction w generalizing v with
  | zero =>
      simp [leBytes, leNat, Nat.mod_one]
  | succ w ih =>
      have hhead : (UInt8.ofNat v).toNat = v % 256 := by
        simp
      rw [leBytes, leNat, ih, hhead, pow_succ', Nat.mod_mul]

/-- A value below the width is read back exactly. -/
theorem leNat_leBytes_of_lt
    {w v : Nat}
    (hv : v < 256 ^ w) :
    leNat (leBytes w v) = v := by
  rw [leNat_leBytes, Nat.mod_eq_of_lt hv]

/-- A number of `w` bytes is below the width. -/
theorem leNat_lt
    (bs : Bytes) :
    leNat bs < 256 ^ bs.length := by
  induction bs with
  | nil =>
      decide
  | cons b bs ih =>
      have hb : b.toNat < 256 := b.toNat_lt
      rw [leNat, List.length_cons, pow_succ']
      omega

end LittleEndian

section Slices

/-- The `len` bytes of `bs` from offset `off` on, fewer at the end of `bs`. -/
def slice (bs : Bytes) (off len : Nat) : Bytes :=
  (bs.drop off).take len

/-- The slice that starts after a prefix and spans the rest is the rest. -/
@[simp] theorem slice_append_end
    (pre mid : Bytes) :
    slice (pre ++ mid) pre.length mid.length = mid := by
  simp [slice]

/-- The memory of a buffer: a read past its end is not a value. -/
def readSlice (bs : Bytes) (off len : Nat) : Option Bytes :=
  if off + len ≤ bs.length then some (slice bs off len) else none

theorem readSlice_eq_some_iff
    {bs : Bytes} {off len : Nat} {out : Bytes} :
    readSlice bs off len = some out
      ↔
    off + len ≤ bs.length ∧ out = slice bs off len := by
  unfold readSlice
  split_ifs with h
  · simp [h, eq_comm]
  · simp [h]

end Slices

section Blocks

/-- A byte string of a fixed size, such as a key or a salt. -/
structure Block (n : Nat) where
  bytes : Bytes
  size : bytes.length = n
deriving DecidableEq

namespace Block

@[ext] theorem ext
    {n : Nat} {a b : Block n}
    (h : a.bytes = b.bytes) :
    a = b := by
  cases a
  cases b
  simpa using h

/-- The first `n` bytes of `bs`, filled up with zeros. -/
def pad (n : Nat) (bs : Bytes) : Block n where
  bytes := bs.take n ++ List.replicate (n - bs.length) 0
  size := by
    simp only [List.length_append, List.length_take, List.length_replicate]
    omega

/-- A block of zeros, as `memset` leaves it. -/
def zero (n : Nat) : Block n :=
  pad n []

/-- A block that is already complete is padded with nothing. -/
@[simp] theorem pad_bytes
    {n : Nat}
    (b : Block n) :
    pad n b.bytes = b := by
  ext1
  simp [pad, b.size, List.take_of_length_le]

end Block

end Blocks

section CStrings

/-- A C string: the bytes before the terminating NUL. -/
structure CString where
  bytes : Bytes
  nulFree : (0 : UInt8) ∉ bytes
deriving DecidableEq

namespace CString

/-- Length as `strlen` counts it. -/
def strlen (s : CString) : Nat :=
  s.bytes.length

/-- Concatenation, as `snprintf` with `%s%s` writes it. -/
def append (s t : CString) : CString where
  bytes := s.bytes ++ t.bytes
  nulFree := by
    simp [s.nulFree, t.nulFree]

/-- The first `n` bytes. -/
def take (n : Nat) (s : CString) : CString where
  bytes := s.bytes.take n
  nulFree := fun h => s.nulFree (List.mem_of_mem_take h)

/-- A string that is short enough is not cut. -/
theorem take_of_strlen_le
    {n : Nat} {s : CString}
    (h : s.strlen ≤ n) :
    s.take n = s := by
  cases s
  simp only [take, mk.injEq]
  exact List.take_of_length_le h

@[ext] theorem ext
    {s t : CString}
    (h : s.bytes = t.bytes) :
    s = t := by
  cases s
  cases t
  simpa using h

end CString

theorem nulFree_replicate
    (n : Nat) :
    (0 : UInt8) ∉ List.replicate n 97 :=
  fun h => absurd (List.eq_of_mem_replicate h) (by decide)

/-- The C string that a buffer holds: its bytes up to the first NUL. -/
def cstr (buf : Bytes) : CString where
  bytes := buf.takeWhile (fun b => b != 0)
  nulFree := by
    intro h
    have := List.mem_takeWhile_imp h
    simp at this

/-- A buffer without a NUL inside is its own C string. -/
theorem cstr_bytes_of_nulFree
    {buf : Bytes}
    (h : (0 : UInt8) ∉ buf) :
    (cstr buf).bytes = buf := by
  simp only [cstr]
  rw [List.takeWhile_eq_self_iff]
  intro b hb
  have hne : b ≠ 0 := fun h0 => h (h0 ▸ hb)
  simpa using hne

@[simp] theorem cstr_bytes
    (s : CString) :
    cstr s.bytes = s := by
  ext1
  exact cstr_bytes_of_nulFree s.nulFree

/-- The C string held by a buffer is a prefix of the buffer. -/
theorem cstr_length_le
    (buf : Bytes) :
    (cstr buf).bytes.length ≤ buf.length :=
  (List.takeWhile_prefix _).length_le

/-- The text in a `char` array of `n` bytes whose last byte is never written: what the
array held before it was set does not show. -/
structure CharArray (n : Nat) where
  text : CString
  fits : text.strlen < n
deriving DecidableEq

namespace CharArray

variable {n : Nat} [NeZero n]

/-- `strncpy(a, s, n - 1)`, and `snprintf(a, n, "%s", s)`. -/
def store (n : Nat) [NeZero n] (s : CString) : CharArray n where
  text := s.take (n - 1)
  fits := by
    have := NeZero.pos n
    simp only [CString.take, CString.strlen, List.length_take]
    omega

/-- A text that fits is stored as it is. -/
theorem store_text_of_fits
    {s : CString}
    (h : s.strlen < n) :
    (store n s).text = s := by
  ext1
  have hlen : s.bytes.length ≤ n - 1 := by
    have hlt : s.bytes.length < n := h
    omega
  exact List.take_of_length_le hlen

end CharArray

end CStrings

end CLib
