import SecureZ.Lib.FileSystem
import SecureZ.Lib.Stream
import Mathlib.Data.List.Count
import Mathlib.Data.List.Range

/-!
# Deleting a file for good

`cryptic_secure_delete` of `cryptic_engine.c` overwrites a file with zeros, with ones and
with random bytes before it unlinks it.  What the calls return is looked at for the last
`unlink` alone: the passes ignore what `fwrite`, `fflush` and `fsync` return, and the
path of an empty file is unlinked without a look at the result.

The main result says for every outcome of these calls that the loops end, and exactly
when a return of 0 means that the data is gone.
-/

namespace SecureZ
namespace SecureDelete

open CLib

section Model

/-- The three overwriting passes. -/
inductive Pass where
  | zeros
  | ones
  | random
deriving DecidableEq

/-- What the deletion does to the file: a byte of a pass reaches the disk, or the path is
unlinked. -/
inductive Op where
  | write (pass : Pass) (offset : Nat) (byte : UInt8)
  | unlink
deriving DecidableEq

/-- Outcomes of the calls of one pass.  The `k`-th `fwrite` takes at most `fwrite k`
bytes.  When the flush or the sync fails, the byte at an offset is on disk only if
`reaches` says so. -/
structure PassOutcome where
  fwrite : Nat → Nat
  fflush : Bool
  fsync : Bool
  reaches : Nat → Bool

/-- Outcomes of the calls of `cryptic_secure_delete`. -/
structure DeleteOutcome where
  stat : Bool
  fopen : Bool
  malloc : Bool
  passes : Pass → PassOutcome
  unlink : Bool

/-- The buffer size of the passes, for a file that is not empty. -/
def chunkSize (fileSize : Nat) : Nat :=
  if fileSize < 8192 then fileSize else 8192

/-- The byte at index `i` of the buffer in the `k`-th turn of a pass; `draw` is
`randombytes_buf`. -/
def passByte (draw : Nat → Nat → UInt8) : Pass → Nat → Nat → UInt8
  | .zeros, _, _ => 0x00
  | .ones, _, _ => 0xFF
  | .random, k, i => draw k i

/-- Where the loop of a pass stands: the calls made, the counter, the file position, and
the bytes that `fwrite` took with their offsets. -/
structure PassState where
  calls : Nat
  written : Nat
  pos : Nat
  taken : List (Nat × UInt8)

/-- `fseek(f, 0, SEEK_SET)` and the counter at 0. -/
def PassState.start : PassState := ⟨0, 0, 0, []⟩

/-- What a turn of a pass asks `fwrite` to write. -/
def toWrite (fileSize written : Nat) : Nat :=
  if fileSize - written < chunkSize fileSize then fileSize - written
  else chunkSize fileSize

/-- One turn of the loop of a pass.  The counter goes on by what was asked for, the file
position by what `fwrite` took. -/
def passTurn
    (fileSize : Nat) (byte : Nat → Nat → UInt8) (fwrite : Nat → Nat) (s : PassState) :
    Turn PassState (List (Nat × UInt8)) :=
  if s.written < fileSize then
    let n := min (fwrite s.calls) (toWrite fileSize s.written)
    .next
      { calls := s.calls + 1
        written := s.written + toWrite fileSize s.written
        pos := s.pos + n
        taken := s.taken ++ (List.range n).map fun i => (s.pos + i, byte s.calls i) }
  else
    .done s.taken

/-- What is on disk of the bytes that `fwrite` took. -/
def flushed (o : PassOutcome) (taken : List (Nat × UInt8)) : List (Nat × UInt8) :=
  taken.filter fun w => (o.fflush && o.fsync) || o.reaches w.1

/-- One pass: the loop, `fflush` and `fsync`. -/
def overwritePass
    (fuel fileSize : Nat) (draw : Nat → Nat → UInt8) (pass : Pass) (o : PassOutcome) :
    Option (List Op) :=
  (iterate (passTurn fileSize (passByte draw pass) o.fwrite) fuel .start).map fun taken =>
    (flushed o taken).map fun w => .write pass w.1 w.2

/-- `cryptic_secure_delete` after `stat`. -/
def deleteFile
    (fuel : Nat) (o : DeleteOutcome) (draw : Nat → Nat → UInt8) (fileSize : Nat) :
    Option (Int × List Op) :=
  if fileSize = 0 then some (0, if o.unlink then [.unlink] else [])
  else if !o.fopen then some (-1, [])
  else if !o.malloc then some (-1, [])
  else do
    let zeros ← overwritePass fuel fileSize draw .zeros (o.passes .zeros)
    let ones ← overwritePass fuel fileSize draw .ones (o.passes .ones)
    let random ← overwritePass fuel fileSize draw .random (o.passes .random)
    if !o.unlink then return (-1, zeros ++ ones ++ random)
    return (0, zeros ++ ones ++ random ++ [.unlink])

/-- The size that `stat` reports. -/
def statSize (o : DeleteOutcome) (path : Option CString) (fs : FileSystem) : Option Nat := do
  let path ← path
  guard o.stat
  let content ← fs.readFile path
  return content.length

/-- `cryptic_secure_delete`: the result and what was done to the file, or `none` when a
loop has not ended within `fuel` turns. -/
def crypticSecureDelete
    (fuel : Nat) (o : DeleteOutcome) (draw : Nat → Nat → UInt8)
    (path : Option CString) (fs : FileSystem) :
    Option (Int × List Op) :=
  match statSize o path fs with
  | none => some (-1, [])
  | some fileSize => deleteFile fuel o draw fileSize

/-- The content after a byte was written, with zeros up to an offset past the end. -/
def putByte (content : Bytes) (offset : Nat) (byte : UInt8) : Bytes :=
  (content ++ List.replicate (offset + 1 - content.length) 0).set offset byte

/-- The file system after an operation on the file at `path`. -/
def Op.apply (path : CString) (fs : FileSystem) : Op → FileSystem
  | .write _ offset byte =>
      match fs path with
      | some content => fs.writeFile path (putByte content offset byte)
      | none => fs
  | .unlink => fs.unlink path

end Model

section Specification

/-- The operation writes this offset in this pass. -/
def Op.writes (pass : Pass) (offset : Nat) : Op → Bool
  | .write p off _ => p == pass && off == offset
  | .unlink => false

/-- The byte is one of those that the pass is for. -/
def Pass.Fills (draw : Nat → Nat → UInt8) (pass : Pass) (byte : UInt8) : Prop :=
  match pass with
  | .zeros => byte = 0x00
  | .ones => byte = 0xFF
  | .random => ∃ k i, byte = draw k i

/-- The file is gone: its path is unlinked at the end, and before that each pass wrote its
own bytes, every offset of the file exactly once and none past the end. -/
structure Gone
    (draw : Nat → Nat → UInt8) (path : Option CString) (fs : FileSystem) (fileSize : Nat)
    (ops : List Op) : Prop where
  absent : ∀ p ∈ path, (ops.foldl (Op.apply p) fs) p = none
  overwritten : ∃ before, ops = before ++ [.unlink] ∧
    (∀ pass offset byte, .write pass offset byte ∈ before → pass.Fills draw byte) ∧
    ∀ pass offset,
      before.countP (Op.writes pass offset) = if offset < fileSize then 1 else 0

/-- Every `fwrite` of the pass takes what it is given, and what was taken is flushed and
synced, or reaches the disk all the same. -/
def PassOutcome.Complete (o : PassOutcome) (fileSize : Nat) : Prop :=
  (∀ k, k * chunkSize fileSize < fileSize →
    min (chunkSize fileSize) (fileSize - k * chunkSize fileSize) ≤ o.fwrite k) ∧
    ((o.fflush = true ∧ o.fsync = true) ∨ ∀ offset < fileSize, o.reaches offset = true)

/-- When the data of a file of this size is gone if the deletion reports so: the path of an
empty file is unlinked, and each pass over another file is complete unless a call that is
looked at fails. -/
def DeleteOutcome.Erases (o : DeleteOutcome) (fileSize : Nat) : Prop :=
  if fileSize = 0 then o.unlink = true
  else
    o.fopen = true → o.malloc = true → o.unlink = true →
      ∀ pass, (o.passes pass).Complete fileSize

end Specification

section Passes

variable {fileSize : Nat} {draw : Nat → Nat → UInt8} {pass : Pass} {fwrite : Nat → Nat}

theorem chunkSize_pos
    (h : fileSize ≠ 0) :
    0 < chunkSize fileSize := by
  unfold chunkSize
  split_ifs <;> omega

/-- What the loop of a pass keeps. -/
structure PassInv
    (fileSize : Nat) (draw : Nat → Nat → UInt8) (pass : Pass) (fwrite : Nat → Nat)
    (s : PassState) : Prop where
  written : s.written = min (s.calls * chunkSize fileSize) fileSize
  offsets : s.taken.map Prod.fst = List.range s.pos
  bytes : ∀ w ∈ s.taken, pass.Fills draw w.2
  pos_le : s.pos ≤ s.written
  full : s.pos = s.written ↔
    ∀ k < s.calls,
      min (chunkSize fileSize) (fileSize - k * chunkSize fileSize) ≤ fwrite k

theorem passInv_start : PassInv fileSize draw pass fwrite .start where
  written := by simp [PassState.start]
  offsets := rfl
  bytes := by simp [PassState.start]
  pos_le := le_rfl
  full := by simp [PassState.start]

theorem fills_passByte
    (draw : Nat → Nat → UInt8) (pass : Pass) (k i : Nat) :
    pass.Fills draw (passByte draw pass k i) := by
  cases pass with
  | zeros => rfl
  | ones => rfl
  | random => exact ⟨k, i, rfl⟩

/-- What a turn of the loop asks `fwrite` for. -/
theorem toWrite_eq
    {s : PassState}
    (hwritten : s.written = min (s.calls * chunkSize fileSize) fileSize)
    (hlt : s.written < fileSize) :
    toWrite fileSize s.written =
      min (chunkSize fileSize) (fileSize - s.calls * chunkSize fileSize) := by
  have hcalls : s.written = s.calls * chunkSize fileSize := by omega
  rw [← hcalls, toWrite]
  split_ifs <;> omega

theorem passInv_next
    (s s' : PassState)
    (h : PassInv fileSize draw pass fwrite s)
    (hturn : passTurn fileSize (passByte draw pass) fwrite s = .next s') :
    PassInv fileSize draw pass fwrite s' := by
  unfold passTurn at hturn
  split_ifs at hturn with hlt
  rw [toWrite_eq h.written hlt] at hturn
  obtain rfl := Turn.next.inj hturn
  have hcalls : s.written = s.calls * chunkSize fileSize := by
    have := h.written
    omega
  have hpos := h.pos_le
  constructor
  · rw [Nat.succ_mul]
    simp only
    omega
  · simp only [List.map_append, h.offsets, List.map_map, List.range_add]
    rfl
  · intro w hw
    rcases List.mem_append.mp hw with hold | hnew
    · exact h.bytes w hold
    · obtain ⟨i, -, rfl⟩ := List.mem_map.mp hnew
      exact fills_passByte draw pass s.calls i
  · simp only
    omega
  · simp only [Nat.forall_lt_succ_right]
    rw [← h.full]
    omega

/-- Each turn brings the counter nearer to the end. -/
theorem passTurn_lower
    (s s' : PassState)
    (hturn : passTurn fileSize (passByte draw pass) fwrite s = .next s') :
    fileSize - s'.written < fileSize - s.written := by
  unfold passTurn at hturn
  split_ifs at hturn with hlt
  obtain rfl := Turn.next.inj hturn
  have hchunk := chunkSize_pos (show fileSize ≠ 0 by omega)
  simp only [toWrite]
  split_ifs <;> omega

/-- With enough turns every pass ends. -/
theorem exists_overwritePass
    {fuel : Nat}
    (hfuel : fileSize < fuel)
    (draw : Nat → Nat → UInt8) (pass : Pass) (o : PassOutcome) :
    ∃ ops, overwritePass fuel fileSize draw pass o = some ops := by
  obtain ⟨taken, hrun⟩ :=
    iterate_terminates (fun s : PassState => fileSize - s.written)
      (fun s s' hturn => passTurn_lower s s' hturn) (s := .start) hfuel
  exact ⟨_, by rw [overwritePass, hrun, Option.map_some]⟩

/-- The bytes that a pass has written when its loop ends. -/
theorem taken_of_iterate
    {fuel : Nat} {taken : List (Nat × UInt8)}
    (h : iterate (passTurn fileSize (passByte draw pass) fwrite) fuel .start = some taken) :
    (∀ w ∈ taken, pass.Fills draw w.2) ∧
      ∃ n ≤ fileSize, taken.map Prod.fst = List.range n ∧
        (n = fileSize ↔
          ∀ k, k * chunkSize fileSize < fileSize →
            min (chunkSize fileSize) (fileSize - k * chunkSize fileSize) ≤ fwrite k) := by
  obtain ⟨s, hinv, hdone⟩ := iterate_invariant _ passInv_next passInv_start h
  unfold passTurn at hdone
  split_ifs at hdone with hlt
  obtain rfl := Turn.done.inj hdone
  have hwritten := hinv.written
  have hend : s.written = fileSize := by omega
  have hcalls : fileSize ≤ s.calls * chunkSize fileSize := by omega
  refine ⟨hinv.bytes, s.pos, hend ▸ hinv.pos_le, hinv.offsets, ?_⟩
  rw [← hend, hinv.full, hend]
  constructor
  · intro hall k hk
    have hbound : k * chunkSize fileSize < s.calls * chunkSize fileSize := by omega
    exact hall k (Nat.lt_of_mul_lt_mul_right hbound)
  · intro hall k _
    rcases Nat.lt_or_ge (k * chunkSize fileSize) fileSize with hk | hk
    · exact hall k hk
    · omega

/-- How often a pass writes an offset, when the offsets taken are the first `n`. -/
theorem countP_writes
    {o : PassOutcome} {taken : List (Nat × UInt8)} {n : Nat}
    (hoffsets : taken.map Prod.fst = List.range n)
    (offset : Nat) :
    ((flushed o taken).map fun w => Op.write pass w.1 w.2).countP (Op.writes pass offset) =
      if offset < n ∧ ((o.fflush && o.fsync) || o.reaches offset) = true then 1 else 0 := by
  have hcount :
      ((flushed o taken).map fun w => Op.write pass w.1 w.2).countP
          (Op.writes pass offset) =
        ((flushed o taken).map Prod.fst).count offset := by
    rw [List.countP_map, List.count, List.countP_map]
    congr 1
    funext w
    simp [Op.writes]
  have hkept :
      (flushed o taken).map Prod.fst =
        (List.range n).filter fun off => (o.fflush && o.fsync) || o.reaches off := by
    rw [← hoffsets, List.filter_map]
    rfl
  rw [hcount, hkept, List.Nodup.count (List.nodup_range.filter _)]
  simp only [List.mem_filter, List.mem_range]

/-- Every offset is written once exactly when all of them are taken and kept. -/
theorem once_iff
    {n : Nat} {kept : Nat → Prop} [DecidablePred kept]
    (hn : n ≤ fileSize) :
    (∀ offset,
        (if offset < n ∧ kept offset then 1 else 0) = if offset < fileSize then 1 else 0)
      ↔
    n = fileSize ∧ ∀ offset < fileSize, kept offset := by
  constructor
  · intro h
    have hall : ∀ offset < fileSize, offset < n ∧ kept offset := by
      intro offset hlt
      have hoff := h offset
      rw [if_pos hlt] at hoff
      by_contra hnot
      rw [if_neg hnot] at hoff
      exact absurd hoff (by decide)
    refine ⟨Nat.le_antisymm hn ?_, fun offset hlt => (hall offset hlt).2⟩
    by_contra hshort
    have := (hall n (by omega)).1
    omega
  · rintro ⟨rfl, hkept⟩ offset
    by_cases hlt : offset < n
    · rw [if_pos ⟨hlt, hkept offset hlt⟩, if_pos hlt]
    · rw [if_neg (fun hboth => hlt hboth.1), if_neg hlt]

/-- What a pass that ended has done to the file. -/
structure Overwrote
    (draw : Nat → Nat → UInt8) (pass : Pass) (o : PassOutcome) (fileSize : Nat)
    (ops : List Op) : Prop where
  mem : ∀ op ∈ ops, ∃ offset byte, op = .write pass offset byte ∧ pass.Fills draw byte
  once : (∀ offset,
      ops.countP (Op.writes pass offset) = if offset < fileSize then 1 else 0) ↔
    o.Complete fileSize

/-- The spec of a pass. -/
theorem overwritePass_eq_some
    {fuel : Nat} {o : PassOutcome} {ops : List Op}
    (h : overwritePass fuel fileSize draw pass o = some ops) :
    Overwrote draw pass o fileSize ops := by
  obtain ⟨taken, hrun, rfl⟩ := Option.map_eq_some_iff.mp h
  obtain ⟨hbytes, n, hn, hoffsets, hfull⟩ := taken_of_iterate hrun
  constructor
  · intro op hop
    obtain ⟨w, hw, rfl⟩ := List.mem_map.mp hop
    exact ⟨w.1, w.2, rfl, hbytes w (List.mem_filter.mp hw).1⟩
  · simp only [countP_writes hoffsets]
    rw [once_iff hn, PassOutcome.Complete, hfull]
    refine and_congr_right fun _ => ?_
    cases hsynced : o.fflush && o.fsync with
    | true =>
        rw [Bool.and_eq_true] at hsynced
        simp [hsynced]
    | false =>
        have hnot : ¬ (o.fflush = true ∧ o.fsync = true) := by
          rw [← Bool.and_eq_true, hsynced]
          decide
        simp [hnot]

/-- A pass does not write in the name of another. -/
theorem Overwrote.countP_other
    {o : PassOutcome} {ops : List Op} {other : Pass}
    (h : Overwrote draw pass o fileSize ops)
    (hne : pass ≠ other)
    (offset : Nat) :
    ops.countP (Op.writes other offset) = 0 := by
  rw [List.countP_eq_zero]
  intro op hop
  obtain ⟨off, byte, rfl, -⟩ := h.mem op hop
  simp [Op.writes, hne]

end Passes

section Deletion

variable {fuel fileSize : Nat} {o : DeleteOutcome} {draw : Nat → Nat → UInt8}

/-- With enough turns the deletion ends. -/
theorem exists_deleteFile
    (hfuel : fileSize < fuel)
    (o : DeleteOutcome) (draw : Nat → Nat → UInt8) :
    ∃ result, deleteFile fuel o draw fileSize = some result := by
  obtain ⟨zeros, hzeros⟩ :=
    exists_overwritePass hfuel draw .zeros (o.passes .zeros)
  obtain ⟨ones, hones⟩ :=
    exists_overwritePass hfuel draw .ones (o.passes .ones)
  obtain ⟨random, hrandom⟩ :=
    exists_overwritePass hfuel draw .random (o.passes .random)
  rw [← Option.isSome_iff_exists]
  unfold deleteFile
  rw [hzeros, hones, hrandom]
  simp only [Option.bind_eq_bind, Option.bind_some]
  split_ifs <;> rfl

/-- Where each pass stands in the operations of a deletion. -/
theorem countP_passes
    {ops : Pass → List Op}
    (h : ∀ pass, Overwrote draw pass (o.passes pass) fileSize (ops pass))
    (pass : Pass) (offset : Nat) :
    (ops .zeros ++ ops .ones ++ ops .random).countP (Op.writes pass offset) =
      (ops pass).countP (Op.writes pass offset) := by
  rw [List.countP_append, List.countP_append]
  cases pass with
  | zeros =>
      rw [(h .ones).countP_other (by decide), (h .random).countP_other (by decide)]
      rfl
  | ones =>
      rw [(h .zeros).countP_other (by decide), (h .random).countP_other (by decide)]
      omega
  | random =>
      rw [(h .zeros).countP_other (by decide), (h .ones).countP_other (by decide)]
      omega

/-- A path that is unlinked last is absent. -/
theorem foldl_apply_unlink
    (path : CString) (fs : FileSystem) (before : List Op) :
    ((before ++ [Op.unlink]).foldl (Op.apply path) fs) path = none := by
  rw [List.foldl_append]
  simp [Op.apply, FileSystem.unlink]

/-- Three passes and an unlink make the file gone exactly when every pass is complete. -/
theorem gone_passes_iff
    {ops : Pass → List Op}
    (h : ∀ pass, Overwrote draw pass (o.passes pass) fileSize (ops pass))
    (path : Option CString) (fs : FileSystem) :
    Gone draw path fs fileSize (ops .zeros ++ ops .ones ++ ops .random ++ [.unlink])
      ↔
    ∀ pass, (o.passes pass).Complete fileSize := by
  constructor
  · intro hgone pass
    obtain ⟨before, hops, -, honce⟩ := hgone.overwritten
    obtain rfl := (List.append_inj' hops rfl).1
    refine (h pass).once.mp fun offset => ?_
    rw [← countP_passes h pass offset]
    exact honce pass offset
  · intro hcomplete
    refine ⟨fun p _ => foldl_apply_unlink p fs _, _, rfl, ?_, ?_⟩
    · intro pass offset byte hop
      have hsome : ∃ p, .write pass offset byte ∈ ops p := by
        rcases List.mem_append.mp hop with hop | hop
        · rcases List.mem_append.mp hop with hop | hop
          · exact ⟨_, hop⟩
          · exact ⟨_, hop⟩
        · exact ⟨_, hop⟩
      obtain ⟨p, hp⟩ := hsome
      obtain ⟨off, b, hsame, hfills⟩ := (h p).mem _ hp
      obtain ⟨rfl, rfl, rfl⟩ := Op.write.inj hsame
      exact hfills
    · intro pass offset
      rw [countP_passes h pass offset]
      exact (h pass).once.mpr (hcomplete pass) offset

/-- An unlink alone makes a file gone exactly when the file is empty. -/
theorem gone_unlink
    (draw : Nat → Nat → UInt8) (path : Option CString) (fs : FileSystem) :
    Gone draw path fs 0 [.unlink] where
  absent := fun p _ => foldl_apply_unlink p fs []
  overwritten := ⟨[], rfl, by simp, by simp⟩

/-- Nothing done leaves nothing gone. -/
theorem not_gone_nil
    (draw : Nat → Nat → UInt8) (path : Option CString) (fs : FileSystem) (fileSize : Nat) :
    ¬ Gone draw path fs fileSize [] := by
  intro hgone
  obtain ⟨before, hops, -⟩ := hgone.overwritten
  simp at hops

/-- The spec of the deletion after `stat`. -/
theorem deleteFile_gone_iff
    {path : Option CString} {fs : FileSystem} {ret : Int} {ops : List Op}
    (h : deleteFile fuel o draw fileSize = some (ret, ops)) :
    (ret = 0 → Gone draw path fs fileSize ops) ↔ o.Erases fileSize := by
  unfold deleteFile at h
  unfold DeleteOutcome.Erases
  by_cases hsize : fileSize = 0
  · rw [if_pos hsize, Option.some.injEq, Prod.mk.injEq] at h
    obtain ⟨rfl, rfl⟩ := h
    subst hsize
    cases o.unlink with
    | true => simpa using gone_unlink draw path fs
    | false => simpa using not_gone_nil draw path fs 0
  rw [if_neg hsize] at h ⊢
  cases hopen : o.fopen with
  | false =>
      obtain ⟨rfl, rfl⟩ : -1 = ret ∧ [] = ops := by simpa [hopen] using h
      simp
  | true =>
  cases hmalloc : o.malloc with
  | false =>
      obtain ⟨rfl, rfl⟩ : -1 = ret ∧ [] = ops := by simpa [hopen, hmalloc] using h
      simp
  | true =>
  simp only [hopen, hmalloc, Bool.not_true, Bool.false_eq_true, if_false,
    Option.bind_eq_bind, Option.bind_eq_some_iff] at h
  obtain ⟨zeros, hzeros, ones, hones, random, hrandom, hret⟩ := h
  let done : Pass → List Op := fun
    | .zeros => zeros
    | .ones => ones
    | .random => random
  have hpasses : ∀ pass, Overwrote draw pass (o.passes pass) fileSize (done pass) := by
    intro pass
    cases pass with
    | zeros => exact overwritePass_eq_some hzeros
    | ones => exact overwritePass_eq_some hones
    | random => exact overwritePass_eq_some hrandom
  cases hunlink : o.unlink with
  | false =>
      obtain ⟨rfl, -⟩ : -1 = ret ∧ _ = ops := by simpa [hunlink] using hret
      simp
  | true =>
      obtain ⟨rfl, rfl⟩ :
          0 = ret ∧ done .zeros ++ (done .ones ++ (done .random ++ [.unlink])) = ops := by
        simpa [hunlink, done] using hret
      have hgone := gone_passes_iff hpasses path fs
      simpa using hgone

/-- The loops of the deletion end, whatever the calls return; and a return of 0 means that
the file is gone exactly when the path of an empty file is unlinked and every pass over
another file is complete. -/
theorem secureDelete_gone_iff
    (o : DeleteOutcome) (draw : Nat → Nat → UInt8) (path : Option CString)
    (fs : FileSystem) :
    (∃ n, ∀ fuel ≥ n, ∃ result, crypticSecureDelete fuel o draw path fs = some result) ∧
      ((∀ fuel ret ops,
          crypticSecureDelete fuel o draw path fs = some (ret, ops) →
          ret = 0 →
          ∃ fileSize ∈ statSize o path fs, Gone draw path fs fileSize ops)
        ↔
      ∀ fileSize ∈ statSize o path fs, o.Erases fileSize) := by
  unfold crypticSecureDelete
  cases hstat : statSize o path fs with
  | none =>
      refine ⟨⟨0, fun fuel _ => ⟨_, rfl⟩⟩, ?_⟩
      simp
  | some fileSize =>
      refine ⟨⟨fileSize + 1, fun fuel hfuel => exists_deleteFile (by omega) o draw⟩, ?_⟩
      simp only [Option.mem_def, Option.some.injEq, exists_eq_left', forall_eq']
      constructor
      · intro hall
        obtain ⟨⟨ret, ops⟩, hrun⟩ :=
          exists_deleteFile (Nat.lt_succ_self fileSize) o draw
        exact (deleteFile_gone_iff hrun).mp (hall _ ret ops hrun)
      · intro hgone fuel ret ops hrun
        exact (deleteFile_gone_iff hrun).mpr hgone

end Deletion

section Examples

/-- Every flush of a pass fails, and nothing reaches the disk. -/
def unflushed : PassOutcome where
  fwrite := fun _ => 8192
  fflush := false
  fsync := true
  reaches := fun _ => false

/-- Everything else succeeds. -/
def unflushedDelete : DeleteOutcome where
  stat := true
  fopen := true
  malloc := true
  passes := fun _ => unflushed
  unlink := true

/-- A path with three bytes at it. -/
def secretPath : CString where
  bytes := ascii "/tmp/k"
  nulFree := by decide

/-- The deletion reports success though no pass overwrote anything. -/
theorem reports_deletion_unwritten :
    crypticSecureDelete 4 unflushedDelete (fun _ _ => 0) (some secretPath)
        (FileSystem.writeFile (fun _ => none) secretPath [1, 2, 3]) =
      some (0, [.unlink]) ∧
    ¬ Gone (fun _ _ => 0) (some secretPath)
        (FileSystem.writeFile (fun _ => none) secretPath [1, 2, 3]) 3 [.unlink] := by
  refine ⟨by decide, fun hgone => ?_⟩
  obtain ⟨before, hops, -, honce⟩ := hgone.overwritten
  obtain rfl : before = [] := by simpa using hops
  exact absurd (honce .zeros 0) (by decide)

end Examples

end SecureDelete
end SecureZ
