import SecureZ.Engine.Integrity
import SecureZ.Lib.Stream

/-!
# Hashing a file piece by piece

`crypto_hash_file` of `crypto_core.c` reads a file through a buffer of 8192 bytes and gives
each piece to the incremental interface of `crypto_generichash`.  Both the end of the file
and a read error end its loop with a count of zero; `ferror` tells them apart afterwards.

The main result is that the digest is that of the whole content however `fread` divides it,
and that after a read error there is none.  The integrity checks use the function as a look
at the content of a file; the last result is that this is what it is.
-/

namespace SecureZ
namespace FileHashing

open CLib
open CryptoCore

section Model

/-- The incremental interface of `crypto_generichash`; none when a call fails. -/
structure GenericHash where
  State : Type
  init : Option State
  update : State → Bytes → Option State
  final : State → Option Hash

/-- What one `fread` into the buffer brings, and whether it raises the error flag. -/
structure Piece where
  bytes : Bytes
  nonempty : bytes ≠ []
  fits : bytes.length ≤ 8192
  error : Bool

/-- An open file: what the next calls of `fread` bring, whether the one after them raises
the error flag, and the flag. -/
structure FileReads where
  pieces : List Piece
  endError : Bool
  ferror : Bool

/-- A file just opened. -/
def FileReads.opened (pieces : List Piece) (endError : Bool) : FileReads :=
  ⟨pieces, endError, false⟩

/-- `fread(buf, 1, sizeof(buf), f)`. -/
def FileReads.fread (f : FileReads) : Bytes × FileReads :=
  match f.pieces with
  | [] => ([], { f with ferror := f.ferror || f.endError })
  | p :: ps => (p.bytes, { f with pieces := ps, ferror := f.ferror || p.error })

/-- One turn of the loop of `crypto_hash_file`; none when an update fails. -/
def hashTurn (gh : GenericHash) (s : gh.State × FileReads) :
    Turn (gh.State × FileReads) (Option (gh.State × FileReads)) :=
  match s.2.fread with
  | ([], f) => .done (some (s.1, f))
  | (buf, f) =>
      match gh.update s.1 buf with
      | none => .done none
      | some state => .next (state, f)

/-- `crypto_hash_file`, of a file that may not open: the result and what is then in the
memory of the hash, or `none` when the loop has not ended within `fuel` turns. -/
def cryptoHashFile
    (gh : GenericHash) (fuel : Nat) (file : Option FileReads) (hash : Hash) :
    Option (Int × Hash) :=
  match file with
  | none => some (-1, hash)
  | some f =>
      match gh.init with
      | none => some (-1, hash)
      | some state =>
          (iterate (hashTurn gh) fuel (state, f)).map fun
            | none => (-1, hash)
            | some (state, f) =>
                if f.ferror then (-1, hash)
                else
                  match gh.final state with
                  | none => (-1, hash)
                  | some digest => (0, digest)

end Model

section Specification

/-- What libsodium documents of the incremental interface: after any updates, the final
digest is the hash of what they were given, one after the other. -/
def Incremental (na : Sodium) (gh : GenericHash) : Prop :=
  ∀ updates : List Bytes,
    (do gh.final (← updates.foldlM gh.update (← gh.init))) =
      some (na.generichash updates.flatten)

/-- The whole content of the file. -/
def content (pieces : List Piece) : Bytes :=
  (pieces.map Piece.bytes).flatten

/-- Some read raises the error flag. -/
def readError (pieces : List Piece) (endError : Bool) : Bool :=
  pieces.any Piece.error || endError

end Specification

section Loop

variable {gh : GenericHash}

/-- A turn over a piece that is there. -/
theorem hashTurn_cons
    {p : Piece} {ps : List Piece} {endError ferror : Bool} {state : gh.State} :
    hashTurn gh (state, ⟨p :: ps, endError, ferror⟩) =
      match gh.update state p.bytes with
      | none => .done none
      | some state' => .next (state', ⟨ps, endError, ferror || p.error⟩) := by
  cases hbytes : p.bytes with
  | nil => exact absurd hbytes p.nonempty
  | cons b bs =>
      simp only [hashTurn, FileReads.fread, hbytes]

/-- The loop gives the pieces to the updates and remembers every error. -/
theorem iterate_hashTurn
    {pieces : List Piece} {endError ferror : Bool} {state state' : gh.State} {fuel : Nat}
    (hfuel : pieces.length < fuel)
    (hupdates : (pieces.map Piece.bytes).foldlM gh.update state = some state') :
    iterate (hashTurn gh) fuel (state, ⟨pieces, endError, ferror⟩) =
      some (some (state', ⟨[], endError, ferror || readError pieces endError⟩)) := by
  obtain ⟨fuel, rfl⟩ := Nat.exists_eq_succ_of_ne_zero (show fuel ≠ 0 by omega)
  induction pieces generalizing state ferror fuel with
  | nil =>
      obtain rfl := Option.some.inj hupdates
      have hturn :
          hashTurn gh (state, ⟨[], endError, ferror⟩) =
            .done (some (state, ⟨[], endError, ferror || readError [] endError⟩)) := rfl
      rw [iterate_done hturn]
  | cons p ps ih =>
      rw [List.map_cons, List.foldlM_cons] at hupdates
      obtain ⟨next, hnext, hrest⟩ := Option.bind_eq_some_iff.mp hupdates
      have hturn :
          hashTurn gh (state, ⟨p :: ps, endError, ferror⟩) =
            .next (next, ⟨ps, endError, ferror || p.error⟩) := by
        rw [hashTurn_cons, hnext]
      rw [List.length_cons] at hfuel
      obtain ⟨fuel, rfl⟩ := Nat.exists_eq_succ_of_ne_zero (show fuel ≠ 0 by omega)
      rw [iterate_next hturn, ih hrest fuel (by omega)]
      simp [readError, Bool.or_assoc]

/-- With the documented interface, the calls before `ferror` succeed, and the digest is that
of the content. -/
theorem Incremental.updates
    {na : Sodium}
    (h : Incremental na gh)
    (pieces : List Piece) :
    ∃ state state',
      gh.init = some state ∧
        (pieces.map Piece.bytes).foldlM gh.update state = some state' ∧
        gh.final state' = some (na.generichash (content pieces)) := by
  have hall := h (pieces.map Piece.bytes)
  obtain ⟨state, hinit, hrest⟩ := Option.bind_eq_some_iff.mp hall
  obtain ⟨state', hupdates, hfinal⟩ := Option.bind_eq_some_iff.mp hrest
  exact ⟨state, state', hinit, hupdates, hfinal⟩

end Loop

/-- The run of the function, with turns enough for the pieces. -/
theorem cryptoHashFile_opened
    {na : Sodium} {gh : GenericHash} {pieces : List Piece} {fuel : Nat}
    (h : Incremental na gh)
    (hfuel : pieces.length < fuel)
    (endError : Bool) (hash : Hash) :
    cryptoHashFile gh fuel (some (.opened pieces endError)) hash =
      some
        (if readError pieces endError then (-1, hash)
        else (0, cryptoHashBuffer na (content pieces))) := by
  obtain ⟨state, state', hinit, hupdates, hfinal⟩ := h.updates pieces
  simp only [cryptoHashFile, hinit, FileReads.opened]
  rw [iterate_hashTurn hfuel hupdates]
  cases herror : readError pieces endError with
  | true =>
      simp
  | false =>
      simp [hfinal, cryptoHashBuffer]

/-- However the content is divided, the file is hashed to the digest of its whole content,
and a read error at any point gives -1 and leaves the memory of the hash as it was. -/
theorem hashFile_eq_hashBuffer
    {na : Sodium} {gh : GenericHash}
    (h : Incremental na gh)
    (pieces : List Piece) (endError : Bool) (hash : Hash) :
    ∃ n, ∀ fuel ≥ n,
      cryptoHashFile gh fuel (some (.opened pieces endError)) hash =
        some
          (if readError pieces endError then (-1, hash)
          else (0, cryptoHashBuffer na (content pieces))) :=
  ⟨pieces.length + 1, fun _ hfuel => cryptoHashFile_opened h hfuel endError hash⟩

/-- What the integrity checks take the function for: a look at the content of a file that
can be opened and read to its end. -/
theorem hashFile_refines
    {na : Sodium} {gh : GenericHash} {disk : Integrity.Disk} {path : CString}
    {file : Option (List Piece × Bool)}
    (h : Incremental na gh)
    (hread : disk.read path =
      file.bind fun f => if readError f.1 f.2 then none else some (content f.1))
    (hash : Hash) :
    ∃ n, ∀ fuel ≥ n,
      cryptoHashFile gh fuel (file.map fun f => .opened f.1 f.2) hash =
        some
          (match Integrity.cryptoHashFile na disk path with
          | none => (-1, hash)
          | some digest => (0, digest)) := by
  unfold Integrity.cryptoHashFile
  rw [hread]
  cases file with
  | none =>
      exact ⟨0, fun _ _ => rfl⟩
  | some f =>
      refine ⟨f.1.length + 1, fun fuel hfuel => ?_⟩
      rw [Option.map_some, cryptoHashFile_opened h hfuel, Option.bind_some]
      cases readError f.1 f.2 <;> rfl

section Examples

/-- An interface that keeps what it is given and hashes it at the end. -/
def keeping (na : Sodium) : GenericHash where
  State := Bytes
  init := some []
  update := fun state bs => some (state ++ bs)
  final := fun state => some (na.generichash state)

theorem foldlM_keeping
    (updates : List Bytes) (state : Bytes) :
    updates.foldlM (fun state bs => some (state ++ bs)) state =
      some (state ++ updates.flatten) := by
  induction updates generalizing state with
  | nil =>
      simp
  | cons bs updates ih =>
      rw [List.foldlM_cons, Option.bind_eq_bind, Option.bind_some, ih, List.flatten_cons,
        List.append_assoc]

theorem keeping_incremental
    (na : Sodium) :
    Incremental na (keeping na) := by
  intro updates
  change
    (updates.foldlM (fun state bs => some (state ++ bs)) ([] : Bytes)).bind
        (fun state => some (na.generichash state)) =
      some (na.generichash updates.flatten)
  rw [foldlM_keeping, Option.bind_some, List.nil_append]

/-- Three bytes in two pieces. -/
def twoPieces : List Piece :=
  [⟨[1, 2], by decide, by decide, false⟩, ⟨[3], by decide, by decide, false⟩]

/-- They are hashed as one. -/
theorem hashFile_twoPieces :
    ∃ n, ∀ fuel ≥ n,
      cryptoHashFile (keeping mirror) fuel (some (.opened twoPieces false)) (Block.zero _) =
        some (0, cryptoHashBuffer mirror [1, 2, 3]) :=
  hashFile_eq_hashBuffer (keeping_incremental mirror) twoPieces false (Block.zero _)

end Examples

end FileHashing
end SecureZ
