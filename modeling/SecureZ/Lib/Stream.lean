import SecureZ.Lib.Bytes
import Mathlib.Order.Basic
import Mathlib.Tactic.SplitIfs

/-!
# Reading a file and looping over its records

The reading side of `<stdio.h>`: a stream is the bytes of an open file together with
the position and the end-of-file flag.  What a sequence of reads and seeks sees is a
function of the bytes that are left, `Stream.rest`, and the lemmas are stated in it.

The second half is the rule for a `while` loop written as a step function.  A loop
either goes on in a next state or ends with a result; `iterate` runs it with a bound
on the number of turns, and the bound is removed by a measure that every turn lowers.
-/

namespace CLib

/-- An open file: its bytes, the position and the end-of-file flag. -/
structure Stream where
  data : Bytes
  pos : Nat
  eof : Bool
deriving DecidableEq

namespace Stream

/-- A file just opened for reading. -/
def fopen (data : Bytes) : Stream where
  data := data
  pos := 0
  eof := false

/-- The bytes that are still to be read. -/
def rest (f : Stream) : Bytes :=
  f.data.drop f.pos

/-- `fread`: up to `n` bytes; a short read raises the end-of-file flag. -/
def fread (f : Stream) (n : Nat) : Bytes × Stream :=
  (f.rest.take n,
    { f with
      pos := f.pos + (f.rest.take n).length
      eof := f.eof || decide (f.rest.length < n) })

/-- `fread` where the caller gives up unless all `n` bytes arrive. -/
def freadExact (f : Stream) (n : Nat) : Option (Bytes × Stream) :=
  if (f.fread n).1.length = n then some (f.fread n) else none

/-- `fread` of a buffer of fixed size, where a short read is given up. -/
def freadBlock (f : Stream) (n : Nat) : Option (Block n × Stream) :=
  if h : (f.fread n).1.length = n then
    some (⟨(f.fread n).1, h⟩, (f.fread n).2)
  else none

/-- `fseek(f, off, SEEK_CUR)`: may go past the end and clears the flag. -/
def fseekCur (f : Stream) (off : Nat) : Stream :=
  { f with
    pos := f.pos + off
    eof := false }

@[simp] theorem rest_fopen
    (data : Bytes) :
    (fopen data).rest = data := by
  simp [fopen, rest]

@[simp] theorem rest_fseekCur
    (f : Stream) (off : Nat) :
    (f.fseekCur off).rest = f.rest.drop off := by
  simp [fseekCur, rest]

/-- What an exact read returns and what it leaves. -/
theorem freadExact_eq_some
    {f f' : Stream} {n : Nat} {got : Bytes}
    (h : f.freadExact n = some (got, f')) :
    f.rest = got ++ f'.rest ∧
      got.length = n ∧
      f'.eof = f.eof ∧
      f'.data = f.data ∧
      f'.pos = f.pos + n := by
  unfold freadExact at h
  split_ifs at h with hlen
  obtain ⟨rfl, rfl⟩ := Prod.mk.inj (Option.some.inj h)
  have htake : (f.rest.take n).length = n := hlen
  have hle : n ≤ f.rest.length := by
    rw [List.length_take] at htake
    omega
  refine ⟨?_, hlen, ?_, rfl, ?_⟩
  · change f.rest =
      f.rest.take n ++ f.data.drop (f.pos + (f.rest.take n).length)
    rw [htake, ← List.drop_drop]
    exact (List.take_append_drop n f.rest).symm
  · have hshort : ¬ f.rest.length < n := by omega
    simp [hshort]
  · change f.pos + (f.rest.take n).length = f.pos + n
    rw [htake]

/-- An exact read of bytes that are there succeeds. -/
theorem freadExact_of_rest
    {f : Stream} {n : Nat} {got tail : Bytes}
    (hrest : f.rest = got ++ tail)
    (hlen : got.length = n) :
    ∃ f', f.freadExact n = some (got, f') ∧
      f'.rest = tail ∧
      f'.eof = f.eof := by
  have htake : f.rest.take n = got := by
    rw [hrest, ← hlen, List.take_left]
  have hread : (f.fread n).1 = got := htake
  have hex : f.freadExact n = some (got, (f.fread n).2) := by
    unfold freadExact
    rw [hread, if_pos hlen, ← hread]
  obtain ⟨hsplit, _, heof, _, _⟩ := freadExact_eq_some hex
  refine ⟨_, hex, ?_, heof⟩
  rw [hrest] at hsplit
  exact (List.append_cancel_left hsplit).symm

/-- A block is read exactly as the same number of bytes is. -/
theorem freadBlock_eq
    (f : Stream) (n : Nat) :
    f.freadExact n =
      (f.freadBlock n).map (fun r => (r.1.bytes, r.2)) := by
  unfold freadExact freadBlock
  split_ifs <;> rfl

/-- What a block read returns and what it leaves. -/
theorem freadBlock_eq_some
    {f f' : Stream} {n : Nat} {b : Block n}
    (h : f.freadBlock n = some (b, f')) :
    f.freadExact n = some (b.bytes, f') := by
  rw [freadBlock_eq, h]
  rfl

/-- A block that is there is read. -/
theorem freadBlock_of_rest
    {f : Stream} {n : Nat} {b : Block n} {tail : Bytes}
    (hrest : f.rest = b.bytes ++ tail) :
    ∃ f', f.freadBlock n = some (b, f') ∧
      f'.rest = tail ∧
      f'.eof = f.eof := by
  obtain ⟨f', hread, htail, heof⟩ := freadExact_of_rest hrest b.size
  rw [freadBlock_eq, Option.map_eq_some_iff] at hread
  obtain ⟨⟨b', g⟩, hblock, hsame⟩ := hread
  obtain ⟨hb, rfl⟩ := Prod.mk.inj hsame
  have hbb : b' = b := Block.ext hb
  subst hbb
  exact ⟨g, hblock, htail, heof⟩

/-- An exact read at the end of the file gives up. -/
theorem freadExact_nil
    {f : Stream} {n : Nat}
    (hrest : f.rest = [])
    (hn : 0 < n) :
    f.freadExact n = none := by
  unfold freadExact fread
  rw [hrest, if_neg]
  simpa using hn.ne

/-- Bytes that are left shrink by what an exact read took. -/
theorem length_rest_freadExact
    {f f' : Stream} {n : Nat} {got : Bytes}
    (h : f.freadExact n = some (got, f')) :
    f'.rest.length + n = f.rest.length := by
  obtain ⟨hsplit, hlen, _⟩ := freadExact_eq_some h
  rw [hsplit, List.length_append, hlen, Nat.add_comm]

end Stream

section Loops

universe u v w

/-- One turn of a loop: go on in a next state, or end with a result. -/
inductive Turn (σ : Type u) (β : Type v) where
  | next (s : σ)
  | done (b : β)

variable {σ : Type u} {β : Type v}

/-- A loop run for at most `fuel` turns. -/
def iterate (turn : σ → Turn σ β) : Nat → σ → Option β
  | 0, _ => none
  | fuel + 1, s =>
      match turn s with
      | .next s' => iterate turn fuel s'
      | .done b => some b

theorem iterate_done
    {turn : σ → Turn σ β} {s : σ} {b : β}
    (h : turn s = .done b)
    (n : Nat) :
    iterate turn (n + 1) s = some b := by
  simp [iterate, h]

theorem iterate_next
    {turn : σ → Turn σ β} {s s' : σ}
    (h : turn s = .next s')
    (n : Nat) :
    iterate turn (n + 1) s = iterate turn n s' := by
  simp [iterate, h]

/-- The invariant rule: what every turn keeps holds in the state of the last turn. -/
theorem iterate_invariant
    {turn : σ → Turn σ β}
    (Inv : σ → Prop)
    (hstep : ∀ s s', Inv s → turn s = .next s' → Inv s')
    {n : Nat} {s : σ} {b : β}
    (hinv : Inv s)
    (h : iterate turn n s = some b) :
    ∃ t, Inv t ∧ turn t = .done b := by
  induction n generalizing s with
  | zero =>
      cases h
  | succ n ih =>
      cases hturn : turn s with
      | next s' =>
          rw [iterate_next hturn] at h
          exact ih (hstep s s' hinv hturn) h
      | done b' =>
          rw [iterate_done hturn, Option.some.injEq] at h
          exact ⟨s, hinv, h ▸ hturn⟩

/-- The result of a loop is that of its last turn. -/
theorem exists_done_of_iterate
    {turn : σ → Turn σ β} {n : Nat} {s : σ} {b : β}
    (h : iterate turn n s = some b) :
    ∃ t, turn t = .done b := by
  obtain ⟨t, -, hdone⟩ :=
    iterate_invariant (fun _ => True) (fun _ _ _ _ => trivial) trivial h
  exact ⟨t, hdone⟩

/-- The states in which the turns of a loop begin, for at most `fuel` turns. -/
def turnStates (turn : σ → Turn σ β) : Nat → σ → List σ
  | 0, _ => []
  | fuel + 1, s =>
      match turn s with
      | .next s' => s :: turnStates turn fuel s'
      | .done _ => [s]

theorem turnStates_done
    {turn : σ → Turn σ β} {s : σ} {b : β}
    (h : turn s = .done b)
    (n : Nat) :
    turnStates turn (n + 1) s = [s] := by
  simp [turnStates, h]

theorem turnStates_next
    {turn : σ → Turn σ β} {s s' : σ}
    (h : turn s = .next s')
    (n : Nat) :
    turnStates turn (n + 1) s = s :: turnStates turn n s' := by
  simp [turnStates, h]

theorem mem_turnStates_self
    {n : Nat}
    (hn : 0 < n)
    (turn : σ → Turn σ β) (s : σ) :
    s ∈ turnStates turn n s := by
  obtain ⟨n, rfl⟩ := Nat.exists_eq_succ_of_ne_zero hn.ne'
  cases h : turn s with
  | next s' => simp [turnStates_next h]
  | done b => simp [turnStates_done h]

/-- What every turn keeps holds in every state in which a turn begins. -/
theorem forall_turnStates
    {turn : σ → Turn σ β}
    (Inv : σ → Prop)
    (hstep : ∀ s s', Inv s → turn s = .next s' → Inv s')
    {n : Nat} {s : σ}
    (hinv : Inv s) :
    ∀ t ∈ turnStates turn n s, Inv t := by
  induction n generalizing s with
  | zero =>
      simp [turnStates]
  | succ n ih =>
      cases hturn : turn s with
      | next s' =>
          rw [turnStates_next hturn, List.forall_mem_cons]
          exact ⟨hinv, ih (hstep s s' hinv hturn)⟩
      | done b =>
          simpa [turnStates_done hturn] using hinv

/--
The exact condition for an invariant and a property of each turn.

If in a state with the invariant the property holds and the invariant is kept exactly under
`Q`, then they hold in the whole loop exactly when `Q` does.
-/
theorem forall_turnStates_iff
    {turn : σ → Turn σ β}
    {Inv P Q : σ → Prop}
    (measure : σ → Nat)
    (hlower : ∀ s s', turn s = .next s' → measure s' < measure s)
    (hturn : ∀ s, Inv s → ((P s ∧ ∀ s', turn s = .next s' → Inv s') ↔ Q s))
    {n : Nat} {s : σ}
    (hn : measure s < n)
    (hinv : Inv s) :
    (∀ t ∈ turnStates turn n s, Inv t ∧ P t) ↔ ∀ t ∈ turnStates turn n s, Q t := by
  induction n generalizing s with
  | zero =>
      omega
  | succ n ih =>
      cases hcase : turn s with
      | done b =>
          have hs := hturn s hinv
          simp only [hcase, reduceCtorEq, false_implies, implies_true, and_true] at hs
          simp [turnStates_done hcase, hinv, hs]
      | next s' =>
          have hlt := hlower s s' hcase
          have hs := hturn s hinv
          simp only [hcase, Turn.next.injEq, forall_eq'] at hs
          rw [turnStates_next hcase, List.forall_mem_cons, List.forall_mem_cons, ← hs]
          have hself := mem_turnStates_self (by omega : 0 < n) turn s'
          constructor
          · rintro ⟨⟨-, hp⟩, hrest⟩
            have hinv' := (hrest s' hself).1
            exact ⟨⟨hp, hinv'⟩, (ih (by omega) hinv').mp hrest⟩
          · rintro ⟨⟨hp, hinv'⟩, hrest⟩
            exact ⟨⟨hinv, hp⟩, (ih (by omega) hinv').mpr hrest⟩

/-- A loop whose turns lower a measure ends within the measure. -/
theorem iterate_terminates
    {turn : σ → Turn σ β}
    (measure : σ → Nat)
    (hlower : ∀ s s', turn s = .next s' → measure s' < measure s)
    {n : Nat} {s : σ}
    (hn : measure s < n) :
    ∃ b, iterate turn n s = some b := by
  induction n generalizing s with
  | zero =>
      omega
  | succ n ih =>
      cases hturn : turn s with
      | done b =>
          exact ⟨b, iterate_done hturn n⟩
      | next s' =>
          rw [iterate_next hturn]
          have hlt := hlower s s' hturn
          exact ih (by omega)

/--
The rule for a loop over records.

`At rs s` says that in state `s` the records `rs` are still ahead.  If a turn goes on
over every record of the first kind, then a whole block of such records is passed and
the loop continues behind it with the turns that are left.
-/
theorem iterate_pass
    {ρ : Type w}
    {turn : σ → Turn σ β}
    {At : List ρ → σ → Prop}
    {pass : ρ → Prop}
    (hpass : ∀ r rs s, pass r → At (r :: rs) s →
      ∃ s', turn s = .next s' ∧ At rs s')
    {block rs : List ρ} {s : σ}
    (hblock : ∀ r ∈ block, pass r)
    (hat : At (block ++ rs) s) :
    ∃ s', At rs s' ∧
      ∀ n, iterate turn (block.length + n) s = iterate turn n s' := by
  induction block generalizing s with
  | nil =>
      exact ⟨s, hat, fun n => by simp⟩
  | cons r block ih =>
      obtain ⟨s₁, hturn, hat₁⟩ :=
        hpass r (block ++ rs) s (hblock r (by simp)) hat
      obtain ⟨s₂, hat₂, hrun⟩ :=
        ih (fun r' hr' => hblock r' (List.mem_cons_of_mem _ hr')) hat₁
      refine ⟨s₂, hat₂, fun n => ?_⟩
      have hfuel : (r :: block).length + n = (block.length + n) + 1 := by
        simp only [List.length_cons]
        omega
      rw [hfuel, iterate_next hturn, hrun n]

end Loops

end CLib
