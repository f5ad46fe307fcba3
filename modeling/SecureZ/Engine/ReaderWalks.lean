import SecureZ.Engine.KeyStorage

/-!
# How the two readers of the keystore walk

`keystore_retrieve` and `keystore_list` go through the same file entry by entry, each with
its own code for the step from one entry to the next.  The first reads salt and nonce and
then skips the encrypted data; the second skips all three at once, over a distance that is
added up in `unsigned int`.

The main result says for which files the listing reads its name lengths where a retrieval
of a missing name does.
-/

namespace SecureZ
namespace KeyStorage

open CLib
open CryptoCore

section Specification

/-- The offset at which a name length is read, if two bytes are there. -/
def nameLenOffset (f : Stream) : Option Nat :=
  (f.freadExact 2).map fun _ => f.pos

/-- The offset at which a turn of `keystore_retrieve` reads a name length. -/
def retrieveReads (f : Stream) : Option Nat :=
  if f.eof then none else nameLenOffset f

/-- The offset at which a turn of `keystore_list` reads a name length. -/
def listReads (s : List KeyInfo × Stream) : Option Nat :=
  if s.2.eof = true ∨ keystoreMaxKeys ≤ s.1.length then none else nameLenOffset s.2

/-- The offsets at which `keystore_retrieve` reads name lengths in the file. -/
def retrieveOffsets (name : CString) (content : Bytes) : List Nat :=
  (turnStates (retrieveTurn name) (content.length + 1) (Stream.fopen content)).filterMap
    retrieveReads

/-- The offsets at which `keystore_list` reads name lengths in the file. -/
def listOffsets (content : Bytes) : List Nat :=
  (turnStates listTurn (content.length + 1) ([], Stream.fopen content)).filterMap listReads

/-- The file at an offset. -/
def streamAt (content : Bytes) (offset : Nat) : Stream :=
  ⟨content, offset, false⟩

/-- The offset behind the record at an offset, by its length field as a number. -/
def nextOffset (content : Bytes) (offset : Nat) : Option Nat :=
  (listHead (streamAt content offset)).map fun r =>
    r.2.pos + (crypticSaltLen + crypticNonceLen + r.1.keyLen)

/-- The offset of the record that is `n` records behind the one at an offset. -/
def recordOffset (content : Bytes) : Nat → Nat → Option Nat
  | 0, offset => some offset
  | n + 1, offset => (nextOffset content offset).bind (recordOffset content n)

/-- The length field of the record at the offset is so large that the skip distance does
not fit 32 bits, and the file has two more bytes where the distance that is left leads. -/
def LeavesTrack (content : Bytes) (offset : Nat) : Prop :=
  ∃ k f,
    listHead (streamAt content offset) = some (k, f) ∧
      2 ^ 32 ≤ crypticSaltLen + crypticNonceLen + k.keyLen ∧
      f.pos + (crypticSaltLen + crypticNonceLen + k.keyLen - 2 ^ 32) + 2 ≤ content.length

/-- No record from the offset on leaves the track, of those behind which the listing still
has room after `count` keys. -/
def KeepsTrack (content : Bytes) (count offset : Nat) : Prop :=
  ∀ n o,
    count + n + 1 < keystoreMaxKeys →
    recordOffset content n offset = some o →
    ¬ LeavesTrack content o

end Specification

section Heads

variable {f g : Stream} {k : KeyInfo}

/-- The two readers read the same fields up to the length of the encrypted data. -/
theorem retrieveHead_eq
    (f : Stream) :
    retrieveHead f =
      (listHead f).bind fun r =>
        (r.2.freadBlock crypticSaltLen).bind fun salt =>
          (salt.2.freadBlock crypticNonceLen).bind fun nonce =>
            some (⟨r.1.name, r.1.keyLen, salt.1, nonce.1⟩, nonce.2) := by
  simp only [retrieveHead, listHead, Option.bind_eq_bind, Option.bind_assoc, Option.pure_def,
    Option.bind_some]

/-- An exact read gives up when too few bytes are left. -/
theorem freadExact_eq_none_iff
    {n : Nat} :
    f.freadExact n = none ↔ f.rest.length < n := by
  have hlen : (f.fread n).1.length = min n f.rest.length := List.length_take
  unfold Stream.freadExact
  rw [hlen]
  split_ifs with h
  · simp only [false_iff]
    omega
  · simp only [true_iff]
    omega

theorem nameLenOffset_eq
    (f : Stream) :
    nameLenOffset f = if f.rest.length < 2 then none else some f.pos := by
  unfold nameLenOffset
  split_ifs with h
  · rw [freadExact_eq_none_iff.mpr h]
    rfl
  · cases hread : f.freadExact 2 with
    | none => exact absurd (freadExact_eq_none_iff.mp hread) h
    | some r => rfl

/-- What the head of a record tells of the stream behind it. -/
theorem listHead_spec
    (h : listHead f = some (k, g)) :
    g.data = f.data ∧
      g.eof = f.eof ∧
      2 ≤ f.rest.length ∧
      k.keyLen < 2 ^ 32 := by
  simp only [listHead, Option.bind_eq_bind, Option.bind_eq_some_iff, Option.guard_eq_some',
    Option.pure_def, Option.some.injEq, Prod.mk.injEq] at h
  obtain ⟨⟨_, f₁⟩, h₁, _, _, ⟨_, f₂⟩, h₂, ⟨_, f₃⟩, h₃, ⟨_, f₄⟩, h₄, ⟨len, f₅⟩, h₅, rfl, rfl⟩ := h
  have e₁ := Stream.length_rest_freadExact h₁
  obtain ⟨-, -, t₁, d₁, -⟩ := Stream.freadExact_eq_some h₁
  obtain ⟨-, -, t₂, d₂, -⟩ := Stream.freadExact_eq_some h₂
  obtain ⟨-, -, t₃, d₃, -⟩ := Stream.freadExact_eq_some h₃
  obtain ⟨-, -, t₄, d₄, -⟩ := Stream.freadExact_eq_some h₄
  obtain ⟨-, hlen, t₅, d₅, -⟩ := Stream.freadExact_eq_some h₅
  refine ⟨by simp only [d₅, d₄, d₃, d₂, d₁], by simp only [t₅, t₄, t₃, t₂, t₁], by omega, ?_⟩
  have hbound := leNat_lt len
  rw [hlen] at hbound
  exact hbound

/-- No head is read from an empty rest. -/
theorem listHead_of_short
    (h : f.rest.length < 2) :
    listHead f = none := by
  simp [listHead, freadExact_eq_none_iff.mpr h]

end Heads

section Walks

variable {name : CString} {f g : Stream} {k : KeyInfo} {keys : List KeyInfo} {fuel : Nat}

/-- The offsets that a walk of `keystore_list` reads at from a state on. -/
def listFrom (fuel : Nat) (keys : List KeyInfo) (f : Stream) : List Nat :=
  (turnStates listTurn fuel (keys, f)).filterMap listReads

/-- The offsets that a walk of `keystore_retrieve` reads at from a state on. -/
def retrieveFrom (name : CString) (fuel : Nat) (f : Stream) : List Nat :=
  (turnStates (retrieveTurn name) fuel f).filterMap retrieveReads

/-- A full list ends the walk. -/
theorem listFrom_full
    (hfull : ¬ keys.length < keystoreMaxKeys) :
    listFrom fuel keys f = [] := by
  have hstop : f.eof = true ∨ keystoreMaxKeys ≤ keys.length := Or.inr (Nat.le_of_not_lt hfull)
  cases fuel with
  | zero =>
      rfl
  | succ fuel =>
      have hturn : listTurn (keys, f) = .done keys := if_pos hstop
      have hreads : listReads (keys, f) = none := if_pos hstop
      rw [listFrom, turnStates_done hturn, List.filterMap_cons_none hreads, List.filterMap_nil]

/-- Where no head is read, both walks end. -/
theorem listFrom_end
    (heof : f.eof = false)
    (hroom : keys.length < keystoreMaxKeys)
    (hhead : listHead f = none) :
    listFrom (fuel + 1) keys f = (nameLenOffset f).toList := by
  have hgo : ¬ (f.eof = true ∨ keystoreMaxKeys ≤ keys.length) := by
    rw [heof]
    simpa using hroom
  have hturn : listTurn (keys, f) = .done keys := by
    simp only [listTurn, hgo, if_false, hhead]
  have hreads : listReads (keys, f) = nameLenOffset f := if_neg hgo
  rw [listFrom, turnStates_done hturn]
  cases hoff : nameLenOffset f with
  | none => simp [hreads, hoff]
  | some o => simp [hreads, hoff]

theorem retrieveFrom_end
    (heof : f.eof = false)
    (hhead : listHead f = none) :
    retrieveFrom name (fuel + 1) f = (nameLenOffset f).toList := by
  have hnone : retrieveHead f = none := by
    rw [retrieveHead_eq, hhead, Option.bind_none]
  have hturn : retrieveTurn name f = .done none := by
    simp [retrieveTurn, heof, hnone]
  have hreads : retrieveReads f = nameLenOffset f := by
    simp [retrieveReads, heof]
  rw [retrieveFrom, turnStates_done hturn]
  cases hoff : nameLenOffset f with
  | none => simp [hreads, hoff]
  | some o => simp [hreads, hoff]

/-- A name length that is part of a head is read. -/
theorem nameLenOffset_of_head
    (hhead : listHead f = some (k, g)) :
    nameLenOffset f = some f.pos := by
  have hlen := (listHead_spec hhead).2.2.1
  rw [nameLenOffset_eq, if_neg (by omega)]

/-- Behind a head the listing goes on at its skip distance. -/
theorem listFrom_head
    (heof : f.eof = false)
    (hroom : keys.length < keystoreMaxKeys)
    (hhead : listHead f = some (k, g)) :
    listFrom (fuel + 1) keys f =
      f.pos :: listFrom fuel (keys ++ [k])
        (g.fseekCur ((crypticSaltLen + crypticNonceLen + k.keyLen) % 2 ^ 32)) := by
  have hgo : ¬ (f.eof = true ∨ keystoreMaxKeys ≤ keys.length) := by
    rw [heof]
    simpa using hroom
  have hturn :
      listTurn (keys, f) =
        .next (keys ++ [k],
          g.fseekCur ((crypticSaltLen + crypticNonceLen + k.keyLen) % 2 ^ 32)) := by
    simp only [listTurn, hgo, if_false, hhead]
  have hreads : listReads (keys, f) = some f.pos :=
    (if_neg hgo).trans (nameLenOffset_of_head hhead)
  rw [listFrom, turnStates_next hturn, List.filterMap_cons_some hreads, listFrom]

/-- Where salt and nonce are not there, the retrieval ends. -/
theorem retrieveTurn_short
    (heof : f.eof = false)
    (hhead : listHead f = some (k, g))
    (hshort : g.rest.length < crypticSaltLen + crypticNonceLen) :
    retrieveTurn name f = .done none := by
  have hnone : retrieveHead f = none := by
    rw [retrieveHead_eq, hhead, Option.bind_some]
    cases hsalt : g.freadBlock crypticSaltLen with
    | none =>
        rfl
    | some s =>
        have hlen := Stream.length_rest_freadExact (Stream.freadBlock_eq_some hsalt)
        have hnonce : s.2.freadExact crypticNonceLen = none :=
          freadExact_eq_none_iff.mpr (by omega)
        rw [Stream.freadBlock_eq, Option.map_eq_none_iff] at hnonce
        simp [hnonce]
  simp [retrieveTurn, heof, hnone]

/-- Where they are, the retrieval stops at its name and otherwise goes on at the length
field. -/
theorem retrieveTurn_head
    (heof : f.eof = false)
    (hhead : listHead f = some (k, g))
    (hlong : ¬ g.rest.length < crypticSaltLen + crypticNonceLen) :
    ∃ found,
      retrieveTurn name f =
        if k.name = name then .done (some found)
        else .next (g.fseekCur (crypticSaltLen + crypticNonceLen + k.keyLen)) := by
  cases hsalt : g.freadBlock crypticSaltLen with
  | none =>
      have hshort : g.rest.length < crypticSaltLen := by
        rw [← freadExact_eq_none_iff, Stream.freadBlock_eq, hsalt]
        rfl
      omega
  | some s =>
  obtain ⟨salt, g₁⟩ := s
  have hread₁ := Stream.freadBlock_eq_some hsalt
  have hlen₁ := Stream.length_rest_freadExact hread₁
  cases hnonce : g₁.freadBlock crypticNonceLen with
  | none =>
      have hshort : g₁.rest.length < crypticNonceLen := by
        rw [← freadExact_eq_none_iff, Stream.freadBlock_eq, hnonce]
        rfl
      omega
  | some n =>
      obtain ⟨nonce, g₂⟩ := n
      have hread₂ := Stream.freadBlock_eq_some hnonce
      obtain ⟨-, -, -, hdata₁, hpos₁⟩ := Stream.freadExact_eq_some hread₁
      obtain ⟨-, -, -, hdata₂, hpos₂⟩ := Stream.freadExact_eq_some hread₂
      have hseek :
          g₂.fseekCur k.keyLen = g.fseekCur (crypticSaltLen + crypticNonceLen + k.keyLen) := by
        simp only [Stream.fseekCur, hdata₁, hdata₂, hpos₁, hpos₂, Stream.mk.injEq, true_and,
          and_true]
        omega
      refine ⟨(⟨k.name, k.keyLen, salt, nonce⟩, g₂), ?_⟩
      rw [← hseek, retrieveTurn, retrieveHead_eq, hhead]
      simp [heof, hsalt, hnonce]

/-- Behind a head, while the name is not found, the retrieval goes on at the length field, if
salt and nonce are there. -/
theorem retrieveFrom_head
    (heof : f.eof = false)
    (hhead : listHead f = some (k, g))
    (habsent : iterate (retrieveTurn name) (fuel + 1) f = some none) :
    (g.rest.length < crypticSaltLen + crypticNonceLen ∧
        retrieveFrom name (fuel + 1) f = [f.pos])
      ∨
    (iterate (retrieveTurn name) fuel
          (g.fseekCur (crypticSaltLen + crypticNonceLen + k.keyLen)) = some none ∧
        retrieveFrom name (fuel + 1) f =
          f.pos ::
            retrieveFrom name fuel
              (g.fseekCur (crypticSaltLen + crypticNonceLen + k.keyLen))) := by
  have hreads : retrieveReads f = some f.pos := by
    simp [retrieveReads, heof, nameLenOffset_of_head hhead]
  by_cases hshort : g.rest.length < crypticSaltLen + crypticNonceLen
  · refine Or.inl ⟨hshort, ?_⟩
    rw [retrieveFrom, turnStates_done (retrieveTurn_short heof hhead hshort),
      List.filterMap_cons_some hreads, List.filterMap_nil]
  · obtain ⟨found, hturn⟩ := @retrieveTurn_head name f g k heof hhead hshort
    by_cases hname : k.name = name
    · rw [if_pos hname] at hturn
      rw [iterate_done hturn] at habsent
      cases habsent
    · rw [if_neg hname] at hturn
      refine Or.inr ⟨?_, ?_⟩
      · rw [← habsent, iterate_next hturn]
      · rw [retrieveFrom, turnStates_next hturn, List.filterMap_cons_some hreads, retrieveFrom]

/-- A walk that has room and turns reads first where it stands. -/
theorem head?_listFrom
    (heof : f.eof = false)
    (hroom : keys.length < keystoreMaxKeys) :
    (listFrom (fuel + 1) keys f).head? = nameLenOffset f := by
  cases hhead : listHead f with
  | none =>
      rw [listFrom_end heof hroom hhead]
      cases nameLenOffset f <;> rfl
  | some r =>
      obtain ⟨k, g⟩ := r
      rw [listFrom_head heof hroom hhead, nameLenOffset_of_head hhead, List.head?_cons]

theorem head?_retrieveFrom
    (heof : f.eof = false)
    (habsent : iterate (retrieveTurn name) (fuel + 1) f = some none) :
    (retrieveFrom name (fuel + 1) f).head? = nameLenOffset f := by
  cases hhead : listHead f with
  | none =>
      rw [retrieveFrom_end heof hhead]
      cases nameLenOffset f <;> rfl
  | some r =>
      obtain ⟨k, g⟩ := r
      rw [nameLenOffset_of_head hhead]
      rcases retrieveFrom_head heof hhead habsent with ⟨-, hfrom⟩ | ⟨-, hfrom⟩
      · rw [hfrom, List.head?_cons]
      · rw [hfrom, List.head?_cons]

/-- A walk reads nothing more where less than two bytes are left. -/
theorem listFrom_of_short
    (heof : f.eof = false)
    (hshort : f.rest.length < 2) :
    listFrom fuel keys f = [] := by
  by_cases hroom : keys.length < keystoreMaxKeys
  swap
  · exact listFrom_full hroom
  cases fuel with
  | zero =>
      rfl
  | succ fuel =>
      rw [listFrom_end heof hroom (listHead_of_short hshort), nameLenOffset_eq, if_pos hshort]
      rfl

end Walks

section Track

variable {content : Bytes} {count offset : Nat} {k : KeyInfo} {g : Stream}

theorem streamAt_eq
    {f : Stream}
    (heof : f.eof = false) :
    streamAt f.data f.pos = f := by
  cases f
  simp only [streamAt, Stream.mk.injEq, true_and]
  exact heof.symm

/-- Where no head is read, there is nothing to leave the track. -/
theorem keepsTrack_end
    (hhead : listHead (streamAt content offset) = none) :
    KeepsTrack content count offset := by
  intro n o _ ho
  cases n with
  | zero =>
      obtain rfl := Option.some.inj ho
      rintro ⟨k, f, h, -⟩
      rw [hhead] at h
      cases h
  | succ n =>
      simp [recordOffset, nextOffset, hhead] at ho

/-- The track from a record on is that record and the track behind it. -/
theorem keepsTrack_head
    (hhead : listHead (streamAt content offset) = some (k, g)) :
    KeepsTrack content count offset
      ↔
    (count + 1 < keystoreMaxKeys → ¬ LeavesTrack content offset) ∧
      KeepsTrack content (count + 1)
        (g.pos + (crypticSaltLen + crypticNonceLen + k.keyLen)) := by
  have hnext :
      nextOffset content offset =
        some (g.pos + (crypticSaltLen + crypticNonceLen + k.keyLen)) := by
    rw [nextOffset, hhead]
    rfl
  constructor
  · intro h
    refine ⟨fun hroom => h 0 offset hroom rfl, fun n o hroom ho => ?_⟩
    refine h (n + 1) o (by omega) ?_
    rw [recordOffset, hnext, Option.bind_some, ho]
  · rintro ⟨hfirst, hrest⟩ n o hroom ho
    cases n with
    | zero =>
        obtain rfl := Option.some.inj ho
        exact hfirst hroom
    | succ n =>
        rw [recordOffset, hnext, Option.bind_some] at ho
        exact hrest n o (by omega) ho

/-- Behind the end of the file there is nothing to leave the track. -/
theorem keepsTrack_of_le
    (h : content.length ≤ offset) :
    KeepsTrack content count offset := by
  refine keepsTrack_end (listHead_of_short ?_)
  have hdrop : (streamAt content offset).rest = [] := List.drop_eq_nil_of_le h
  rw [hdrop]
  decide

theorem leavesTrack_iff
    (hhead : listHead (streamAt content offset) = some (k, g)) :
    LeavesTrack content offset
      ↔
    2 ^ 32 ≤ crypticSaltLen + crypticNonceLen + k.keyLen ∧
      g.pos + (crypticSaltLen + crypticNonceLen + k.keyLen - 2 ^ 32) + 2 ≤ content.length := by
  constructor
  · rintro ⟨k', g', hhead', h⟩
    obtain ⟨rfl, rfl⟩ := Prod.mk.inj (Option.some.inj (hhead.symm.trans hhead'))
    exact h
  · exact fun h => ⟨k, g, hhead, h⟩

/-- Two walks that go on at different offsets part, if the first one reads there. -/
theorem not_prefix_of_head?
    {l r : List Nat} {o : Nat}
    (hl : l.head? = some o)
    (hr : ∀ b ∈ r.head?, o ≠ b) :
    ¬ l <+: r := by
  rintro ⟨t, rfl⟩
  cases l with
  | nil =>
      cases hl
  | cons a l =>
      obtain rfl := Option.some.inj hl
      exact hr a rfl rfl

variable {name : CString} {fuel : Nat} {keys : List KeyInfo} {f : Stream}

/-- The retrieval begins with the record at which it stands. -/
theorem singleton_prefix_retrieveFrom
    (heof : f.eof = false)
    (hhead : listHead f = some (k, g))
    (habsent : iterate (retrieveTurn name) (fuel + 1) f = some none) :
    [f.pos] <+: retrieveFrom name (fuel + 1) f := by
  rcases retrieveFrom_head heof hhead habsent with ⟨-, hfrom⟩ | ⟨-, hfrom⟩
  · rw [hfrom]
  · rw [hfrom, List.prefix_cons_inj]
    exact List.nil_prefix

/-- Behind a record whose skip distance does not fit 32 bits, the listing still follows the
retrieval exactly when it ends. -/
theorem prefix_of_wrap_iff
    (heof : f.eof = false)
    (hhead : listHead f = some (k, g))
    (hgrest : g.rest.length = f.data.length - g.pos)
    (hfuel : 0 < fuel)
    (habsent : iterate (retrieveTurn name) (fuel + 1) f = some none)
    (hroom : (keys ++ [k]).length < keystoreMaxKeys)
    (hwrap : 2 ^ 32 ≤ crypticSaltLen + crypticNonceLen + k.keyLen) :
    f.pos :: listFrom fuel (keys ++ [k])
          (g.fseekCur (crypticSaltLen + crypticNonceLen + k.keyLen - 2 ^ 32)) <+:
        retrieveFrom name (fuel + 1) f
      ↔
    f.data.length < g.pos + (crypticSaltLen + crypticNonceLen + k.keyLen - 2 ^ 32) + 2 := by
  obtain ⟨fuel, rfl⟩ : ∃ m, fuel = m + 1 := ⟨fuel - 1, by omega⟩
  have hlen :
      (g.fseekCur (crypticSaltLen + crypticNonceLen + k.keyLen - 2 ^ 32)).rest.length =
        f.data.length - g.pos - (crypticSaltLen + crypticNonceLen + k.keyLen - 2 ^ 32) := by
    rw [Stream.rest_fseekCur, List.length_drop, hgrest]
  by_cases hend :
      f.data.length < g.pos + (crypticSaltLen + crypticNonceLen + k.keyLen - 2 ^ 32) + 2
  · rw [listFrom_of_short rfl (by omega)]
    refine iff_of_true ?_ hend
    exact singleton_prefix_retrieveFrom heof hhead habsent
  · refine iff_of_false ?_ hend
    have hfirst :=
      @head?_listFrom (g.fseekCur (crypticSaltLen + crypticNonceLen + k.keyLen - 2 ^ 32))
        (keys ++ [k]) fuel rfl hroom
    rw [nameLenOffset_eq, if_neg (by omega)] at hfirst
    rcases retrieveFrom_head heof hhead habsent with ⟨-, hfrom⟩ | ⟨habsent', hfrom⟩
    · rw [hfrom, List.prefix_cons_inj]
      exact not_prefix_of_head? hfirst (by simp)
    · rw [hfrom, List.prefix_cons_inj]
      refine not_prefix_of_head? hfirst ?_
      rw [head?_retrieveFrom rfl habsent', nameLenOffset_eq]
      intro o ho
      split_ifs at ho
      · cases ho
      · obtain rfl := Option.some.inj ho
        simp only [Stream.fseekCur, crypticSaltLen, crypticNonceLen] at hwrap ⊢
        omega

/-- The listing follows the retrieval exactly when no record on the way leaves the track. -/
theorem listFrom_prefix_iff
    (heof : f.eof = false)
    (hfuel : f.rest.length < fuel)
    (habsent : iterate (retrieveTurn name) fuel f = some none) :
    listFrom fuel keys f <+: retrieveFrom name fuel f
      ↔
    KeepsTrack f.data keys.length f.pos := by
  induction fuel generalizing keys f with
  | zero =>
      omega
  | succ fuel ih =>
  by_cases hroom : keys.length < keystoreMaxKeys
  swap
  · rw [listFrom_full hroom]
    refine iff_of_true List.nil_prefix fun n o hn => ?_
    omega
  cases hhead : listHead f with
  | none =>
      rw [listFrom_end heof hroom hhead, retrieveFrom_end heof hhead]
      refine iff_of_true List.prefix_rfl (keepsTrack_end ?_)
      rwa [streamAt_eq heof]
  | some r =>
  obtain ⟨k, g⟩ := r
  obtain ⟨hdata, -, hlen, -⟩ := listHead_spec hhead
  have hat : listHead (streamAt f.data f.pos) = some (k, g) := by
    rwa [streamAt_eq heof]
  have hgrest : g.rest.length = f.data.length - g.pos := by
    rw [Stream.rest, List.length_drop, hdata]
  have hkeys : (keys ++ [k]).length = keys.length + 1 := by
    rw [List.length_append, List.length_singleton]
  have hshorter := length_rest_listHead hhead
  rw [listFrom_head heof hroom hhead, keepsTrack_head hat, leavesTrack_iff hat]
  by_cases hwrap : 2 ^ 32 ≤ crypticSaltLen + crypticNonceLen + k.keyLen
  · -- the listing goes on short of the next record, if it goes on at all
    have hkeyLen := (listHead_spec hhead).2.2.2
    have hskip :
        (crypticSaltLen + crypticNonceLen + k.keyLen) % 2 ^ 32 =
          crypticSaltLen + crypticNonceLen + k.keyLen - 2 ^ 32 := by
      simp only [crypticSaltLen, crypticNonceLen] at hwrap ⊢
      omega
    rw [hskip]
    by_cases hmore : keys.length + 1 < keystoreMaxKeys
    · rw [prefix_of_wrap_iff heof hhead hgrest (by omega) habsent (by omega) hwrap]
      simp only [hmore, hwrap, true_and, forall_const, Nat.not_le]
      constructor
      · exact fun h => ⟨h, keepsTrack_of_le (by omega)⟩
      · exact fun h => h.1
    · rw [listFrom_full (by omega)]
      exact iff_of_true (singleton_prefix_retrieveFrom heof hhead habsent)
        ⟨fun h => absurd h hmore, fun n o hn => by omega⟩
  · -- both readers skip the same distance
    rw [Nat.mod_eq_of_lt (Nat.lt_of_not_le hwrap)]
    simp only [hwrap, false_and, not_false_eq_true, implies_true, true_and]
    rcases retrieveFrom_head heof hhead habsent with ⟨hshort, hfrom⟩ | ⟨habsent', hfrom⟩
    · rw [hfrom, listFrom_of_short rfl (by rw [Stream.rest_fseekCur, List.length_drop]; omega)]
      exact iff_of_true List.prefix_rfl (keepsTrack_of_le (by omega))
    · rw [hfrom, List.prefix_cons_inj, ih rfl ?_ habsent', hkeys]
      · simp only [Stream.fseekCur, hdata]
      · rw [Stream.rest_fseekCur, List.length_drop]
        omega

end Track

/--
**The walks of the two readers.**

On every file both loops end.  For a name that no entry has, the offsets at which the listing
reads name lengths are the first of those at which the retrieval does, if and only if none of
the records that are listed with room for another leaves the track.
-/
theorem readers_walk_alike_iff
    (content : Bytes) (name : CString)
    (habsent : findEntry name content = none) :
    (listOffsets content <+: retrieveOffsets name content ↔ KeepsTrack content 0 0)
      ∧
    (∃ found,
      iterate (retrieveTurn name) (content.length + 1) (Stream.fopen content) = some found)
      ∧
    ∃ keys, iterate listTurn (content.length + 1) ([], Stream.fopen content) = some keys := by
  refine ⟨?_, retrieve_terminates name content, list_terminates content⟩
  obtain ⟨found, hfound⟩ := retrieve_terminates name content
  rw [findEntry, hfound, Option.join_some] at habsent
  rw [habsent] at hfound
  exact listFrom_prefix_iff rfl (by simp) hfound

section Examples

/-- A record without a name, whose length field holds `encLen`. -/
def bareRecord (encLen : Nat) : Bytes :=
  List.replicate 14 0 ++ leBytes 4 encLen

/-- Two records with one byte of encrypted data. -/
def twoRecords : Bytes :=
  bareRecord 1 ++ List.replicate 41 0 ++ (bareRecord 1 ++ List.replicate 41 0)

theorem twoRecords_walk_alike :
    listOffsets twoRecords = [0, 59] ∧
      listOffsets twoRecords <+: retrieveOffsets (cstr [1]) twoRecords ∧
      KeepsTrack twoRecords 0 0 := by
  have hprefix : listOffsets twoRecords <+: retrieveOffsets (cstr [1]) twoRecords := by
    decide +kernel
  exact ⟨by decide +kernel, hprefix,
    (readers_walk_alike_iff twoRecords (cstr [1]) (by decide +kernel)).1.mp hprefix⟩

/-- A record whose skip distance is `2 ^ 32`, and two more bytes. -/
def wrappingRecord : Bytes :=
  bareRecord (2 ^ 32 - 40) ++ [0, 0]

/-- The listing reads the two bytes behind the record as a name length. -/
theorem wrappingRecord_walks_part :
    findEntry (cstr [1]) wrappingRecord = none ∧
      listOffsets wrappingRecord = [0, 18] ∧
      retrieveOffsets (cstr [1]) wrappingRecord = [0] ∧
      ¬ listOffsets wrappingRecord <+: retrieveOffsets (cstr [1]) wrappingRecord := by
  decide +kernel

end Examples

end KeyStorage
end SecureZ
