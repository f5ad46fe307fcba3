import SecureZ.Shell.Expansion
import SecureZ.Lib.Stream

/-!
# The array bounds of variable expansion

`expand_variables` writes into two arrays: `varname`, which takes the name of a variable, and
`result`, which takes the output.  Each turn of its loop is a list of writes, and the bounds
are a property of the writes of every turn.

The names always fit.  The output does as long as the check of a variable is made on a sum
that is an `int`, and the value of `HOME` for a `~` is shorter than the buffer: it is copied
without a check.
-/

namespace SecureZ
namespace Shell

open CLib

section Model

/-- A write of `len` bytes from index `start` on. -/
inductive ArrayWrite
  | varname (start len : Nat)
  | result (start len : Nat)
deriving DecidableEq

/-- `char varname[256]` and `char result[MAX_LINE_LENGTH]`. -/
def ArrayWrite.InBounds : ArrayWrite → Prop
  | .varname start len => start + len ≤ 256
  | .result start len => start + len ≤ maxLineLength

instance : (w : ArrayWrite) → Decidable w.InBounds
  | .varname start len => inferInstanceAs (Decidable (start + len ≤ 256))
  | .result start len => inferInstanceAs (Decidable (start + len ≤ maxLineLength))

/-- The output, of which `ri` is the length, and what is left of the token. -/
structure ExpandState where
  result : Bytes
  p : Bytes

/-- A turn of the loop of `expand_variables`. -/
def expandTurn (env : Environment) (s : ExpandState) : Turn ExpandState Bytes :=
  match s.p with
  | [] => .done s.result
  | b :: p =>
      if s.result.length < maxLineLength - 1 then
        if b = byte '$' then
          .next ⟨putValue env s.result (variableName p).1, (variableName p).2⟩
        else if b = byte '~' ∧ s.result = [] then .next ⟨putHome env, p⟩
        else .next ⟨s.result ++ [b], p⟩
      else .done s.result

/-- The writes of a name, with its NUL. -/
def nameWrites (name : Bytes) : List ArrayWrite :=
  (List.range (name.length + 1)).map fun vi => .varname vi 1

/-- The `memcpy` of the value of a variable. -/
def valueWrites (env : Environment) (ri : Nat) (name : Bytes) : List ArrayWrite :=
  match env name with
  | none => []
  | some value => if fitsCheck ri value.strlen then [.result ri value.strlen] else []

/-- The `memcpy` of the value of `HOME`. -/
def homeWrites (env : Environment) (ri : Nat) : List ArrayWrite :=
  match env (ascii "HOME") with
  | none => []
  | some home => [.result ri home.strlen]

/-- The writes of a turn, or of the NUL behind the output when the loop has ended. -/
def turnWrites (env : Environment) (s : ExpandState) : List ArrayWrite :=
  match s.p with
  | [] => [.result s.result.length 1]
  | b :: p =>
      if s.result.length < maxLineLength - 1 then
        if b = byte '$' then
          nameWrites (variableName p).1 ++ valueWrites env s.result.length (variableName p).1
        else if b = byte '~' ∧ s.result = [] then homeWrites env s.result.length
        else [.result s.result.length 1]
      else [.result s.result.length 1]

/-- The states in which the turns begin; a token without a `$` is copied with `strdup`. -/
def expandStates (env : Environment) (token : Bytes) : List ExpandState :=
  if byte '$' ∈ token then turnStates (expandTurn env) (token.length + 1) ⟨[], token⟩ else []

end Model

section Specification

/-- The index stays in the array, and so does every write. -/
def ExpandSafe (env : Environment) (token : Bytes) : Prop :=
  ∀ s ∈ expandStates env token,
    s.result.length ≤ maxLineLength - 1 ∧ ∀ w ∈ turnWrites env s, w.InBounds

instance (env : Environment) (token : Bytes) : Decidable (ExpandSafe env token) :=
  inferInstanceAs (Decidable (∀ s ∈ expandStates env token,
    s.result.length ≤ maxLineLength - 1 ∧ ∀ w ∈ turnWrites env s, w.InBounds))

/-- In a turn, the value of `HOME` is short, and the sum of the check is an `int` unless the
value is refused. -/
structure TurnFits (env : Environment) (s : ExpandState) : Prop where
  home :
    ∀ p, s.p = byte '~' :: p → s.result = [] →
      ∀ home ∈ env (ascii "HOME"), home.strlen < maxLineLength
  value :
    ∀ p, s.p = byte '$' :: p → s.result.length < maxLineLength - 1 →
      ∀ value ∈ env (variableName p).1,
        fitsCheck s.result.length value.strlen = true →
          s.result.length + value.strlen < 2 ^ 31

/-- At the start of the output, nothing is put for a variable. -/
def PutsNothing (env : Environment) (name : Bytes) : Prop :=
  ∀ value ∈ env name, value.strlen = 0 ∨ maxLineLength - 1 ≤ value.strlen

/-- A `~` is the first thing in a token, apart from variables for which nothing is put. -/
inductive TildeFirst (env : Environment) : Bytes → Prop
  | tilde (p : Bytes) :
      TildeFirst env (byte '~' :: p)
  | dollar (p : Bytes)
      (hnothing : PutsNothing env (variableName p).1)
      (hrest : TildeFirst env (variableName p).2) :
      TildeFirst env (byte '$' :: p)

end Specification

section Loop

variable {env : Environment}

/-- What a turn can do, and what it writes. -/
inductive TurnCase (env : Environment) (s : ExpandState) : Prop
  | stop
      (hend : s.p = [] ∨ ¬ s.result.length < maxLineLength - 1)
      (hturn : expandTurn env s = .done s.result)
      (hwrites : turnWrites env s = [.result s.result.length 1])
  | dollar (p : Bytes)
      (hp : s.p = byte '$' :: p)
      (hroom : s.result.length < maxLineLength - 1)
      (hturn :
        expandTurn env s = .next ⟨putValue env s.result (variableName p).1, (variableName p).2⟩)
      (hwrites :
        turnWrites env s =
          nameWrites (variableName p).1 ++ valueWrites env s.result.length (variableName p).1)
  | tilde (p : Bytes)
      (hp : s.p = byte '~' :: p)
      (hempty : s.result = [])
      (hturn : expandTurn env s = .next ⟨putHome env, p⟩)
      (hwrites : turnWrites env s = homeWrites env 0)
  | char (b : UInt8) (p : Bytes)
      (hp : s.p = b :: p)
      (hroom : s.result.length < maxLineLength - 1)
      (hdollar : b ≠ byte '$')
      (htilde : ¬ (b = byte '~' ∧ s.result = []))
      (hturn : expandTurn env s = .next ⟨s.result ++ [b], p⟩)
      (hwrites : turnWrites env s = [.result s.result.length 1])

theorem turn_cases
    (env : Environment) (s : ExpandState) :
    TurnCase env s := by
  obtain ⟨result, p⟩ := s
  cases p with
  | nil =>
      exact .stop (.inl rfl) rfl rfl
  | cons b p =>
      by_cases hroom : result.length < maxLineLength - 1
      · by_cases hdollar : b = byte '$'
        · subst hdollar
          exact .dollar p rfl hroom (by simp [expandTurn, hroom]) (by simp [turnWrites, hroom])
        · by_cases htilde : b = byte '~' ∧ result = []
          · obtain ⟨rfl, rfl⟩ := htilde
            exact .tilde p rfl rfl rfl rfl
          · exact .char b p rfl hroom hdollar htilde
              (by simp only [expandTurn, if_pos hroom, if_neg hdollar, if_neg htilde])
              (by simp only [turnWrites, if_pos hroom, if_neg hdollar, if_neg htilde])
      · exact .stop (.inr hroom) (by simp only [expandTurn, if_neg hroom])
          (by simp only [turnWrites, if_neg hroom])

/-- There is room in an empty output. -/
theorem room_nil : ([] : Bytes).length < maxLineLength - 1 := by
  decide

theorem length_expandTurn
    {s s' : ExpandState}
    (h : expandTurn env s = .next s') :
    s'.p.length < s.p.length := by
  cases turn_cases env s with
  | stop hend hturn hwrites =>
      rw [hturn] at h
      cases h
  | dollar p hp hroom hturn hwrites =>
      rw [hturn] at h
      cases h
      have hname := length_variableName_le p
      rw [hp, List.length_cons]
      dsimp only
      omega
  | tilde p hp hempty hturn hwrites =>
      rw [hturn] at h
      cases h
      simp [hp]
  | char b p hp hroom hdollar htilde hturn hwrites =>
      rw [hturn] at h
      cases h
      simp [hp]

/-- The turns are those of `expand_variables`. -/
theorem iterate_expandTurn
    {fuel : Nat} {result p : Bytes}
    (hfuel : p.length ≤ fuel) :
    iterate (expandTurn env) (fuel + 1) ⟨result, p⟩ = some (expandLoop env fuel result p) := by
  induction fuel generalizing result p with
  | zero =>
      obtain rfl : p = [] := List.length_eq_zero_iff.mp (by omega)
      rfl
  | succ fuel ih =>
      cases turn_cases env ⟨result, p⟩ with
      | stop hend hturn hwrites =>
          rw [iterate_done hturn]
          cases p with
          | nil => rfl
          | cons b p => rw [expandLoop, if_neg (by simpa using hend)]
      | dollar q hp hroom hturn hwrites =>
          obtain rfl : p = byte '$' :: q := hp
          have hname := length_variableName_le q
          rw [List.length_cons] at hfuel
          rw [iterate_next hturn, expandLoop, if_pos hroom, if_pos rfl]
          exact ih (by omega)
      | tilde q hp hempty hturn hwrites =>
          obtain rfl : p = byte '~' :: q := hp
          obtain rfl : result = [] := hempty
          rw [List.length_cons] at hfuel
          rw [iterate_next hturn]
          exact ih (by omega)
      | char b q hp hroom hdollar htilde hturn hwrites =>
          obtain rfl : p = b :: q := hp
          rw [List.length_cons] at hfuel
          rw [iterate_next hturn, expandLoop, if_pos hroom, if_neg hdollar, if_neg htilde]
          exact ih (by omega)

/-- A loop that is entered ends with what `expand_variables` returns. -/
theorem iterate_expandVariables
    {token : Bytes}
    (h : byte '$' ∈ token) :
    iterate (expandTurn env) (token.length + 1) ⟨[], token⟩ =
      some (expandVariables env token) := by
  rw [expandVariables, if_pos h]
  exact iterate_expandTurn le_rfl

end Loop

section Bounds

variable {env : Environment}

theorem length_nameSpan_fst_le
    (ok : UInt8 → Bool) (p : Bytes) :
    (nameSpan ok p).1.length ≤ 255 := by
  have hspan := (List.takeWhile_prefix ok (l := p.take 255)).length_le
  have htake := List.length_take_le 255 p
  exact hspan.trans htake

/-- A name leaves room for its NUL. -/
theorem length_variableName_fst_le
    (p : Bytes) :
    (variableName p).1.length ≤ 255 := by
  cases p with
  | nil =>
      simp [variableName]
  | cons b p =>
      by_cases hbrace : b = byte '\x7b'
      · rw [variableName, if_pos hbrace]
        exact length_nameSpan_fst_le _ p
      · by_cases hquestion : b = byte '?'
        · rw [variableName, if_neg hbrace, if_pos hquestion]
          exact (by decide : (ascii "?").length ≤ 255)
        · rw [variableName, if_neg hbrace, if_neg hquestion]
          exact length_nameSpan_fst_le isNameByte (b :: p)

theorem nameWrites_inBounds
    (p : Bytes) :
    ∀ w ∈ nameWrites (variableName p).1, w.InBounds := by
  intro w hw
  obtain ⟨vi, hvi, rfl⟩ := List.mem_map.mp hw
  have hlen := length_variableName_fst_le p
  rw [List.mem_range] at hvi
  simp only [ArrayWrite.InBounds]
  omega

/-- What the copy of the value of a variable needs. -/
theorem value_safe_iff
    {result : Bytes}
    (hroom : result.length < maxLineLength - 1)
    (name : Bytes) :
    ((∀ w ∈ valueWrites env result.length name, w.InBounds) ∧
        (putValue env result name).length ≤ maxLineLength - 1)
      ↔
    ∀ value ∈ env name, fitsCheck result.length value.strlen = true →
      result.length + value.strlen < 2 ^ 31 := by
  unfold valueWrites putValue
  cases hvalue : env name with
  | none =>
      simp [hroom.le]
  | some value =>
      have hlen : value.bytes.length = value.strlen := rfl
      simp only [maxLineLength] at hroom ⊢
      by_cases hfits : fitsCheck result.length value.strlen = true
      · have hexact := @fitsCheck_iff result.length value.strlen
        simp only [hfits, maxLineLength, true_iff] at hexact
        simp only [hfits, if_true, List.mem_singleton, forall_eq, ArrayWrite.InBounds,
          maxLineLength, List.length_append, hlen, Option.mem_def, Option.some.injEq, forall_eq',
          forall_const]
        constructor
        · rintro ⟨-, hle⟩
          omega
        · intro hint
          have := hexact hint
          omega
      · simp [hfits, hroom.le]

/-- What the copy of the value of `HOME` needs. -/
theorem home_safe_iff :
    ((∀ w ∈ homeWrites env 0, w.InBounds) ∧ (putHome env).length ≤ maxLineLength - 1)
      ↔
    ∀ home ∈ env (ascii "HOME"), home.strlen < maxLineLength := by
  unfold homeWrites putHome
  cases hhome : env (ascii "HOME") with
  | none =>
      simp
  | some home =>
      have hlen : home.bytes.length = home.strlen := rfl
      simp only [List.mem_singleton, forall_eq, ArrayWrite.InBounds, maxLineLength, hlen,
        Option.mem_def, Option.some.injEq, forall_eq']
      omega

/-- The last turn fits. -/
theorem turnFits_stop
    {s : ExpandState}
    (hend : s.p = [] ∨ ¬ s.result.length < maxLineLength - 1) :
    TurnFits env s := by
  rcases hend with hnil | hfull
  · exact ⟨fun p hp => by simp [hnil] at hp, fun p hp => by simp [hnil] at hp⟩
  · exact ⟨fun p _ hempty => absurd (hempty ▸ room_nil) hfull,
      fun p _ hroom => absurd hroom hfull⟩

theorem turnFits_dollar_iff
    {s : ExpandState} {p : Bytes}
    (hp : s.p = byte '$' :: p)
    (hroom : s.result.length < maxLineLength - 1) :
    TurnFits env s
      ↔
    ∀ value ∈ env (variableName p).1, fitsCheck s.result.length value.strlen = true →
      s.result.length + value.strlen < 2 ^ 31 := by
  constructor
  · intro hfits
    exact hfits.value p hp hroom
  · intro hvalue
    refine ⟨fun q hq => ?_, fun q hq _ => ?_⟩
    · rw [hp] at hq
      cases hq
    · rw [hp] at hq
      cases hq
      exact hvalue

theorem turnFits_tilde_iff
    {s : ExpandState} {p : Bytes}
    (hp : s.p = byte '~' :: p)
    (hempty : s.result = []) :
    TurnFits env s ↔ ∀ home ∈ env (ascii "HOME"), home.strlen < maxLineLength := by
  constructor
  · intro hfits
    exact hfits.home p hp hempty
  · intro hhome
    refine ⟨fun _ _ _ => hhome, fun q hq => ?_⟩
    rw [hp] at hq
    cases hq

/-- A turn for another character fits. -/
theorem turnFits_char
    {s : ExpandState} {b : UInt8} {p : Bytes}
    (hp : s.p = b :: p)
    (hdollar : b ≠ byte '$')
    (htilde : ¬ (b = byte '~' ∧ s.result = [])) :
    TurnFits env s := by
  refine ⟨fun q hq hempty => ?_, fun q hq => ?_⟩
  · rw [hp] at hq
    exact absurd ⟨(List.cons.inj hq).1, hempty⟩ htilde
  · rw [hp] at hq
    exact absurd (List.cons.inj hq).1 hdollar

/-- A turn with room for it stays in bounds, and leaves room, exactly when it fits. -/
theorem turn_safe_iff
    {s : ExpandState}
    (hinv : s.result.length ≤ maxLineLength - 1) :
    ((∀ w ∈ turnWrites env s, w.InBounds) ∧
        ∀ s', expandTurn env s = .next s' → s'.result.length ≤ maxLineLength - 1)
      ↔
    TurnFits env s := by
  have hone : (ArrayWrite.result s.result.length 1).InBounds := by
    simp only [maxLineLength] at hinv
    simp only [ArrayWrite.InBounds, maxLineLength]
    omega
  cases turn_cases env s with
  | stop hend hturn hwrites =>
      rw [hturn, hwrites]
      simp [hone, turnFits_stop hend]
  | dollar p hp hroom hturn hwrites =>
      rw [hturn, hwrites, List.forall_mem_append, and_iff_right (nameWrites_inBounds p),
        turnFits_dollar_iff hp hroom, ← value_safe_iff hroom]
      simp only [Turn.next.injEq, forall_eq']
  | tilde p hp hempty hturn hwrites =>
      rw [hturn, hwrites, turnFits_tilde_iff hp hempty, ← home_safe_iff]
      simp only [Turn.next.injEq, forall_eq']
  | char b p hp hroom hdollar htilde hturn hwrites =>
      have hlen : (s.result ++ [b]).length ≤ maxLineLength - 1 := by
        rw [List.length_append, List.length_singleton]
        exact hroom
      rw [hturn, hwrites]
      simp only [List.mem_singleton, forall_eq, hone, Turn.next.injEq, forall_eq', hlen,
        turnFits_char hp hdollar htilde, and_self]

/-- A token is expanded in bounds exactly when every turn fits. -/
theorem expandSafe_iff_turns
    (env : Environment) (token : Bytes) :
    ExpandSafe env token ↔ ∀ s ∈ expandStates env token, TurnFits env s := by
  unfold ExpandSafe expandStates
  split_ifs
  · exact forall_turnStates_iff (fun s => s.p.length) (fun _ _ => length_expandTurn)
      (fun _ hinv => turn_safe_iff hinv) (Nat.lt_succ_self _) (Nat.zero_le _)
  · simp

end Bounds

section TildeFirst

variable {env : Environment}

/-- Values whose lengths are far from the end of the range of an `int`. -/
def ShortValues (env : Environment) : Prop :=
  ∀ name, ∀ value ∈ env name, value.strlen < 2 ^ 31 - maxLineLength

theorem putValue_nil_iff
    (hshort : ShortValues env)
    (name : Bytes) :
    putValue env [] name = [] ↔ PutsNothing env name := by
  unfold putValue PutsNothing
  cases hvalue : env name with
  | none =>
      simp
  | some value =>
      have hlen := hshort name value hvalue
      have hempty : value.bytes = [] ↔ value.strlen = 0 := List.length_eq_zero_iff.symm
      have hfits := @fitsCheck_iff 0 value.strlen (by omega)
      rw [Nat.zero_add] at hfits
      simp only [List.length_nil, hfits, List.nil_append, Option.mem_def, Option.some.injEq,
        forall_eq', ite_eq_right_iff, hempty]
      omega

/-- Output that is there stays. -/
theorem result_ne_nil_of_next
    {s s' : ExpandState}
    (hs : s.result ≠ [])
    (h : expandTurn env s = .next s') :
    s'.result ≠ [] := by
  cases turn_cases env s with
  | stop hend hturn hwrites =>
      rw [hturn] at h
      cases h
  | dollar p hp hroom hturn hwrites =>
      rw [hturn] at h
      cases h
      unfold putValue
      cases env (variableName p).1 with
      | none =>
          exact hs
      | some value =>
          dsimp only
          split_ifs
          · simp [hs]
          · exact hs
  | tilde p hp hempty hturn hwrites =>
      exact absurd hempty hs
  | char b p hp hroom hdollar htilde hturn hwrites =>
      rw [hturn] at h
      cases h
      simp

/-- The state begins a turn for a `~` at the start of the output. -/
def AtTilde (s : ExpandState) : Prop :=
  s.result = [] ∧ ∃ p, s.p = byte '~' :: p

/-- What a token begins with when a `~` is first in it. -/
theorem tildeFirst_cons_iff
    {b : UInt8} {p : Bytes} :
    TildeFirst env (b :: p)
      ↔
    b = byte '~' ∨
      (b = byte '$' ∧ PutsNothing env (variableName p).1 ∧
        TildeFirst env (variableName p).2) := by
  constructor
  · intro h
    cases h with
    | tilde => exact .inl rfl
    | dollar _ hnothing hrest => exact .inr ⟨rfl, hnothing, hrest⟩
  · rintro (rfl | ⟨rfl, hnothing, hrest⟩)
    · exact .tilde p
    · exact .dollar p hnothing hrest

/-- Behind some output, no turn is for a `~` at the start of it. -/
theorem not_atTilde_of_result_ne_nil
    {s : ExpandState}
    (hs : s.result ≠ [])
    (n : Nat) :
    ¬ ∃ t ∈ turnStates (expandTurn env) n s, AtTilde t := by
  rintro ⟨t, ht, hempty, -⟩
  exact forall_turnStates (fun s => s.result ≠ []) (fun _ _ => result_ne_nil_of_next) hs t ht
    hempty

theorem not_atTilde_cons
    {b : UInt8}
    (hb : b ≠ byte '~')
    (result p : Bytes) :
    ¬ AtTilde ⟨result, b :: p⟩ := by
  rintro ⟨-, q, hq⟩
  exact hb (List.cons.inj hq).1

/-- The loop comes to a `~` at the start of its output exactly when the token has it first. -/
theorem exists_atTilde_iff
    (hshort : ShortValues env)
    {n : Nat} {p : Bytes}
    (hn : p.length < n) :
    (∃ s ∈ turnStates (expandTurn env) n ⟨[], p⟩, AtTilde s) ↔ TildeFirst env p := by
  induction n generalizing p with
  | zero =>
      omega
  | succ n ih =>
      cases turn_cases env ⟨[], p⟩ with
      | stop hend hturn hwrites =>
          obtain rfl : p = [] := hend.resolve_right fun h => h room_nil
          rw [turnStates_done hturn]
          constructor
          · simp [AtTilde]
          · intro h
            cases h
      | dollar q hp hroom hturn hwrites =>
          obtain rfl : p = byte '$' :: q := hp
          have hname := length_variableName_le q
          rw [List.length_cons] at hn
          have hne : byte '$' ≠ byte '~' := by decide
          have hself := not_atTilde_cons hne [] q
          rw [turnStates_next hturn, List.exists_mem_cons_iff, tildeFirst_cons_iff]
          dsimp only
          by_cases hnothing : PutsNothing env (variableName q).1
          · rw [(putValue_nil_iff hshort _).mpr hnothing, ih (by omega)]
            simp only [hself, hnothing, hne, true_and, false_or]
          · have hput : putValue env [] (variableName q).1 ≠ [] :=
              fun h => hnothing ((putValue_nil_iff hshort _).mp h)
            have hno := @not_atTilde_of_result_ne_nil env
              ⟨putValue env [] (variableName q).1, (variableName q).2⟩ hput n
            simp only [hself, hno, hnothing, hne, false_and, and_false, or_self]
      | tilde q hp hempty hturn hwrites =>
          obtain rfl : p = byte '~' :: q := hp
          have hself := mem_turnStates_self n.succ_pos (expandTurn env) ⟨[], byte '~' :: q⟩
          exact ⟨fun _ => .tilde q, fun _ => ⟨_, hself, rfl, q, rfl⟩⟩
      | char b q hp hroom hdollar htilde hturn hwrites =>
          obtain rfl : p = b :: q := hp
          have hb : b ≠ byte '~' := fun h => htilde ⟨h, rfl⟩
          have hself := not_atTilde_cons hb [] q
          have hno := @not_atTilde_of_result_ne_nil env ⟨[] ++ [b], q⟩ (by simp) n
          rw [turnStates_next hturn, List.exists_mem_cons_iff, tildeFirst_cons_iff]
          simp only [hself, hno, hb, hdollar, false_and, or_self]

/-- With such values, all turns fit unless a `~` is first and `HOME` is long. -/
theorem turnFits_iff_tilde
    (hshort : ShortValues env)
    (token : Bytes) :
    (∀ s ∈ turnStates (expandTurn env) (token.length + 1) ⟨[], token⟩, TurnFits env s)
      ↔
    (TildeFirst env token → ∀ home ∈ env (ascii "HOME"), home.strlen < maxLineLength) := by
  rw [← exists_atTilde_iff hshort (Nat.lt_succ_self token.length)]
  constructor
  · rintro hfits ⟨s, hs, hempty, p, hp⟩
    exact (hfits s hs).home p hp hempty
  · intro hhome s hs
    refine ⟨fun p hp hempty => hhome ⟨s, hs, hempty, p, hp⟩, ?_⟩
    intro p hp hroom value hvalue _
    have hlen := hshort _ value hvalue
    simp only [maxLineLength] at hroom hlen
    omega

end TildeFirst

section Safety

/--
**When `expand_variables` stays within its arrays.**

In general it does when every turn of its loop fits.  Where no value comes near the end of the
range of an `int`, this is a condition on the token and on `HOME`: the token has no `$`, or no
`~` comes first in it, or the value of `HOME` is shorter than the buffer.
-/
theorem expandVariables_safe_iff
    (env : Environment) (token : Bytes) :
    (ExpandSafe env token ↔ ∀ s ∈ expandStates env token, TurnFits env s) ∧
      (ShortValues env →
        (ExpandSafe env token ↔
          (byte '$' ∈ token → TildeFirst env token →
            ∀ home ∈ env (ascii "HOME"), home.strlen < maxLineLength))) := by
  refine ⟨expandSafe_iff_turns env token, fun hshort => ?_⟩
  rw [expandSafe_iff_turns, expandStates]
  split_ifs with hdollar
  · rw [turnFits_iff_tilde hshort]
    simp [hdollar]
  · simp [hdollar]

/-- A path of 4097 bytes. -/
def longPath : CString where
  bytes := List.replicate 4097 (byte '/')
  nulFree := fun h => absurd (List.eq_of_mem_replicate h) (by decide)

theorem strlen_longPath : longPath.strlen = 4097 :=
  List.length_replicate

/-- The only variable is `HOME`, and its value is long. -/
def longHome : Environment := fun name =>
  if name = ascii "HOME" then some longPath else none

/-- The value of such a `HOME` is copied over the end of the output. -/
theorem expandVariables_longHome :
    (ascii "~/$USER").length < maxLineLength ∧ ¬ ExpandSafe longHome (ascii "~/$USER") := by
  refine ⟨by decide, fun hsafe => ?_⟩
  have hstate : ⟨[], ascii "~/$USER"⟩ ∈ expandStates longHome (ascii "~/$USER") := by
    rw [expandStates, if_pos (by decide)]
    exact mem_turnStates_self (Nat.succ_pos _) _ _
  have hwrite : .result 0 4097 ∈ turnWrites longHome ⟨[], ascii "~/$USER"⟩ := by
    have hturn : turnWrites longHome ⟨[], ascii "~/$USER"⟩ = homeWrites longHome 0 := rfl
    rw [hturn, homeWrites, longHome, if_pos rfl, ← strlen_longPath]
    exact List.mem_singleton_self _
  have hbound := (hsafe _ hstate).2 _ hwrite
  exact absurd hbound (by simp [ArrayWrite.InBounds, maxLineLength])

end Safety

end Shell
end SecureZ
