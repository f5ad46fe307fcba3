import SecureZ.Shell.Tokenizer

/-!
# Variable expansion in the shell

`expand_variables` in `parser.c` copies a token into a buffer of `MAX_LINE_LENGTH` bytes
and puts the value of a variable in the place of each `$`.  A token without a `$` is
copied as it stands.

A value that does not fit is left out; the value of `HOME` for a leading `~` is copied
without such a check, and the check of a variable is made with the length as an `int`.  A
result of `MAX_LINE_LENGTH` bytes or more is one that ran over the end of the buffer.
-/

namespace SecureZ
namespace Shell

open CLib

/-- `getenv`: the value of a variable that is set. -/
abbrev Environment := Bytes → Option CString

section Names

/-- `isalnum(c) || c == '_'`. -/
def isNameByte (b : UInt8) : Bool :=
  isDigit b || (byte 'A' ≤ b && b ≤ byte 'Z') || (byte 'a' ≤ b && b ≤ byte 'z') ||
    b == byte '_'

/-- The loop that fills `varname`: at most 255 bytes that are `ok`, and the rest. -/
def nameSpan (ok : UInt8 → Bool) (p : Bytes) : Bytes × Bytes :=
  ((p.take 255).takeWhile ok, p.drop ((p.take 255).takeWhile ok).length)

/-- The name of the variable behind a `$`, and the rest of the token. -/
def variableName : Bytes → Bytes × Bytes
  | [] => ([], [])
  | b :: p =>
      if b = byte '\x7b' then
        let (name, rest) := nameSpan (fun c => c != byte '\x7d') p
        (name, if rest.head? = some (byte '\x7d') then rest.tail else rest)
      else if b = byte '?' then (ascii "?", p)
      else nameSpan isNameByte (b :: p)

theorem length_nameSpan_le
    (ok : UInt8 → Bool) (p : Bytes) :
    (nameSpan ok p).2.length ≤ p.length := by
  simp [nameSpan]

/-- What is behind the name is no longer than what is behind the `$`. -/
theorem length_variableName_le
    (p : Bytes) :
    (variableName p).2.length ≤ p.length := by
  cases p with
  | nil =>
      simp [variableName]
  | cons b p =>
      simp only [variableName]
      have hspan := length_nameSpan_le (fun c => c != byte '\x7d') p
      split_ifs
      · simp only [List.length_tail, List.length_cons]
        omega
      · simp only [List.length_cons]
        omega
      · simp
      · exact length_nameSpan_le isNameByte (b :: p)

end Names

section Loop

/-- The value of a `size_t` as an `int`. -/
def intOfSize (n : Nat) : Int :=
  (n : Int).bmod (2 ^ 32)

/-- `ri + (int)vlen < MAX_LINE_LENGTH - 1`; the sum is an `int` too, and wraps. -/
def fitsCheck (ri vlen : Nat) : Bool :=
  ((ri : Int) + intOfSize vlen).bmod (2 ^ 32) < (maxLineLength : Int) - 1

/-- The copy of the value of a variable behind the result so far. -/
def putValue (env : Environment) (result name : Bytes) : Bytes :=
  match env name with
  | none => result
  | some value =>
      if fitsCheck result.length value.strlen then result ++ value.bytes
      else result

/-- The copy of the value of `HOME` for a leading `~`. -/
def putHome (env : Environment) : Bytes :=
  match env (ascii "HOME") with
  | none => []
  | some home => home.bytes

/-- The loop of `expand_variables`; `fuel` bounds its rounds. -/
def expandLoop (env : Environment) : Nat → Bytes → Bytes → Bytes
  | 0, result, _ => result
  | _ + 1, result, [] => result
  | fuel + 1, result, b :: p =>
      if result.length < maxLineLength - 1 then
        if b = byte '$' then
          expandLoop env fuel (putValue env result (variableName p).1) (variableName p).2
        else if b = byte '~' ∧ result = [] then
          expandLoop env fuel (putHome env) p
        else expandLoop env fuel (result ++ [b]) p
      else result

/-- `expand_variables`. -/
def expandVariables (env : Environment) (token : Bytes) : Bytes :=
  if byte '$' ∈ token then expandLoop env token.length [] token else token

end Loop

section Lemmas

/-- While the sum is an `int`, the check compares the lengths. -/
theorem fitsCheck_iff
    {ri vlen : Nat}
    (h : ri + vlen < 2 ^ 31) :
    fitsCheck ri vlen = true ↔ ri + vlen < maxLineLength - 1 := by
  have hlen : intOfSize vlen = vlen := Int.bmod_eq_of_le (by omega) (by omega)
  have hsum : ((ri : Int) + vlen).bmod (2 ^ 32) = (ri : Int) + vlen :=
    Int.bmod_eq_of_le (by omega) (by omega)
  rw [fitsCheck, hlen, hsum, decide_eq_true_eq]
  simp only [maxLineLength]
  omega

/-- Rounds beyond the length of the token change nothing. -/
theorem expandLoop_congr
    {env : Environment} {fuel fuel' : Nat} {p : Bytes}
    (h : p.length ≤ fuel)
    (h' : p.length ≤ fuel')
    (result : Bytes) :
    expandLoop env fuel result p = expandLoop env fuel' result p := by
  induction fuel generalizing fuel' result p with
  | zero =>
      obtain rfl : p = [] := List.length_eq_zero_iff.mp (by omega)
      cases fuel' <;> rfl
  | succ fuel ih =>
      cases p with
      | nil =>
          cases fuel' <;> rfl
      | cons b p =>
          cases fuel' with
          | zero =>
              simp at h'
          | succ fuel' =>
              have hname := length_variableName_le p
              simp only [List.length_cons] at h h'
              have hrest :
                  ∀ r, expandLoop env fuel r p = expandLoop env fuel' r p :=
                fun r => ih (by omega) (by omega) r
              have hname :
                  ∀ r, expandLoop env fuel r (variableName p).2 =
                    expandLoop env fuel' r (variableName p).2 :=
                fun r => ih (by omega) (by omega) r
              simp only [expandLoop, hrest, hname]

/-- A token without a `$` stands for itself. -/
theorem expandVariables_of_not_mem
    {token : Bytes}
    (h : byte '$' ∉ token)
    (env : Environment) :
    expandVariables env token = token := by
  simp [expandVariables, h]

theorem dollar_not_mem_putValue
    {env : Environment} {result : Bytes}
    (henv : ∀ name, ∀ value ∈ env name, byte '$' ∉ value.bytes)
    (hresult : byte '$' ∉ result)
    (name : Bytes) :
    byte '$' ∉ putValue env result name := by
  unfold putValue
  cases hvalue : env name with
  | none =>
      exact hresult
  | some value =>
      dsimp only
      split_ifs
      · simp [hresult, henv name value hvalue]
      · exact hresult

theorem dollar_not_mem_putHome
    {env : Environment}
    (henv : ∀ name, ∀ value ∈ env name, byte '$' ∉ value.bytes) :
    byte '$' ∉ putHome env := by
  unfold putHome
  cases hvalue : env (ascii "HOME") with
  | none => simp
  | some home => exact henv _ home hvalue

/-- The loop copies no `$` when no value holds one. -/
theorem dollar_not_mem_expandLoop
    {env : Environment}
    (henv : ∀ name, ∀ value ∈ env name, byte '$' ∉ value.bytes)
    {result : Bytes}
    (hresult : byte '$' ∉ result)
    (fuel : Nat) (p : Bytes) :
    byte '$' ∉ expandLoop env fuel result p := by
  induction fuel generalizing result p with
  | zero =>
      exact hresult
  | succ fuel ih =>
      cases p with
      | nil =>
          exact hresult
      | cons b p =>
          simp only [expandLoop]
          split_ifs with hlen hb htilde
          · exact ih (dollar_not_mem_putValue henv hresult _) _
          · exact ih (dollar_not_mem_putHome henv) p
          · refine ih ?_ p
            simp [hresult, Ne.symm hb]
          · exact hresult

/-- A token that keeps its `$` is not what it expands to when no value holds one. -/
theorem expandVariables_ne_of_mem
    {env : Environment} {token : Bytes}
    (henv : ∀ name, ∀ value ∈ env name, byte '$' ∉ value.bytes)
    (h : byte '$' ∈ token) :
    expandVariables env token ≠ token := by
  intro heq
  rw [expandVariables, if_pos h] at heq
  have hno := dollar_not_mem_expandLoop henv (by simp : byte '$' ∉ []) token.length token
  rw [heq] at hno
  exact hno h

end Lemmas

end Shell
end SecureZ
