import SecureZ.Lib.CText

/-!
# Decimal numbers in C texts

What `%d` writes for a number that is not negative, `atoi` reads back, whatever byte that
is no digit follows.  The output has digits only, and its length is bounded by the size of
the number.
-/

namespace CLib

section Decimal

/-- The output of `%d` for a number that is not negative. -/
def decimal (n : Nat) : Bytes :=
  ascii (toString n)

theorem decimal_eq
    (n : Nat) :
    decimal n = (Nat.toDigits 10 n).map fun c => UInt8.ofNat c.toNat := by
  rw [decimal, ascii, Nat.toString_eq_repr, Nat.toList_repr]

/-- A digit as a character and as a byte. -/
theorem digit_toNat
    {c : Char}
    (h : c.isDigit = true) :
    (UInt8.ofNat c.toNat).toNat = c.toNat ∧ 48 ≤ c.toNat ∧ c.toNat ≤ 57 := by
  rw [Char.isDigit, Bool.and_eq_true, decide_eq_true_eq, decide_eq_true_eq] at h
  have hlow : 48 ≤ c.toNat := h.1
  have hhigh : c.toNat ≤ 57 := h.2
  refine ⟨?_, hlow, hhigh⟩
  rw [UInt8.toNat_ofNat']
  omega

theorem isDigit_of_mem_toDigits
    {n : Nat} {c : Char}
    (h : c ∈ Nat.toDigits 10 n) :
    c.isDigit = true :=
  Nat.isDigit_of_mem_toDigits (by decide) (by decide) h

/-- There are only digits in a decimal number. -/
theorem isDigit_of_mem_decimal
    {n : Nat} {b : UInt8}
    (h : b ∈ decimal n) :
    isDigit b = true := by
  rw [decimal_eq, List.mem_map] at h
  obtain ⟨c, hc, rfl⟩ := h
  obtain ⟨heq, hlow, hhigh⟩ := digit_toNat (isDigit_of_mem_toDigits hc)
  simp only [isDigit, Bool.and_eq_true, decide_eq_true_eq, UInt8.le_iff_toNat_le, heq]
  exact ⟨hlow, hhigh⟩

/-- A byte that is no digit is not in a decimal number. -/
theorem not_mem_decimal
    {b : UInt8}
    (h : isDigit b = false)
    (n : Nat) :
    b ∉ decimal n := by
  intro hb
  rw [isDigit_of_mem_decimal hb] at h
  cases h

/-- A quoted needle is not found in a decimal number. -/
theorem skips_decimal
    {needle : Bytes}
    (h : needle.head? = some 34)
    (n : Nat) :
    skips needle (decimal n) = true := by
  cases needle with
  | nil =>
      cases h
  | cons q needle =>
      obtain rfl := Option.some.inj h
      exact skips_of_head_not_mem (not_mem_decimal (by decide) n)

theorem length_decimal_le
    {n k : Nat}
    (hk : 0 < k)
    (h : n < 10 ^ k) :
    (decimal n).length ≤ k := by
  rw [decimal_eq, List.length_map]
  exact (Nat.length_toDigits_le_iff (by decide) hk).mpr h

/-- Reading digits as bytes is reading them as characters. -/
theorem digitsValue_map
    {cs : List Char}
    (h : ∀ c ∈ cs, c.isDigit = true) :
    digitsValue (cs.map fun c => UInt8.ofNat c.toNat) = Nat.ofDigitChars 10 cs 0 := by
  unfold digitsValue
  generalize (0 : Nat) = start
  induction cs generalizing start with
  | nil =>
      rfl
  | cons c cs ih =>
      rw [List.forall_mem_cons] at h
      obtain ⟨heq, -, -⟩ := digit_toNat h.1
      rw [List.map_cons, List.foldl_cons, ih h.2, Nat.ofDigitChars_cons, heq, Nat.mul_comm]
      rfl

/-- The digits of a number have its value. -/
theorem digitsValue_decimal
    (n : Nat) :
    digitsValue (decimal n) = n := by
  rw [decimal_eq, digitsValue_map fun c hc => isDigit_of_mem_toDigits hc,
    Nat.ofDigitChars_ten_toDigits]

/-- A digit is neither a space nor a sign. -/
theorem digit_plain
    {b : UInt8}
    (h : isDigit b = true) :
    isSpace b = false ∧ b ≠ 45 ∧ b ≠ 43 := by
  simp only [isDigit, Bool.and_eq_true, decide_eq_true_eq, UInt8.le_iff_toNat_le] at h
  have hlow : 48 ≤ b.toNat := h.1
  refine ⟨?_, ?_, ?_⟩
  · simp only [isSpace, Bool.or_eq_false_iff, Bool.and_eq_false_iff, beq_eq_false_iff_ne, ne_eq,
      decide_eq_false_iff_not, UInt8.le_iff_toNat_le, ← UInt8.toNat_inj, UInt8.reduceToNat]
    omega
  · rintro rfl
    exact absurd hlow (by decide)
  · rintro rfl
    exact absurd hlow (by decide)

/-- `strtol` reads digits with a value that fits. -/
theorem strtol10_digits
    {ds : Bytes}
    (hne : ds ≠ [])
    (hds : ∀ b ∈ ds, isDigit b = true)
    (h : digitsValue ds < 2 ^ 63) :
    strtol10 ds = digitsValue ds := by
  have hdigits : leadingDigits ds = ds := List.takeWhile_eq_self_iff.mpr hds
  cases ds with
  | nil =>
      exact absurd rfl hne
  | cons b bs =>
      obtain ⟨hspace, hminus, hplus⟩ := digit_plain (hds b List.mem_cons_self)
      unfold strtol10
      rw [List.dropWhile_cons_of_neg (by simp [hspace])]
      dsimp only
      rw [if_neg hminus, if_neg hplus, hdigits]
      omega

/-- `strtol` reads digits behind a minus sign. -/
theorem strtol10_minus
    {ds : Bytes}
    (hds : ∀ b ∈ ds, isDigit b = true)
    (h : digitsValue ds ≤ 2 ^ 63) :
    strtol10 (45 :: ds) = -(digitsValue ds : Int) := by
  have hdigits : leadingDigits ds = ds := List.takeWhile_eq_self_iff.mpr hds
  unfold strtol10
  rw [List.dropWhile_cons_of_neg (by decide)]
  dsimp only
  rw [if_pos rfl, hdigits]
  omega

theorem decimal_ne_nil
    (n : Nat) :
    decimal n ≠ [] := by
  rw [decimal_eq, ne_eq, List.map_eq_nil_iff]
  exact Nat.toDigits_ne_nil

/-- `strtol` reads back a number that fits. -/
theorem strtol10_decimal
    {n : Nat}
    (h : n < 2 ^ 63) :
    strtol10 (decimal n) = n := by
  have hvalue := digitsValue_decimal n
  rw [strtol10_digits (decimal_ne_nil n) (fun _ hb => isDigit_of_mem_decimal hb) (by omega),
    hvalue]

/-- `atoi` reads back a number that fits, up to a byte that is no digit. -/
theorem atoi_decimal
    {n : Nat} {b : UInt8}
    (h : n < 2 ^ 31)
    (hb : endsNumber b = true)
    (rest : Bytes) :
    atoi (decimal n ++ b :: rest) = n := by
  rw [atoi_append hb, atoi, strtol10_decimal (by omega)]
  exact Int.bmod_eq_of_le (by omega) (by omega)

end Decimal

end CLib
