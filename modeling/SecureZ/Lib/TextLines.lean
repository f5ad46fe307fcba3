import SecureZ.Lib.CText

/-!
# Texts read line by line and word by word

A loop over `fgets` sees the lines of its file, long ones in pieces.  A text that ends with
a newline is read separately from what follows it, so a file that was written line by line
is read as the lines of its parts.

`sscanf` with `%ns` takes a word: it skips white space and stops in front of the next one.
-/

namespace CLib

section Lines

/-- The lines that a loop over `fgets` reads in at most `n` turns. -/
def fgetsLines (size : Nat) : Nat → Bytes → List Bytes
  | 0, _ => []
  | n + 1, input =>
      match fgets size input with
      | none => []
      | some (line, rest) => line :: fgetsLines size n rest

/-- The lines of a file, as a buffer of `size` bytes takes them. -/
def linesOf (size : Nat) (input : Bytes) : List Bytes :=
  fgetsLines size input.length input

variable {size : Nat}

/-- `fgets` takes a beginning of its input apart, and not an empty one. -/
theorem fgets_eq_some
    (hsize : 1 < size)
    {input line rest : Bytes}
    (h : fgets size input = some (line, rest)) :
    line ++ rest = input ∧ line ≠ [] := by
  obtain ⟨n, rfl⟩ : ∃ n, size = n + 2 := ⟨size - 2, by omega⟩
  cases input with
  | nil =>
      simp [fgets] at h
  | cons b bs =>
      simp only [fgets, Option.some.injEq, Prod.mk.injEq] at h
      obtain ⟨rfl, rfl⟩ := h
      refine ⟨List.prefix_iff_eq_append.mp (fgetsLine_prefix_input _ _), ?_⟩
      simp only [Nat.add_one_sub_one, fgetsLine]
      split_ifs <;> simp

/-- As many turns as the input has bytes are enough. -/
theorem fgetsLines_eq
    (hsize : 1 < size)
    {n m : Nat} {input : Bytes}
    (hn : input.length ≤ n)
    (hm : input.length ≤ m) :
    fgetsLines size n input = fgetsLines size m input := by
  induction n generalizing m input with
  | zero =>
      obtain rfl := List.eq_nil_of_length_eq_zero (Nat.le_zero.mp hn)
      cases m <;> rfl
  | succ n ih =>
      cases m with
      | zero =>
          obtain rfl := List.eq_nil_of_length_eq_zero (Nat.le_zero.mp hm)
          rfl
      | succ m =>
          rw [fgetsLines, fgetsLines]
          cases hread : fgets size input with
          | none =>
              rfl
          | some r =>
              obtain ⟨line, rest⟩ := r
              obtain ⟨hsplit, hne⟩ := fgets_eq_some hsize hread
              have hlen := congrArg List.length hsplit
              have hpos := List.length_pos_iff.mpr hne
              rw [List.length_append] at hlen
              dsimp only
              rw [@ih m rest (by omega) (by omega)]

@[simp] theorem linesOf_nil :
    linesOf size [] = [] := by
  rfl

/-- The lines of a file are the one that `fgets` reads and those of the rest. -/
theorem linesOf_of_fgets
    (hsize : 1 < size)
    {input line rest : Bytes}
    (h : fgets size input = some (line, rest)) :
    linesOf size input = line :: linesOf size rest := by
  obtain ⟨hsplit, hne⟩ := fgets_eq_some hsize h
  have hlen := congrArg List.length hsplit
  have hpos := List.length_pos_iff.mpr hne
  rw [List.length_append] at hlen
  obtain ⟨n, hn⟩ : ∃ n, input.length = n + 1 := ⟨input.length - 1, by omega⟩
  rw [linesOf, hn, fgetsLines, h]
  dsimp only
  rw [linesOf, fgetsLines_eq hsize (by omega) (le_refl rest.length)]

/-- Up to a newline, what follows a text has no part in what is read of it. -/
theorem fgetsLine_append_of_mem
    {n : Nat} {text : Bytes}
    (hnl : (10 : UInt8) ∈ text)
    (rest : Bytes) :
    fgetsLine n (text ++ rest) = fgetsLine n text := by
  induction text generalizing n with
  | nil =>
      simp at hnl
  | cons b bs ih =>
      cases n with
      | zero =>
          rfl
      | succ n =>
          by_cases hb : b = 10
          · simp [fgetsLine, hb]
          · have hbs : (10 : UInt8) ∈ bs := by
              rcases List.mem_cons.mp hnl with h | h
              · exact absurd h.symm hb
              · exact h
            simp [fgetsLine, hb, ih hbs]

theorem fgets_append_of_mem
    {text line left : Bytes}
    (hnl : (10 : UInt8) ∈ text)
    (h : fgets size text = some (line, left))
    (rest : Bytes) :
    fgets size (text ++ rest) = some (line, left ++ rest) := by
  cases text with
  | nil =>
      simp at hnl
  | cons b bs =>
      have hread := @fgetsLine_append_of_mem (size - 1) (b :: bs) hnl rest
      have hle := (fgetsLine_prefix_input (size - 1) (b :: bs)).length_le
      simp only [fgets, Option.some.injEq, Prod.mk.injEq] at h
      obtain ⟨rfl, rfl⟩ := h
      rw [List.cons_append] at hread ⊢
      simp only [fgets, hread, Option.some.injEq, Prod.mk.injEq, true_and]
      rw [← List.cons_append, List.drop_append_of_le_length hle]

/-- A text that ends with a newline is read separately from what follows it. -/
theorem linesOf_append
    (hsize : 1 < size)
    {text : Bytes}
    (hend : text = [] ∨ text.getLast? = some 10)
    (rest : Bytes) :
    linesOf size (text ++ rest) = linesOf size text ++ linesOf size rest := by
  induction hn : text.length using Nat.strongRecOn generalizing text with
  | ind n ih =>
      rcases hend with rfl | hlast
      · simp
      have hnl : (10 : UInt8) ∈ text := List.mem_of_getLast? hlast
      cases hread : fgets size text with
      | none =>
          cases text with
          | nil => simp at hnl
          | cons b bs => simp [fgets] at hread
      | some r =>
          obtain ⟨line, left⟩ := r
          obtain ⟨rfl, hne⟩ := fgets_eq_some hsize hread
          have hpos := List.length_pos_iff.mpr hne
          have hleft : left = [] ∨ left.getLast? = some 10 := by
            cases left with
            | nil => exact Or.inl rfl
            | cons c cs =>
                rw [List.getLast?_append_of_ne_nil _ (List.cons_ne_nil c cs)] at hlast
                exact Or.inr hlast
          rw [List.length_append] at hn
          rw [linesOf_of_fgets hsize (fgets_append_of_mem hnl hread rest),
            linesOf_of_fgets hsize hread, ih left.length (by omega) hleft rfl, List.cons_append]

end Lines

section Typed

/-- The line that a text begins with, up to its newline. -/
def typedLine (input : Bytes) : Bytes :=
  input.takeWhile (· ≠ 10)

/-- What comes behind that line. -/
def behindLine (input : Bytes) : Bytes :=
  (input.dropWhile (· ≠ 10)).drop 1

/-- The newline of a line comes right behind it, unless the text ends there. -/
theorem typedLine_split
    (input : Bytes) :
    (10 : UInt8) ∉ typedLine input ∧
      ((input = typedLine input ∧ behindLine input = []) ∨
        input = typedLine input ++ 10 :: behindLine input) := by
  constructor
  · intro hmem
    simpa using List.mem_takeWhile_imp hmem
  have hsplit : typedLine input ++ input.dropWhile (· ≠ 10) = input :=
    List.takeWhile_append_dropWhile
  cases hdrop : input.dropWhile (· ≠ 10) with
  | nil =>
      rw [hdrop, List.append_nil] at hsplit
      exact Or.inl ⟨hsplit.symm, by rw [behindLine, hdrop]; rfl⟩
  | cons b bs =>
      have hb : b = 10 := by
        have hnot := List.head?_dropWhile_not (fun b : UInt8 => decide (b ≠ 10)) input
        rw [hdrop] at hnot
        simpa using hnot
      rw [hdrop, hb] at hsplit
      refine Or.inr ?_
      rw [behindLine, hdrop]
      exact hsplit.symm

theorem stripNewline_cons
    {b : UInt8}
    (hb : b ≠ 10)
    (s : Bytes) :
    stripNewline (b :: s) = b :: stripNewline s := by
  cases s with
  | nil => simp [stripNewline, hb]
  | cons c cs =>
      simp only [stripNewline, List.getLast?_cons_cons, List.dropLast_cons_cons]
      split_ifs <;> rfl

/-- Without its newline, what is read is the line, as far as there is room for it. -/
theorem stripNewline_cstr_fgetsLine
    (n : Nat) (input : Bytes) :
    stripNewline (cstr (fgetsLine n input)).bytes = (cstr ((typedLine input).take n)).bytes := by
  induction input generalizing n with
  | nil =>
      cases n <;> rfl
  | cons b bs ih =>
      cases n with
      | zero =>
          rfl
      | succ n =>
          by_cases hnl : b = 10
          · subst hnl
            simp [fgetsLine, typedLine, cstr, stripNewline]
          · have htyped : typedLine (b :: bs) = b :: typedLine bs :=
              List.takeWhile_cons_of_pos (by simpa using hnl)
            have hrest := ih n
            rw [htyped, List.take_succ_cons, fgetsLine, if_neg hnl]
            by_cases hnul : b = 0
            · subst hnul
              simp [cstr, stripNewline]
            · simp only [cstr] at hrest ⊢
              rw [List.takeWhile_cons_of_pos (by simpa using hnul),
                List.takeWhile_cons_of_pos (by simpa using hnul), stripNewline_cons hnl, hrest]

/-- A prompt reads as much of the line as its buffer has room for. -/
theorem fgetsText_typed
    (size : Nat) (input : Bytes) :
    (fgetsText size input).map Prod.fst =
      if input = [] then none else some (cstr ((typedLine input).take (size - 1))) := by
  cases input with
  | nil =>
      rfl
  | cons b bs =>
      have htext := stripNewline_cstr_fgetsLine (size - 1) (b :: bs)
      simp only [fgetsText, fgets, Option.map_some, htext, cstr_bytes, reduceCtorEq, if_false]

/-- A line for which there is room, with its newline, is read whole. -/
theorem fgetsText_typed_fits
    {size : Nat} {input : Bytes}
    (hne : input ≠ [])
    (hlen : (typedLine input).length + 1 < size) :
    fgetsText size input = some (cstr (typedLine input), behindLine input) := by
  have hgot : ∃ got, fgets size input = some (got, behindLine input) := by
    obtain ⟨hnl, ⟨hall, hbehind⟩ | hsplit⟩ := typedLine_split input
    · have hline : fgetsLine (size - 1) (input ++ []) = input := by
        rw [List.append_nil, hall]
        exact fgetsLine_of_short hnl (by omega)
      have hread := fgets_of_line hne hline
      rw [List.append_nil] at hread
      exact ⟨input, by rw [hread, hbehind]⟩
    · have hline :
          fgetsLine (size - 1) (typedLine input ++ [10] ++ behindLine input) =
            typedLine input ++ [10] := by
        rw [List.append_assoc]
        exact fgetsLine_of_fits hnl (by omega)
      have hread := fgets_of_line (by simp) hline
      rw [List.append_assoc, List.singleton_append, ← hsplit] at hread
      exact ⟨_, hread⟩
  obtain ⟨got, hgot⟩ := hgot
  have hfst := fgetsText_typed size input
  rw [if_neg hne, List.take_of_length_le (by omega), fgetsText, hgot] at hfst
  rw [fgetsText, hgot, Option.map_some, Option.some.injEq, Prod.mk.injEq]
  exact ⟨Option.some.inj hfst, rfl⟩

/-- Of a longer line the buffer takes the beginning, and the next read goes on in it. -/
theorem fgetsText_typed_long
    {size : Nat} {input : Bytes}
    (hsize : 1 < size)
    (hlen : size ≤ (typedLine input).length + 1) :
    fgetsText size input =
      some (cstr ((typedLine input).take (size - 1)), input.drop (size - 1)) := by
  have hcut : ((typedLine input).take (size - 1)).length = size - 1 := by
    rw [List.length_take]
    omega
  have hparts : (typedLine input).take (size - 1) ++ input.drop (size - 1) = input := by
    have htake : (typedLine input).take (size - 1) = input.take (size - 1) := by
      obtain ⟨rest, hrest⟩ : typedLine input <+: input := List.takeWhile_prefix _
      conv_rhs => rw [← hrest, List.take_append_of_le_length (by omega)]
    rw [htake, List.take_append_drop]
  have hfree : (10 : UInt8) ∉ (typedLine input).take (size - 1) :=
    fun h => (typedLine_split input).1 (List.mem_of_mem_take h)
  have hne : (typedLine input).take (size - 1) ≠ [] := by
    intro hnil
    rw [hnil, List.length_nil] at hcut
    omega
  have hline :
      fgetsLine (size - 1) ((typedLine input).take (size - 1) ++ input.drop (size - 1)) =
        (typedLine input).take (size - 1) := by
    have hfull := @fgetsLine_of_full _ (input.drop (size - 1)) hfree
    rwa [hcut] at hfull
  have hread := fgets_of_line hne hline
  rw [hparts] at hread
  have hfst := fgetsText_typed size input
  have hinput : input ≠ [] := by
    rintro rfl
    simp [typedLine] at hne
  rw [if_neg hinput, fgetsText, hread] at hfst
  rw [fgetsText, hread, Option.map_some, Option.some.injEq, Prod.mk.injEq]
  exact ⟨Option.some.inj hfst, rfl⟩

/-- What is left of a line of which a part was read. -/
theorem typedLine_drop
    {n : Nat} {input : Bytes}
    (hn : n ≤ (typedLine input).length) :
    typedLine (input.drop n) = (typedLine input).drop n := by
  induction input generalizing n with
  | nil =>
      simp [typedLine]
  | cons b bs ih =>
      cases n with
      | zero =>
          rfl
      | succ n =>
          by_cases hnl : b = 10
          · simp [typedLine, hnl] at hn
          · have htyped : typedLine (b :: bs) = b :: typedLine bs :=
              List.takeWhile_cons_of_pos (by simpa using hnl)
            rw [htyped, List.length_cons] at hn
            rw [htyped, List.drop_succ_cons, List.drop_succ_cons, ih (by omega)]

/-- The text in front of the first NUL of a line that is cut. -/
theorem strlen_cstr_take
    (n : Nat) (s : Bytes) :
    (cstr (s.take n)).strlen = min n (cstr s).strlen := by
  induction s generalizing n with
  | nil =>
      simp [cstr, CString.strlen]
  | cons b bs ih =>
      cases n with
      | zero =>
          simp [cstr, CString.strlen]
      | succ n =>
          by_cases hnul : b = 0
          · simp [cstr, CString.strlen, hnul]
          · have hrest := ih n
            simp only [cstr, CString.strlen] at hrest ⊢
            rw [List.take_succ_cons, List.takeWhile_cons_of_pos (by simpa using hnul),
              List.takeWhile_cons_of_pos (by simpa using hnul), List.length_cons,
              List.length_cons, hrest]
            omega

end Typed

section Words

/-- The next word of a text, cut to `n` bytes, and the text behind what was taken: a
conversion `%ns` of `sscanf`.  It fails when there is no word. -/
def scanWord (n : Nat) (s : Bytes) : Option (Bytes × Bytes) :=
  let text := s.dropWhile isSpace
  let word := (text.takeWhile fun b => !isSpace b).take n
  if word = [] then none else some (word, text.drop word.length)

/-- There is no white space in a text. -/
def IsWord (s : Bytes) : Prop :=
  ∀ b ∈ s, isSpace b = false

instance (s : Bytes) : Decidable (IsWord s) :=
  inferInstanceAs (Decidable (∀ b ∈ s, isSpace b = false))

/-- A newline is white space. -/
theorem IsWord.newline_not_mem
    {s : Bytes}
    (h : IsWord s) :
    (10 : UInt8) ∉ s :=
  fun hmem => absurd (h 10 hmem) (by decide)

/-- What is taken is a word. -/
theorem isWord_of_scanWord
    {n : Nat} {s word rest : Bytes}
    (h : scanWord n s = some (word, rest)) :
    IsWord word := by
  simp only [scanWord] at h
  split_ifs at h
  obtain ⟨rfl, -⟩ := Prod.mk.inj (Option.some.inj h)
  intro b hb
  simpa using List.mem_takeWhile_imp (List.mem_of_mem_take hb)

/-- White space in front of a word is skipped. -/
theorem scanWord_space
    {b : UInt8}
    (hb : isSpace b = true)
    (n : Nat) (s : Bytes) :
    scanWord n (b :: s) = scanWord n s := by
  simp only [scanWord, List.dropWhile_cons_of_pos hb]

/-- A word that is not too long is taken whole, up to the white space behind it. -/
theorem scanWord_word
    {n : Nat} {word rest : Bytes} {b : UInt8}
    (hword : IsWord word)
    (hne : word ≠ [])
    (hlen : word.length ≤ n)
    (hb : isSpace b = true) :
    scanWord n (word ++ b :: rest) = some (word, b :: rest) := by
  have hskip : (word ++ b :: rest).dropWhile isSpace = word ++ b :: rest := by
    obtain ⟨c, cs, rfl⟩ := List.exists_cons_of_ne_nil hne
    exact List.dropWhile_cons_of_neg (by simp [hword c List.mem_cons_self])
  have htake : (word ++ b :: rest).takeWhile (fun c => !isSpace c) = word := by
    rw [List.takeWhile_append_of_pos fun c hc => by simp [hword c hc],
      List.takeWhile_cons_of_neg (by simp [hb]), List.append_nil]
  simp only [scanWord, hskip, htake, List.take_of_length_le hlen, hne, if_false,
    List.drop_left]

end Words

end CLib
