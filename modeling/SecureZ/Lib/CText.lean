import SecureZ.Lib.Bytes
import Mathlib.Data.List.Infix
import Mathlib.Tactic.SplitIfs

/-!
# The C string functions

List models of the functions of `<string.h>`, `<stdlib.h>` and `<stdio.h>` that
look for a text inside another, read a number or bound the length of an output.

A pointer into a string is the suffix that starts there, so `strchr` and `strstr`
return suffixes.  `strstr` finds the first occurrence; the lemmas below say which
texts it skips, which is what the correctness of a substring-based parser rests on.
-/

namespace CLib

section Strchr

/-- `strchr`: the suffix that starts at the first `c`. -/
def strchr (s : Bytes) (c : UInt8) : Option Bytes :=
  if c ∈ s then some (s.dropWhile (fun b => b != c)) else none

/-- The text before the first `c`. -/
def before (c : UInt8) (s : Bytes) : Bytes :=
  s.takeWhile (fun b => b != c)

theorem strchr_eq_none_iff
    {s : Bytes} {c : UInt8} :
    strchr s c = none ↔ c ∉ s := by
  unfold strchr
  split_ifs with h <;> simp [h]

/-- The bytes between a string and its first `c` are the text before it. -/
theorem take_strchr
    {s rest : Bytes} {c : UInt8}
    (h : strchr s c = some rest) :
    s.take (s.length - rest.length) = before c s := by
  unfold strchr at h
  split_ifs at h with hc
  obtain rfl := Option.some.inj h
  have hsplit :
      before c s ++ s.dropWhile (fun b => b != c) = s :=
    List.takeWhile_append_dropWhile
  have hlen :
      s.length - (s.dropWhile (fun b => b != c)).length =
        (before c s).length := by
    have := congrArg List.length hsplit
    rw [List.length_append] at this
    omega
  rw [hlen]
  exact (List.prefix_iff_eq_take.mp (List.takeWhile_prefix _)).symm

theorem not_mem_before
    (c : UInt8) (s : Bytes) :
    c ∉ before c s := by
  intro h
  have := List.mem_takeWhile_imp h
  simp at this

/-- Up to a delimiter that the text does not contain, nothing is cut. -/
theorem before_append_of_not_mem
    {c : UInt8} {s rest : Bytes}
    (h : c ∉ s) :
    before c (s ++ c :: rest) = s := by
  unfold before
  rw [List.takeWhile_append_of_pos]
  · simp
  · intro b hb
    have hne : b ≠ c := fun h0 => h (h0 ▸ hb)
    simpa using hne

/-- The text up to a delimiter is cut out whole when the delimiter is not cut off. -/
theorem before_take_iff
    {c : UInt8} {s rest : Bytes} {k : Nat} :
    c ∈ (s ++ c :: rest).take k ∧ before c ((s ++ c :: rest).take k) = s
      ↔
    c ∉ s ∧ s.length + 1 ≤ k := by
  constructor
  · rintro ⟨hmem, hbefore⟩
    have hfree : c ∉ s := hbefore ▸ not_mem_before c _
    refine ⟨hfree, ?_⟩
    by_contra hshort
    rw [List.take_append_of_le_length (by omega)] at hmem
    exact hfree (List.mem_of_mem_take hmem)
  · rintro ⟨hfree, hlong⟩
    obtain ⟨m, rfl⟩ : ∃ m, k = s.length + (m + 1) := ⟨k - s.length - 1, by omega⟩
    rw [List.take_length_add_append, List.take_succ_cons]
    exact ⟨by simp, before_append_of_not_mem hfree⟩

end Strchr

section Strstr

/-- `strstr`: the suffix that starts at the first occurrence of `needle`. -/
def strstr (needle : Bytes) : Bytes → Option Bytes
  | [] => if needle.isPrefixOf [] then some [] else none
  | b :: bs =>
      if needle.isPrefixOf (b :: bs) then some (b :: bs)
      else strstr needle bs

theorem strstr_of_prefix
    {needle s : Bytes}
    (h : needle <+: s) :
    strstr needle s = some s := by
  have hb : needle.isPrefixOf s = true := List.isPrefixOf_iff_prefix.mpr h
  cases s with
  | nil => simp [strstr, hb]
  | cons b bs => simp [strstr, hb]

/-- Two texts disagree somewhere below the length of the shorter one. -/
def clash (needle s : Bytes) : Bool :=
  !needle.isPrefixOf s && !s.isPrefixOf needle

/-- No occurrence of `needle` starts inside `pre`, whatever follows `pre`. -/
def skips (needle : Bytes) : Bytes → Bool
  | [] => true
  | b :: bs => clash needle (b :: bs) && skips needle bs

theorem not_prefix_append_of_clash
    {needle s : Bytes}
    (h : clash needle s = true)
    (rest : Bytes) :
    ¬ needle <+: s ++ rest := by
  simp only [clash, Bool.and_eq_true, Bool.not_eq_true', Bool.eq_false_iff,
    ne_eq, List.isPrefixOf_iff_prefix] at h
  intro hp
  rcases le_total needle.length s.length with hle | hle
  · exact h.1 (List.prefix_of_prefix_length_le hp (List.prefix_append s rest) hle)
  · exact h.2 (List.prefix_of_prefix_length_le (List.prefix_append s rest) hp hle)

/-- `strstr` passes over a text in which no occurrence can start. -/
theorem strstr_append_of_skips
    {needle pre : Bytes}
    (h : skips needle pre = true)
    (rest : Bytes) :
    strstr needle (pre ++ rest) = strstr needle rest := by
  induction pre with
  | nil =>
      rfl
  | cons b bs ih =>
      simp only [skips, Bool.and_eq_true] at h
      have hno : needle.isPrefixOf (b :: bs ++ rest) = false := by
        rw [Bool.eq_false_iff, ne_eq, List.isPrefixOf_iff_prefix]
        exact not_prefix_append_of_clash h.1 rest
      rw [List.cons_append] at hno ⊢
      simp only [strstr, hno, Bool.false_eq_true, if_false]
      exact ih h.2

/-- Behind a text in which no occurrence can start, `strstr` finds the needle. -/
theorem strstr_append_needle
    {needle pre : Bytes}
    (h : skips needle pre = true)
    (rest : Bytes) :
    strstr needle (pre ++ (needle ++ rest)) = some (needle ++ rest) := by
  rw [strstr_append_of_skips h, strstr_of_prefix (List.prefix_append _ _)]

/-- A needle is not found at a position that its first byte excludes. -/
theorem skips_of_head_not_mem
    {q : UInt8} {needle pre : Bytes}
    (h : q ∉ pre) :
    skips (q :: needle) pre = true := by
  induction pre with
  | nil =>
      rfl
  | cons b bs ih =>
      simp only [List.mem_cons, not_or] at h
      have hq : (q == b) = false := by simpa using h.1
      have hb : (b == q) = false := by simpa using Ne.symm h.1
      simp [skips, clash, List.isPrefixOf, hq, hb, ih h.2]

theorem clash_append
    {needle s : Bytes}
    (h : clash needle s = true)
    (rest : Bytes) :
    clash needle (s ++ rest) = true := by
  have hno := not_prefix_append_of_clash h rest
  simp only [clash, Bool.and_eq_true, Bool.not_eq_true', Bool.eq_false_iff,
    ne_eq, List.isPrefixOf_iff_prefix] at h ⊢
  exact ⟨hno, fun hp => h.2 ((List.prefix_append s rest).trans hp)⟩

theorem skips_append
    {needle x y : Bytes}
    (hx : skips needle x = true)
    (hy : skips needle y = true) :
    skips needle (x ++ y) = true := by
  induction x with
  | nil =>
      exact hy
  | cons b bs ih =>
      simp only [skips, Bool.and_eq_true] at hx
      simp only [List.cons_append, skips, Bool.and_eq_true]
      exact ⟨clash_append hx.1 y, ih hx.2⟩

theorem clash_drop_of_skips
    {needle pre : Bytes} {k : Nat}
    (h : skips needle pre = true)
    (hk : k < pre.length) :
    clash needle (pre.drop k) = true := by
  induction pre generalizing k with
  | nil =>
      simp at hk
  | cons b bs ih =>
      simp only [skips, Bool.and_eq_true] at h
      cases k with
      | zero => exact h.1
      | succ k => exact ih h.2 (by simpa using hk)

/-- What `strstr` returns is a suffix that starts with the needle. -/
theorem strstr_eq_some
    {needle s t : Bytes}
    (h : strstr needle s = some t) :
    ∃ a, s = a ++ t ∧ needle <+: t := by
  induction s with
  | nil =>
      simp only [strstr] at h
      split_ifs at h with hp
      obtain rfl := Option.some.inj h
      exact ⟨[], rfl, List.isPrefixOf_iff_prefix.mp hp⟩
  | cons b bs ih =>
      simp only [strstr] at h
      split_ifs at h with hp
      · obtain rfl := Option.some.inj h
        exact ⟨[], rfl, List.isPrefixOf_iff_prefix.mp hp⟩
      · obtain ⟨a, rfl, hpre⟩ := ih h
        exact ⟨b :: a, rfl, hpre⟩

/-- The needle is found exactly when it occurs somewhere. -/
theorem isSome_strstr_iff
    {needle s : Bytes} :
    (strstr needle s).isSome = true ↔ needle <:+: s := by
  constructor
  · intro h
    obtain ⟨t, hfind⟩ := Option.isSome_iff_exists.mp h
    obtain ⟨a, rfl, rest, rfl⟩ := strstr_eq_some hfind
    exact ⟨a, rest, by rw [List.append_assoc]⟩
  · rintro ⟨a, rest, rfl⟩
    induction a with
    | nil =>
        rw [List.nil_append, strstr_of_prefix (List.prefix_append needle rest)]
        rfl
    | cons b a ih =>
        simp only [List.cons_append, strstr]
        split_ifs
        · rfl
        · exact ih

/-- What is not found in a text is not found in what is left of it when it is cut off. -/
theorem isSome_strstr_take
    {needle s : Bytes} {n : Nat}
    (h : (strstr needle (s.take n)).isSome = true) :
    (strstr needle s).isSome = true := by
  rw [isSome_strstr_iff] at h ⊢
  exact h.trans (List.take_prefix n s).isInfix

/-- In a text that is cut off inside its first needle, the needle is not found. -/
theorem strstr_take_eq_none
    {needle pre : Bytes} {n : Nat}
    (h : skips needle pre = true)
    (hn : n < pre.length + needle.length)
    (rest : Bytes) :
    strstr needle ((pre ++ (needle ++ rest)).take n) = none := by
  cases hfind : strstr needle ((pre ++ (needle ++ rest)).take n) with
  | none =>
      rfl
  | some t =>
      obtain ⟨a, hsplit, u, rfl⟩ := strstr_eq_some hfind
      have hlen := congrArg List.length hsplit
      simp only [List.length_take, List.length_append] at hlen
      have ha : a.length < pre.length := by omega
      have hall := List.take_append_drop n (pre ++ (needle ++ rest))
      rw [hsplit] at hall
      have hdrop := congrArg (List.drop a.length) hall
      rw [List.append_assoc, List.drop_left,
        List.drop_append_of_le_length ha.le, List.append_assoc] at hdrop
      exact absurd ⟨_, hdrop⟩
        (not_prefix_append_of_clash (clash_drop_of_skips h ha) _)

/-- In a text that is cut off behind its first needle, the needle is found. -/
theorem strstr_take_of_skips
    {needle pre : Bytes} {n : Nat}
    (h : skips needle pre = true)
    (hn : pre.length + needle.length ≤ n)
    (rest : Bytes) :
    strstr needle ((pre ++ (needle ++ rest)).take n) =
      some (needle ++ rest.take (n - (pre.length + needle.length))) := by
  obtain ⟨k, rfl⟩ := Nat.exists_eq_add_of_le hn
  rw [Nat.add_assoc, List.take_length_add_append, List.take_length_add_append,
    strstr_append_of_skips h, strstr_of_prefix (List.prefix_append _ _), ← Nat.add_assoc,
    Nat.add_sub_cancel_left]

/-- What two texts begin with in common does not count. -/
theorem clash_append_left
    (x s t : Bytes) :
    clash (x ++ s) (x ++ t) = clash s t := by
  induction x with
  | nil =>
      rfl
  | cons b x ih =>
      simpa [clash, List.isPrefixOf] using ih

/-- A text begins with one word up to a quote. -/
theorem quoted_word_unique
    {q : UInt8} {x y s t l : Bytes}
    (hx : q ∉ x) (hy : q ∉ y)
    (hxl : x ++ q :: s <+: l)
    (hyl : y ++ q :: t <+: l) :
    x = y := by
  obtain ⟨u, rfl⟩ := hxl
  obtain ⟨v, hv⟩ := hyl
  have hbefore := congrArg (before q) hv
  rw [List.append_assoc, List.append_assoc, List.cons_append, List.cons_append,
    before_append_of_not_mem hx, before_append_of_not_mem hy] at hbefore
  exact hbefore.symm

/-- Two quoted words that are not the same clash. -/
theorem clash_of_words_ne
    {q : UInt8} {x y : Bytes}
    (hx : q ∉ x) (hy : q ∉ y)
    (hne : x ≠ y)
    (s t : Bytes) :
    clash (q :: (x ++ q :: s)) (q :: (y ++ q :: t)) = true := by
  simp only [clash, Bool.and_eq_true, Bool.not_eq_true', Bool.eq_false_iff, ne_eq,
    List.isPrefixOf_iff_prefix, List.prefix_cons_inj]
  exact ⟨fun hp => hne (quoted_word_unique hx hy hp (List.prefix_refl _)),
    fun hp => hne (quoted_word_unique hx hy (List.prefix_refl _) hp)⟩

/-- A quoted word does not begin at a quote that another byte than its own follows. -/
theorem skips_quote_pair
    {q c : UInt8} {word : Bytes}
    (hcq : c ≠ q)
    (hhead : word.head?.getD c ≠ c)
    (tail : Bytes) :
    skips (q :: (word ++ tail)) [q, c] = true := by
  have hqc : (q == c) = false := by simpa using Ne.symm hcq
  have hcq' : (c == q) = false := by simpa using hcq
  cases word with
  | nil =>
      simp at hhead
  | cons k word =>
      have hkc : (k == c) = false := by simpa using hhead
      have hck : (c == k) = false := by simpa using Ne.symm hhead
      simp [skips, clash, List.isPrefixOf, hqc, hcq', hkc, hck]

/-- A quoted value in which the quote does not occur, followed by another byte than a
quoted key is, hides no occurrence of the key. -/
theorem skips_quoted
    {q c d : UInt8} {key value tail : Bytes}
    (hkey : q ∉ key) (hvalue : q ∉ value)
    (hcd : c ≠ d) (hcq : c ≠ q)
    (hhead : (key.head?.getD c) ≠ c) :
    skips (q :: (key ++ q :: d :: tail)) (q :: (value ++ [q, c])) = true := by
  have hopen : clash (q :: (key ++ q :: d :: tail)) (q :: (value ++ [q, c])) = true := by
    by_cases hsame : key = value
    · subst hsame
      have hcd' : (c == d) = false := by simpa using hcd
      have hdc : (d == c) = false := by simpa using Ne.symm hcd
      rw [← List.cons_append, ← List.cons_append, clash_append_left]
      simp [clash, List.isPrefixOf, hcd', hdc]
    · exact clash_of_words_ne hkey hvalue hsame _ _
  have hclose := skips_quote_pair hcq hhead (q :: d :: tail)
  simp only [skips, Bool.and_eq_true]
  exact ⟨hopen, skips_append (skips_of_head_not_mem hvalue) hclose⟩

end Strstr

section Numbers

/-- `isspace` in the C locale. -/
def isSpace (b : UInt8) : Bool :=
  b == 32 || (9 ≤ b && b ≤ 13)

/-- `isdigit`. -/
def isDigit (b : UInt8) : Bool :=
  48 ≤ b && b ≤ 57

/-- Value of a run of decimal digits. -/
def digitsValue (ds : Bytes) : Nat :=
  ds.foldl (fun acc d => acc * 10 + (d.toNat - 48)) 0

/-- The digits that `strtol` consumes. -/
def leadingDigits (s : Bytes) : Bytes :=
  s.takeWhile isDigit

/-- `strtol` in base 10 on a 64-bit `long`: saturating at both ends. -/
def strtol10 (s : Bytes) : Int :=
  match s.dropWhile isSpace with
  | [] => 0
  | b :: t =>
      if b = 45 then max (-(digitsValue (leadingDigits t) : Int)) (-(2 ^ 63))
      else if b = 43 then min (digitsValue (leadingDigits t) : Int) (2 ^ 63 - 1)
      else min (digitsValue (leadingDigits (b :: t)) : Int) (2 ^ 63 - 1)

/-- `atoi`: the low 32 bits of `strtol`, as a signed number. -/
def atoi (s : Bytes) : Int :=
  (strtol10 s).bmod (2 ^ 32)

theorem leadingDigits_append
    {b : UInt8}
    (hd : isDigit b = false)
    (s rest : Bytes) :
    leadingDigits (s ++ b :: rest) = leadingDigits s := by
  unfold leadingDigits
  rw [List.takeWhile_append]
  split_ifs with h
  · have hs : s.takeWhile isDigit = s :=
      (List.takeWhile_prefix _).eq_of_length h
    simp [hd, hs]
  · rfl

/-- The byte is no space, sign or digit. -/
def endsNumber (b : UInt8) : Bool :=
  !isSpace b && !isDigit b && b != 45 && b != 43

/-- A number ends at a byte that is no space, sign or digit. -/
theorem atoi_append
    {b : UInt8}
    (h : endsNumber b = true)
    (s rest : Bytes) :
    atoi (s ++ b :: rest) = atoi s := by
  simp only [endsNumber, Bool.and_eq_true, Bool.not_eq_true', bne_iff_ne] at h
  obtain ⟨⟨⟨hs, hd⟩, hm⟩, hp⟩ := h
  have hzero : digitsValue (leadingDigits (b :: rest)) = 0 := by
    simp [leadingDigits, hd, digitsValue]
  unfold atoi strtol10
  rw [List.dropWhile_append]
  split_ifs with h
  · rw [List.isEmpty_iff] at h
    rw [h, List.dropWhile_cons_of_neg (by simp [hs])]
    simp [hm, hp, hzero]
  · cases hw : s.dropWhile isSpace with
    | nil =>
        simp [hw] at h
    | cons c t =>
        simp only [List.cons_append, leadingDigits_append hd]
        have := leadingDigits_append hd (c :: t) rest
        rw [List.cons_append] at this
        rw [this]

end Numbers

section Bounded

/-- `snprintf(buf, size, ...)`: the part of the output that fits before the NUL. -/
def snprintf (size : Nat) (text : Bytes) : Bytes :=
  text.take (size - 1)

theorem snprintf_of_fits
    {size : Nat} {text : Bytes}
    (h : text.length < size) :
    snprintf size text = text := by
  unfold snprintf
  exact List.take_of_length_le (by omega)

/-- The line that `fgets` reads into a buffer with room for `n` bytes. -/
def fgetsLine : Nat → Bytes → Bytes
  | 0, _ => []
  | _ + 1, [] => []
  | n + 1, b :: bs => if b = 10 then [b] else b :: fgetsLine n bs

/-- `fgets(buf, size, f)`: the line and the input left, none at the end of input. -/
def fgets (size : Nat) (input : Bytes) : Option (Bytes × Bytes) :=
  match input with
  | [] => none
  | _ :: _ =>
      some (fgetsLine (size - 1) input,
        input.drop (fgetsLine (size - 1) input).length)

theorem length_fgetsLine_le
    (n : Nat) (input : Bytes) :
    (fgetsLine n input).length ≤ n := by
  induction n generalizing input with
  | zero =>
      simp [fgetsLine]
  | succ n ih =>
      cases input with
      | nil =>
          simp [fgetsLine]
      | cons b bs =>
          simp only [fgetsLine]
          split_ifs
          · simp
          · have := ih bs
            simpa using this

/-- A line that fits, newline included, is read as it stands. -/
theorem fgetsLine_of_fits
    {n : Nat} {line rest : Bytes}
    (hnl : (10 : UInt8) ∉ line)
    (hlen : line.length < n) :
    fgetsLine n (line ++ 10 :: rest) = line ++ [10] := by
  induction line generalizing n with
  | nil =>
      cases n with
      | zero => simp at hlen
      | succ n => simp [fgetsLine]
  | cons b bs ih =>
      cases n with
      | zero => simp at hlen
      | succ n =>
          simp only [List.mem_cons, not_or] at hnl
          simp only [List.length_cons] at hlen
          have hb : b ≠ 10 := Ne.symm hnl.1
          have hbs : bs.length < n := by omega
          simp [fgetsLine, hb, ih hnl.2 hbs]

/-- What is read is a prefix of the input. -/
theorem fgetsLine_prefix_input
    (n : Nat) (input : Bytes) :
    fgetsLine n input <+: input := by
  induction n generalizing input with
  | zero =>
      simp [fgetsLine]
  | succ n ih =>
      cases input with
      | nil =>
          simp [fgetsLine]
      | cons b bs =>
          simp only [fgetsLine]
          split_ifs
          · simp
          · exact (List.prefix_cons_inj b).mpr (ih bs)

/-- A line that fills the buffer is read without its newline. -/
theorem fgetsLine_of_full
    {line rest : Bytes}
    (hnl : (10 : UInt8) ∉ line) :
    fgetsLine line.length (line ++ rest) = line := by
  induction line with
  | nil =>
      simp [fgetsLine]
  | cons b bs ih =>
      simp only [List.mem_cons, not_or] at hnl
      have hb : b ≠ 10 := Ne.symm hnl.1
      simp [fgetsLine, hb, ih hnl.2]

/-- Input without a newline that fits is read to its end. -/
theorem fgetsLine_of_short
    {n : Nat} {line : Bytes}
    (hnl : (10 : UInt8) ∉ line)
    (hlen : line.length ≤ n) :
    fgetsLine n line = line := by
  induction line generalizing n with
  | nil =>
      cases n <;> rfl
  | cons b bs ih =>
      cases n with
      | zero =>
          simp at hlen
      | succ n =>
          simp only [List.mem_cons, not_or] at hnl
          simp only [List.length_cons] at hlen
          have hb : b ≠ 10 := Ne.symm hnl.1
          have hrest : fgetsLine n bs = bs := ih hnl.2 (by omega)
          simp [fgetsLine, hb, hrest]

/-- The idiom that drops one trailing newline from a line just read. -/
def stripNewline (s : Bytes) : Bytes :=
  if s.getLast? = some 10 then s.dropLast else s

@[simp] theorem stripNewline_append_newline
    (s : Bytes) :
    stripNewline (s ++ [10]) = s := by
  simp [stripNewline]

/-- A line that fits, with or without its newline, is read and stripped to itself. -/
theorem stripNewline_fgetsLine
    {n : Nat} {line rest : Bytes}
    (hnl : (10 : UInt8) ∉ line)
    (hlen : line.length ≤ n) :
    stripNewline (fgetsLine n (line ++ 10 :: rest)) = line := by
  rcases Nat.lt_or_eq_of_le hlen with hlt | rfl
  · rw [fgetsLine_of_fits hnl hlt, stripNewline_append_newline]
  · rw [fgetsLine_of_full hnl, stripNewline, if_neg]
    intro hlast
    exact hnl (List.mem_of_getLast? hlast)

theorem stripNewline_prefix_self
    (s : Bytes) :
    stripNewline s <+: s := by
  unfold stripNewline
  split_ifs
  · exact List.dropLast_prefix s
  · exact List.prefix_refl s

theorem stripNewline_of_not_mem
    {s : Bytes}
    (h : (10 : UInt8) ∉ s) :
    stripNewline s = s := by
  rw [stripNewline, if_neg]
  exact fun hlast => h (List.mem_of_getLast? hlast)

/-- What `fgets` returns and leaves, from the line that it reads. -/
theorem fgets_of_line
    {size : Nat} {got rest : Bytes}
    (hne : got ≠ [])
    (hline : fgetsLine (size - 1) (got ++ rest) = got) :
    fgets size (got ++ rest) = some (got, rest) := by
  cases got with
  | nil =>
      exact absurd rfl hne
  | cons b got =>
      rw [List.cons_append] at hline ⊢
      simp [fgets, hline]

/-- `fgets(buf, size, f)` with the newline dropped afterwards: the text that the buffer then
holds, and the input left. -/
def fgetsText (size : Nat) (input : Bytes) : Option (CString × Bytes) :=
  (fgets size input).map fun r => (cstr (stripNewline (cstr r.1).bytes), r.2)

/-- A line that fits the buffer with its newline is read whole, the newline with it. -/
theorem fgetsText_line
    {size : Nat} {line : CString}
    (hnl : (10 : UInt8) ∉ line.bytes)
    (hlen : line.strlen + 1 < size)
    (rest : Bytes) :
    fgetsText size (line.bytes ++ 10 :: rest) = some (line, rest) := by
  have hread : fgetsLine (size - 1) (line.bytes ++ 10 :: rest) = line.bytes ++ [10] := by
    refine fgetsLine_of_fits hnl ?_
    simp only [CString.strlen] at hlen
    omega
  have hnul : (0 : UInt8) ∉ line.bytes ++ [10] := by
    simp [line.nulFree]
  rw [List.append_cons] at hread ⊢
  rw [fgetsText, fgets_of_line (by simp) hread, Option.map_some, cstr_bytes_of_nulFree hnul,
    stripNewline_append_newline, cstr_bytes]

/-- A read that stops before any newline returns what it has read. -/
theorem fgetsText_of_line
    {size : Nat} {text : CString} {rest : Bytes}
    (hnl : (10 : UInt8) ∉ text.bytes)
    (hne : text.bytes ≠ [])
    (hline : fgetsLine (size - 1) (text.bytes ++ rest) = text.bytes) :
    fgetsText size (text.bytes ++ rest) = some (text, rest) := by
  simp only [fgetsText, fgets_of_line hne hline, Option.map_some, cstr_bytes,
    stripNewline_of_not_mem hnl]

/-- A line that fills the buffer is cut, and the rest of it is read next. -/
theorem fgetsText_long
    {size : Nat} {line : CString}
    (hnl : (10 : UInt8) ∉ line.bytes)
    (hsize : 1 < size)
    (hlen : size ≤ line.strlen + 1)
    (rest : Bytes) :
    fgetsText size (line.bytes ++ rest) =
      some (line.take (size - 1), line.bytes.drop (size - 1) ++ rest) := by
  have hcut : (line.take (size - 1)).bytes.length = size - 1 := by
    simp only [CString.strlen] at hlen
    simp only [CString.take, List.length_take]
    omega
  have hfree : (10 : UInt8) ∉ (line.take (size - 1)).bytes :=
    fun h => hnl (List.mem_of_mem_take h)
  have hsplit :
      line.bytes ++ rest =
        (line.take (size - 1)).bytes ++ (line.bytes.drop (size - 1) ++ rest) := by
    rw [CString.take, ← List.append_assoc, List.take_append_drop]
  have hread :
      fgetsLine (size - 1)
          ((line.take (size - 1)).bytes ++ (line.bytes.drop (size - 1) ++ rest)) =
        (line.take (size - 1)).bytes := by
    have hfull := @fgetsLine_of_full _ (line.bytes.drop (size - 1) ++ rest) hfree
    rwa [hcut] at hfull
  rw [hsplit]
  refine fgetsText_of_line hfree (fun hnil => ?_) hread
  rw [hnil, List.length_nil] at hcut
  omega

/-- The last line of a file, without its newline, is read as it is. -/
theorem fgetsText_last
    {size : Nat} {line : CString}
    (hnl : (10 : UInt8) ∉ line.bytes)
    (hne : line.bytes ≠ [])
    (hlen : line.strlen < size) :
    fgetsText size line.bytes = some (line, []) := by
  have hread : fgetsLine (size - 1) (line.bytes ++ []) = line.bytes := by
    rw [List.append_nil]
    exact fgetsLine_of_short hnl (by simp only [CString.strlen] at hlen; omega)
  have := fgetsText_of_line hnl hne hread
  rwa [List.append_nil] at this

/-- Of a line, the text that is read is as much as the buffer holds. -/
theorem fgetsText_fst
    {size : Nat} {line : CString}
    (hnl : (10 : UInt8) ∉ line.bytes)
    (hsize : 1 < size)
    (rest : Bytes) :
    (fgetsText size (line.bytes ++ 10 :: rest)).map Prod.fst = some (line.take (size - 1)) := by
  by_cases hshort : line.strlen + 1 < size
  · rw [fgetsText_line hnl hshort, Option.map_some, CString.take_of_strlen_le (by omega)]
  · rw [fgetsText_long hnl hsize (Nat.le_of_not_lt hshort), Option.map_some]

end Bounded

end CLib
