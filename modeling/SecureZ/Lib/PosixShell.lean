import SecureZ.Lib.Bytes
import Mathlib.Algebra.Group.Nat.Even

/-!
# How a POSIX shell reads a command line

The part of the shell's lexical rules that a program relies on when it builds a
command line with single quotes: text between two single quotes is literal, a single
quote ends it, blanks outside quotes separate the words, and a quotation that is never
closed is an error for which nothing runs.

Outside quotes many bytes have a meaning of their own.  The model does not interpret
them: a line in which the path of the reading depends on one of them is read as
`special`, and a statement about every shell has to hold whatever the shell makes of
such a line.
-/

namespace PosixShell

open CLib

/-- The single quote. -/
def apostrophe : UInt8 := 39

/-- A blank separates words. -/
def isBlank (b : UInt8) : Bool :=
  b == 32 || b == 9

/-- Bytes that, outside quotes, change how the text behind them is read. -/
def changesReading (b : UInt8) : Bool :=
  (ascii "\n\"#$<\\\x60").contains b

/-- Further bytes that are not literal outside quotes. -/
def isOperator (b : UInt8) : Bool :=
  (ascii "&()*;=>?[|~").contains b

section Lexer

/-- A word as it is read: its bytes, each with whether it stood inside quotes. -/
abbrev Token := List (UInt8 × Bool)

/-- The state of the lexer. -/
structure LexState where
  /-- A quotation is open. -/
  quoted : Bool
  /-- The word that is being read. -/
  token : Option Token
  /-- The words that are complete, in order. -/
  done : List Token

/-- One byte of the line. -/
def lexStep (st : LexState) (b : UInt8) : LexState :=
  if st.quoted then
    if b = apostrophe then
      { st with quoted := false }
    else
      { st with token := some (st.token.getD [] ++ [(b, true)]) }
  else if b = apostrophe then
    { st with quoted := true, token := some (st.token.getD []) }
  else if isBlank b then
    { st with token := none, done := st.done ++ st.token.toList }
  else
    { st with token := some (st.token.getD [] ++ [(b, false)]) }

/-- The state after a whole line. -/
def lex (line : Bytes) : LexState :=
  line.foldl lexStep ⟨false, none, []⟩

/-- All words of a state, the one being read included. -/
def LexState.tokens (st : LexState) : List Token :=
  st.done ++ st.token.toList

end Lexer

section Reading

/-- The word that a token stands for. -/
def text (t : Token) : Bytes :=
  t.map Prod.fst

/-- The token of a text outside quotes. -/
def bare (s : Bytes) : Token :=
  s.map fun b => (b, false)

/-- The token of a text inside quotes. -/
def literal (s : Bytes) : Token :=
  s.map fun b => (b, true)

/-- Every byte of the token is literal. -/
def isPlain (t : Token) : Bool :=
  t.all fun p => p.2 || !(changesReading p.1 || isOperator p.1)

/-- The token leaves the rest of the line to be read by the quoting rule alone. -/
def keepsReading (t : Token) : Bool :=
  t.all fun p => p.2 || !changesReading p.1

/-- The redirection of the standard error output to the standard output. -/
def isRedirect (t : Token) : Bool :=
  t == bare (ascii "2>&1")

/-- A redirection that is cut off, which is a syntax error at the end of a line. -/
def isCutRedirect (t : Token) : Bool :=
  t == bare (ascii "2>") || t == bare (ascii "2>&")

/-- What a shell makes of a line. -/
inductive Reading
  /-- One simple command with its words and its redirections. -/
  | simple (words redirects : List Bytes)
  /-- A syntax error: nothing runs. -/
  | rejected
  /-- A line with syntax that is not modelled. -/
  | special
deriving DecidableEq

/-- The reading of a line that left the lexer in a state. -/
def LexState.reading (st : LexState) : Reading :=
  if st.quoted then
    if st.tokens.all keepsReading then .rejected else .special
  else if st.tokens.all (fun t => isPlain t || isRedirect t) then
    .simple ((st.tokens.filter isPlain).map text)
      ((st.tokens.filter isRedirect).map text)
  else if st.done.all (fun t => isPlain t || isRedirect t) && st.token.any isCutRedirect then
    .rejected
  else .special

/-- The reading of a line by the quoting rule. -/
def readLine (line : Bytes) : Reading :=
  (lex line).reading

end Reading

section System

/-- What `system` comes back with. -/
structure Outcome where
  /-- The shell went on to execute the line. -/
  ran : Bool
  /-- The status that `system` returns. -/
  status : Int
deriving DecidableEq

/-- A shell, as `system` uses it. -/
abbrev Shell := Bytes → Outcome

/-- A shell that keeps to the quoting rule: what the rule makes a syntax error fails
without running anything.  What else a shell does with a line is left open. -/
def ObeysQuoting (sh : Shell) : Prop :=
  ∀ line,
    readLine line = .rejected →
    (sh line).ran = false ∧ (sh line).status ≠ 0

/-- The shell that executes every line the rule does not reject. -/
def eagerShell : Shell := fun line =>
  if readLine line = .rejected then ⟨false, 2⟩ else ⟨true, 0⟩

theorem eagerShell_obeysQuoting : ObeysQuoting eagerShell := by
  intro line h
  simp [eagerShell, h]

theorem eagerShell_ran
    {line : Bytes}
    (h : readLine line ≠ .rejected) :
    (eagerShell line).ran = true := by
  simp [eagerShell, h]

end System

section Quoting

/-- No byte that a state holds is a single quote. -/
def QuoteFree (st : LexState) : Prop :=
  ∀ t ∈ st.tokens, apostrophe ∉ text t

theorem text_append
    (t u : Token) :
    text (t ++ u) = text t ++ text u := by
  simp [text]

/-- Reading a byte never puts a single quote into a word. -/
theorem quoteFree_lexStep
    {st : LexState} {b : UInt8}
    (h : QuoteFree st) :
    QuoteFree (lexStep st b) := by
  have hdone : ∀ t ∈ st.done, apostrophe ∉ text t := by
    intro t ht
    exact h t (by simp [LexState.tokens, ht])
  have htoken : apostrophe ∉ text (st.token.getD []) := by
    cases htok : st.token with
    | none => simp [text]
    | some t => exact h t (by simp [LexState.tokens, htok])
  have hsnoc :
      ∀ q, b ≠ apostrophe → apostrophe ∉ text (st.token.getD [] ++ [(b, q)]) := by
    intro q hb
    rw [text_append]
    simp [text, Ne.symm hb] at htoken ⊢
    exact htoken
  intro t ht
  unfold lexStep at ht
  split_ifs at ht with hq hb hb hblank
  · exact h t ht
  · simp only [LexState.tokens, Option.toList_some, List.mem_append,
      List.mem_singleton] at ht
    rcases ht with ht | rfl
    · exact hdone t ht
    · exact hsnoc true hb
  · simp only [LexState.tokens, Option.toList_some, List.mem_append,
      List.mem_singleton] at ht
    rcases ht with ht | rfl
    · exact hdone t ht
    · exact htoken
  · exact h t (by simpa [LexState.tokens] using ht)
  · simp only [LexState.tokens, Option.toList_some, List.mem_append,
      List.mem_singleton] at ht
    rcases ht with ht | rfl
    · exact hdone t ht
    · exact hsnoc false hb

/-- The words of a line never contain a single quote. -/
theorem quoteFree_lex
    (line : Bytes) :
    QuoteFree (lex line) := by
  have hfold :
      ∀ st, QuoteFree st → QuoteFree (line.foldl lexStep st) := by
    induction line with
    | nil =>
        intro st h
        exact h
    | cons b bs ih =>
        intro st h
        exact ih _ (quoteFree_lexStep h)
  exact hfold _ (by simp [QuoteFree, LexState.tokens])

/-- So no word of a simple command contains a single quote. -/
theorem apostrophe_not_mem_words
    {line : Bytes} {words redirects : List Bytes}
    (h : readLine line = .simple words redirects)
    {w : Bytes}
    (hw : w ∈ words) :
    apostrophe ∉ w := by
  unfold readLine LexState.reading at h
  split_ifs at h
  obtain ⟨rfl, -⟩ := Reading.simple.inj h
  obtain ⟨t, ht, rfl⟩ := List.mem_map.mp hw
  exact quoteFree_lex line t (List.mem_filter.mp ht).1

/-- Inside quotes a text without a single quote is read as it stands. -/
theorem foldl_lexStep_quoted
    {s : Bytes} {t : Token} {done : List Token}
    (hs : apostrophe ∉ s) :
    s.foldl lexStep ⟨true, some t, done⟩ = ⟨true, some (t ++ literal s), done⟩ := by
  induction s generalizing t with
  | nil =>
      simp [literal]
  | cons b bs ih =>
      simp only [List.mem_cons, not_or] at hs
      have hb : b ≠ apostrophe := Ne.symm hs.1
      have hstep :
          lexStep ⟨true, some t, done⟩ b = ⟨true, some (t ++ [(b, true)]), done⟩ := by
        simp [lexStep, hb]
      rw [List.foldl_cons, hstep, ih hs.2]
      simp [literal]

@[simp] theorem text_literal
    (s : Bytes) :
    text (literal s) = s := by
  simp [text, literal, Function.comp_def]

@[simp] theorem text_bare
    (s : Bytes) :
    text (bare s) = s := by
  simp [text, bare, Function.comp_def]

@[simp] theorem isPlain_literal
    (s : Bytes) :
    isPlain (literal s) = true := by
  simp [isPlain, literal]

@[simp] theorem keepsReading_literal
    (s : Bytes) :
    keepsReading (literal s) = true := by
  simp [keepsReading, literal]

/-- A text inside quotes is not mistaken for a redirection. -/
@[simp] theorem isRedirect_literal
    (s : Bytes) :
    isRedirect (literal s) = false := by
  cases s with
  | nil => rfl
  | cons b bs => simp [isRedirect, literal, bare, ascii]

end Quoting

section Rejection

/-- The bytes of a line that stand outside quotes. -/
def outside : Bool → Bytes → Bytes
  | _, [] => []
  | quoted, b :: bs =>
      if b = apostrophe then outside (!quoted) bs
      else if quoted then outside quoted bs
      else b :: outside quoted bs

/-- The last quotation of the line stays open, and nothing outside quotes keeps a shell
from seeing that. -/
def QuoteLeftOpen (line : Bytes) : Prop :=
  Odd (line.count apostrophe) ∧ ∀ b ∈ outside false line, changesReading b = false

/-- The line ends inside a redirection, behind words that are all read as they stand. -/
def RedirectCutOff (line : Bytes) : Prop :=
  Even (line.count apostrophe) ∧
    (lex line).done.all (fun t => isPlain t || isRedirect t) = true ∧
    (lex line).token.any isCutRedirect = true

theorem quoted_lexStep
    (st : LexState) (b : UInt8) :
    (lexStep st b).quoted = if b = apostrophe then !st.quoted else st.quoted := by
  unfold lexStep
  split_ifs <;> simp_all

/-- A quotation is open when the number of single quotes so far is odd. -/
theorem quoted_foldl
    (st : LexState) (line : Bytes) :
    (line.foldl lexStep st).quoted = true
      ↔
    (Even (line.count apostrophe) ↔ st.quoted = true) := by
  induction line generalizing st with
  | nil =>
      simp
  | cons b bs ih =>
      rw [List.foldl_cons, ih, quoted_lexStep]
      by_cases hb : b = apostrophe
      · rw [hb, List.count_cons_self, Nat.even_add_one]
        cases st.quoted <;> simp
      · rw [List.count_cons_of_ne hb, if_neg hb]

theorem quoted_lex
    (line : Bytes) :
    (lex line).quoted = true ↔ Odd (line.count apostrophe) := by
  rw [lex, quoted_foldl]
  simp

theorem keepsReading_append
    (t u : Token) :
    keepsReading (t ++ u) = (keepsReading t && keepsReading u) :=
  List.all_append

theorem keepsReading_byte
    (b : UInt8) (quoted : Bool) :
    keepsReading [(b, quoted)] = (quoted || !changesReading b) := by
  simp [keepsReading]

theorem tokens_all
    (st : LexState) (f : Token → Bool) :
    st.tokens.all f = (st.done.all f && st.token.all f) := by
  unfold LexState.tokens
  cases st.token <;> simp

theorem changesReading_of_isBlank
    {b : UInt8}
    (h : isBlank b = true) :
    changesReading b = false := by
  simp only [isBlank, Bool.or_eq_true, beq_iff_eq] at h
  rcases h with rfl | rfl <;> decide

/-- What one byte adds: only a byte outside quotes can change the reading. -/
theorem keepsReading_lexStep
    (st : LexState) (b : UInt8) :
    (lexStep st b).tokens.all keepsReading =
      (st.tokens.all keepsReading &&
        (st.quoted || b == apostrophe || !changesReading b)) := by
  have htoken : keepsReading (st.token.getD []) = st.token.all keepsReading := by
    cases st.token <;> rfl
  unfold lexStep
  split_ifs with hq hb hb hblank
  · simp [hq, tokens_all]
  · simp [hq, tokens_all, keepsReading_append, keepsReading_byte, htoken]
  · simp [hb, tokens_all, htoken]
  · simp [changesReading_of_isBlank hblank, LexState.tokens]
  · have hne : (b == apostrophe) = false := by simpa using hb
    simp [hq, hne, tokens_all, keepsReading_append, keepsReading_byte, htoken,
      Bool.and_assoc]

theorem keepsReading_foldl
    (st : LexState) (line : Bytes) :
    (line.foldl lexStep st).tokens.all keepsReading = true
      ↔
    st.tokens.all keepsReading = true ∧
      ∀ b ∈ outside st.quoted line, changesReading b = false := by
  induction line generalizing st with
  | nil =>
      simp [outside]
  | cons b bs ih =>
      rw [List.foldl_cons, ih, quoted_lexStep, keepsReading_lexStep]
      by_cases hb : b = apostrophe
      · simp [outside, hb]
      · cases st.quoted <;> simp [outside, hb, and_assoc]

/-- A redirection that is cut off is neither a plain word nor a redirection. -/
theorem not_complete_of_isCutRedirect
    {t : Token}
    (h : isCutRedirect t = true) :
    (isPlain t || isRedirect t) = false := by
  simp only [isCutRedirect, Bool.or_eq_true, beq_iff_eq] at h
  rcases h with rfl | rfl <;> decide

/-- The lines that the quoting rule makes a syntax error. -/
theorem readLine_eq_rejected_iff
    {line : Bytes} :
    readLine line = .rejected ↔ QuoteLeftOpen line ∨ RedirectCutOff line := by
  have hquoted := quoted_lex line
  have hkeeps :
      (lex line).tokens.all keepsReading = true ↔
        ∀ b ∈ outside false line, changesReading b = false :=
    (keepsReading_foldl ⟨false, none, []⟩ line).trans (and_iff_right rfl)
  unfold readLine LexState.reading
  by_cases hq : (lex line).quoted = true
  · have hodd := hquoted.mp hq
    have hno : ¬ RedirectCutOff line := fun h => Nat.not_even_iff_odd.mpr hodd h.1
    rw [if_pos hq, or_iff_left hno, QuoteLeftOpen, ← hkeeps]
    split_ifs with hall <;> simp [hall, hodd]
  · have heven : Even (line.count apostrophe) :=
      Nat.not_odd_iff_even.mp fun h => hq (hquoted.mpr h)
    have hno : ¬ QuoteLeftOpen line := fun h => hq (hquoted.mpr h.1)
    have hcut :
        (lex line).token.any isCutRedirect = true →
          (lex line).tokens.all (fun t => isPlain t || isRedirect t) = false := by
      intro h
      cases ht : (lex line).token with
      | none =>
          simp [ht] at h
      | some t =>
          rw [ht, Option.any_some] at h
          simp [tokens_all, ht, not_complete_of_isCutRedirect h]
    rw [if_neg hq, or_iff_right hno, RedirectCutOff, ← Bool.and_eq_true]
    split_ifs with hall hend
    · refine iff_of_false (by simp) ?_
      rintro ⟨-, h⟩
      rw [hcut (Bool.and_eq_true_iff.mp h).2] at hall
      cases hall
    · simp [heven, hend]
    · simp [hend]

end Rejection

end PosixShell
