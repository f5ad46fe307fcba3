import SecureZ.Lib.CText

/-!
# The tokenizer of the shell

`tokenize` in `parser.c` walks once over the line.  A token is a quoted text, an operator
of one or two bytes, or a run of other bytes; quotes count only at the start of a token.
A token keeps at most `MAX_LINE_LENGTH - 1` bytes, an empty one is dropped, and the walk
ends after `MAX_ARGS - 1` tokens.

The tokens are plain strings: nothing in them tells whether they were quoted.
-/

namespace SecureZ
namespace Shell

open CLib

/-- `MAX_LINE_LENGTH`. -/
def maxLineLength : Nat := 4096

/-- `MAX_ARGS`. -/
def maxArgs : Nat := 256

/-- A byte written as a character. -/
def byte (c : Char) : UInt8 :=
  UInt8.ofNat c.toNat

section Scanning

/-- `if (ti < MAX_LINE_LENGTH - 1) token[ti++] = c;` -/
def putByte (token : Bytes) (c : UInt8) : Bytes :=
  if token.length < maxLineLength - 1 then token ++ [c] else token

/-- The loop inside single quotes, with the closing quote: the token and the rest. -/
def readSingle (token : Bytes) : Bytes → Bytes × Bytes
  | [] => (token, [])
  | b :: p =>
      if b = byte '\'' then (token, p)
      else readSingle (putByte token b) p

/-- The loop inside double quotes, with the closing quote. -/
def readDouble (token : Bytes) : Bytes → Bytes × Bytes
  | [] => (token, [])
  | [b] =>
      if b = byte '"' then (token, []) else (putByte token b, [])
  | b :: c :: p =>
      if b = byte '"' then (token, c :: p)
      else if b = byte '\\' then readDouble (putByte token c) p
      else readDouble (putByte token b) (c :: p)

/-- The bytes at which an unquoted word ends. -/
def endsWord (b : UInt8) : Bool :=
  isSpace b || b == byte '|' || b == byte '&' || b == byte ';' || b == byte '>' ||
    b == byte '<'

/-- The loop over an unquoted word. -/
def readWord (token : Bytes) : Bytes → Bytes × Bytes
  | [] => (token, [])
  | [b] =>
      if endsWord b then (token, [b]) else (putByte token b, [])
  | b :: c :: p =>
      if endsWord b then (token, b :: c :: p)
      else if b = byte '\\' then readWord (putByte token c) p
      else readWord (putByte token b) (c :: p)

/-- One round of `tokenize` behind the whitespace: the token and the rest of the line. -/
def nextToken : Bytes → Bytes × Bytes
  | [] => ([], [])
  | b :: p =>
      if b = byte '\'' then readSingle [] p
      else if b = byte '"' then readDouble [] p
      else if b = byte '|' ∨ b = byte '&' ∨ b = byte ';' then ([b], p)
      else if b = byte '>' ∧ p.head? = some (byte '>') then (ascii ">>", p.tail)
      else if b = byte '2' ∧ p.head? = some (byte '>') then (ascii "2>", p.tail)
      else if b = byte '>' ∨ b = byte '<' then ([b], p)
      else readWord [] (b :: p)

/-- The loop of `tokenize` with room for `room` more tokens; `fuel` bounds its rounds. -/
def tokenizeLoop : Nat → Nat → Bytes → List Bytes
  | 0, _, _ => []
  | _ + 1, 0, _ => []
  | fuel + 1, room + 1, p =>
      match p.dropWhile isSpace with
      | [] => []
      | b :: q =>
          if (nextToken (b :: q)).1 = [] then
            tokenizeLoop fuel (room + 1) (nextToken (b :: q)).2
          else
            (nextToken (b :: q)).1 :: tokenizeLoop fuel room (nextToken (b :: q)).2

/-- The tokens of a text, at most `room` of them: every round takes a byte at least. -/
def tokensOf (room : Nat) (p : Bytes) : List Bytes :=
  tokenizeLoop p.length room p

/-- `tokenize`. -/
def tokenize (line : CString) : List Bytes :=
  tokensOf (maxArgs - 1) line.bytes

end Scanning

section Progress

theorem length_readSingle_le
    (token p : Bytes) :
    (readSingle token p).2.length ≤ p.length := by
  induction p generalizing token with
  | nil =>
      simp [readSingle]
  | cons b p ih =>
      unfold readSingle
      split_ifs
      · simp
      · exact (ih _).trans (by simp)

theorem length_readDouble_le
    (token p : Bytes) :
    (readDouble token p).2.length ≤ p.length := by
  fun_induction readDouble token p with
  | case1 => simp
  | case2 => simp
  | case3 => simp
  | case4 => simp
  | case5 token c p _ ih =>
      simp only [List.length_cons]
      omega
  | case6 token b c p _ _ ih =>
      simp only [List.length_cons] at ih ⊢
      omega

theorem length_readWord_le
    (token p : Bytes) :
    (readWord token p).2.length ≤ p.length := by
  fun_induction readWord token p with
  | case1 => simp
  | case2 => simp
  | case3 => simp
  | case4 => simp
  | case5 token c p _ ih =>
      simp only [List.length_cons]
      omega
  | case6 token b c p _ _ ih =>
      simp only [List.length_cons] at ih ⊢
      omega

/-- A word takes its first byte. -/
theorem length_readWord_lt
    {b : UInt8}
    (hb : endsWord b = false)
    (token p : Bytes) :
    (readWord token (b :: p)).2.length < (b :: p).length := by
  cases p with
  | nil =>
      simp [readWord, hb]
  | cons c p =>
      unfold readWord
      rw [hb]
      simp only [Bool.false_eq_true, if_false]
      split_ifs
      · have := length_readWord_le (putByte token c) p
        simp only [List.length_cons]
        omega
      · have := length_readWord_le (putByte token b) (c :: p)
        simp only [List.length_cons] at this ⊢
        omega

/-- A round that starts behind the whitespace takes a byte at least. -/
theorem length_nextToken_lt
    {b : UInt8}
    (hb : isSpace b = false)
    (p : Bytes) :
    (nextToken (b :: p)).2.length < (b :: p).length := by
  simp only [nextToken]
  split_ifs with h1 h2 h3 h4 h5 h6
  · exact Nat.lt_succ_of_le (length_readSingle_le [] p)
  · exact Nat.lt_succ_of_le (length_readDouble_le [] p)
  · simp
  · simp only [List.length_tail, List.length_cons]
    omega
  · simp only [List.length_tail, List.length_cons]
    omega
  · simp
  · refine length_readWord_lt ?_ [] p
    simp only [not_or] at h3 h6
    simp [endsWord, hb, h3, h6]

/-- What is left after a round is shorter than the text before it. -/
theorem length_nextToken_of_skip
    {b : UInt8} {p q : Bytes}
    (hq : p.dropWhile isSpace = b :: q) :
    (nextToken (b :: q)).2.length < p.length := by
  have hb : isSpace b = false := by
    have := List.head_dropWhile_not isSpace (l := p) (by simp [hq])
    simpa [hq] using this
  have hlen : (b :: q).length ≤ p.length := by
    rw [← hq]
    exact (List.dropWhile_suffix _).length_le
  exact (length_nextToken_lt hb q).trans_le hlen

/-- Rounds beyond the length of the text change nothing. -/
theorem tokenizeLoop_congr
    {fuel fuel' : Nat} {p : Bytes}
    (h : p.length ≤ fuel)
    (h' : p.length ≤ fuel')
    (room : Nat) :
    tokenizeLoop fuel room p = tokenizeLoop fuel' room p := by
  induction fuel generalizing fuel' room p with
  | zero =>
      obtain rfl : p = [] := List.length_eq_zero_iff.mp (by omega)
      cases fuel' <;> cases room <;> simp [tokenizeLoop]
  | succ fuel ih =>
      cases fuel' with
      | zero =>
          obtain rfl : p = [] := List.length_eq_zero_iff.mp (by omega)
          cases room <;> simp [tokenizeLoop]
      | succ fuel' =>
          cases room with
          | zero =>
              rfl
          | succ room =>
              simp only [tokenizeLoop]
              cases hq : p.dropWhile isSpace with
              | nil =>
                  rfl
              | cons b q =>
                  have hnext := length_nextToken_of_skip hq
                  have hrest :
                      ∀ n, tokenizeLoop fuel n (nextToken (b :: q)).2 =
                        tokenizeLoop fuel' n (nextToken (b :: q)).2 :=
                    fun n => ih (by omega) (by omega) n
                  simp only [hrest]

/-- The rounds of `tokenize`, as an equation without the bound on them. -/
theorem tokensOf_succ
    (room : Nat) (p : Bytes) :
    tokensOf (room + 1) p =
      match p.dropWhile isSpace with
      | [] => []
      | b :: q =>
          if (nextToken (b :: q)).1 = [] then
            tokensOf (room + 1) (nextToken (b :: q)).2
          else
            (nextToken (b :: q)).1 :: tokensOf room (nextToken (b :: q)).2 := by
  have hfuel : tokensOf (room + 1) p = tokenizeLoop (p.length + 1) (room + 1) p :=
    tokenizeLoop_congr le_rfl (by omega) _
  rw [hfuel, tokenizeLoop]
  cases hq : p.dropWhile isSpace with
  | nil =>
      rfl
  | cons b q =>
      have hnext := length_nextToken_of_skip hq
      have hrest :
          ∀ n, tokenizeLoop p.length n (nextToken (b :: q)).2 =
            tokensOf n (nextToken (b :: q)).2 :=
        fun n => tokenizeLoop_congr hnext.le le_rfl n
      simp only [hrest]

@[simp] theorem tokensOf_nil
    (room : Nat) :
    tokensOf room [] = [] :=
  rfl

@[simp] theorem tokensOf_zero
    (p : Bytes) :
    tokensOf 0 p = [] := by
  cases p <;> rfl

/-- There are no more tokens than room for them. -/
theorem length_tokenizeLoop_le
    (fuel room : Nat) (p : Bytes) :
    (tokenizeLoop fuel room p).length ≤ room := by
  fun_induction tokenizeLoop fuel room p with
  | case1 => simp
  | case2 => simp
  | case3 => simp
  | case4 fuel room p b q hq hempty ih => exact ih
  | case5 fuel room p b q hq hempty ih => simpa using ih

theorem length_tokenize_le
    (line : CString) :
    (tokenize line).length ≤ maxArgs - 1 :=
  length_tokenizeLoop_le _ _ _

end Progress

section Pieces

/-- A text that is read as one token when a space or the end of the line follows. -/
structure ReadsAs (piece tok : Bytes) : Prop where
  /-- The whitespace ends in front of it. -/
  starts : ∀ rest, (piece ++ rest).dropWhile isSpace = piece ++ rest
  nonempty : piece ≠ []
  reads :
    ∀ rest : Bytes, rest.head?.getD (byte ' ') = byte ' ' →
      nextToken (piece ++ rest) = (tok, rest)

/-- Texts with a space between each two of them. -/
def spaced (pieces : List Bytes) : Bytes :=
  List.intercalate [byte ' '] pieces

/-- The text behind the first piece. -/
theorem spaced_cons
    (piece : Bytes) (pieces : List Bytes) :
    spaced (piece :: pieces) =
      piece ++ if pieces = [] then [] else byte ' ' :: spaced pieces := by
  cases pieces with
  | nil => simp [spaced, List.intercalate]
  | cons next pieces => simp [spaced, List.intercalate]

/-- A byte of the text is a space or stands in one of the pieces. -/
theorem not_mem_spaced
    {b : UInt8} {pieces : List Bytes}
    (hspace : b ≠ byte ' ')
    (h : ∀ piece ∈ pieces, b ∉ piece) :
    b ∉ spaced pieces := by
  induction pieces with
  | nil =>
      simp [spaced, List.intercalate]
  | cons piece pieces ih =>
      rw [List.forall_mem_cons] at h
      rw [spaced_cons]
      split_ifs
      · simpa using h.1
      · simp [h.1, hspace, ih h.2]

/-- A space in front of a text is skipped. -/
theorem tokensOf_space
    (room : Nat) (p : Bytes) :
    tokensOf room (byte ' ' :: p) = tokensOf room p := by
  cases room with
  | zero =>
      simp
  | succ room =>
      have hspace : isSpace (byte ' ') = true := by decide
      rw [tokensOf_succ, tokensOf_succ, List.dropWhile_cons_of_pos hspace]

/-- The round over one piece. -/
theorem tokensOf_piece
    {piece tok rest : Bytes}
    (h : ReadsAs piece tok)
    (hrest : rest.head?.getD (byte ' ') = byte ' ')
    (room : Nat) :
    tokensOf (room + 1) (piece ++ rest) =
      if tok = [] then tokensOf (room + 1) rest else tok :: tokensOf room rest := by
  obtain ⟨b, q, rfl⟩ := List.exists_cons_of_ne_nil h.nonempty
  have hreads := h.reads rest hrest
  rw [List.cons_append] at hreads
  rw [tokensOf_succ, h.starts rest, List.cons_append]
  simp only [hreads]

/-- The tokens of the pieces of a line, without the empty ones. -/
theorem tokensOf_spaced
    {pieces toks : List Bytes}
    (h : List.Forall₂ ReadsAs pieces toks)
    (room : Nat) :
    tokensOf room (spaced pieces) = (toks.filter (fun tok => tok ≠ [])).take room := by
  induction h generalizing room with
  | nil =>
      simp [spaced, List.intercalate]
  | @cons piece tok pieces toks hpiece hrest ih =>
      cases room with
      | zero =>
          simp
      | succ room =>
          have htail :
              ∀ n, tokensOf n (if pieces = [] then [] else byte ' ' :: spaced pieces) =
                (toks.filter (fun tok => tok ≠ [])).take n := by
            intro n
            split_ifs with hnil
            · subst hnil
              cases hrest
              simp
            · rw [tokensOf_space, ih]
          rw [spaced_cons, tokensOf_piece hpiece (by split_ifs <;> simp), htail, htail]
          by_cases hempty : tok = []
          · simp [hempty]
          · simp [hempty]

end Pieces

end Shell
end SecureZ
