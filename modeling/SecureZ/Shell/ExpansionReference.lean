import SecureZ.Shell.Expansion
import SecureZ.Lib.Decimal
import Mathlib.Tactic.SplitIfs

/-!
# Variable expansion against its definition

A token in which each `$` begins a variable or `$?` is a list of pieces, and its expansion
puts a text in the place of each piece: the value of a variable, the last exit code, the value
of `HOME` for a `~` in front, and the character itself otherwise.

`expand_variables` returns early for a token without a `$`, asks the environment for a
variable called `?`, and takes a `~` for the first one while its output is still empty.  The
main result says for which tokens and environments it returns the expansion nevertheless.
-/

namespace SecureZ
namespace Shell

open CLib

section Specification

/-- A piece of a token. -/
inductive Piece
  | char (b : UInt8)
  /-- A variable without braces. -/
  | plain (name : Bytes)
  /-- A variable in braces. -/
  | braced (name : Bytes)
  /-- The last exit code. -/
  | status
deriving DecidableEq

/-- A `~`. -/
def Piece.tilde : Piece :=
  .char (byte '~')

def Piece.text : Piece → Bytes
  | .char b => [b]
  | .plain name => byte '$' :: name
  | .braced name => byte '$' :: byte '\x7b' :: (name ++ [byte '\x7d'])
  | .status => ascii "$?"

/-- Names have 1 to 255 characters. -/
def Piece.Valid : Piece → Prop
  | .char b => b ≠ byte '$'
  | .plain name => name ≠ [] ∧ name.length ≤ 255 ∧ ∀ b ∈ name, isNameByte b = true
  | .braced name => name ≠ [] ∧ name.length ≤ 255 ∧ byte '\x7d' ∉ name
  | .status => True

/-- A name without braces ends where no byte of a name follows. -/
def Piece.EndsAt : Piece → Bytes → Prop
  | .plain _, rest => ∀ b ∈ rest.head?, isNameByte b = false
  | _, _ => True

def tokenText (pieces : List Piece) : Bytes :=
  pieces.flatMap Piece.text

/-- The pieces are those that the token of them is read as. -/
def WellFormed : List Piece → Prop
  | [] => True
  | piece :: rest => piece.Valid ∧ piece.EndsAt (tokenText rest) ∧ WellFormed rest

/-- A token as its pieces. -/
structure Template where
  pieces : List Piece
  wellFormed : WellFormed pieces

/-- A number as it is printed with `%d`. -/
def exitText (code : Int) : Bytes :=
  if code < 0 then byte '-' :: decimal code.natAbs else decimal code.natAbs

/-- The value of a variable, nothing if it is not set. -/
def variableText (env : Environment) (name : Bytes) : Bytes :=
  match env name with
  | none => []
  | some value => value.bytes

/-- The text in the place of a piece. -/
def Piece.value (env : Environment) (code : Int) : Piece → Bytes
  | .char b => [b]
  | .plain name => variableText env name
  | .braced name => variableText env name
  | .status => exitText code

/-- The text in the place of a `~` in front. -/
def homeText (env : Environment) : Bytes :=
  match env (ascii "HOME") with
  | none => [byte '~']
  | some home => home.bytes

/-- The expansion of a token. -/
def expansion (env : Environment) (code : Int) (pieces : List Piece) : Bytes :=
  if pieces.head? = some .tilde then
    homeText env ++ pieces.tail.flatMap (Piece.value env code)
  else pieces.flatMap (Piece.value env code)

/-- The expansion is shorter than the buffer. -/
def Short (env : Environment) (code : Int) (t : Template) : Prop :=
  (expansion env code t.pieces).length < maxLineLength - 1

instance (env : Environment) (code : Int) (t : Template) : Decidable (Short env code t) :=
  inferInstanceAs (Decidable (_ < _))

/-- For every exit code, the function returns the expansion. -/
def Agrees (env : Environment) (t : Template) : Prop :=
  ∀ code, Short env code t →
    expandVariables env (tokenText t.pieces) = expansion env code t.pieces

/-- The first piece that is not a variable without a text. -/
def firstShown (env : Environment) (pieces : List Piece) : Option Piece :=
  pieces.find? fun piece => piece.value env 0 ≠ []

/-- A `~` in front has a `HOME` to stand for, and no later `~` comes first in the output. -/
def StartSafe (env : Environment) (pieces : List Piece) : Prop :=
  if pieces.head? = some .tilde then
    ∃ home, env (ascii "HOME") = some home ∧
      (home.bytes ≠ [] ∨ firstShown env pieces.tail ≠ some .tilde)
  else firstShown env pieces ≠ some .tilde

/-- What is made of each `~` is right: in a token with a `$`, or in one without. -/
def TildeSafe (env : Environment) (pieces : List Piece) : Prop :=
  if byte '$' ∈ tokenText pieces then putHome env = [byte '~'] ∨ StartSafe env pieces
  else pieces.head? = some .tilde → homeText env = [byte '~']

/-- There is no `$?`, and each `~` is safe. -/
structure Safe (env : Environment) (t : Template) : Prop where
  status : .status ∉ t.pieces
  tilde : TildeSafe env t.pieces

/-- `HOME` does not itself begin with `~`, or there is room for it beside the expansion. -/
def HomeFits (env : Environment) (code : Int) (t : Template) : Prop :=
  ∀ home, env (ascii "HOME") = some home → home.bytes.head? = some (byte '~') →
    home.bytes = [byte '~'] ∨
      home.bytes.length + (expansion env code t.pieces).length < maxLineLength - 1

end Specification

section Reading

/-- A name that ends in front of the rest is read as a whole. -/
theorem nameSpan_append
    {ok : UInt8 → Bool} {name rest : Bytes}
    (hlen : name.length ≤ 255)
    (hname : ∀ b ∈ name, ok b = true)
    (hrest : ∀ b ∈ rest.head?, ok b = false) :
    nameSpan ok (name ++ rest) = (name, rest) := by
  have hspan : ((name ++ rest).take 255).takeWhile ok = name := by
    rw [List.take_append, List.take_of_length_le hlen,
      List.takeWhile_append_of_pos hname]
    have hstop : (rest.take (255 - name.length)).takeWhile ok = [] := by
      cases rest with
      | nil => simp
      | cons b rest =>
          have hb : ok b = false := hrest b rfl
          cases 255 - name.length with
          | zero => rfl
          | succ n => simp [hb]
    rw [hstop, List.append_nil]
  rw [nameSpan, hspan, List.drop_left]

/-- The name that the environment is asked for. -/
def Piece.lookup : Piece → Option Bytes
  | .char _ => none
  | .plain name => some name
  | .braced name => some name
  | .status => some (ascii "?")

/-- The name of a piece is read from its text. -/
theorem variableName_text
    {piece : Piece} {name rest : Bytes}
    (hvalid : piece.Valid)
    (hends : piece.EndsAt rest)
    (hname : piece.lookup = some name) :
    ∃ p, piece.text ++ rest = byte '$' :: p ∧ variableName p = (name, rest) := by
  cases piece with
  | char b =>
      cases hname
  | plain name' =>
      obtain rfl := Option.some.inj hname
      obtain ⟨hne, hlen, hbytes⟩ := hvalid
      refine ⟨name' ++ rest, rfl, ?_⟩
      obtain ⟨c, cs, rfl⟩ := List.exists_cons_of_ne_nil hne
      have hc := hbytes c List.mem_cons_self
      have hbrace : c ≠ byte '\x7b' := by
        rintro rfl
        exact absurd hc (by decide)
      have hquestion : c ≠ byte '?' := by
        rintro rfl
        exact absurd hc (by decide)
      rw [List.cons_append, variableName, if_neg hbrace, if_neg hquestion, ← List.cons_append]
      exact nameSpan_append hlen hbytes hends
  | braced name' =>
      obtain rfl := Option.some.inj hname
      obtain ⟨-, hlen, hbytes⟩ := hvalid
      refine ⟨byte '\x7b' :: (name' ++ byte '\x7d' :: rest), by simp [Piece.text], ?_⟩
      have hspan :
          nameSpan (fun c => c != byte '\x7d') (name' ++ byte '\x7d' :: rest) =
            (name', byte '\x7d' :: rest) := by
        refine nameSpan_append hlen (fun b hb => ?_) (by simp)
        have hne : b ≠ byte '\x7d' := fun heq => hbytes (heq ▸ hb)
        simpa using hne
      rw [variableName, if_pos rfl, hspan]
      simp
  | status =>
      obtain rfl := Option.some.inj hname
      exact ⟨byte '?' :: rest, rfl, rfl⟩

end Reading

section Running

variable {env : Environment} {result : Bytes} {pieces rest : List Piece}

/-- The loop of `expand_variables` on what is left of a token. -/
def expandFrom (env : Environment) (result p : Bytes) : Bytes :=
  expandLoop env p.length result p

theorem expandFrom_dollar
    (hroom : result.length < maxLineLength - 1)
    (p : Bytes) :
    expandFrom env result (byte '$' :: p) =
      expandFrom env (putValue env result (variableName p).1) (variableName p).2 := by
  rw [expandFrom, List.length_cons, expandLoop, if_pos hroom, if_pos rfl]
  exact expandLoop_congr (length_variableName_le p) le_rfl _

theorem expandFrom_tilde
    (env : Environment) (p : Bytes) :
    expandFrom env [] (byte '~' :: p) = expandFrom env (putHome env) p := by
  have hroom : ([] : Bytes).length < maxLineLength - 1 := by decide
  have hne : byte '~' ≠ byte '$' := by decide
  rw [expandFrom, List.length_cons, expandLoop, if_pos hroom, if_neg hne, if_pos ⟨rfl, rfl⟩]
  rfl

theorem expandFrom_char
    {b : UInt8}
    (hroom : result.length < maxLineLength - 1)
    (hb : b ≠ byte '$')
    (htilde : ¬ (b = byte '~' ∧ result = []))
    (p : Bytes) :
    expandFrom env result (b :: p) = expandFrom env (result ++ [b]) p := by
  rw [expandFrom, List.length_cons, expandLoop, if_pos hroom, if_neg hb, if_neg htilde]
  rfl

/-- Without room, the loop has ended. -/
theorem expandFrom_full
    (hfull : ¬ result.length < maxLineLength - 1)
    (p : Bytes) :
    expandFrom env result p = result := by
  cases p with
  | nil => rfl
  | cons b p => rw [expandFrom, List.length_cons, expandLoop, if_neg hfull]

/-- A piece with a `$` puts the value of its name. -/
theorem expandFrom_lookup
    {piece : Piece} {name tail : Bytes}
    (hroom : result.length < maxLineLength - 1)
    (hvalid : piece.Valid)
    (hends : piece.EndsAt tail)
    (hname : piece.lookup = some name) :
    expandFrom env result (piece.text ++ tail) =
      expandFrom env (putValue env result name) tail := by
  obtain ⟨p, htext, hread⟩ := variableName_text hvalid hends hname
  rw [htext, expandFrom_dollar hroom, hread]

/-- The output only grows. -/
theorem prefix_putValue
    (env : Environment) (result name : Bytes) :
    result <+: putValue env result name := by
  unfold putValue
  split
  · exact List.prefix_rfl
  · split_ifs
    · exact List.prefix_append _ _
    · exact List.prefix_rfl

theorem prefix_expandLoop
    (env : Environment) (fuel : Nat) (result p : Bytes) :
    result <+: expandLoop env fuel result p := by
  induction fuel generalizing result p with
  | zero =>
      exact List.prefix_rfl
  | succ fuel ih =>
      cases p with
      | nil =>
          exact List.prefix_rfl
      | cons b p =>
          simp only [expandLoop]
          split_ifs with hroom hdollar htilde
          · exact (prefix_putValue env result _).trans (ih _ _)
          · rw [htilde.2]
            exact List.nil_prefix
          · exact (List.prefix_append _ _).trans (ih _ _)
          · exact List.prefix_rfl

/-- A value is put when the result stays shorter than the buffer. -/
theorem putValue_eq
    {name : Bytes}
    (hroom : (result ++ variableText env name).length < maxLineLength - 1) :
    putValue env result name = result ++ variableText env name := by
  unfold putValue variableText at *
  cases hvalue : env name with
  | none => simp
  | some value =>
      simp only [hvalue, List.length_append, maxLineLength] at hroom
      have hfits : fitsCheck result.length value.strlen = true := by
        have hlen : value.strlen = value.bytes.length := rfl
        rw [fitsCheck_iff (by omega)]
        simp only [maxLineLength]
        omega
      simp only [if_pos hfits]

/-- What is put is never longer than the value. -/
theorem length_putValue_le
    (env : Environment) (result name : Bytes) :
    (putValue env result name).length ≤ result.length + (variableText env name).length := by
  unfold putValue variableText
  cases env name with
  | none => simp
  | some value =>
      simp only
      split_ifs <;> simp

/-- A piece that is neither a character nor the exit code has a name, and its value. -/
theorem lookup_of_ne
    {piece : Piece}
    (hchar : ∀ b, piece ≠ .char b)
    (hstatus : piece ≠ .status)
    (env : Environment) :
    ∃ name, piece.lookup = some name ∧ ∀ code, piece.value env code = variableText env name := by
  cases piece with
  | char b => exact absurd rfl (hchar b)
  | plain name => exact ⟨name, rfl, fun _ => rfl⟩
  | braced name => exact ⟨name, rfl, fun _ => rfl⟩
  | status => exact absurd rfl hstatus

theorem firstShown_blank
    {piece : Piece}
    (hblank : piece.value env 0 = [])
    (rest : List Piece) :
    firstShown env (piece :: rest) = firstShown env rest :=
  List.find?_cons_of_neg (by simp [hblank])

/-- What the loop does with a piece: it takes a `~` for the first one, copies a character, or
puts the value of a name. -/
theorem expandFrom_cons_cases
    {piece : Piece}
    (env : Environment)
    (hroom : result.length < maxLineLength - 1)
    (hwell : WellFormed (piece :: rest))
    (hstatus : piece ≠ .status) :
    (piece = .tilde ∧ result = [] ∧
      expandFrom env result (tokenText (piece :: rest)) =
        expandFrom env (putHome env) (tokenText rest)) ∨
    (∃ b, piece = .char b ∧
      expandFrom env result (tokenText (piece :: rest)) =
        expandFrom env (result ++ [b]) (tokenText rest)) ∨
    ∃ name, (∀ code, piece.value env code = variableText env name) ∧
      expandFrom env result (tokenText (piece :: rest)) =
        expandFrom env (putValue env result name) (tokenText rest) := by
  obtain ⟨hvalid, hends, -⟩ := hwell
  have htext : tokenText (piece :: rest) = piece.text ++ tokenText rest :=
    List.flatMap_cons
  rw [htext]
  by_cases hchar : ∃ b, piece = .char b
  · obtain ⟨b, rfl⟩ := hchar
    by_cases htilde : b = byte '~' ∧ result = []
    · obtain ⟨rfl, rfl⟩ := htilde
      exact .inl ⟨rfl, rfl, expandFrom_tilde env (tokenText rest)⟩
    · exact .inr (.inl ⟨b, rfl, expandFrom_char hroom hvalid htilde (tokenText rest)⟩)
  · obtain ⟨name, hname, hvalue⟩ := lookup_of_ne (fun b hb => hchar ⟨b, hb⟩) hstatus env
    exact .inr (.inr ⟨name, hvalue, expandFrom_lookup hroom hvalid hends hname⟩)

/-- Where no `~` is misread, the loop puts the values of the pieces. -/
theorem expandFrom_pieces
    (code : Int)
    (hwell : WellFormed pieces)
    (hstatus : .status ∉ pieces)
    (hsafe : result ≠ [] ∨ putHome env = [byte '~'] ∨ firstShown env pieces ≠ some .tilde)
    (hroom : (result ++ pieces.flatMap (Piece.value env code)).length < maxLineLength - 1) :
    expandFrom env result (tokenText pieces) =
      result ++ pieces.flatMap (Piece.value env code) := by
  induction pieces generalizing result with
  | nil =>
      rw [List.flatMap_nil, List.append_nil]
      rfl
  | cons piece rest ih =>
      rw [List.mem_cons, not_or] at hstatus
      have hresult : result.length < maxLineLength - 1 := by
        rw [List.length_append] at hroom
        omega
      have hrest := hwell.2.2
      rw [List.flatMap_cons, ← List.append_assoc] at hroom ⊢
      rcases expandFrom_cons_cases env hresult hwell (Ne.symm hstatus.1) with
        ⟨rfl, rfl, hstep⟩ | ⟨b, rfl, hstep⟩ | ⟨name, hvalue, hstep⟩
      · -- a `~` that is taken for the first one: `HOME` is `~` itself
        have hhome : putHome env = [byte '~'] := by
          rcases hsafe with hne | hhome | hshown
          · exact absurd rfl hne
          · exact hhome
          · exact absurd rfl hshown
        rw [hstep, hhome]
        exact ih hrest hstatus.2 (.inl (by simp)) hroom
      · rw [hstep]
        exact ih hrest hstatus.2 (.inl (by simp)) hroom
      · rw [hvalue] at hroom ⊢
        have hput : (result ++ variableText env name).length < maxLineLength - 1 := by
          rw [List.length_append] at hroom
          omega
        rw [hstep, putValue_eq hput]
        refine ih hrest hstatus.2 ?_ hroom
        by_cases hblank : variableText env name = []
        · rw [hblank, List.append_nil, ← firstShown_blank ((hvalue 0).trans hblank)]
          exact hsafe
        · exact .inl (by simp [hblank])

/-- With nothing in the place of a first `~`, the output is no longer than the values. -/
theorem length_expandFrom_le
    (code : Int)
    (hwell : WellFormed pieces)
    (hstatus : .status ∉ pieces)
    (hhome : putHome env = [])
    (result : Bytes) :
    (expandFrom env result (tokenText pieces)).length ≤
      result.length + (pieces.flatMap (Piece.value env code)).length := by
  induction pieces generalizing result with
  | nil =>
      exact Nat.le_add_right _ _
  | cons piece rest ih =>
      rw [List.mem_cons, not_or] at hstatus
      rw [List.flatMap_cons, List.length_append]
      by_cases hroom : result.length < maxLineLength - 1
      · rcases expandFrom_cons_cases env hroom hwell (Ne.symm hstatus.1) with
          ⟨rfl, rfl, hstep⟩ | ⟨b, rfl, hstep⟩ | ⟨name, hvalue, hstep⟩
        · rw [hstep, hhome]
          have hle := ih hwell.2.2 hstatus.2 []
          omega
        · rw [hstep]
          have hle := ih hwell.2.2 hstatus.2 (result ++ [b])
          simp only [List.length_append, List.length_singleton, Piece.value] at hle ⊢
          omega
        · rw [hstep, hvalue]
          have hle := ih hwell.2.2 hstatus.2 (putValue env result name)
          have hput := length_putValue_le env result name
          omega
      · rw [expandFrom_full hroom]
        exact Nat.le_add_right _ _

/-- The loop passes the variables without a text that stand in front. -/
theorem expandFrom_firstShown
    {piece : Piece}
    (code : Int)
    (hwell : WellFormed pieces)
    (hstatus : .status ∉ pieces)
    (hshown : firstShown env pieces = some piece) :
    ∃ rest,
      WellFormed rest ∧ .status ∉ rest ∧
        pieces.flatMap (Piece.value env code) =
          piece.value env code ++ rest.flatMap (Piece.value env code) ∧
        expandFrom env [] (tokenText pieces) =
          expandFrom env [] (piece.text ++ tokenText rest) := by
  induction pieces with
  | nil =>
      cases hshown
  | cons first rest ih =>
      rw [List.mem_cons, not_or] at hstatus
      by_cases hblank : first.value env 0 = []
      · rw [firstShown_blank hblank] at hshown
        obtain ⟨back, hback, hnone, hvalues, hloop⟩ := ih hwell.2.2 hstatus.2 hshown
        have hroom : ([] : Bytes).length < maxLineLength - 1 := by decide
        rcases expandFrom_cons_cases env hroom hwell (Ne.symm hstatus.1) with
          ⟨rfl, -, -⟩ | ⟨b, rfl, -⟩ | ⟨name, hvalue, hstep⟩
        · cases hblank
        · cases hblank
        · rw [hvalue] at hblank
          have hput : putValue env [] name = [] := by
            rw [putValue_eq (by rw [hblank]; decide), hblank, List.nil_append]
          refine ⟨back, hback, hnone, ?_, ?_⟩
          · rw [List.flatMap_cons, hvalue, hblank, hvalues, List.nil_append]
          · rw [hstep, hput, hloop]
      · have heq : first = piece := by
          rw [firstShown, List.find?_cons_of_pos (by simpa using hblank)] at hshown
          exact Option.some.inj hshown
        subst heq
        exact ⟨rest, hwell.2.2, hstatus.2, List.flatMap_cons, congrArg _ List.flatMap_cons⟩

end Running

section Safety

variable {env : Environment} {code : Int} {pieces rest : List Piece}

/-- A `$` in the text is one of a piece. -/
theorem tokenText_of_not_mem
    (hwell : WellFormed pieces)
    (h : byte '$' ∉ tokenText pieces)
    (env : Environment) (code : Int) :
    pieces.flatMap (Piece.value env code) = tokenText pieces := by
  induction pieces with
  | nil =>
      rfl
  | cons piece rest ih =>
      have htext : tokenText (piece :: rest) = piece.text ++ tokenText rest :=
        List.flatMap_cons
      rw [htext, List.mem_append, not_or] at h
      rw [List.flatMap_cons, htext, ih hwell.2.2 h.2]
      cases piece with
      | char b => rfl
      | plain name => exact absurd List.mem_cons_self h.1
      | braced name => exact absurd List.mem_cons_self h.1
      | status => exact absurd (by decide) h.1

theorem expandVariables_of_mem
    (h : byte '$' ∈ tokenText pieces) :
    expandVariables env (tokenText pieces) = expandFrom env [] (tokenText pieces) := by
  rw [expandVariables, if_pos h]
  rfl

theorem head_tilde
    (h : pieces.head? = some .tilde) :
    ∃ rest, pieces = .tilde :: rest :=
  List.head?_eq_some_iff.mp h

/-- The expansion of a token that begins with `~`. -/
theorem expansion_tilde
    (env : Environment) (code : Int) (rest : List Piece) :
    expansion env code (.tilde :: rest) =
      homeText env ++ rest.flatMap (Piece.value env code) := by
  unfold expansion
  exact if_pos rfl

theorem expansion_of_ne
    (h : pieces.head? ≠ some .tilde)
    (env : Environment) (code : Int) :
    expansion env code pieces = pieces.flatMap (Piece.value env code) := by
  rw [expansion, if_neg h]

theorem homeText_of_some
    {home : CString}
    (h : env (ascii "HOME") = some home) :
    homeText env = home.bytes ∧ putHome env = home.bytes := by
  simp [homeText, putHome, h]

/-- Without a `$`, the token is returned, which is right when its `~` stands for itself. -/
theorem agrees_of_not_mem
    (hwell : WellFormed pieces)
    (h : byte '$' ∉ tokenText pieces) :
    expandVariables env (tokenText pieces) = expansion env code pieces
      ↔
    (pieces.head? = some .tilde → homeText env = [byte '~']) := by
  rw [expandVariables_of_not_mem h]
  by_cases hhead : pieces.head? = some .tilde
  · obtain ⟨rest, rfl⟩ := head_tilde hhead
    have hrest : rest.flatMap (Piece.value env code) = tokenText rest := by
      refine tokenText_of_not_mem hwell.2.2 (fun hmem => h ?_) env code
      exact List.mem_cons_of_mem _ hmem
    have htext : tokenText (.tilde :: rest) = [byte '~'] ++ tokenText rest := rfl
    rw [expansion_tilde, hrest, htext, List.append_cancel_right_eq]
    simp [eq_comm]
  · rw [expansion_of_ne hhead, tokenText_of_not_mem hwell h env code]
    simp [hhead]

/-- With a `$`, the loop returns the expansion when each `~` is safe. -/
theorem agrees_of_startSafe
    (hwell : WellFormed pieces)
    (hstatus : .status ∉ pieces)
    (hshort : (expansion env code pieces).length < maxLineLength - 1)
    (hsafe : putHome env = [byte '~'] ∨ StartSafe env pieces) :
    expandFrom env [] (tokenText pieces) = expansion env code pieces := by
  by_cases hhead : pieces.head? = some .tilde
  · obtain ⟨rest, rfl⟩ := head_tilde hhead
    rw [List.mem_cons, not_or] at hstatus
    have hhome : ∃ home, env (ascii "HOME") = some home ∧
        (home.bytes ≠ [] ∨ putHome env = [byte '~'] ∨ firstShown env rest ≠ some .tilde) := by
      rcases hsafe with hput | hstart
      · cases hvalue : env (ascii "HOME") with
        | none => simp [putHome, hvalue] at hput
        | some home => exact ⟨home, rfl, .inr (.inl hput)⟩
      · rw [StartSafe, if_pos hhead] at hstart
        obtain ⟨home, hvalue, hne | hshown⟩ := hstart
        · exact ⟨home, hvalue, .inl hne⟩
        · exact ⟨home, hvalue, .inr (.inr hshown)⟩
    obtain ⟨home, hvalue, hrest⟩ := hhome
    obtain ⟨htext, hput⟩ := homeText_of_some hvalue
    rw [expansion_tilde, htext] at hshort ⊢
    change expandFrom env [] (byte '~' :: tokenText rest) = _
    rw [expandFrom_tilde, hput]
    exact expandFrom_pieces code hwell.2.2 hstatus.2 hrest hshort
  · rw [expansion_of_ne hhead] at hshort ⊢
    refine expandFrom_pieces code hwell hstatus ?_ hshort
    rcases hsafe with hput | hstart
    · exact .inr (.inl hput)
    · rw [StartSafe, if_neg hhead] at hstart
      exact .inr (.inr hstart)

/-- A `~` for which nothing is put is lost. -/
theorem tilde_lost
    (hwell : WellFormed rest)
    (hstatus : .status ∉ rest)
    (hput : putHome env = []) :
    expandFrom env [] (byte '~' :: tokenText rest) ≠
      [byte '~'] ++ rest.flatMap (Piece.value env code) := by
  intro h
  rw [expandFrom_tilde, hput] at h
  have hle := length_expandFrom_le code hwell hstatus hput []
  rw [h] at hle
  simp only [List.length_append, List.length_singleton, List.length_nil] at hle
  omega

/-- A `~` that comes first in the output but not in the token is taken for `HOME`. -/
theorem tilde_taken
    (hwell : WellFormed rest)
    (hstatus : .status ∉ rest)
    (hput : putHome env ≠ [byte '~'])
    (hfits : ∀ home, env (ascii "HOME") = some home → home.bytes.head? = some (byte '~') →
      home.bytes = [byte '~'] ∨
        home.bytes.length + ([byte '~'] ++ rest.flatMap (Piece.value env code)).length <
          maxLineLength - 1) :
    expandFrom env [] (byte '~' :: tokenText rest) ≠
      [byte '~'] ++ rest.flatMap (Piece.value env code) := by
  cases hvalue : env (ascii "HOME") with
  | none => exact tilde_lost hwell hstatus (by simp [putHome, hvalue])
  | some home =>
      have hhome := (homeText_of_some hvalue).2
      by_cases hblank : home.bytes = []
      · exact tilde_lost hwell hstatus (hhome.trans hblank)
      · intro h
        rw [expandFrom_tilde, hhome] at h
        have hprefix := prefix_expandLoop env (tokenText rest).length home.bytes (tokenText rest)
        change home.bytes <+: expandFrom env home.bytes (tokenText rest) at hprefix
        rw [h] at hprefix
        have hhead : home.bytes.head? = some (byte '~') := by
          obtain ⟨b, back, hbytes⟩ := List.exists_cons_of_ne_nil hblank
          rw [hbytes] at hprefix ⊢
          exact congrArg some (List.cons_prefix_cons.mp hprefix).1
        rcases hfits home hvalue hhead with hself | hroom
        · exact hput (hhome.trans hself)
        · rw [expandFrom_pieces code hwell hstatus (.inl hblank)
            (by simp only [List.length_append] at hroom ⊢; omega)] at h
          exact hput (hhome.trans (List.append_cancel_right h))

/-- With a `$`, the loop returns the expansion only when each `~` is safe. -/
theorem startSafe_of_agrees
    (hwell : WellFormed pieces)
    (hstatus : .status ∉ pieces)
    (hfits : ∀ home, env (ascii "HOME") = some home → home.bytes.head? = some (byte '~') →
      home.bytes = [byte '~'] ∨
        home.bytes.length + (expansion env code pieces).length < maxLineLength - 1)
    (h : expandFrom env [] (tokenText pieces) = expansion env code pieces) :
    putHome env = [byte '~'] ∨ StartSafe env pieces := by
  by_contra hunsafe
  obtain ⟨hput, hstart⟩ := not_or.mp hunsafe
  by_cases hhead : pieces.head? = some .tilde
  · obtain ⟨rest, rfl⟩ := head_tilde hhead
    rw [List.mem_cons, not_or] at hstatus
    rw [StartSafe, if_pos hhead] at hstart
    rw [expansion_tilde] at h
    change expandFrom env [] (byte '~' :: tokenText rest) = _ at h
    cases hvalue : env (ascii "HOME") with
    | none =>
        have hhome : homeText env = [byte '~'] := by simp [homeText, hvalue]
        rw [hhome] at h
        exact tilde_lost hwell.2.2 hstatus.2 (by simp [putHome, hvalue]) h
    | some home =>
        -- `HOME` is empty, and another `~` comes first in the output
        obtain ⟨htext, hhome⟩ := homeText_of_some hvalue
        have hblank : home.bytes = [] := by
          by_contra hne
          exact hstart ⟨home, hvalue, .inl hne⟩
        have hshown : firstShown env rest = some .tilde := by
          by_contra hne
          exact hstart ⟨home, hvalue, .inr hne⟩
        obtain ⟨back, hback, hnone, hvalues, hloop⟩ :=
          expandFrom_firstShown code hwell.2.2 hstatus.2 hshown
        rw [expandFrom_tilde, hhome, htext, hblank, List.nil_append, hloop, hvalues] at h
        exact tilde_lost hback hnone (hhome.trans hblank) h
  · rw [StartSafe, if_neg hhead, not_not] at hstart
    rw [expansion_of_ne hhead] at h hfits
    obtain ⟨back, hback, hnone, hvalues, hloop⟩ :=
      expandFrom_firstShown code hwell hstatus hstart
    rw [hvalues] at h hfits
    rw [hloop] at h
    exact tilde_taken hback hnone hput hfits h

end Safety

section Status

variable {env : Environment} {pieces : List Piece}

/-- Lists of texts of the same lengths that are equal joined are equal one by one. -/
theorem eq_of_flatMap_eq
    {α : Type} {f g : α → Bytes} {l : List α}
    (hlength : ∀ x ∈ l, (f x).length = (g x).length)
    (h : l.flatMap f = l.flatMap g) :
    ∀ x ∈ l, f x = g x := by
  induction l with
  | nil =>
      simp
  | cons x l ih =>
      rw [List.forall_mem_cons] at hlength ⊢
      rw [List.flatMap_cons, List.flatMap_cons] at h
      obtain ⟨hhead, htail⟩ := List.append_inj h hlength.1
      exact ⟨hhead, ih hlength.2 htail⟩

/-- Texts of no greater lengths are no longer joined. -/
theorem length_flatMap_le
    {α : Type} {f g : α → Bytes}
    (hlength : ∀ x, (f x).length ≤ (g x).length)
    (l : List α) :
    (l.flatMap f).length ≤ (l.flatMap g).length := by
  induction l with
  | nil =>
      exact le_rfl
  | cons x l ih =>
      rw [List.flatMap_cons, List.flatMap_cons, List.length_append, List.length_append]
      exact Nat.add_le_add (hlength x) ih

theorem length_exitText_pos
    (code : Int) :
    0 < (exitText code).length := by
  have hpos : ∀ n, 0 < (decimal n).length := fun n => by
    rw [decimal_eq, List.length_map]
    exact Nat.length_toDigits_pos
  unfold exitText
  split_ifs
  · exact Nat.succ_pos _
  · exact hpos _

theorem length_value_le
    (env : Environment) (code : Int) (piece : Piece) :
    (piece.value env 0).length ≤ (piece.value env code).length := by
  cases piece with
  | status =>
      have hzero : (exitText 0).length = 1 := by decide
      have hpos := length_exitText_pos code
      simp only [Piece.value]
      omega
  | _ => exact le_rfl

/-- No exit code makes the expansion shorter than 0 does. -/
theorem length_expansion_le
    (env : Environment) (code : Int) (pieces : List Piece) :
    (expansion env 0 pieces).length ≤ (expansion env code pieces).length := by
  unfold expansion
  split_ifs
  · rw [List.length_append, List.length_append]
    exact Nat.add_le_add_left (length_flatMap_le (length_value_le env code) _) _
  · exact length_flatMap_le (length_value_le env code) _

theorem length_value_one
    (env : Environment) (piece : Piece) :
    (piece.value env 0).length = (piece.value env 1).length := by
  cases piece with
  | status => exact (by decide : (exitText 0).length = (exitText 1).length)
  | _ => rfl

/-- Two exit codes of the same length have different expansions in a token with `$?`. -/
theorem expansion_ne_of_status
    (h : .status ∈ pieces)
    (env : Environment) :
    expansion env 0 pieces ≠ expansion env 1 pieces := by
  intro heq
  have hne : exitText 0 ≠ exitText 1 := by decide
  by_cases hhead : pieces.head? = some .tilde
  · obtain ⟨rest, rfl⟩ := head_tilde hhead
    rw [expansion_tilde, expansion_tilde] at heq
    rcases List.mem_cons.mp h with hfalse | hrest
    · cases hfalse
    · exact hne (eq_of_flatMap_eq (fun piece _ => length_value_one env piece)
        (List.append_cancel_left heq) _ hrest)
  · rw [expansion_of_ne hhead, expansion_of_ne hhead] at heq
    exact hne (eq_of_flatMap_eq (fun piece _ => length_value_one env piece) heq _ h)

theorem length_expansion_one
    (env : Environment) (pieces : List Piece) :
    (expansion env 1 pieces).length = (expansion env 0 pieces).length := by
  unfold expansion
  have hflat : ∀ l : List Piece, (l.flatMap (Piece.value env 1)).length =
      (l.flatMap (Piece.value env 0)).length := fun l =>
    Nat.le_antisymm (length_flatMap_le (fun piece => (length_value_one env piece).ge) l)
      (length_flatMap_le (fun piece => (length_value_one env piece).le) l)
  split_ifs
  · rw [List.length_append, List.length_append, hflat]
  · exact hflat _

/-- A function that does not know the exit code cannot agree on a token with `$?`. -/
theorem status_notMem_of_agrees
    {t : Template} {code : Int}
    (hshort : Short env code t)
    (h : Agrees env t) :
    .status ∉ t.pieces := by
  intro hmem
  have hzero : Short env 0 t := (length_expansion_le env code t.pieces).trans_lt hshort
  have hone : Short env 1 t := (length_expansion_one env t.pieces).trans_lt hzero
  exact expansion_ne_of_status hmem env ((h 0 hzero).symm.trans (h 1 hone))

end Status

section Agreement

/--
**Variable expansion against its definition.**

For a token and an environment in which its expansion is short for some exit code: without
`$?`, and with each `~` safe, the function returns the expansion for every exit code.  These
conditions are also necessary, unless `HOME` itself begins with `~` and does not fit beside
the expansion.
-/
theorem expansion_agrees_iff
    (t : Template) (env : Environment)
    {code : Int}
    (hshort : Short env code t) :
    (Safe env t → Agrees env t) ∧
      (HomeFits env code t → (Agrees env t ↔ Safe env t)) := by
  have hwell := t.wellFormed
  have hsafe : Safe env t → Agrees env t := by
    rintro ⟨hstatus, htilde⟩ code' hshort'
    unfold TildeSafe at htilde
    split_ifs at htilde with hdollar
    · rw [expandVariables_of_mem hdollar]
      exact agrees_of_startSafe hwell hstatus hshort' htilde
    · exact (agrees_of_not_mem hwell hdollar).mpr htilde
  refine ⟨hsafe, fun hfits => ⟨fun h => ?_, hsafe⟩⟩
  have hstatus := status_notMem_of_agrees hshort h
  have heq := h code hshort
  refine ⟨hstatus, ?_⟩
  unfold TildeSafe
  split_ifs with hdollar
  · rw [expandVariables_of_mem hdollar] at heq
    exact startSafe_of_agrees hwell hstatus hfits heq
  · exact (agrees_of_not_mem hwell hdollar).mp heq

/-- An environment with a home directory and a user. -/
def userEnvironment : Environment := fun name =>
  if name = ascii "HOME" then some (cstr (ascii "/root"))
  else if name = ascii "USER" then some (cstr (ascii "sz"))
  else none

/-- `~/$USER`. -/
def homeTemplate : Template where
  pieces := [.tilde, .char (byte '/'), .plain (ascii "USER")]
  wellFormed :=
    ⟨(by decide : byte '~' ≠ byte '$'), trivial, (by decide : byte '/' ≠ byte '$'), trivial,
      ⟨by decide, by decide, List.all_eq_true.mp (by decide)⟩, (fun _ hb => nomatch hb), trivial⟩

/-- It is expanded to `/root/sz`. -/
theorem homeTemplate_expanded :
    expandVariables userEnvironment (ascii "~/$USER") = ascii "/root/sz" := by
  have hshort : Short userEnvironment 0 homeTemplate := by decide +kernel
  have hsafe : Safe userEnvironment homeTemplate := by
    refine ⟨by decide, ?_⟩
    have hdollar : byte '$' ∈ tokenText homeTemplate.pieces := by decide +kernel
    have hhead : homeTemplate.pieces.head? = some .tilde := rfl
    rw [TildeSafe, if_pos hdollar, StartSafe, if_pos hhead]
    exact .inr ⟨cstr (ascii "/root"), rfl, .inl (by decide)⟩
  have hagrees := (expansion_agrees_iff homeTemplate userEnvironment hshort).1 hsafe 0 hshort
  have htext : tokenText homeTemplate.pieces = ascii "~/$USER" := by decide +kernel
  have hvalue : expansion userEnvironment 0 homeTemplate.pieces = ascii "/root/sz" := by
    decide +kernel
  rw [htext, hvalue] at hagrees
  exact hagrees

/-- `~`. -/
def tildeTemplate : Template where
  pieces := [.tilde]
  wellFormed := ⟨(by decide : byte '~' ≠ byte '$'), trivial, trivial⟩

/-- A token without a `$` keeps its `~`. -/
theorem tilde_not_expanded :
    Short userEnvironment 0 tildeTemplate ∧
      expandVariables userEnvironment (tokenText tildeTemplate.pieces) = ascii "~" ∧
      expansion userEnvironment 0 tildeTemplate.pieces = ascii "/root" ∧
      ¬ Agrees userEnvironment tildeTemplate := by
  have hshort : Short userEnvironment 0 tildeTemplate := by decide +kernel
  have hkept : expandVariables userEnvironment (tokenText tildeTemplate.pieces) = ascii "~" := by
    decide +kernel
  have hvalue : expansion userEnvironment 0 tildeTemplate.pieces = ascii "/root" := by
    decide +kernel
  refine ⟨hshort, hkept, hvalue, fun h => ?_⟩
  have heq := h 0 hshort
  rw [hkept, hvalue] at heq
  exact absurd heq (by decide)

end Agreement

end Shell
end SecureZ
