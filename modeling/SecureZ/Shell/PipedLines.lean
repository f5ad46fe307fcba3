import SecureZ.Shell.Items
import SecureZ.Shell.PipelineLimits
import SecureZ.Shell.PipelineRuns

/-!
# Lines of piped commands

A line of piped commands is one whose tokens, read with the quotes in mind, are commands with
pipes between them, and perhaps a `&` behind the last one.  `parse_line` sees the tokens
without their quotes, and only the first `MAX_ARGS - 1` of them; it marks the command in front
of the `&`, while `execute_pipeline` looks at the mark of the first command.

The main result says exactly which of these lines run in the background when they end in `&`,
and in the foreground when they do not.
-/

namespace SecureZ
namespace Shell

open CLib

section Reading

/-- A token with the branch of `tokenize` that it comes from. -/
structure Lexeme where
  text : Bytes
  /-- It is an operator outside of quotes. -/
  operator : Bool
deriving DecidableEq

/-- The text begins with an operator. -/
def startsOperator : Bytes → Bool
  | [] => false
  | b :: p =>
      b == byte '|' || b == byte '&' || b == byte ';' || b == byte '>' || b == byte '<' ||
        (b == byte '2' && p.head? == some (byte '>'))

/-- The tokens of a text, as many as there are; `fuel` bounds the rounds. -/
def lexemeLoop : Nat → Bytes → List Lexeme
  | 0, _ => []
  | fuel + 1, p =>
      match p.dropWhile isSpace with
      | [] => []
      | b :: q =>
          if (nextToken (b :: q)).1 = [] then lexemeLoop fuel (nextToken (b :: q)).2
          else
            ⟨(nextToken (b :: q)).1, startsOperator (b :: q)⟩ ::
              lexemeLoop fuel (nextToken (b :: q)).2

/-- All tokens of a line. -/
def lexemes (line : CString) : List Lexeme :=
  lexemeLoop line.bytes.length line.bytes

/-- The tokenizer keeps the first tokens, and nothing but their texts. -/
theorem tokenizeLoop_eq
    (fuel room : Nat) (p : Bytes) :
    tokenizeLoop fuel room p = ((lexemeLoop fuel p).map Lexeme.text).take room := by
  fun_induction tokenizeLoop fuel room p with
  | case1 => simp [lexemeLoop]
  | case2 => simp
  | case3 fuel room p hp => simp [lexemeLoop, hp]
  | case4 fuel room p b q hq hempty ih => simp [lexemeLoop, hq, hempty, ih]
  | case5 fuel room p b q hq hempty ih => simp [lexemeLoop, hq, hempty, ih]

theorem tokenize_eq
    (line : CString) :
    tokenize line = ((lexemes line).map Lexeme.text).take (maxArgs - 1) :=
  tokenizeLoop_eq _ _ _

end Reading

section Specification

/-- A part of a command: an argument, or a redirection with its file. -/
inductive Part
  | argument (text : Bytes)
  | redirect (op file : Bytes)
deriving DecidableEq

def Part.lexemes : Part → List Lexeme
  | .argument text => [⟨text, false⟩]
  | .redirect op file => [⟨op, true⟩, ⟨file, false⟩]

/-- What the parser takes the part for. -/
def Part.item : Part → Item
  | .argument text => .argument text
  | .redirect op file => .redirect op file

/-- The parts of a command have at least one argument. -/
structure PipedCommand where
  parts : List Part
  redirects : ∀ op file, .redirect op file ∈ parts → redirection op ≠ none
  named : ∃ text, .argument text ∈ parts

def PipedCommand.lexemes (c : PipedCommand) : List Lexeme :=
  c.parts.flatMap Part.lexemes

/-- At most `MAX_PIPE_SEGMENTS` commands, and whether a `&` ends the line. -/
structure PipedLine where
  front : List PipedCommand
  last : PipedCommand
  mark : Bool
  few : front.length < maxPipeSegments

/-- The number of commands. -/
def PipedLine.length (l : PipedLine) : Nat :=
  l.front.length + 1

/-- Commands with a pipe behind each of them. -/
def frontLexemes (front : List PipedCommand) : List Lexeme :=
  front.flatMap fun c => c.lexemes ++ [⟨ascii "|", true⟩]

/-- The `&` at the end. -/
def markLexemes (mark : Bool) : List Lexeme :=
  if mark then [⟨ascii "&", true⟩] else []

def PipedLine.lexemes (l : PipedLine) : List Lexeme :=
  frontLexemes l.front ++ (l.last.lexemes ++ markLexemes l.mark)

/-- The line is read as these commands; it is no comment. -/
structure PipedLine.IsReadFrom (l : PipedLine) (line : CString) : Prop where
  lexemes : Shell.lexemes line = l.lexemes
  command : line.bytes.head? ≠ some (byte '#')

/-- No argument is the text of an operator, which only quotes can make it. -/
def PipedLine.Ordinary (l : PipedLine) : Prop :=
  ∀ c ∈ l.front ++ [l.last], ∀ text, .argument text ∈ c.parts → text ∉ operators

/-- The texts have arguments in the first `n` segments and in no others. -/
def TokensShow (toks : List Bytes) (n : Nat) : Prop :=
  (segments toks).length ≤ maxPipeSegments ∧
    ∀ i, (∃ seg, (segments toks)[i]? = some seg ∧ argumentTokens seg ≠ []) ↔ i < n

/-- There is a `&` among the texts of the first segment. -/
def MarkInFirst (toks : List Bytes) : Prop :=
  ∃ seg, (segments toks)[0]? = some seg ∧ .background ∈ seg

/-- An argument stands among the first `m` tokens. -/
def ArgumentWithin (m : Nat) (parts : List Part) : Prop :=
  ∃ front text back,
    parts = front ++ .argument text :: back ∧ (front.flatMap Part.lexemes).length < m

/-- The tokenizer keeps an argument of the last command. -/
def PipedLine.LastKept (l : PipedLine) : Prop :=
  ArgumentWithin (maxArgs - 1 - (frontLexemes l.front).length) l.last.parts

end Specification

section Parsing

variable {env : Environment} {line : CString}

/-- An item that is no pipe makes no segment. -/
theorem length_segments_item
    {it : Item} {toks rest : List Bytes}
    (hitems : items toks = it :: items rest)
    (hit : it.isPipe = false) :
    (segments toks).length = (segments rest).length := by
  obtain ⟨seg, segs, hrest, hcons⟩ := segments_item hitems hit
  rw [hcons, hrest, List.length_cons, List.length_cons]

/-- The pipes that the parser meets are those between the segments. -/
theorem length_segments
    (toks : List Bytes) :
    (segments toks).length = pipeOperators toks + 1 := by
  fun_induction pipeOperators toks with
  | case1 => simp [segments, items]
  | case2 rest ih => rw [segments_pipe, List.length_cons, ih]
  | case3 rest hne ih => exact (length_segments_item (items_background rest) rfl).trans ih
  | case4 tok hpipe hbg set hset =>
      have hop : redirection tok ≠ none := Option.ne_none_iff_exists'.mpr ⟨set, hset⟩
      simp [segments, items_operator hop]
  | case5 tok hpipe hbg set file rest hset ih =>
      have hop : redirection tok ≠ none := Option.ne_none_iff_exists'.mpr ⟨set, hset⟩
      exact (length_segments_item (items_redirect hop file rest) rfl).trans ih
  | case6 tok hpipe hbg rest hset ih =>
      have harg := not_mem_operators_iff.mpr ⟨hpipe, hbg, hset⟩
      exact (length_segments_item (items_argument harg rest) rfl).trans ih

/-- The number of commands. -/
theorem count_parseLine
    (hcomment : line.bytes.head? ≠ some (byte '#'))
    (htoks : tokenize line ≠ [])
    (env : Environment) :
    (parseLine env line).count = min (pipeOperators (tokenize line)) maxPipeSegments + 1 := by
  have hempty : line.bytes ≠ [] := by
    intro h
    apply htoks
    rw [tokenize, h]
    rfl
  rw [parseLine, if_neg hempty, if_neg hcomment]
  cases ht : tokenize line with
  | nil => exact absurd ht htoks
  | cons tok toks =>
      have hidx := cmdIdx_parseTokens env (tok :: toks) (b := .start) (by decide)
      simp only [Building.finish, hidx]
      simp [Building.start]

/-- A command has the arguments of its segment. -/
theorem argc_parseLine_iff
    (hcomment : line.bytes.head? ≠ some (byte '#'))
    (env : Environment) (i : Nat) :
    ((parseLine env line).commands i).argc ≠ 0
      ↔
    ∃ seg, ((segments (tokenize line)).take maxPipeSegments)[i]? = some seg ∧
      argumentTokens seg ≠ [] := by
  rw [commands_parseLine hcomment]
  cases hseg : ((segments (tokenize line)).take maxPipeSegments)[i]? with
  | none => simp [Command.zero]
  | some seg => simp [(holds_segmentCommand env seg).argc]

/-- Within the limit, the parsed pipeline shows what the tokens show. -/
theorem shows_parseLine_iff
    (hcomment : line.bytes.head? ≠ some (byte '#'))
    (hfew : (segments (tokenize line)).length ≤ maxPipeSegments)
    (env : Environment) (n : Nat) :
    Shows (parseLine env line) n
      ↔
    ∀ i, (∃ seg, (segments (tokenize line))[i]? = some seg ∧ argumentTokens seg ≠ []) ↔ i < n := by
  refine forall_congr' fun i => ?_
  have hargc := argc_parseLine_iff hcomment env i
  rw [List.take_of_length_le hfew] at hargc
  rw [← hargc, Busy, and_iff_right_of_imp]
  intro hbusy
  obtain ⟨seg, hseg, hargs⟩ := hargc.mp hbusy
  obtain ⟨hlt, -⟩ := List.getElem?_eq_some_iff.mp hseg
  have htoks : tokenize line ≠ [] := by
    intro h
    rw [h] at hseg
    cases i with
    | zero =>
        obtain rfl := Option.some.inj hseg
        exact hargs rfl
    | succ i => cases hseg
  rw [count_parseLine hcomment htoks]
  rw [length_segments] at hlt hfew
  omega

theorem background_parseLine_iff
    (hcomment : line.bytes.head? ≠ some (byte '#'))
    (env : Environment) :
    ((parseLine env line).commands 0).background = true ↔ MarkInFirst (tokenize line) := by
  have hzero :
      ((segments (tokenize line)).take maxPipeSegments)[0]? = (segments (tokenize line))[0]? :=
    List.getElem?_take_of_lt (by decide)
  rw [commands_parseLine hcomment, hzero, MarkInFirst]
  cases hseg : (segments (tokenize line))[0]? with
  | none => simp [Command.zero]
  | some seg => simp [(holds_segmentCommand env seg).background]

/-- The pipeline is in its array exactly when there are not more segments than room. -/
theorem inside_parseLine_iff
    (hcomment : line.bytes.head? ≠ some (byte '#'))
    (env : Environment) :
    (parseLine env line).count ≤ maxPipeSegments
      ↔
    (segments (tokenize line)).length ≤ maxPipeSegments := by
  rw [count_parseLine_le_iff, FewPipes, length_segments]
  constructor
  · rintro (hempty | hhash | hfew)
    · have htoks : tokenize line = [] := by
        rw [tokenize, hempty]
        rfl
      rw [htoks]
      decide
    · exact absurd hhash hcomment
    · exact hfew
  · exact fun h => .inr (.inr h)

end Parsing

section Ordinary

/-- No argument of the parts is the text of an operator. -/
def OrdinaryParts (parts : List Part) : Prop :=
  ∀ text, .argument text ∈ parts → text ∉ operators

/-- Each redirection has an operator that redirects. -/
def RedirectParts (parts : List Part) : Prop :=
  ∀ op file, .redirect op file ∈ parts → redirection op ≠ none

/-- The texts of the parts. -/
def partTexts (parts : List Part) : List Bytes :=
  (parts.flatMap Part.lexemes).map Lexeme.text

theorem partTexts_argument
    (text : Bytes) (parts : List Part) :
    partTexts (.argument text :: parts) = text :: partTexts parts := by
  simp [partTexts, Part.lexemes]

theorem partTexts_redirect
    (op file : Bytes) (parts : List Part) :
    partTexts (.redirect op file :: parts) = op :: file :: partTexts parts := by
  simp [partTexts, Part.lexemes]

/-- The texts of ordinary parts are read as these parts. -/
theorem items_parts
    {parts : List Part}
    (hord : OrdinaryParts parts)
    (hredir : RedirectParts parts)
    (rest : List Bytes) :
    items (partTexts parts ++ rest) = parts.map Part.item ++ items rest := by
  induction parts with
  | nil =>
      rfl
  | cons part parts ih =>
      have ih := ih (fun text h => hord text (List.mem_cons_of_mem _ h))
        (fun op file h => hredir op file (List.mem_cons_of_mem _ h))
      cases part with
      | argument text =>
          rw [partTexts_argument, List.cons_append,
            items_argument (hord text List.mem_cons_self), ih]
          rfl
      | redirect op file =>
          rw [partTexts_redirect, List.cons_append, List.cons_append,
            items_redirect (hredir op file List.mem_cons_self), ih]
          rfl

theorem argumentWithin_argument
    (m : Nat) (text : Bytes) (parts : List Part) :
    ArgumentWithin m (.argument text :: parts) ↔ 0 < m := by
  constructor
  · rintro ⟨front, text', back, -, hlt⟩
    exact Nat.zero_lt_of_lt hlt
  · exact fun hpos => ⟨[], text, parts, rfl, hpos⟩

theorem argumentWithin_redirect
    (m : Nat) (op file : Bytes) (parts : List Part) :
    ArgumentWithin m (.redirect op file :: parts) ↔ ArgumentWithin (m - 2) parts := by
  constructor
  · rintro ⟨front, text, back, heq, hlt⟩
    cases front with
    | nil => cases heq
    | cons part front =>
        obtain ⟨rfl, rfl⟩ := List.cons.inj heq
        rw [List.flatMap_cons, List.length_append] at hlt
        simp only [Part.lexemes, List.length_cons, List.length_nil] at hlt
        exact ⟨front, text, back, rfl, by omega⟩
  · rintro ⟨front, text, back, rfl, hlt⟩
    refine ⟨.redirect op file :: front, text, back, rfl, ?_⟩
    rw [List.flatMap_cons, List.length_append]
    simp only [Part.lexemes, List.length_cons, List.length_nil]
    omega

/-- The first texts of ordinary parts are read as some of the parts. -/
theorem items_take_parts
    {parts : List Part}
    (hord : OrdinaryParts parts)
    (hredir : RedirectParts parts)
    (m : Nat) :
    ∃ kept : List Part,
      items ((partTexts parts).take m) = kept.map Part.item ∧
        ((∃ text, .argument text ∈ kept) ↔ ArgumentWithin m parts) := by
  induction parts generalizing m with
  | nil =>
      exact ⟨[], by simp [partTexts, items], by simp [ArgumentWithin]⟩
  | cons part parts ih =>
      have ih := ih (fun text h => hord text (List.mem_cons_of_mem _ h))
        (fun op file h => hredir op file (List.mem_cons_of_mem _ h))
      cases part with
      | argument text =>
          rw [partTexts_argument]
          cases m with
          | zero =>
              exact ⟨[], rfl, by simp [argumentWithin_argument]⟩
          | succ m =>
              obtain ⟨kept, hitems, -⟩ := ih m
              refine ⟨.argument text :: kept, ?_, ?_⟩
              · rw [List.take_succ_cons, items_argument (hord text List.mem_cons_self), hitems]
                rfl
              · simp only [argumentWithin_argument, Nat.zero_lt_succ, iff_true]
                exact ⟨text, List.mem_cons_self⟩
      | redirect op file =>
          rw [partTexts_redirect]
          have hop := hredir op file List.mem_cons_self
          -- the cut is in front of the operator, in front of its file, or behind both
          rcases m with _ | _ | m
          · obtain ⟨kept, hitems, hwithin⟩ := ih 0
            refine ⟨kept, hitems, ?_⟩
            rw [hwithin, argumentWithin_redirect]
          · obtain ⟨kept, hitems, hwithin⟩ := ih 0
            refine ⟨kept, ?_, ?_⟩
            · rw [← hitems, List.take_succ_cons, List.take_zero, items_operator hop]
              rfl
            · rw [hwithin, argumentWithin_redirect]
          · obtain ⟨kept, hitems, hwithin⟩ := ih m
            refine ⟨.redirect op file :: kept, ?_, ?_⟩
            · rw [List.take_succ_cons, List.take_succ_cons, items_redirect hop, hitems]
              rfl
            · rw [argumentWithin_redirect, Nat.add_assoc, Nat.add_sub_cancel, ← hwithin]
              simp

/-- The items of parts are neither pipes nor marks. -/
theorem isPipe_part
    (part : Part) :
    part.item.isPipe = false := by
  cases part <;> rfl

theorem background_notMem_parts
    (parts : List Part) :
    .background ∉ parts.map Part.item := by
  intro h
  obtain ⟨part, -, hitem⟩ := List.mem_map.mp h
  cases part <;> cases hitem

theorem argumentTokens_parts_ne_nil_iff
    (parts : List Part) :
    argumentTokens (parts.map Part.item) ≠ [] ↔ ∃ text, .argument text ∈ parts := by
  rw [← List.length_pos_iff, List.length_pos_iff_exists_mem]
  refine exists_congr fun text => ?_
  simp only [argumentTokens, List.mem_filterMap, List.mem_map]
  constructor
  · rintro ⟨it, ⟨part, hpart, rfl⟩, htext⟩
    cases part with
    | argument text' =>
        obtain rfl := Option.some.inj htext
        exact hpart
    | redirect op file => cases htext
  · exact fun h => ⟨.argument text, ⟨_, h, rfl⟩, rfl⟩

end Ordinary

section Cutting

/-- The texts of the commands in front. -/
def frontTexts (front : List PipedCommand) : List Bytes :=
  (frontLexemes front).map Lexeme.text

/-- What the parser makes of a command. -/
def PipedCommand.items (c : PipedCommand) : List Item :=
  c.parts.map Part.item

theorem frontTexts_cons
    (c : PipedCommand) (front : List PipedCommand) :
    frontTexts (c :: front) = partTexts c.parts ++ ascii "|" :: frontTexts front := by
  simp [frontTexts, frontLexemes, partTexts, PipedCommand.lexemes]

/-- Items without a pipe are one segment. -/
theorem segments_single
    {toks : List Bytes} {parts : List Part} {back : List Item}
    (hitems : items toks = parts.map Part.item ++ back)
    (hback : ∀ it ∈ back, it.isPipe = false) :
    segments toks = [parts.map Part.item ++ back] := by
  rw [segments, hitems]
  refine List.splitOnP_eq_singleton fun it hit => ?_
  rcases List.mem_append.mp hit with hit | hit
  · obtain ⟨part, -, rfl⟩ := List.mem_map.mp hit
    exact isPipe_part part
  · exact hback it hit

/-- A command with a pipe behind it is a segment. -/
theorem segments_command
    {c : PipedCommand}
    (hord : OrdinaryParts c.parts)
    (rest : List Bytes) :
    segments (partTexts c.parts ++ ascii "|" :: rest) = c.items :: segments rest := by
  rw [segments, items_parts hord c.redirects, items_pipe]
  refine List.splitOnP_append_cons_of_forall_mem (fun it hit => ?_) _ rfl _
  obtain ⟨part, -, rfl⟩ := List.mem_map.mp hit
  exact isPipe_part part

/-- The commands in front are the first segments. -/
theorem segments_front
    {front : List PipedCommand}
    (hord : ∀ c ∈ front, OrdinaryParts c.parts)
    (rest : List Bytes) :
    segments (frontTexts front ++ rest) = front.map PipedCommand.items ++ segments rest := by
  induction front with
  | nil =>
      rfl
  | cons c front ih =>
      rw [List.forall_mem_cons] at hord
      rw [frontTexts_cons, List.append_assoc, List.cons_append, segments_command hord.1,
        ih hord.2]
      rfl

/-- A cut in front of the last command leaves a segment out. -/
theorem length_segments_cut
    {front : List PipedCommand}
    (hord : ∀ c ∈ front, OrdinaryParts c.parts)
    {m : Nat}
    (hm : m < (frontTexts front).length) :
    (segments ((frontTexts front).take m)).length ≤ front.length := by
  induction front generalizing m with
  | nil =>
      cases hm
  | cons c front ih =>
      rw [List.forall_mem_cons] at hord
      rw [frontTexts_cons] at hm ⊢
      rw [List.length_append, List.length_cons] at hm
      by_cases hcut : m ≤ (partTexts c.parts).length
      · obtain ⟨kept, hitems, -⟩ := items_take_parts hord.1 c.redirects m
        rw [← List.append_nil (kept.map Part.item)] at hitems
        rw [List.take_append_of_le_length hcut, segments_single hitems (by simp)]
        simp
      · obtain ⟨k, rfl⟩ : ∃ k, m = (partTexts c.parts).length + (k + 1) :=
          ⟨m - (partTexts c.parts).length - 1, by omega⟩
        rw [List.take_length_add_append, List.take_succ_cons, segments_command hord.1]
        exact Nat.succ_le_succ (ih hord.2 (by omega))

/-- Behind commands that all show arguments, the last segment decides. -/
theorem tokensShow_iff
    {toks : List Bytes} {front : List PipedCommand} {seg : List Item}
    (hsegs : segments toks = front.map PipedCommand.items ++ [seg])
    (hfew : front.length < maxPipeSegments) :
    TokensShow toks (front.length + 1) ↔ argumentTokens seg ≠ [] := by
  have hlast : (segments toks)[front.length]? = some seg := by
    rw [hsegs, List.getElem?_append_right (by simp)]
    simp
  have hlength : (segments toks).length = front.length + 1 := by
    rw [hsegs]
    simp
  constructor
  · intro h
    obtain ⟨seg', hseg', hargs⟩ := (h.2 front.length).mpr (Nat.lt_succ_self _)
    obtain rfl := Option.some.inj (hseg'.symm.trans hlast)
    exact hargs
  · intro hargs
    refine ⟨hlength.le.trans hfew, fun i => ⟨?_, fun hi => ?_⟩⟩
    · rintro ⟨seg', hseg', -⟩
      obtain ⟨hlt, -⟩ := List.getElem?_eq_some_iff.mp hseg'
      exact hlt.trans_eq hlength
    · rcases Nat.lt_succ_iff_lt_or_eq.mp hi with hi | rfl
      · refine ⟨(front[i]).items, ?_, ?_⟩
        · rw [hsegs, List.getElem?_append_left (by simpa using hi), List.getElem?_map,
            List.getElem?_eq_getElem hi]
          rfl
        · exact (argumentTokens_parts_ne_nil_iff _).mpr (front[i]).named
      · exact ⟨seg, hlast, hargs⟩

/-- A mark of the first segment is one of the last one. -/
theorem markInFirst_iff
    {toks : List Bytes} {front : List PipedCommand} {seg : List Item}
    (hsegs : segments toks = front.map PipedCommand.items ++ [seg]) :
    MarkInFirst toks ↔ front = [] ∧ .background ∈ seg := by
  rw [MarkInFirst, hsegs]
  cases front with
  | nil => simp
  | cons c front =>
      simpa [PipedCommand.items] using background_notMem_parts c.parts

/-- Where a segment is left out, the tokens do not show all commands. -/
theorem not_tokensShow
    {toks : List Bytes} {n : Nat}
    (h : (segments toks).length ≤ n) :
    ¬ TokensShow toks (n + 1) := by
  intro hshow
  obtain ⟨seg, hseg, -⟩ := (hshow.2 n).mpr (Nat.lt_succ_self n)
  obtain ⟨hlt, -⟩ := List.getElem?_eq_some_iff.mp hseg
  omega

end Cutting

section Lines

variable {line : CString} {l : PipedLine}

/-- The texts of the `&` at the end. -/
def markTexts (mark : Bool) : List Bytes :=
  (markLexemes mark).map Lexeme.text

theorem items_markTexts
    (mark : Bool) :
    items (markTexts mark) = if mark then [.background] else [] := by
  cases mark
  · rfl
  · decide

theorem length_lexemes
    (l : PipedLine) :
    l.lexemes.length =
      (frontTexts l.front).length + (partTexts l.last.parts).length +
        (markTexts l.mark).length := by
  simp [PipedLine.lexemes, frontTexts, partTexts, markTexts, PipedCommand.lexemes, Nat.add_assoc]

/-- What the tokenizer keeps of a line. -/
theorem tokenize_line_eq
    (h : l.IsReadFrom line) :
    tokenize line =
      (frontTexts l.front ++ (partTexts l.last.parts ++ markTexts l.mark)).take (maxArgs - 1) := by
  rw [tokenize_eq, h.lexemes]
  simp [PipedLine.lexemes, frontTexts, partTexts, markTexts, PipedCommand.lexemes]

theorem ordinary_front
    (hord : l.Ordinary) :
    ∀ c ∈ l.front, OrdinaryParts c.parts :=
  fun c hc => hord c (List.mem_append_left _ hc)

theorem ordinary_last
    (hord : l.Ordinary) :
    OrdinaryParts l.last.parts :=
  hord l.last (List.mem_append_right _ (List.mem_singleton_self _))

/-- What is read of the last command when its first texts are kept, and whether the `&` is. -/
theorem items_take_last
    (hord : l.Ordinary)
    (m : Nat) :
    ∃ (kept : List Part) (back : List Item),
      items ((partTexts l.last.parts ++ markTexts l.mark).take m) = kept.map Part.item ++ back ∧
        ((∃ text, .argument text ∈ kept) ↔ ArgumentWithin m l.last.parts) ∧
        (∀ it ∈ back, it = .background) ∧
        (.background ∈ back ↔ l.mark = true ∧ (partTexts l.last.parts).length < m) := by
  have hlast := ordinary_last hord
  obtain ⟨kept, hitems, hwithin⟩ := items_take_parts hlast l.last.redirects m
  by_cases hcut : m ≤ (partTexts l.last.parts).length
  · refine ⟨kept, [], ?_, hwithin, by simp, by simp [hcut.not_gt]⟩
    rw [List.take_append_of_le_length hcut, hitems, List.append_nil]
  · -- all texts of the command are kept, and the `&` behind them
    have hlt : (partTexts l.last.parts).length < m := Nat.lt_of_not_le hcut
    have hall : items (partTexts l.last.parts) = l.last.parts.map Part.item := by
      simpa [items] using items_parts hlast l.last.redirects []
    rw [List.take_of_length_le hlt.le, hall] at hitems
    have hmark : (markTexts l.mark).length ≤ 1 := by
      cases l.mark <;> simp [markTexts, markLexemes]
    refine ⟨kept, items (markTexts l.mark), ?_, hwithin, ?_, ?_⟩
    · rw [List.take_of_length_le (by rw [List.length_append]; omega),
        items_parts hlast l.last.redirects, hitems]
    · rw [items_markTexts]
      split_ifs <;> simp
    · rw [items_markTexts]
      split_ifs with hm <;> simp [hm, hlt]

/-- The segments of a line that is cut inside the last command, or behind it. -/
theorem segments_line
    (h : l.IsReadFrom line)
    (hord : l.Ordinary)
    (hfit : (frontTexts l.front).length ≤ maxArgs - 1) :
    ∃ seg,
      segments (tokenize line) = l.front.map PipedCommand.items ++ [seg] ∧
        (argumentTokens seg ≠ [] ↔ l.LastKept) ∧
        (.background ∈ seg ↔ l.mark = true ∧ l.lexemes.length < maxArgs) := by
  obtain ⟨kept, back, hitems, hwithin, hback, hmark⟩ :=
    items_take_last hord (maxArgs - 1 - (frontTexts l.front).length)
  have hlength : (frontTexts l.front).length = (frontLexemes l.front).length :=
    List.length_map _
  refine ⟨kept.map Part.item ++ back, ?_, ?_, ?_⟩
  · rw [tokenize_line_eq h, List.take_append, List.take_of_length_le hfit,
      segments_front (ordinary_front hord),
      segments_single hitems fun it hit => by rw [hback it hit]; rfl]
  · have hargs : argumentTokens (kept.map Part.item ++ back) =
        argumentTokens (kept.map Part.item) := by
      have hnone : argumentTokens back = [] :=
        List.filterMap_eq_nil_iff.mpr fun it hit => by rw [hback it hit]
      rw [argumentTokens, List.filterMap_append, ← argumentTokens, ← argumentTokens, hnone,
        List.append_nil]
    rw [hargs, argumentTokens_parts_ne_nil_iff, hwithin, PipedLine.LastKept, hlength]
  · rw [List.mem_append, or_iff_right (background_notMem_parts kept), hmark, length_lexemes]
    refine and_congr_right fun hm => ?_
    have hone : (markTexts l.mark).length = 1 := by
      rw [hm]
      rfl
    rw [hone]
    simp only [maxArgs] at hfit ⊢
    omega

/-- A line that is cut in front of the last command does not keep it. -/
theorem cut_line
    (h : l.IsReadFrom line)
    (hord : l.Ordinary)
    (hcut : maxArgs - 1 < (frontTexts l.front).length) :
    ¬ TokensShow (tokenize line) l.length ∧ ¬ l.LastKept := by
  constructor
  · rw [tokenize_line_eq h, List.take_append_of_le_length hcut.le]
    exact not_tokensShow (length_segments_cut (ordinary_front hord) hcut)
  · rintro ⟨front, text, back, -, hlt⟩
    have hlength : (frontTexts l.front).length = (frontLexemes l.front).length :=
      List.length_map _
    omega

/-- An ordinary line shows its commands when an argument of the last one is kept. -/
theorem tokensShow_line_iff
    (h : l.IsReadFrom line)
    (hord : l.Ordinary) :
    TokensShow (tokenize line) l.length ↔ l.LastKept := by
  by_cases hfit : (frontTexts l.front).length ≤ maxArgs - 1
  · obtain ⟨seg, hsegs, hargs, -⟩ := segments_line h hord hfit
    exact (tokensShow_iff hsegs l.few).trans hargs
  · obtain ⟨hshow, hkept⟩ := cut_line h hord (Nat.lt_of_not_le hfit)
    exact iff_of_false hshow hkept

/-- The `&` of an ordinary line is read in the first segment when there is one command, and
all tokens are kept. -/
theorem markInFirst_line_iff
    (h : l.IsReadFrom line)
    (hord : l.Ordinary)
    (hkept : l.LastKept) :
    MarkInFirst (tokenize line) ↔ l.front = [] ∧ l.mark = true ∧ l.lexemes.length < maxArgs := by
  have hfit : (frontTexts l.front).length ≤ maxArgs - 1 := by
    by_contra hcut
    exact (cut_line h hord (Nat.lt_of_not_le hcut)).2 hkept
  obtain ⟨seg, hsegs, -, hmark⟩ := segments_line h hord hfit
  rw [markInFirst_iff hsegs, hmark]

/-- A line whose tokens are all kept keeps an argument of its last command. -/
theorem lastKept_of_length
    (hlength : l.lexemes.length < maxArgs) :
    l.LastKept := by
  obtain ⟨text, htext⟩ := l.last.named
  obtain ⟨front, back, hparts⟩ := List.append_of_mem htext
  refine ⟨front, text, back, hparts, ?_⟩
  have hlast : (partTexts l.last.parts).length =
      (front.flatMap Part.lexemes).length + 1 + (partTexts back).length := by
    rw [hparts]
    simp [partTexts, Part.lexemes]
    omega
  have hfront : (frontTexts l.front).length = (frontLexemes l.front).length :=
    List.length_map _
  rw [length_lexemes, hlast, hfront] at hlength
  simp only [maxArgs] at hlength ⊢
  omega

/-- `sleep 9`. -/
def sleepCommand : PipedCommand where
  parts := [.argument (ascii "sleep"), .argument (ascii "9")]
  redirects := by simp
  named := ⟨_, List.mem_cons_self⟩

/-- `cat`. -/
def catCommand : PipedCommand where
  parts := [.argument (ascii "cat")]
  redirects := by simp
  named := ⟨_, List.mem_cons_self⟩

/-- `sleep 9 &`. -/
def sleepLine : PipedLine where
  front := []
  last := sleepCommand
  mark := true
  few := by decide

theorem sleepLine_isReadFrom :
    sleepLine.IsReadFrom (cstr (ascii "sleep 9 &")) :=
  ⟨by decide +kernel, by decide +kernel⟩

/-- `sleep 9 | cat &`. -/
def sleepIntoCat : PipedLine where
  front := [sleepCommand]
  last := catCommand
  mark := true
  few := by decide

end Lines

end Shell
end SecureZ
