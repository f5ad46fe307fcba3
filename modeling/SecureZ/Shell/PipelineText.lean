import SecureZ.Shell.Parser
import Mathlib.Data.List.Forall2

/-!
# Pipelines as text

The part of the shell's language that has no quoting: commands of plain words with
redirections to plain words, an optional `&` behind each command, and pipes between
them.  A pipeline of this kind is written with a space between each two tokens; the
types carry the limits that the parser sets on it.

Parsing gives back what was written.  The proof follows the text: the tokenizer reads
each piece as itself, the parser turns the pieces of one command into that command, and
an induction over the commands composes them.
-/

namespace SecureZ
namespace Shell

open CLib

section Grammar

/-- A byte that the shell reads as itself. -/
def isPlainByte (b : UInt8) : Bool :=
  !(endsWord b || (ascii "'\"\\$").contains b)

/-- A word without quoting. -/
structure PlainWord where
  text : CString
  nonempty : text.bytes ≠ []
  short : text.strlen < maxLineLength
  plain : ∀ b ∈ text.bytes, isPlainByte b = true

/-- The streams that can be redirected. -/
inductive Stream
  | stdin
  | stdout
  | stderr
deriving DecidableEq

/-- A redirection to a plain word. -/
inductive Redirection
  /-- `< file`. -/
  | input (file : PlainWord)
  /-- `> file`, or `>> file` to append. -/
  | output (file : PlainWord) (append : Bool)
  /-- `2> file`. -/
  | errors (file : PlainWord)

namespace Redirection

/-- The stream that is redirected. -/
def stream : Redirection → Stream
  | .input _ => .stdin
  | .output _ _ => .stdout
  | .errors _ => .stderr

/-- The operator. -/
def operator : Redirection → Bytes
  | .input _ => ascii "<"
  | .output _ false => ascii ">"
  | .output _ true => ascii ">>"
  | .errors _ => ascii "2>"

/-- The file. -/
def file : Redirection → PlainWord
  | .input file => file
  | .output file _ => file
  | .errors file => file

/-- Whether the file is appended to. -/
def append : Redirection → Bool
  | .output _ append => append
  | _ => false

end Redirection

/-- A command: its words, then redirections of different streams in any order, then an
optional `&`. -/
structure PlainCommand where
  words : List PlainWord
  nonempty : words ≠ []
  redirections : List Redirection
  distinct : redirections.Pairwise fun r r' => r.stream ≠ r'.stream
  background : Bool

/-- The tokens of a command. -/
def PlainCommand.pieces (c : PlainCommand) : List Bytes :=
  c.words.map (fun w => w.text.bytes) ++
    c.redirections.flatMap (fun r => [r.operator, r.file.text.bytes]) ++
    if c.background then [ascii "&"] else []

/-- The tokens of commands with pipes between them. -/
def pipedPieces (cs : List PlainCommand) : List Bytes :=
  List.intercalate [ascii "|"] (cs.map PlainCommand.pieces)

/-- A pipeline that the parser has room for, and that is no comment. -/
structure PlainPipeline where
  commands : List PlainCommand
  nonempty : commands ≠ []
  segments_le : commands.length ≤ maxPipeSegments
  tokens_le : (pipedPieces commands).length ≤ maxArgs - 1
  not_comment :
    ∀ c ∈ commands.head?, ∀ w ∈ c.words.head?, w.text.bytes.head? ≠ some (byte '#')

end Grammar

section Meaning

/-- The file that a stream is redirected to. -/
def fileOf (rs : List Redirection) (s : Stream) : Option Bytes :=
  (rs.find? fun r => r.stream = s).map fun r => r.file.text.bytes

/-- Whether a stream is redirected to the end of a file. -/
def appends (rs : List Redirection) (s : Stream) : Bool :=
  ((rs.find? fun r => r.stream = s).map Redirection.append).getD false

/-- The redirection record of a command. -/
def PlainCommand.redirect (c : PlainCommand) : Redirect where
  stdinFile := fileOf c.redirections .stdin
  stdoutFile := fileOf c.redirections .stdout
  stderrFile := fileOf c.redirections .stderr
  stdoutAppend := appends c.redirections .stdout
  stderrAppend := false

/-- The command as the parser should return it: `argv` ends with a null pointer. -/
def PlainCommand.command (c : PlainCommand) : Command where
  argv := fun j => (c.words[j]?).map fun w => w.text.bytes
  argc := c.words.length
  redir := c.redirect
  background := c.background

/-- The pipeline as the parser should return it; the slots behind it are zero. -/
def PlainPipeline.pipeline (p : PlainPipeline) : Pipeline where
  commands := fun i => ((p.commands[i]?).map PlainCommand.command).getD .zero
  count := p.commands.length

end Meaning

section Pieces

theorem putByte_of_lt
    {token : Bytes}
    (h : token.length < maxLineLength - 1)
    (b : UInt8) :
    putByte token b = token ++ [b] := by
  simp [putByte, h]

/-- What a plain byte is not. -/
theorem isPlainByte_spec
    {b : UInt8}
    (h : isPlainByte b = true) :
    endsWord b = false ∧ b ≠ byte '\'' ∧ b ≠ byte '"' ∧ b ≠ byte '\\' ∧ b ≠ byte '$' := by
  simp only [isPlainByte, Bool.not_eq_true', Bool.or_eq_false_iff] at h
  obtain ⟨hends, hquotes⟩ := h
  have hnot : ∀ c ∈ ascii "'\"\\$", b ≠ c := by
    rintro c hc rfl
    simp [hc] at hquotes
  exact ⟨hends, hnot _ (by decide), hnot _ (by decide), hnot _ (by decide), hnot _ (by decide)⟩

theorem readWord_plain_cons
    {b : UInt8}
    (hb : isPlainByte b = true)
    (token p : Bytes) :
    readWord token (b :: p) = readWord (putByte token b) p := by
  obtain ⟨hends, -, -, hslash, -⟩ := isPlainByte_spec hb
  cases p with
  | nil => simp [readWord, hends]
  | cons c p => simp [readWord, hends, hslash]

/-- A word ends in front of a space and at the end of the line. -/
theorem readWord_end
    {rest : Bytes}
    (hrest : rest.head?.getD (byte ' ') = byte ' ')
    (token : Bytes) :
    readWord token rest = (token, rest) := by
  cases rest with
  | nil =>
      rfl
  | cons b rest =>
      obtain rfl : b = byte ' ' := hrest
      have hends : endsWord (byte ' ') = true := rfl
      cases rest with
      | nil => simp [readWord, hends]
      | cons c rest => simp [readWord, hends]

/-- A plain word is copied to its end. -/
theorem readWord_plain
    {token w rest : Bytes}
    (hplain : ∀ b ∈ w, isPlainByte b = true)
    (hlen : token.length + w.length < maxLineLength)
    (hrest : rest.head?.getD (byte ' ') = byte ' ') :
    readWord token (w ++ rest) = (token ++ w, rest) := by
  induction w generalizing token with
  | nil =>
      simpa using readWord_end hrest token
  | cons b w ih =>
      rw [List.forall_mem_cons] at hplain
      rw [List.length_cons] at hlen
      have hput : putByte token b = token ++ [b] := putByte_of_lt (by omega) b
      rw [List.cons_append, readWord_plain_cons hplain.1, hput,
        ih hplain.2 (by simp only [List.length_append, List.length_singleton]; omega)]
      simp

/-- A plain word is read as itself. -/
theorem readsAs_word
    (w : PlainWord) :
    ReadsAs w.text.bytes w.text.bytes := by
  obtain ⟨b, bs, hw⟩ := List.exists_cons_of_ne_nil w.nonempty
  have hplain := w.plain
  have hshort : w.text.bytes.length < maxLineLength := w.short
  rw [hw] at hplain hshort ⊢
  obtain ⟨hends, hquote, hdouble, -, -⟩ := isPlainByte_spec (hplain b (by simp))
  have hclass := hends
  simp only [endsWord, Bool.or_eq_false_iff, beq_eq_false_iff_ne] at hclass
  obtain ⟨⟨⟨⟨⟨hspace, hpipe⟩, hamp⟩, hsemi⟩, hgt⟩, hlt⟩ := hclass
  refine ⟨fun rest => ?_, by simp, fun rest hrest => ?_⟩
  · rw [List.cons_append, List.dropWhile_cons_of_neg (by simp [hspace])]
  · have hnext : (bs ++ rest).head? ≠ some (byte '>') := by
      intro hhead
      cases bs with
      | nil =>
          rw [List.nil_append] at hhead
          rw [hhead] at hrest
          exact absurd hrest (by decide)
      | cons c bs =>
          obtain rfl : c = byte '>' := by simpa using hhead
          exact absurd (isPlainByte_spec (hplain (byte '>') (by simp))).1 (by decide)
    rw [List.cons_append]
    simp only [nextToken, hquote, hdouble, hpipe, hamp, hsemi, hgt, hlt, hnext, and_false,
      or_self, if_false]
    rw [← List.cons_append]
    exact readWord_plain hplain (by simpa using hshort) hrest

/-- Neither a space nor the end of the line continues an operator. -/
theorem head_ne_of_space
    {rest : Bytes}
    (hrest : rest.head?.getD (byte ' ') = byte ' ') :
    rest.head? ≠ some (byte '>') := by
  intro hhead
  rw [hhead] at hrest
  exact absurd hrest (by decide)

/-- The operators are read as themselves. -/
theorem readsAs_operator
    {op : Bytes}
    (h : op ∈ operators) :
    ReadsAs op op := by
  have hstarts :
      ∀ b : UInt8, isSpace b = false →
        ∀ p : Bytes, (b :: p).dropWhile isSpace = b :: p :=
    fun b hb p => List.dropWhile_cons_of_neg (by simp [hb])
  simp only [operators, List.mem_cons, List.not_mem_nil, or_false] at h
  rcases h with rfl | rfl | rfl | rfl | rfl | rfl
  · exact ⟨fun rest => hstarts (byte '|') rfl rest, by decide, fun rest _ => rfl⟩
  · exact ⟨fun rest => hstarts (byte '&') rfl rest, by decide, fun rest _ => rfl⟩
  · exact ⟨fun rest => hstarts (byte '<') rfl rest, by decide, fun rest _ => rfl⟩
  · refine ⟨fun rest => hstarts (byte '>') rfl rest, by decide, fun rest hrest => ?_⟩
    have hnext := head_ne_of_space hrest
    have hread : nextToken (byte '>' :: rest) = ([byte '>'], rest) := by
      have hclass :
          byte '>' ≠ byte '\'' ∧ byte '>' ≠ byte '"' ∧ byte '>' ≠ byte '|' ∧
            byte '>' ≠ byte '&' ∧ byte '>' ≠ byte ';' ∧ byte '>' ≠ byte '2' := by decide
      simp [nextToken, hnext, hclass]
    exact hread
  · exact ⟨fun rest => hstarts (byte '>') rfl _, by decide, fun rest _ => rfl⟩
  · exact ⟨fun rest => hstarts (byte '2') rfl _, by decide, fun rest _ => rfl⟩

/-- Pieces that are words and operators are read as they are. -/
theorem tokenize_spaced
    {pieces : List Bytes}
    (hreads : ∀ piece ∈ pieces, ReadsAs piece piece)
    (hlen : pieces.length ≤ maxArgs - 1)
    {line : CString}
    (hline : line.bytes = spaced pieces) :
    tokenize line = pieces := by
  have hpairs : List.Forall₂ ReadsAs pieces pieces :=
    List.forall₂_same.mpr hreads
  have hall : pieces.filter (fun tok => tok ≠ []) = pieces := by
    rw [List.filter_eq_self]
    intro piece hpiece
    simpa using (hreads piece hpiece).nonempty
  rw [tokenize, hline, tokensOf_spaced hpairs, hall, List.take_of_length_le hlen]

end Pieces

section Parsing

/-- A plain word is not taken for an operator, and is not expanded. -/
theorem plainWord_spec
    (w : PlainWord) :
    w.text.bytes ∉ operators ∧ ∀ env, expandVariables env w.text.bytes = w.text.bytes := by
  have hnot : ∀ b ∈ w.text.bytes, endsWord b = false ∧ b ≠ byte '$' := by
    intro b hb
    obtain ⟨hends, -, -, -, hdollar⟩ := isPlainByte_spec (w.plain b hb)
    exact ⟨hends, hdollar⟩
  constructor
  · intro hmem
    have hbad : ∀ op ∈ operators, ∃ b ∈ op, endsWord b = true := by decide
    obtain ⟨b, hb, hends⟩ := hbad _ hmem
    rw [(hnot b hb).1] at hends
    exact Bool.false_ne_true hends
  · exact fun env => expandVariables_of_not_mem (fun hmem => (hnot _ hmem).2 rfl) env

/-- What a redirection does to the record. -/
def Redirection.set (r : Redirection) (file : Bytes) (redir : Redirect) : Redirect :=
  match r with
  | .input _ => { redir with stdinFile := some file }
  | .output _ append => { redir with stdoutFile := some file, stdoutAppend := append }
  | .errors _ => { redir with stderrFile := some file, stderrAppend := false }

theorem redirection_operator
    (r : Redirection) :
    redirection r.operator = some r.set := by
  cases r with
  | input file => rfl
  | output file append => cases append <;> rfl
  | errors file => rfl

/-- Redirections in a row go to the current command. -/
theorem parseTokens_redirections
    (env : Environment) (rs : List Redirection) (rest : List Bytes) (b : Building) :
    parseTokens env
        (rs.flatMap (fun r => [r.operator, r.file.text.bytes]) ++ rest) b =
      parseTokens env rest
        (b.update fun c =>
          { c with redir := rs.foldl (fun redir r => r.set r.file.text.bytes redir) c.redir }) := by
  induction rs generalizing b with
  | nil =>
      simp [Building.update]
  | cons r rs ih =>
      simp only [List.flatMap_cons, List.cons_append, List.nil_append]
      rw [parseTokens_redirect (redirection_operator r), (plainWord_spec r.file).2, ih,
        update_update]
      rfl

theorem fileOf_cons
    (r : Redirection) (rs : List Redirection) (s : Stream) :
    fileOf (r :: rs) s = if r.stream = s then some r.file.text.bytes else fileOf rs s := by
  by_cases h : r.stream = s <;> simp [fileOf, h]

theorem appends_cons
    (r : Redirection) (rs : List Redirection) (s : Stream) :
    appends (r :: rs) s = if r.stream = s then r.append else appends rs s := by
  by_cases h : r.stream = s <;> simp [appends, h]

theorem fileOf_eq_none
    {rs : List Redirection} {s : Stream}
    (h : ∀ r ∈ rs, s ≠ r.stream) :
    fileOf rs s = none := by
  rw [fileOf, Option.map_eq_none_iff, List.find?_eq_none]
  intro r hr
  simpa using (h r hr).symm

/-- Redirections of different streams leave each stream what is meant for it. -/
theorem foldl_set
    {rs : List Redirection}
    (h : rs.Pairwise fun r r' => r.stream ≠ r'.stream)
    (redir : Redirect) :
    rs.foldl (fun redir r => r.set r.file.text.bytes redir) redir =
      { stdinFile := (fileOf rs .stdin).or redir.stdinFile
        stdoutFile := (fileOf rs .stdout).or redir.stdoutFile
        stderrFile := (fileOf rs .stderr).or redir.stderrFile
        stdoutAppend :=
          if (fileOf rs .stdout).isSome then appends rs .stdout else redir.stdoutAppend
        stderrAppend :=
          if (fileOf rs .stderr).isSome then false else redir.stderrAppend } := by
  induction rs generalizing redir with
  | nil =>
      simp [fileOf]
  | cons r rs ih =>
      rw [List.pairwise_cons] at h
      have hrest := fileOf_eq_none h.1
      rw [List.foldl_cons, ih h.2]
      cases r with
      | input file =>
          simp only [Redirection.stream] at hrest
          simp [fileOf_cons, appends_cons, Redirection.stream, Redirection.set, hrest,
            Redirection.file]
      | output file append =>
          simp only [Redirection.stream] at hrest
          simp [fileOf_cons, appends_cons, Redirection.stream, Redirection.set, hrest,
            Redirection.file, Redirection.append]
      | errors file =>
          simp only [Redirection.stream] at hrest
          simp [fileOf_cons, appends_cons, Redirection.stream, Redirection.set, hrest,
            Redirection.file]

/-- The redirections of a command in an empty record. -/
theorem foldl_set_zero
    (c : PlainCommand) :
    c.redirections.foldl (fun redir r => r.set r.file.text.bytes redir) .zero = c.redirect := by
  rw [foldl_set c.distinct]
  have happend :
      fileOf c.redirections .stdout = none → appends c.redirections .stdout = false := by
    intro h
    rw [fileOf, Option.map_eq_none_iff] at h
    simp [appends, h]
  simp only [PlainCommand.redirect, Redirect.zero, Option.or_none]
  cases hfile : fileOf c.redirections .stdout with
  | none => simp [happend hfile]
  | some file => simp

/-- The tokens of a command turn an empty command into that command. -/
theorem parseTokens_pieces
    (env : Environment) (c : PlainCommand) (rest : List Bytes)
    {b : Building}
    (hzero : b.commands b.cmd = .zero) :
    parseTokens env (c.pieces ++ rest) b =
      parseTokens env rest (b.update fun _ => c.command) := by
  have hwords : ∀ tok ∈ c.words.map (fun w => w.text.bytes), tok ∉ operators := by
    intro tok htok
    obtain ⟨w, -, rfl⟩ := List.mem_map.mp htok
    exact (plainWord_spec w).1
  have hexpand :
      (c.words.map fun w => w.text.bytes).map (expandVariables env) =
        c.words.map fun w => w.text.bytes := by
    rw [List.map_map]
    exact List.map_congr_left fun w _ => (plainWord_spec w).2 env
  have hcommand :
      { ((c.words.map fun w => w.text.bytes).foldl Command.pushArg .zero) with
        redir := c.redirect, background := c.background } = c.command := by
    rw [foldl_pushArg_zero]
    simp [Command.withArgs, PlainCommand.command]
  rw [PlainCommand.pieces, List.append_assoc, List.append_assoc,
    parseTokens_arguments hwords, hexpand, parseTokens_redirections, update_update]
  rw [← hcommand]
  cases hbg : c.background with
  | false =>
      simp only [Bool.false_eq_true, if_false, List.nil_append]
      congr 1
      apply update_congr
      rw [hzero, foldl_pushArg_zero]
      simp only [Command.withArgs, foldl_set_zero]
  | true =>
      simp only [if_true, List.cons_append, List.nil_append]
      rw [parseTokens_background, update_update]
      congr 1
      apply update_congr
      rw [hzero, foldl_pushArg_zero]
      simp only [Command.withArgs, foldl_set_zero, Command.setBackground]

/-- The null pointer behind the arguments of a command is there already. -/
theorem terminate_command
    (c : PlainCommand) :
    c.command.terminate = c.command := by
  simp [Command.terminate, PlainCommand.command, Function.update_eq_self_iff]

theorem pipedPieces_cons_cons
    (c d : PlainCommand) (cs : List PlainCommand) :
    pipedPieces (c :: d :: cs) = c.pieces ++ ascii "|" :: pipedPieces (d :: cs) := by
  simp [pipedPieces, List.intercalate]

/-- The segments from an index on, filled with commands, in front of what is there. -/
def segmentsFrom (start : Nat) (before : Nat → Command) (cs : List PlainCommand) :
    Nat → Command :=
  fun i => if i < start then before i
    else ((cs[i - start]?).map PlainCommand.command).getD .zero

/-- A last command fills its segment. -/
theorem segmentsFrom_singleton
    {start : Nat} {before : Nat → Command}
    (hzero : ∀ i, start ≤ i → before i = .zero)
    (c : PlainCommand) :
    segmentsFrom start before [c] =
      fun i => if i = start then c.command else before i := by
  funext i
  simp only [segmentsFrom]
  rcases Nat.lt_trichotomy i start with hi | rfl | hi
  · rw [if_pos hi, if_neg hi.ne]
  · simp
  · have hbehind : [c][i - start]? = none := by
      rw [List.getElem?_eq_none]
      simp only [List.length_singleton]
      omega
    rw [if_neg (by omega), if_neg (by omega), hbehind, hzero i hi.le]
    rfl

/-- A first command fills its segment, and the others those behind it. -/
theorem segmentsFrom_cons
    (start : Nat) (before : Nat → Command) (c : PlainCommand) (cs : List PlainCommand) :
    segmentsFrom start before (c :: cs) =
      segmentsFrom (start + 1) (fun i => if i = start then c.command else before i) cs := by
  funext i
  simp only [segmentsFrom]
  rcases Nat.lt_trichotomy i start with hi | rfl | hi
  · rw [if_pos hi, if_pos (by omega), if_neg hi.ne]
  · simp
  · obtain ⟨k, rfl⟩ := Nat.exists_eq_add_of_lt hi
    have hk : start + k + 1 - (start + 1) = k := by omega
    have hk' : start + k + 1 - start = k + 1 := by omega
    rw [if_neg (by omega), if_neg (by omega), hk, hk', List.getElem?_cons_succ]

/-- The commands when the parser goes on to the next segment. -/
theorem commands_update_nextCommand
    {b : Building}
    (hcmd : b.cmd = b.cmdIdx)
    (hzero : ∀ i, b.cmdIdx ≤ i → b.commands i = .zero)
    (command : Command) :
    ((b.update fun _ => command).nextCommand).commands =
      fun i => if i = b.cmdIdx then command else b.commands i := by
  funext i
  simp only [Building.nextCommand, Building.update, hcmd]
  by_cases hi : i = b.cmdIdx + 1
  · simp [hi, hzero]
  · by_cases hi' : i = b.cmdIdx <;> simp [hi, hi']

/-- The tokens of commands fill the segments from the current one on. -/
theorem parseTokens_pipedPieces
    (env : Environment)
    {c : PlainCommand} {cs : List PlainCommand} {b : Building}
    (hcmd : b.cmd = b.cmdIdx)
    (hroom : b.cmdIdx + (c :: cs).length ≤ maxPipeSegments)
    (hzero : ∀ i, b.cmdIdx ≤ i → b.commands i = .zero) :
    (parseTokens env (pipedPieces (c :: cs)) b).finish =
      { commands := fun i =>
          if i < b.cmdIdx then b.commands i
          else (((c :: cs)[i - b.cmdIdx]?).map PlainCommand.command).getD .zero
        count := b.cmdIdx + (c :: cs).length } := by
  change _ = Pipeline.mk (segmentsFrom b.cmdIdx b.commands (c :: cs)) _
  induction cs generalizing c b with
  | nil =>
      have hpieces : pipedPieces [c] = c.pieces ++ [] := by
        simp [pipedPieces, List.intercalate]
      rw [hpieces, parseTokens_pieces env c [] (hzero _ hcmd.ge), parseTokens,
        segmentsFrom_singleton hzero]
      simp only [Building.finish, update_update, terminate_command, update_cmdIdx,
        List.length_singleton, Pipeline.mk.injEq, and_true]
      funext i
      simp only [Building.update, hcmd, Function.update_apply]
  | cons d cs ih =>
      have hnext := commands_update_nextCommand hcmd hzero c.command
      have hidx : ((b.update fun _ => c.command).nextCommand).cmdIdx = b.cmdIdx + 1 := rfl
      simp only [List.length_cons] at hroom
      rw [pipedPieces_cons_cons, parseTokens_pieces env c _ (hzero _ hcmd.ge),
        parseTokens_pipe (by simp only [update_cmdIdx]; omega), update_update]
      simp only [terminate_command]
      rw [ih rfl (by rw [hidx, List.length_cons]; omega), hnext, hidx,
        segmentsFrom_cons b.cmdIdx]
      · simp only [List.length_cons, Pipeline.mk.injEq, true_and]
        omega
      · intro i hi
        rw [hidx] at hi
        rw [hnext]
        dsimp only
        rw [if_neg (by omega), hzero i (by omega)]

end Parsing

section RoundTrip

theorem operator_mem_operators
    (r : Redirection) :
    r.operator ∈ operators := by
  cases r with
  | input file => simp [Redirection.operator, operators]
  | output file append => cases append <;> simp [Redirection.operator, operators]
  | errors file => simp [Redirection.operator, operators]

/-- The pieces of a command are its words and operators. -/
theorem forall_pieces
    {P : Bytes → Prop}
    (hword : ∀ w : PlainWord, P w.text.bytes)
    (hop : ∀ op ∈ operators, P op)
    (c : PlainCommand) :
    ∀ piece ∈ c.pieces, P piece := by
  intro piece hpiece
  simp only [PlainCommand.pieces, List.mem_append, List.mem_map, List.mem_flatMap] at hpiece
  rcases hpiece with (⟨w, -, rfl⟩ | ⟨r, -, hr⟩) | hbg
  · exact hword w
  · simp only [List.mem_cons, List.not_mem_nil, or_false] at hr
    rcases hr with rfl | rfl
    · exact hop _ (operator_mem_operators r)
    · exact hword r.file
  · split_ifs at hbg
    · obtain rfl := List.mem_singleton.mp hbg
      exact hop _ (by decide)
    · simp at hbg

/-- The pieces of a pipeline are words and operators. -/
theorem forall_pipedPieces
    {P : Bytes → Prop}
    (hword : ∀ w : PlainWord, P w.text.bytes)
    (hop : ∀ op ∈ operators, P op)
    (cs : List PlainCommand) :
    ∀ piece ∈ pipedPieces cs, P piece := by
  induction cs with
  | nil =>
      simp [pipedPieces, List.intercalate]
  | cons c cs ih =>
      cases cs with
      | nil =>
          simpa [pipedPieces, List.intercalate] using forall_pieces hword hop c
      | cons d cs =>
          rw [pipedPieces_cons_cons]
          exact List.forall_mem_append.mpr ⟨forall_pieces hword hop c,
            List.forall_mem_cons.mpr ⟨hop _ (by decide), ih⟩⟩

/-- The text of a pipeline. -/
def PlainPipeline.text (p : PlainPipeline) : CString where
  bytes := spaced (pipedPieces p.commands)
  nulFree := by
    refine not_mem_spaced (by decide) ?_
    exact forall_pipedPieces (fun w => w.text.nulFree) (by decide) p.commands

/-- The first piece is the first word of the first command. -/
theorem pipedPieces_cons
    (c : PlainCommand) (cs : List PlainCommand) :
    ∃ w rest, c.words.head? = some w ∧ pipedPieces (c :: cs) = w.text.bytes :: rest := by
  obtain ⟨w, ws, hw⟩ := List.exists_cons_of_ne_nil c.nonempty
  obtain ⟨rest, hpieces⟩ : ∃ rest, c.pieces = w.text.bytes :: rest := by
    rw [PlainCommand.pieces, hw]
    exact ⟨_, rfl⟩
  cases cs with
  | nil =>
      refine ⟨w, rest, by simp [hw], ?_⟩
      simp [pipedPieces, List.intercalate, hpieces]
  | cons d cs =>
      refine ⟨w, rest ++ ascii "|" :: pipedPieces (d :: cs), by simp [hw], ?_⟩
      rw [pipedPieces_cons_cons, hpieces, List.cons_append]

/-- The text of a pipeline is neither empty nor a comment. -/
theorem text_head
    (p : PlainPipeline) :
    ∃ b, p.text.bytes.head? = some b ∧ b ≠ byte '#' := by
  obtain ⟨c, cs, hcs⟩ := List.exists_cons_of_ne_nil p.nonempty
  obtain ⟨w, rest, hw, hpieces⟩ := pipedPieces_cons c cs
  obtain ⟨b, bs, hb⟩ := List.exists_cons_of_ne_nil w.nonempty
  have hhash : w.text.bytes.head? ≠ some (byte '#') :=
    p.not_comment c (by simp [hcs]) w (by simp [hw])
  refine ⟨b, ?_, by simpa [hb] using hhash⟩
  simp only [PlainPipeline.text]
  rw [hcs, hpieces, spaced_cons, hb, List.cons_append, List.head?_cons]

/--
**Parsing undoes printing.**  The parser gives back every pipeline of plain commands from
its text, whatever the environment.
-/
theorem parseLine_text
    (env : Environment) (p : PlainPipeline) :
    parseLine env p.text = p.pipeline := by
  have htokens : tokenize p.text = pipedPieces p.commands :=
    tokenize_spaced (forall_pipedPieces readsAs_word (fun _ => readsAs_operator) p.commands)
      p.tokens_le rfl
  obtain ⟨c, cs, hcs⟩ := List.exists_cons_of_ne_nil p.nonempty
  obtain ⟨w, rest, -, hpieces⟩ := pipedPieces_cons c cs
  have hne : pipedPieces p.commands ≠ [] := by
    simp [hcs, hpieces]
  have hroom : Building.start.cmdIdx + (c :: cs).length ≤ maxPipeSegments := by
    simpa [Building.start, hcs] using p.segments_le
  have hparse := parseTokens_pipedPieces env rfl hroom (fun _ _ => rfl)
  obtain ⟨b, hhead, hb⟩ := text_head p
  rw [parseLine_of_head hhead hb, htokens, if_neg hne, hcs, hparse]
  simp [Building.start, PlainPipeline.pipeline, hcs]

end RoundTrip

section Examples

/-- `sort -r < in 2> err`. -/
def sortCommand : PlainCommand where
  words :=
    [⟨cstr (ascii "sort"), by decide, by decide, by decide +kernel⟩,
      ⟨cstr (ascii "-r"), by decide, by decide, by decide +kernel⟩]
  nonempty := by simp
  redirections :=
    [.input ⟨cstr (ascii "in"), by decide, by decide, by decide +kernel⟩,
      .errors ⟨cstr (ascii "err"), by decide, by decide, by decide +kernel⟩]
  distinct := by simp [Redirection.stream]
  background := false

/-- `head >> out &`. -/
def headCommand : PlainCommand where
  words := [⟨cstr (ascii "head"), by decide, by decide, by decide +kernel⟩]
  nonempty := by simp
  redirections := [.output ⟨cstr (ascii "out"), by decide, by decide, by decide +kernel⟩ true]
  distinct := by simp
  background := true

/-- The first of them piped into the second. -/
def samplePipeline : PlainPipeline where
  commands := [sortCommand, headCommand]
  nonempty := by simp
  segments_le := by decide
  tokens_le := by decide
  not_comment := by decide

/-- Both commands come back from the text, with their redirections and the `&`. -/
theorem sample_pipeline_parsed :
    parseLine (fun _ => none) (cstr (ascii "sort -r < in 2> err | head >> out &")) =
        samplePipeline.pipeline ∧
      samplePipeline.pipeline.count = 2 ∧
      (samplePipeline.pipeline.commands 0).redir.stderrFile = some (ascii "err") ∧
      (samplePipeline.pipeline.commands 1).redir.stdoutAppend = true ∧
      (samplePipeline.pipeline.commands 1).background = true := by
  have htext : cstr (ascii "sort -r < in 2> err | head >> out &") = samplePipeline.text := by
    decide +kernel
  rw [htext]
  exact ⟨parseLine_text (fun _ => none) samplePipeline, rfl, by decide, by decide, by decide⟩

end Examples

end Shell
end SecureZ
