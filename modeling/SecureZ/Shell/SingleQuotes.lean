import SecureZ.Shell.Parser
import Mathlib.Data.List.Forall2

/-!
# Single quotes

`tokenize` copies the text between two single quotes as it stands, with the comment "no
expansion".  The token does not remember that it was quoted: an empty one is dropped, one
that reads like an operator acts as that operator, and every token is expanded.

This file says exactly which lists of quoted arguments come back as they were written.
-/

namespace SecureZ
namespace Shell

open CLib

section Lines

/-- A text that can stand between single quotes. -/
structure QuotableText where
  text : CString
  quoteFree : byte '\'' ∉ text.bytes
  short : text.strlen < maxLineLength

/-- The text in single quotes. -/
def QuotableText.quoted (a : QuotableText) : Bytes :=
  byte '\'' :: (a.text.bytes ++ [byte '\''])

/-- As many arguments as the parser has room for, and at least one. -/
structure QuotableArgs where
  args : List QuotableText
  nonempty : args ≠ []
  length_le : args.length ≤ maxArgs - 1

/-- The arguments as they are meant. -/
def QuotableArgs.texts (l : QuotableArgs) : List Bytes :=
  l.args.map fun a => a.text.bytes

/-- The arguments that are not empty. -/
def QuotableArgs.tokens (l : QuotableArgs) : List Bytes :=
  l.texts.filter fun tok => tok ≠ []

/-- The line in which each argument stands in single quotes. -/
def QuotableArgs.line (l : QuotableArgs) : CString where
  bytes := spaced (l.args.map QuotableText.quoted)
  nulFree := by
    refine not_mem_spaced (by decide) ?_
    intro piece hpiece
    obtain ⟨a, -, rfl⟩ := List.mem_map.mp hpiece
    have hquote : (0 : UInt8) ≠ byte '\'' := by decide
    simp [QuotableText.quoted, hquote, a.text.nulFree]

/-- The line is parsed to one command with these arguments, not redirected and not in the
background. -/
structure ReadLiterally (env : Environment) (l : QuotableArgs) : Prop where
  one : (parseLine env l.line).count = 1
  command : (parseLine env l.line).commands 0 = .withArgs l.texts

end Lines

section Reading

/-- The loop inside single quotes copies up to the closing quote. -/
theorem readSingle_quoted
    {token text : Bytes}
    (hquote : byte '\'' ∉ text)
    (hlen : token.length + text.length < maxLineLength)
    (rest : Bytes) :
    readSingle token (text ++ byte '\'' :: rest) = (token ++ text, rest) := by
  induction text generalizing token with
  | nil =>
      simp [readSingle]
  | cons b text ih =>
      simp only [List.mem_cons, not_or] at hquote
      rw [List.length_cons] at hlen
      have hput : putByte token b = token ++ [b] := by
        rw [putByte, if_pos (by omega)]
      rw [List.cons_append, readSingle, if_neg (Ne.symm hquote.1), hput,
        ih hquote.2 (by simp only [List.length_append, List.length_singleton]; omega)]
      simp

theorem readsAs_quoted
    (a : QuotableText) :
    ReadsAs a.quoted a.text.bytes := by
  have hspace : isSpace (byte '\'') = false := rfl
  refine ⟨fun rest => ?_, by simp [QuotableText.quoted], fun rest _ => ?_⟩
  · rw [QuotableText.quoted, List.cons_append, List.dropWhile_cons_of_neg (by simp [hspace])]
  · have hshort : ([] : Bytes).length + a.text.bytes.length < maxLineLength := by
      rw [List.length_nil, Nat.zero_add]
      exact a.short
    simp only [QuotableText.quoted, List.cons_append, List.append_assoc, List.nil_append,
      nextToken, if_true]
    simpa using readSingle_quoted a.quoteFree hshort rest

/-- The tokens of the line are the arguments that are not empty. -/
theorem tokenize_line
    (l : QuotableArgs) :
    tokenize l.line = l.tokens := by
  have hpairs :
      List.Forall₂ ReadsAs (l.args.map QuotableText.quoted) l.texts := by
    rw [QuotableArgs.texts, List.forall₂_map_left_iff, List.forall₂_map_right_iff]
    exact List.forall₂_same.mpr fun a _ => readsAs_quoted a
  have hlen : l.tokens.length ≤ maxArgs - 1 := by
    refine (List.length_filter_le _ _).trans ?_
    simpa [QuotableArgs.texts] using l.length_le
  rw [tokenize, QuotableArgs.line, tokensOf_spaced hpairs]
  exact List.take_of_length_le hlen

/-- Parsing such a line, from its tokens on. -/
theorem parseLine_line
    (env : Environment) (l : QuotableArgs) :
    parseLine env l.line =
      if l.tokens = [] then .zero else (parseTokens env l.tokens .start).finish := by
  have hhead : l.line.bytes.head? = some (byte '\'') := by
    obtain ⟨a, as, hargs⟩ := List.exists_cons_of_ne_nil l.nonempty
    simp only [QuotableArgs.line]
    rw [hargs, List.map_cons, spaced_cons, QuotableText.quoted, List.cons_append,
      List.head?_cons]
  rw [parseLine_of_head hhead (by decide), tokenize_line]

end Reading

section Counting

/--
Within one command, the loop stores an argument for each token at most, and exactly that
many only if no token is an operator.
-/
theorem argc_parseTokens
    (env : Environment) (toks : List Bytes)
    {b : Building}
    (hlimit : b.cmdIdx < maxPipeSegments)
    (hidx : (parseTokens env toks b).cmdIdx = b.cmdIdx) :
    ((parseTokens env toks b).commands b.cmd).argc ≤ (b.commands b.cmd).argc + toks.length ∧
      (((parseTokens env toks b).commands b.cmd).argc =
          (b.commands b.cmd).argc + toks.length →
        ∀ tok ∈ toks, tok ∉ operators) := by
  fun_induction parseTokens env toks b with
  | case1 b =>
      simp
  | case2 rest b hbreak =>
      exact absurd hidx (Nat.succ_ne_self _)
  | case3 rest b hbreak ih =>
      have hnext : (b.update Command.terminate).nextCommand.cmdIdx = b.cmdIdx + 1 := rfl
      have hcount := cmdIdx_parseTokens env rest
        (b := (b.update Command.terminate).nextCommand) (by omega)
      omega
  | case4 rest b hne ih =>
      have hbg : ((b.update Command.setBackground).commands b.cmd).argc =
          (b.commands b.cmd).argc := by
        rw [update_commands_cmd]
        rfl
      obtain ⟨hle, -⟩ := ih hlimit hidx
      simp only [update_cmd, hbg] at hle
      rw [List.length_cons]
      exact ⟨by omega, fun h => by omega⟩
  | case5 tok b hpipe hbg set hset =>
      simp
  | case6 tok b hpipe hbg set file rest hset ih =>
      have hredir : ((b.update (Command.redirect set (expandVariables env file))).commands
          b.cmd).argc = (b.commands b.cmd).argc := by
        rw [update_commands_cmd]
        rfl
      obtain ⟨hle, -⟩ := ih hlimit hidx
      simp only [update_cmd, hredir] at hle
      rw [List.length_cons, List.length_cons]
      exact ⟨by omega, fun h => by omega⟩
  | case7 tok b hpipe hbg rest hset ih =>
      have hpush : ((b.update fun c => c.pushArg (expandVariables env tok)).commands
          b.cmd).argc = (b.commands b.cmd).argc + 1 := by
        rw [update_commands_cmd]
        rfl
      have htok : tok ∉ operators := by
        simp only [operators, List.mem_cons, List.not_mem_nil, or_false, not_or]
        exact ⟨hpipe, hbg, redirection_eq_none_iff.mp hset⟩
      obtain ⟨hle, hall⟩ := ih hlimit hidx
      simp only [update_cmd, hpush] at hle hall
      rw [List.length_cons]
      exact ⟨by omega, fun h => List.forall_mem_cons.mpr ⟨htok, hall (by omega)⟩⟩

/-- The end of `parse_line` stores no argument. -/
theorem argc_finish
    (b : Building) (i : Nat) :
    (b.finish.commands i).argc = (b.commands i).argc := by
  simp only [Building.finish]
  by_cases hi : i = b.cmd
  · subst hi
    rw [update_commands_cmd]
    rfl
  · rw [update_commands_of_ne hi]

end Counting

section Literal

/-- A command determines its arguments. -/
theorem withArgs_injective
    {xs ys : List Bytes}
    (h : Command.withArgs xs = .withArgs ys) :
    xs = ys := by
  apply List.ext_getElem?
  intro j
  exact congrFun (congrArg Command.argv h) j

/-- Arguments that are not empty and no operators are expanded and stored. -/
theorem parseLine_line_of_arguments
    {l : QuotableArgs}
    (hne : ∀ tok ∈ l.texts, tok ≠ [])
    (hops : ∀ tok ∈ l.texts, tok ∉ operators)
    (env : Environment) :
    (parseLine env l.line).count = 1 ∧
      (parseLine env l.line).commands 0 = .withArgs (l.texts.map (expandVariables env)) := by
  have htokens : l.tokens = l.texts := by
    rw [QuotableArgs.tokens, List.filter_eq_self]
    intro tok htok
    simpa using hne tok htok
  have htexts : l.texts ≠ [] := by
    simpa [QuotableArgs.texts] using l.nonempty
  have hparse := parseTokens_arguments hops env [] .start
  rw [List.append_nil, parseTokens] at hparse
  rw [parseLine_line, htokens, if_neg htexts, hparse]
  refine ⟨rfl, ?_⟩
  rw [Building.finish, update_update]
  have hcmd := update_commands_cmd .start fun c =>
    ((l.texts.map (expandVariables env)).foldl Command.pushArg c).terminate
  have hzero : Building.start.commands Building.start.cmd = .zero := rfl
  rw [hzero, foldl_pushArg_zero, terminate_withArgs] at hcmd
  exact hcmd

/-- Only such arguments can come back as they are. -/
theorem arguments_of_readLiterally
    {env : Environment} {l : QuotableArgs}
    (h : ReadLiterally env l) :
    ∀ tok ∈ l.texts, tok ≠ [] ∧ tok ∉ operators := by
  obtain ⟨hone, hcommand⟩ := h
  rw [parseLine_line] at hone hcommand
  by_cases hnil : l.tokens = []
  · rw [if_pos hnil] at hone
    exact absurd hone (by decide)
  rw [if_neg hnil] at hone hcommand
  have hidx : (parseTokens env l.tokens .start).cmdIdx = 0 :=
    Nat.succ.inj hone
  obtain ⟨hle, hall⟩ := argc_parseTokens env l.tokens (b := .start) (by decide) hidx
  have hargc : ((parseTokens env l.tokens .start).commands 0).argc = l.texts.length := by
    rw [← argc_finish, hcommand]
    rfl
  have hstart : Building.start.cmd = 0 := rfl
  have hzero : (Building.start.commands 0).argc = 0 := rfl
  rw [hstart, hargc, hzero, Nat.zero_add] at hle hall
  have hfilter : l.tokens.length ≤ l.texts.length :=
    List.length_filter_le _ _
  have hself : l.tokens = l.texts :=
    List.filter_sublist.eq_of_length (le_antisymm hfilter hle)
  have hne := List.filter_eq_self.mp hself
  rw [hself] at hall
  intro tok htok
  exact ⟨by simpa using hne tok htok, hall rfl tok htok⟩

/-- A list comes back literally in an environment exactly when each argument is kept by
all three passes. -/
theorem readLiterally_iff
    (env : Environment) (l : QuotableArgs) :
    ReadLiterally env l
      ↔
    ∀ tok ∈ l.texts, tok ≠ [] ∧ tok ∉ operators ∧ expandVariables env tok = tok := by
  constructor
  · intro h
    have hargs := arguments_of_readLiterally h
    obtain ⟨-, hcommand⟩ := parseLine_line_of_arguments (fun tok htok => (hargs tok htok).1)
      (fun tok htok => (hargs tok htok).2) env
    have hexpand : l.texts.map (expandVariables env) = l.texts :=
      withArgs_injective (hcommand.symm.trans h.command)
    have hself : ∀ tok ∈ l.texts, expandVariables env tok = tok := by
      have hmap : l.texts.map (expandVariables env) = l.texts.map id := by
        rw [hexpand, List.map_id]
      exact List.map_inj_left.mp hmap
    exact fun tok htok => ⟨(hargs tok htok).1, (hargs tok htok).2, hself tok htok⟩
  · intro h
    obtain ⟨hone, hcommand⟩ := parseLine_line_of_arguments (fun tok htok => (h tok htok).1)
      (fun tok htok => (h tok htok).2.1) env
    have hexpand : l.texts.map (expandVariables env) = l.texts := by
      rw [List.map_congr_left fun tok htok => (h tok htok).2.2]
      exact List.map_id _
    rw [hexpand] at hcommand
    exact ⟨hone, hcommand⟩

/--
**What single quotes keep.**  In a given environment the arguments come back literally
exactly when none is empty, none is one of the six operators and expansion changes none;
they do so in every environment exactly when none is empty, an operator or holds a `$`.
-/
theorem single_quotes_literal_iff
    (l : QuotableArgs) :
    (∀ env, ReadLiterally env l
        ↔
      ∀ tok ∈ l.texts, tok ≠ [] ∧ tok ∉ operators ∧ expandVariables env tok = tok) ∧
    ((∀ env, ReadLiterally env l)
        ↔
      ∀ tok ∈ l.texts, tok ≠ [] ∧ tok ∉ operators ∧ byte '$' ∉ tok) := by
  refine ⟨fun env => readLiterally_iff env l, ?_⟩
  simp only [readLiterally_iff]
  constructor
  · intro h tok htok
    obtain ⟨hne, hop, hexpand⟩ := h (fun _ => none) tok htok
    refine ⟨hne, hop, fun hdollar => ?_⟩
    exact expandVariables_ne_of_mem (by simp) hdollar hexpand
  · intro h env tok htok
    obtain ⟨hne, hop, hdollar⟩ := h tok htok
    exact ⟨hne, hop, expandVariables_of_not_mem hdollar env⟩

/-- The arguments `echo`, `|` and `cat`. -/
def quotedPipe : QuotableArgs where
  args := [⟨⟨ascii "echo", by decide⟩, by decide, by decide⟩,
    ⟨⟨ascii "|", by decide⟩, by decide, by decide⟩,
    ⟨⟨ascii "cat", by decide⟩, by decide, by decide⟩]
  nonempty := by decide
  length_le := by decide

/-- The line `'echo' '|' 'cat'` is a pipeline of two commands. -/
theorem quoted_pipe_not_literal :
    ¬ ReadLiterally (fun _ => none) quotedPipe := by
  intro h
  exact (arguments_of_readLiterally h (ascii "|") (by decide)).2 (by decide)

end Literal

end Shell
end SecureZ
