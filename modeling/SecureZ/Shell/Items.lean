import SecureZ.Shell.PipelineText

/-!
# What the parser makes of the tokens

`parse_line` goes through the tokens once and changes the commands as it goes.  Here the
tokens are first grouped into items, a redirection with the token behind it, and the items
are split at the pipes.  Each command of the result is then the fold of the items of one
segment, and the segments from `MAX_PIPE_SEGMENTS` on are left out.

What a segment holds can be read off its items: its arguments in order, the last file of
each stream, and whether there is a `&`.
-/

namespace SecureZ
namespace Shell

open CLib

section Grouping

/-- What one or two tokens are to the parser. -/
inductive Item
  | pipe
  | background
  | redirect (op file : Bytes)
  | argument (tok : Bytes)
deriving DecidableEq

def Item.isPipe : Item → Bool
  | .pipe => true
  | _ => false

/-- The items of a list of tokens; a redirection at the end has no file and is none. -/
def items : List Bytes → List Item
  | [] => []
  | tok :: rest =>
      if tok = ascii "|" then .pipe :: items rest
      else if tok = ascii "&" then .background :: items rest
      else
        match redirection tok, rest with
        | some _, [] => []
        | some _, file :: rest => .redirect tok file :: items rest
        | none, rest => .argument tok :: items rest

/-- The items between the pipes. -/
def segments (toks : List Bytes) : List (List Item) :=
  (items toks).splitOnP Item.isPipe

/-- The change that an item makes to a command. -/
def Item.apply (env : Environment) (c : Command) : Item → Command
  | .pipe => c
  | .background => c.setBackground
  | .redirect op file =>
      match redirection op with
      | some set => c.redirect set (expandVariables env file)
      | none => c
  | .argument tok => c.pushArg (expandVariables env tok)

/-- The command with the items of a segment added to it. -/
def segmentCommand (env : Environment) (c : Command) (seg : List Item) : Command :=
  (seg.foldl (Item.apply env) c).terminate

/-- The command at an index, when some segments are parsed from a state on. -/
def commandAt
    (env : Environment) (b : Building) (segs : List (List Item)) (i : Nat) : Command :=
  if i < b.cmdIdx then b.commands i
  else if i < maxPipeSegments then
    match segs[i - b.cmdIdx]? with
    | none => .zero
    | some seg => segmentCommand env (if i = b.cmdIdx then b.commands i else .zero) seg
  else .zero

/-- The commands behind the current one are not written yet. -/
structure Building.Ready (b : Building) : Prop where
  cmd : b.cmd = b.cmdIdx
  inside : b.cmdIdx < maxPipeSegments
  zero : ∀ i, b.cmdIdx < i → b.commands i = .zero

end Grouping

section Folding

variable {env : Environment} {b : Building}

@[simp] theorem items_pipe
    (rest : List Bytes) :
    items (ascii "|" :: rest) = .pipe :: items rest := by
  conv_lhs => unfold items
  rw [if_pos rfl]

@[simp] theorem items_background
    (rest : List Bytes) :
    items (ascii "&" :: rest) = .background :: items rest := by
  have hne : ascii "&" ≠ ascii "|" := by decide
  conv_lhs => unfold items
  rw [if_neg hne, if_pos rfl]

theorem items_redirect
    {op : Bytes}
    (h : redirection op ≠ none)
    (file : Bytes) (rest : List Bytes) :
    items (op :: file :: rest) = .redirect op file :: items rest := by
  obtain ⟨hpipe, hbg⟩ := ne_of_redirection h
  obtain ⟨set, hset⟩ := Option.ne_none_iff_exists'.mp h
  simp [items, hpipe, hbg, hset]

/-- An operator without a file is no item. -/
theorem items_operator
    {op : Bytes}
    (h : redirection op ≠ none) :
    items [op] = [] := by
  obtain ⟨hpipe, hbg⟩ := ne_of_redirection h
  obtain ⟨set, hset⟩ := Option.ne_none_iff_exists'.mp h
  simp [items, hpipe, hbg, hset]

theorem items_argument
    {tok : Bytes}
    (h : tok ∉ operators)
    (rest : List Bytes) :
    items (tok :: rest) = .argument tok :: items rest := by
  obtain ⟨hpipe, hbg, hnone⟩ := not_mem_operators_iff.mp h
  simp [items, hpipe, hbg, hnone]

theorem segments_pipe
    (rest : List Bytes) :
    segments (ascii "|" :: rest) = [] :: segments rest := by
  rw [segments, items_pipe, List.splitOnP_cons_eq_if_modifyHead]
  rfl

/-- An item that is no pipe belongs to the first segment. -/
theorem splitOnP_item
    {it : Item}
    (h : it.isPipe = false)
    (rest : List Item) :
    ∃ seg segs, rest.splitOnP Item.isPipe = seg :: segs ∧
      (it :: rest).splitOnP Item.isPipe = (it :: seg) :: segs := by
  obtain ⟨seg, segs, hsplit⟩ :=
    List.exists_cons_of_ne_nil (List.splitOnP_ne_nil Item.isPipe rest)
  refine ⟨seg, segs, hsplit, ?_⟩
  rw [List.splitOnP_cons_eq_if_modifyHead, h, hsplit]
  rfl

/-- Tokens that begin with such an item. -/
theorem segments_item
    {it : Item} {toks rest : List Bytes}
    (hitems : items toks = it :: items rest)
    (hit : it.isPipe = false) :
    ∃ seg segs, segments rest = seg :: segs ∧ segments toks = (it :: seg) :: segs := by
  rw [segments, segments, hitems]
  exact splitOnP_item hit (items rest)

theorem ready_update
    {f : Command → Command}
    (h : b.Ready) :
    (b.update f).Ready where
  cmd := h.cmd
  inside := h.inside
  zero := fun i hi => by
    have hne : i ≠ b.cmd := by
      rw [h.cmd]
      exact hi.ne'
    rw [update_commands_of_ne hne]
    exact h.zero i hi

/-- An item in front of a segment is applied to the current command. -/
theorem commandAt_item
    {it : Item} {f : Command → Command}
    (h : b.Ready)
    (hf : ∀ c, f c = it.apply env c)
    (seg : List Item) (segs : List (List Item)) (i : Nat) :
    commandAt env (b.update f) (seg :: segs) i =
      commandAt env b ((it :: seg) :: segs) i := by
  have hcmd := h.cmd
  unfold commandAt
  rw [update_cmdIdx]
  rcases Nat.lt_trichotomy i b.cmdIdx with hi | rfl | hi
  · have hne : i ≠ b.cmd := by omega
    rw [if_pos hi, if_pos hi, update_commands_of_ne hne]
  · rw [if_neg (lt_irrefl _), if_neg (lt_irrefl _), Nat.sub_self]
    have hself := update_commands_cmd b f
    rw [hcmd] at hself
    simp only [List.getElem?_cons_zero, if_true, hself, hf]
    rfl
  · rw [if_neg hi.not_gt, if_neg hi.not_gt]
    obtain ⟨k, hk⟩ : ∃ k, i - b.cmdIdx = k + 1 := ⟨i - b.cmdIdx - 1, by omega⟩
    simp only [hk, List.getElem?_cons_succ, if_neg hi.ne']

/-- With nothing in front, the current command is ended. -/
theorem commandAt_done
    (h : b.Ready)
    (i : Nat) :
    (b.update Command.terminate).commands i = commandAt env b [[]] i := by
  have hcmd := h.cmd
  have hinside := h.inside
  unfold commandAt
  rcases Nat.lt_trichotomy i b.cmdIdx with hi | rfl | hi
  · rw [if_pos hi, update_commands_of_ne (by omega)]
  · have hself := update_commands_cmd b Command.terminate
    rw [hcmd] at hself
    rw [if_neg (lt_irrefl _), if_pos hinside, Nat.sub_self, hself]
    simp [segmentCommand]
  · rw [if_neg hi.not_gt, update_commands_of_ne (by omega), h.zero i hi]
    have hnone : ([[]] : List (List Item))[i - b.cmdIdx]? = none := by
      rw [List.getElem?_eq_none_iff, List.length_singleton]
      omega
    rw [hnone, ite_self]

/-- A pipe ends the current command, and what follows goes to the next one. -/
theorem commandAt_pipe
    (h : b.Ready)
    (segs : List (List Item)) (i : Nat) :
    commandAt env (b.update Command.terminate).nextCommand segs i =
      commandAt env b ([] :: segs) i := by
  have hcmd := h.cmd
  have hnext :
      (b.update Command.terminate).nextCommand.cmdIdx = b.cmdIdx + 1 := rfl
  have hold : ∀ j, j ≠ b.cmdIdx + 1 →
      (b.update Command.terminate).nextCommand.commands j =
        (b.update Command.terminate).commands j :=
    fun j hj => Function.update_of_ne hj _ _
  have hnew :
      (b.update Command.terminate).nextCommand.commands (b.cmdIdx + 1) = .zero :=
    Function.update_self _ _ _
  unfold commandAt
  rw [hnext]
  rcases Nat.lt_trichotomy i b.cmdIdx with hi | rfl | hi
  · rw [if_pos (by omega), if_pos hi, hold i (by omega), update_commands_of_ne (by omega)]
  · have hself := update_commands_cmd b Command.terminate
    rw [hcmd] at hself
    rw [if_pos (Nat.lt_succ_self _), if_neg (lt_irrefl _), if_pos h.inside, hold _ (by omega),
      hself, Nat.sub_self]
    simp [segmentCommand]
  · obtain ⟨k, rfl⟩ : ∃ k, i = b.cmdIdx + 1 + k := ⟨i - (b.cmdIdx + 1), by omega⟩
    have hindex : b.cmdIdx + 1 + k - b.cmdIdx = k + 1 := by omega
    rw [if_neg (show ¬ b.cmdIdx + 1 + k < b.cmdIdx + 1 by omega),
      if_neg (show ¬ b.cmdIdx + 1 + k < b.cmdIdx by omega), Nat.add_sub_cancel_left, hindex,
      List.getElem?_cons_succ]
    have hzero :
        (if b.cmdIdx + 1 + k = b.cmdIdx + 1 then
            (b.update Command.terminate).nextCommand.commands (b.cmdIdx + 1 + k)
          else .zero) = Command.zero := by
      split_ifs with hk
      · rw [hk, hnew]
      · rfl
    rw [hzero, if_neg (show b.cmdIdx + 1 + k ≠ b.cmdIdx by omega)]

theorem ready_nextCommand
    (h : b.Ready)
    (hroom : b.cmdIdx + 1 < maxPipeSegments) :
    (b.update Command.terminate).nextCommand.Ready where
  cmd := rfl
  inside := hroom
  zero := fun i hi => by
    have hlt : b.cmdIdx + 1 < i := hi
    have hcmd := h.cmd
    have hold :
        (b.update Command.terminate).nextCommand.commands i =
          (b.update Command.terminate).commands i :=
      Function.update_of_ne hlt.ne' _ _
    rw [hold, update_commands_of_ne (by omega)]
    exact h.zero i (by omega)

/-- Ending a command twice ends it. -/
theorem update_terminate_twice
    (b : Building) :
    (b.update Command.terminate).update Command.terminate = b.update Command.terminate := by
  rw [update_update]
  exact update_congr (by simp [Command.terminate])

/-- The last segment that there is room for is ended by the pipe behind it. -/
theorem commandAt_full
    (hfull : maxPipeSegments ≤ b.cmdIdx + 1)
    (segs : List (List Item)) (i : Nat) :
    commandAt env b ([] :: segs) i = commandAt env b [[]] i := by
  unfold commandAt
  split_ifs with hi hroom hself
  · rfl
  · rw [hself, Nat.sub_self]
    rfl
  · omega
  · rfl

/-- Tokens that begin with an item which is no pipe. -/
theorem commandAt_cons
    {it : Item} {f : Command → Command} {toks rest : List Bytes}
    (h : b.Ready)
    (hitems : items toks = it :: items rest)
    (hit : it.isPipe = false)
    (hf : ∀ c, f c = it.apply env c)
    (i : Nat) :
    commandAt env (b.update f) (segments rest) i = commandAt env b (segments toks) i := by
  obtain ⟨seg, segs, hrest, hcons⟩ := segments_item hitems hit
  rw [hcons, hrest]
  exact commandAt_item h hf seg segs i

/-- The loop of the parser builds the commands of the segments. -/
theorem commands_parseTokens
    (env : Environment) (toks : List Bytes) {b : Building}
    (h : b.Ready)
    (i : Nat) :
    (parseTokens env toks b).finish.commands i = commandAt env b (segments toks) i := by
  fun_induction parseTokens env toks b with
  | case1 b => exact commandAt_done h i
  | case2 rest b hlimit =>
      rw [segments_pipe, commandAt_full hlimit, ← commandAt_done h]
      exact congrArg (fun c : Building => c.commands i) (update_terminate_twice b)
  | case3 rest b hlimit ih =>
      rw [ih (ready_nextCommand h (by omega)), segments_pipe]
      exact commandAt_pipe h _ i
  | case4 rest b hne ih =>
      rw [ih (ready_update h)]
      exact commandAt_cons h (items_background rest) rfl (fun c => rfl) i
  | case5 tok b hpipe hbg set hset =>
      have hop : redirection tok ≠ none := Option.ne_none_iff_exists'.mpr ⟨set, hset⟩
      rw [segments, items_operator hop]
      exact commandAt_done h i
  | case6 tok b hpipe hbg set file rest hset ih =>
      have hop : redirection tok ≠ none := Option.ne_none_iff_exists'.mpr ⟨set, hset⟩
      rw [ih (ready_update h)]
      exact commandAt_cons h (items_redirect hop file rest) rfl
        (fun c => by simp [Item.apply, hset]) i
  | case7 tok b hpipe hbg rest hset ih =>
      have harg := not_mem_operators_iff.mpr ⟨hpipe, hbg, hset⟩
      rw [ih (ready_update h)]
      exact commandAt_cons h (items_argument harg rest) rfl (fun c => rfl) i

end Folding

section Lines

theorem ready_start : Building.start.Ready where
  cmd := rfl
  inside := by decide
  zero := fun _ _ => rfl

/-- Where there are no tokens, there is no command. -/
theorem commandAt_nil
    (env : Environment) (i : Nat) :
    commandAt env .start (segments []) i = .zero := by
  have hterm : Command.zero.terminate = .zero := by
    simp [Command.terminate, Command.zero]
  unfold commandAt
  cases i with
  | zero => exact hterm
  | succ i => simp [Building.start, segments, items]

/-- The command at an index of the parsed line: the segment there, if the parser has room
for it. -/
theorem commands_parseLine
    {line : CString}
    (hcomment : line.bytes.head? ≠ some (byte '#'))
    (env : Environment) (i : Nat) :
    (parseLine env line).commands i =
      match ((segments (tokenize line)).take maxPipeSegments)[i]? with
      | none => .zero
      | some seg => segmentCommand env .zero seg := by
  have hparse :
      (parseLine env line).commands i = commandAt env .start (segments (tokenize line)) i := by
    unfold parseLine
    split_ifs with hempty
    · have htoks : tokenize line = [] := by
        rw [tokenize, hempty]
        rfl
      rw [htoks, commandAt_nil]
      rfl
    · cases htoks : tokenize line with
      | nil => exact (commandAt_nil env i).symm
      | cons tok toks => exact commands_parseTokens env _ ready_start i
  have hzero : (if i = Building.start.cmdIdx then Building.start.commands i else .zero) =
      Command.zero := by
    split_ifs <;> rfl
  have hfirst : ¬ i < Building.start.cmdIdx := Nat.not_lt_zero i
  rw [hparse, commandAt, hzero, if_neg hfirst, List.getElem?_take]
  split_ifs <;> rfl

end Lines

section Contents

/-- The stream that an operator redirects. -/
def operatorStream (op : Bytes) : Option Stream :=
  if op = ascii "<" then some .stdin
  else if op = ascii ">" ∨ op = ascii ">>" then some .stdout
  else if op = ascii "2>" then some .stderr
  else none

/-- The file of a stream. -/
def Redirect.target (r : Redirect) : Stream → Option Bytes
  | .stdin => r.stdinFile
  | .stdout => r.stdoutFile
  | .stderr => r.stderrFile

/-- The tokens of a segment that are arguments. -/
def argumentTokens (seg : List Item) : List Bytes :=
  seg.filterMap fun
    | .argument tok => some tok
    | _ => none

/-- The files that a stream is redirected to in a segment, in order. -/
def fileTokens (s : Stream) (seg : List Item) : List Bytes :=
  seg.filterMap fun
    | .redirect op file => if operatorStream op = some s then some file else none
    | _ => none

/-- What a command holds after the items of a segment. -/
structure Holds (env : Environment) (seg : List Item) (c : Command) : Prop where
  argv : c.argv = fun j => ((argumentTokens seg).map (expandVariables env))[j]?
  argc : c.argc = (argumentTokens seg).length
  target : ∀ s, c.redir.target s = (fileTokens s seg).getLast?.map (expandVariables env)
  background : c.background = true ↔ .background ∈ seg

/-- A redirection sets the file of its own stream. -/
theorem target_redirection
    {op : Bytes} {set : Bytes → Redirect → Redirect}
    (h : redirection op = some set)
    (file : Bytes) (r : Redirect) (s : Stream) :
    (set file r).target s =
      if operatorStream op = some s then some file else r.target s := by
  have hin : operatorStream (ascii "<") = some .stdin := by decide
  have hout : operatorStream (ascii ">") = some .stdout := by decide
  have happ : operatorStream (ascii ">>") = some .stdout := by decide
  have herr : operatorStream (ascii "2>") = some .stderr := by decide
  unfold redirection at h
  split_ifs at h with hop hop hop hop
  all_goals
    subst hop
    obtain rfl := Option.some.inj h
  · rw [hin]
    cases s <;> rfl
  · rw [hout]
    cases s <;> rfl
  · rw [happ]
    cases s <;> rfl
  · rw [herr]
    cases s <;> rfl

/-- Every operator with a stream is a redirection. -/
theorem isSome_redirection
    {op : Bytes} {s : Stream}
    (h : operatorStream op = some s) :
    ∃ set, redirection op = some set := by
  unfold operatorStream at h
  cases hredir : redirection op with
  | some set => exact ⟨set, rfl⟩
  | none =>
      obtain ⟨hin, hout, happ, herr⟩ := redirection_eq_none_iff.mp hredir
      simp [hin, hout, happ, herr] at h

/-- One more item. -/
theorem holds_apply
    {env : Environment} {seg : List Item} {c : Command}
    (h : Holds env seg c)
    (it : Item) :
    Holds env (seg ++ [it]) (it.apply env c) := by
  obtain ⟨hargv, hargc, htarget, hbg⟩ := h
  cases it with
  | pipe =>
      exact ⟨by simpa [Item.apply, argumentTokens] using hargv,
        by simpa [Item.apply, argumentTokens] using hargc,
        by simpa [Item.apply, fileTokens] using htarget,
        by simpa [Item.apply] using hbg⟩
  | background =>
      exact ⟨by simpa [Item.apply, Command.setBackground, argumentTokens] using hargv,
        by simpa [Item.apply, Command.setBackground, argumentTokens] using hargc,
        by simpa [Item.apply, Command.setBackground, fileTokens] using htarget,
        by simp [Item.apply, Command.setBackground]⟩
  | redirect op file =>
      cases hset : redirection op with
      | none =>
          have hstream : operatorStream op = none := by
            cases hs : operatorStream op with
            | none => rfl
            | some s =>
                obtain ⟨set, hsome⟩ := isSome_redirection hs
                rw [hset] at hsome
                cases hsome
          exact ⟨by simpa [Item.apply, hset, argumentTokens] using hargv,
            by simpa [Item.apply, hset, argumentTokens] using hargc,
            by simpa [Item.apply, hset, fileTokens, hstream] using htarget,
            by simpa [Item.apply, hset] using hbg⟩
      | some set =>
          refine ⟨by simpa [Item.apply, hset, Command.redirect, argumentTokens] using hargv,
            by simpa [Item.apply, hset, Command.redirect, argumentTokens] using hargc, ?_,
            by simpa [Item.apply, hset, Command.redirect] using hbg⟩
          intro s
          simp only [Item.apply, hset, Command.redirect, target_redirection hset, htarget]
          by_cases hs : operatorStream op = some s
          · simp [fileTokens, hs]
          · simp [fileTokens, hs]
  | argument tok =>
      refine ⟨?_, by simpa [Item.apply, Command.pushArg, argumentTokens] using hargc,
        by simpa [Item.apply, Command.pushArg, fileTokens] using htarget,
        by simpa [Item.apply, Command.pushArg] using hbg⟩
      have hargs : argumentTokens (seg ++ [.argument tok]) = argumentTokens seg ++ [tok] := by
        simp [argumentTokens]
      have hpush := congrArg Command.argv
        (pushArg_withArgs ((argumentTokens seg).map (expandVariables env))
          (expandVariables env tok))
      rw [hargs, List.map_append]
      simp only [Item.apply, Command.pushArg, hargv, hargc]
      simpa [Command.withArgs, Command.pushArg] using hpush

/-- The spec of the command of a segment. -/
theorem holds_segmentCommand
    (env : Environment) (seg : List Item) :
    Holds env seg (segmentCommand env .zero seg) := by
  have hfold : Holds env seg (seg.foldl (Item.apply env) .zero) := by
    induction seg using List.reverseRecOn with
    | nil =>
        exact ⟨by simp [Command.zero, argumentTokens], rfl,
          fun s => by cases s <;> rfl, by simp [Command.zero]⟩
    | append_singleton seg it ih =>
        rw [List.foldl_append]
        exact holds_apply ih it
  refine ⟨?_, hfold.argc, hfold.target, hfold.background⟩
  rw [segmentCommand, Command.terminate]
  dsimp only
  rw [hfold.argv, hfold.argc, Function.update_eq_self_iff]
  simp

end Contents

end Shell
end SecureZ
