import SecureZ.Lib.Blocks
import SecureZ.Shell.ExpansionBounds
import SecureZ.Shell.PipedLines

/-!
# The parser with its pointers

`parse_line` has its strings on the heap: the tokens that `tokenize` copies, and what
`expand_variables` makes of them.  It frees the tokens as it goes and hands the expanded strings
over in the pipeline.

The parser is modelled a second time here, with pointers in place of texts.  Read through its
pointers, the pipeline is the one of `parse_line`.  What it owns at its end is the pipeline, and one
string for each file of a redirection that is written over by a later redirection of the same
stream; a string that is expanded past the end of an array is a fault.
-/

namespace SecureZ
namespace Shell

open CLib Blocks

section Model

/-- A string on the heap. -/
abbrev Text := Ptr Bytes

/-- `Redirect`, with its pointers. -/
structure HeapRedirect where
  file : Stream → Option Text
  stdoutAppend : Bool
  stderrAppend : Bool

/-- `Command`, with its pointers. -/
structure HeapCommand where
  argv : Nat → Option Text
  argc : Nat
  redir : HeapRedirect
  background : Bool

/-- A command after `memset`. -/
def HeapCommand.zero : HeapCommand := ⟨fun _ => none, 0, ⟨fun _ => none, false, false⟩, false⟩

/-- `cmd->argv[cmd->argc] = NULL;` -/
def HeapCommand.terminate (c : HeapCommand) : HeapCommand :=
  { c with argv := Function.update c.argv c.argc none }

/-- `cmd->argv[cmd->argc++] = expanded;` -/
def HeapCommand.pushArg (c : HeapCommand) (arg : Text) : HeapCommand :=
  { c with argv := Function.update c.argv c.argc (some arg), argc := c.argc + 1 }

/-- `cmd->background = 1;` -/
def HeapCommand.setBackground (c : HeapCommand) : HeapCommand :=
  { c with background := true }

/-- The locals of `parse_line`, with the pipeline that is built. -/
structure HeapBuilding where
  commands : Nat → HeapCommand
  cmdIdx : Nat
  cmd : Nat

/-- The state in front of the loop. -/
def HeapBuilding.start : HeapBuilding := ⟨fun _ => .zero, 0, 0⟩

/-- A change to the command that `cmd` points to. -/
def HeapBuilding.update (b : HeapBuilding) (f : HeapCommand → HeapCommand) : HeapBuilding :=
  { b with commands := Function.update b.commands b.cmd (f (b.commands b.cmd)) }

/-- The step to the next segment. -/
def HeapBuilding.nextCommand (b : HeapBuilding) : HeapBuilding where
  commands := Function.update b.commands (b.cmdIdx + 1) .zero
  cmdIdx := b.cmdIdx + 1
  cmd := b.cmdIdx + 1

/-- What the redirection operators do with the file behind them. -/
def heapRedirection (tok : Bytes) : Option (Text → HeapRedirect → HeapRedirect) :=
  if tok = ascii "<" then
    some fun file r => { r with file := Function.update r.file .stdin (some file) }
  else if tok = ascii ">" then
    some fun file r =>
      { r with file := Function.update r.file .stdout (some file), stdoutAppend := false }
  else if tok = ascii ">>" then
    some fun file r =>
      { r with file := Function.update r.file .stdout (some file), stdoutAppend := true }
  else if tok = ascii "2>" then
    some fun file r =>
      { r with file := Function.update r.file .stderr (some file), stderrAppend := false }
  else none

/-- A redirection of the command. -/
def HeapCommand.redirect
    (set : Text → HeapRedirect → HeapRedirect) (file : Text) (c : HeapCommand) : HeapCommand :=
  { c with redir := set file c.redir }

/-- `expand_variables`: the string that it returns.  A write past the end of its arrays uses what
is not there. -/
def expandHeap (env : Environment) (tok : Text) (m : Memory) : Text × Memory :=
  (if ExpandSafe env tok.content then m else m.fail).alloc (expandVariables env tok.content)

/-- The loop of `parse_line` over the tokens that are left. -/
def parseHeap (env : Environment) : List Text → HeapBuilding → Memory → HeapBuilding × Memory
  | [], b, m => (b, m)
  | tok :: rest, b, m =>
      let m := m.touch tok
      if tok.content = ascii "|" then
        if maxPipeSegments ≤ b.cmdIdx + 1 then
          -- the `break`: neither this token nor those behind it are freed
          ({ b.update HeapCommand.terminate with cmdIdx := b.cmdIdx + 1 }, m)
        else parseHeap env rest (b.update HeapCommand.terminate).nextCommand (m.free tok)
      else if tok.content = ascii "&" then
        parseHeap env rest (b.update HeapCommand.setBackground) (m.free tok)
      else
        match heapRedirection tok.content, rest with
        | some _, [] => (b, m.free tok)
        | some set, file :: rest =>
            let expanded := expandHeap env file ((m.free tok).touch file)
            parseHeap env rest (b.update (HeapCommand.redirect set expanded.1))
              (expanded.2.free file)
        | none, rest =>
            let expanded := expandHeap env tok m
            parseHeap env rest (b.update fun c => c.pushArg expanded.1) (expanded.2.free tok)

/-- The strings that `tokenize` copies. -/
def copyTokens : List Bytes → Memory → List Text × Memory
  | [], m => ([], m)
  | tok :: toks, m =>
      let copied := m.alloc tok
      let rest := copyTokens toks copied.2
      (copied.1 :: rest.1, rest.2)

/-- `Pipeline`, with its pointers. -/
structure HeapPipeline where
  commands : Nat → HeapCommand
  count : Nat

/-- `parse_line`. -/
def parseLineHeap (env : Environment) (line : Ptr CString) (m : Memory) : HeapPipeline × Memory :=
  let m := m.touch line
  if line.content.bytes = [] then (⟨fun _ => .zero, 0⟩, m)
  else if line.content.bytes.head? = some (byte '#') then (⟨fun _ => .zero, 0⟩, m)
  else
    let array := m.alloc ()
    let toks := copyTokens (tokenize line.content) array.2
    if toks.1 = [] then (⟨fun _ => .zero, 0⟩, toks.2.free array.1)
    else
      let parsed := parseHeap env toks.1 .start toks.2
      (⟨(parsed.1.update HeapCommand.terminate).commands, parsed.1.cmdIdx + 1⟩,
        parsed.2.free array.1)

/-- The pointers of a command, in the order in which the main loop frees them. -/
def HeapCommand.texts (c : HeapCommand) : List Text :=
  (List.range c.argc).filterMap c.argv ++ [.stdin, .stdout, .stderr].filterMap c.redir.file

end Model

section Reading

def HeapRedirect.read (r : HeapRedirect) : Redirect where
  stdinFile := (r.file .stdin).map Ptr.content
  stdoutFile := (r.file .stdout).map Ptr.content
  stderrFile := (r.file .stderr).map Ptr.content
  stdoutAppend := r.stdoutAppend
  stderrAppend := r.stderrAppend

/-- A command, read through its pointers. -/
def HeapCommand.read (c : HeapCommand) : Command where
  argv := fun j => (c.argv j).map Ptr.content
  argc := c.argc
  redir := c.redir.read
  background := c.background

def HeapBuilding.read (b : HeapBuilding) : Building where
  commands := fun i => (b.commands i).read
  cmdIdx := b.cmdIdx
  cmd := b.cmd

def HeapPipeline.read (p : HeapPipeline) : Pipeline where
  commands := fun i => (p.commands i).read
  count := p.count

variable {b : HeapBuilding}

@[simp] theorem read_zero :
    HeapCommand.zero.read = .zero :=
  rfl

theorem read_terminate
    (c : HeapCommand) :
    c.terminate.read = c.read.terminate := by
  simp only [HeapCommand.read, HeapCommand.terminate, Command.terminate, Command.mk.injEq, and_true]
  funext j
  by_cases hj : j = c.argc
  · subst hj
    simp
  · simp [Function.update_of_ne hj]

theorem read_pushArg
    (c : HeapCommand) (arg : Text) :
    (c.pushArg arg).read = c.read.pushArg arg.content := by
  simp only [HeapCommand.read, HeapCommand.pushArg, Command.pushArg, Command.mk.injEq, and_true]
  funext j
  by_cases hj : j = c.argc
  · subst hj
    simp
  · simp [Function.update_of_ne hj]

/-- A change to the current command is read as a change to it. -/
theorem read_update
    {f : HeapCommand → HeapCommand} {g : Command → Command}
    (hfg : ∀ c, (f c).read = g c.read) :
    (b.update f).read = b.read.update g := by
  simp only [HeapBuilding.read, HeapBuilding.update, Building.update, Building.mk.injEq, and_true]
  funext i
  by_cases hi : i = b.cmd
  · subst hi
    simp [hfg]
  · simp [Function.update_of_ne hi]

theorem read_nextCommand :
    b.nextCommand.read = b.read.nextCommand := by
  simp only [HeapBuilding.read, HeapBuilding.nextCommand, Building.nextCommand, Building.mk.injEq,
    and_true]
  funext i
  by_cases hi : i = b.cmdIdx + 1
  · subst hi
    simp
  · simp [Function.update_of_ne hi]

/-- A redirection is read as one of the same stream. -/
theorem heapRedirection_spec
    {tok : Bytes} {set : Text → HeapRedirect → HeapRedirect}
    (h : heapRedirection tok = some set) :
    ∃ set' s, redirection tok = some set' ∧ operatorStream tok = some s ∧
      ∀ file r, (set file r).read = set' file.content r.read ∧
        (set file r).file = Function.update r.file s (some file) := by
  have hstreams : operatorStream (ascii "<") = some .stdin ∧
      operatorStream (ascii ">") = some .stdout ∧ operatorStream (ascii ">>") = some .stdout ∧
        operatorStream (ascii "2>") = some .stderr := by
    decide
  unfold heapRedirection at h
  split_ifs at h with hin hout happ herr
  · subst hin
    obtain rfl := Option.some.inj h
    exact ⟨_, _, rfl, hstreams.1, fun file r => ⟨by simp [HeapRedirect.read], rfl⟩⟩
  · subst hout
    obtain rfl := Option.some.inj h
    exact ⟨_, _, rfl, hstreams.2.1, fun file r => ⟨by simp [HeapRedirect.read], rfl⟩⟩
  · subst happ
    obtain rfl := Option.some.inj h
    exact ⟨_, _, rfl, hstreams.2.2.1, fun file r => ⟨by simp [HeapRedirect.read], rfl⟩⟩
  · subst herr
    obtain rfl := Option.some.inj h
    exact ⟨_, _, rfl, hstreams.2.2.2, fun file r => ⟨by simp [HeapRedirect.read], rfl⟩⟩

theorem heapRedirection_eq_none_iff
    {tok : Bytes} :
    heapRedirection tok = none ↔ redirection tok = none := by
  unfold heapRedirection redirection
  split_ifs <;> simp

theorem redirection_ne_none_of_heap
    {tok : Bytes} {set : Text → HeapRedirect → HeapRedirect}
    (h : heapRedirection tok = some set) :
    redirection tok ≠ none :=
  mt heapRedirection_eq_none_iff.mpr (by rw [h]; exact Option.some_ne_none set)

@[simp] theorem expandHeap_content
    (env : Environment) (tok : Text) (m : Memory) :
    (expandHeap env tok m).1.content = expandVariables env tok.content :=
  rfl

/-- Whatever the memory is, the pipeline that is built reads as that of the parser. -/
theorem read_parseHeap
    (env : Environment) (toks : List Text) (b : HeapBuilding) (m : Memory) :
    (parseHeap env toks b m).1.read = parseTokens env (toks.map Ptr.content) b.read := by
  fun_induction parseHeap env toks b m with
  | case1 b m =>
      simp [parseTokens]
  | case2 tok toks b m₀ m hpipe hlimit =>
      have hread := read_update (b := b) read_terminate
      have hlimit' : maxPipeSegments ≤ b.read.cmdIdx + 1 := hlimit
      rw [List.map_cons, hpipe]
      conv_rhs => unfold parseTokens
      rw [if_pos rfl, if_pos hlimit']
      exact congrArg (fun c : Building => { c with cmdIdx := b.cmdIdx + 1 }) hread
  | case3 tok toks b m₀ m hpipe hlimit ih =>
      rw [ih, List.map_cons, hpipe, parseTokens_pipe (Nat.lt_of_not_le hlimit), read_nextCommand,
        read_update read_terminate]
  | case4 tok toks b m₀ m hpipe hbg ih =>
      rw [ih, List.map_cons, hbg, parseTokens_background,
        read_update (g := Command.setBackground) fun _ => rfl]
  | case5 tok b m₀ m hpipe hbg set hset =>
      obtain ⟨set', s, hset', -, -⟩ := heapRedirection_spec hset
      simp [parseTokens, hpipe, hbg, hset']
  | case6 tok b m₀ m hpipe hbg set file toks hset expanded ih =>
      obtain ⟨set', s, hset', -, hspec⟩ := heapRedirection_spec hset
      rw [ih, List.map_cons, List.map_cons, parseTokens_redirect hset',
        read_update (g := Command.redirect set' (expandVariables env file.content))]
      intro c
      exact congrArg (Command.mk _ _ · _) (hspec _ _).1
  | case7 tok b m₀ m hpipe hbg toks hset expanded ih =>
      have harg := not_mem_operators_iff.mpr ⟨hpipe, hbg, heapRedirection_eq_none_iff.mp hset⟩
      rw [ih, List.map_cons, parseTokens_argument harg,
        read_update (g := fun c => c.pushArg (expandVariables env tok.content))]
      exact fun c => read_pushArg c expanded.1

theorem content_copyTokens
    (toks : List Bytes) (m : Memory) :
    (copyTokens toks m).1.map Ptr.content = toks := by
  induction toks generalizing m with
  | nil => rfl
  | cons tok toks ih => exact congrArg (tok :: ·) (ih _)

/-- The pointer-level parser is `parse_line`. -/
theorem read_parseLineHeap
    (env : Environment) (line : Ptr CString) (m : Memory) :
    (parseLineHeap env line m).1.read = parseLine env line.content := by
  have hzero : HeapPipeline.read ⟨fun _ => .zero, 0⟩ = .zero := rfl
  have hcontent := content_copyTokens (tokenize line.content) ((m.touch line).alloc ()).2
  unfold parseLineHeap
  simp only
  split_ifs with hempty hcomment htoks
  · rw [hzero, parseLine, if_pos hempty]
  · rw [hzero, parseLine, if_neg hempty, if_pos hcomment]
  · rw [htoks] at hcontent
    rw [hzero, parseLine, if_neg hempty, if_neg hcomment, ← hcontent]
    rfl
  · have hne : tokenize line.content ≠ [] := by
      intro hnil
      rw [hnil] at htoks
      exact htoks rfl
    obtain ⟨tok, toks, hcons⟩ := List.exists_cons_of_ne_nil hne
    have hparsed : parseLine env line.content =
        (parseTokens env (tokenize line.content) .start).finish := by
      rw [parseLine, if_neg hempty, if_neg hcomment, hcons]
    have hread := read_parseHeap env (copyTokens (tokenize line.content)
      ((m.touch line).alloc ()).2).1 .start (copyTokens (tokenize line.content)
        ((m.touch line).alloc ()).2).2
    have hstart : HeapBuilding.start.read = .start := rfl
    have hterm := read_update (b := (parseHeap env (copyTokens (tokenize line.content)
      ((m.touch line).alloc ()).2).1 .start (copyTokens (tokenize line.content)
        ((m.touch line).alloc ()).2).2).1) read_terminate
    rw [hcontent, hstart] at hread
    rw [hread] at hterm
    rw [hparsed]
    exact congrArg (fun b : Building => Pipeline.mk b.commands (b.cmdIdx + 1)) hterm

end Reading

section Counting

/-- The redirections of a segment. -/
def fileCount (seg : List Item) : Nat :=
  ([.stdin, .stdout, .stderr].map fun s => (fileTokens s seg).length).sum

/-- The redirections of a segment that a later one writes over. -/
def overwritten (seg : List Item) : Nat :=
  ([.stdin, .stdout, .stderr].map fun s => (fileTokens s seg).length - 1).sum

/-- The redirections among the tokens. -/
def redirections (toks : List Bytes) : Nat :=
  ((segments toks).map fileCount).sum

theorem fileCount_cons
    (it : Item) (seg : List Item) :
    fileCount (it :: seg) = fileCount [it] + fileCount seg := by
  have hsplit : it :: seg = [it] ++ seg := rfl
  have happend : ∀ s, (fileTokens s ([it] ++ seg)).length =
      (fileTokens s [it]).length + (fileTokens s seg).length := by
    intro s
    simp only [fileTokens, List.filterMap_append, List.length_append]
  simp only [hsplit, fileCount, happend, List.map_cons, List.map_nil, List.sum_cons, List.sum_nil]
  omega

/-- An item that is no pipe adds its own redirection. -/
theorem redirections_item
    {it : Item} {toks rest : List Bytes}
    (hitems : items toks = it :: items rest)
    (hit : it.isPipe = false) :
    redirections toks = fileCount [it] + redirections rest := by
  obtain ⟨seg, segs, hrest, hcons⟩ := segments_item hitems hit
  rw [redirections, redirections, hcons, hrest, List.map_cons, List.sum_cons, List.map_cons,
    List.sum_cons, fileCount_cons, Nat.add_assoc]

theorem redirections_pipe
    (rest : List Bytes) :
    redirections (ascii "|" :: rest) = redirections rest := by
  rw [redirections, segments_pipe]
  simp [redirections, fileCount, fileTokens]

theorem redirections_background
    (rest : List Bytes) :
    redirections (ascii "&" :: rest) = redirections rest := by
  rw [redirections_item (items_background rest) rfl]
  simp [fileCount, fileTokens]

theorem redirections_redirect
    {tok : Bytes} {s : Stream}
    (h : redirection tok ≠ none)
    (hs : operatorStream tok = some s)
    (file : Bytes) (rest : List Bytes) :
    redirections (tok :: file :: rest) = redirections rest + 1 := by
  have hone : fileCount [.redirect tok file] = 1 := by
    cases s <;> simp [fileCount, fileTokens, hs]
  rw [redirections_item (items_redirect h file rest) rfl, hone, Nat.add_comm]

theorem redirections_operator
    {tok : Bytes}
    (h : redirection tok ≠ none) :
    redirections [tok] = 0 := by
  simp [redirections, segments, items_operator h, fileCount, fileTokens]

theorem redirections_argument
    {tok : Bytes}
    (h : tok ∉ operators)
    (rest : List Bytes) :
    redirections (tok :: rest) = redirections rest := by
  rw [redirections_item (items_argument h rest) rfl]
  simp [fileCount, fileTokens]

end Counting

section Expanding

variable {env : Environment}

/-- The string of an item that is expanded. -/
def Item.expanded : Item → Option Bytes
  | .redirect _ file => some file
  | .argument tok => some tok
  | _ => none

/-- No string of some tokens is expanded past the end of an array. -/
def ExpandsInside (env : Environment) (toks : List Bytes) : Prop :=
  ∀ tok ∈ (items toks).filterMap Item.expanded, ExpandSafe env tok

instance (env : Environment) (toks : List Bytes) : Decidable (ExpandsInside env toks) :=
  inferInstanceAs (Decidable (∀ tok ∈ (items toks).filterMap Item.expanded, ExpandSafe env tok))

theorem expandsInside_pipe
    (rest : List Bytes) :
    ExpandsInside env (ascii "|" :: rest) ↔ ExpandsInside env rest := by
  simp [ExpandsInside, Item.expanded]

theorem expandsInside_background
    (rest : List Bytes) :
    ExpandsInside env (ascii "&" :: rest) ↔ ExpandsInside env rest := by
  simp [ExpandsInside, Item.expanded]

theorem expandsInside_redirect
    {tok : Bytes}
    (h : redirection tok ≠ none)
    (file : Bytes) (rest : List Bytes) :
    ExpandsInside env (tok :: file :: rest) ↔ ExpandSafe env file ∧ ExpandsInside env rest := by
  simp [ExpandsInside, items_redirect h, Item.expanded]

/-- An operator without a file has no string to expand. -/
theorem expandsInside_operator
    {tok : Bytes}
    (h : redirection tok ≠ none) :
    ExpandsInside env [tok] := by
  simp [ExpandsInside, items_operator h]

theorem expandsInside_argument
    {tok : Bytes}
    (h : tok ∉ operators)
    (rest : List Bytes) :
    ExpandsInside env (tok :: rest) ↔ ExpandSafe env tok ∧ ExpandsInside env rest := by
  simp [ExpandsInside, items_argument h, Item.expanded]

/-- Inside its arrays the expansion only allocates its result. -/
theorem expandHeap_of_safe
    {tok : Text}
    (h : ExpandSafe env tok.content)
    (m : Memory) :
    expandHeap env tok m = m.alloc (expandVariables env tok.content) := by
  rw [expandHeap, if_pos h]

end Expanding

section Parsing

/-- The blocks of a command. -/
def HeapCommand.owned (c : HeapCommand) : List Nat :=
  c.texts.map Ptr.block

/-- The streams of a command that are redirected. -/
def HeapCommand.bound (c : HeapCommand) : Nat :=
  ([.stdin, .stdout, .stderr].filterMap c.redir.file).length

/-- The blocks of the pipeline that is built. -/
def HeapBuilding.owned (b : HeapBuilding) : List Nat :=
  (List.range (b.cmdIdx + 1)).flatMap fun i => (b.commands i).owned

def HeapBuilding.bound (b : HeapBuilding) : Nat :=
  ((List.range (b.cmdIdx + 1)).map fun i => (b.commands i).bound).sum

/-- The commands behind the current one are not written yet. -/
structure HeapBuilding.Ready (b : HeapBuilding) : Prop where
  cmd : b.cmd = b.cmdIdx
  inside : b.cmdIdx < maxPipeSegments
  zero : ∀ i, b.cmdIdx < i → b.commands i = .zero

variable {b : HeapBuilding} {f : HeapCommand → HeapCommand}

theorem owned_pushArg
    (c : HeapCommand) (arg : Text) :
    (c.pushArg arg).owned.Perm (arg.block :: c.owned) := by
  have hbefore : (List.range c.argc).filterMap (Function.update c.argv c.argc (some arg)) =
      (List.range c.argc).filterMap c.argv := by
    apply List.filterMap_congr
    intro j hj
    exact Function.update_of_ne (List.mem_range.mp hj).ne _ _
  have htexts : (c.pushArg arg).texts =
      (List.range c.argc).filterMap c.argv ++
        arg :: [Stream.stdin, .stdout, .stderr].filterMap c.redir.file := by
    rw [HeapCommand.texts, HeapCommand.pushArg]
    simp only
    rw [List.range_succ, List.filterMap_append, hbefore]
    simp
  rw [HeapCommand.owned, htexts]
  exact List.perm_middle.map Ptr.block

theorem owned_terminate
    (c : HeapCommand) :
    c.terminate.owned = c.owned := by
  have hbefore : (List.range c.argc).filterMap (Function.update c.argv c.argc none) =
      (List.range c.argc).filterMap c.argv := by
    apply List.filterMap_congr
    intro j hj
    exact Function.update_of_ne (List.mem_range.mp hj).ne _ _
  simp only [HeapCommand.owned, HeapCommand.texts, HeapCommand.terminate, hbefore]

/-- What a redirection writes over is lost. -/
theorem owned_redirect
    {set : Text → HeapRedirect → HeapRedirect} {s : Stream}
    (hset : ∀ file r, (set file r).file = Function.update r.file s (some file))
    (c : HeapCommand) (file : Text) :
    ((c.redirect set file).owned ++ (c.redir.file s).toList.map Ptr.block).Perm
        (file.block :: c.owned) ∧
      (c.redirect set file).bound + (c.redir.file s).toList.length = c.bound + 1 := by
  have hmem : s ∈ [Stream.stdin, .stdout, .stderr] := by
    cases s <;> simp
  have hslots := perm_filterMap_update c.redir.file (by decide) hmem file
  constructor
  · rw [HeapCommand.owned, HeapCommand.owned, ← List.map_append, ← List.map_cons]
    refine List.Perm.map _ ?_
    rw [HeapCommand.texts, HeapCommand.texts, HeapCommand.redirect]
    simp only [hset]
    rw [List.append_assoc]
    exact (hslots.append_left _).trans List.perm_middle
  · have hlen := hslots.length_eq
    rw [List.length_append, List.length_cons] at hlen
    simpa only [HeapCommand.bound, HeapCommand.redirect, hset] using hlen

theorem heapUpdate_of_ne
    {i : Nat}
    (hi : i ≠ b.cmd)
    (f : HeapCommand → HeapCommand) :
    (b.update f).commands i = b.commands i :=
  Function.update_of_ne hi _ _

theorem heapUpdate_cmd
    (b : HeapBuilding) (f : HeapCommand → HeapCommand) :
    (b.update f).commands b.cmd = f (b.commands b.cmd) :=
  Function.update_self ..

/-- The last command alone changes. -/
theorem owned_update
    (h : b.Ready)
    (f : HeapCommand → HeapCommand) :
    b.owned = ((List.range b.cmdIdx).flatMap fun i => (b.commands i).owned) ++
        (b.commands b.cmd).owned ∧
      (b.update f).owned = ((List.range b.cmdIdx).flatMap fun i => (b.commands i).owned) ++
        (f (b.commands b.cmd)).owned := by
  have hbefore : ((List.range b.cmdIdx).flatMap fun i => ((b.update f).commands i).owned) =
      (List.range b.cmdIdx).flatMap fun i => (b.commands i).owned := by
    apply List.flatMap_congr
    intro i hi
    have hne : i ≠ b.cmd := by
      rw [h.cmd]
      exact (List.mem_range.mp hi).ne
    rw [heapUpdate_of_ne hne]
  constructor
  · rw [HeapBuilding.owned, List.range_succ, List.flatMap_append, h.cmd]
    simp
  · rw [HeapBuilding.owned, List.range_succ, List.flatMap_append]
    change ((List.range b.cmdIdx).flatMap fun i => ((b.update f).commands i).owned) ++ _ = _
    rw [hbefore]
    simp [HeapBuilding.update, h.cmd]

theorem bound_update
    (h : b.Ready)
    (f : HeapCommand → HeapCommand) :
    (b.update f).bound + (b.commands b.cmd).bound = b.bound + (f (b.commands b.cmd)).bound := by
  have hbefore : ((List.range b.cmdIdx).map fun i => ((b.update f).commands i).bound) =
      (List.range b.cmdIdx).map fun i => (b.commands i).bound := by
    apply List.map_congr_left
    intro i hi
    have hne : i ≠ b.cmd := by
      rw [h.cmd]
      exact (List.mem_range.mp hi).ne
    rw [heapUpdate_of_ne hne]
  rw [HeapBuilding.bound, HeapBuilding.bound, List.range_succ, List.map_append, List.sum_append,
    List.range_succ, List.map_append, List.sum_append]
  change ((List.range b.cmdIdx).map fun i => ((b.update f).commands i).bound).sum + _ + _ = _
  rw [hbefore]
  simp only [HeapBuilding.update, h.cmd, List.map_cons, List.map_nil, List.sum_cons, List.sum_nil,
    Function.update_self]
  omega

theorem ready_heapUpdate
    (h : b.Ready)
    (f : HeapCommand → HeapCommand) :
    (b.update f).Ready where
  cmd := h.cmd
  inside := h.inside
  zero := by
    intro i hi
    have hne : i ≠ b.cmd := by
      rw [h.cmd]
      exact hi.ne'
    rw [heapUpdate_of_ne hne]
    exact h.zero i hi

/-- A change that keeps the blocks of the current command keeps those of the pipeline. -/
theorem same_update
    (h : b.Ready)
    (howned : (f (b.commands b.cmd)).owned = (b.commands b.cmd).owned)
    (hbound : (f (b.commands b.cmd)).bound = (b.commands b.cmd).bound) :
    (b.update f).owned = b.owned ∧ (b.update f).bound = b.bound := by
  obtain ⟨hbefore, hbehind⟩ := owned_update h f
  have hsum := bound_update h f
  refine ⟨?_, by omega⟩
  rw [hbehind, howned, ← hbefore]

theorem zero_owned :
    HeapCommand.zero.owned = [] ∧ HeapCommand.zero.bound = 0 :=
  ⟨rfl, rfl⟩

/-- The command that the index comes to holds nothing. -/
theorem owned_countUp
    (h : b.Ready) :
    HeapBuilding.owned { b with cmdIdx := b.cmdIdx + 1 } = b.owned ∧
      HeapBuilding.bound { b with cmdIdx := b.cmdIdx + 1 } = b.bound := by
  have hnext : b.commands (b.cmdIdx + 1) = .zero := h.zero _ (Nat.lt_succ_self _)
  constructor
  · rw [HeapBuilding.owned, List.range_succ, List.flatMap_append]
    simp [HeapBuilding.owned, hnext, zero_owned]
  · rw [HeapBuilding.bound, List.range_succ, List.map_append]
    simp [HeapBuilding.bound, hnext, zero_owned]

/-- A further command with nothing in it. -/
theorem owned_nextCommand
    (h : b.Ready)
    (hroom : b.cmdIdx + 1 < maxPipeSegments) :
    b.nextCommand.owned = b.owned ∧ b.nextCommand.bound = b.bound ∧ b.nextCommand.Ready := by
  have hsame : b.nextCommand.commands = b.commands := by
    rw [HeapBuilding.nextCommand]
    exact Function.update_eq_self_iff.mpr (h.zero _ (Nat.lt_succ_self _)).symm
  obtain ⟨howned, hbound⟩ := owned_countUp h
  refine ⟨?_, ?_, rfl, hroom, ?_⟩
  · rw [← howned, HeapBuilding.owned, hsame]
    rfl
  · rw [← hbound, HeapBuilding.bound, hsame]
    rfl
  · intro i hi
    rw [hsame]
    exact h.zero i (Nat.lt_of_succ_lt hi)

/-- What the loop of `parse_line` owns: the tokens that are left, the pipeline, and what else
was allocated before. -/
def Owning (m : Memory) (toks : List Text) (b : HeapBuilding) (rest : List Nat) : Prop :=
  m.Owns (toks.map Ptr.block ++ (b.owned ++ rest))

/-- What the loop leaves: the pipeline, and a block that nobody frees for each redirection that was
written over. -/
def Parses
    (toks : List Text) (b : HeapBuilding) (rest : List Nat) (result : HeapBuilding × Memory) :
    Prop :=
  ∃ lost, result.2.Owns (result.1.owned ++ (lost ++ rest)) ∧
    (result.1.cmdIdx < maxPipeSegments →
      lost.length + result.1.bound = b.bound + redirections (toks.map Ptr.content))

variable {env : Environment} {m : Memory} {tok : Text} {toks toks' : List Text} {b' : HeapBuilding}
  {rest old : List Nat}

theorem owning_touch
    (h : Owning m (tok :: toks) b rest) :
    m.touch tok = m :=
  Memory.Owns.touch h (List.mem_cons_self ..)

theorem owning_free
    (h : Owning m (tok :: toks) b rest)
    (hsame : b'.owned = b.owned) :
    Owning (m.free tok) toks b' rest := by
  rw [Owning, hsame]
  exact Memory.Owns.free h

/-- A token gives way to the string that it is expanded to. -/
theorem owning_expanded
    (h : Owning m (tok :: toks) b rest)
    (v : Bytes)
    (hperm : (b'.owned ++ old).Perm ((m.alloc v).1.block :: b.owned)) :
    Owning ((m.alloc v).2.free tok) toks b' (old ++ rest) := by
  have hswap := (Memory.Owns.alloc h v).perm (List.Perm.swap ..)
  have hfreed : ((m.alloc v).2.free tok).Owns
      ((m.alloc v).1.block :: (toks.map Ptr.block ++ (b.owned ++ rest))) :=
    Memory.Owns.free hswap
  refine hfreed.perm (List.perm_middle.symm.trans (List.Perm.append_left _ ?_))
  rw [← List.cons_append, ← List.append_assoc]
  exact hperm.symm.append_right rest

/-- What a turn of the loop writes over is lost, and the rest of the loop does not change that. -/
theorem parses_of_turn
    (old : List Nat)
    {result : HeapBuilding × Memory}
    (h : Parses toks' b' (old ++ rest) result)
    (hcount : old.length + (b'.bound + redirections (toks'.map Ptr.content)) =
      b.bound + redirections (toks.map Ptr.content)) :
    Parses toks b rest result := by
  obtain ⟨lost, howns, hlost⟩ := h
  refine ⟨lost ++ old, ?_, fun hin => ?_⟩
  · rwa [List.append_assoc]
  · have hsum := hlost hin
    rw [List.length_append]
    omega

/-- The loop ends in front of a pipe for which there is no room; the tokens that are left are
lost. -/
theorem parses_full
    (h : b.Ready)
    (hlimit : maxPipeSegments ≤ b.cmdIdx + 1)
    (howns : Owning m (tok :: toks) b rest) :
    Parses (tok :: toks) b rest
      ({ b.update HeapCommand.terminate with cmdIdx := b.cmdIdx + 1 }, m) := by
  have hterm := owned_terminate (b.commands b.cmd)
  have hsame := (same_update h (f := HeapCommand.terminate) hterm rfl).1
  have howned := (owned_countUp (ready_heapUpdate h HeapCommand.terminate)).1.trans hsame
  refine ⟨tok.block :: toks.map Ptr.block, ?_, fun hin => ?_⟩
  · refine Memory.Owns.perm howns ?_
    change List.Perm _ (HeapBuilding.owned
      { b.update HeapCommand.terminate with cmdIdx := b.cmdIdx + 1 } ++ _)
    rw [← howned]
    exact List.perm_append_comm_assoc ..
  · have hcount : b.cmdIdx + 1 < maxPipeSegments := hin
    omega

/-- The step to the next segment frees the pipe. -/
theorem owning_nextCommand
    (h : b.Ready)
    (hroom : b.cmdIdx + 1 < maxPipeSegments)
    (howns : Owning m (tok :: toks) b rest) :
    Owning (m.free tok) toks (b.update HeapCommand.terminate).nextCommand rest ∧
      (b.update HeapCommand.terminate).nextCommand.bound = b.bound ∧
        (b.update HeapCommand.terminate).nextCommand.Ready := by
  have hterm := owned_terminate (b.commands b.cmd)
  obtain ⟨howned, hbound⟩ := same_update h (f := HeapCommand.terminate) hterm rfl
  obtain ⟨hnextOwned, hnextBound, hnext⟩ :=
    owned_nextCommand (ready_heapUpdate h HeapCommand.terminate) hroom
  exact ⟨owning_free howns (hnextOwned.trans howned), hnextBound.trans hbound, hnext⟩

/-- The string of a redirection takes the place of its token; the one that it is written over is
lost. -/
theorem owning_redirect
    {set : Text → HeapRedirect → HeapRedirect} {s : Stream}
    (hset : ∀ file r, (set file r).file = Function.update r.file s (some file))
    (h : b.Ready)
    (howns : Owning m (tok :: toks) b rest)
    (v : Bytes) :
    ∃ old,
      Owning ((m.alloc v).2.free tok) toks
          (b.update (HeapCommand.redirect set (m.alloc v).1)) (old ++ rest) ∧
        old.length + (b.update (HeapCommand.redirect set (m.alloc v).1)).bound = b.bound + 1 := by
  obtain ⟨hperm, hlen⟩ := owned_redirect hset (b.commands b.cmd) (m.alloc v).1
  obtain ⟨hbefore, hbehind⟩ := owned_update h (HeapCommand.redirect set (m.alloc v).1)
  have hsum := bound_update h (HeapCommand.redirect set (m.alloc v).1)
  refine ⟨((b.commands b.cmd).redir.file s).toList.map Ptr.block, ?_, ?_⟩
  · refine owning_expanded howns v ?_
    rw [hbehind, hbefore, List.append_assoc]
    exact (hperm.append_left _).trans List.perm_middle
  · rw [List.length_map]
    omega

/-- The string of an argument takes the place of its token. -/
theorem owning_pushArg
    (h : b.Ready)
    (howns : Owning m (tok :: toks) b rest)
    (v : Bytes) :
    Owning ((m.alloc v).2.free tok) toks (b.update fun c => c.pushArg (m.alloc v).1) rest ∧
      (b.update fun c => c.pushArg (m.alloc v).1).bound = b.bound := by
  obtain ⟨hbefore, hbehind⟩ := owned_update h fun c => c.pushArg (m.alloc v).1
  have hsum := bound_update h fun c => c.pushArg (m.alloc v).1
  have hsame :
      ((b.commands b.cmd).pushArg (m.alloc v).1).bound = (b.commands b.cmd).bound := rfl
  constructor
  · have hperm : ((b.update fun c => c.pushArg (m.alloc v).1).owned ++ []).Perm
        ((m.alloc v).1.block :: b.owned) := by
      rw [hbehind, hbefore, List.append_nil]
      exact ((owned_pushArg _ _).append_left _).trans List.perm_middle
    exact owning_expanded howns v hperm
  · omega

theorem parses_parseHeap
    (env : Environment) (toks : List Text) (b : HeapBuilding) (m : Memory) :
    b.Ready → ExpandsInside env (toks.map Ptr.content) → ∀ rest, Owning m toks b rest →
      Parses toks b rest (parseHeap env toks b m) := by
  fun_induction parseHeap env toks b m with
  | case1 b m =>
      intro h _ rest howns
      refine ⟨[], howns, fun _ => ?_⟩
      simp [redirections, segments, items, fileCount, fileTokens]
  | case2 tok toks b m₀ m hpipe hlimit =>
      intro h _ rest howns
      have htouch : m = m₀ := owning_touch howns
      rw [htouch]
      exact parses_full h hlimit howns
  | case3 tok toks b m₀ m hpipe hlimit ih =>
      intro h hsafe rest howns
      have htouch : m = m₀ := owning_touch howns
      obtain ⟨hnext, hbound, hready⟩ := owning_nextCommand h (Nat.lt_of_not_le hlimit) howns
      rw [List.map_cons, hpipe, expandsInside_pipe] at hsafe
      refine parses_of_turn [] (ih hready hsafe rest (htouch ▸ hnext)) ?_
      rw [List.map_cons, hpipe, redirections_pipe, hbound]
      exact Nat.zero_add _
  | case4 tok toks b m₀ m hpipe hbg ih =>
      intro h hsafe rest howns
      have htouch : m = m₀ := owning_touch howns
      obtain ⟨howned, hbound⟩ := same_update h (f := HeapCommand.setBackground) rfl rfl
      have hfree := owning_free howns howned
      rw [List.map_cons, hbg, expandsInside_background] at hsafe
      refine parses_of_turn [] (ih (ready_heapUpdate h _) hsafe rest (htouch ▸ hfree)) ?_
      rw [List.map_cons, hbg, redirections_background, hbound]
      exact Nat.zero_add _
  | case5 tok b m₀ m hpipe hbg set hset =>
      intro h _ rest howns
      have htouch : m = m₀ := owning_touch howns
      refine ⟨[], ?_, fun _ => ?_⟩
      · rw [htouch]
        exact owning_free howns rfl
      · rw [List.map_cons, List.map_nil, redirections_operator (redirection_ne_none_of_heap hset)]
        exact Nat.zero_add _
  | case6 tok b m₀ m hpipe hbg set file toks hset expanded ih =>
      intro h hsafe rest howns
      have htouch : m = m₀ := owning_touch howns
      obtain ⟨_, s, -, hs, hspec⟩ := heapRedirection_spec hset
      have hop := redirection_ne_none_of_heap hset
      rw [List.map_cons, List.map_cons, expandsInside_redirect hop] at hsafe
      have hfree : Owning (m.free tok) (file :: toks) b rest := by
        rw [htouch]
        exact owning_free howns rfl
      have hexp : expanded = (m.free tok).alloc (expandVariables env file.content) := by
        rw [← owning_touch hfree]
        exact expandHeap_of_safe hsafe.1 _
      obtain ⟨old, hown, hbound⟩ := owning_redirect (fun file r => (hspec file r).2) h hfree
        (expandVariables env file.content)
      rw [← hexp] at hown hbound
      refine parses_of_turn old (ih (ready_heapUpdate h _) hsafe.2 _ hown) ?_
      rw [List.map_cons, List.map_cons, redirections_redirect hop hs]
      omega
  | case7 tok b m₀ m hpipe hbg toks hset expanded ih =>
      intro h hsafe rest howns
      have htouch : m = m₀ := owning_touch howns
      have harg := not_mem_operators_iff.mpr ⟨hpipe, hbg, heapRedirection_eq_none_iff.mp hset⟩
      rw [List.map_cons, expandsInside_argument harg] at hsafe
      have hexp : expanded = m₀.alloc (expandVariables env tok.content) := by
        rw [← htouch]
        exact expandHeap_of_safe hsafe.1 _
      obtain ⟨hown, hbound⟩ := owning_pushArg h howns (expandVariables env tok.content)
      rw [← hexp] at hown hbound
      refine parses_of_turn [] (ih (ready_heapUpdate h _) hsafe.2 _ hown) ?_
      rw [List.map_cons, redirections_argument harg, hbound]
      exact Nat.zero_add _

end Parsing

section Lines

/-- The blocks of a pipeline. -/
def HeapPipeline.owned (p : HeapPipeline) : List Nat :=
  (List.range p.count).flatMap fun i => (p.commands i).owned

def HeapPipeline.bound (p : HeapPipeline) : Nat :=
  ((List.range p.count).map fun i => (p.commands i).bound).sum

variable {env : Environment} {m : Memory} {rest : List Nat} {p : HeapPipeline}

theorem owns_copyTokens
    (h : m.Owns rest)
    (toks : List Bytes) :
    (copyTokens toks m).2.Owns ((copyTokens toks m).1.map Ptr.block ++ rest) := by
  induction toks generalizing m rest with
  | nil => exact h
  | cons tok toks ih => exact (ih (h.alloc tok)).perm List.perm_middle

/-- What `parse_line` leaves. -/
def ParsesLine (line : CString) (rest : List Nat) (result : HeapPipeline × Memory) : Prop :=
  ∃ lost, result.2.Owns (result.1.owned ++ (lost ++ rest)) ∧
    (result.1.count ≤ maxPipeSegments →
      lost.length + result.1.bound =
        if line.bytes.head? = some (byte '#') then 0 else redirections (tokenize line))

/-- No string of a line is expanded past the end of an array. -/
def LineExpandsInside (env : Environment) (line : CString) : Prop :=
  line.bytes.head? = some (byte '#') ∨ ExpandsInside env (tokenize line)

instance (env : Environment) (line : CString) : Decidable (LineExpandsInside env line) :=
  inferInstanceAs (Decidable (_ ∨ _))

theorem ready_heapStart : HeapBuilding.start.Ready where
  cmd := rfl
  inside := by decide
  zero := fun _ _ => rfl

/-- The last terminator changes no block. -/
theorem owned_finish
    (b : HeapBuilding) :
    HeapPipeline.owned ⟨(b.update HeapCommand.terminate).commands, b.cmdIdx + 1⟩ = b.owned ∧
      HeapPipeline.bound ⟨(b.update HeapCommand.terminate).commands, b.cmdIdx + 1⟩ = b.bound := by
  have hcommands : ∀ i, ((b.update HeapCommand.terminate).commands i).owned =
        (b.commands i).owned ∧
      ((b.update HeapCommand.terminate).commands i).bound = (b.commands i).bound := by
    intro i
    by_cases hi : i = b.cmd
    · rw [hi, heapUpdate_cmd]
      exact ⟨owned_terminate _, rfl⟩
    · rw [heapUpdate_of_ne hi]
      exact ⟨rfl, rfl⟩
  constructor
  · exact List.flatMap_congr fun i _ => (hcommands i).1
  · rw [HeapPipeline.bound, HeapBuilding.bound]
    exact congrArg List.sum (List.map_congr_left fun i _ => (hcommands i).2)

/-- The heap of `parse_line`. -/
theorem parsesLine_parseLineHeap
    {line : Ptr CString}
    (h : m.Owns rest)
    (hline : line.block ∈ rest)
    (hsafe : LineExpandsInside env line.content) :
    ParsesLine line.content rest (parseLineHeap env line m) := by
  have hnone : redirections [] = 0 := by decide
  unfold parseLineHeap
  simp only [h.touch hline]
  split_ifs with hempty hcomment htoks
  · have htokens : tokenize line.content = [] := by
      rw [tokenize, hempty]
      rfl
    refine ⟨[], h, fun _ => ?_⟩
    rw [hempty, htokens, hnone]
    rfl
  · refine ⟨[], h, fun _ => ?_⟩
    rw [if_pos hcomment]
    rfl
  · have hcontent := content_copyTokens (tokenize line.content) (m.alloc ()).2
    have howns := owns_copyTokens (h.alloc ()) (tokenize line.content)
    rw [htoks] at hcontent howns
    refine ⟨[], howns.free, fun _ => ?_⟩
    rw [if_neg hcomment, ← hcontent, List.map_nil, hnone]
    rfl
  · have hcontent := content_copyTokens (tokenize line.content) (m.alloc ()).2
    have hcopied := owns_copyTokens (h.alloc ()) (tokenize line.content)
    have hinside := hsafe.resolve_left hcomment
    rw [← hcontent] at hinside
    obtain ⟨lost, howns, hlost⟩ :=
      parses_parseHeap env _ .start _ ready_heapStart hinside (Ptr.block (m.alloc ()).1 :: rest)
        hcopied
    obtain ⟨hfinishOwned, hfinishBound⟩ := owned_finish
      (parseHeap env (copyTokens (tokenize line.content) (m.alloc ()).2).1 .start
        (copyTokens (tokenize line.content) (m.alloc ()).2).2).1
    rw [hcontent] at hlost
    refine ⟨lost, ?_, fun hcount => ?_⟩
    · rw [hfinishOwned]
      refine (howns.perm ?_).free
      exact (List.perm_middle.append_left _ |>.trans List.perm_middle)
    · rw [hfinishBound, if_neg hcomment, hlost (Nat.lt_of_succ_le hcount)]
      exact Nat.zero_add _

end Lines

section Faults

variable {env : Environment} {m : Memory}

theorem fault_expandHeap
    (h : m.fault = true)
    (env : Environment) (tok : Text) :
    (expandHeap env tok m).2.fault = true := by
  unfold expandHeap
  split_ifs
  · exact fault_alloc h _
  · exact fault_alloc rfl _

theorem fault_parseHeap
    (env : Environment) (toks : List Text) (b : HeapBuilding) (m : Memory) :
    m.fault = true → (parseHeap env toks b m).2.fault = true := by
  fun_induction parseHeap env toks b m with
  | case1 b m => exact id
  | case2 tok toks b m₀ m hpipe hlimit => exact fun h => fault_touch h tok
  | case3 tok toks b m₀ m hpipe hlimit ih => exact fun h => ih (fault_free (fault_touch h tok) tok)
  | case4 tok toks b m₀ m hpipe hbg ih => exact fun h => ih (fault_free (fault_touch h tok) tok)
  | case5 tok b m₀ m hpipe hbg set hset => exact fun h => fault_free (fault_touch h tok) tok
  | case6 tok b m₀ m hpipe hbg set file toks hset expanded ih =>
      intro h
      have hfreed : (m.free tok).fault = true := fault_free (fault_touch h tok) tok
      exact ih (fault_free (fault_expandHeap (fault_touch hfreed file) env file) file)
  | case7 tok b m₀ m hpipe hbg toks hset expanded ih =>
      exact fun h => ih (fault_free (fault_expandHeap (fault_touch h tok) env tok) tok)

/-- A string that is expanded past the end of an array is a fault, unless the loop ends in front
of it. -/
theorem fault_parseHeap_of_overrun
    (env : Environment) (toks : List Text) (b : HeapBuilding) (m : Memory) :
    b.cmdIdx + pipeOperators (toks.map Ptr.content) < maxPipeSegments →
      ¬ ExpandsInside env (toks.map Ptr.content) → (parseHeap env toks b m).2.fault = true := by
  fun_induction parseHeap env toks b m with
  | case1 b m =>
      exact fun _ hoverrun => absurd (by simp [ExpandsInside, items]) hoverrun
  | case2 tok toks b m₀ m hpipe hlimit =>
      intro hfew
      rw [List.map_cons, hpipe, pipeOperators_pipe] at hfew
      omega
  | case3 tok toks b m₀ m hpipe hlimit ih =>
      intro hfew hoverrun
      rw [List.map_cons, hpipe] at hfew hoverrun
      rw [pipeOperators_pipe] at hfew
      rw [expandsInside_pipe] at hoverrun
      refine ih ?_ hoverrun
      change b.cmdIdx + 1 + _ < _
      omega
  | case4 tok toks b m₀ m hpipe hbg ih =>
      intro hfew hoverrun
      rw [List.map_cons, hbg] at hfew hoverrun
      rw [pipeOperators_background] at hfew
      rw [expandsInside_background] at hoverrun
      exact ih hfew hoverrun
  | case5 tok b m₀ m hpipe hbg set hset =>
      exact fun _ hoverrun =>
        absurd (expandsInside_operator (redirection_ne_none_of_heap hset)) hoverrun
  | case6 tok b m₀ m hpipe hbg set file toks hset expanded ih =>
      intro hfew hoverrun
      have hop := redirection_ne_none_of_heap hset
      rw [List.map_cons, List.map_cons] at hfew hoverrun
      rw [pipeOperators_redirect hop] at hfew
      rw [expandsInside_redirect hop] at hoverrun
      by_cases hfile : ExpandSafe env file.content
      · exact ih hfew fun hrest => hoverrun ⟨hfile, hrest⟩
      · refine fault_parseHeap _ _ _ _ (fault_free ?_ file)
        simp only [expanded, expandHeap, if_neg hfile]
        exact fault_alloc rfl _
  | case7 tok b m₀ m hpipe hbg toks hset expanded ih =>
      intro hfew hoverrun
      have harg := not_mem_operators_iff.mpr ⟨hpipe, hbg, heapRedirection_eq_none_iff.mp hset⟩
      rw [List.map_cons] at hfew hoverrun
      rw [pipeOperators_argument harg] at hfew
      rw [expandsInside_argument harg] at hoverrun
      by_cases htok : ExpandSafe env tok.content
      · exact ih hfew fun hrest => hoverrun ⟨htok, hrest⟩
      · refine fault_parseHeap _ _ _ _ (fault_free ?_ tok)
        simp only [expanded, expandHeap, if_neg htok]
        exact fault_alloc rfl _

theorem fault_copyTokens
    (h : m.fault = true)
    (toks : List Bytes) :
    (copyTokens toks m).2.fault = true := by
  induction toks generalizing m with
  | nil => exact h
  | cons tok toks ih => exact ih h

theorem fault_parseLineHeap
    (h : m.fault = true)
    (env : Environment) (line : Ptr CString) :
    (parseLineHeap env line m).2.fault = true := by
  have htouch := fault_touch h line
  have hcopied := fault_copyTokens (fault_alloc htouch ()) (tokenize line.content)
  unfold parseLineHeap
  simp only
  split_ifs
  · exact htouch
  · exact htouch
  · exact fault_free hcopied _
  · exact fault_free (fault_parseHeap env _ _ _ hcopied) _

/-- So is one of a line. -/
theorem fault_parseLineHeap_of_overrun
    {line : Ptr CString}
    (hfew : FewPipes line.content)
    (hoverrun : ¬ LineExpandsInside env line.content)
    (m : Memory) :
    (parseLineHeap env line m).2.fault = true := by
  obtain ⟨hcomment, hoverrun⟩ := not_or.mp hoverrun
  have hstrings : tokenize line.content ≠ [] := by
    intro hnil
    rw [hnil] at hoverrun
    exact hoverrun (by simp [ExpandsInside, items])
  have hempty : line.content.bytes ≠ [] := by
    intro hnil
    refine hstrings ?_
    rw [tokenize, hnil]
    rfl
  have hpipes := (hfew.resolve_left hempty).resolve_left hcomment
  have hcontent := content_copyTokens (tokenize line.content) ((m.touch line).alloc ()).2
  unfold parseLineHeap
  simp only
  rw [if_neg hempty, if_neg hcomment, if_neg]
  · refine fault_free (fault_parseHeap_of_overrun _ _ _ _ ?_ ?_) _
    · rw [hcontent]
      exact (Nat.zero_add _).trans_lt hpipes
    · rwa [hcontent]
  · intro hnil
    rw [hnil] at hcontent
    exact hstrings hcontent.symm

end Faults

end Shell
end SecureZ
