import SecureZ.Shell.HeapParser

/-!
# The blocks of a line

For every line the main loop of `szshell.c` has its strings on the heap: the prompt and the line
itself, the tokens, and what `expand_variables` makes of them.  The history keeps a copy of the
line.  The main loop frees the strings of the pipeline when that was executed, and then the line.

The main result says for every run of lines when the loop stays inside its memory and its arrays,
and which blocks are never freed: those of the history, and one for each file of a redirection that
is written over by a later redirection of the same stream.  What readline and the executed commands
allocate for themselves is left out.
-/

namespace SecureZ
namespace Shell

open CLib Blocks

section Model

/-- The main loop frees the strings of the pipeline. -/
def freePipeline (p : HeapPipeline) (m : Memory) : Memory :=
  (List.range p.count).foldl
    (fun m i =>
      if i < maxPipeSegments then (p.commands i).texts.foldl Memory.free m else m.fail)
    m

/-- What `execute_pipeline` may read. -/
def touchPipeline (p : HeapPipeline) (m : Memory) : Memory :=
  (List.range p.count).foldl
    (fun m i =>
      if i < maxPipeSegments then (p.commands i).texts.foldl Memory.touch m else m.fail)
    m

/-- A turn of the main loop: the environment, the prompt and what `readline` returns. -/
structure Turn where
  env : Environment
  prompt : Bytes
  line : CString

/-- The memory of the main loop, with the copies that the history keeps. -/
structure LoopHeap where
  memory : Memory
  history : List (Ptr CString)

/-- The main loop at its start. -/
def LoopHeap.start : LoopHeap := ⟨.start, []⟩

/-- A line that is not empty: `add_history` copies it, and it is parsed, executed and freed. -/
def executeHeap (env : Environment) (line : Ptr CString) (m : Memory) : Ptr CString × Memory :=
  let kept := (m.touch line).alloc line.content
  let parsed := parseLineHeap env line kept.2
  (kept.1, (freePipeline parsed.1 (touchPipeline parsed.1 parsed.2)).free line)

/-- The main loop reads and executes a line. -/
def turnHeap (s : LoopHeap) (t : Turn) : LoopHeap :=
  let prompt := s.memory.alloc t.prompt
  let line := prompt.2.alloc t.line
  let m := ((line.2.touch prompt.1).free prompt.1).touch line.1
  if t.line.bytes = [] then { s with memory := m.free line.1 }
  else
    let executed := executeHeap t.env line.1 m
    ⟨executed.2, s.history ++ [executed.1]⟩

end Model

section Lines

/-- The strings that nobody frees when a line was executed. -/
def leaked (line : CString) : Nat :=
  if line.bytes.head? = some (byte '#') then 0
  else ((segments (tokenize line)).map overwritten).sum

variable {env : Environment} {m : Memory} {rest : List Nat} {p : HeapPipeline}

/-- The streams that a segment redirects. -/
def targets (seg : List Item) : Nat :=
  ([.stdin, .stdout, .stderr].map fun s => if fileTokens s seg = [] then 0 else 1).sum

theorem fileCount_eq
    (seg : List Item) :
    fileCount seg = overwritten seg + targets seg := by
  have hone : ∀ s, (fileTokens s seg).length =
      (fileTokens s seg).length - 1 + if fileTokens s seg = [] then 0 else 1 := by
    intro s
    cases fileTokens s seg <;> simp
  have hin := hone .stdin
  have hout := hone .stdout
  have herr := hone .stderr
  simp only [fileCount, overwritten, targets, List.map_cons, List.map_nil, List.sum_cons,
    List.sum_nil]
  omega

theorem bound_eq
    {c : HeapCommand} {seg : List Item}
    (h : Holds env seg c.read) :
    c.bound = targets seg := by
  have hslot : ∀ s, (c.redir.file s).isSome = true ↔ fileTokens s seg ≠ [] := by
    intro s
    have htarget : c.read.redir.target s = (c.redir.file s).map Ptr.content := by
      cases s <;> rfl
    have hsome := congrArg Option.isSome (htarget.symm.trans (h.target s))
    rw [Option.isSome_map, Option.isSome_map] at hsome
    rw [hsome, List.getLast?_isSome]
  have hone : ∀ s, (c.redir.file s).toList.length = if fileTokens s seg = [] then 0 else 1 := by
    intro s
    have hs := hslot s
    cases hfile : c.redir.file s with
    | none =>
        rw [hfile] at hs
        rw [if_pos (by simpa using hs)]
        rfl
    | some file =>
        rw [hfile] at hs
        rw [if_neg (by simpa using hs)]
        rfl
  have hsplit : ∀ slots : List Stream, (slots.filterMap c.redir.file).length =
      (slots.map fun s => (c.redir.file s).toList.length).sum := by
    intro slots
    induction slots with
    | nil => rfl
    | cons s slots ih =>
        cases hfile : c.redir.file s <;> simp [hfile, ih, Nat.add_comm]
  rw [HeapCommand.bound, hsplit, targets]
  simp only [hone]

theorem sum_fileCount
    (segs : List (List Item)) :
    (segs.map fileCount).sum = (segs.map targets).sum + (segs.map overwritten).sum := by
  induction segs with
  | nil => rfl
  | cons seg segs ih =>
      simp only [List.map_cons, List.sum_cons, ih, fileCount_eq]
      omega

/-- The streams of a parsed pipeline that are redirected. -/
theorem bound_of_segments
    {segs : List (List Item)}
    (hcount : p.count = segs.length)
    (hcommands : ∀ i seg, segs[i]? = some seg →
      (p.commands i).read = segmentCommand env .zero seg) :
    p.bound = (segs.map targets).sum := by
  have hmap : (List.range p.count).map (fun i => (p.commands i).bound) = segs.map targets := by
    apply List.ext_getElem
    · simp [hcount]
    · intro i hi hi'
      have hlt : i < segs.length := by simpa using hi'
      have hseg : segs[i]? = some segs[i] := List.getElem?_eq_getElem hlt
      have hholds := holds_segmentCommand env segs[i]
      rw [← hcommands i _ hseg] at hholds
      simpa using bound_eq hholds
  rw [HeapPipeline.bound, hmap]

/-- What is lost in a line is what its redirections write over. -/
theorem bound_parsed
    {line : CString}
    (hread : p.read = parseLine env line)
    (hfew : FewPipes line) :
    p.bound + leaked line =
      if line.bytes.head? = some (byte '#') then 0 else redirections (tokenize line) := by
  have hcount : p.count = (parseLine env line).count := congrArg Pipeline.count hread
  have hempty : (parseLine env line).count = 0 → p.bound = 0 := by
    intro hzero
    rw [HeapPipeline.bound, hcount, hzero]
    rfl
  unfold leaked
  split_ifs with hcomment
  · have hzero : (parseLine env line).count = 0 := by
      unfold parseLine
      split_ifs <;> rfl
    rw [hempty hzero]
  · by_cases htoks : tokenize line = []
    · have hzero : (parseLine env line).count = 0 := by
        unfold parseLine
        split_ifs
        · rfl
        · rw [htoks]
          rfl
      rw [hempty hzero, htoks]
      decide
    · have hpipes : pipeOperators (tokenize line) < maxPipeSegments := by
        rcases hfew with hnil | hhash | hpipes
        · exact absurd (by rw [tokenize, hnil]; rfl) htoks
        · exact absurd hhash hcomment
        · exact hpipes
      have hlength := length_segments (tokenize line)
      have hsegs : p.count = (segments (tokenize line)).length := by
        rw [hcount, count_parseLine hcomment htoks, hlength, Nat.min_eq_left hpipes.le]
      rw [redirections, sum_fileCount, bound_of_segments hsegs]
      intro i seg hseg
      have hcommand := congrFun (congrArg Pipeline.commands hread) i
      have htake : (segments (tokenize line)).take maxPipeSegments = segments (tokenize line) :=
        List.take_of_length_le (by omega)
      rw [commands_parseLine hcomment, htake, hseg] at hcommand
      exact hcommand

/-- The main loop gives back what is in the pipeline. -/
theorem owns_freePipeline
    (h : m.Owns (p.owned ++ rest))
    (hcount : p.count ≤ maxPipeSegments) :
    (freePipeline p m).Owns rest := by
  have hall : ∀ (is : List Nat) (m : Memory), (∀ i ∈ is, i < maxPipeSegments) →
      m.Owns ((is.flatMap fun i => (p.commands i).owned) ++ rest) →
        (is.foldl (fun m i =>
          if i < maxPipeSegments then (p.commands i).texts.foldl Memory.free m else m.fail)
            m).Owns rest := by
    intro is
    induction is with
    | nil => exact fun m _ h => h
    | cons i is ih =>
        intro m his hm
        rw [List.forall_mem_cons] at his
        rw [List.foldl_cons, if_pos his.1]
        refine ih _ his.2 (Memory.Owns.freeAll ?_)
        rwa [List.flatMap_cons, List.append_assoc] at hm
  exact hall _ m (fun i hi => Nat.lt_of_lt_of_le (List.mem_range.mp hi) hcount) h

theorem touchPipeline_eq
    (h : m.Owns (p.owned ++ rest))
    (hcount : p.count ≤ maxPipeSegments) :
    touchPipeline p m = m := by
  have hall : ∀ is : List Nat, (∀ i ∈ is, i < p.count) →
      is.foldl (fun m i =>
        if i < maxPipeSegments then (p.commands i).texts.foldl Memory.touch m else m.fail) m =
          m := by
    intro is
    induction is with
    | nil => exact fun _ => rfl
    | cons i is ih =>
        intro his
        rw [List.forall_mem_cons] at his
        rw [List.foldl_cons, if_pos (Nat.lt_of_lt_of_le his.1 hcount), h.touchAll, ih his.2]
        intro text htext
        refine List.mem_append_left _ (List.mem_flatMap.mpr ⟨i, List.mem_range.mpr his.1, ?_⟩)
        exact List.mem_map_of_mem htext
  exact hall _ fun i hi => List.mem_range.mp hi

/-- What is allocated is what was lost and what the history keeps. -/
def LoopHeap.Owns (s : LoopHeap) (lost : List Nat) : Prop :=
  s.memory.Owns (lost ++ s.history.map Ptr.block)

/-- The line stays inside the arrays: it has no more pipes than the pipeline has room for, and none
of its strings is expanded past the end of an array. -/
def Turn.Inside (t : Turn) : Prop :=
  FewPipes t.line ∧ LineExpandsInside t.env t.line

instance (t : Turn) : Decidable t.Inside :=
  inferInstanceAs (Decidable (_ ∧ _))

/-- The history keeps a line that is not empty. -/
theorem history_turnHeap
    (s : LoopHeap) (t : Turn) :
    (turnHeap s t).history.map Ptr.content =
      s.history.map Ptr.content ++ if t.line.bytes = [] then [] else [t.line] := by
  unfold turnHeap
  simp only
  split_ifs
  · exact (List.append_nil _).symm
  · exact List.map_append

/-- The line, its tokens and its strings are given back, apart from what its redirections write
over; the history keeps its copy. -/
theorem owns_executeHeap
    {line : Ptr CString}
    (h : m.Owns (line.block :: rest))
    (hfew : FewPipes line.content)
    (hsafe : LineExpandsInside env line.content) :
    ∃ lost,
      (executeHeap env line m).2.Owns (lost ++ (rest ++ [(executeHeap env line m).1.block])) ∧
        lost.length = leaked line.content := by
  have htouch : m.touch line = m := h.touch (List.mem_cons_self ..)
  unfold executeHeap
  simp only [htouch]
  have hread := read_parseLineHeap env line (m.alloc line.content).2
  obtain ⟨lost, howns, hlost⟩ :=
    parsesLine_parseLineHeap (h.alloc line.content)
      (List.mem_cons_of_mem _ (List.mem_cons_self ..)) hsafe
  have hcount := (count_parseLine_le_iff env line.content).mpr hfew
  rw [← congrArg Pipeline.count hread] at hcount
  have hsum := bound_parsed hread hfew
  have htotal := hlost hcount
  refine ⟨lost, ?_, by omega⟩
  rw [touchPipeline_eq howns hcount]
  have hgiven := (owns_freePipeline howns hcount).perm
    (((List.Perm.swap ..).append_left lost).trans List.perm_middle)
  exact hgiven.free.perm ((List.perm_append_singleton _ rest).symm.append_left lost)

/-- A turn of the main loop. -/
theorem owns_turnHeap
    {s : LoopHeap} {t : Turn} {before : List Nat}
    (h : s.Owns before)
    (hinside : t.Inside) :
    ∃ lost, (turnHeap s t).Owns (lost ++ before) ∧ lost.length = leaked t.line := by
  have hprompt := Memory.Owns.alloc h t.prompt
  have hline := hprompt.alloc t.line
  have hfreed := (hline.perm (List.Perm.swap ..)).free
  unfold turnHeap
  simp only [hline.touch (List.mem_cons_of_mem _ (List.mem_cons_self ..)),
    hfreed.touch (List.mem_cons_self ..)]
  split_ifs with hempty
  · refine ⟨[], hfreed.free, ?_⟩
    have htokens : tokenize t.line = [] := by
      rw [tokenize, hempty]
      rfl
    rw [leaked, hempty, htokens]
    decide
  · obtain ⟨lost, howns, hlost⟩ := owns_executeHeap hfreed hinside.1 hinside.2
    refine ⟨lost, ?_, hlost⟩
    rw [LoopHeap.Owns, List.map_append, List.append_assoc, ← List.append_assoc before]
    exact howns

/-- A turn over the commands of a pipeline keeps a fault. -/
theorem fault_commands
    {f : Memory → Text → Memory}
    (hf : ∀ m text, m.fault = true → (f m text).fault = true)
    (p : HeapPipeline) (m : Memory) (i : Nat)
    (h : m.fault = true) :
    (if i < maxPipeSegments then (p.commands i).texts.foldl f m else m.fail).fault = true := by
  split_ifs
  · exact fault_foldl hf h _
  · rfl

/-- Behind a fault everything is faulty, and a pipeline with too many commands is one. -/
theorem fault_pipeline
    (p : HeapPipeline)
    (h : m.fault = true ∨ maxPipeSegments < p.count) :
    (freePipeline p (touchPipeline p m)).fault = true := by
  have htouched : (touchPipeline p m).fault = true := by
    rcases h with h | h
    · exact fault_foldl (fault_commands (fun m text hm => fault_touch hm text) p) h _
    · refine fault_foldl_of_mem (fault_commands (fun m text hm => fault_touch hm text) p)
        (List.mem_range.mpr h) (fun m => ?_) m
      rw [if_neg (Nat.lt_irrefl _)]
      rfl
  exact fault_foldl (fault_commands (fun m text hm => fault_free hm text) p) htouched _

theorem fault_executeHeap
    (h : m.fault = true)
    (env : Environment) (line : Ptr CString) :
    (executeHeap env line m).2.fault = true :=
  fault_free
    (fault_pipeline _ (Or.inl (fault_parseLineHeap (fault_alloc (fault_touch h _) _) _ _))) _

/-- A line that does not stay inside the arrays is a fault. -/
theorem fault_executeHeap_of_outside
    {line : Ptr CString}
    (houtside : ¬ (FewPipes line.content ∧ LineExpandsInside env line.content))
    (m : Memory) :
    (executeHeap env line m).2.fault = true := by
  refine fault_free (fault_pipeline _ ?_) _
  by_cases hfew : FewPipes line.content
  · have hoverrun := fun hinside => houtside ⟨hfew, hinside⟩
    exact Or.inl (fault_parseLineHeap_of_overrun hfew hoverrun _)
  · have hread := read_parseLineHeap env line ((m.touch line).alloc line.content).2
    have hcount := mt (count_parseLine_le_iff env line.content).mp hfew
    rw [← congrArg Pipeline.count hread] at hcount
    exact Or.inr (Nat.lt_of_not_le hcount)

theorem fault_turnHeap
    {s : LoopHeap}
    (t : Turn)
    (h : s.memory.fault = true) :
    (turnHeap s t).memory.fault = true := by
  have hread :
      ((((s.memory.alloc t.prompt).2.alloc t.line).2.touch (s.memory.alloc t.prompt).1).free
        (s.memory.alloc t.prompt).1 |>.touch
          ((s.memory.alloc t.prompt).2.alloc t.line).1).fault = true :=
    fault_touch (fault_free (fault_touch (fault_alloc (fault_alloc h _) _) _) _) _
  unfold turnHeap
  simp only
  split_ifs
  · exact fault_free hread _
  · exact fault_executeHeap hread _ _

theorem fault_turnHeap_of_outside
    {t : Turn}
    (houtside : ¬ t.Inside)
    (s : LoopHeap) :
    (turnHeap s t).memory.fault = true := by
  have hempty : t.line.bytes ≠ [] := by
    intro hnil
    have htokens : tokenize t.line = [] := by
      rw [tokenize, hnil]
      rfl
    refine houtside ⟨Or.inl hnil, Or.inr ?_⟩
    rw [htokens]
    simp [ExpandsInside, items]
  unfold turnHeap
  simp only [if_neg hempty]
  refine fault_executeHeap_of_outside ?_ _
  exact houtside

end Lines

section Runs

/-- Within its limits the main loop owns what was lost and what the history keeps. -/
theorem owns_turns
    {turns : List Turn} {s : LoopHeap} {before : List Nat}
    (h : s.Owns before)
    (hinside : ∀ t ∈ turns, t.Inside) :
    ∃ lost, (turns.foldl turnHeap s).Owns (lost ++ before) ∧
      lost.length = (turns.map fun t => leaked t.line).sum := by
  induction turns generalizing s before with
  | nil => exact ⟨[], h, rfl⟩
  | cons t turns ih =>
      rw [List.forall_mem_cons] at hinside
      obtain ⟨first, hfirst, hlen⟩ := owns_turnHeap h hinside.1
      obtain ⟨lost, howns, hlost⟩ := ih hfirst hinside.2
      refine ⟨lost ++ first, by rwa [List.append_assoc], ?_⟩
      rw [List.length_append, List.map_cons, List.sum_cons, hlost, hlen, Nat.add_comm]

/-- The history keeps the lines that are not empty. -/
theorem history_turns
    (turns : List Turn) (s : LoopHeap) :
    (turns.foldl turnHeap s).history.map Ptr.content =
      s.history.map Ptr.content ++ (turns.map Turn.line).filter fun line => line.bytes ≠ [] := by
  induction turns generalizing s with
  | nil => simp
  | cons t turns ih =>
      rw [List.foldl_cons, ih, history_turnHeap, List.append_assoc]
      by_cases hempty : t.line.bytes = [] <;> simp [hempty]

/-- Behind a fault everything is faulty. -/
theorem fault_turns
    {s : LoopHeap}
    (h : s.memory.fault = true)
    (turns : List Turn) :
    (turns.foldl turnHeap s).memory.fault = true := by
  induction turns generalizing s with
  | nil => exact h
  | cons t turns ih => exact ih (fault_turnHeap t h)

theorem fault_turns_of_outside
    {turns : List Turn} {t : Turn}
    (hmem : t ∈ turns)
    (houtside : ¬ t.Inside)
    (s : LoopHeap) :
    (turns.foldl turnHeap s).memory.fault = true := by
  obtain ⟨before, behind, rfl⟩ := List.append_of_mem hmem
  rw [List.foldl_append, List.foldl_cons]
  exact fault_turns (fault_turnHeap_of_outside houtside _) behind

/-- No stream is redirected twice in one command. -/
def BindsOnce (line : CString) : Prop :=
  line.bytes.head? = some (byte '#') ∨
    ∀ seg ∈ segments (tokenize line), ∀ s, (fileTokens s seg).length ≤ 1

theorem leaked_eq_zero_iff
    (line : CString) :
    leaked line = 0 ↔ BindsOnce line := by
  have hseg : ∀ seg, overwritten seg = 0 ↔ ∀ s, (fileTokens s seg).length ≤ 1 := by
    intro seg
    simp only [overwritten, List.map_cons, List.map_nil, List.sum_cons, List.sum_nil]
    constructor
    · intro h s
      cases s <;> omega
    · intro h
      have hin := h .stdin
      have hout := h .stdout
      have herr := h .stderr
      omega
  unfold leaked BindsOnce
  split_ifs with hcomment
  · simp [hcomment]
  · simp [hcomment, List.sum_eq_zero_iff_forall_eq_nat, hseg]

/--
**The strings of every line are freed, up to those that are written over.**

For every line the pointer-level parser reads as `parse_line`.  For every run of lines, with
whatever environment each of them meets: the main loop uses and frees only what is allocated, and
stays inside its arrays, exactly when no line has more pipes than the pipeline has room for or a
string that is expanded past the end of `result`.  Then the history keeps a copy of each line that
is not empty, and what stays behind besides is one string for each redirection of a stream that a
later one in the same command writes over; nothing exactly when there are none.
-/
theorem lines_freed
    (turns : List Turn) :
    (∀ env line m, (parseLineHeap env line m).1.read = parseLine env line.content) ∧
      ((turns.foldl turnHeap .start).memory.fault = false ↔ ∀ t ∈ turns, t.Inside) ∧
      ((∀ t ∈ turns, t.Inside) →
        (turns.foldl turnHeap .start).history.map Ptr.content =
            (turns.map Turn.line).filter (fun line => line.bytes ≠ []) ∧
          ∃ lost,
            (turns.foldl turnHeap .start).memory.live.Perm
                (lost ++ (turns.foldl turnHeap .start).history.map Ptr.block) ∧
              lost.length = (turns.map fun t => leaked t.line).sum ∧
              (lost = [] ↔ ∀ t ∈ turns, BindsOnce t.line)) := by
  have hstart : LoopHeap.start.Owns [] := owns_start
  refine ⟨read_parseLineHeap, ⟨fun hfault t ht => ?_, fun hinside => ?_⟩, fun hinside => ?_⟩
  · by_contra houtside
    rw [fault_turns_of_outside ht houtside .start] at hfault
    cases hfault
  · obtain ⟨lost, howns, -⟩ := owns_turns hstart hinside
    exact howns.noFault
  · obtain ⟨lost, howns, hlost⟩ := owns_turns hstart hinside
    rw [List.append_nil] at howns
    refine ⟨(history_turns turns .start).trans (List.nil_append _), lost, howns.live, hlost, ?_⟩
    rw [← List.length_eq_zero_iff, hlost, List.sum_eq_zero_iff_forall_eq_nat]
    simp [leaked_eq_zero_iff]

end Runs

section Examples

/-- The only variable is `HOME`. -/
def rootHome : Environment := fun name =>
  if name = ascii "HOME" then some (cstr (ascii "/root")) else none

/-- Lines at the prompt `$`: one with a redirection that is written over, an empty one, one with
variables and a comment. -/
def sampleTurns : List Turn :=
  [⟨rootHome, ascii "$", cstr (ascii "ls > a > b | wc < c")⟩, ⟨rootHome, ascii "$", cstr []⟩,
    ⟨rootHome, ascii "$", cstr (ascii "echo ~/$USER $HOME &")⟩,
    ⟨rootHome, ascii "$", cstr (ascii "# echo > a > b")⟩]

/-- The name of the file `a` is lost, and the history keeps three lines. -/
theorem sample_lines_freed :
    (sampleTurns.foldl turnHeap .start).memory.fault = false ∧
      (sampleTurns.foldl turnHeap .start).history.map Ptr.content =
        [cstr (ascii "ls > a > b | wc < c"), cstr (ascii "echo ~/$USER $HOME &"),
          cstr (ascii "# echo > a > b")] ∧
      (sampleTurns.foldl turnHeap .start).memory.live.length = 4 := by
  have hinside : ∀ t ∈ sampleTurns, t.Inside := by decide +kernel
  have hlines :
      (sampleTurns.map Turn.line).filter (fun line => line.bytes ≠ []) =
        [cstr (ascii "ls > a > b | wc < c"), cstr (ascii "echo ~/$USER $HOME &"),
          cstr (ascii "# echo > a > b")] := by
    decide +kernel
  have hleaked : (sampleTurns.map fun t => leaked t.line).sum = 1 := by decide +kernel
  obtain ⟨-, hfault, hrest⟩ := lines_freed sampleTurns
  obtain ⟨hhistory, lost, hlive, hlost, -⟩ := hrest hinside
  have hkept := congrArg List.length (hhistory.trans hlines)
  rw [List.length_map] at hkept
  refine ⟨hfault.mpr hinside, hhistory.trans hlines, ?_⟩
  rw [hlive.length_eq, List.length_append, List.length_map, hlost, hleaked, hkept]
  rfl

end Examples

end Shell
end SecureZ
