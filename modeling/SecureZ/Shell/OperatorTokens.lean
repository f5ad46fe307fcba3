import SecureZ.Shell.Items

/-!
# Operators that are taken as words

The tokenizer of `parser.c` makes tokens of `|`, `&`, `;`, `<`, `>`, `>>` and `2>`.  The
parser knows all of them but `;`, and takes the token behind a redirection as its file
without looking at it.  An operator can therefore end up as an argument or as a file.

The main result says of every line without quoting and variables exactly when none does.
-/

namespace SecureZ
namespace Shell

open CLib

section Specification

/-- The operators that the tokenizer recognises. -/
def operatorTokens : List Bytes :=
  [ascii "|", ascii "&", ascii ";", ascii "<", ascii ">", ascii ">>", ascii "2>"]

/-- There is no quote, no backslash and no `$` in the line. -/
structure PlainLine (line : CString) : Prop where
  noQuote : byte '\'' ∉ line.bytes
  noDoubleQuote : byte '"' ∉ line.bytes
  noBackslash : byte '\\' ∉ line.bytes
  noDollar : byte '$' ∉ line.bytes

/-- No argument and no file of a redirection is an operator. -/
structure OperatorFree (c : Command) : Prop where
  argv : ∀ j arg, c.argv j = some arg → arg ∉ operatorTokens
  target : ∀ s file, c.redir.target s = some file → file ∉ operatorTokens

/-- In a segment, no `;` stands as an argument, and behind the last redirection of a stream
stands no operator. -/
structure OperatorsAct (seg : List Item) : Prop where
  noSemicolon : ascii ";" ∉ argumentTokens seg
  files : ∀ s, ∀ file ∈ (fileTokens s seg).getLast?, file ∉ operatorTokens

/-- The line is a comment, or its operators act in every segment that is parsed. -/
def LineActs (line : CString) : Prop :=
  line.bytes.head? = some (byte '#') ∨
    ∀ seg ∈ (segments (tokenize line)).take maxPipeSegments, OperatorsAct seg

end Specification

section Tokens

variable {c : UInt8} {token p : Bytes}

theorem not_mem_putByte
    {b : UInt8}
    (htoken : c ∉ token)
    (hb : c ≠ b) :
    c ∉ putByte token b := by
  unfold putByte
  split_ifs
  · simp [htoken, hb]
  · exact htoken

/-- A byte that is not in the line is not in a token, and not behind it either. -/
theorem not_mem_readSingle
    (htoken : c ∉ token)
    (hp : c ∉ p) :
    c ∉ (readSingle token p).1 ∧ c ∉ (readSingle token p).2 := by
  induction p generalizing token with
  | nil =>
      exact ⟨htoken, hp⟩
  | cons b p ih =>
      simp only [List.mem_cons, not_or] at hp
      simp only [readSingle]
      split_ifs
      · exact ⟨htoken, hp.2⟩
      · exact ih (not_mem_putByte htoken hp.1) hp.2

theorem not_mem_readDouble
    (htoken : c ∉ token)
    (hp : c ∉ p) :
    c ∉ (readDouble token p).1 ∧ c ∉ (readDouble token p).2 := by
  fun_induction readDouble token p with
  | case1 => exact ⟨htoken, hp⟩
  | case2 => simpa using htoken
  | case3 token b hb =>
      exact ⟨not_mem_putByte htoken (by simpa using hp), by simp⟩
  | case4 token d p =>
      simp only [List.mem_cons, not_or] at hp
      exact ⟨htoken, by simp [hp]⟩
  | case5 token d p hb ih =>
      simp only [List.mem_cons, not_or] at hp
      exact ih (not_mem_putByte htoken hp.2.1) hp.2.2
  | case6 token b d p hb hslash ih =>
      simp only [List.mem_cons, not_or] at hp
      exact ih (not_mem_putByte htoken hp.1) (by simp [hp])

theorem not_mem_readWord
    (htoken : c ∉ token)
    (hp : c ∉ p) :
    c ∉ (readWord token p).1 ∧ c ∉ (readWord token p).2 := by
  fun_induction readWord token p with
  | case1 => exact ⟨htoken, hp⟩
  | case2 => exact ⟨htoken, hp⟩
  | case3 token b hb =>
      exact ⟨not_mem_putByte htoken (by simpa using hp), by simp⟩
  | case4 => exact ⟨htoken, hp⟩
  | case5 token d p hb ih =>
      simp only [List.mem_cons, not_or] at hp
      exact ih (not_mem_putByte htoken hp.2.1) hp.2.2
  | case6 token b d p hb hslash ih =>
      simp only [List.mem_cons, not_or] at hp
      exact ih (not_mem_putByte htoken hp.1) (by simp [hp])

theorem not_mem_nextToken
    (hp : c ∉ p) :
    c ∉ (nextToken p).1 ∧ c ∉ (nextToken p).2 := by
  have htail : c ∉ p.tail.tail := fun h => hp (List.mem_of_mem_tail (List.mem_of_mem_tail h))
  cases p with
  | nil => simp [nextToken]
  | cons b p =>
      have hrest := hp
      simp only [List.mem_cons, not_or] at hp
      simp only [nextToken]
      split_ifs with hquote hdouble hsingle happend herrors hredir
      · exact not_mem_readSingle List.not_mem_nil hp.2
      · exact not_mem_readDouble List.not_mem_nil hp.2
      · exact ⟨by simp [hp.1], hp.2⟩
      · obtain ⟨rfl, hhead⟩ := happend
        refine ⟨?_, htail⟩
        have hpair : ascii ">>" = [byte '>', byte '>'] := by decide
        simp [hpair, hp.1]
      · obtain ⟨rfl, hhead⟩ := herrors
        have hgt : c ≠ byte '>' := fun h => hp.2 (h ▸ List.mem_of_mem_head? hhead)
        have hpair : ascii "2>" = [byte '2', byte '>'] := by decide
        refine ⟨by simp [hpair, hp.1, hgt], htail⟩
      · exact ⟨by simp [hp.1], hp.2⟩
      · exact not_mem_readWord List.not_mem_nil hrest

/-- A byte that is not in the line is in no token. -/
theorem not_mem_tokenizeLoop
    {fuel room : Nat} {tok : Bytes}
    (hp : c ∉ p)
    (htok : tok ∈ tokenizeLoop fuel room p) :
    c ∉ tok := by
  fun_induction tokenizeLoop fuel room p with
  | case1 => cases htok
  | case2 => cases htok
  | case3 => cases htok
  | case4 fuel room p b q hskip hnil ih =>
      have hq : c ∉ b :: q := fun h => hp (hskip ▸ h |> (List.dropWhile_suffix isSpace).subset)
      exact ih (not_mem_nextToken hq).2 htok
  | case5 fuel room p b q hskip hnil ih =>
      have hq : c ∉ b :: q := fun h => hp (hskip ▸ h |> (List.dropWhile_suffix isSpace).subset)
      rcases List.mem_cons.mp htok with rfl | htok
      · exact (not_mem_nextToken hq).1
      · exact ih (not_mem_nextToken hq).2 htok

end Tokens

section Items

/-- What an item may be when it comes from some tokens: it holds tokens of them, and an
argument is none of the operators that the parser knows. -/
def Item.From (toks : List Bytes) : Item → Prop
  | .argument tok => tok ∈ toks ∧ tok ∉ operators
  | .redirect _ file => file ∈ toks
  | _ => True

theorem from_cons
    {it : Item} {toks : List Bytes}
    (h : it.From toks)
    (tok : Bytes) :
    it.From (tok :: toks) := by
  cases it with
  | argument => exact ⟨List.mem_cons_of_mem _ h.1, h.2⟩
  | redirect => exact List.mem_cons_of_mem _ h
  | _ => trivial

theorem from_of_mem_items
    {it : Item} {toks : List Bytes}
    (h : it ∈ items toks) :
    it.From toks := by
  fun_induction items toks with
  | case1 => cases h
  | case2 rest ih =>
      rcases List.mem_cons.mp h with rfl | h
      · trivial
      · exact from_cons (ih h) _
  | case3 rest hne ih =>
      rcases List.mem_cons.mp h with rfl | h
      · trivial
      · exact from_cons (ih h) _
  | case4 tok hpipe hbg set hset => simp at h
  | case5 tok hpipe hbg set file rest hset ih =>
      rcases List.mem_cons.mp h with rfl | h
      · exact List.mem_cons_of_mem _ List.mem_cons_self
      · exact from_cons (from_cons (ih h) _) _
  | case6 tok hpipe hbg rest hset ih =>
      rcases List.mem_cons.mp h with rfl | h
      · refine ⟨List.mem_cons_self, ?_⟩
        have hredir := redirection_eq_none_iff.mp hset
        simp [operators, hpipe, hbg, hredir]
      · exact from_cons (ih h) _

/-- The items of a segment are items of the line. -/
theorem mem_of_mem_splitOnP
    {it : Item} {seg rest : List Item}
    (hseg : seg ∈ rest.splitOnP Item.isPipe)
    (hit : it ∈ seg) :
    it ∈ rest := by
  induction rest generalizing seg with
  | nil =>
      rw [List.splitOnP_nil, List.mem_singleton] at hseg
      rw [hseg] at hit
      cases hit
  | cons other rest ih =>
      cases hpipe : other.isPipe with
      | true =>
          rw [List.splitOnP_cons_eq_if_modifyHead, hpipe, if_pos rfl] at hseg
          rcases List.mem_cons.mp hseg with rfl | hseg
          · cases hit
          · exact List.mem_cons_of_mem _ (ih hseg hit)
      | false =>
          obtain ⟨first, segs, hrest, hcons⟩ := splitOnP_item hpipe rest
          rw [hrest] at ih
          rw [hcons] at hseg
          rcases List.mem_cons.mp hseg with rfl | hseg
          · rcases List.mem_cons.mp hit with rfl | hit
            · exact List.mem_cons_self
            · exact List.mem_cons_of_mem _ (ih List.mem_cons_self hit)
          · exact List.mem_cons_of_mem _ (ih (List.mem_cons_of_mem _ hseg) hit)

/-- The argument tokens of a segment are tokens of the line and no operators. -/
theorem argumentTokens_from
    {toks : List Bytes} {seg : List Item} {tok : Bytes}
    (hseg : seg ∈ segments toks)
    (htok : tok ∈ argumentTokens seg) :
    tok ∈ toks ∧ tok ∉ operators := by
  obtain ⟨it, hit, hsome⟩ := List.mem_filterMap.mp htok
  have hfrom := from_of_mem_items (mem_of_mem_splitOnP hseg hit)
  cases it with
  | argument tok' =>
      obtain rfl := Option.some.inj hsome
      exact hfrom
  | _ => cases hsome

theorem fileTokens_from
    {toks : List Bytes} {seg : List Item} {file : Bytes} {s : Stream}
    (hseg : seg ∈ segments toks)
    (hfile : file ∈ fileTokens s seg) :
    file ∈ toks := by
  obtain ⟨it, hit, hsome⟩ := List.mem_filterMap.mp hfile
  have hfrom := from_of_mem_items (mem_of_mem_splitOnP hseg hit)
  cases it with
  | redirect op file' =>
      simp only at hsome
      split_ifs at hsome
      obtain rfl := Option.some.inj hsome
      exact hfrom
  | _ => cases hsome

end Items

section Lines

variable {line : CString} {seg : List Item}

/-- Without a `$`, the tokens of the line are what the command holds. -/
theorem expand_token
    {tok : Bytes}
    (h : PlainLine line)
    (htok : tok ∈ tokenize line)
    (env : Environment) :
    expandVariables env tok = tok :=
  expandVariables_of_not_mem (not_mem_tokenizeLoop h.noDollar htok) env

/-- The command of a segment is free of operators exactly when those of the segment act. -/
theorem operatorFree_segment_iff
    (h : PlainLine line)
    (hseg : seg ∈ segments (tokenize line))
    (env : Environment) :
    OperatorFree (segmentCommand env .zero seg) ↔ OperatorsAct seg := by
  have hholds := holds_segmentCommand env seg
  have hargs : (argumentTokens seg).map (expandVariables env) = argumentTokens seg :=
    (List.map_congr_left fun tok htok =>
      expand_token h (argumentTokens_from hseg htok).1 env).trans (List.map_id _)
  have htarget : ∀ s,
      (segmentCommand env .zero seg).redir.target s = (fileTokens s seg).getLast? := by
    intro s
    rw [hholds.target]
    cases hlast : (fileTokens s seg).getLast? with
    | none => rfl
    | some file =>
        have hfile := fileTokens_from hseg (List.mem_of_getLast? hlast)
        rw [Option.map_some, expand_token h hfile]
  constructor
  · intro hfree
    refine ⟨fun hmem => ?_, fun s file hfile => hfree.target s file ((htarget s).trans hfile)⟩
    obtain ⟨j, hj⟩ := List.mem_iff_getElem?.mp hmem
    refine absurd (hfree.argv j _ ?_) (not_not.mpr (by decide : ascii ";" ∈ operatorTokens))
    rw [hholds.argv, hargs]
    exact hj
  · intro hact
    refine ⟨fun j arg harg => ?_,
      fun s file hfile => hact.files s file ((htarget s).symm.trans hfile)⟩
    rw [hholds.argv, hargs] at harg
    have hmem := List.mem_of_getElem? harg
    have hnot := (argumentTokens_from hseg hmem).2
    intro hop
    have hsemi : arg = ascii ";" := by
      simp only [operatorTokens, operators, List.mem_cons, List.not_mem_nil, or_false,
        not_or] at hop hnot
      tauto
    exact hact.noSemicolon (hsemi ▸ hmem)

theorem operatorFree_zero : OperatorFree .zero := by
  refine ⟨fun j arg h => ?_, fun s file h => ?_⟩
  · cases h
  · cases s <;> cases h

/-- Of a line without quoting and variables, no operator is taken for an argument or a file
exactly when the operators act. -/
theorem operatorFree_line_iff
    (h : PlainLine line)
    (env : Environment) :
    (∀ i, OperatorFree ((parseLine env line).commands i)) ↔ LineActs line := by
  by_cases hcomment : line.bytes.head? = some (byte '#')
  · refine iff_of_true (fun i => ?_) (.inl hcomment)
    have hzero : parseLine env line = .zero := by
      unfold parseLine
      split_ifs
      · rfl
      · rfl
    rw [hzero]
    exact operatorFree_zero
  · have hsub : ∀ seg ∈ (segments (tokenize line)).take maxPipeSegments,
        seg ∈ segments (tokenize line) :=
      fun seg => List.mem_of_mem_take
    constructor
    · intro hfree
      refine .inr fun seg hseg => ?_
      obtain ⟨i, hi⟩ := List.mem_iff_getElem?.mp hseg
      have hcmd := hfree i
      rw [commands_parseLine hcomment, hi] at hcmd
      exact (operatorFree_segment_iff h (hsub seg hseg) env).mp hcmd
    · rintro (hhash | hact) i
      · exact absurd hhash hcomment
      · rw [commands_parseLine hcomment]
        cases hi : ((segments (tokenize line)).take maxPipeSegments)[i]? with
        | none => exact operatorFree_zero
        | some seg =>
            have hseg := List.mem_of_getElem? hi
            exact (operatorFree_segment_iff h (hsub seg hseg) env).mpr (hact seg hseg)

/-- `ls > out`. -/
def redirectedLine : CString where
  bytes := ascii "ls > out"
  nulFree := by decide

theorem redirectedLine_plain : PlainLine redirectedLine :=
  ⟨by decide, by decide, by decide, by decide⟩

/-- Its operator acts, and no command holds it. -/
theorem redirectedLine_operatorFree :
    LineActs redirectedLine ∧
      ∀ i, OperatorFree ((parseLine (fun _ => none) redirectedLine).commands i) := by
  have hsegments : segments (tokenize redirectedLine) =
      [[.argument (ascii "ls"), .redirect (ascii ">") (ascii "out")]] := by
    decide +kernel
  have hact : LineActs redirectedLine := by
    refine .inr fun seg hseg => ?_
    rw [hsegments] at hseg
    obtain rfl := List.mem_singleton.mp hseg
    refine ⟨by decide, fun s => ?_⟩
    cases s <;> decide
  exact ⟨hact, (operatorFree_line_iff redirectedLine_plain _).mpr hact⟩

/-- `ls ; pwd`. -/
def sequenceLine : CString where
  bytes := ascii "ls ; pwd"
  nulFree := by decide

/-- Its `;` is an argument of `ls`. -/
theorem semicolon_is_argument :
    PlainLine sequenceLine ∧
      ((parseLine (fun _ => none) sequenceLine).commands 0).argv 1 = some (ascii ";") ∧
      ¬ ∀ i, OperatorFree ((parseLine (fun _ => none) sequenceLine).commands i) := by
  have hargv :
      ((parseLine (fun _ => none) sequenceLine).commands 0).argv 1 = some (ascii ";") := by
    decide +kernel
  exact ⟨⟨by decide, by decide, by decide, by decide⟩, hargv,
    fun hfree => absurd ((hfree 0).argv 1 _ hargv) (by decide)⟩

end Lines

end Shell
end SecureZ
