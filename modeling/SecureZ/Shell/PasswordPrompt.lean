import SecureZ.Shell.CryptoCmds

/-!
# Asking for a password twice

`prompt_password` of `crypto_cmds.c` reads a line into a buffer that is static, and returns a
pointer to it.  `encrypt` and `vault create` ask twice and compare the two results with
`strcmp`: both pointers are to the one buffer, which then holds the second line.

The main result says of every two lines exactly when the request that is sent is one that the
lines confirm.  The last result connects the prompt with the value that the other commands
take it for.
-/

namespace SecureZ
namespace Shell

open CLib

section Model

/-- Where a pointer returned by `prompt_password` points: there is the one static buffer. -/
inductive PasswordPointer
  | password
deriving DecidableEq

/-- The input of the terminal, and `static char password[256]`. -/
structure Terminal where
  input : Bytes
  password : Bytes
deriving DecidableEq

/-- The text that a pointer returned earlier points to now. -/
def Terminal.text (s : Terminal) : PasswordPointer → CString
  | .password => cstr s.password

/-- A text and its NUL written over the beginning of a buffer. -/
def putText (buf text : Bytes) : Bytes :=
  text ++ 0 :: buf.drop (text.length + 1)

/-- The newline at the end of the text in a buffer replaced by NUL. -/
def stripBuffer (buf : Bytes) : Bytes :=
  let len := (cstr buf).strlen
  if len > 0 ∧ buf[len - 1]? = some 10 then buf.set (len - 1) 0 else buf

/-- `prompt_password`. -/
def Terminal.promptPassword (s : Terminal) : Option PasswordPointer × Terminal :=
  match fgets 256 s.input with
  | none => (none, s)
  | some (line, left) => (some .password, ⟨left, stripBuffer (putText s.password line)⟩)

/-- The requests of the commands that ask for a password twice. -/
inductive PasswordRequest
  | encrypt (path : ResolvedPath) (pw : CString)
  | vaultCreate (name size pw : CString)

/-- The text of the request, before it is cut to the buffer. -/
def PasswordRequest.text : PasswordRequest → Bytes
  | .encrypt path pw => passwordText (ascii "encrypt") (ascii "path") path.path pw
  | .vaultCreate name size pw => vaultCreateText name size pw

/-- The password that was formatted into the request. -/
def PasswordRequest.password : PasswordRequest → CString
  | .encrypt _ pw => pw
  | .vaultCreate _ _ pw => pw

/-- What a command returns, the request that it gave to `send_daemon_cmd`, and the terminal
behind it. -/
structure CommandRun where
  ret : Int
  sent : Option PasswordRequest
  terminal : Terminal

/-- `cmd_encrypt`; `reply` tells whether the daemon answers. -/
def cmdEncrypt
    (argv : List CString) (cwd : CString) (reply : Bool) (s : Terminal) : CommandRun :=
  match argv with
  | _ :: file :: _ =>
      match s.promptPassword with
      | (none, s) => ⟨1, none, s⟩
      | (some pw, s) =>
          if (s.text pw).strlen = 0 then ⟨1, none, s⟩
          else
            match s.promptPassword with
            | (none, s) => ⟨1, none, s⟩
            | (some confirm, s) =>
                if s.text pw ≠ s.text confirm then ⟨1, none, s⟩
                else
                  ⟨if reply then 0 else 1,
                    some (.encrypt (resolvePath file cwd) (s.text pw)), s⟩
  | _ => ⟨1, none, s⟩

/-- `cmd_vault` for `create`, with the arguments behind `create`. -/
def cmdVaultCreate (args : List CString) (s : Terminal) : CommandRun :=
  match args with
  | name :: size :: _ =>
      match s.promptPassword with
      | (none, s) => ⟨1, none, s⟩
      | (some pw, s) =>
          match s.promptPassword with
          | (none, s) => ⟨1, none, s⟩
          | (some confirm, s) =>
              if s.text pw ≠ s.text confirm then ⟨1, none, s⟩
              else ⟨0, some (.vaultCreate name size (s.text pw)), s⟩
  | _ => ⟨1, none, s⟩

end Model

section Specification

/-- A line as it is typed, without its newline. -/
structure TypedLine where
  bytes : Bytes
  oneLine : (10 : UInt8) ∉ bytes
deriving DecidableEq

/-- Two lines typed at the two prompts, and what is typed after them. -/
def typed (first second : TypedLine) (rest : Bytes) : Bytes :=
  first.bytes ++ 10 :: (second.bytes ++ 10 :: rest)

/-- The two lines confirm the request: they are the same, not empty for `encrypt`, and the
whole text of the request is sent with that line as the password.  What the daemon reads of a
password that holds a quote is not asked here: `shell_daemon_agree_iff` says when it reads the
password that was sent. -/
structure PasswordRequest.ConfirmedBy
    (c : PasswordRequest) (first second : TypedLine) : Prop where
  same : first.bytes = second.bytes
  nonempty : ∀ path pw, c = .encrypt path pw → first.bytes ≠ []
  whole : (formatRequest c.text).bytes = c.text
  carried : c.password.bytes = first.bytes

/-- The two lines are the same, short enough for the buffer with the newline, and have no
NUL in them. -/
def Retyped (first second : TypedLine) : Prop :=
  first.bytes = second.bytes ∧ first.bytes.length ≤ 254 ∧ (0 : UInt8) ∉ first.bytes

/-- The request of `vault create` fits its buffer. -/
def VaultFits (args : List CString) (line : TypedLine) : Prop :=
  ∀ name size more, args = name :: size :: more →
    name.strlen + size.strlen + line.bytes.length ≤ 4037

end Specification

section Prompts

/-- A text that is written over a buffer is what the buffer holds. -/
theorem cstr_putText
    (buf text : Bytes) :
    cstr (putText buf text) = cstr text := by
  ext1
  change (text ++ 0 :: _).takeWhile _ = text.takeWhile _
  rw [List.takeWhile_append]
  split_ifs with hlen
  · rw [List.takeWhile_cons_of_neg (by decide), List.append_nil]
    exact ((List.takeWhile_prefix _).eq_of_length hlen).symm
  · rfl

/-- Stripping the buffer strips its text. -/
theorem cstr_stripBuffer
    (buf : Bytes) :
    (cstr (stripBuffer buf)).bytes = stripNewline (cstr buf).bytes := by
  obtain ⟨tail, hbuf⟩ : ∃ tail, buf = (cstr buf).bytes ++ tail :=
    ⟨_, List.takeWhile_append_dropWhile.symm⟩
  have hfree := (cstr buf).nulFree
  unfold stripBuffer CString.strlen stripNewline
  rcases List.eq_nil_or_concat' (cstr buf).bytes with hnil | ⟨front, b, hcat⟩
  · simp [hnil]
  · have hlen : (cstr buf).bytes.length = front.length + 1 := by rw [hcat]; simp
    have hat : buf[front.length]? = some b := by
      rw [hbuf, hcat]
      simp
    have hlast : (cstr buf).bytes.getLast? = some b := by rw [hcat]; simp
    have hfront : (0 : UInt8) ∉ front := by
      rw [hcat] at hfree
      simp only [List.mem_append, not_or] at hfree
      exact hfree.1
    simp only [hlen, Nat.add_sub_cancel, hat, hlast]
    by_cases hb : b = 10
    · rw [if_pos ⟨Nat.succ_pos _, by rw [hb]⟩, if_pos (by rw [hb]), hcat,
        List.dropLast_concat]
      have hset : buf.set front.length 0 = front ++ 0 :: tail := by
        rw [hbuf, hcat]
        simp
      rw [hset]
      change (front ++ 0 :: tail).takeWhile _ = front
      rw [List.takeWhile_append_of_pos]
      · simp
      · intro c hc
        have : c ≠ 0 := fun h0 => hfront (h0 ▸ hc)
        simpa using this
    · rw [if_neg (fun h => hb (Option.some.inj h.2)), if_neg (fun h => hb (Option.some.inj h))]

/-- What the prompt returns: the pointer, with the text that `fgets` and the stripping leave
in the buffer. -/
theorem promptPassword_spec
    {s : Terminal} {text : CString} {left : Bytes}
    (h : fgetsText 256 s.input = some (text, left)) :
    ∃ s', s.promptPassword = (some .password, s') ∧
      s'.input = left ∧ s'.text .password = text := by
  obtain ⟨⟨line, rest⟩, hget, hsame⟩ := Option.map_eq_some_iff.mp h
  obtain ⟨rfl, rfl⟩ := Prod.mk.inj hsame
  refine ⟨_, by rw [Terminal.promptPassword, hget], rfl, ?_⟩
  ext1
  have hfree : (0 : UInt8) ∉ stripNewline (cstr line).bytes :=
    fun h0 => (cstr line).nulFree ((stripNewline_prefix_self _).subset h0)
  change (cstr (stripBuffer (putText s.password line))).bytes =
    (cstr (stripNewline (cstr line).bytes)).bytes
  rw [cstr_stripBuffer, cstr_putText, cstr_bytes_of_nulFree hfree]

/-- A prompt on input that is left reads what the value-level prompt reads. -/
theorem promptPassword_refines
    (s : Terminal) :
    (Shell.promptPassword s.input).map (fun r => (r.1.line, r.2)) =
      s.promptPassword.1.map fun p =>
        (s.promptPassword.2.text p, s.promptPassword.2.input) := by
  unfold Shell.promptPassword
  cases hget : fgets 256 s.input with
  | none =>
      simp [Terminal.promptPassword, hget]
  | some got =>
      obtain ⟨line, left⟩ := got
      have htext : fgetsText 256 s.input = some (cstr (stripNewline (cstr line).bytes), left) := by
        rw [fgetsText, hget]
        rfl
      obtain ⟨s', hprompt, hleft, hs'⟩ := promptPassword_spec htext
      have hline : fgetsLine 255 s.input = line := by
        cases hin : s.input with
        | nil => simp [fgets, hin] at hget
        | cons b bs =>
            rw [hin] at hget
            exact (Prod.mk.inj (Option.some.inj hget)).1
      rw [hprompt]
      simp only [Option.map_some, hleft, hs', hline]

end Prompts

section Lines

/-- The C string of a text that is cut before its end holds no newline that was not there. -/
theorem newline_not_mem_cstr
    {text : Bytes}
    (h : (10 : UInt8) ∉ text) :
    (10 : UInt8) ∉ (cstr text).bytes :=
  fun hmem => h ((List.takeWhile_prefix _).subset hmem)

/-- What a prompt reads of a line: its first 255 bytes up to a NUL; the rest of a line that
does not fit with its newline is left for the next prompt. -/
theorem fgetsText_typed
    {line : Bytes}
    (hline : (10 : UInt8) ∉ line)
    (rest : Bytes) :
    fgetsText 256 (line ++ 10 :: rest) =
      some (cstr (line.take 255),
        if line.length ≤ 254 then rest else line.drop 255 ++ 10 :: rest) := by
  by_cases hlen : line.length ≤ 254
  · have hread : fgetsLine 255 ((line ++ [10]) ++ rest) = line ++ [10] := by
      rw [List.append_assoc]
      exact fgetsLine_of_fits hline (by omega)
    have hget := @fgets_of_line 256 _ _ (by simp) hread
    rw [List.append_assoc] at hget
    have hsame : stripNewline (cstr (line ++ [10])).bytes = (cstr line).bytes := by
      by_cases hnul : (0 : UInt8) ∈ line
      · have hcut : (cstr (line ++ [10])).bytes = (cstr line).bytes := by
          change (line ++ [10]).takeWhile _ = line.takeWhile _
          rw [List.takeWhile_append, if_neg]
          intro hall
          have heq := (List.takeWhile_prefix (fun b : UInt8 => b != 0)).eq_of_length hall
          have := (List.takeWhile_eq_self_iff.mp heq) 0 hnul
          exact absurd this (by decide)
        rw [hcut, stripNewline_of_not_mem (newline_not_mem_cstr hline)]
      · rw [cstr_bytes_of_nulFree (by simp [hnul]), stripNewline_append_newline,
          cstr_bytes_of_nulFree hnul]
    rw [fgetsText]
    change (fgets 256 (line ++ ([10] ++ rest))).map _ = _
    rw [hget, Option.map_some, hsame, cstr_bytes, if_pos hlen,
      List.take_of_length_le (by omega)]
  · have hcut : (line.take 255).length = 255 := by
      rw [List.length_take]
      omega
    have hfree : (10 : UInt8) ∉ line.take 255 := fun h => hline (List.mem_of_mem_take h)
    have hread :
        fgetsLine 255 (line.take 255 ++ (line.drop 255 ++ 10 :: rest)) = line.take 255 := by
      have hfull := @fgetsLine_of_full _ (line.drop 255 ++ 10 :: rest) hfree
      rwa [hcut] at hfull
    have hne : line.take 255 ≠ [] := by
      intro hnil
      rw [hnil] at hcut
      exact absurd hcut (by decide)
    have hget := @fgets_of_line 256 _ _ hne hread
    rw [← List.append_assoc, List.take_append_drop] at hget
    rw [fgetsText, hget, Option.map_some, if_neg hlen,
      stripNewline_of_not_mem (newline_not_mem_cstr hfree), cstr_bytes]

/-- The text of a first read is empty when the line is, or begins with a NUL. -/
theorem strlen_cstr_take_eq_zero_iff
    (line : Bytes) :
    (cstr (line.take 255)).strlen = 0 ↔ line = [] ∨ line.head? = some 0 := by
  cases line with
  | nil =>
      simp [cstr, CString.strlen]
  | cons b bs =>
      by_cases hb : b = 0
      · simp [cstr, CString.strlen, hb]
      · simp [cstr, CString.strlen, hb]

/-- What the second prompt reads when two lines are typed. -/
def secondRead (first second : Bytes) : Bytes :=
  if first.length ≤ 254 then second.take 255 else (first.drop 255).take 255

/-- Both prompts read something, and the buffer then holds the second text. -/
theorem prompts_typed
    (first second : TypedLine) (rest password : Bytes) :
    ∃ s₁ s₂,
      (Terminal.mk (typed first second rest) password).promptPassword =
          (some .password, s₁) ∧
        s₁.text .password = cstr (first.bytes.take 255) ∧
        s₁.promptPassword = (some .password, s₂) ∧
        s₂.text .password = cstr (secondRead first.bytes second.bytes) := by
  obtain ⟨s₁, hfirst, hleft, htext⟩ :=
    promptPassword_spec (s := ⟨typed first second rest, password⟩)
      (fgetsText_typed first.oneLine (second.bytes ++ 10 :: rest))
  refine ⟨s₁, ?_⟩
  by_cases hlen : first.bytes.length ≤ 254
  · rw [if_pos hlen] at hleft
    obtain ⟨s₂, hsecond, -, htext₂⟩ :=
      promptPassword_spec (s := s₁) (hleft ▸ fgetsText_typed second.oneLine rest)
    exact ⟨s₂, hfirst, htext, hsecond, by rw [htext₂, secondRead, if_pos hlen]⟩
  · rw [if_neg hlen] at hleft
    have hdrop : (10 : UInt8) ∉ first.bytes.drop 255 :=
      fun h => first.oneLine (List.mem_of_mem_drop h)
    obtain ⟨s₂, hsecond, -, htext₂⟩ :=
      promptPassword_spec (s := s₁)
        (hleft ▸ fgetsText_typed hdrop (second.bytes ++ 10 :: rest))
    exact ⟨s₂, hfirst, htext, hsecond, by rw [htext₂, secondRead, if_neg hlen]⟩

theorem strlen_secondRead_le
    (first second : Bytes) :
    (cstr (secondRead first second)).strlen ≤ 255 := by
  refine (cstr_length_le _).trans ?_
  unfold secondRead
  split_ifs <;> simp only [List.length_take] <;> omega

/-- The second text is the first line, and the lines are the same, exactly when the line was
typed twice and fits. -/
theorem secondRead_eq_iff
    (first second : TypedLine) :
    first.bytes = second.bytes ∧ (cstr (secondRead first.bytes second.bytes)).bytes = first.bytes
      ↔
    Retyped first second := by
  unfold Retyped secondRead
  refine and_congr_right fun hsame => ?_
  rw [← hsame]
  by_cases hlen : first.bytes.length ≤ 254
  · rw [if_pos hlen, List.take_of_length_le (by omega)]
    constructor
    · intro heq
      exact ⟨hlen, heq ▸ (cstr first.bytes).nulFree⟩
    · exact fun h => cstr_bytes_of_nulFree h.2
  · rw [if_neg hlen]
    refine iff_of_false (fun heq => ?_) (fun h => hlen h.1)
    have hle := cstr_length_le ((first.bytes.drop 255).take 255)
    rw [heq, List.length_take, List.length_drop] at hle
    omega

end Lines

section Commands

variable {first second : TypedLine} {rest password : Bytes}

/-- What `encrypt` sends: the second text, unless the first one is empty. -/
theorem cmdEncrypt_sent
    (name file cwd : CString) (more : List CString) (reply : Bool) :
    (cmdEncrypt (name :: file :: more) cwd reply ⟨typed first second rest, password⟩).sent =
      if first.bytes = [] ∨ first.bytes.head? = some 0 then none
      else
        some (.encrypt (resolvePath file cwd) (cstr (secondRead first.bytes second.bytes))) := by
  obtain ⟨s₁, s₂, hfirst, htext, hsecond, htext₂⟩ := prompts_typed first second rest password
  simp only [cmdEncrypt, hfirst, htext, hsecond, htext₂, strlen_cstr_take_eq_zero_iff, ne_eq,
    not_true_eq_false, if_false]
  split_ifs <;> rfl

/-- What `vault create` sends: the second text, whatever the first one is. -/
theorem cmdVaultCreate_sent
    (name size : CString) (more : List CString) :
    (cmdVaultCreate (name :: size :: more) ⟨typed first second rest, password⟩).sent =
      some (.vaultCreate name size (cstr (secondRead first.bytes second.bytes))) := by
  obtain ⟨s₁, s₂, hfirst, -, hsecond, htext₂⟩ := prompts_typed first second rest password
  simp [cmdVaultCreate, hfirst, hsecond, htext₂]

/-- A request that is a text without a NUL is the whole text exactly when that fits. -/
theorem formatRequest_whole_iff
    {text : Bytes}
    (h : (0 : UInt8) ∉ text) :
    (formatRequest text).bytes = text ↔ text.length ≤ 4095 := by
  rw [formatRequest_bytes h, List.take_eq_self_iff]

theorem encrypt_whole
    (path : ResolvedPath) {pw : CString}
    (hpw : pw.strlen ≤ 255) :
    (formatRequest (PasswordRequest.encrypt path pw).text).bytes =
      (PasswordRequest.encrypt path pw).text := by
  have hpath := path.short
  have hfixed :
      (ascii "\x7b\"cmd\":\"").length = 8 ∧ (ascii "encrypt").length = 7 ∧
        (ascii "\",\"").length = 3 ∧ (ascii "path").length = 4 ∧
        (ascii "\":\"").length = 3 ∧ (ascii "\",\"password\":\"").length = 14 ∧
        (ascii "\"\x7d").length = 2 :=
    ⟨rfl, rfl, rfl, rfl, rfl, rfl, rfl⟩
  have hnul : (0 : UInt8) ∉ (PasswordRequest.encrypt path pw).text := by
    simp only [PasswordRequest.text, passwordText, List.mem_append, not_or]
    exact ⟨⟨⟨⟨⟨⟨⟨⟨by decide, by decide⟩, by decide⟩, by decide⟩, by decide⟩,
      path.path.nulFree⟩, by decide⟩, pw.nulFree⟩, by decide⟩
  rw [formatRequest_whole_iff hnul]
  simp only [CString.strlen] at hpath hpw
  simp only [PasswordRequest.text, passwordText, List.length_append]
  omega

theorem vaultCreate_whole_iff
    (name size pw : CString) :
    (formatRequest (PasswordRequest.vaultCreate name size pw).text).bytes =
        (PasswordRequest.vaultCreate name size pw).text
      ↔
    name.strlen + size.strlen + pw.strlen ≤ 4037 := by
  have hfixed :
      (ascii "\x7b\"cmd\":\"container_create\",\"name\":\"").length = 34 ∧
        (ascii "\",\"size\":").length = 9 ∧ (ascii ",\"password\":\"").length = 13 ∧
        (ascii "\"\x7d").length = 2 :=
    ⟨rfl, rfl, rfl, rfl⟩
  have hnul : (0 : UInt8) ∉ (PasswordRequest.vaultCreate name size pw).text := by
    simp only [PasswordRequest.text, vaultCreateText, List.mem_append, not_or]
    exact ⟨⟨⟨⟨⟨⟨by decide, name.nulFree⟩, by decide⟩, size.nulFree⟩, by decide⟩,
      pw.nulFree⟩, by decide⟩
  rw [formatRequest_whole_iff hnul]
  simp only [PasswordRequest.text, vaultCreateText, List.length_append, CString.strlen]
  omega

/-- What `encrypt` sends is confirmed when it asks for nothing, or stops at the first line, or
the line was typed twice and fits. -/
theorem encrypt_confirmed_iff
    (argv : List CString) (cwd : CString) (reply : Bool) (first second : TypedLine)
    (rest password : Bytes) :
    (∀ c ∈ (cmdEncrypt argv cwd reply ⟨typed first second rest, password⟩).sent,
        c.ConfirmedBy first second)
      ↔
    argv.length < 2 ∨ first.bytes = [] ∨ first.bytes.head? = some 0 ∨ Retyped first second := by
  match argv with
  | [] => simp [cmdEncrypt]
  | [name] => simp [cmdEncrypt]
  | name :: file :: more =>
      rw [cmdEncrypt_sent]
      by_cases hempty : first.bytes = [] ∨ first.bytes.head? = some 0
      · rw [if_pos hempty]
        refine iff_of_true (by simp) ?_
        rcases hempty with hnil | hnul
        · exact .inr (.inl hnil)
        · exact .inr (.inr (.inl hnul))
      · rw [if_neg hempty]
        simp only [Option.mem_def, Option.some.injEq, forall_eq', List.length_cons]
        constructor
        · intro h
          exact .inr (.inr (.inr ((secondRead_eq_iff first second).mp ⟨h.same, h.carried⟩)))
        · rintro (hshort | hnil | hnul | hretyped)
          · omega
          · exact absurd (.inl hnil) hempty
          · exact absurd (.inr hnul) hempty
          · obtain ⟨hsame, hcarried⟩ := (secondRead_eq_iff first second).mpr hretyped
            exact ⟨hsame, fun _ _ _ hnil => hempty (.inl hnil),
              encrypt_whole _ (strlen_secondRead_le _ _), hcarried⟩

/-- What `vault create` sends is confirmed when it asks for nothing, or the line was typed
twice and fits, and the request does too. -/
theorem vaultCreate_confirmed_iff
    (args : List CString) (first second : TypedLine) (rest password : Bytes) :
    (∀ c ∈ (cmdVaultCreate args ⟨typed first second rest, password⟩).sent,
        c.ConfirmedBy first second)
      ↔
    args.length < 2 ∨ (Retyped first second ∧ VaultFits args first) := by
  match args with
  | [] => simp [cmdVaultCreate]
  | [name] => simp [cmdVaultCreate]
  | name :: size :: more =>
      rw [cmdVaultCreate_sent]
      simp only [Option.mem_def, Option.some.injEq, forall_eq', List.length_cons]
      constructor
      · intro h
        refine .inr ⟨(secondRead_eq_iff first second).mp ⟨h.same, h.carried⟩, ?_⟩
        have hwhole := (vaultCreate_whole_iff _ _ _).mp h.whole
        have hcarried := congrArg List.length h.carried
        rintro name' size' more' hargs
        obtain ⟨rfl, rfl, rfl⟩ : name = name' ∧ size = size' ∧ more = more' := by
          simpa using hargs
        rw [← hcarried]
        exact hwhole
      · rintro (hshort | ⟨hretyped, hfits⟩)
        · omega
        · obtain ⟨hsame, hcarried⟩ := (secondRead_eq_iff first second).mpr hretyped
          refine ⟨hsame, (fun _ _ h => nomatch h), ?_, hcarried⟩
          rw [vaultCreate_whole_iff, CString.strlen, CString.strlen, CString.strlen, hcarried]
          exact hfits name size more rfl

/-- Whatever the buffer held before, for every two lines: what `encrypt` sends is confirmed
by them exactly when it asks for nothing, or stops at the first line, or the line was typed
twice and fits; what `vault create` sends is confirmed exactly when it asks for nothing, or
the line was typed twice and fits, and the request does too. -/
theorem prompts_confirm_iff
    (argv args : List CString) (cwd : CString) (reply : Bool) (first second : TypedLine)
    (rest password : Bytes) :
    ((∀ c ∈ (cmdEncrypt argv cwd reply ⟨typed first second rest, password⟩).sent,
        c.ConfirmedBy first second)
      ↔
      argv.length < 2 ∨ first.bytes = [] ∨ first.bytes.head? = some 0 ∨
        Retyped first second) ∧
      ((∀ c ∈ (cmdVaultCreate args ⟨typed first second rest, password⟩).sent,
          c.ConfirmedBy first second)
        ↔
        args.length < 2 ∨ (Retyped first second ∧ VaultFits args first)) :=
  ⟨encrypt_confirmed_iff argv cwd reply first second rest password,
    vaultCreate_confirmed_iff args first second rest password⟩

/-- `hunter2` and a slip of it. -/
def slippedLines : TypedLine × TypedLine :=
  (⟨ascii "hunter2", by decide⟩, ⟨ascii "hunter3", by decide⟩)

/-- The slip is not noticed: the request is sent, with the second line. -/
theorem slip_unnoticed :
    ∃ c ∈ (cmdEncrypt [cstr (ascii "encrypt"), cstr (ascii "/tmp/a")] (cstr []) true
        ⟨typed slippedLines.1 slippedLines.2 [], []⟩).sent,
      c.password.bytes = ascii "hunter3" ∧ ¬ c.ConfirmedBy slippedLines.1 slippedLines.2 := by
  rw [cmdEncrypt_sent, if_neg (by decide)]
  refine ⟨_, rfl, by decide, fun h => ?_⟩
  exact absurd h.same (by decide)

end Commands

end Shell
end SecureZ
