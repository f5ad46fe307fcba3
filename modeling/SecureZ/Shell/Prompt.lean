import SecureZ.Daemon.SessionListing
import SecureZ.Shell.GitBranch

/-!
# The prompt

Before every line `detect_environment` of `prompt.c` looks at the working directory, the
session, the branch and, every tenth time, at Tor and the VPN; `render_prompt` then prints the
prompt piece by piece into a buffer of 2048 bytes, adding up what `snprintf` returns.

Between two prompts `cd` may have written the working directory too.

The main result is about every run of prompts: each is printed whole, with the directory that
`getcwd` gave last and with what the network looked like at most nine prompts ago.  The path is
put behind a tilde wherever the home directory is the beginning of its text, and the second
result says when that reads as the directory.
-/

namespace SecureZ
namespace Shell

open CLib
open Daemon (Printer printAt)

section Model

/-- The bytes of a text. -/
def utf8 (s : String) : Bytes :=
  s.toList.flatMap String.utf8EncodeChar

/-- A colour, between the marks that tell readline that it takes no room. -/
def color (code : String) : Bytes :=
  [1, 27] ++ ascii "[" ++ ascii code ++ ascii "m" ++ [2]

/-- `C_RESET`. -/
def cReset : Bytes := color "0"

/-- `C_DIM`. -/
def cDim : Bytes := color "2"

/-- `C_RED`. -/
def cRed : Bytes := color "31"

/-- `C_GREEN`. -/
def cGreen : Bytes := color "32"

/-- `C_YELLOW`. -/
def cYellow : Bytes := color "33"

/-- `C_BLUE`. -/
def cBlue : Bytes := color "34"

/-- `C_CYAN`. -/
def cCyan : Bytes := color "36"

/-- `C_BRED`. -/
def cBred : Bytes := color "1;31"

/-- `C_BGREEN`. -/
def cBgreen : Bytes := color "1;32"

/-- `C_BYELLOW`. -/
def cByellow : Bytes := color "1;33"

/-- `C_BCYAN`. -/
def cBcyan : Bytes := color "1;36"

/-- The fields of `ShellState` that the prompt is made from. -/
structure PromptState where
  cwd : CharArray 1024
  user : CharArray 64
  hostname : CharArray 64
  home : CharArray 256
  isRoot : Bool
  inSecureSession : Bool
  torActive : Bool
  vpnActive : Bool
  gitBranch : CharArray 64
deriving DecidableEq

/-- What `detect_environment` finds. -/
structure Surroundings where
  /-- What `getcwd` has written for the last `cd` since the prompt before, if there was one. -/
  cdCwd : Option (CharArray 1024)
  /-- What `getcwd` writes, none when it fails. -/
  getcwd : Option (CharArray 1024)
  /-- `getenv("SECUREZ_SESSION")`. -/
  session : Option CString
  files : CString → Option Bytes
  /-- What `detect_tor` would return. -/
  tor : Bool
  /-- What `detect_vpn` would return. -/
  vpn : Bool

/-- `detect_environment`, with `check_counter`; none when a byte in front of a line is read, or
the counter cannot go on. -/
def detectEnvironment (counter : Nat) (env : Surroundings) (s : PromptState) :
    Option PromptState := do
  guard (counter < 2 ^ 31 - 1)
  let branch ← match detectGitBranch env.files (env.getcwd.map CharArray.text) with
    | some .absent => some (cstr [])
    | some (.found branch) => some branch
    | _ => none
  return {
    s with
    cwd := env.getcwd.getD (env.cdCwd.getD s.cwd)
    inSecureSession := env.session = some (cstr (ascii "1"))
    gitBranch := .store 64 branch
    torActive := if counter % 10 = 0 then env.tor else s.torActive
    vpnActive := if counter % 10 = 0 then env.vpn else s.vpnActive }

/-- `shorten_path`. -/
def shortenPath (cwd home : CString) : CString :=
  if home.bytes.isPrefixOf cwd.bytes then
    cstr (snprintf 512 (ascii "~" ++ cwd.bytes.drop home.strlen))
  else cwd.take 511

/-- The first line of the prompt, up to the path. -/
def firstPiece (s : PromptState) : Bytes :=
  let path := (shortenPath s.cwd.text s.home.text).bytes
  if s.inSecureSession then
    cByellow ++ utf8 "┌──[🔒 SECURE]" ++ cReset ++ cDim ++ utf8 "─" ++ cReset ++
      cByellow ++ ascii "[" ++ cReset ++ s.user.text.bytes ++ ascii "@session" ++
      cByellow ++ ascii "]" ++ cReset ++ cDim ++ utf8 "─" ++ cReset ++
      cCyan ++ ascii "[" ++ path ++ ascii "]" ++ cReset
  else if s.isRoot then
    cBred ++ utf8 "┌──[🛡️ SecureZ+]" ++ cReset ++ cDim ++ utf8 "─" ++ cReset ++
      cBred ++ ascii "[" ++ cReset ++ cRed ++ ascii "root" ++ cReset ++ ascii "@" ++
      s.hostname.text.bytes ++ cBred ++ ascii "]" ++ cReset ++ cDim ++ utf8 "─" ++ cReset ++
      cRed ++ ascii "[" ++ path ++ ascii "]" ++ cReset
  else
    cBcyan ++ utf8 "┌──[🛡️ SecureZ+]" ++ cReset ++ cDim ++ utf8 "─" ++ cReset ++
      cBgreen ++ ascii "[" ++ cReset ++ s.user.text.bytes ++ ascii "@" ++
      s.hostname.text.bytes ++ cBgreen ++ ascii "]" ++ cReset ++ cDim ++ utf8 "─" ++ cReset ++
      cCyan ++ ascii "[" ++ path ++ ascii "]" ++ cReset

/-- The indicator of the branch. -/
def branchPiece (branch : CString) : Bytes :=
  cDim ++ utf8 "─" ++ cReset ++ cBlue ++ ascii "[" ++ branch.bytes ++ ascii "]" ++ cReset

/-- The indicator of Tor. -/
def torPiece : Bytes := cDim ++ utf8 "─" ++ cReset ++ cYellow ++ ascii "[TOR]" ++ cReset

/-- The indicator of the VPN. -/
def vpnPiece : Bytes := cDim ++ utf8 "─" ++ cReset ++ cGreen ++ ascii "[VPN]" ++ cReset

/-- The second line. -/
def secondLine (s : PromptState) : Bytes :=
  if s.inSecureSession then ascii "\n" ++ cByellow ++ utf8 "└──╼" ++ cReset ++ ascii " $ "
  else if s.isRoot then ascii "\n" ++ cBred ++ utf8 "└──╼" ++ cReset ++ ascii " # "
  else ascii "\n" ++ cBcyan ++ utf8 "└──╼" ++ cReset ++ ascii " $ "

/-- A piece that is printed where a condition holds. -/
def printIf (c : Bool) (piece : Bytes) (p : Printer) : Printer :=
  if c then p.print 2048 piece else p

/-- `render_prompt`. -/
def renderPrompt (s : PromptState) : Bytes :=
  let p := (Printer.mk [] 0).print 2048 (firstPiece s)
  let p := printIf (s.gitBranch.text.bytes ≠ []) (branchPiece s.gitBranch.text) p
  let p := printIf s.torActive torPiece p
  let p := printIf s.vpnActive vpnPiece p
  printAt 2048 p (secondLine s)

/-- The prompts of the loop in `main`, `check_counter` being that of the first. -/
def prompts (counter : Nat) (s : PromptState) : List Surroundings → Option (List Bytes)
  | [] => some []
  | env :: envs => do
      let s ← detectEnvironment counter env s
      let rest ← prompts (counter + 1) s envs
      return renderPrompt s :: rest

end Model

section Specification

/-- The whole text of a prompt. -/
def promptText (s : PromptState) : Bytes :=
  firstPiece s ++ (if s.gitBranch.text.bytes ≠ [] then branchPiece s.gitBranch.text else []) ++
    (if s.torActive then torPiece else []) ++ (if s.vpnActive then vpnPiece else []) ++
    secondLine s

/-- The working directory that was found last. -/
def lastCwd (start : CharArray 1024) (envs : List Surroundings) : CharArray 1024 :=
  (envs.filterMap fun env => env.getcwd.or env.cdCwd).getLastD start

/-- The environment that the indicators of a prompt are from: that of the last prompt whose
number is a multiple of ten. -/
def network (envs : List Surroundings) (i : Nat) : Option Surroundings :=
  envs[i - i % 10]?

/-- The branch that is found. -/
def Surroundings.branch (env : Surroundings) : Option BranchResult :=
  detectGitBranch env.files (env.getcwd.map CharArray.text)

/-- The text of a branch, where there is one. -/
def branchText : Option BranchResult → CString
  | some (.found branch) => branch
  | _ => cstr []

/-- The `HEAD` at which the search for the branch stops does not begin with a NUL: no byte in
front of its line is read. -/
def Surroundings.BranchDefined (env : Surroundings) : Prop :=
  env.branch ≠ some .undefined

/-- What a prompt is to show. -/
def shownAt (start : PromptState) (envs : List Surroundings) (i : Nat) (env : Surroundings) :
    PromptState :=
  { start with
    cwd := lastCwd start.cwd (envs.take (i + 1))
    inSecureSession := env.session = some (cstr (ascii "1"))
    gitBranch := .store 64 (branchText env.branch)
    torActive := (network envs i).any Surroundings.tor
    vpnActive := (network envs i).any Surroundings.vpn }

/-- The working directory is the home directory, or below it, or its path does not begin like
the home directory at all; and nothing of it is cut off. -/
def PathReads (cwd home : CString) : Prop :=
  if home.bytes <+: cwd.bytes then
    (cwd = home ∨ home.bytes ++ [47] <+: cwd.bytes) ∧ cwd.strlen ≤ home.strlen + 510
  else cwd.strlen ≤ 511

/-- What a path in a prompt reads as: a tilde in front of nothing or of a slash is the home
directory, and in front of a name the home of someone else. -/
def readsAs (home shown : Bytes) : Option Bytes :=
  match shown with
  | 126 :: rest => if rest = [] ∨ rest.head? = some 47 then some (home ++ rest) else none
  | _ => some shown

end Specification

section Rendering

variable {s : PromptState} {p : Printer}

theorem strlen_shortenPath_le
    (cwd home : CString) :
    (shortenPath cwd home).strlen ≤ 511 := by
  unfold shortenPath
  split_ifs
  · exact (cstr_length_le _).trans (List.length_take_le _ _)
  · exact List.length_take_le _ _

theorem length_firstPiece_le
    (s : PromptState) :
    (firstPiece s).length ≤ 1100 := by
  have hpath := strlen_shortenPath_le s.cwd.text s.home.text
  have huser := s.user.fits
  have hhost := s.hostname.fits
  have hcolors : cReset.length = 6 ∧ cDim.length = 6 ∧ cRed.length = 7 ∧ cGreen.length = 7 ∧
      cYellow.length = 7 ∧ cBlue.length = 7 ∧ cCyan.length = 7 ∧ cBred.length = 9 ∧
      cBgreen.length = 9 ∧ cByellow.length = 9 ∧ cBcyan.length = 9 := by
    decide
  have htexts : (utf8 "┌──[🔒 SECURE]").length ≤ 30 ∧ (utf8 "┌──[🛡️ SecureZ+]").length ≤ 30 ∧
      (utf8 "─").length ≤ 30 ∧ (ascii "@session").length ≤ 30 ∧ (ascii "root").length ≤ 30 ∧
      (ascii "@").length ≤ 30 ∧ (ascii "[").length ≤ 30 ∧ (ascii "]").length ≤ 30 := by
    decide
  simp only [CString.strlen] at hpath huser hhost
  unfold firstPiece
  split_ifs <;> simp only [List.length_append] <;> omega

theorem length_pieces_le
    (s : PromptState) :
    (branchPiece s.gitBranch.text).length ≤ 200 ∧ torPiece.length ≤ 100 ∧
      vpnPiece.length ≤ 100 ∧ (secondLine s).length ≤ 100 := by
  have hbranch := s.gitBranch.fits
  simp only [CString.strlen] at hbranch
  have hfixed : (branchPiece (cstr [])).length ≤ 100 := by decide
  refine ⟨?_, by decide, by decide, ?_⟩
  · simp only [branchPiece, List.length_append] at hfixed ⊢
    omega
  · unfold secondLine
    split_ifs <;> decide

/-- The text so far is whole, with some room behind it. -/
structure Whole (p : Printer) (text : Bytes) : Prop where
  text_eq : p.text = text
  atEnd : p.AtEnd

theorem whole_print
    {text : Bytes}
    (h : Whole p text)
    (piece : Bytes)
    (hfits : text.length + piece.length < 2048) :
    Whole (p.print 2048 piece) (text ++ piece) := by
  have hoffset : p.offset + piece.length < 2048 := by
    rw [h.atEnd, h.text_eq]
    exact hfits
  refine ⟨?_, Daemon.atEnd_print h.atEnd hoffset⟩
  rw [← h.text_eq]
  exact Daemon.printAt_of_fits h.atEnd hoffset

theorem whole_printIf
    {text : Bytes}
    (h : Whole p text)
    (c : Bool) (piece : Bytes)
    (hfits : text.length + piece.length < 2048) :
    Whole (printIf c piece p) (text ++ if c then piece else []) := by
  cases c with
  | false => simpa [printIf] using h
  | true => simpa [printIf] using whole_print h piece hfits

/-- Every prompt fits the buffer. -/
theorem renderPrompt_eq
    (s : PromptState) :
    renderPrompt s = promptText s := by
  have hfirst := length_firstPiece_le s
  obtain ⟨hbranch, htor, hvpn, hsecond⟩ := length_pieces_le s
  have hlen : ∀ (c : Bool) (piece : Bytes), (if c then piece else []).length ≤ piece.length := by
    intro c piece
    cases c <;> simp
  have hlenBranch := hlen (s.gitBranch.text.bytes ≠ []) (branchPiece s.gitBranch.text)
  have hlenTor := hlen s.torActive torPiece
  have hlenVpn := hlen s.vpnActive vpnPiece
  have hstart : Whole ⟨[], 0⟩ [] := ⟨rfl, rfl⟩
  have h₁ := whole_print hstart (firstPiece s) (by simp; omega)
  rw [List.nil_append] at h₁
  have h₂ := whole_printIf h₁ (s.gitBranch.text.bytes ≠ [])
    (branchPiece s.gitBranch.text) (by omega)
  have h₃ := whole_printIf h₂ s.torActive torPiece (by
    rw [List.length_append]
    omega)
  have h₄ := whole_printIf h₃ s.vpnActive vpnPiece (by
    rw [List.length_append, List.length_append]
    omega)
  unfold renderPrompt
  simp only
  rw [Daemon.printAt_of_fits h₄.atEnd, h₄.text_eq, promptText]
  · simp only [decide_eq_true_eq]
  · rw [h₄.atEnd, h₄.text_eq]
    simp only [List.length_append]
    omega

end Rendering

section Runs

variable {start s : PromptState} {past envs : List Surroundings}

/-- The state behind some prompts: what changes is as the last of them shows it. -/
structure Behind (start : PromptState) (past : List Surroundings) (s : PromptState) : Prop where
  cwd_eq : s.cwd = lastCwd start.cwd past
  user_eq : s.user = start.user
  hostname_eq : s.hostname = start.hostname
  home_eq : s.home = start.home
  isRoot_eq : s.isRoot = start.isRoot
  tor_eq : past ≠ [] → s.torActive = (network past (past.length - 1)).any Surroundings.tor
  vpn_eq : past ≠ [] → s.vpnActive = (network past (past.length - 1)).any Surroundings.vpn

theorem lastCwd_snoc
    (cwd : CharArray 1024) (past : List Surroundings) (env : Surroundings) :
    lastCwd cwd (past ++ [env]) = env.getcwd.getD (env.cdCwd.getD (lastCwd cwd past)) := by
  unfold lastCwd
  rw [List.filterMap_append]
  cases hcwd : env.getcwd with
  | none =>
      cases hcd : env.cdCwd with
      | none => simp [hcwd, hcd]
      | some c => simp [hcwd, hcd]
  | some c => simp [hcwd]

/-- Where no `HEAD` begins with a NUL, every branch is defined. -/
theorem branchDefined_of_heads
    {env : Surroundings}
    (h : ∀ dir rest, env.files (headPath dir) ≠ some (0 :: rest)) :
    env.BranchDefined := by
  intro hundefined
  obtain ⟨dir, rest, hfile⟩ := head_of_undefined hundefined
  exact h dir rest hfile

/-- The network that a prompt shows is found, or is that of the prompt before. -/
theorem network_snoc
    (past : List Surroundings) (env : Surroundings) :
    network (past ++ [env]) past.length =
      if past.length % 10 = 0 then some env else network past (past.length - 1) := by
  unfold network
  split_ifs with hten
  · rw [hten, Nat.sub_zero]
    simp
  · have hidx : past.length - 1 - (past.length - 1) % 10 = past.length - past.length % 10 := by
      omega
    rw [hidx, List.getElem?_append_left (by omega)]

theorem any_network_snoc
    (f : Surroundings → Bool) (env : Surroundings) {active : Bool}
    (h : past ≠ [] → active = (network past (past.length - 1)).any f) :
    (if past.length % 10 = 0 then f env else active) =
      (network (past ++ [env]) past.length).any f := by
  rw [network_snoc]
  split_ifs with hten
  · rfl
  · refine h fun hnil => hten ?_
    rw [hnil]
    rfl

/-- What is detected is what the prompt is to show. -/
theorem detectEnvironment_spec
    (h : Behind start past s)
    {env : Surroundings}
    (hbranch : env.BranchDefined)
    (hcount : past.length < 2 ^ 31 - 1) :
    detectEnvironment past.length env s =
      some (shownAt start (past ++ [env]) past.length env) := by
  obtain ⟨r, hr⟩ := detectGitBranch_ends env.files (env.getcwd.map CharArray.text)
  have hcwd : env.getcwd.getD (env.cdCwd.getD s.cwd) =
      lastCwd start.cwd ((past ++ [env]).take (past.length + 1)) := by
    rw [List.take_of_length_le (by simp), lastCwd_snoc, h.cwd_eq]
  have htor := any_network_snoc Surroundings.tor env h.tor_eq
  have hvpn := any_network_snoc Surroundings.vpn env h.vpn_eq
  have hsame : s = ⟨s.cwd, start.user, start.hostname, start.home, start.isRoot,
      s.inSecureSession, s.torActive, s.vpnActive, s.gitBranch⟩ := by
    rw [← h.user_eq, ← h.hostname_eq, ← h.home_eq, ← h.isRoot_eq]
  simp only [detectEnvironment, hr, hcount, guard_true, Option.bind_eq_bind, Option.bind_some]
  cases r with
  | absent =>
      rw [hsame]
      simp only [Option.bind_some, Option.pure_def, htor, hvpn, hcwd, shownAt,
        Surroundings.branch, hr, branchText]
  | found branch =>
      rw [hsame]
      simp only [Option.bind_some, Option.pure_def, htor, hvpn, hcwd, shownAt,
        Surroundings.branch, hr, branchText]
  | undefined =>
      exact absurd hr hbranch

theorem behind_snoc
    (start : PromptState) (past : List Surroundings) (env : Surroundings) :
    Behind start (past ++ [env]) (shownAt start (past ++ [env]) past.length env) where
  cwd_eq := by
    simp only [shownAt]
    rw [List.take_of_length_le (by simp)]
  user_eq := rfl
  hostname_eq := rfl
  home_eq := rfl
  isRoot_eq := rfl
  tor_eq := fun _ => by simp [shownAt]
  vpn_eq := fun _ => by simp [shownAt]

/-- What a prompt is to show depends on the environments up to it only. -/
theorem shownAt_append
    (start : PromptState) (past : List Surroundings) (env : Surroundings)
    (rest : List Surroundings) :
    shownAt start (past ++ env :: rest) past.length env =
      shownAt start (past ++ [env]) past.length env := by
  have hsplit : past ++ env :: rest = (past ++ [env]) ++ rest := by simp
  have htake : (past ++ env :: rest).take (past.length + 1) =
      (past ++ [env]).take (past.length + 1) := by
    rw [hsplit, List.take_append_of_le_length (by simp)]
  have hnetwork : network (past ++ env :: rest) past.length =
      network (past ++ [env]) past.length := by
    rw [network, network, hsplit, List.getElem?_append_left]
    rw [List.length_append, List.length_singleton]
    omega
  simp only [shownAt, htake, hnetwork]

theorem prompts_behind
    (h : Behind start past s)
    (hbranch : ∀ env ∈ envs, env.BranchDefined)
    (hcount : past.length + envs.length < 2 ^ 31) :
    prompts past.length s envs = some (envs.mapIdx fun i env =>
      promptText (shownAt start (past ++ envs) (past.length + i) env)) := by
  induction envs generalizing past s with
  | nil =>
      rfl
  | cons env envs ih =>
      rw [List.forall_mem_cons] at hbranch
      rw [List.length_cons] at hcount
      have hstep := detectEnvironment_spec h hbranch.1 (by omega)
      have hrest := ih (behind_snoc start past env) hbranch.2 (by
        rw [List.length_append, List.length_singleton]
        omega)
      rw [List.length_append, List.length_singleton] at hrest
      rw [prompts, hstep, Option.bind_eq_bind, Option.bind_some, hrest, List.mapIdx_cons,
        renderPrompt_eq]
      simp only [Option.bind_eq_bind, Option.bind_some, Option.pure_def, Option.some.injEq,
        List.cons.injEq, List.append_assoc, List.singleton_append]
      refine ⟨congrArg promptText (shownAt_append start past env envs).symm, ?_⟩
      simp only [Nat.add_assoc, Nat.add_comm 1]

end Runs

section Paths

/-- Where the text of the home directory is in front, the tilde stands for it. -/
theorem shortenPath_below
    {cwd home : CString}
    (rest : CString)
    (hrest : cwd.bytes = home.bytes ++ rest.bytes) :
    (shortenPath cwd home).bytes = 126 :: rest.bytes.take 510 := by
  have hfree : (0 : UInt8) ∉ rest.bytes.take 510 :=
    fun h => rest.nulFree (List.mem_of_mem_take h)
  have hdrop : cwd.bytes.drop home.strlen = rest.bytes := by
    rw [hrest, CString.strlen, List.drop_left]
  rw [shortenPath, if_pos (by rw [hrest]; simp), hdrop, cstr_bytes_of_nulFree]
  · rfl
  · change (0 : UInt8) ∉ 126 :: rest.bytes.take 510
    simpa using hfree

theorem readsAs_tilde
    (home rest : Bytes) :
    readsAs home (126 :: rest) =
      if rest = [] ∨ rest.head? = some 47 then some (home ++ rest) else none :=
  rfl

/-- A path that begins with a slash reads as itself. -/
theorem readsAs_absolute
    (home : Bytes) {shown : Bytes}
    (hslash : shown.head? = some 47) :
    readsAs home shown = some shown := by
  cases shown with
  | nil =>
      cases hslash
  | cons b bs =>
      obtain rfl : b = 47 := by simpa using hslash
      rfl

/-- When the path in the prompt reads as the working directory. -/
theorem shortenPath_reads_iff
    {cwd home : CString}
    (hslash : cwd.bytes.head? = some 47) :
    readsAs home.bytes (shortenPath cwd home).bytes = some cwd.bytes ↔ PathReads cwd home := by
  unfold PathReads
  split_ifs with hprefix
  · obtain ⟨rest, hrest⟩ := hprefix
    have hfree : (0 : UInt8) ∉ rest := fun h => cwd.nulFree (hrest ▸ List.mem_append_right _ h)
    rw [shortenPath_below ⟨rest, hfree⟩ hrest.symm, readsAs_tilde]
    have hsame : cwd = home ↔ rest = [] := by
      constructor
      · rintro rfl
        simpa using hrest
      · rintro rfl
        ext1
        rw [← hrest, List.append_nil]
    have hbelow : home.bytes ++ [47] <+: cwd.bytes ↔ rest.head? = some 47 := by
      rw [← hrest, List.prefix_append_right_inj]
      cases rest <;> simp [List.cons_prefix_cons, eq_comm]
    have hlen : cwd.strlen ≤ home.strlen + 510 ↔ rest.length ≤ 510 := by
      have := congrArg List.length hrest
      rw [List.length_append] at this
      simp only [CString.strlen]
      omega
    have hhead : (rest.take 510 = [] ∨ (rest.take 510).head? = some 47) ↔
        (rest = [] ∨ rest.head? = some 47) := by
      cases rest <;> simp
    rw [hsame, hbelow, hlen, ← hrest]
    simp only [hhead]
    split_ifs with hboundary
    · simp only [Option.some.injEq, List.append_cancel_left_eq, hboundary, true_and]
      exact List.take_eq_self_iff rest
    · simp [hboundary]
  · have hcut : (shortenPath cwd home).bytes = cwd.bytes.take 511 := by
      rw [shortenPath, if_neg (by rwa [List.isPrefixOf_iff_prefix])]
      rfl
    have hhead : (cwd.bytes.take 511).head? = some 47 := by
      cases hbytes : cwd.bytes with
      | nil =>
          rw [hbytes] at hslash
          cases hslash
      | cons b bs =>
          rw [hbytes] at hslash
          simpa using hslash
    rw [hcut, readsAs_absolute home.bytes hhead, Option.some.injEq]
    exact List.take_eq_self_iff cwd.bytes

end Paths

section Main

/--
**What the prompts show.**

For every state that the shell starts in and every run of fewer than 2^31 prompts, none of which
meets a `HEAD` that begins with a NUL, each prompt is printed whole: the directory is the one
that `getcwd` gave last, to a prompt or to `cd`, the branch and the session are those of the
moment, Tor and the VPN are as they were found at the last prompt whose number is a multiple of
ten.  The path reads as the directory exactly when it is not cut off and the text of the home
directory, where it is in front, ends at a slash or at the end.
-/
theorem prompts_shown
    (start : PromptState) {envs : List Surroundings}
    (hbranch : ∀ env ∈ envs, env.BranchDefined)
    (hcount : envs.length < 2 ^ 31) :
    prompts 0 start envs =
        some (envs.mapIdx fun i env => promptText (shownAt start envs i env)) ∧
      ∀ i env, envs[i]? = some env →
        (shownAt start envs i env).cwd.text.bytes.head? = some 47 →
        (readsAs start.home.text.bytes
              (shortenPath (shownAt start envs i env).cwd.text start.home.text).bytes =
            some (shownAt start envs i env).cwd.text.bytes ↔
          PathReads (shownAt start envs i env).cwd.text start.home.text) := by
  have hstart : Behind start [] start :=
    ⟨rfl, rfl, rfl, rfl, rfl, fun h => absurd rfl h, fun h => absurd rfl h⟩
  refine ⟨?_, fun i env _ hslash => shortenPath_reads_iff hslash⟩
  have hall := prompts_behind hstart hbranch (by simpa using hcount)
  simpa using hall

end Main

section Examples

/-- The shell of `bob`. -/
def bobState : PromptState where
  cwd := .store 1024 (cstr (ascii "/home/bob"))
  user := .store 64 (cstr (ascii "bob"))
  hostname := .store 64 (cstr (ascii "host"))
  home := .store 256 (cstr (ascii "/home/bob"))
  isRoot := false
  inSecureSession := false
  torActive := false
  vpnActive := false
  gitBranch := .store 64 (cstr [])

/-- In a directory without a repository. -/
def plainEnvironment (cwd : CString) : Surroundings where
  cdCwd := none
  getcwd := some (.store 1024 cwd)
  session := none
  files := fun _ => none
  tor := true
  vpn := false

/-- `bob` visits the home of `bobby`; the second path is not his own. -/
theorem bobby_prompts :
    let envs := [plainEnvironment (cstr (ascii "/home/bob/src")),
      plainEnvironment (cstr (ascii "/home/bobby"))]
    prompts 0 bobState envs =
        some (envs.mapIdx fun i env => promptText (shownAt bobState envs i env)) ∧
      (shortenPath (cstr (ascii "/home/bobby")) bobState.home.text).bytes = ascii "~by" ∧
      ¬ PathReads (cstr (ascii "/home/bobby")) (cstr (ascii "/home/bob")) := by
  refine ⟨(prompts_shown bobState ?_ (by decide)).1, by decide, ?_⟩
  · simp only [List.mem_cons, List.not_mem_nil, or_false, forall_eq_or_imp, forall_eq]
    exact ⟨branchDefined_of_heads fun _ _ => by simp [plainEnvironment],
      branchDefined_of_heads fun _ _ => by simp [plainEnvironment]⟩
  · unfold PathReads
    decide

end Examples

end Shell
end SecureZ
