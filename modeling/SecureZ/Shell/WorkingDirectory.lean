import SecureZ.Shell.Variables

/-!
# The working directory of a shell session

`cd` goes to a directory that it is given, to the home directory, or with `-` to the one that
`OLDPWD` names; where it moves, it writes `OLDPWD` and `PWD`.  In a session where directories
keep their paths and no `export` writes to these variables, this is a register of two places,
the directory of the shell and the one before: a move shifts the first to the second, and a
`cd -` that moves changes them over.

A `cd` in a longer pipeline runs in a child, and one that fails does not move.
-/

namespace SecureZ
namespace Shell

open CLib

section Specification

variable {δ : Type}

/-- The directory of the shell, and the one before it. -/
structure Register (δ : Type) where
  current : δ
  previous : Option δ
deriving DecidableEq

/-- What a line asks of the register. -/
inductive Move
  | stay
  | go (target : CString)
  | back

/-- What the arguments of `cd` ask for. -/
def cdMove (home : CharArray 256) : List Bytes → Move
  | [] => .go home.text
  | arg :: _ =>
      if arg = ascii "-" then .back
      else if arg.head? = some (byte '~') then
        .go (cstr (snprintf 1024 (home.text.bytes ++ arg.drop 1)))
      else .go (cstr arg)

/-- What a line asks for. -/
def lineMove (home : CharArray 256) (e : LineEvent δ) (p : ShellProcess δ) : Move :=
  if p.running ∧ e.line.bytes ≠ [] then
    let pl := parseLine (getenv (p.reading e).environ) e.line
    if pl.alone = some .cd then cdMove home (pl.commands 0).arguments else .stay
  else .stay

variable (path : δ → CharArray 1024)

/-- The register after a move, where the system lets it happen. -/
def Register.after (chdir : δ → CString → Option δ) (r : Register δ) : Move → Register δ
  | .stay => r
  | .go target =>
      match chdir r.current target with
      | some dir => ⟨dir, some r.current⟩
      | none => r
  | .back =>
      match r.previous with
      | some dir =>
          if (chdir r.current (path dir).text).isSome then ⟨dir, some r.current⟩ else r
      | none => r

/-- The register after the lines of a session. -/
def Register.afterLines (home : CharArray 256) (p : ShellProcess δ) (r : Register δ) :
    List (LineEvent δ) → Register δ
  | [] => r
  | e :: es =>
      match typeLine home e p with
      | some t =>
          Register.afterLines home t.1 (r.after path e.dirs.chdir (lineMove home e p)) es
      | none => r

/-- Every directory keeps its path, and an absolute path leads to the directory alone. -/
structure Stable (dirs : Directories δ) : Prop where
  atPrompt : ∀ dir, dirs.atPrompt dir = some (path dir)
  onLeaving : ∀ dir, dirs.onLeaving dir = some (path dir)
  onArrival : ∀ dir, dirs.onArrival dir = some (path dir)
  chdir : ∀ dir target dir', dirs.chdir dir (path target).text = some dir' → dir' = target

/-- The line does not export the variables of `cd`. -/
def KeepsPaths (home : CharArray 256) (e : LineEvent δ) (p : ShellProcess δ) : Prop :=
  (parseLine (getenv (p.reading e).environ) e.line).alone = some .export →
    ∀ w ∈ lineWrites home e p, w.1 ≠ ascii "PWD" ∧ w.1 ≠ ascii "OLDPWD"

/-- The shell is where the register says, and its variables say so. -/
structure Follows (r : Register δ) (p : ShellProcess δ) : Prop where
  dir : p.dir = r.current
  previous : getenv p.environ (ascii "OLDPWD") = r.previous.map fun dir => (path dir).text
  current : ∀ v ∈ getenv p.environ (ascii "PWD"), v = (path r.current).text

end Specification

section Moves

variable {δ : Type} {path : δ → CharArray 1024} {home : CharArray 256} {e : LineEvent δ}
  {r : Register δ} {p q : ShellProcess δ} {reply : Reply}

theorem settableName_oldpwd : SettableName (ascii "OLDPWD") := by
  unfold SettableName
  decide

theorem settableName_pwd : SettableName (ascii "PWD") := by
  unfold SettableName
  decide

theorem lastWrite_eq_none
    {writes : List (Bytes × CString)} {name : Bytes}
    (h : ∀ w ∈ writes, w.1 ≠ name) :
    lastWrite writes name = none := by
  rw [lastWrite, List.getLast?_eq_none_iff, List.filterMap_eq_nil_iff]
  exact fun w hw => if_neg (h w hw)

/-- The target of `cd` is what it asks for. -/
theorem cdTarget_eq
    (environ args : List Bytes) :
    cdTarget home environ args =
      match cdMove home args with
      | .go target => some target
      | .back => getenv environ (ascii "OLDPWD")
      | .stay => none := by
  cases args with
  | nil =>
      rfl
  | cons arg args =>
      simp only [cdTarget, cdMove]
      split_ifs <;> rfl

/-- The arguments of `cd` ask for a move. -/
theorem cdMove_ne_stay
    (args : List Bytes) :
    cdMove home args ≠ .stay := by
  unfold cdMove
  split
  · simp
  · split_ifs <;> simp

/-- Where `cd` goes to, the register goes to. -/
theorem after_cdMove
    (hfollows : Follows path r p)
    (hstable : Stable path e.dirs)
    (args : List Bytes) :
    r.after path e.dirs.chdir (cdMove home args) =
      match (cdTarget home p.environ args).bind (e.dirs.chdir p.dir) with
      | some dir => ⟨dir, some p.dir⟩
      | none => r := by
  rw [cdTarget_eq, hfollows.dir]
  cases hmove : cdMove home args with
  | stay => exact absurd hmove (cdMove_ne_stay args)
  | go target => rfl
  | back =>
      simp only [Register.after, hfollows.previous]
      cases r.previous with
      | none => rfl
      | some dir =>
          simp only [Option.map_some, Option.bind_some]
          cases hdir : e.dirs.chdir r.current (path dir).text with
          | none => simp
          | some dir' =>
              obtain rfl := hstable.chdir r.current dir dir' hdir
              simp

/-- A run of `cd` is followed. -/
theorem follows_cd
    (hfollows : Follows path r p)
    (hstable : Stable path e.dirs)
    {args : List Bytes}
    (h : cmdCd home e.dirs args p = some (q, reply)) :
    Follows path (r.after path e.dirs.chdir (cdMove home args)) q ∧
      q.running = p.running ∧
      (reply.ret = 0 →
        r.after path e.dirs.chdir (cdMove home args) = ⟨q.dir, some p.dir⟩) := by
  rw [after_cdMove hfollows hstable]
  unfold cmdCd at h
  cases htarget : cdTarget home p.environ args with
  | none =>
      simp only [htarget, Option.some.injEq, Prod.mk.injEq] at h
      simp [← h.1, ← h.2, hfollows]
  | some target =>
      simp only [htarget] at h
      cases hdir : e.dirs.chdir p.dir target with
      | none =>
          simp only [hdir, Option.some.injEq, Prod.mk.injEq] at h
          simp [← h.1, ← h.2, hdir, hfollows]
      | some dir =>
          simp only [hdir, hstable.onLeaving, hstable.onArrival, Option.bind_eq_bind,
            Option.bind_some, Option.getD_some, Option.pure_def, Option.some.injEq,
            Prod.mk.injEq] at h
          obtain ⟨rfl, -⟩ := h
          simp only [Option.bind_some, hdir]
          refine ⟨⟨rfl, ?_, ?_⟩, trivial, fun _ => trivial⟩
          · rw [getenv_setenv_of_ne settableName_oldpwd (by decide),
              getenv_setenv settableName_oldpwd, Option.map_some]
          · intro v hv
            rw [getenv_setenv settableName_pwd, Option.mem_some_iff] at hv
            exact hv.symm

end Moves

section Lines

variable {δ : Type} {path : δ → CharArray 1024} {home : CharArray 256} {e : LineEvent δ}
  {r : Register δ} {p q : ShellProcess δ} {reply : Reply}

/-- No handler but that of `cd` moves the shell. -/
theorem perform_dir
    {b : Builtin} {c : Command}
    (hb : b ≠ .cd)
    (h : b.perform home e c p = some (q, reply)) :
    q.dir = p.dir := by
  cases b with
  | cd => exact absurd rfl hb
  | «export» =>
      simp only [Builtin.perform, cmdExport, Option.some.injEq] at h
      split_ifs at h with hargs
      · simp only [Prod.mk.injEq] at h
        rw [← h.1]
      · simp only [Prod.mk.injEq] at h
        rw [← h.1]
  | _ =>
      simp only [Builtin.perform, Option.some.injEq, Prod.mk.injEq] at h
      rw [← h.1]

/-- The register follows a shell that stays, and does not write to the variables of `cd`. -/
theorem follows_of_writes
    {writes : List (Bytes × CString)}
    (hfollows : Follows path r p)
    (hdir : q.dir = p.dir)
    (henviron : q.environ = setAll p.environ writes)
    (hwrites : ∀ w ∈ writes, w.1 ≠ ascii "PWD" ∧ w.1 ≠ ascii "OLDPWD") :
    Follows path r q := by
  refine ⟨hdir.trans hfollows.dir, ?_, ?_⟩
  · rw [henviron, getenv_setAll settableName_oldpwd,
      lastWrite_eq_none fun w hw => (hwrites w hw).2, Option.none_or, hfollows.previous]
  · intro v hv
    rw [henviron, getenv_setAll settableName_pwd,
      lastWrite_eq_none fun w hw => (hwrites w hw).1, Option.none_or] at hv
    exact hfollows.current v hv

/-- Before the line is read, nothing has changed that the register follows. -/
theorem follows_reading
    (hfollows : Follows path r p)
    (e : LineEvent δ) :
    Follows path r (p.reading e) := by
  refine follows_of_writes hfollows rfl reading_environ fun w hw => ?_
  obtain ⟨size, -, hsize⟩ := List.mem_flatMap.mp hw
  have hname : w.1 = ascii "LINES" ∨ w.1 = ascii "COLUMNS" := by
    simp only [ScreenSize.writes, List.mem_cons, List.not_mem_nil, or_false] at hsize
    exact hsize.imp (congrArg Prod.fst) (congrArg Prod.fst)
  rcases hname with hname | hname
  · rw [hname]
    decide
  · rw [hname]
    decide

/-- The register follows the shell over a line. -/
theorem follows_line
    (hfollows : Follows path r p)
    (hstable : Stable path e.dirs)
    (hkeeps : KeepsPaths home e p)
    (h : typeLine home e p = some (q, reply)) :
    Follows path (r.after path e.dirs.chdir (lineMove home e p)) q := by
  have hreading := follows_reading hfollows e
  unfold typeLine at h
  split_ifs at h with hrunning hempty
  · obtain ⟨rfl, -⟩ := Prod.mk.inj (Option.some.inj h)
    simpa [lineMove, hempty, Register.after] using hreading
  · have htyped : p.running ∧ e.line.bytes ≠ [] := ⟨hrunning, hempty⟩
    obtain ⟨-, ⟨b, halone, hperform⟩ | ⟨halone, hsame⟩⟩ := executeLine_cases h
    · rw [lineMove, if_pos htyped]
      simp only [halone, Option.some.injEq]
      by_cases hcd : b = .cd
      · rw [if_pos hcd]
        subst hcd
        exact (follows_cd hreading hstable hperform).1
      · rw [if_neg hcd]
        refine follows_of_writes hreading (perform_dir hcd hperform)
          (perform_environ hperform) fun w hw => ?_
        by_cases hexport : b = .export
        · subst hexport
          refine hkeeps halone w ?_
          rw [lineWrites, if_pos hrunning, if_neg hempty]
          simp only [halone]
          exact List.mem_append_right _ hw
        · have hnil : b.writes home e.dirs
              ((parseLine (getenv (p.reading e).environ) e.line).commands 0).arguments
              (p.reading e) = [] := by
            cases b <;> first | rfl | exact absurd rfl hcd | exact absurd rfl hexport
          rw [hnil] at hw
          cases hw
    · rw [lineMove, if_pos htyped, hsame]
      simp only [halone, reduceCtorEq, if_false]
      exact ⟨hreading.dir, hreading.previous, hreading.current⟩
  · obtain ⟨rfl, -⟩ := Prod.mk.inj (Option.some.inj h)
    simpa [lineMove, hrunning, Register.after] using hfollows

/-- The register follows the shell over a session. -/
theorem follows_lines
    {es : List (LineEvent δ)} {replies replies' : List Reply}
    (hfollows : Follows path r p)
    (hstable : ∀ e ∈ es, Stable path e.dirs)
    (hkeeps : Transition.Guarded (lineStep home) (fun s e => KeepsPaths home e s.1)
      (p, replies) es)
    (hrun : Transition.run (lineStep home) (p, replies) es = some (q, replies')) :
    Follows path (Register.afterLines path home p r es) q := by
  induction es generalizing p r replies with
  | nil =>
      obtain ⟨rfl, -⟩ := Prod.mk.inj (Option.some.inj hrun)
      exact hfollows
  | cons e es ih =>
      rw [List.forall_mem_cons] at hstable
      obtain ⟨s, hs, hrest⟩ := Transition.run_cons_eq_some.mp hrun
      have hguard := hkeeps.2 s hs
      obtain ⟨⟨p', reply⟩, hline, rfl⟩ := Option.map_eq_some_iff.mp hs
      have hnext := follows_line hfollows hstable.1 hkeeps.1 hline
      simp only [Register.afterLines, hline]
      exact ih hnext hstable.2 hguard hrest

/-- A typed `pwd` prints the path of the directory. -/
theorem typeLine_pwd
    (hstable : Stable path e.dirs)
    (hrunning : p.running = true)
    (hline : ReadsTokens e.line [ascii "pwd"])
    (h : typeLine home e p = some (q, reply)) :
    reply.out = (path p.dir).text.bytes ++ ascii "\n" := by
  have hperform := typeLine_builtin (b := .pwd) hrunning (by decide +kernel) hline
    (by decide +kernel) h
  obtain ⟨-, rfl⟩ := Prod.mk.inj (Option.some.inj hperform)
  simp [cmdPwd, ShellProcess.reading, ShellProcess.prompted, hstable.atPrompt]

/-- A typed `cd -` that moves changes the two places over. -/
theorem typeLine_back
    (hfollows : Follows path r p)
    (hstable : Stable path e.dirs)
    (hrunning : p.running = true)
    (hline : ReadsTokens e.line [ascii "cd", ascii "-"])
    (h : typeLine home e p = some (q, reply))
    (hmoved : reply.ret = 0) :
    q.running = true ∧ ∃ dir, r.previous = some dir ∧ Follows path ⟨dir, some r.current⟩ q := by
  have hreading := follows_reading hfollows e
  have hperform := typeLine_builtin (b := .cd) hrunning (by decide +kernel) hline
    (by decide +kernel) h
  have hdash : expandVariables (getenv (p.reading e).environ) (ascii "-") = ascii "-" := by
    rw [expandVariables, if_neg (by decide +kernel)]
  rw [Builtin.perform, arguments_withArgs, List.map_singleton, hdash] at hperform
  obtain ⟨hnext, hstays, hplaces⟩ := follows_cd hreading hstable hperform
  have hback : cdMove home [ascii "-"] = .back := by
    rw [cdMove, if_pos rfl]
  have hregister := hplaces hmoved
  rw [hregister] at hnext
  have hcurrent : (p.reading e).dir = r.current := hreading.dir
  rw [hcurrent] at hnext hregister
  refine ⟨hstays.trans hrunning, q.dir, ?_, hnext⟩
  rw [hback, Register.after] at hregister
  cases hprevious : r.previous with
  | none =>
      simp only [hprevious] at hregister
      rw [hregister] at hprevious
      cases hprevious
  | some dir =>
      simp only [hprevious] at hregister
      split_ifs at hregister
      · exact congrArg (fun s => some s.current) hregister
      · -- the shell has stayed where both places are one
        have hboth : r.current = q.dir := congrArg Register.current hregister
        have hsame : r.previous = some r.current := congrArg Register.previous hregister
        rw [← hprevious, hsame, hboth]

end Lines

section Main

variable {δ : Type} {path : δ → CharArray 1024} {home : CharArray 256} {r : Register δ}
  {p q : ShellProcess δ}

/--
**The working directory.**

In every run of typed lines that all have a result, among directories that keep their paths,
in which no `export` writes to `PWD` or `OLDPWD`, the shell follows a register of two places,
where its variables agree with the register at the start: it is in the first, `OLDPWD` is the
path of the second, and `PWD`, where it is set, that of the first.  A typed `pwd` then prints
the path of the first place; a typed `cd -` that moves changes the places over, and another one
changes them back.
-/
theorem directory_register
    {replies : List Reply} {es : List (LineEvent δ)}
    (hstart : Follows path r p)
    (hstable : ∀ e ∈ es, Stable path e.dirs)
    (hkeeps : Transition.Guarded (lineStep home) (fun s e => KeepsPaths home e s.1) (p, []) es)
    (hrun : Transition.run (lineStep home) (p, []) es = some (q, replies)) :
    Follows path (Register.afterLines path home p r es) q ∧
    (∀ e t reply, Stable path e.dirs → q.running = true →
      ReadsTokens e.line [ascii "pwd"] → typeLine home e q = some (t, reply) →
      reply.out =
        (path (Register.afterLines path home p r es).current).text.bytes ++ ascii "\n") ∧
    (∀ e e' t t' reply reply', Stable path e.dirs → Stable path e'.dirs → q.running = true →
      ReadsTokens e.line [ascii "cd", ascii "-"] → ReadsTokens e'.line [ascii "cd", ascii "-"] →
      typeLine home e q = some (t, reply) → reply.ret = 0 →
      typeLine home e' t = some (t', reply') → reply'.ret = 0 →
      (Register.afterLines path home p r es).previous = some t.dir ∧
        Follows path (Register.afterLines path home p r es) t') := by
  have hfollows := follows_lines hstart hstable hkeeps hrun
  refine ⟨hfollows, ?_, ?_⟩
  · intro e t reply hdirs hrunning hline htype
    rw [← hfollows.dir]
    exact typeLine_pwd hdirs hrunning hline htype
  · intro e e' t t' reply reply' hdirs hdirs' hrunning hline hline' htype hmoved htype' hmoved'
    obtain ⟨hrunning', dir, hprevious, hover⟩ :=
      typeLine_back hfollows hdirs hrunning hline htype hmoved
    obtain ⟨-, dir', hprevious', hbackAgain⟩ :=
      typeLine_back hover hdirs' hrunning' hline' htype' hmoved'
    obtain rfl := Option.some.inj hprevious'
    rw [hover.dir]
    refine ⟨hprevious, ?_⟩
    rwa [← hprevious] at hbackAgain

end Main

section Examples

theorem stable_openDirectories : Stable id openDirectories where
  atPrompt := fun _ => rfl
  onLeaving := fun _ => rfl
  onArrival := fun _ => rfl
  chdir := by
    intro dir target dir' h
    simp only [openDirectories, id_eq, dif_pos target.fits, Option.some.injEq] at h
    exact h.symm

/-- The shell of `bob` after he went to two directories. -/
def bobAway : ShellProcess (CharArray 1024) where
  dir := .store 1024 (cstr (ascii "/etc"))
  cwd := .store 1024 (cstr (ascii "/etc"))
  environ :=
    [ascii "PATH=/bin", ascii "LINES=24", ascii "COLUMNS=80", ascii "OLDPWD=/tmp",
      ascii "PWD=/etc"]
  running := true
  lastExitCode := 0

/-- The lines with which he went there. -/
def bobLines : List (LineEvent (CharArray 1024)) :=
  [typedLine "cd /tmp", typedLine "cd /etc"]

/-- The register has both, and `pwd` prints the first. -/
theorem sample_register :
    Register.afterLines id bobHome bobShell ⟨bobShell.dir, none⟩ bobLines =
        ⟨bobAway.dir, some (.store 1024 (cstr (ascii "/tmp")))⟩ ∧
      (typeLine bobHome (typedLine "pwd") bobAway).map (fun t => t.2.out) =
        some (ascii "/etc\n") := by
  have hrun : Transition.run (lineStep bobHome) (bobShell, []) bobLines =
      some (bobAway, List.replicate 2 ⟨[], [], 0⟩) := by
    decide +kernel
  have hstart : Follows id ⟨bobShell.dir, none⟩ bobShell := by
    refine ⟨rfl, by decide +kernel, fun v hv => ?_⟩
    have hunset : getenv bobShell.environ (ascii "PWD") = none := by decide +kernel
    rw [hunset] at hv
    cases hv
  have hkeeps : Transition.Guarded (lineStep bobHome)
      (fun s e => KeepsPaths bobHome e s.1) (bobShell, []) bobLines := by
    unfold KeepsPaths
    decide +kernel
  have hregister : Register.afterLines id bobHome bobShell ⟨bobShell.dir, none⟩ bobLines =
      ⟨bobAway.dir, some (.store 1024 (cstr (ascii "/tmp")))⟩ := by
    decide +kernel
  refine ⟨hregister, ?_⟩
  cases htype : typeLine bobHome (typedLine "pwd") bobAway with
  | none => exact absurd htype (by decide +kernel)
  | some t =>
      have hline : ReadsTokens (typedLine "pwd").line [ascii "pwd"] := by
        unfold ReadsTokens
        decide +kernel
      have hprinted := (directory_register hstart (fun e he => by
          simp only [bobLines, List.mem_cons, List.not_mem_nil, or_false] at he
          rcases he with rfl | rfl <;> exact stable_openDirectories) hkeeps hrun).2.1
        (typedLine "pwd") t.1 t.2 stable_openDirectories rfl hline htype
      rw [Option.map_some, hprinted, hregister]
      decide +kernel

end Examples

end Shell
end SecureZ
