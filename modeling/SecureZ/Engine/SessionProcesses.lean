import SecureZ.Lib.Processes
import SecureZ.Lib.Transition
import SecureZ.Engine.SessionMap

/-!
# The processes of the sessions

`session_destroy` sends two signals to the pid in the entry and waits once, without blocking.
It holds the mutex meanwhile, but the rest of the system goes on: processes end, and pids are
given out again.  The only other wait of the daemon that can take a process of a session is
that of `container_create` and `container_open` behind a `fork` that has failed, which is
`waitpid(-1, ...)`.

The main result is about every interleaving: no process of a session runs when the session is
gone, and each signal meets the process of its session as long as no such wait has taken it
away.  Once it has, the signal can meet any process.
-/

namespace SecureZ
namespace Session

open Transition Processes

section Model

/-- How far `session_destroy` has got. -/
inductive EndPhase
  | found
  | terminated
  | killed
  | waited
deriving DecidableEq

/-- The session that is being ended, with the mutex held. -/
structure SessionEnding where
  id : Int
  pid : Int
  phase : EndPhase
deriving DecidableEq

/-- A signal: the session it is for, and whose process has the pid, none if there is none. -/
structure SentSignal where
  session : Int
  met : Option (Option Int)
deriving DecidableEq

/-- The daemon and the processes.  A process is owned by the session whose id it has, if any. -/
structure ProcessSystem where
  table : SessionTable
  procs : ProcessTable (Option Int)
  ending : Option SessionEnding
  signals : List SentSignal
  /-- The sessions whose process had not ended yet when it was waited for. -/
  missed : List Int

/-- The daemon after `session_init`, before any process that matters. -/
def ProcessSystem.start : ProcessSystem :=
  ⟨sessionInit, fun _ => none, none, [], []⟩

/-- What happens in the system. -/
inductive ProcessEvent
  | create (args : CreateArgs) (sys : CreateSys)
  | destroy (id : Int)
  /-- The next call of the `session_destroy` that has the mutex. -/
  | proceed
  /-- A process ends. -/
  | exit (pid : Int)
  | otherStarts (pid : Int)
  /-- The parent of another process waits for it. -/
  | otherReaped (pid : Int)
  /-- `waitpid(-1, ...)` in a container function whose `fork` has failed: it returns a child
  that has ended. -/
  | waitAny (pid : Int)

/-- The signal that `session_destroy` sends. -/
def ProcessSystem.signal (s : ProcessSystem) (g : SessionEnding) : SentSignal :=
  ⟨g.id, ownerOf s.procs g.pid⟩

/-- The session leaves the table, and the mutex is unlocked. -/
def ProcessSystem.finish (s : ProcessSystem) (g : SessionEnding) : ProcessSystem :=
  { s with table := (sessionDestroy s.table g.id).1, ending := none }

/-- A call of `session_destroy`. -/
def ProcessSystem.proceed (s : ProcessSystem) (g : SessionEnding) : ProcessSystem :=
  match g.phase with
  | .found =>
      if g.pid > 0 then
        { s with
          ending := some { g with phase := .terminated }
          signals := s.signals ++ [s.signal g] }
      else s.finish g
  | .terminated =>
      { s with
        procs := kill s.procs g.pid
        ending := some { g with phase := .killed }
        signals := s.signals ++ [s.signal g] }
  | .killed =>
      let w := waitNoHang Option.isSome s.procs g.pid
      { s with
        procs := w.1
        ending := some { g with phase := .waited }
        missed := if w.2 then s.missed else s.missed ++ [g.id] }
  | .waited => s.finish g

/-- A wait that blocks until it can take the child. -/
def ProcessSystem.take (s : ProcessSystem) (isChild : Option Int → Bool) (pid : Int) :
    Option ProcessSystem :=
  let w := waitNoHang isChild s.procs pid
  if w.2 then some { s with procs := w.1 } else none

/-- A step of the system.  The mutex keeps creations and endings out while a session is ended;
counting the next id up past `INT_MAX` has no meaning in C. -/
def processStep (s : ProcessSystem) : ProcessEvent → Option ProcessSystem
  | .create args sys =>
      if s.ending.isSome ∨ createWrites s.table ∧ s.table.nextId = intMax then none
      else
        match createLocked s.table args sys with
        | (t, none) => some { s with table := t }
        | (t, some _) =>
            (start s.procs sys.childPid (some s.table.nextId)).map fun procs =>
              { s with table := t, procs := procs }
  | .destroy id =>
      if s.ending.isSome then none
      else
        match findSession s.table id with
        | none => some s
        | some idx => some { s with ending := some ⟨id, (s.table.slots idx).pid, .found⟩ }
  | .proceed => s.ending.map s.proceed
  | .exit pid => some { s with procs := exit s.procs pid }
  | .otherStarts pid =>
      (start s.procs pid none).map fun procs => { s with procs := procs }
  | .otherReaped pid => s.take Option.isNone pid
  | .waitAny pid => s.take Option.isSome pid

end Model

section Specification

/-- The ids of the sessions. -/
def ProcessSystem.ids (s : ProcessSystem) : List Int :=
  s.table.sessions.map SessionInfo.id

/-- A signal for the session is still to come, at the latest when it is ended. -/
def SignalsToCome (s : ProcessSystem) (id : Int) : Prop :=
  id ∈ s.ids ∧
    ∀ g ∈ s.ending, g.id = id → g.phase = .found ∨ g.phase = .terminated

/-- A wait for any child takes no process for which a signal is still to come. -/
def SparesSessions (s : ProcessSystem) : ProcessEvent → Prop
  | .waitAny pid => ∀ id, ownerOf s.procs pid = some (some id) → ¬ SignalsToCome s id
  | _ => True

end Specification

section Effect

/-- What a step can do. -/
inductive ProcessEffect (s : ProcessSystem) : ProcessEvent → ProcessSystem → Prop
  | notCreated
      {args : CreateArgs} {sys : CreateSys} {t : SessionTable}
      (hfree : s.ending = none)
      (hsessions : t.sessions = s.table.sessions)
      (hnext : s.table.nextId ≤ t.nextId) :
      ProcessEffect s (.create args sys) { s with table := t }
  | created
      {args : CreateArgs} {sys : CreateSys} {t : SessionTable}
      {procs : ProcessTable (Option Int)}
      (hfree : s.ending = none)
      (hsessions : t.sessions = s.table.sessions ++ [activeEntry s.table.nextId args sys])
      (hnext : t.nextId = s.table.nextId + 1)
      (hstart : Processes.start s.procs sys.childPid (some s.table.nextId) = some procs) :
      ProcessEffect s (.create args sys) { s with table := t, procs := procs }
  | unknown
      {id : Int}
      (hfree : s.ending = none) :
      ProcessEffect s (.destroy id) s
  | found
      {id : Int} {e : SessionInfo}
      (hfree : s.ending = none)
      (hmem : e ∈ s.table.sessions)
      (hid : e.id = id) :
      ProcessEffect s (.destroy id) { s with ending := some ⟨id, e.pid, .found⟩ }
  | proceeds
      {g : SessionEnding}
      (hending : s.ending = some g) :
      ProcessEffect s .proceed (s.proceed g)
  | exits
      {pid : Int} :
      ProcessEffect s (.exit pid) { s with procs := Processes.exit s.procs pid }
  | starts
      {pid : Int} {procs : ProcessTable (Option Int)}
      (hstart : Processes.start s.procs pid none = some procs) :
      ProcessEffect s (.otherStarts pid) { s with procs := procs }
  | reaped
      {pid : Int}
      (hdead : s.procs pid = some ⟨none, .dead⟩) :
      ProcessEffect s (.otherReaped pid) { s with procs := Function.update s.procs pid none }
  | taken
      {pid id : Int}
      (hdead : s.procs pid = some ⟨some id, .dead⟩) :
      ProcessEffect s (.waitAny pid) { s with procs := Function.update s.procs pid none }

/-- A wait takes a child that has ended. -/
theorem take_eq_some
    {s s' : ProcessSystem} {isChild : Option Int → Bool} {pid : Int}
    (h : s.take isChild pid = some s') :
    ∃ owner, isChild owner = true ∧ s.procs pid = some ⟨owner, .dead⟩ ∧
      s' = { s with procs := Function.update s.procs pid none } := by
  unfold ProcessSystem.take at h
  simp only at h
  split_ifs at h with htaken
  obtain ⟨owner, hchild, hdead, hprocs⟩ := waitNoHang_reaped htaken
  rw [hprocs] at h
  exact ⟨owner, hchild, hdead, (Option.some.inj h).symm⟩

/-- A step does one of these. -/
theorem processEffect_of_step
    {s s' : ProcessSystem} {event : ProcessEvent}
    (h : processStep s event = some s') :
    ProcessEffect s event s' := by
  cases event with
  | create args sys =>
      simp only [processStep] at h
      split_ifs at h with hbusy
      rw [not_or, Bool.not_eq_true, Option.isSome_eq_false_iff, Option.isNone_iff_eq_none] at hbusy
      by_cases hw : createWrites s.table
      · by_cases hok : sys.stack = true ∧ 0 ≤ sys.childPid
        · simp only [createLocked_done hw hok] at h
          obtain ⟨procs, hstart, rfl⟩ := Option.map_eq_some_iff.mp h
          exact .created hbusy.1 (sessions_addSession s.table _ hw.2 rfl) rfl hstart
        · simp only [createLocked_failed hw hok, Option.some.injEq] at h
          subst h
          refine .notCreated hbusy.1 (sessions_writeNext s.table _) ?_
          simp [SessionTable.writeNext]
      · simp only [createLocked_of_not_writes hw, Option.some.injEq] at h
        subst h
        exact .notCreated hbusy.1 rfl le_rfl
  | destroy id =>
      simp only [processStep] at h
      split_ifs at h with hbusy
      rw [Bool.not_eq_true, Option.isSome_eq_false_iff, Option.isNone_iff_eq_none] at hbusy
      cases hfind : findSession s.table id with
      | none =>
          simp only [hfind, Option.some.injEq] at h
          subst h
          exact .unknown hbusy
      | some idx =>
          simp only [hfind, Option.some.injEq] at h
          subst h
          rw [findSession_eq] at hfind
          obtain ⟨hlt, hid, -⟩ := SlotArray.find_eq_some_iff.mp hfind
          exact .found hbusy (mem_sessions.mpr ⟨idx, hlt, rfl⟩) (by simpa using hid)
  | proceed =>
      obtain ⟨g, hending, rfl⟩ := Option.map_eq_some_iff.mp h
      exact .proceeds hending
  | exit pid =>
      obtain rfl := Option.some.inj h
      exact .exits
  | otherStarts pid =>
      obtain ⟨procs, hstart, rfl⟩ := Option.map_eq_some_iff.mp h
      exact .starts hstart
  | otherReaped pid =>
      obtain ⟨owner, hchild, hdead, rfl⟩ := take_eq_some h
      obtain rfl := Option.isNone_iff_eq_none.mp hchild
      exact .reaped hdead
  | waitAny pid =>
      obtain ⟨owner, hchild, hdead, rfl⟩ := take_eq_some h
      obtain ⟨id, rfl⟩ := Option.isSome_iff_exists.mp hchild
      exact .taken hdead

end Effect

section Places

/-- What holds in every state: the process of a session has the pid in its entry, if it has not
been taken out, and it runs only while the session is there and was not killed. -/
structure Placed (s : ProcessSystem) : Prop where
  known : ∀ {pid id}, ownerOf s.procs pid = some (some id) → id < s.table.nextId
  positive : ∀ {e}, e ∈ s.table.sessions → 0 < e.pid
  place : ∀ {e}, e ∈ s.table.sessions →
    ∀ {pid}, ownerOf s.procs pid = some (some e.id) → pid = e.pid
  ending : ∀ {g}, s.ending = some g → ∃ e ∈ s.table.sessions, e.id = g.id ∧ e.pid = g.pid
  running : ∀ {pid id}, s.procs pid = some ⟨some id, .running⟩ →
    id ∈ s.ids ∧ ∀ {g}, s.ending = some g → g.phase = .killed ∨ g.phase = .waited → g.id ≠ id
  leftover : ∀ {pid id}, ownerOf s.procs pid = some (some id) →
    (id ∈ s.ids ∨ id ∈ s.missed) ∧
      ∀ {g}, s.ending = some g → g.phase = .waited → g.id = id → id ∈ s.missed

variable {s s' : ProcessSystem}

theorem placed_start : Placed .start where
  known := by simp [ownerOf, ProcessSystem.start]
  positive := by simp [ProcessSystem.start, SessionTable.sessions, sessionInit]
  place := by simp [ProcessSystem.start, SessionTable.sessions, sessionInit]
  ending := by simp [ProcessSystem.start]
  running := by simp [ProcessSystem.start]
  leftover := by simp [ownerOf, ProcessSystem.start]

/-- A session is known by its id. -/
theorem eq_of_id_eq
    {t : SessionTable} {e e' : SessionInfo}
    (he : e ∈ t.sessions) (he' : e' ∈ t.sessions)
    (hid : e.id = e'.id) :
    e = e' := by
  obtain ⟨i, hi, rfl⟩ := mem_sessions.mp he
  obtain ⟨j, hj, rfl⟩ := mem_sessions.mp he'
  rcases lt_trichotomy i j with hij | rfl | hij
  · exact absurd hid (t.ordered i j hij hj).ne
  · rfl
  · exact absurd hid (t.ordered j i hij hi).ne'

theorem mem_ids_of_mem
    {e : SessionInfo}
    (he : e ∈ s.table.sessions) :
    e.id ∈ s.ids :=
  List.mem_map_of_mem he

/-- A step that changes the processes, and lets nobody have more pids. -/
theorem Placed.shrink
    (h : Placed s)
    {procs : ProcessTable (Option Int)}
    (howner : ∀ {pid id}, ownerOf procs pid = some (some id) →
      ownerOf s.procs pid = some (some id))
    (hrunning : ∀ {pid id}, procs pid = some ⟨some id, .running⟩ →
      s.procs pid = some ⟨some id, .running⟩) :
    Placed { s with procs := procs } where
  known := fun hown => h.known (howner hown)
  positive := h.positive
  place := fun he _ hown => h.place he (howner hown)
  ending := h.ending
  running := fun hrun => h.running (hrunning hrun)
  leftover := fun hown => h.leftover (howner hown)

/-- A session leaves the table when its process was killed and waited for, or was never there. -/
theorem Placed.finish
    (h : Placed s)
    {g : SessionEnding}
    (hending : s.ending = some g)
    (hphase : g.phase = .waited) :
    Placed (s.finish g) := by
  obtain ⟨hsessions, hnext, -, -⟩ := sessionDestroy_spec s.table g.id
  have hmem : ∀ {e}, e ∈ (s.finish g).table.sessions → e ∈ s.table.sessions := by
    intro e he
    simp only [ProcessSystem.finish, hsessions] at he
    exact List.mem_of_mem_filter he
  have hids : ∀ {id}, id ∈ s.ids → g.id ≠ id → id ∈ (s.finish g).ids := by
    intro id hid hne
    obtain ⟨e, he, rfl⟩ := List.mem_map.mp hid
    simp only [ProcessSystem.ids, ProcessSystem.finish, hsessions]
    exact List.mem_map_of_mem (List.mem_filter.mpr ⟨he, by simpa using hne.symm⟩)
  refine ⟨?_, ?_, ?_, ?_, ?_, ?_⟩
  · intro pid id hown
    have hlt := h.known hown
    simpa only [ProcessSystem.finish, hnext] using hlt
  · exact fun he => h.positive (hmem he)
  · exact fun he _ hown => h.place (hmem he) hown
  · intro g' hg'
    simp [ProcessSystem.finish] at hg'
  · intro pid id hrun
    obtain ⟨hid, hkilled⟩ := h.running hrun
    refine ⟨hids hid (hkilled hending (Or.inr hphase)), fun hg' => ?_⟩
    simp [ProcessSystem.finish] at hg'
  · intro pid id hown
    obtain ⟨hid, hwaited⟩ := h.leftover hown
    refine ⟨?_, fun hg' => ?_⟩
    · by_cases hgid : g.id = id
      · exact Or.inr (hwaited hending hphase hgid)
      · rcases hid with hid | hid
        · exact Or.inl (hids hid hgid)
        · exact Or.inr hid
    · simp [ProcessSystem.finish] at hg'

/-- Each call of `session_destroy` keeps the processes in their places. -/
theorem Placed.proceed
    (h : Placed s)
    {g : SessionEnding}
    (hending : s.ending = some g) :
    Placed (s.proceed g) := by
  obtain ⟨e, he, hid, hpid⟩ := h.ending hending
  unfold ProcessSystem.proceed
  cases hphase : g.phase with
  | found =>
      have hpos : g.pid > 0 := hpid ▸ h.positive he
      simp only [if_pos hpos]
      refine ⟨h.known, h.positive, h.place, ?_, ?_, ?_⟩
      · rintro g' hg'
        obtain rfl := Option.some.inj hg'
        exact ⟨e, he, hid, hpid⟩
      · intro pid id hrun
        refine ⟨(h.running hrun).1, fun hg' hlate => ?_⟩
        obtain rfl := Option.some.inj hg'
        rcases hlate with hlate | hlate <;> cases hlate
      · intro pid id hown
        refine ⟨(h.leftover hown).1, fun hg' hlate => ?_⟩
        obtain rfl := Option.some.inj hg'
        cases hlate
  | terminated =>
      simp only
      have hkept : Placed { s with procs := kill s.procs g.pid } :=
        h.shrink (fun hown => by rwa [ownerOf_kill] at hown)
          fun hrun => (running_of_kill hrun).2
      refine ⟨hkept.known, hkept.positive, hkept.place, ?_, ?_, ?_⟩
      · rintro g' hg'
        obtain rfl := Option.some.inj hg'
        exact ⟨e, he, hid, hpid⟩
      · intro pid id hrun
        refine ⟨(hkept.running hrun).1, fun hg' _ hgid => ?_⟩
        obtain rfl := Option.some.inj hg'
        -- the process of the session has the pid that was killed
        obtain ⟨hother, hran⟩ := running_of_kill hrun
        have hown : ownerOf s.procs pid = some (some e.id) := by
          rw [ownerOf, hran, hid]
          exact congrArg (fun i => some (some i)) hgid.symm
        exact hother ((h.place he hown).trans hpid)
      · intro pid id hown
        refine ⟨(hkept.leftover hown).1, fun hg' hlate => ?_⟩
        obtain rfl := Option.some.inj hg'
        cases hlate
  | killed =>
      simp only
      rcases waitNoHang_cases Option.isSome s.procs g.pid with hsame | ⟨owner, -, -, htaken⟩
      · rw [hsame]
        simp only [Bool.false_eq_true, if_false]
        refine ⟨h.known, h.positive, h.place, ?_, ?_, ?_⟩
        · rintro g' hg'
          obtain rfl := Option.some.inj hg'
          exact ⟨e, he, hid, hpid⟩
        · intro pid id hrun
          obtain ⟨hmem, hkilled⟩ := h.running hrun
          refine ⟨hmem, fun hg' _ => ?_⟩
          obtain rfl := Option.some.inj hg'
          exact hkilled (g := g) hending (Or.inl hphase)
        · intro pid id hown
          refine ⟨(h.leftover hown).1.imp_right fun hm => List.mem_append_left _ hm, ?_⟩
          intro g' hg' _ hgid
          obtain rfl := Option.some.inj hg'
          exact List.mem_append_right _ (List.mem_singleton.mpr hgid.symm)
      · rw [htaken]
        simp only [if_true]
        have hkept : Placed { s with procs := Function.update s.procs g.pid none } :=
          h.shrink (fun hown => (ownerOf_of_remove hown).2)
            fun hrun => (running_of_remove hrun).2
        refine ⟨hkept.known, hkept.positive, hkept.place, ?_, ?_, ?_⟩
        · rintro g' hg'
          obtain rfl := Option.some.inj hg'
          exact ⟨e, he, hid, hpid⟩
        · intro pid id hrun
          obtain ⟨hmem, hkilled⟩ := hkept.running hrun
          refine ⟨hmem, fun hg' _ => ?_⟩
          obtain rfl := Option.some.inj hg'
          exact hkilled (g := g) hending (Or.inl hphase)
        · intro pid id hown
          refine ⟨(hkept.leftover hown).1, fun hg' _ hgid => ?_⟩
          obtain rfl := Option.some.inj hg'
          -- the pid of the session is the one that was taken out
          obtain ⟨hother, hown⟩ := ownerOf_of_remove hown
          have howner : ownerOf s.procs pid = some (some e.id) := by
            rw [hown, hid]
            exact congrArg (fun i => some (some i)) hgid.symm
          exact absurd ((h.place he howner).trans hpid) hother
  | waited => exact h.finish hending hphase

/-- A session is created: nobody has had its id or its pid. -/
theorem Placed.created
    (h : Placed s)
    {args : CreateArgs} {sys : CreateSys} {t : SessionTable}
    {procs : ProcessTable (Option Int)}
    (hfree : s.ending = none)
    (hsessions : t.sessions = s.table.sessions ++ [activeEntry s.table.nextId args sys])
    (hnext : t.nextId = s.table.nextId + 1)
    (hstart : Processes.start s.procs sys.childPid (some s.table.nextId) = some procs) :
    Placed { s with table := t, procs := procs } := by
  have hids : ∀ {id}, id ∈ t.sessions.map SessionInfo.id ↔ id ∈ s.ids ∨ id = s.table.nextId := by
    intro id
    rw [hsessions, List.map_append, List.mem_append, List.map_singleton, List.mem_singleton]
    rfl
  have hno : ∀ {g}, s.ending = some g → False := by
    intro g hg
    rw [hfree] at hg
    cases hg
  have hown : ∀ {pid id}, ownerOf procs pid = some (some id) →
      (pid = sys.childPid ∧ id = s.table.nextId) ∨ ownerOf s.procs pid = some (some id) := by
    intro pid id howner
    rw [ownerOf_start hstart] at howner
    split_ifs at howner with hpid
    · exact Or.inl ⟨hpid, (Option.some.inj (Option.some.inj howner)).symm⟩
    · exact Or.inr howner
  refine ⟨?_, ?_, ?_, fun hg => (hno hg).elim, ?_, ?_⟩
  · intro pid id howner
    simp only [hnext]
    rcases hown howner with ⟨-, rfl⟩ | hold
    · omega
    · have hlt := h.known hold
      omega
  · intro e he
    simp only [hsessions, List.mem_append, List.mem_singleton] at he
    rcases he with he | rfl
    · exact h.positive he
    · exact (start_eq_some hstart).1
  · intro e he pid howner
    simp only [hsessions, List.mem_append, List.mem_singleton] at he
    rcases he with he | rfl
    · rcases hown howner with ⟨-, hid⟩ | hold
      · exact absurd hid (sessions_below s.table e he).ne
      · exact h.place he hold
    · rcases hown howner with ⟨hpid, -⟩ | hold
      · exact hpid
      · exact absurd (h.known hold) (lt_irrefl _)
  · intro pid id hrun
    refine ⟨hids.mpr ?_, fun hg => (hno hg).elim⟩
    rcases running_of_start hstart hrun with ⟨-, hid⟩ | ⟨-, hold⟩
    · exact Or.inr (Option.some.inj hid)
    · exact Or.inl (h.running hold).1
  · intro pid id howner
    refine ⟨?_, fun hg => (hno hg).elim⟩
    rcases hown howner with ⟨-, hid⟩ | hold
    · exact Or.inl (hids.mpr (Or.inr hid))
    · exact (h.leftover hold).1.imp_left fun hid => hids.mpr (Or.inl hid)

/-- Every step keeps the processes in their places. -/
theorem placed_step
    (h : Placed s)
    {event : ProcessEvent}
    (hstep : processStep s event = some s') :
    Placed s' := by
  cases processEffect_of_step hstep with
  | notCreated hfree hsessions hnext =>
      refine ⟨fun hown => (h.known hown).trans_le hnext, ?_, ?_, ?_, ?_, ?_⟩
      · intro e he
        exact h.positive (hsessions ▸ he)
      · intro e he pid hown
        exact h.place (hsessions ▸ he) hown
      · intro g hg
        exact absurd (hfree.symm.trans hg) (by simp)
      · intro pid id hrun
        simpa only [ProcessSystem.ids, hsessions] using h.running hrun
      · intro pid id hown
        simpa only [ProcessSystem.ids, hsessions] using h.leftover hown
  | @created args sys t procs hfree hsessions hnext hstart =>
      exact h.created hfree hsessions hnext hstart
  | unknown _ => exact h
  | found hfree hmem hid =>
      refine ⟨h.known, h.positive, h.place, ?_, ?_, ?_⟩
      · intro g hg
        obtain rfl := Option.some.inj hg
        exact ⟨_, hmem, hid, rfl⟩
      · intro pid id hrun
        refine ⟨(h.running hrun).1, fun hg hlate => ?_⟩
        obtain rfl := Option.some.inj hg
        rcases hlate with hlate | hlate <;> cases hlate
      · intro pid id hown
        refine ⟨(h.leftover hown).1, fun hg hlate => ?_⟩
        obtain rfl := Option.some.inj hg
        cases hlate
  | proceeds hending => exact h.proceed hending
  | exits =>
      exact h.shrink (fun hown => by rwa [ownerOf_exit] at hown) running_of_exit
  | starts hstart =>
      refine h.shrink (fun hown => ?_) (fun hrun => ?_)
      · rw [ownerOf_start hstart] at hown
        split_ifs at hown with hpid
        · cases hown
        · exact hown
      · rcases running_of_start hstart hrun with ⟨-, hid⟩ | ⟨-, hold⟩
        · cases hid
        · exact hold
  | reaped _ | taken _ =>
      exact h.shrink (fun hown => (ownerOf_of_remove hown).2)
        fun hrun => (running_of_remove hrun).2

end Places

section Signals

/-- What holds as long as no wait for any child takes a process that is still to be signalled:
the pid in the entry is that of the process, and every signal has met it. -/
structure Aimed (s : ProcessSystem) : Prop where
  held : ∀ {e}, e ∈ s.table.sessions → SignalsToCome s e.id →
    ownerOf s.procs e.pid = some (some e.id)
  alone : ∀ {g}, s.ending = some g → ∀ {id}, ownerOf s.procs g.pid = some (some id) → id = g.id
  right : ∀ sent ∈ s.signals, sent.met = some (some sent.session)

variable {s s' : ProcessSystem}

theorem aimed_start : Aimed .start where
  held := by simp [ProcessSystem.start, SessionTable.sessions, sessionInit]
  alone := by simp [ProcessSystem.start]
  right := by simp [ProcessSystem.start]

/-- A step that changes the processes alone. -/
theorem Aimed.change
    (h : Aimed s)
    {procs : ProcessTable (Option Int)}
    (hkept : ∀ {e}, e ∈ s.table.sessions → SignalsToCome s e.id →
      ownerOf s.procs e.pid = some (some e.id) → ownerOf procs e.pid = some (some e.id))
    (howner : ∀ {pid id}, ownerOf procs pid = some (some id) →
      ownerOf s.procs pid = some (some id)) :
    Aimed { s with procs := procs } where
  held := fun he hcome => hkept he hcome (h.held he hcome)
  alone := fun hg _ hown => h.alone hg (howner hown)
  right := h.right

/-- Before its first or second signal a session has its process. -/
theorem Aimed.signal
    (hplaced : Placed s)
    (h : Aimed s)
    {g : SessionEnding}
    (hending : s.ending = some g)
    (hphase : g.phase = .found ∨ g.phase = .terminated) :
    ∀ sent ∈ s.signals ++ [s.signal g], sent.met = some (some sent.session) := by
  obtain ⟨e, he, hid, hpid⟩ := hplaced.ending hending
  have hcome : SignalsToCome s e.id := by
    refine ⟨mem_ids_of_mem he, fun g' hg' _ => ?_⟩
    rw [hending, Option.mem_def, Option.some.injEq] at hg'
    exact hg' ▸ hphase
  have hown := h.held he hcome
  rw [hpid, hid] at hown
  intro sent hsent
  rcases List.mem_append.mp hsent with hsent | hsent
  · exact h.right sent hsent
  · obtain rfl := List.mem_singleton.mp hsent
    exact hown

/-- A session that goes on being ended has no more signals to come than before. -/
theorem signalsToCome_of_later
    {g g' : SessionEnding} {id : Int}
    (h : SignalsToCome s' id)
    (hids : s'.ids = s.ids)
    (hending : s.ending = some g)
    (hending' : s'.ending = some g')
    (hid : g'.id = g.id)
    (hphase : g'.phase = .found ∨ g'.phase = .terminated →
      g.phase = .found ∨ g.phase = .terminated) :
    SignalsToCome s id := by
  refine ⟨hids ▸ h.1, fun x hx hxid => ?_⟩
  rw [hending, Option.mem_def, Option.some.injEq] at hx
  subst hx
  exact hphase (h.2 g' hending' (hid.trans hxid))

/-- Each call of `session_destroy` aims right. -/
theorem Aimed.proceed
    (hplaced : Placed s)
    (h : Aimed s)
    {g : SessionEnding}
    (hending : s.ending = some g) :
    Aimed (s.proceed g) := by
  obtain ⟨e, he, hid, hpid⟩ := hplaced.ending hending
  unfold ProcessSystem.proceed
  cases hphase : g.phase with
  | found =>
      have hpos : g.pid > 0 := hpid ▸ hplaced.positive he
      simp only [if_pos hpos]
      refine ⟨fun he' hcome => ?_, ?_, h.signal hplaced hending (Or.inl hphase)⟩
      · exact h.held he' (signalsToCome_of_later hcome rfl hending rfl rfl
          fun _ => Or.inl hphase)
      · intro g' hg' id hown
        obtain rfl := Option.some.inj hg'
        exact h.alone hending hown
  | terminated =>
      simp only
      refine ⟨fun he' hcome => ?_, ?_, h.signal hplaced hending (Or.inr hphase)⟩
      · rw [ownerOf_kill]
        exact h.held he' (signalsToCome_of_later hcome rfl hending rfl rfl
          fun _ => Or.inr hphase)
      · intro g' hg' id hown
        obtain rfl := Option.some.inj hg'
        rw [ownerOf_kill] at hown
        exact h.alone hending hown
  | killed =>
      simp only
      refine ⟨fun {e'} he' hcome => ?_, ?_, h.right⟩
      · have hbefore : SignalsToCome s e'.id :=
          signalsToCome_of_later hcome rfl hending rfl rfl (by simp)
        have hown := h.held he' hbefore
        rcases waitNoHang_cases Option.isSome s.procs g.pid with hsame | ⟨owner, -, -, htaken⟩
        · rwa [hsame]
        · rw [htaken]
          simp only [ownerOf]
          rw [Function.update_of_ne]
          · exact hown
          · -- the pid that is waited for is no other session's
            intro hsame
            have hgid := h.alone hending (hsame ▸ hown)
            rcases hbefore.2 g hending hgid.symm with hearly | hearly <;>
              rw [hphase] at hearly <;> cases hearly
      · intro g' hg' id hown
        obtain rfl := Option.some.inj hg'
        rcases waitNoHang_cases Option.isSome s.procs g.pid with hsame | ⟨owner, -, -, htaken⟩
        · rw [hsame] at hown
          exact h.alone hending hown
        · rw [htaken] at hown
          exact absurd rfl (ownerOf_of_remove hown).1
  | waited =>
      obtain ⟨hsessions, -, -, -⟩ := sessionDestroy_spec s.table g.id
      refine ⟨fun {e'} he' hcome => ?_, fun hg' => ?_, h.right⟩
      · simp only [ProcessSystem.finish, hsessions] at he'
        obtain ⟨hmem, hne⟩ := List.mem_filter.mp he'
        refine h.held hmem ⟨mem_ids_of_mem hmem, fun g' hg' hgid => ?_⟩
        rw [hending, Option.mem_def, Option.some.injEq] at hg'
        subst hg'
        exact absurd hgid.symm (by simpa using hne)
      · simp [ProcessSystem.finish] at hg'

/-- So does every step that spares the sessions. -/
theorem aimed_step
    (hplaced : Placed s)
    (h : Aimed s)
    {event : ProcessEvent}
    (hspares : SparesSessions s event)
    (hstep : processStep s event = some s') :
    Aimed s' := by
  cases processEffect_of_step hstep with
  | @notCreated args sys t hfree hsessions hnext =>
      refine ⟨fun he hcome => ?_, fun hg => absurd (hfree.symm.trans hg) (by simp), h.right⟩
      simp only [hsessions] at he
      refine h.held he ⟨mem_ids_of_mem he, fun g hg => ?_⟩
      exact absurd (hfree.symm.trans hg) (by simp)
  | @created args sys t procs hfree hsessions hnext hstart =>
      refine ⟨fun {e} he _ => ?_, fun hg => absurd (hfree.symm.trans hg) (by simp), h.right⟩
      simp only [hsessions, List.mem_append, List.mem_singleton] at he
      rcases he with he | rfl
      · have hown := h.held he ⟨mem_ids_of_mem he, fun g hg =>
          absurd (hfree.symm.trans hg) (by simp)⟩
        rw [ownerOf_start_of_taken hstart (by rw [hown]; rfl), hown]
      · rw [ownerOf_start hstart]
        exact if_pos rfl
  | unknown _ => exact h
  | @found id e hfree hmem hid =>
      have hcome : ∀ {i}, i ∈ s.ids → SignalsToCome s i := fun hi =>
        ⟨hi, fun g hg => absurd (hfree.symm.trans hg) (by simp)⟩
      refine ⟨fun he _ => h.held he (hcome (mem_ids_of_mem he)), ?_, h.right⟩
      intro g hg i hown
      obtain rfl := Option.some.inj hg
      rw [h.held hmem (hcome (mem_ids_of_mem hmem)), Option.some.injEq, Option.some.injEq] at hown
      exact hown.symm.trans hid
  | proceeds hending => exact h.proceed hplaced hending
  | exits =>
      exact h.change (fun _ _ hown => by rwa [ownerOf_exit])
        (fun hown => by rwa [ownerOf_exit] at hown)
  | starts hstart =>
      refine h.change (fun _ _ hown => ?_) (fun hown => ?_)
      · rw [ownerOf_start_of_taken hstart (by rw [hown]; rfl), hown]
      · rw [ownerOf_start hstart] at hown
        split_ifs at hown with hpid
        · cases hown
        · exact hown
  | @reaped pid hdead =>
      refine h.change (fun {e} _ _ hown => ?_) (fun hown => (ownerOf_of_remove hown).2)
      have hne : e.pid ≠ pid := by
        rintro rfl
        simp [ownerOf, hdead] at hown
      rwa [ownerOf, Function.update_of_ne hne]
  | @taken pid id hdead =>
      refine h.change (fun {e} _ hcome hown => ?_) (fun hown => (ownerOf_of_remove hown).2)
      have hne : e.pid ≠ pid := by
        rintro rfl
        exact hspares e.id hown hcome
      rwa [ownerOf, Function.update_of_ne hne]

end Signals

section Astray

variable {s : ProcessSystem} {g : SessionEnding} {e : SessionInfo} {pid : Int}

/-- The calls that `session_destroy` still makes before it leaves the table. -/
def EndPhase.left : EndPhase → Nat
  | .found => 3
  | .terminated => 2
  | .killed => 1
  | .waited => 0

theorem mem_finish
    (he : e ∈ s.table.sessions)
    (hne : g.id ≠ e.id) :
    e ∈ (s.finish g).table.sessions := by
  obtain ⟨hsessions, -, -, -⟩ := sessionDestroy_spec s.table g.id
  simp only [ProcessSystem.finish, hsessions]
  exact List.mem_filter.mpr ⟨he, by simpa using hne.symm⟩

/-- A call of `session_destroy` leaves the other sessions and processes alone. -/
theorem proceed_apart
    (howner : ownerOf s.procs pid = some none)
    (he : e ∈ s.table.sessions)
    (hne : g.id ≠ e.id) :
    ownerOf (s.proceed g).procs pid = some none ∧
      e ∈ (s.proceed g).table.sessions ∧
      ((s.proceed g).ending = none ∨
        ∃ g', (s.proceed g).ending = some g' ∧ g'.id = g.id ∧ g'.phase.left < g.phase.left) := by
  unfold ProcessSystem.proceed
  cases hphase : g.phase with
  | found =>
      simp only
      split_ifs with hpos
      · exact ⟨howner, he, Or.inr ⟨_, rfl, rfl, by simp [EndPhase.left]⟩⟩
      · exact ⟨howner, mem_finish he hne, Or.inl rfl⟩
  | terminated =>
      refine ⟨?_, he, Or.inr ⟨_, rfl, rfl, by simp [EndPhase.left]⟩⟩
      simp only [ownerOf_kill]
      exact howner
  | killed =>
      refine ⟨?_, he, Or.inr ⟨_, rfl, rfl, by simp [EndPhase.left]⟩⟩
      simp only
      rcases waitNoHang_cases Option.isSome s.procs g.pid with
        hsame | ⟨owner, hchild, hdead, htaken⟩
      · rwa [hsame]
      · have hpid : pid ≠ g.pid := by
          rintro rfl
          simp only [ownerOf, hdead, Option.map_some, Option.some.injEq] at howner
          rw [howner] at hchild
          cases hchild
        rw [htaken]
        simpa only [ownerOf, Function.update_of_ne hpid] using howner
  | waited => exact ⟨howner, mem_finish he hne, Or.inl rfl⟩

/-- Another session can be ended first. -/
theorem ends_apart
    (howner : ownerOf s.procs pid = some none)
    (he : e ∈ s.table.sessions)
    (hending : s.ending = some g)
    (hne : g.id ≠ e.id) :
    ∃ more s',
      run processStep s more = some s' ∧ s'.ending = none ∧ e ∈ s'.table.sessions ∧
        ownerOf s'.procs pid = some none := by
  -- by the number of calls that are left
  induction hleft : g.phase.left using Nat.strong_induction_on generalizing s g with
  | _ n ih =>
      obtain ⟨howner', he', hafter⟩ := proceed_apart (g := g) howner he hne
      have hstep : processStep s .proceed = some (s.proceed g) := by
        simp only [processStep, hending, Option.map_some]
      rcases hafter with hdone | ⟨g', hending', hid, hless⟩
      · exact ⟨[.proceed], _, run_cons_eq_some.mpr ⟨_, hstep, rfl⟩, hdone, he', howner'⟩
      · obtain ⟨more, s', hrun, hrest⟩ :=
          ih _ (hleft ▸ hless) howner' he' hending' (hid ▸ hne) rfl
        exact ⟨.proceed :: more, s', run_cons_eq_some.mpr ⟨_, hstep, hrun⟩, hrest⟩

/-- The end of a session signals whoever has the pid in its entry. -/
theorem strikes
    (hfree : s.ending = none)
    (he : e ∈ s.table.sessions)
    (hpos : 0 < e.pid)
    (howner : ownerOf s.procs e.pid = some none) :
    ∃ s', run processStep s [.destroy e.id, .proceed] = some s' ∧
      ⟨e.id, some none⟩ ∈ s'.signals := by
  have hdestroy : processStep s (.destroy e.id) =
      some { s with ending := some ⟨e.id, e.pid, .found⟩ } := by
    cases hfind : findSession s.table e.id with
    | none =>
        rw [findSession_eq, SlotArray.find_eq_none_iff] at hfind
        have hother := hfind e he
        simp at hother
    | some idx =>
        have hentry : s.table.slots idx = e := by
          have hfound := hfind
          rw [findSession_eq] at hfound
          obtain ⟨hlt, hid, -⟩ := SlotArray.find_eq_some_iff.mp hfound
          exact eq_of_id_eq (mem_sessions.mpr ⟨idx, hlt, rfl⟩) he (by simpa using hid)
        simp [processStep, hfree, hfind, hentry]
  refine ⟨_, run_cons_eq_some.mpr ⟨_, hdestroy, run_cons_eq_some.mpr ⟨_, rfl, rfl⟩⟩, ?_⟩
  simp only [ProcessSystem.proceed, if_pos hpos, ProcessSystem.signal, howner]
  exact List.mem_append_right _ (List.mem_singleton.mpr rfl)

/-- When a wait for any child has taken the process of a session that is still to be signalled,
the signal can meet another process. -/
theorem signal_astray
    (hplaced : Placed s)
    {id : Int}
    (hdead : s.procs pid = some ⟨some id, .dead⟩)
    (hcome : SignalsToCome s id) :
    ∃ more s', run processStep s (.waitAny pid :: more) = some s' ∧
      ⟨id, some none⟩ ∈ s'.signals := by
  obtain ⟨e, he, rfl⟩ := List.mem_map.mp hcome.1
  obtain rfl : pid = e.pid := hplaced.place he (by rw [ownerOf, hdead]; rfl)
  have hpos := hplaced.positive he
  -- the pid is given to another process at once
  let s₁ : ProcessSystem := { s with procs := Function.update s.procs e.pid none }
  let s₂ : ProcessSystem :=
    { s₁ with procs := Function.update s₁.procs e.pid (some ⟨none, .running⟩) }
  have hwait : processStep s (.waitAny e.pid) = some s₁ := by
    simp [processStep, ProcessSystem.take, waitNoHang, hdead, s₁]
  have hstart : processStep s₁ (.otherStarts e.pid) = some s₂ := by
    simp [processStep, Processes.start, hpos, s₁, s₂]
  have howner : ownerOf s₂.procs e.pid = some none := by
    simp [ownerOf, s₂]
  suffices hstruck : ∃ more s', run processStep s₂ more = some s' ∧
      ⟨e.id, some none⟩ ∈ s'.signals by
    obtain ⟨more, s', hrun, hsent⟩ := hstruck
    exact ⟨.otherStarts e.pid :: more, s',
      run_cons_eq_some.mpr ⟨s₁, hwait, run_cons_eq_some.mpr ⟨s₂, hstart, hrun⟩⟩, hsent⟩
  cases hending : s.ending with
  | none =>
      obtain ⟨s', hrun, hsent⟩ := strikes (s := s₂) hending he hpos howner
      exact ⟨_, s', hrun, hsent⟩
  | some g =>
      by_cases hid : g.id = e.id
      · obtain ⟨e', he', hid', hpid'⟩ := hplaced.ending hending
        obtain rfl := eq_of_id_eq he' he (hid'.trans hid)
        have hstep : processStep s₂ .proceed = some (s₂.proceed g) := by
          simp only [processStep, s₂, s₁, hending, Option.map_some]
        refine ⟨[.proceed], _, run_cons_eq_some.mpr ⟨_, hstep, rfl⟩, ?_⟩
        have hsignal : s₂.signal g = ⟨e'.id, some none⟩ := by
          rw [ProcessSystem.signal, ← hpid', howner, hid]
        rcases hcome.2 g hending hid with hphase | hphase
        · simp only [ProcessSystem.proceed, hphase, if_pos (hpid' ▸ hpos), hsignal]
          exact List.mem_append_right _ (List.mem_singleton.mpr rfl)
        · simp only [ProcessSystem.proceed, hphase, hsignal]
          exact List.mem_append_right _ (List.mem_singleton.mpr rfl)
      · obtain ⟨more, s₃, hrun, hfree, he₃, howner₃⟩ :=
          ends_apart (s := s₂) howner he hending hid
        obtain ⟨s', hstrike, hsent⟩ := strikes hfree he₃ hpos howner₃
        refine ⟨more ++ [.destroy e.id, .proceed], s', ?_, hsent⟩
        rw [run_append, hrun]
        exact hstrike

end Astray

section Runs

variable {s t : ProcessSystem} {events : List ProcessEvent}

theorem placed_run
    (hplaced : Placed s)
    (hrun : run processStep s events = some t) :
    Placed t := by
  induction events generalizing s with
  | nil =>
      obtain rfl := Option.some.inj hrun
      exact hplaced
  | cons event events ih =>
      obtain ⟨s', hstep, hrest⟩ := run_cons_eq_some.mp hrun
      exact ih (placed_step hplaced hstep) hrest

theorem aimed_run
    (hplaced : Placed s)
    (haimed : Aimed s)
    (hspares : Guarded processStep SparesSessions s events)
    (hrun : run processStep s events = some t) :
    Aimed t := by
  induction events generalizing s with
  | nil =>
      obtain rfl := Option.some.inj hrun
      exact haimed
  | cons event events ih =>
      obtain ⟨s', hstep, hrest⟩ := run_cons_eq_some.mp hrun
      exact ih (placed_step hplaced hstep) (aimed_step hplaced haimed hspares.1 hstep)
        (hspares.2 s' hstep) hrest

/--
**The signals of the sessions.**

In every interleaving of creations, of the calls of `session_destroy`, of processes that end and
of pids that are given out again: only the process of a session that is there runs, and what is
left of another one was waited for too early.  Every signal meets the process of the session it
is for, as long as the container functions, when their `fork` fails, wait for no process that is
still to be signalled; after such a wait a signal can meet any process.
-/
theorem signals_meet_their_sessions
    (hrun : run processStep .start events = some s) :
    (∀ pid id, s.procs pid = some ⟨some id, .running⟩ → id ∈ s.ids) ∧
      (∀ pid id, ownerOf s.procs pid = some (some id) → id ∈ s.ids ∨ id ∈ s.missed) ∧
      (Guarded processStep SparesSessions .start events →
        ∀ sent ∈ s.signals, sent.met = some (some sent.session)) ∧
      ∀ pid id, s.procs pid = some ⟨some id, .dead⟩ → SignalsToCome s id →
        ∃ more s', run processStep s (.waitAny pid :: more) = some s' ∧
          ⟨id, some none⟩ ∈ s'.signals := by
  have hplaced := placed_run placed_start hrun
  refine ⟨fun _ _ hrunning => (hplaced.running hrunning).1,
    fun _ _ howner => (hplaced.leftover howner).1, fun hspares => ?_,
    fun _ _ hdead hcome => signal_astray hplaced hdead hcome⟩
  exact (aimed_run placed_start aimed_start hspares hrun).right

end Runs

section Examples

/-- A creation whose process gets this pid. -/
def createWithPid (pid : Int) : ProcessEvent :=
  .create ⟨none, 0, 0⟩ ⟨0, true, pid⟩

/-- Of two sessions the first is left with `exit` and ended, while its process is not waited
for; the second is ended while it runs. -/
def endedSessions : List ProcessEvent :=
  [createWithPid 100, createWithPid 101, .exit 100, .destroy 1, .proceed, .proceed, .proceed,
    .proceed, .otherStarts 100, .destroy 2, .proceed, .proceed, .proceed, .proceed]

/-- The four signals meet their processes, though the first pid is in use again by then. -/
theorem ended_sessions_signalled :
    ∃ s, run processStep .start endedSessions = some s ∧
      s.signals.map SentSignal.session = [1, 1, 2, 2] ∧ s.missed = [2] ∧
      ∀ sent ∈ s.signals, sent.met = some (some sent.session) := by
  have hruns : (run processStep .start endedSessions).map
      (fun s => (s.signals.map SentSignal.session, s.missed)) = some ([1, 1, 2, 2], [2]) := by
    decide +kernel
  obtain ⟨s, hrun, hsent⟩ := Option.map_eq_some_iff.mp hruns
  obtain ⟨hsessions, hmissed⟩ := Prod.mk.inj hsent
  have hspares : Guarded processStep SparesSessions .start endedSessions := by
    have hnowait : ∀ event ∈ endedSessions, ∀ s, SparesSessions s event := by
      simp [endedSessions, createWithPid, SparesSessions]
    exact guarded_mono (fun s _ hevent => hevent s) (guarded_of_forall_mem hnowait _)
  exact ⟨s, hrun, hsessions, hmissed, (signals_meet_their_sessions hrun).2.2.1 hspares⟩

end Examples

end Session
end SecureZ
