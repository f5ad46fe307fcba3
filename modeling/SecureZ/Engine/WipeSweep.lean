import SecureZ.Lib.Sweep
import SecureZ.Engine.SessionMap
import SecureZ.Engine.ContainerHistory

/-!
# The tables under a concurrent emergency wipe

An `emergency_wipe` command runs `session_destroy_all` and then `container_close_all`.
Each of them copies the keys of its table under the lock and then ends what is under one
key after the other, with the lock taken anew for each.  Between these steps other clients
start and end sessions and open and close containers.

A run is a list of the critical sections of all threads in the order in which they are
entered.  Sessions are told apart by their ids, and openings of containers by the number
of the call that opened them, as one name can be closed and opened again.
-/

namespace SecureZ
namespace WipeSweep

open CLib Transition Session Container

section Model

/-- How far the wipe is. -/
inductive WipePhase
  /-- The command has not come yet. -/
  | idle
  /-- The command has begun; `session_destroy_all` copies the ids next. -/
  | begun
  /-- The ids that `session_destroy_all` has not come to. -/
  | destroying (ids : List Int)
  /-- The names that `container_close_all` has not come to. -/
  | closing (names : List CString)
  /-- The wipe has answered. -/
  | answered
deriving DecidableEq

/-- What a run shows of the wipe.  Not in the source. -/
structure Record where
  /-- The sessions that were in the table when the command began. -/
  sessionsThen : List Int
  /-- The openings that were in the table when the command began. -/
  openingsThen : List Nat
  /-- The sessions that were created after the ids were copied. -/
  newcomers : List Int
  /-- The sessions that the wipe removed. -/
  destroyed : List Int
  /-- The openings that the wipe removed. -/
  closed : List Nat
deriving DecidableEq

/-- The tables of the daemon, and the wipe. -/
structure System where
  sessions : SessionTable
  containers : ContainerTable
  /-- How many calls of `container_open` there were. -/
  openings : Nat
  wipe : WipePhase
  record : Record

/-- The daemon after its start. -/
def System.initial : System :=
  ⟨sessionInit, containerInit, 0, .idle, ⟨[], [], [], [], []⟩⟩

/-- The critical sections, with what the system comes back with. -/
inductive Event
  /-- A `session_start` request: the critical section of `session_create`. -/
  | sessionStart (args : CreateArgs) (sys : CreateSys)
  /-- A `session_end` request. -/
  | sessionEnd (id : Int)
  /-- A `container_open` request. -/
  | containerOpen (name : CString) (sys : OpenSys)
  /-- A `container_close` request. -/
  | containerClose (name : CString) (sys : CloseSys)
  /-- The `emergency_wipe` command comes in. -/
  | begin
  /-- The first critical section of `session_destroy_all`. -/
  | copyIds
  /-- The next `session_destroy` of `session_destroy_all`. -/
  | destroyNext
  /-- The first critical section of `container_close_all`. -/
  | copyNames
  /-- The next `container_close` of `container_close_all`. -/
  | closeNext (sys : CloseSys)
  /-- The keys are wiped, which touches neither table, and the answer is sent. -/
  | answer

/-- The ids that are left of the copy, once there is one. -/
def WipePhase.pendingIds : WipePhase → Option (List Int)
  | .idle => none
  | .begun => none
  | .destroying ids => some ids
  | .closing _ => some []
  | .answered => some []

/-- The names that are left of the copy, once there is one. -/
def WipePhase.pendingNames : WipePhase → Option (List CString)
  | .idle => none
  | .begun => none
  | .destroying _ => none
  | .closing names => some names
  | .answered => some []

/-- The session that a critical section of `session_create` counts. -/
def createdBy (locked : SessionTable × Option Nat) : List Int :=
  (locked.2.map fun slot => (locked.1.slots slot).id).toList

/-- The session that `session_destroy` removes. -/
def destroyedBy (t : SessionTable) (id : Int) : List Int :=
  ((findSession t id).map fun idx => (t.slots idx).id).toList

/-- The opening that `container_close` removes. -/
def closedBy (t : ContainerTable) (name : CString) : List Nat :=
  (((findContainer t name).filter fun idx => (t.slots idx).state = .opened).map fun idx =>
    (t.slots idx).opening).toList

/-- One critical section.  Counting the next id up past `INT_MAX` has no meaning in C. -/
def step (base : CString) (s : System) : Event → Option System
  | .sessionStart args sys =>
      if createWrites s.sessions ∧ s.sessions.nextId = intMax then none
      else
        let locked := createLocked s.sessions args sys
        some { s with
          sessions := locked.1
          record.newcomers :=
            if s.wipe.pendingIds.isSome then s.record.newcomers ++ createdBy locked
            else s.record.newcomers }
  | .sessionEnd id => some { s with sessions := (sessionDestroy s.sessions id).1 }
  | .containerOpen name sys =>
      some { s with
        containers := (Container.containerOpen s.containers base name s.openings sys).table
        openings := s.openings + 1 }
  | .containerClose name sys =>
      some { s with containers := (Container.containerClose s.containers name sys).table }
  | .begin =>
      match s.wipe with
      | .idle =>
          some { s with
            wipe := .begun
            record.sessionsThen := s.sessions.sessions.map SessionInfo.id
            record.openingsThen := s.containers.entries.map ContainerInfo.opening }
      | _ => none
  | .copyIds =>
      match s.wipe with
      | .begun => some { s with wipe := .destroying (s.sessions.sessions.map SessionInfo.id) }
      | _ => none
  | .destroyNext =>
      match s.wipe with
      | .destroying (id :: ids) =>
          some { s with
            sessions := (sessionDestroy s.sessions id).1
            wipe := .destroying ids
            record.destroyed := s.record.destroyed ++ destroyedBy s.sessions id }
      | _ => none
  | .copyNames =>
      match s.wipe with
      | .destroying [] =>
          some { s with wipe := .closing (s.containers.entries.map fun e => e.name.text) }
      | _ => none
  | .closeNext sys =>
      match s.wipe with
      | .closing (name :: names) =>
          some { s with
            containers := (Container.containerClose s.containers name sys).table
            wipe := .closing names
            record.closed := s.record.closed ++ closedBy s.containers name }
      | _ => none
  | .answer =>
      match s.wipe with
      | .closing [] => some { s with wipe := .answered }
      | _ => none

end Model

section Specification

/-- A name that is opened fits the array of an entry. -/
def Event.NameFits : Event → Prop
  | .containerOpen name _ => name.strlen < containerNameMax
  | _ => True

instance : ∀ e, Decidable (Event.NameFits e)
  | .containerOpen _ _ => inferInstanceAs (Decidable (_ < _))
  | .sessionStart _ _ => isTrue trivial
  | .sessionEnd _ => isTrue trivial
  | .containerClose _ _ => isTrue trivial
  | .begin => isTrue trivial
  | .copyIds => isTrue trivial
  | .destroyNext => isTrue trivial
  | .copyNames => isTrue trivial
  | .closeNext _ => isTrue trivial
  | .answer => isTrue trivial

/-- Once the wipe has answered, nothing is left of what was there when it began. -/
def SweptClean (s : System) : Prop :=
  s.wipe = .answered →
    (∀ id ∈ s.record.sessionsThen, ∀ e ∈ s.sessions.sessions, e.id ≠ id) ∧
      ∀ n ∈ s.record.openingsThen, ∀ e ∈ s.containers.entries, e.opening ≠ n

/-- The wipe removed nothing twice. -/
def RemovedOnce (s : System) : Prop :=
  s.record.destroyed.Nodup ∧ s.record.closed.Nodup

/-- The wipe removed no session that was created after it copied the ids. -/
def SparedNewcomers (s : System) : Prop :=
  ∀ id ∈ s.record.newcomers, id ∉ s.record.destroyed

end Specification

section Sections

/-- What a critical section of `session_create` does to the list of sessions. -/
inductive Creates (t : SessionTable) : SessionTable × Option Nat → Prop
  | refused
      {r : SessionTable × Option Nat}
      (hsessions : r.1.sessions = t.sessions)
      (hnext : t.nextId ≤ r.1.nextId)
      (hcreated : createdBy r = []) :
      Creates t r
  | counted
      {r : SessionTable × Option Nat}
      {e : SessionInfo}
      (hid : e.id = t.nextId)
      (hsessions : r.1.sessions = t.sessions ++ [e])
      (hnext : t.nextId < r.1.nextId)
      (hcreated : createdBy r = [t.nextId]) :
      Creates t r

theorem creates_createLocked
    (t : SessionTable) (args : CreateArgs) (sys : CreateSys) :
    Creates t (createLocked t args sys) := by
  by_cases hw : createWrites t
  · by_cases hok : sys.stack = true ∧ 0 ≤ sys.childPid
    · rw [createLocked_done hw hok]
      refine .counted (e := activeEntry t.nextId args sys) rfl
        (sessions_addSession t _ hw.2 rfl) (lt_add_one t.nextId) ?_
      simp [createdBy, SessionTable.addSession, writeSlot, activeEntry, startingEntry]
    · rw [createLocked_failed hw hok]
      exact .refused (sessions_writeNext ..) (lt_add_one t.nextId).le rfl
  · rw [createLocked_of_not_writes hw]
    exact .refused rfl le_rfl rfl

/-- The sweep of the sessions records what is under the id. -/
theorem destroyedBy_eq
    (t : SessionTable) (id : Int) :
    destroyedBy t id = Sweep.numberUnder SessionInfo.id SessionInfo.id t.sessions id := by
  rw [destroyedBy, Sweep.numberUnder, SessionTable.sessions, SlotArray.find?_entries,
    Option.map_map]
  rfl

/-- The sweep of the containers records what is under the name. -/
theorem closedBy_eq
    {t : ContainerTable}
    (h : Sound t)
    (name : CString) :
    closedBy t name =
      Sweep.numberUnder (fun e : ContainerInfo => e.name.text) ContainerInfo.opening t.entries
        name := by
  have hopened : (findContainer t name).filter (fun idx => (t.slots idx).state = .opened) =
      findContainer t name := by
    cases hfind : findContainer t name with
    | none => rfl
    | some idx => simp [Option.filter, h.opened _ (findContainer_spec hfind).2.2]
  rw [closedBy, hopened, Sweep.numberUnder, ContainerTable.entries, SlotArray.find?_entries,
    Option.map_map]
  rfl

end Sections

section Invariant

/-- Both sweeps are on track. -/
structure OnTrack (s : System) : Prop where
  sound : Sound s.containers
  sessions :
    Sweep.OnTrack SessionInfo.id SessionInfo.id s.sessions.sessions s.sessions.nextId
      s.record.sessionsThen s.wipe.pendingIds s.record.destroyed
  containers :
    Sweep.OnTrack (fun e : ContainerInfo => e.name.text) ContainerInfo.opening
      s.containers.entries s.openings s.record.openingsThen s.wipe.pendingNames s.record.closed

/-- No newcomer was removed, and none is in the copy of the ids. -/
structure SparesNewcomers (s : System) : Prop where
  early : s.wipe.pendingIds = none → s.record.newcomers = []
  pending_below : ∀ ids ∈ s.wipe.pendingIds, ∀ id ∈ ids, id < s.sessions.nextId
  spared : ∀ id ∈ s.record.newcomers,
    id ∉ s.record.destroyed ∧ ∀ ids ∈ s.wipe.pendingIds, id ∉ ids

theorem onTrack_initial :
    OnTrack System.initial where
  sound := faithful_init.toSound
  sessions := Sweep.onTrack_empty ..
  containers := Sweep.onTrack_empty ..

theorem sparesNewcomers_initial :
    SparesNewcomers System.initial := by
  constructor <;> simp [System.initial, WipePhase.pendingIds]

end Invariant

section Steps

/-- What a critical section can do. -/
inductive Effect (base : CString) (s : System) : Event → System → Prop
  | sessionStart
      {args : CreateArgs} {sys : CreateSys} :
      Effect base s (.sessionStart args sys) { s with
        sessions := (createLocked s.sessions args sys).1
        record.newcomers :=
          if s.wipe.pendingIds.isSome then
            s.record.newcomers ++ createdBy (createLocked s.sessions args sys)
          else s.record.newcomers }
  | sessionEnd
      {id : Int} :
      Effect base s (.sessionEnd id) { s with sessions := (sessionDestroy s.sessions id).1 }
  | containerOpen
      {name : CString} {sys : OpenSys} :
      Effect base s (.containerOpen name sys) { s with
        containers := (Container.containerOpen s.containers base name s.openings sys).table
        openings := s.openings + 1 }
  | containerClose
      {name : CString} {sys : CloseSys} :
      Effect base s (.containerClose name sys) { s with
        containers := (Container.containerClose s.containers name sys).table }
  | begin
      (hwipe : s.wipe = .idle) :
      Effect base s .begin { s with
        wipe := .begun
        record.sessionsThen := s.sessions.sessions.map SessionInfo.id
        record.openingsThen := s.containers.entries.map ContainerInfo.opening }
  | copyIds
      (hwipe : s.wipe = .begun) :
      Effect base s .copyIds { s with
        wipe := .destroying (s.sessions.sessions.map SessionInfo.id) }
  | destroyNext
      {id : Int} {ids : List Int}
      (hwipe : s.wipe = .destroying (id :: ids)) :
      Effect base s .destroyNext { s with
        sessions := (sessionDestroy s.sessions id).1
        wipe := .destroying ids
        record.destroyed := s.record.destroyed ++ destroyedBy s.sessions id }
  | copyNames
      (hwipe : s.wipe = .destroying []) :
      Effect base s .copyNames { s with
        wipe := .closing (s.containers.entries.map fun e => e.name.text) }
  | closeNext
      {name : CString} {names : List CString} {sys : CloseSys}
      (hwipe : s.wipe = .closing (name :: names)) :
      Effect base s (.closeNext sys) { s with
        containers := (Container.containerClose s.containers name sys).table
        wipe := .closing names
        record.closed := s.record.closed ++ closedBy s.containers name }
  | answer
      (hwipe : s.wipe = .closing []) :
      Effect base s .answer { s with wipe := .answered }

variable {base : CString} {s s' : System}

/-- A step does one of these. -/
theorem effect_of_step
    {e : Event}
    (h : step base s e = some s') :
    Effect base s e s' := by
  cases e with
  | sessionStart args sys =>
      simp only [step] at h
      split at h
      · cases h
      · obtain rfl := Option.some.inj h
        exact .sessionStart
  | sessionEnd id =>
      obtain rfl := Option.some.inj h
      exact .sessionEnd
  | containerOpen name sys =>
      obtain rfl := Option.some.inj h
      exact .containerOpen
  | containerClose name sys =>
      obtain rfl := Option.some.inj h
      exact .containerClose
  | begin =>
      simp only [step] at h
      split at h
      · next hwipe =>
          obtain rfl := Option.some.inj h
          exact .begin hwipe
      · cases h
  | copyIds =>
      simp only [step] at h
      split at h
      · next hwipe =>
          obtain rfl := Option.some.inj h
          exact .copyIds hwipe
      · cases h
  | destroyNext =>
      simp only [step] at h
      split at h
      · next id ids hwipe =>
          obtain rfl := Option.some.inj h
          exact .destroyNext hwipe
      · cases h
  | copyNames =>
      simp only [step] at h
      split at h
      · next hwipe =>
          obtain rfl := Option.some.inj h
          exact .copyNames hwipe
      · cases h
  | closeNext sys =>
      simp only [step] at h
      split at h
      · next name names hwipe =>
          obtain rfl := Option.some.inj h
          exact .closeNext hwipe
      · cases h
  | answer =>
      simp only [step] at h
      split at h
      · next hwipe =>
          obtain rfl := Option.some.inj h
          exact .answer hwipe
      · cases h

/-- Every critical section keeps both sweeps on track. -/
theorem onTrack_step
    {e : Event}
    (h : OnTrack s)
    (hfits : e.NameFits)
    (hstep : step base s e = some s') :
    OnTrack s' := by
  obtain ⟨sound, sessions, containers⟩ := h
  cases effect_of_step hstep with
  | @sessionStart args sys =>
      refine ⟨sound, ?_, containers⟩
      cases creates_createLocked s.sessions args sys with
      | refused hsessions hnext =>
          exact hsessions ▸ Sweep.onTrack_skip sessions hnext
      | counted hid hsessions hnext =>
          exact hsessions ▸ Sweep.onTrack_snoc sessions hid hnext
  | @sessionEnd id =>
      obtain ⟨hsessions, hnext, -⟩ := sessionDestroy_spec s.sessions id
      refine ⟨sound, ?_, containers⟩
      dsimp only
      rw [hsessions, hnext]
      exact Sweep.onTrack_sublist sessions List.filter_sublist
  | @containerOpen name sys =>
      refine ⟨(containerOpen_spec sound hfits base s.openings sys).1, sessions, ?_⟩
      dsimp only
      rcases entries_containerOpen sound base name s.openings sys with hsame | ⟨e, he, hsnoc⟩
      · rw [hsame]
        exact Sweep.onTrack_skip containers (Nat.le_succ _)
      · rw [hsnoc]
        exact Sweep.onTrack_snoc containers he (Nat.lt_succ_self _)
  | @containerClose name sys =>
      refine ⟨sound_containerClose sound name sys, sessions, ?_⟩
      dsimp only
      rw [(containerClose_spec sound name sys).1]
      exact Sweep.onTrack_sublist containers List.filter_sublist
  | begin hwipe =>
      rw [hwipe] at sessions containers
      exact ⟨sound, Sweep.onTrack_begin sessions, Sweep.onTrack_begin containers⟩
  | copyIds hwipe =>
      rw [hwipe] at sessions containers
      exact ⟨sound, Sweep.onTrack_copy sessions, containers⟩
  | @destroyNext id ids hwipe =>
      rw [hwipe] at sessions containers
      obtain ⟨hsessions, hnext, -⟩ := sessionDestroy_spec s.sessions id
      refine ⟨sound, ?_, containers⟩
      dsimp only
      rw [hsessions, hnext, destroyedBy_eq]
      exact Sweep.onTrack_remove sessions
  | copyNames hwipe =>
      rw [hwipe] at sessions containers
      exact ⟨sound, sessions, Sweep.onTrack_copy containers⟩
  | @closeNext name names sys hwipe =>
      rw [hwipe] at sessions containers
      refine ⟨sound_containerClose sound name sys, sessions, ?_⟩
      dsimp only
      rw [(containerClose_spec sound name sys).1, closedBy_eq sound]
      exact Sweep.onTrack_remove containers
  | answer hwipe =>
      rw [hwipe] at sessions containers
      exact ⟨sound, sessions, containers⟩

/-- An id that is used up now is no longer in the copy, and not removed yet. -/
theorem spared_nextId
    (hon : OnTrack s)
    (h : SparesNewcomers s) :
    s.sessions.nextId ∉ s.record.destroyed ∧
      ∀ ids ∈ s.wipe.pendingIds, s.sessions.nextId ∉ ids :=
  ⟨fun hmem => lt_irrefl _ (hon.sessions.removed_below _ hmem),
    fun ids hids hmem => lt_irrefl _ (h.pending_below ids hids _ hmem)⟩

/-- A creation adds at most its own id to the newcomers. -/
theorem sparesNewcomers_create
    (hon : OnTrack s)
    (h : SparesNewcomers s)
    (args : CreateArgs) (sys : CreateSys) :
    SparesNewcomers { s with
      sessions := (createLocked s.sessions args sys).1
      record.newcomers :=
        if s.wipe.pendingIds.isSome then
          s.record.newcomers ++ createdBy (createLocked s.sessions args sys)
        else s.record.newcomers } := by
  have hcreated : ∀ id ∈ createdBy (createLocked s.sessions args sys), id = s.sessions.nextId := by
    cases creates_createLocked s.sessions args sys with
    | refused hsessions hnext hcreated => simp [hcreated]
    | counted hid hsessions hnext hcreated => simp [hcreated]
  have hnext : s.sessions.nextId ≤ (createLocked s.sessions args sys).1.nextId := by
    cases creates_createLocked s.sessions args sys with
    | refused hsessions hnext => exact hnext
    | counted hid hsessions hnext => exact hnext.le
  refine ⟨?_, ?_, ?_⟩
  · intro hnone
    have hsome : s.wipe.pendingIds.isSome = false := by
      rw [Option.isSome_eq_false_iff, Option.isNone_iff_eq_none]
      exact hnone
    simpa [hsome] using h.early hnone
  · exact fun ids hids id hid => (h.pending_below ids hids id hid).trans_le hnext
  · intro id hid
    dsimp only at hid ⊢
    split_ifs at hid
    · rcases List.mem_append.mp hid with hid | hid
      · exact h.spared id hid
      · obtain rfl := hcreated id hid
        exact spared_nextId hon h
    · exact h.spared id hid

/-- What touches neither the copy of the ids nor what was removed spares the newcomers. -/
theorem sparesNewcomers_of_same
    (h : SparesNewcomers s)
    (hpending : s'.wipe.pendingIds = s.wipe.pendingIds)
    (hnext : s'.sessions.nextId = s.sessions.nextId)
    (hnewcomers : s'.record.newcomers = s.record.newcomers)
    (hdestroyed : s'.record.destroyed = s.record.destroyed) :
    SparesNewcomers s' := by
  constructor
  · rw [hpending, hnewcomers]
    exact h.early
  · rw [hpending, hnext]
    exact h.pending_below
  · rw [hpending, hnewcomers, hdestroyed]
    exact h.spared

/-- What is removed under the next id of the copy is no newcomer. -/
theorem sparesNewcomers_destroy
    {id : Int} {ids : List Int}
    (h : SparesNewcomers s)
    (hwipe : s.wipe = .destroying (id :: ids)) :
    SparesNewcomers { s with
      sessions := (sessionDestroy s.sessions id).1
      wipe := .destroying ids
      record.destroyed := s.record.destroyed ++ destroyedBy s.sessions id } := by
  have hpending : (id :: ids) ∈ s.wipe.pendingIds := by
    rw [hwipe]
    rfl
  obtain ⟨-, hnext, -⟩ := sessionDestroy_spec s.sessions id
  refine ⟨nofun, ?_, ?_⟩
  · intro ids' hids n hn
    obtain rfl := Option.some.inj hids
    dsimp only
    rw [hnext]
    exact h.pending_below _ hpending n (List.mem_cons_of_mem _ hn)
  · intro n hn
    obtain ⟨hdestroyed, hcopied⟩ := h.spared n hn
    refine ⟨?_, ?_⟩
    · rw [List.mem_append, not_or]
      refine ⟨hdestroyed, fun hmem => ?_⟩
      rw [destroyedBy_eq] at hmem
      obtain ⟨e, -, hid, rfl⟩ := Sweep.entry_of_mem_numberUnder hmem
      exact hcopied _ hpending (hid ▸ List.mem_cons_self)
    · intro ids' hids hmem
      obtain rfl := Option.some.inj hids
      exact hcopied _ hpending (List.mem_cons_of_mem _ hmem)

/-- Every critical section spares the newcomers. -/
theorem sparesNewcomers_step
    {e : Event}
    (hon : OnTrack s)
    (h : SparesNewcomers s)
    (hstep : step base s e = some s') :
    SparesNewcomers s' := by
  cases effect_of_step hstep with
  | @sessionStart args sys =>
      exact sparesNewcomers_create hon h args sys
  | @sessionEnd id =>
      obtain ⟨-, hnext, -⟩ := sessionDestroy_spec s.sessions id
      exact sparesNewcomers_of_same h rfl hnext rfl rfl
  | containerOpen =>
      exact sparesNewcomers_of_same h rfl rfl rfl rfl
  | containerClose =>
      exact sparesNewcomers_of_same h rfl rfl rfl rfl
  | copyIds hwipe =>
      have hearly : s.record.newcomers = [] := h.early (by rw [hwipe]; rfl)
      refine ⟨nofun, ?_, by simp [hearly]⟩
      intro ids hids id hid
      obtain rfl := Option.some.inj hids
      obtain ⟨e, he, rfl⟩ := List.mem_map.mp hid
      exact sessions_below s.sessions e he
  | destroyNext hwipe =>
      exact sparesNewcomers_destroy h hwipe
  | begin hwipe =>
      exact sparesNewcomers_of_same h (by rw [hwipe]; rfl) rfl rfl rfl
  | copyNames hwipe =>
      exact sparesNewcomers_of_same h (by rw [hwipe]; rfl) rfl rfl rfl
  | closeNext hwipe =>
      exact sparesNewcomers_of_same h (by rw [hwipe]; rfl) rfl rfl rfl
  | answer hwipe =>
      exact sparesNewcomers_of_same h (by rw [hwipe]; rfl) rfl rfl rfl

end Steps

section Runs

/--
**The wipe sweeps both tables.**  In every state that a run with names that fit reaches:
once the wipe has answered, no session and no opening that was there when it began is in
its table; the wipe removed nothing twice, and no session that was created after it copied
the ids.
-/
theorem wipe_sweeps
    (base : CString)
    (s : System)
    (es : List Event)
    (hfits : ∀ e ∈ es, e.NameFits)
    (hrun : run (step base) System.initial es = some s) :
    SweptClean s ∧ RemovedOnce s ∧ SparedNewcomers s := by
  have hstep :
      ∀ s e s', OnTrack s ∧ SparesNewcomers s → e.NameFits → step base s e = some s' →
        OnTrack s' ∧ SparesNewcomers s' :=
    fun _ _ _ h hok hstep => ⟨onTrack_step h.1 hok hstep, sparesNewcomers_step h.1 h.2 hstep⟩
  obtain ⟨hon, hspares⟩ :=
    invariant_of_guarded hstep ⟨onTrack_initial, sparesNewcomers_initial⟩
      (guarded_of_forall_mem hfits _) hrun
  refine ⟨?_, ⟨hon.sessions.removed_once, hon.containers.removed_once⟩,
    fun id hid => (hspares.spared id hid).1⟩
  intro hanswered
  have hsessions := hon.sessions
  have hcontainers := hon.containers
  rw [hanswered] at hsessions hcontainers
  exact ⟨Sweep.targets_gone hsessions, Sweep.targets_gone hcontainers⟩

/-- A session of default size. -/
def plainArgs : CreateArgs := ⟨none, 0, 0⟩

/-- A session is created while the wipe destroys the others, and a container is closed and
opened again under the name that the wipe has copied. -/
def busyWipe : List Event :=
  [.sessionStart plainArgs ⟨0, true, 100⟩, .containerOpen workName ⟨true, true, true, true, true⟩,
    .sessionStart plainArgs ⟨0, true, 101⟩, .begin, .copyIds, .destroyNext,
    .sessionStart plainArgs ⟨0, true, 102⟩, .sessionEnd 2, .destroyNext, .copyNames,
    .containerClose workName ⟨true, true⟩,
    .containerOpen workName ⟨true, true, true, true, true⟩, .closeNext ⟨true, true⟩, .answer]

theorem busy_wipe_sweeps :
    ∃ s, run (step someBase) System.initial busyWipe = some s ∧ s.wipe = .answered ∧
      s.record = ⟨[1, 2], [0], [3], [1], [1]⟩ ∧
      SweptClean s ∧ RemovedOnce s ∧ SparedNewcomers s :=
  ⟨_, rfl, rfl, by decide +kernel,
    wipe_sweeps someBase _ busyWipe (by decide +kernel) rfl⟩

end Runs

section Progress

variable {base : CString} {s : System}

/-- From the copy of the names on, the wipe comes to its end whatever the tables hold. -/
theorem answers_of_closing
    {names : List CString}
    (hwipe : s.wipe = .closing names) :
    ∃ es t, run (step base) s es = some t ∧ t.wipe = .answered := by
  induction names generalizing s with
  | nil =>
      refine ⟨[.answer], { s with wipe := .answered }, ?_, rfl⟩
      simp [run, step, hwipe]
  | cons name names ih =>
      have hstep : ∃ s', step base s (.closeNext ⟨true, true⟩) = some s' ∧
          s'.wipe = .closing names := by
        simp [step, hwipe]
      obtain ⟨s', hstep, hwipe'⟩ := hstep
      obtain ⟨es, t, hrun, hanswered⟩ := ih hwipe'
      exact ⟨_ :: es, t, run_cons_eq_some.mpr ⟨s', hstep, hrun⟩, hanswered⟩

/-- From the copy of the ids on, the wipe comes to its end whatever the tables hold. -/
theorem answers_of_destroying
    {ids : List Int}
    (hwipe : s.wipe = .destroying ids) :
    ∃ es t, run (step base) s es = some t ∧ t.wipe = .answered := by
  induction ids generalizing s with
  | nil =>
      have hstep : ∃ s', step base s .copyNames = some s' ∧
          s'.wipe = .closing (s.containers.entries.map fun e => e.name.text) := by
        simp [step, hwipe]
      obtain ⟨s', hstep, hwipe'⟩ := hstep
      obtain ⟨es, t, hrun, hanswered⟩ := answers_of_closing hwipe'
      exact ⟨_ :: es, t, run_cons_eq_some.mpr ⟨s', hstep, hrun⟩, hanswered⟩
  | cons id ids ih =>
      have hstep : ∃ s', step base s .destroyNext = some s' ∧ s'.wipe = .destroying ids := by
        simp [step, hwipe]
      obtain ⟨s', hstep, hwipe'⟩ := hstep
      obtain ⟨es, t, hrun, hanswered⟩ := ih hwipe'
      exact ⟨_ :: es, t, run_cons_eq_some.mpr ⟨s', hstep, hrun⟩, hanswered⟩

/-- A wipe that has come in can always come to its end. -/
theorem wipe_can_answer
    (hbegun : s.wipe ≠ .idle) :
    ∃ es t, run (step base) s es = some t ∧ t.wipe = .answered := by
  cases hwipe : s.wipe with
  | idle =>
      exact absurd hwipe hbegun
  | begun =>
      have hstep : ∃ s', step base s .copyIds = some s' ∧
          s'.wipe = .destroying (s.sessions.sessions.map SessionInfo.id) := by
        simp [step, hwipe]
      obtain ⟨s', hstep, hwipe'⟩ := hstep
      obtain ⟨es, t, hrun, hanswered⟩ := answers_of_destroying hwipe'
      exact ⟨_ :: es, t, run_cons_eq_some.mpr ⟨s', hstep, hrun⟩, hanswered⟩
  | destroying ids =>
      exact answers_of_destroying hwipe
  | closing names =>
      exact answers_of_closing hwipe
  | answered =>
      exact ⟨[], s, rfl, hwipe⟩

end Progress

end WipeSweep
end SecureZ
