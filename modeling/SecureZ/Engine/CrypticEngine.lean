import SecureZ.Engine.ContainerHistory
import SecureZ.Engine.SessionMap
import SecureZ.Engine.TrackerAccounting

/-!
# The life of the engine

`cryptic_init` starts secure memory, sessions and containers, `cryptic_shutdown` closes the
containers, ends the sessions and releases the secure memory.  Each subsystem has a flag of
its own, and only some of their functions look at it.

What the engine is for: while it runs, a register of sessions that begins with id 1 at each
start; while it is stopped, nothing.  The main result is about every run of starts, stops and
calls into the subsystems, in any order.
-/

namespace SecureZ
namespace CrypticEngine

open CLib Transition
open Session (SessionTable SessionInfo Registry sessionInit sessionDestroyAll
  sessionDestroyAll_spec)
open Container (ContainerTable ContainerInfo Call CloseSys closeCalls containerCloseAll)
open SecureMemory (Memory MemoryCall SizeT memoryStep TrackerExact Summed secureAlloc
  secureMemoryStats emergencyWipe)

section Model

/-- `secure_memory_init`, with the outcome of `sodium_init`. -/
def secureMemoryInit (m : Memory) (sodium : Bool) : Int × Memory :=
  if m.tracker.initialized then (0, m)
  else if sodium then (0, { m with tracker := { m.tracker with initialized := true } })
  else (-1, m)

/-- `secure_memory_shutdown`. -/
def secureMemoryShutdown (m : Memory) : Memory :=
  if m.tracker.initialized then
    { emergencyWipe m with
      tracker := { (emergencyWipe m).tracker with initialized := false } }
  else m

/-- `session_init`; the two directories that it makes are not part of the state. -/
def sessionStart (t : SessionTable) : SessionTable :=
  if t.initialized then t else sessionInit

/-- `session_shutdown`. -/
def sessionShutdown (t : SessionTable) : SessionTable :=
  if t.initialized then { sessionDestroyAll t with initialized := false } else t

/-- The static state of the engine and of the subsystems that it starts. -/
structure EngineState where
  /-- `engine_initialized`. -/
  engineInitialized : Bool
  memory : Memory
  sessions : SessionTable
  /-- `container_initialized`. -/
  containerInitialized : Bool
  containers : ContainerTable

/-- The static state when the process starts. -/
def EngineState.start : EngineState where
  engineInitialized := false
  memory := .start false
  sessions := { sessionInit with initialized := false }
  containerInitialized := false
  containers := Container.containerInit

/-- `container_init`; the two directories that it makes are not part of the state. -/
def EngineState.containerStart (s : EngineState) : EngineState :=
  if s.containerInitialized then s
  else { s with containerInitialized := true, containers := Container.containerInit }

/-- `cryptic_init`, with the outcomes of the two calls of `sodium_init`. -/
def crypticInit (s : EngineState) (sodium memSodium : Bool) : Int × EngineState :=
  if s.engineInitialized then (0, s)
  else if sodium = false then (-1, s)
  else if (secureMemoryInit s.memory memSodium).1 ≠ 0 then
    (-1, { s with memory := (secureMemoryInit s.memory memSodium).2 })
  else
    let s' : EngineState :=
      { s with
        memory := (secureMemoryInit s.memory memSodium).2
        sessions := sessionStart s.sessions }
    (0, { s'.containerStart with engineInitialized := true })

/-- `cryptic_shutdown`: the state, and the calls that close the containers. -/
def crypticShutdown (s : EngineState) (sys : Nat → CloseSys) : EngineState × List Call :=
  if s.engineInitialized = false then (s, [])
  else
    ({ s with
        engineInitialized := false
        containers := (containerCloseAll s.containers sys).table
        sessions := sessionShutdown s.sessions
        memory := secureMemoryShutdown s.memory },
      (containerCloseAll s.containers sys).calls)

/-- A call into the engine or one of its subsystems. -/
inductive EngineOp
  | init (sodium memSodium : Bool)
  | shutdown (sys : Nat → CloseSys)
  | session (op : Session.Operation)
  | container (op : Container.Operation)
  | memory (call : MemoryCall)

/-- A call, as the one with number `opening`. -/
def engineCall (base : CString) (opening : Nat) (s : EngineState) :
    EngineOp → Option EngineState
  | .init sodium memSodium => some (crypticInit s sodium memSodium).2
  | .shutdown sys => some (crypticShutdown s sys).1
  | .session op =>
      (Session.perform s.sessions op).map fun r => { s with sessions := r.1 }
  | .container op =>
      some { s with containers := (Container.perform base opening s.containers op).table }
  | .memory call => (memoryStep s.memory call).map fun m => { s with memory := m }

/-- A call in a run: the state, and the number of calls so far. -/
def engineStep (base : CString) (s : EngineState × Nat) (op : EngineOp) :
    Option (EngineState × Nat) :=
  (engineCall base s.2 s.1 op).map fun s' => (s', s.2 + 1)

end Model

section Purpose

/-- What a call means for the engine: none while it is stopped, and the register of its
sessions while it runs. -/
def lifeStep (r : Option Registry) : EngineOp → Option Registry
  | .init sodium memSodium =>
      match r with
      | some r => some r
      | none => if sodium ∧ memSodium then some .empty else none
  | .shutdown _ => none
  | .session op => r.map fun r => (r.perform op).1
  | .container _ => r
  | .memory _ => r

/-- The register after a run. -/
def lifeAfter (ops : List EngineOp) : Option Registry :=
  ops.foldl lifeStep none

/-- A stopped engine: no session, no tracked allocation, and no way to make one. -/
structure Stopped (s : EngineState) : Prop where
  engine : s.engineInitialized = false
  sessions : s.sessions.sessions = []
  noSession : ∀ args sys, Session.sessionCreate s.sessions args sys = (s.sessions, -1)
  stats : secureMemoryStats s.memory = (0, 0)
  listed : s.memory.tracker.allocList = []
  noMemory : ∀ size malloc node, secureAlloc s.memory size malloc node = (none, s.memory)

/-- A running engine: every subsystem is started, and the sessions are those of the
register. -/
structure Running (s : EngineState) (r : Registry) : Prop where
  engine : s.engineInitialized = true
  container : s.containerInitialized = true
  memory : s.memory.tracker.initialized = true
  sessions : Session.Follows s.sessions r

/-- The state is the one that the register tells. -/
def Tracks (s : EngineState) : Option Registry → Prop
  | none => Stopped s
  | some r => Running s r

/-- The calls that close the containers of some entries, one after the other. -/
def closingCalls (sys : Nat → CloseSys) : List ContainerInfo → List Call
  | [] => []
  | e :: es => closeCalls e (sys 0) ++ closingCalls (fun i => sys (i + 1)) es

/-- What a shutdown does to a running engine: it makes the closing calls of every open container,
in the order of the table, and every tracked block is given back. -/
structure ShutsDown (s : EngineState) (sys : Nat → CloseSys) : Prop where
  stopped : Stopped (crypticShutdown s sys).1
  containers : (crypticShutdown s sys).1.containers.entries = []
  calls : (crypticShutdown s sys).2 = closingCalls sys s.containers.entries
  released : ∀ b ∈ s.memory.tracker.allocList, b ∉ (crypticShutdown s sys).1.memory.live

end Purpose

section Containers

/-- Every entry of the table is open. -/
def AllOpened (t : ContainerTable) : Prop :=
  ∀ e ∈ t.entries, e.state = .opened

variable {t : ContainerTable}

/-- A name that is not open is not in the table. -/
theorem findContainer_of_closed
    {name : CString}
    (h : AllOpened t)
    (hclosed : ¬ Container.isOpen t name) :
    Container.findContainer t name = none := by
  cases hfind : Container.findContainer t name with
  | none => rfl
  | some idx =>
      have hmem := (Container.findContainer_spec hfind).2.2
      exact absurd ⟨idx, hfind, h _ hmem⟩ hclosed

theorem allOpened_containerOpen
    (h : AllOpened t)
    (base name : CString) (opening : Nat) (sys : Container.OpenSys) :
    AllOpened (Container.containerOpen t base name opening sys).table := by
  have heffect := Container.containerOpen_effect t base name opening sys
  generalize Container.containerOpen t base name opening sys = r at heffect ⊢
  cases heffect with
  | already _ => exact h
  | refused _ => exact h
  | locked _ _ => exact h
  | unmounted _ _ _ _ _ _ => exact h
  | opened hclosed _ _ =>
      intro e he
      rw [Container.entries_track (findContainer_of_closed h hclosed), List.mem_append,
        List.mem_singleton] at he
      rcases he with he | rfl
      · exact h e he
      · rfl

theorem allOpened_containerClose
    (h : AllOpened t)
    (name : CString) (sys : CloseSys) :
    AllOpened (Container.containerClose t name sys).table := by
  have heffect := Container.containerClose_effect t name sys
  generalize Container.containerClose t name sys = r at heffect ⊢
  cases heffect with
  | absent _ => exact h
  | closed hfind _ =>
      intro e he
      rw [Container.entries_untrack_idx hfind] at he
      exact h e (List.mem_of_mem_eraseIdx he)

/-- Closing the name of the first entry closes the first entry. -/
theorem containerClose_first
    {e : ContainerInfo} {es : List ContainerInfo}
    (h : AllOpened t)
    (hentries : t.entries = e :: es)
    (sys : CloseSys) :
    (Container.containerClose t e.name.text sys).table.entries = es ∧
      (Container.containerClose t e.name.text sys).calls = closeCalls e sys := by
  have hcount : 0 < t.count := by
    rw [← Container.length_entries, hentries]
    exact Nat.succ_pos _
  have hslot : t.slots 0 = e := by
    have hget : (SlotArray.entries t.slots t.count)[0]? = some (t.slots 0) :=
      SlotArray.getElem?_entries hcount
    rw [← Container.ContainerTable.entries, hentries] at hget
    exact (Option.some.inj hget).symm
  have hfind : Container.findContainer t e.name.text = some 0 := by
    rw [Container.findContainer, SlotArray.find_eq_some_iff]
    exact ⟨hcount, by simp [hslot], by simp⟩
  have hopen : (t.slots 0).state = .opened := by
    rw [hslot]
    exact h e (by simp [hentries])
  rw [Container.containerClose, hfind]
  simp only [hopen, ne_eq, not_true, if_false]
  refine ⟨?_, by rw [hslot]⟩
  rw [Container.entries_untrack_idx hfind, hentries]
  rfl

/-- The second loop of `container_close_all` closes the entries whose names were copied. -/
theorem closeLoop_entries
    (h : AllOpened t)
    (sys : Nat → CloseSys) (entries : List ContainerInfo)
    (hentries : t.entries = entries) :
    (Container.closeLoop t sys (entries.map fun e => e.name.text)).table.entries = [] ∧
      (Container.closeLoop t sys (entries.map fun e => e.name.text)).calls =
        closingCalls sys entries := by
  induction entries generalizing t sys with
  | nil =>
      exact ⟨hentries, rfl⟩
  | cons e es ih =>
      obtain ⟨hrest, hcalls⟩ := containerClose_first h hentries (sys 0)
      obtain ⟨hempty, hothers⟩ :=
        ih (allOpened_containerClose h e.name.text (sys 0)) (fun i => sys (i + 1)) hrest
      refine ⟨hempty, ?_⟩
      rw [List.map_cons, Container.closeLoop]
      simp only [hcalls, hothers, closingCalls]

theorem containerCloseAll_entries
    (h : AllOpened t)
    (sys : Nat → CloseSys) :
    (containerCloseAll t sys).table.entries = [] ∧
      (containerCloseAll t sys).calls = closingCalls sys t.entries :=
  closeLoop_entries h sys t.entries rfl

/-- Every call into the containers leaves a table whose entries are open. -/
theorem allOpened_perform
    (h : AllOpened t)
    (base : CString) (opening : Nat) (op : Container.Operation) :
    AllOpened (Container.perform base opening t op).table := by
  cases op with
  | openContainer name sys => exact allOpened_containerOpen h base name opening sys
  | closeContainer name sys => exact allOpened_containerClose h name sys
  | destroyContainer name sys => exact allOpened_containerClose h name sys
  | closeAll sys =>
      intro e he
      rw [Container.perform, (containerCloseAll_entries h sys).1] at he
      cases he

end Containers

section Memories

variable {m m' : Memory}

/-- The flag is no part of the accounts. -/
theorem sound_setInitialized
    (h : SecureMemory.Sound m ∧ Summed m)
    (initialized : Bool) :
    SecureMemory.Sound { m with tracker := { m.tracker with initialized := initialized } } ∧
      Summed { m with tracker := { m.tracker with initialized := initialized } } :=
  ⟨⟨h.1.nonempty, h.1.inSpace, h.1.apart, h.1.listed, h.1.count⟩, h.2⟩

theorem sound_secureMemoryInit
    (h : SecureMemory.Sound m ∧ Summed m)
    (sodium : Bool) :
    SecureMemory.Sound (secureMemoryInit m sodium).2 ∧ Summed (secureMemoryInit m sodium).2 := by
  unfold secureMemoryInit
  split_ifs
  · exact h
  · exact sound_setInitialized h true
  · exact h

theorem sound_secureMemoryShutdown
    (h : SecureMemory.Sound m ∧ Summed m) :
    SecureMemory.Sound (secureMemoryShutdown m) ∧ Summed (secureMemoryShutdown m) := by
  unfold secureMemoryShutdown
  split_ifs
  · exact sound_setInitialized (m := emergencyWipe m)
      ⟨SecureMemory.sound_emergencyWipe h.1, rfl⟩ false
  · exact h

/-- No call into secure memory starts or stops it. -/
theorem initialized_memoryStep
    {call : MemoryCall}
    (hstep : memoryStep m call = some m') :
    m'.tracker.initialized = m.tracker.initialized := by
  cases call with
  | alloc size malloc node =>
      simp only [memoryStep] at hstep
      split_ifs at hstep
      obtain rfl := Option.some.inj hstep
      rcases SecureMemory.secureAlloc_cases m size malloc node with hnone | ⟨b, -, -, -, -, hb⟩
      · rw [hnone]
      · rw [hb]
        cases node <;> rfl
  | free block =>
      simp only [memoryStep] at hstep
      split_ifs at hstep
      obtain rfl := Option.some.inj hstep
      simp only [SecureMemory.secureFree, SecureMemory.trackerRemove]
      split_ifs <;> rfl
  | wipe =>
      obtain rfl := Option.some.inj hstep
      rfl

end Memories

section Lives

variable {s s' : EngineState} {r : Registry}

/-- What a stopped engine keeps of its subsystems. -/
structure Idle (s : EngineState) : Prop where
  engine : s.engineInitialized = false
  sessionFlag : s.sessions.initialized = false
  sessions : s.sessions.sessions = []
  memoryFlag : s.memory.tracker.initialized = false
  listed : s.memory.tracker.allocList = []
  stats : secureMemoryStats s.memory = (0, 0)

theorem stopped_of_idle
    (h : Idle s) :
    Stopped s where
  engine := h.engine
  sessions := h.sessions
  noSession := by
    intro args sys
    have hw : ¬ Session.createWrites s.sessions := by
      rintro ⟨hinit, -⟩
      rw [h.sessionFlag] at hinit
      cases hinit
    rw [Session.sessionCreate, Session.createLocked_of_not_writes hw]
  stats := h.stats
  listed := h.listed
  noMemory := by
    intro size malloc node
    simp [secureAlloc, SecureMemory.mayAllocate, h.memoryFlag]

/-- What a run keeps of the state, next to the register. -/
structure Kept (s : EngineState) : Prop where
  opened : AllOpened s.containers
  memory : SecureMemory.Sound s.memory ∧ Summed s.memory
  nextId_le : s.sessions.nextId ≤ Session.intMax

/-- The invariant: an idle engine, or a running one with its register. -/
def Alive (s : EngineState) : Option Registry → Prop
  | none => Idle s
  | some r => Running s r

theorem tracks_of_alive
    {r : Option Registry}
    (h : Alive s r) :
    Tracks s r := by
  cases r with
  | none => exact stopped_of_idle h
  | some r => exact h

/-- Starting an idle engine gives a running one with an empty register, or fails and changes
nothing. -/
theorem alive_init
    (h : Idle s)
    (sodium memSodium : Bool) :
    Alive (crypticInit s sodium memSodium).2 (lifeStep none (.init sodium memSodium)) := by
  cases sodium with
  | false =>
      have hfail : crypticInit s false memSodium = (-1, s) := by
        rw [crypticInit, if_neg (by simp [h.engine]), if_pos rfl]
      rw [hfail]
      exact h
  | true =>
      cases memSodium with
      | false =>
          have hmemory : secureMemoryInit s.memory false = (-1, s.memory) := by
            simp [secureMemoryInit, h.memoryFlag]
          have hfail : crypticInit s true false = (-1, s) := by
            rw [crypticInit, if_neg (by simp [h.engine]), if_neg (by simp), hmemory,
              if_pos (by simp)]
          rw [hfail]
          exact h
      | true =>
          have hsessions : Session.Follows (sessionStart s.sessions) .empty := by
            rw [sessionStart, h.sessionFlag]
            exact ⟨rfl, by simp [SessionTable.sessions, sessionInit, Registry.empty], rfl⟩
          have hlife : lifeStep none (.init true true) = some .empty := rfl
          rw [hlife]
          simp only [crypticInit, h.engine, secureMemoryInit, h.memoryFlag, Bool.false_eq_true,
            Bool.true_eq_false, if_false, if_true, ne_eq, not_true, EngineState.containerStart]
          split_ifs with hflag
          · exact ⟨rfl, hflag, rfl, hsessions⟩
          · exact ⟨rfl, rfl, rfl, hsessions⟩

/-- Stopping a running engine leaves an idle one. -/
theorem idle_shutdown
    (h : Running s r)
    (sys : Nat → CloseSys) :
    Idle (crypticShutdown s sys).1 := by
  have hsessions : (sessionShutdown s.sessions).initialized = false ∧
      (sessionShutdown s.sessions).sessions = [] := by
    rw [sessionShutdown, h.sessions.initialized, if_pos rfl]
    exact ⟨rfl, (sessionDestroyAll_spec s.sessions).1⟩
  rw [crypticShutdown, h.engine, if_neg (by simp), secureMemoryShutdown, h.memory, if_pos rfl]
  exact ⟨rfl, hsessions.1, hsessions.2, rfl, rfl, rfl⟩

/-- A call that has a meaning follows the register. -/
theorem follows_of_perform
    {t t' : SessionTable} {op : Session.Operation} {a : Session.Answer}
    (h : Session.Follows t r)
    (hnext : t.nextId ≤ Session.intMax)
    (hperform : Session.perform t op = some (t', a)) :
    Session.Follows t' (r.perform op).1 := by
  by_cases hquiet : Session.creations [op] = 0
  · have hroom : r.nextId + Session.creations [op] ≤ Session.intMax := by
      rw [hquiet, ← h.nextId]
      simpa using hnext
    obtain ⟨t₁, hfirst, hfollows⟩ := Session.follows_perform h hroom
    rw [hperform] at hfirst
    obtain ⟨rfl, -⟩ := Prod.mk.inj (Option.some.inj hfirst)
    exact hfollows
  · cases op with
    | create args sys =>
        simp only [Session.perform] at hperform
        split_ifs at hperform
        obtain ⟨rfl, -⟩ := Prod.mk.inj (Option.some.inj hperform)
        exact (Session.follows_create h args sys).2
    | destroy _ | destroyAll | getInfo _ | list => exact absurd rfl hquiet

/-- A call into the sessions follows the register. -/
theorem alive_session
    {op : Session.Operation} {t : SessionTable} {a : Session.Answer}
    (hnext : s.sessions.nextId ≤ Session.intMax)
    (hperform : Session.perform s.sessions op = some (t, a))
    {r : Option Registry}
    (h : Alive s r) :
    Alive { s with sessions := t } (r.map fun r => (r.perform op).1) := by
  cases r with
  | some r =>
      have hfollows := follows_of_perform h.sessions hnext hperform
      exact ⟨h.engine, h.container, h.memory, hfollows⟩
  | none =>
      have hkeep : t.initialized = false ∧ t.sessions = [] := by
        cases op with
        | create args sys =>
            simp only [Session.perform] at hperform
            split_ifs at hperform
            obtain ⟨rfl, -⟩ := Prod.mk.inj (Option.some.inj hperform)
            rw [(stopped_of_idle h).noSession]
            exact ⟨h.sessionFlag, h.sessions⟩
        | destroy id =>
            obtain ⟨rfl, -⟩ := Prod.mk.inj (Option.some.inj hperform)
            obtain ⟨hsessions, -, hinit, -⟩ := Session.sessionDestroy_spec s.sessions id
            exact ⟨hinit.trans h.sessionFlag, by rw [hsessions, h.sessions]; rfl⟩
        | destroyAll =>
            obtain ⟨rfl, -⟩ := Prod.mk.inj (Option.some.inj hperform)
            obtain ⟨hsessions, -, hinit⟩ := sessionDestroyAll_spec s.sessions
            exact ⟨hinit.trans h.sessionFlag, hsessions⟩
        | getInfo _ | list =>
            obtain ⟨rfl, -⟩ := Prod.mk.inj (Option.some.inj hperform)
            exact ⟨h.sessionFlag, h.sessions⟩
      exact ⟨h.engine, hkeep.1, hkeep.2, h.memoryFlag, h.listed, h.stats⟩

/-- A call into secure memory leaves the register alone, and an idle engine idle. -/
theorem alive_memory
    {call : MemoryCall} {m : Memory}
    (hstep : memoryStep s.memory call = some m)
    {r : Option Registry}
    (h : Alive s r) :
    Alive { s with memory := m } r := by
  have hflag := initialized_memoryStep hstep
  cases r with
  | some r => exact ⟨h.engine, h.container, hflag.trans h.memory, h.sessions⟩
  | none =>
      have hkeep : m.tracker.allocList = [] ∧ secureMemoryStats m = (0, 0) := by
        cases call with
        | alloc size malloc node =>
            simp only [memoryStep] at hstep
            split_ifs at hstep
            obtain rfl := Option.some.inj hstep
            rw [(stopped_of_idle h).noMemory]
            exact ⟨h.listed, h.stats⟩
        | free block =>
            simp only [memoryStep] at hstep
            split_ifs at hstep
            obtain rfl := Option.some.inj hstep
            have hnone : SecureMemory.trackerRemove s.memory.tracker block.ptr block.size =
                s.memory.tracker := by
              simp [SecureMemory.trackerRemove, h.listed]
            simp only [SecureMemory.secureFree, secureMemoryStats, hnone]
            exact ⟨h.listed, h.stats⟩
        | wipe =>
            obtain rfl := Option.some.inj hstep
            exact ⟨rfl, rfl⟩
      exact ⟨h.engine, h.sessionFlag, h.sessions, hflag.trans h.memoryFlag, hkeep.1, hkeep.2⟩

/-- Counting an id leaves the next one within `int`. -/
theorem nextId_perform
    {t t' : SessionTable} {op : Session.Operation} {a : Session.Answer}
    (hnext : t.nextId ≤ Session.intMax)
    (hperform : Session.perform t op = some (t', a)) :
    t'.nextId ≤ Session.intMax := by
  cases op with
  | create args sys =>
      simp only [Session.perform] at hperform
      split_ifs at hperform with hlast
      obtain ⟨rfl, -⟩ := Prod.mk.inj (Option.some.inj hperform)
      by_cases hw : Session.createWrites t
      · have hcount : (Session.sessionCreate t args sys).1.nextId = t.nextId + 1 := by
          by_cases hok : sys.stack = true ∧ 0 ≤ sys.childPid
          · rw [Session.sessionCreate_done hw hok]
            rfl
          · rw [Session.sessionCreate_failed hw hok]
            rfl
        have hne : t.nextId ≠ Session.intMax := fun heq => hlast ⟨hw, heq⟩
        omega
      · rw [Session.sessionCreate, Session.createLocked_of_not_writes hw]
        exact hnext
  | destroy id =>
      obtain ⟨rfl, -⟩ := Prod.mk.inj (Option.some.inj hperform)
      rwa [(Session.sessionDestroy_spec t id).2.1]
  | destroyAll =>
      obtain ⟨rfl, -⟩ := Prod.mk.inj (Option.some.inj hperform)
      rwa [(sessionDestroyAll_spec t).2.1]
  | getInfo _ | list =>
      obtain ⟨rfl, -⟩ := Prod.mk.inj (Option.some.inj hperform)
      exact hnext

theorem kept_init
    (h : Kept s)
    (sodium memSodium : Bool) :
    Kept (crypticInit s sodium memSodium).2 := by
  have hmemory := sound_secureMemoryInit h.memory memSodium
  have hnext : (sessionStart s.sessions).nextId ≤ Session.intMax := by
    unfold sessionStart
    split_ifs
    · exact h.nextId_le
    · exact by decide
  unfold crypticInit
  split_ifs
  · exact h
  · exact h
  · exact ⟨h.opened, hmemory, h.nextId_le⟩
  · dsimp only [EngineState.containerStart]
    split_ifs
    · exact ⟨h.opened, hmemory, hnext⟩
    · exact ⟨by simp [AllOpened, Container.containerInit, ContainerTable.entries], hmemory, hnext⟩

theorem kept_shutdown
    (h : Kept s)
    (sys : Nat → CloseSys) :
    Kept (crypticShutdown s sys).1 := by
  have hnext : (sessionShutdown s.sessions).nextId ≤ Session.intMax := by
    unfold sessionShutdown
    split_ifs
    · exact ((sessionDestroyAll_spec s.sessions).2.1).trans_le h.nextId_le
    · exact h.nextId_le
  unfold crypticShutdown
  split_ifs
  · exact h
  · exact ⟨by simp [AllOpened, (containerCloseAll_entries h.opened sys).1],
      sound_secureMemoryShutdown h.memory, hnext⟩

/-- Every call keeps the invariant. -/
theorem alive_call
    {base : CString} {opening : Nat} {op : EngineOp} {r : Option Registry}
    (h : Alive s r)
    (hkept : Kept s)
    (hcall : engineCall base opening s op = some s') :
    Alive s' (lifeStep r op) ∧ Kept s' := by
  cases op with
  | init sodium memSodium =>
      obtain rfl := Option.some.inj hcall
      refine ⟨?_, kept_init hkept sodium memSodium⟩
      cases r with
      | none => exact alive_init h sodium memSodium
      | some r =>
          have hsame : crypticInit s sodium memSodium = (0, s) := by
            rw [crypticInit, if_pos h.engine]
          rw [hsame]
          exact h
  | shutdown sys =>
      obtain rfl := Option.some.inj hcall
      refine ⟨?_, kept_shutdown hkept sys⟩
      cases r with
      | none =>
          have hsame : crypticShutdown s sys = (s, []) := by
            rw [crypticShutdown, if_pos h.engine]
          rw [hsame]
          exact h
      | some r => exact idle_shutdown h sys
  | session op =>
      obtain ⟨⟨t, a⟩, hperform, rfl⟩ := Option.map_eq_some_iff.mp hcall
      exact ⟨alive_session hkept.nextId_le hperform h,
        ⟨hkept.opened, hkept.memory, nextId_perform hkept.nextId_le hperform⟩⟩
  | container op =>
      obtain rfl := Option.some.inj hcall
      refine ⟨?_, ⟨allOpened_perform hkept.opened base opening op, hkept.memory,
        hkept.nextId_le⟩⟩
      cases r with
      | none => exact ⟨h.engine, h.sessionFlag, h.sessions, h.memoryFlag, h.listed, h.stats⟩
      | some r => exact ⟨h.engine, h.container, h.memory, h.sessions⟩
  | memory call =>
      obtain ⟨m, hstep, rfl⟩ := Option.map_eq_some_iff.mp hcall
      exact ⟨alive_memory hstep h,
        ⟨hkept.opened, SecureMemory.sound_step hkept.memory hstep, hkept.nextId_le⟩⟩

theorem alive_run
    {base : CString} {ops : List EngineOp} {r : Option Registry} {n n' : Nat}
    (h : Alive s r)
    (hkept : Kept s)
    (hrun : run (engineStep base) (s, n) ops = some (s', n')) :
    Alive s' (ops.foldl lifeStep r) ∧ Kept s' := by
  induction ops generalizing s r n with
  | nil =>
      obtain ⟨rfl, -⟩ := Prod.mk.inj (Option.some.inj hrun)
      exact ⟨h, hkept⟩
  | cons op ops ih =>
      obtain ⟨⟨s₁, n₁⟩, hstep, hrest⟩ := run_cons_eq_some.mp hrun
      obtain ⟨s₂, hcall, heq⟩ := Option.map_eq_some_iff.mp hstep
      obtain ⟨rfl, rfl⟩ := Prod.mk.inj heq
      obtain ⟨halive, hkept₁⟩ := alive_call h hkept hcall
      exact ih halive hkept₁ hrest

theorem alive_start : Alive EngineState.start none ∧ Kept EngineState.start := by
  refine ⟨⟨rfl, rfl, ?_, rfl, rfl, rfl⟩, ⟨?_, ⟨SecureMemory.sound_start false, rfl⟩, by decide⟩⟩
  · simp [EngineState.start, SessionTable.sessions, sessionInit]
  · simp [AllOpened, EngineState.start, Container.containerInit, ContainerTable.entries]

/-- What a shutdown does to an engine whose containers are open. -/
theorem shutsDown_of_running
    (h : Running s r)
    (hkept : Kept s)
    (sys : Nat → CloseSys) :
    ShutsDown s sys := by
  obtain ⟨hentries, hcalls⟩ := containerCloseAll_entries hkept.opened sys
  have hresult : crypticShutdown s sys =
      ({ s with
          engineInitialized := false
          containers := (containerCloseAll s.containers sys).table
          sessions := sessionShutdown s.sessions
          memory := secureMemoryShutdown s.memory },
        (containerCloseAll s.containers sys).calls) := by
    rw [crypticShutdown, if_neg (by simp [h.engine])]
  refine ⟨stopped_of_idle (idle_shutdown h sys), ?_, ?_, ?_⟩
  · rw [hresult]
    exact hentries
  · rw [hresult]
    exact hcalls
  · intro b hb
    have hwiped := (SecureMemory.wipesAll s.memory).2.2 b hb
    rw [hresult, secureMemoryShutdown, if_pos h.memory]
    exact hwiped

end Lives

section Examples

/-- A session, an allocation and a container, then a stop and a new start. -/
def restartedLife : List EngineOp :=
  [.init true true, .session (.create ⟨none, 0, 0⟩ ⟨0, true, 7⟩),
    .memory (.alloc 32 (some 4096) true),
    .container (.openContainer (cstr (ascii "v")) ⟨true, true, true, true, true⟩),
    .shutdown fun _ => ⟨true, true⟩, .init true true,
    .session (.create ⟨none, 0, 0⟩ ⟨0, true, 8⟩)]

end Examples

end CrypticEngine
end SecureZ
