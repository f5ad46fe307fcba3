import SecureZ.Lib.SlotArray
import SecureZ.Lib.Transition
import SecureZ.Engine.SecureSession

/-!
# The session table as a register

What the session table is for: a register of the sessions that were created and not yet
destroyed, in the order of their creation, under ids that are never given twice.

`Registry` states that purpose with a list and no array.  The table follows it through
every run of the five operations: their answers are the same, and the array up to the
counter is the list of the register.  The slots that failed creations leave behind and
the moves that close gaps do not show.
-/

namespace SecureZ
namespace Session

open CLib Transition

section Table

/-- The sessions of the table, in the order of the array. -/
def SessionTable.sessions (t : SessionTable) : List SessionInfo :=
  SlotArray.entries t.slots t.count

/-- `session_get_info`: the entry, none for the return value `-1`. -/
def sessionGetInfo (t : SessionTable) (id : Int) : Option SessionInfo :=
  (findSession t id).map t.slots

/-- `session_list`. -/
def sessionList (t : SessionTable) : List SessionInfo :=
  t.sessions

/-- `session_destroy_all`: the ids are copied first. -/
def sessionDestroyAll (t : SessionTable) : SessionTable :=
  (t.sessions.map SessionInfo.id).foldl (fun t id => (sessionDestroy t id).1) t

end Table

section Operations

/-- A call, with what the system comes back with. -/
inductive Operation
  | create (args : CreateArgs) (sys : CreateSys)
  | destroy (id : Int)
  | destroyAll
  | getInfo (id : Int)
  | list

/-- What a call returns. -/
inductive Answer
  | created (id : Int)
  | destroyed (status : Int)
  | done
  | info (entry : Option SessionInfo)
  | listed (entries : List SessionInfo)
deriving DecidableEq

/-- A call on the table.  Counting the next id up past `INT_MAX` has no meaning in C. -/
def perform (t : SessionTable) : Operation → Option (SessionTable × Answer)
  | .create args sys =>
      if createWrites t ∧ t.nextId = intMax then none
      else some ((sessionCreate t args sys).1, .created (sessionCreate t args sys).2)
  | .destroy id => some ((sessionDestroy t id).1, .destroyed (sessionDestroy t id).2)
  | .destroyAll => some (sessionDestroyAll t, .done)
  | .getInfo id => some (t, .info (sessionGetInfo t id))
  | .list => some (t, .listed (sessionList t))

/-- A call in a run: the table and the answers so far. -/
def tableStep (s : SessionTable × List Answer) (op : Operation) :
    Option (SessionTable × List Answer) :=
  (perform s.1 op).map fun r => (r.1, s.2 ++ [r.2])

/-- How many of the calls are creations. -/
def creations (ops : List Operation) : Nat :=
  ops.countP fun
    | .create _ _ => true
    | _ => false

end Operations

section Purpose

/-- The sessions that are alive, in the order of their creation, and the next id. -/
structure Registry where
  live : List SessionInfo
  nextId : Int

/-- The register after `session_init`. -/
def Registry.empty : Registry := ⟨[], 1⟩

/-- The entry of a session whose process was cloned. -/
def activeEntry (id : Int) (args : CreateArgs) (sys : CreateSys) : SessionInfo :=
  { startingEntry id sys.time args with pid := sys.childPid, state := .active }

/-- What a call means for the register.  A creation for which there is room uses up an
id whether it succeeds or not. -/
def Registry.perform (r : Registry) : Operation → Registry × Answer
  | .create args sys =>
      if sessionMaxActive ≤ r.live.length then (r, .created (-1))
      else if sys.stack = true ∧ 0 ≤ sys.childPid then
        (⟨r.live ++ [activeEntry r.nextId args sys], r.nextId + 1⟩, .created r.nextId)
      else (⟨r.live, r.nextId + 1⟩, .created (-1))
  | .destroy id =>
      if ∃ e ∈ r.live, e.id = id then
        (⟨r.live.filter (fun e => e.id ≠ id), r.nextId⟩, .destroyed 0)
      else (r, .destroyed (-1))
  | .destroyAll => (⟨[], r.nextId⟩, .done)
  | .getInfo id => (r, .info (r.live.find? fun e => e.id = id))
  | .list => (r, .listed r.live)

/-- A call in a run of the register. -/
def registryStep (s : Registry × List Answer) (op : Operation) : Registry × List Answer :=
  ((s.1.perform op).1, s.2 ++ [(s.1.perform op).2])

/-- The ids that creations returned. -/
def createdIds (answers : List Answer) : List Int :=
  answers.filterMap fun
    | .created id => if 0 < id then some id else none
    | _ => none

/-- What holds of a table and the answers given so far. -/
structure Orderly (t : SessionTable) (answers : List Answer) : Prop where
  count_le : t.count ≤ sessionMaxActive
  increasing : t.sessions.Pairwise fun a b => a.id < b.id
  positive : ∀ e ∈ t.sessions, 0 < e.id
  below : ∀ e ∈ t.sessions, e.id < t.nextId
  next_le : t.nextId ≤ intMax
  active : ∀ e ∈ t.sessions, e.state = .active
  /-- No id was returned twice, and none that was returned is still to come. -/
  fresh : (createdIds answers).Pairwise (· < ·) ∧ ∀ id ∈ createdIds answers, id < t.nextId

end Purpose

section TableLemmas

theorem length_sessions
    (t : SessionTable) :
    t.sessions.length = t.count :=
  SlotArray.length_entries _ _

theorem mem_sessions
    {t : SessionTable} {e : SessionInfo} :
    e ∈ t.sessions ↔ ∃ i, i < t.count ∧ t.slots i = e :=
  SlotArray.mem_entries

/-- The ids grow along the list. -/
theorem sessions_increasing
    (t : SessionTable) :
    t.sessions.Pairwise fun a b => a.id < b.id := by
  rw [SessionTable.sessions, SlotArray.entries, List.pairwise_map, List.pairwise_iff_getElem]
  intro i j hi hj hij
  simp only [List.length_range] at hj
  simpa using t.ordered i j hij hj

theorem sessions_below
    (t : SessionTable) :
    ∀ e ∈ t.sessions, e.id < t.nextId := by
  intro e he
  obtain ⟨i, hi, rfl⟩ := mem_sessions.mp he
  exact t.fresh i hi

/-- A slot behind the sessions that is not counted does not show. -/
@[simp] theorem sessions_writeNext
    (t : SessionTable) (e : SessionInfo) :
    (t.writeNext e).sessions = t.sessions :=
  SlotArray.entries_write_end _ _ _

@[simp] theorem sessions_addSession
    (t : SessionTable) (e : SessionInfo)
    (hcount : t.count < sessionMaxActive) (hid : e.id = t.nextId) :
    (t.addSession e hcount hid).sessions = t.sessions ++ [e] :=
  SlotArray.entries_write_succ _ _ _

theorem findSession_eq
    (t : SessionTable) (id : Int) :
    findSession t id = SlotArray.find (fun e => e.id = id) t.slots t.count :=
  rfl

/-- Removing the session that was found removes the session with that id. -/
theorem sessions_remove
    {t : SessionTable} {id : Int} {idx : Nat}
    (h : findSession t id = some idx) :
    (t.remove idx).sessions = t.sessions.filter (fun e => e.id ≠ id) := by
  rw [findSession_eq] at h
  have hlt := (SlotArray.find_eq_some_iff.mp h).1
  have hkeys : t.sessions.Pairwise fun a b => a.id ≠ b.id :=
    (sessions_increasing t).imp fun hab => hab.ne
  calc (t.remove idx).sessions
      = t.sessions.eraseIdx idx := SlotArray.entries_closeGap_write hlt _
    _ = t.sessions.eraseP (fun e => e.id = id) := SlotArray.eraseIdx_of_find h
    _ = t.sessions.filter (fun e => e.id ≠ id) :=
        SlotArray.eraseP_key_eq_filter SessionInfo.id hkeys id

end TableLemmas

section OperationLemmas

/-- What `session_destroy` does to the list. -/
theorem sessionDestroy_spec
    (t : SessionTable) (id : Int) :
    (sessionDestroy t id).1.sessions = t.sessions.filter (fun e => e.id ≠ id) ∧
      (sessionDestroy t id).1.nextId = t.nextId ∧
      (sessionDestroy t id).1.initialized = t.initialized ∧
      (sessionDestroy t id).2 = if ∃ e ∈ t.sessions, e.id = id then 0 else -1 := by
  unfold sessionDestroy
  cases hfind : findSession t id with
  | none =>
      rw [findSession_eq, SlotArray.find_eq_none_iff] at hfind
      have hno : ∀ e ∈ t.sessions, e.id ≠ id := fun e he => by simpa using hfind e he
      have hself : t.sessions.filter (fun e => e.id ≠ id) = t.sessions :=
        List.filter_eq_self.mpr fun e he => by simpa using hno e he
      refine ⟨hself.symm, rfl, rfl, ?_⟩
      rw [if_neg]
      rintro ⟨e, he, hid⟩
      exact hno e he hid
  | some idx =>
      refine ⟨sessions_remove hfind, rfl, rfl, ?_⟩
      rw [findSession_eq] at hfind
      obtain ⟨hlt, hid, -⟩ := SlotArray.find_eq_some_iff.mp hfind
      rw [if_pos]
      exact ⟨t.slots idx, mem_sessions.mpr ⟨idx, hlt, rfl⟩, by simpa using hid⟩

/-- Destroying sessions one after the other. -/
theorem foldl_sessionDestroy_spec
    (ids : List Int) (t : SessionTable) :
    (ids.foldl (fun t id => (sessionDestroy t id).1) t).sessions =
        t.sessions.filter (fun e => e.id ∉ ids) ∧
      (ids.foldl (fun t id => (sessionDestroy t id).1) t).nextId = t.nextId ∧
      (ids.foldl (fun t id => (sessionDestroy t id).1) t).initialized = t.initialized := by
  induction ids generalizing t with
  | nil =>
      simp
  | cons id ids ih =>
      obtain ⟨hsessions, hnext, hinit⟩ := ih (sessionDestroy t id).1
      obtain ⟨hs, hn, hi, -⟩ := sessionDestroy_spec t id
      rw [List.foldl_cons, hsessions, hnext, hinit, hs, hn, hi, List.filter_filter]
      refine ⟨List.filter_congr fun e _ => ?_, rfl, rfl⟩
      by_cases he : e.id = id <;> simp [he]

/-- `session_destroy_all` leaves no session. -/
theorem sessionDestroyAll_spec
    (t : SessionTable) :
    (sessionDestroyAll t).sessions = [] ∧
      (sessionDestroyAll t).nextId = t.nextId ∧
      (sessionDestroyAll t).initialized = t.initialized := by
  obtain ⟨hsessions, hrest⟩ := foldl_sessionDestroy_spec (t.sessions.map SessionInfo.id) t
  refine ⟨?_, hrest⟩
  rw [sessionDestroyAll, hsessions, List.filter_eq_nil_iff]
  intro e he
  simpa using List.mem_map_of_mem he

/-- A creation for which there is no room is refused at once. -/
theorem sessionCreate_full
    {t : SessionTable}
    (hfull : sessionMaxActive ≤ t.count)
    (args : CreateArgs) (sys : CreateSys) :
    sessionCreate t args sys = (t, -1) := by
  have hw : ¬ createWrites t := fun h => absurd h.2 (by omega)
  rw [sessionCreate, createLocked_of_not_writes hw]

/-- A creation that fails has written the slot behind the sessions. -/
theorem createLocked_failed
    {t : SessionTable} {sys : CreateSys}
    (hw : createWrites t)
    (hfail : ¬ (sys.stack = true ∧ 0 ≤ sys.childPid))
    (args : CreateArgs) :
    createLocked t args sys = (t.writeNext (startingEntry t.nextId sys.time args), none) := by
  rw [createLocked, dif_pos hw]
  cases hstack : sys.stack with
  | false => simp
  | true =>
      have hpid : sys.childPid < 0 := by
        simp only [hstack, true_and] at hfail
        omega
      simp [hpid]

theorem createLocked_done
    {t : SessionTable} {sys : CreateSys}
    (hw : createWrites t)
    (hok : sys.stack = true ∧ 0 ≤ sys.childPid)
    (args : CreateArgs) :
    createLocked t args sys =
      (t.addSession (activeEntry t.nextId args sys) hw.2 rfl, some t.count) := by
  have hpid : ¬ sys.childPid < 0 := by omega
  rw [createLocked, dif_pos hw]
  simp only [hok.1, Bool.true_eq_false, if_false, hpid]
  rfl

theorem sessionCreate_failed
    {t : SessionTable} {sys : CreateSys}
    (hw : createWrites t)
    (hfail : ¬ (sys.stack = true ∧ 0 ≤ sys.childPid))
    (args : CreateArgs) :
    sessionCreate t args sys = (t.writeNext (startingEntry t.nextId sys.time args), -1) := by
  rw [sessionCreate, createLocked_failed hw hfail]

/-- A creation that succeeds returns the next id. -/
theorem sessionCreate_done
    {t : SessionTable} {sys : CreateSys}
    (hw : createWrites t)
    (hok : sys.stack = true ∧ 0 ≤ sys.childPid)
    (args : CreateArgs) :
    sessionCreate t args sys =
      (t.addSession (activeEntry t.nextId args sys) hw.2 rfl, t.nextId) := by
  rw [sessionCreate, createLocked_done hw hok]
  simp [SessionTable.addSession, writeSlot, activeEntry, startingEntry]

end OperationLemmas

section Refinement

/-- The table holds what the register says. -/
structure Follows (t : SessionTable) (r : Registry) : Prop where
  initialized : t.initialized = true
  sessions : t.sessions = r.live
  nextId : t.nextId = r.nextId

/-- A creation on the table answers as on the register, and follows it. -/
theorem follows_create
    {t : SessionTable} {r : Registry}
    (h : Follows t r)
    (args : CreateArgs) (sys : CreateSys) :
    Answer.created (sessionCreate t args sys).2 = (r.perform (.create args sys)).2 ∧
      Follows (sessionCreate t args sys).1 (r.perform (.create args sys)).1 := by
  have hlen : r.live.length = t.count := by
    rw [← h.sessions, length_sessions]
  simp only [Registry.perform, hlen]
  by_cases hfull : sessionMaxActive ≤ t.count
  · rw [sessionCreate_full hfull, if_pos hfull]
    exact ⟨rfl, h⟩
  rw [if_neg hfull]
  have hw : createWrites t := ⟨h.initialized, by omega⟩
  by_cases hok : sys.stack = true ∧ 0 ≤ sys.childPid
  · rw [sessionCreate_done hw hok, if_pos hok, ← h.nextId, ← h.sessions]
    exact ⟨rfl, ⟨h.initialized, sessions_addSession t _ hw.2 rfl, rfl⟩⟩
  · rw [sessionCreate_failed hw hok, if_neg hok, ← h.nextId, ← h.sessions]
    exact ⟨rfl, ⟨h.initialized, sessions_writeNext t _, rfl⟩⟩

/-- Every call on the table answers as on the register, and follows it. -/
theorem follows_perform
    {t : SessionTable} {r : Registry} {op : Operation}
    (h : Follows t r)
    (hroom : r.nextId + creations [op] ≤ intMax) :
    ∃ t', perform t op = some (t', (r.perform op).2) ∧ Follows t' (r.perform op).1 := by
  cases op with
  | create args sys =>
      have hnext : ¬ (createWrites t ∧ t.nextId = intMax) := by
        rintro ⟨-, hlast⟩
        have hone : creations [.create args sys] = 1 := rfl
        have hnextId := h.nextId
        rw [hone] at hroom
        omega
      obtain ⟨hanswer, hfollows⟩ := follows_create h args sys
      refine ⟨_, ?_, hfollows⟩
      rw [perform, if_neg hnext, hanswer]
  | destroy id =>
      obtain ⟨hsessions, hnext, hinit, hstatus⟩ := sessionDestroy_spec t id
      rw [h.sessions] at hsessions hstatus
      refine ⟨(sessionDestroy t id).1, ?_, ?_⟩
      · rw [perform, hstatus, Registry.perform]
        split_ifs <;> rfl
      · refine ⟨hinit.trans h.initialized, ?_, ?_⟩
        · rw [hsessions, Registry.perform]
          split_ifs with hid
          · rfl
          · rw [List.filter_eq_self]
            intro e he
            simpa using fun heq => hid ⟨e, he, heq⟩
        · rw [hnext, h.nextId, Registry.perform]
          split_ifs <;> rfl
  | destroyAll =>
      obtain ⟨hsessions, hnext, hinit⟩ := sessionDestroyAll_spec t
      exact ⟨sessionDestroyAll t, rfl, hinit.trans h.initialized, hsessions,
        hnext.trans h.nextId⟩
  | getInfo id =>
      refine ⟨t, ?_, h⟩
      have hinfo : sessionGetInfo t id = r.live.find? fun e => e.id = id := by
        rw [sessionGetInfo, findSession_eq, ← SlotArray.find?_entries, ← h.sessions]
        rfl
      rw [perform, hinfo]
      rfl
  | list =>
      refine ⟨t, ?_, h⟩
      rw [perform, sessionList, h.sessions]
      rfl

/-- A call uses up an id at most if it is a creation. -/
theorem nextId_perform_le
    (r : Registry) (op : Operation) :
    (r.perform op).1.nextId ≤ r.nextId + creations [op] := by
  cases op with
  | create args sys =>
      have hone : creations [.create args sys] = 1 := rfl
      rw [hone, Registry.perform]
      split_ifs <;> simp
  | destroy id =>
      rw [Registry.perform]
      split_ifs <;> simp
  | destroyAll => simp [Registry.perform]
  | getInfo id => simp [Registry.perform]
  | list => simp [Registry.perform]

theorem creations_cons
    (op : Operation) (ops : List Operation) :
    creations (op :: ops) = creations [op] + creations ops := by
  have hsplit : op :: ops = [op] ++ ops := rfl
  rw [hsplit, creations, List.countP_append]
  rfl

/-- Every run of the table answers as the register does, and follows it. -/
theorem follows_run
    {t : SessionTable} {r : Registry} {ops : List Operation}
    (h : Follows t r)
    (hroom : r.nextId + creations ops ≤ intMax)
    (answers : List Answer) :
    ∃ t', run tableStep (t, answers) ops =
        some (t', (ops.foldl registryStep (r, answers)).2) ∧
      Follows t' (ops.foldl registryStep (r, answers)).1 ∧
      t'.nextId ≤ intMax := by
  induction ops generalizing t r answers with
  | nil =>
      refine ⟨t, rfl, h, ?_⟩
      rw [h.nextId]
      simpa [creations] using hroom
  | cons op ops ih =>
      rw [creations_cons] at hroom
      have hone : r.nextId + creations [op] ≤ intMax := by omega
      obtain ⟨t₁, hperform, hfollows⟩ := follows_perform h hone
      have hnext := nextId_perform_le r op
      obtain ⟨t', hrun, hrest⟩ := ih (r := (r.perform op).1) hfollows (by omega)
        (answers ++ [(r.perform op).2])
      refine ⟨t', run_cons_eq_some.mpr ⟨_, ?_, hrun⟩, hrest⟩
      rw [tableStep, hperform]
      rfl

end Refinement

section Order

/-- What every call keeps of the register and the answers. -/
structure RegistryOrderly (s : Registry × List Answer) : Prop where
  next_pos : 0 < s.1.nextId
  positive : ∀ e ∈ s.1.live, 0 < e.id
  active : ∀ e ∈ s.1.live, e.state = .active
  created : (createdIds s.2).Pairwise (· < ·)
  created_lt : ∀ id ∈ createdIds s.2, id < s.1.nextId

/-- An answer that returns no id keeps the order. -/
theorem registryOrderly_quiet
    {r r' : Registry} {answers : List Answer} {a : Answer}
    (h : RegistryOrderly (r, answers))
    (hlive : ∀ e ∈ r'.live, e ∈ r.live)
    (hnext : r.nextId ≤ r'.nextId)
    (hquiet : createdIds [a] = []) :
    RegistryOrderly (r', answers ++ [a]) := by
  have hids : createdIds (answers ++ [a]) = createdIds answers := by
    rw [createdIds, List.filterMap_append]
    exact (congrArg _ hquiet).trans (List.append_nil _)
  refine ⟨h.next_pos.trans_le hnext, fun e he => h.positive e (hlive e he),
    fun e he => h.active e (hlive e he), ?_, ?_⟩
  · rw [hids]
    exact h.created
  · rw [hids]
    exact fun id hid => (h.created_lt id hid).trans_le hnext

/-- Every call keeps the order. -/
theorem registryOrderly_step
    {s : Registry × List Answer}
    (h : RegistryOrderly s)
    (op : Operation) :
    RegistryOrderly (registryStep s op) := by
  obtain ⟨r, answers⟩ := s
  cases op with
  | create args sys =>
      simp only [registryStep, Registry.perform]
      split_ifs with hfull hok
      · exact registryOrderly_quiet h (fun e he => he) le_rfl rfl
      · have hpos := h.next_pos
        have hids : createdIds (answers ++ [.created r.nextId]) =
            createdIds answers ++ [r.nextId] := by
          rw [createdIds, List.filterMap_append]
          simp [hpos, createdIds]
        refine ⟨?_, ?_, ?_, ?_, ?_⟩
        · simp only at hpos ⊢
          omega
        · exact List.forall_mem_append.mpr
            ⟨h.positive, by simpa [activeEntry, startingEntry] using hpos⟩
        · exact List.forall_mem_append.mpr ⟨h.active, by simp [activeEntry]⟩
        · rw [hids, List.pairwise_append]
          exact ⟨h.created, by simp, fun a ha b hb => by
            obtain rfl := List.mem_singleton.mp hb
            exact h.created_lt a ha⟩
        · rw [hids]
          refine List.forall_mem_append.mpr ⟨fun id hid => ?_, by simp⟩
          exact (h.created_lt id hid).trans (by simp)
      · exact registryOrderly_quiet h (fun e he => he) (by simp) rfl
  | destroy id =>
      simp only [registryStep, Registry.perform]
      split_ifs
      · exact registryOrderly_quiet h (fun e he => (List.mem_filter.mp he).1) le_rfl rfl
      · exact registryOrderly_quiet h (fun e he => he) le_rfl rfl
  | destroyAll => exact registryOrderly_quiet h (by simp [Registry.perform]) le_rfl rfl
  | getInfo id => exact registryOrderly_quiet h (fun e he => he) le_rfl rfl
  | list => exact registryOrderly_quiet h (fun e he => he) le_rfl rfl

/-- The order holds of every run. -/
theorem registryOrderly_run
    {s : Registry × List Answer}
    (h : RegistryOrderly s)
    (ops : List Operation) :
    RegistryOrderly (ops.foldl registryStep s) := by
  induction ops generalizing s with
  | nil =>
      exact h
  | cons op ops ih =>
      exact ih (registryOrderly_step h op)

/--
**The session table is a register of sessions.**  In every run from `session_init` with
fewer than `2 ^ 31 - 1` creations, no id overflows, every call answers as on the register,
the array up to the counter is the list of the register, and ids, states and the counter
are as they should be.
-/
theorem sessionTable_refines_registry
    (ops : List Operation)
    (hfew : creations ops < 2 ^ 31 - 1) :
    ∃ t, run tableStep (sessionInit, []) ops =
        some (t, (ops.foldl registryStep (.empty, [])).2) ∧
      t.sessions = (ops.foldl registryStep (.empty, [])).1.live ∧
      t.nextId = (ops.foldl registryStep (.empty, [])).1.nextId ∧
      Orderly t (ops.foldl registryStep (.empty, [])).2 := by
  have hstart : Follows sessionInit .empty := ⟨rfl, rfl, rfl⟩
  have hroom : Registry.empty.nextId + creations ops ≤ intMax := by
    have hnext : Registry.empty.nextId = 1 := rfl
    rw [hnext, intMax]
    omega
  obtain ⟨t, hrun, hfollows, hle⟩ := follows_run hstart hroom []
  have horder := registryOrderly_run (s := (.empty, []))
    ⟨by decide, by simp [Registry.empty], by simp [Registry.empty], by simp [createdIds],
      by simp [createdIds]⟩ ops
  refine ⟨t, hrun, hfollows.sessions, hfollows.nextId, ?_⟩
  exact {
    count_le := t.count_le
    increasing := sessions_increasing t
    positive := hfollows.sessions ▸ horder.positive
    below := sessions_below t
    next_le := hle
    active := hfollows.sessions ▸ horder.active
    fresh := ⟨horder.created, hfollows.nextId ▸ horder.created_lt⟩ }

/-- A failed creation between two that succeed, and three ends of sessions. -/
def mixedCalls : List Operation :=
  [.create ⟨none, 0, 0⟩ ⟨0, true, 100⟩, .create ⟨none, 0, 0⟩ ⟨0, true, -1⟩,
    .create ⟨none, 0, 0⟩ ⟨0, true, 101⟩, .destroy 1, .destroy 1, .destroyAll]

/-- In that run the failed creation uses up the id `2`. -/
theorem mixed_calls_refine :
    creations mixedCalls < 2 ^ 31 - 1 ∧
      ∃ t, run tableStep (sessionInit, []) mixedCalls =
          some (t, [.created 1, .created (-1), .created 3, .destroyed 0, .destroyed (-1), .done]) ∧
        t.sessions = [] ∧ t.nextId = 4 ∧
        Orderly t
          [.created 1, .created (-1), .created 3, .destroyed 0, .destroyed (-1), .done] :=
  ⟨by decide, sessionTable_refines_registry mixedCalls (by decide)⟩

end Order

end Session
end SecureZ
