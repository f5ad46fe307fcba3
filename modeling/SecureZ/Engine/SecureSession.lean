import SecureZ.Lib.CText

/-!
# The session table

`secure_session.c` keeps its sessions in a fixed array with a counter; a new session
goes behind the last one, and ending a session moves the ones behind it down.

The table carries what both operations keep: the array bound, and session ids that
grow along the array and stay below the next id.  A creation that fails has already
written its slot and used up its id, without counting the slot.

The kernel side of a session (namespaces, mounts, control groups, signals) is reduced
to the outcomes that the table depends on.
-/

namespace SecureZ
namespace Session

open CLib

section Entries

/-- `SESSION_MAX_ACTIVE`. -/
def sessionMaxActive : Nat := 16

/-- `SESSION_NAME_MAX`. -/
def sessionNameMax : Nat := 64

/-- `SESSION_DEFAULT_MEM`. -/
def sessionDefaultMem : Nat := 512 * 1024 * 1024

/-- `INT_MAX`. -/
def intMax : Int := 2 ^ 31 - 1

/-- `SESSION_TMPFS_BASE`. -/
def sessionTmpfsBase : Bytes := ascii "/tmp/securez-sessions"

/-- `SESSION_CGROUP_BASE`. -/
def sessionCgroupBase : Bytes := ascii "/sys/fs/cgroup/securez"

/-- `SessionState`. -/
inductive SessionState
  | inactive
  | starting
  | active
  | stopping
  | error
deriving DecidableEq

/-- `SessionInfo`. -/
structure SessionInfo where
  id : Int
  name : Bytes
  pid : Int
  state : SessionState
  startTime : Int
  memoryLimit : Nat
  tmpfsPath : Bytes
  cgroupPath : Bytes
  hasNetwork : Int
deriving DecidableEq

/-- An entry after `memset(s, 0, sizeof(SessionInfo))`. -/
def SessionInfo.zero : SessionInfo :=
  ⟨0, [], 0, .inactive, 0, 0, [], [], 0⟩

/-- The output of `%d`. -/
def intText (n : Int) : Bytes :=
  ascii (toString n)

/-- The arguments of `session_create`. -/
structure CreateArgs where
  name : Option CString
  memoryLimit : Nat
  allowNetwork : Int

/-- The name that a session gets. -/
def sessionName (name : Option CString) (id : Int) : Bytes :=
  match name with
  | some name => name.bytes.take (sessionNameMax - 1)
  | none => snprintf sessionNameMax (ascii "session-" ++ intText id)

/-- The entry that `session_create` sets up before it clones the process. -/
def startingEntry (id time : Int) (args : CreateArgs) : SessionInfo where
  id := id
  name := sessionName args.name id
  pid := 0
  state := .starting
  startTime := time
  memoryLimit := if args.memoryLimit > 0 then args.memoryLimit else sessionDefaultMem
  tmpfsPath := snprintf 256 (sessionTmpfsBase ++ ascii "/" ++ sessionName args.name id)
  cgroupPath := snprintf 256 (sessionCgroupBase ++ ascii "/session-" ++ intText id)
  hasNetwork := args.allowNetwork

end Entries

section Table

/-- The static state of the module, with what its operations keep. -/
structure SessionTable where
  /-- `session_initialized`. -/
  initialized : Bool
  /-- The array; the slots from `count` on hold leftovers. -/
  slots : Nat → SessionInfo
  /-- `session_count`. -/
  count : Nat
  /-- `next_session_id`. -/
  nextId : Int
  count_le : count ≤ sessionMaxActive
  next_pos : 0 < nextId
  ordered : ∀ i j, i < j → j < count → (slots i).id < (slots j).id
  fresh : ∀ i, i < count → (slots i).id < nextId

/-- The state after `session_init`. -/
def sessionInit : SessionTable where
  initialized := true
  slots := fun _ => .zero
  count := 0
  nextId := 1
  count_le := by decide
  next_pos := by decide
  ordered := by simp
  fresh := by simp

/-- `find_session`. -/
def findSession (t : SessionTable) (id : Int) : Option Nat :=
  (List.range t.count).find? fun i => (t.slots i).id = id

/-- A write to one slot of the array. -/
def writeSlot (slots : Nat → SessionInfo) (idx : Nat) (e : SessionInfo) :
    Nat → SessionInfo :=
  fun i => if i = idx then e else slots i

/-- The `memmove` that closes the gap at `idx`. -/
def closeGap (slots : Nat → SessionInfo) (idx count : Nat) : Nat → SessionInfo :=
  fun i => if idx ≤ i ∧ i + 1 < count then slots (i + 1) else slots i

/-- The table in which the slot behind the last session is written and its id is used
up, but the session is not counted. -/
def SessionTable.writeNext (t : SessionTable) (e : SessionInfo) : SessionTable where
  initialized := t.initialized
  slots := writeSlot t.slots t.count e
  count := t.count
  nextId := t.nextId + 1
  count_le := t.count_le
  next_pos := by
    have := t.next_pos
    omega
  ordered := by
    intro i j hij hj
    have := t.ordered i j hij hj
    simpa [writeSlot, (hij.trans hj).ne, hj.ne] using this
  fresh := by
    intro i hi
    have := t.fresh i hi
    simp only [writeSlot, hi.ne, if_false]
    omega

/-- The table in which the slot behind the last session holds the new session. -/
def SessionTable.addSession
    (t : SessionTable) (e : SessionInfo)
    (hcount : t.count < sessionMaxActive) (hid : e.id = t.nextId) :
    SessionTable where
  initialized := t.initialized
  slots := writeSlot t.slots t.count e
  count := t.count + 1
  nextId := t.nextId + 1
  count_le := hcount
  next_pos := by
    have := t.next_pos
    omega
  ordered := by
    intro i j hij hj
    rcases Nat.lt_succ_iff_lt_or_eq.mp hj with hj | rfl
    · have := t.ordered i j hij hj
      simpa [writeSlot, (hij.trans hj).ne, hj.ne] using this
    · simpa [writeSlot, hij.ne, hid] using t.fresh i hij
  fresh := by
    intro i hi
    rcases Nat.lt_succ_iff_lt_or_eq.mp hi with hi | rfl
    · have := t.fresh i hi
      simp only [writeSlot, hi.ne, if_false]
      omega
    · simp [writeSlot, hid]

/-- The entry of a session that is being ended. -/
def SessionInfo.stop (e : SessionInfo) : SessionInfo :=
  { e with state := .stopping }

/-- The array after the session at `idx` is ended. -/
def removedSlots (t : SessionTable) (idx : Nat) : Nat → SessionInfo :=
  closeGap (writeSlot t.slots idx (t.slots idx).stop) idx t.count

/-- Where the id in a slot comes from when the session at `idx` is ended. -/
theorem removedSlots_id
    (t : SessionTable) (idx i : Nat) :
    (removedSlots t idx i).id =
      if idx ≤ i ∧ i + 1 < t.count then (t.slots (i + 1)).id else (t.slots i).id := by
  have hwrite :
      ∀ j, (writeSlot t.slots idx (t.slots idx).stop j).id = (t.slots j).id := by
    intro j
    unfold writeSlot
    split_ifs with h
    · rw [h]
      rfl
    · rfl
  unfold removedSlots closeGap
  split_ifs <;> exact hwrite _

/-- The table without the session at `idx`. -/
def SessionTable.remove (t : SessionTable) (idx : Nat) : SessionTable where
  initialized := t.initialized
  slots := removedSlots t idx
  count := t.count - 1
  nextId := t.nextId
  count_le := (Nat.sub_le _ _).trans t.count_le
  next_pos := t.next_pos
  ordered := by
    intro i j hij hj
    rw [removedSlots_id, removedSlots_id]
    split_ifs <;> exact t.ordered _ _ (by omega) (by omega)
  fresh := by
    intro i hi
    rw [removedSlots_id]
    split_ifs <;> exact t.fresh _ (by omega)

end Table

section Operations

/-- What the system calls of `session_create` come back with. -/
structure CreateSys where
  /-- `time(NULL)`. -/
  time : Int
  /-- `malloc` of the stack succeeds. -/
  stack : Bool
  /-- The value of `clone`. -/
  childPid : Int

/-- The creation gets as far as writing a slot. -/
def createWrites (t : SessionTable) : Prop :=
  t.initialized = true ∧ t.count < sessionMaxActive

instance (t : SessionTable) : Decidable (createWrites t) :=
  inferInstanceAs (Decidable (_ ∧ _))

/--
`session_create` up to the unlock: the table, and the slot that the pointer `s` points
to when the session was created.
-/
def createLocked
    (t : SessionTable) (args : CreateArgs) (sys : CreateSys) :
    SessionTable × Option Nat :=
  if h : createWrites t then
    let s := startingEntry t.nextId sys.time args
    if sys.stack = false then (t.writeNext s, none)
    else if sys.childPid < 0 then (t.writeNext s, none)
    else (t.addSession { s with pid := sys.childPid, state := .active } h.2 rfl, some t.count)
  else (t, none)

/-- `session_create`, when nothing happens between the unlock and its last read. -/
def sessionCreate
    (t : SessionTable) (args : CreateArgs) (sys : CreateSys) :
    SessionTable × Int :=
  match createLocked t args sys with
  | (t', some idx) => (t', (t'.slots idx).id)
  | (t', none) => (t', -1)

/-- `session_destroy`. -/
def sessionDestroy (t : SessionTable) (id : Int) : SessionTable × Int :=
  match findSession t id with
  | none => (t, -1)
  | some idx => (t.remove idx, 0)

end Operations

section Lemmas

/-- A creation that is refused at once changes nothing. -/
theorem createLocked_of_not_writes
    {t : SessionTable}
    (h : ¬ createWrites t)
    (args : CreateArgs) (sys : CreateSys) :
    createLocked t args sys = (t, none) := by
  simp [createLocked, h]

/--
What a creation that is not refused leaves: its slot holds its id, which is the next one
from then on greater, and the other slots are as they were.
-/
theorem createLocked_spec
    {t : SessionTable}
    (h : createWrites t)
    (args : CreateArgs) (sys : CreateSys) :
    (∀ i, i ≠ t.count → (createLocked t args sys).1.slots i = t.slots i) ∧
      ((createLocked t args sys).1.slots t.count).id = t.nextId ∧
      (createLocked t args sys).1.nextId = t.nextId + 1 ∧
      ∀ idx, (createLocked t args sys).2 = some idx → idx = t.count := by
  unfold createLocked
  rw [dif_pos h]
  dsimp only
  split_ifs with hstack hpid
  · refine ⟨fun i hi => ?_, ?_, rfl, by simp⟩ <;>
      simp_all [SessionTable.writeNext, writeSlot, startingEntry]
  · refine ⟨fun i hi => ?_, ?_, rfl, by simp⟩ <;>
      simp_all [SessionTable.writeNext, writeSlot, startingEntry]
  · refine ⟨fun i hi => ?_, ?_, rfl, by simp [eq_comm]⟩ <;>
      simp_all [SessionTable.addSession, writeSlot, startingEntry]

end Lemmas

end Session
end SecureZ
