import SecureZ.Daemon.Messages
import SecureZ.Engine.CrypticEngine

/-!
# What the answers tell of the daemon

Between two requests the daemon keeps a table of sessions, a table of open containers and the
list of its secure allocations.  A client sees none of them: it sees its requests and the
answers.

A view is what can be computed from the exchanges so far, request by request, with the numbers
that stand in the answers.  The daemon serves each client in a thread of its own; here the
requests are served one after the other, each to its end before the next one begins.  The main
result is about every such run of requests, whatever their bytes and whatever the system does:
the view is what the tables hold, and the three reports that the daemon gives of itself say
just that.
-/

namespace SecureZ
namespace Daemon

open CLib Transition Session
open Container (ContainerTable ContainerInfo OpenSys CloseSys)
open SecureMemory (Memory secureAlloc secureFree emergencyWipe secureMemoryStats)
open CrypticEngine (AllOpened)

section Model

/-- What the system comes back with while a request is served. -/
structure ServeSys where
  /-- What the function returns that the request is for, where it works on files only. -/
  ret : Int
  /-- The text that `cryptic_hash_file` writes. -/
  hex : CString
  sys : CreateSys
  openSys : OpenSys
  closeSys : CloseSys
  closeAll : Nat → CloseSys
  /-- The key buffer of an encryption or a decryption, if it gets that far: its address, and
  whether the node of the tracker could be allocated. -/
  key : Option (Nat × Bool)
  pid : Int

/-- What the daemon keeps between two requests. -/
structure DaemonState where
  sessions : SessionTable
  containers : ContainerTable
  memory : Memory
  served : Nat

/-- The state after `cryptic_init`. -/
def DaemonState.start : DaemonState where
  sessions := sessionInit
  containers := Container.containerInit
  memory := .start true
  served := 0

/-- What a call does to the containers. -/
def containerOutcome
    (base : CString) (d : DaemonState) (r : ServeSys) : EngineCall → Option Container.Outcome
  | .containerOpen name _ =>
      some (Container.containerOpen d.containers base name d.served r.openSys)
  | .containerClose name => some (Container.containerClose d.containers name r.closeSys)
  | .emergencyWipe => some (Container.containerCloseAll d.containers r.closeAll)
  | _ => none

/-- The key buffer of `cryptic_encrypt_file` and `cryptic_decrypt_file`: every path that gets
it gives it back. -/
def keyBuffer (m : Memory) : Option (Nat × Bool) → Memory
  | none => m
  | some (addr, node) =>
      let a := secureAlloc m 32 (some addr) node
      secureFree a.2 a.1 32

/-- What a call does to the secure memory. -/
def memoryAfter (d : DaemonState) (r : ServeSys) : EngineCall → Memory
  | .encryptFile _ _ => keyBuffer d.memory r.key
  | .decryptFile _ _ => keyBuffer d.memory r.key
  | .emergencyWipe => emergencyWipe d.memory
  | _ => d.memory

/-- What comes back from the engine while a call is made. -/
def replyOf (base : CString) (d : DaemonState) (r : ServeSys) (c : EngineCall) :
    EngineReply where
  ret := ((containerOutcome base d r c).map Container.Outcome.status).getD r.ret
  hex := r.hex
  sys := r.sys
  containers := Container.containerList d.containers
  memCount := (secureMemoryStats d.memory).1.toNat
  memBytes := (secureMemoryStats d.memory).2.toNat
  pid := r.pid

/-- `handle_command`, with no other request served meanwhile: the state and the answer, none
where the counter of the session ids would overflow. -/
def serveRequest (base : CString) (d : DaemonState) (json : CString) (r : ServeSys) :
    Option (DaemonState × Bytes) :=
  match handleCommand json with
  | .refuse response => some ({ d with served := d.served + 1 }, response)
  | .call c =>
      (answer d.sessions (json, replyOf base d r c)).map fun a =>
        ({ sessions := a.1
           containers :=
            ((containerOutcome base d r c).map Container.Outcome.table).getD d.containers
           memory := memoryAfter d r c
           served := d.served + 1 }, a.2)

/-- A request with its answer. -/
abbrev Exchange := CString × Bytes

/-- A request in a run in which one is served after the other: the state, and the exchanges so
far. -/
def serveStep (base : CString) (s : DaemonState × List Exchange) (request : CString × ServeSys) :
    Option (DaemonState × List Exchange) :=
  (serveRequest base s.1 request.1 request.2).map fun a =>
    (a.1, s.2 ++ [(request.1, a.2)])

end Model

section Specification

/-- What a client knows: the ids of the sessions and the names of the open containers. -/
structure View where
  ids : List Int
  names : List CString
deriving DecidableEq

/-- A name as an entry of the table of containers keeps it. -/
def keptName (name : CString) : CString :=
  (CharArray.store Container.containerNameMax name).text

/-- The number in the answer to a `session_start`. -/
def sessionIdIn (response : Bytes) : Int :=
  extractInt (cstr response) (ascii "session_id")

/-- What an exchange tells about the sessions. -/
def observeIds (ids : List Int) (response : Bytes) : EngineCall → List Int
  | .sessionCreate => if reportsOk response then ids ++ [sessionIdIn response] else ids
  | .sessionDestroy id => if reportsOk response then ids.erase id else ids
  | .emergencyWipe => []
  | _ => ids

/-- What an exchange tells about the containers. -/
def observeNames (names : List CString) (response : Bytes) : EngineCall → List CString
  | .containerOpen name _ =>
      if reportsOk response ∧ name ∉ names then names ++ [keptName name] else names
  | .containerClose name => if reportsOk response then names.erase name else names
  | .emergencyWipe => []
  | _ => names

/-- What an exchange adds to what a client knows. -/
def View.observe (v : View) (x : Exchange) : View :=
  match handleCommand x.1 with
  | .refuse _ => v
  | .call c => ⟨observeIds v.ids x.2 c, observeNames v.names x.2 c⟩

/-- What a client knows after some exchanges. -/
def viewOf (exchanges : List Exchange) : View :=
  exchanges.foldl View.observe ⟨[], []⟩

/-- The ids that were given out in some exchanges. -/
def givenIds (exchanges : List Exchange) : List Int :=
  exchanges.filterMap fun x =>
    if handleCommand x.1 = .call .sessionCreate ∧ reportsOk x.2 then some (sessionIdIn x.2)
    else none

/-- What the system promises: `clone` returns a process of type `pid_t` in the parent, or
fails, and `getpid` returns one. -/
structure ServeSys.Plausible (r : ServeSys) : Prop where
  clone_ne : r.sys.childPid ≠ 0
  clone_le : r.sys.childPid ≤ intMax
  pid_pos : 0 < r.pid
  pid_le : r.pid ≤ intMax

/-- The listing of open containers without a bound on its length. -/
def containerItems (i : Nat) : List CString → Bytes
  | [] => []
  | n :: ns =>
      (if i > 0 then ascii "," else []) ++ ascii "\x7b\"name\":\"" ++ n.bytes ++
        ascii "\",\"state\":1\x7d" ++ containerItems (i + 1) ns

def containerListing (names : List CString) : Bytes :=
  ascii "\x7b\"status\":\"ok\",\"count\":" ++ decimal names.length ++
    ascii ",\"containers\":[" ++ containerItems 0 names ++ ascii "]\x7d"

/-- An answer to one of the three reports says what is known: the number of sessions and no
secure allocation; the sessions, as the shell reads them; the names of the containers. -/
def SaysKnown (v : View) (response : Bytes) : EngineCall → Prop
  | .status =>
      extractInt (cstr response) (ascii "active_sessions") = v.ids.length ∧
        extractInt (cstr response) (ascii "secure_allocs") = 0 ∧
        extractInt (cstr response) (ascii "secure_bytes") = 0
  | .sessionList =>
      ∃ rows : List Shell.StatusRow,
        rows.map Shell.StatusRow.id = v.ids ∧
          ∀ turns, v.ids.length < turns →
            Shell.securesessionStatus turns (Shell.sendCmdRead response) =
              some ⟨v.ids.length, rows⟩
  | .containerList => response = containerListing v.names
  | _ => True

end Specification

section Calls

variable {t t' : SessionTable} {json : CString} {reply : EngineReply} {response : Bytes}
variable {c : EngineCall}

/-- What an answer is when a call is made. -/
theorem answer_call
    (hcall : handleCommand json = .call c)
    (h : answer t (json, reply) = some (t', response)) :
    t' = tableAfter t reply c ∧ response = callResponse (reply.engine t) c ∧
      ¬ (c = .sessionCreate ∧ createWrites t ∧ t.nextId = intMax) := by
  unfold answer at h
  simp only [hcall] at h
  split_ifs at h with hlast
  obtain ⟨rfl, rfl⟩ := Prod.mk.inj (Option.some.inj h)
  exact ⟨rfl, rfl, hlast⟩

/-- A creation adds a session under the next id, or adds none and returns -1. -/
theorem sessionCreate_cases
    (t : SessionTable) (args : CreateArgs) (sys : CreateSys) :
    ((sessionCreate t args sys).1.sessions = t.sessions ∧ (sessionCreate t args sys).2 = -1 ∧
        t.nextId ≤ (sessionCreate t args sys).1.nextId) ∨
      ((sessionCreate t args sys).1.sessions = t.sessions ++ [activeEntry t.nextId args sys] ∧
        (sessionCreate t args sys).2 = t.nextId ∧
        (sessionCreate t args sys).1.nextId = t.nextId + 1) := by
  by_cases hw : createWrites t
  · by_cases hok : sys.stack = true ∧ 0 ≤ sys.childPid
    · rw [sessionCreate_done hw hok]
      exact .inr ⟨sessions_addSession t _ hw.2 rfl, rfl, rfl⟩
    · rw [sessionCreate_failed hw hok]
      exact .inl ⟨sessions_writeNext t _, rfl, Int.le_add_one le_rfl⟩
  · rw [sessionCreate, createLocked_of_not_writes hw]
    exact .inl ⟨rfl, rfl, le_rfl⟩

/-- The id in the answer is the one that `session_create` returned. -/
theorem sessionIdIn_started
    {e : Engine}
    (hok : 0 < e.returns .sessionCreate) (hle : e.returns .sessionCreate ≤ intMax) :
    sessionIdIn (callResponse e .sessionCreate) = e.returns .sessionCreate := by
  have hint : IsInt (e.returns .sessionCreate) := by
    rw [intMax] at hle
    exact ⟨by omega, by omega⟩
  have hresponse : callResponse e .sessionCreate =
      objectText [okPair, intPair (field "session_id") _ hint] := by
    simp only [callResponse, if_pos hok]
    exact started_object hint
  exact (extractInt_object (f := field "session_id") hresponse rfl).trans
    (DecimalInt.value_ofInt _ hint)

/-- What the sessions are after a call is what the exchange tells. -/
theorem ids_observed
    (hnext : t.nextId ≤ intMax)
    (hcall : handleCommand json = .call c)
    (h : answer t (json, reply) = some (t', response)) :
    t'.sessions.map SessionInfo.id = observeIds (t.sessions.map SessionInfo.id) response c := by
  obtain ⟨rfl, rfl, -⟩ := answer_call hcall h
  cases c with
  | sessionCreate =>
      have hok := reportsOk_callResponse t reply .sessionCreate
      have hreturns : (reply.engine t).returns .sessionCreate =
          (sessionCreate t ⟨none, 0, 0⟩ reply.sys).2 := rfl
      have hpos := t.next_pos
      simp only [Succeeds] at hok
      rw [observeIds, tableAfter]
      rcases sessionCreate_cases t ⟨none, 0, 0⟩ reply.sys with ⟨hsame, hret, -⟩ | ⟨hnew, hret, -⟩
      · rw [if_neg (by rw [hok, hret]; decide), hsame]
      · have hread := sessionIdIn_started (e := reply.engine t)
          (by rw [hreturns, hret]; exact hpos) (by rw [hreturns, hret]; exact hnext)
        rw [if_pos (by rw [hok, hret]; exact hpos), hread, hreturns, hret, hnew,
          List.map_append]
        rfl
  | sessionDestroy id =>
      obtain ⟨hsessions, -, -, hstatus⟩ := sessionDestroy_spec t id
      have hok := reportsOk_callResponse t reply (.sessionDestroy id)
      simp only [Succeeds, hstatus] at hok
      have hnodup : (t.sessions.map SessionInfo.id).Nodup := by
        rw [List.Nodup, List.pairwise_map]
        exact (sessions_increasing t).imp fun hab => hab.ne
      have herase : (tableAfter t reply (.sessionDestroy id)).sessions.map SessionInfo.id =
          (t.sessions.map SessionInfo.id).erase id := by
        rw [tableAfter, hsessions, hnodup.erase_eq_filter, List.filter_map]
        congr 1
        refine List.filter_congr fun e _ => ?_
        by_cases he : e.id = id <;> simp [he]
      rw [herase, observeIds]
      by_cases hfound : ∃ e ∈ t.sessions, e.id = id
      · rw [if_pos (hok.mpr (by rw [if_pos hfound]))]
      · rw [if_neg (by rw [hok, if_neg hfound]; decide), List.erase_of_not_mem]
        intro hmem
        obtain ⟨e, he, rfl⟩ := List.mem_map.mp hmem
        exact hfound ⟨e, he, rfl⟩
  | emergencyWipe =>
      rw [tableAfter, (sessionDestroyAll_spec t).1]
      rfl
  | _ => rfl

variable {base : CString} {d : DaemonState} {r : ServeSys}

/-- The names of the open containers. -/
def namesOf (t : ContainerTable) : List CString :=
  t.entries.map fun e => e.name.text

theorem isOpen_iff_mem
    {t : ContainerTable}
    (h : AllOpened t)
    (name : CString) :
    Container.isOpen t name ↔ name ∈ namesOf t := by
  constructor
  · rintro ⟨idx, hfind, -⟩
    obtain ⟨-, hname, hmem⟩ := Container.findContainer_spec hfind
    exact List.mem_map.mpr ⟨_, hmem, hname⟩
  · intro hmem
    obtain ⟨e, he, hname⟩ := List.mem_map.mp hmem
    by_contra hclosed
    have hnone := CrypticEngine.findContainer_of_closed h hclosed
    exact Container.findContainer_eq_none_iff.mp hnone e he hname

/-- What the containers are after a call is what the exchange tells. -/
theorem names_observed
    (hopened : AllOpened d.containers)
    (hcall : handleCommand json = .call c)
    (h : answer d.sessions (json, replyOf base d r c) = some (t', response)) :
    namesOf (((containerOutcome base d r c).map Container.Outcome.table).getD d.containers) =
      observeNames (namesOf d.containers) response c := by
  obtain ⟨-, rfl, -⟩ := answer_call hcall h
  have hok := reportsOk_callResponse d.sessions (replyOf base d r c) c
  cases c with
  | containerOpen name pw =>
      have hret : (replyOf base d r (.containerOpen name pw)).ret =
          (Container.containerOpen d.containers base name d.served r.openSys).status := rfl
      simp only [Succeeds] at hok
      rw [hret] at hok
      simp only [containerOutcome, Option.map_some, Option.getD_some, observeNames]
      have heffect :=
        Container.containerOpen_effect d.containers base name d.served r.openSys
      generalize Container.containerOpen d.containers base name d.served r.openSys = o
        at heffect hok ⊢
      cases heffect with
      | already hopen =>
          rw [if_neg fun hnew => hnew.2 ((isOpen_iff_mem hopened name).mp hopen)]
      | refused _ | locked _ _ | unmounted _ _ _ _ _ _ =>
          rw [if_neg fun hnew => absurd (hok.mp hnew.1) (by simp)]
      | opened hclosed _ _ =>
          have hnew : name ∉ namesOf d.containers :=
            fun hmem => hclosed ((isOpen_iff_mem hopened name).mpr hmem)
          rw [if_pos ⟨hok.mpr rfl, hnew⟩, namesOf, Container.entries_track
            (CrypticEngine.findContainer_of_closed hopened hclosed), List.map_append]
          rfl
  | containerClose name =>
      have hret : (replyOf base d r (.containerClose name)).ret =
          (Container.containerClose d.containers name r.closeSys).status := rfl
      simp only [Succeeds] at hok
      rw [hret] at hok
      simp only [containerOutcome, Option.map_some, Option.getD_some, observeNames]
      have heffect := Container.containerClose_effect d.containers name r.closeSys
      generalize Container.containerClose d.containers name r.closeSys = o at heffect hok ⊢
      cases heffect with
      | absent _ => rw [if_neg fun hclosed => absurd (hok.mp hclosed) (by simp)]
      | closed hfind _ =>
          rw [if_pos (hok.mpr rfl), namesOf, Container.entries_untrack hfind, namesOf,
            List.erase_eq_eraseP, List.eraseP_map]
          congr 2
          funext e
          by_cases he : name = e.name.text
          · simp [he]
          · simp [he, Ne.symm he]
  | emergencyWipe =>
      have hempty := (CrypticEngine.containerCloseAll_entries hopened r.closeAll).1
      simp only [containerOutcome, Option.map_some, Option.getD_some, observeNames, namesOf,
        hempty, List.map_nil]
  | _ => rfl

end Calls

section Listing

/-- The texts of some items from index `i` on, one behind the other. -/
def itemsText {α : Type} (item : Nat → α → Bytes) (i : Nat) : List α → Bytes
  | [] => []
  | e :: es => item i e ++ itemsText item (i + 1) es

/-- Where there is room for all items, the loop prints them all. -/
theorem printItems_of_room
    {α : Type} {item : Nat → α → Bytes} {respSize k : Nat} {p : Printer} {items : List α}
    (hitem : ∀ i, ∀ e ∈ items, (item i e).length ≤ k)
    (hend : p.AtEnd)
    (hroom : p.offset + k * items.length + 100 < respSize)
    (i : Nat) :
    (printItems respSize item p i items).AtEnd ∧
      (printItems respSize item p i items).text = p.text ++ itemsText item i items ∧
      (printItems respSize item p i items).offset ≤ p.offset + k * items.length := by
  induction items generalizing p i with
  | nil =>
      simpa [printItems, itemsText] using hend
  | cons e es ih =>
      have hlen := hitem i e List.mem_cons_self
      rw [List.length_cons, Nat.mul_succ] at hroom
      have hfits : p.offset + (item i e).length < respSize := by omega
      have hoffset : (p.print respSize (item i e)).offset = p.offset + (item i e).length := rfl
      obtain ⟨hend', htext, hle⟩ :=
        ih (fun j e' he' => hitem j e' (List.mem_cons_of_mem _ he')) (atEnd_print hend hfits)
          (by omega) (i + 1)
      rw [printItems, if_pos (by omega)]
      refine ⟨hend', ?_, ?_⟩
      · rw [htext, itemsText, ← List.append_assoc]
        congr 1
        exact printAt_of_fits hend hfits
      · rw [List.length_cons, Nat.mul_succ]
        omega

/-- The item of an open container. -/
theorem containerItem_opened
    {e : ContainerInfo}
    (h : e.state = .opened)
    (i : Nat) :
    containerItem i e =
      (if i > 0 then ascii "," else []) ++ ascii "\x7b\"name\":\"" ++ e.name.text.bytes ++
        ascii "\",\"state\":1\x7d" := by
  have hstate : ascii "\",\"state\":1\x7d" = ascii "\",\"state\":" ++ (intText 1 ++ ascii "\x7d") :=
    rfl
  rw [containerItem, h, stateText, hstate]
  simp only [List.append_assoc]

theorem itemsText_containers
    {entries : List ContainerInfo}
    (h : ∀ e ∈ entries, e.state = .opened)
    (i : Nat) :
    itemsText containerItem i entries =
      containerItems i (entries.map fun e => e.name.text) := by
  induction entries generalizing i with
  | nil =>
      rfl
  | cons e es ih =>
      rw [List.forall_mem_cons] at h
      rw [itemsText, List.map_cons, containerItems, ih h.2, containerItem_opened h.1]

/-- The listing of open containers is printed whole. -/
theorem containerListResponse_eq
    {t : ContainerTable}
    (hopened : AllOpened t) (hcount : t.entries.length ≤ Container.containerMaxActive) :
    containerListResponse respBufSize t.entries = containerListing (namesOf t) := by
  have hitem : ∀ i, ∀ e ∈ t.entries, (containerItem i e).length ≤ 85 := by
    intro i e he
    have hname : e.name.text.bytes.length < 64 := e.name.fits
    have hsep : (if i > 0 then ascii "," else []).length ≤ 1 := by split_ifs <;> decide
    have hfixed : (ascii "\x7b\"name\":\"").length = 9 ∧
        (ascii "\",\"state\":1\x7d").length = 12 := ⟨rfl, rfl⟩
    rw [containerItem_opened (hopened e he)]
    simp only [List.length_append]
    omega
  have hdigits : (decimal t.entries.length).length ≤ 2 :=
    length_decimal_le (by decide) (hcount.trans_lt (by decide))
  have hheader : (ascii "\x7b\"status\":\"ok\",\"count\":" ++ intText t.entries.length ++
      ascii ",\"containers\":[").length ≤ 40 := by
    have hfixed : (ascii "\x7b\"status\":\"ok\",\"count\":").length = 23 ∧
        (ascii ",\"containers\":[").length = 15 := ⟨rfl, rfl⟩
    simp only [intText_natCast, List.length_append]
    omega
  rw [Container.containerMaxActive] at hcount
  have hsize : respBufSize = 4096 := rfl
  have hstart : (Printer.mk [] 0).AtEnd := rfl
  have hclose : (ascii "]\x7d").length = 2 := rfl
  rw [containerListResponse]
  generalize hhead : ascii "\x7b\"status\":\"ok\",\"count\":" ++ intText t.entries.length ++
    ascii ",\"containers\":[" = header at hheader ⊢
  have hfits : 0 + header.length < respBufSize := by omega
  have htext : ((Printer.mk [] 0).print respBufSize header).text = header :=
    printAt_of_fits hstart hfits
  have hoffset : ((Printer.mk [] 0).print respBufSize header).offset = 0 + header.length := rfl
  have hroom : ((Printer.mk [] 0).print respBufSize header).offset + 85 * t.entries.length +
      100 < respBufSize := by
    omega
  obtain ⟨hend, hprinted, hle⟩ :=
    printItems_of_room hitem (atEnd_print hstart hfits) hroom 0
  rw [containerLoop_eq_printItems, printAt_of_fits hend (by omega), hprinted, htext,
    itemsText_containers hopened, ← hhead, intText_natCast, containerListing, namesOf,
    List.length_map]

end Listing

section Invariant

/-- The key buffer leaves no trace in an empty list. -/
theorem tracker_keyBuffer
    {m : Memory}
    (h : m.tracker.allocList = [])
    (key : Option (Nat × Bool)) :
    (keyBuffer m key).tracker = m.tracker := by
  obtain ⟨⟨initialized, nodes, count, total⟩, live, allocs⟩ := m
  obtain rfl : nodes = [] := h
  rcases key with _ | ⟨addr, node⟩
  · rfl
  · cases initialized with
    | false => rfl
    | true =>
        cases node with
        | false => rfl
        | true =>
            have hsize : SecureMemory.mayAllocate ⟨true, [], count, total⟩ 32 = true := rfl
            simp only [keyBuffer, secureAlloc, hsize, if_true, secureFree,
              SecureMemory.trackerRemove, SecureMemory.trackerAdd, List.any_cons,
              SecureMemory.AllocNode.isAt, beq_self_eq_true, Bool.true_or, List.eraseP_cons,
              cond_true, BitVec.add_sub_cancel]

/-- The state is what a client knows. -/
structure Known (d : DaemonState) (v : View) : Prop where
  ids : d.sessions.sessions.map SessionInfo.id = v.ids
  names : namesOf d.containers = v.names
  startable : Startable d.sessions
  opened : AllOpened d.containers
  room : d.containers.entries.length ≤ Container.containerMaxActive
  listed : d.memory.tracker.allocList = []
  stats : secureMemoryStats d.memory = (0, 0)

theorem known_start : Known .start ⟨[], []⟩ where
  ids := by simp [DaemonState.start, SessionTable.sessions, sessionInit]
  names := by simp [namesOf, DaemonState.start, Container.containerInit, ContainerTable.entries]
  startable := ⟨by simp [DaemonState.start, SessionTable.sessions, sessionInit], by decide⟩
  opened := by
    simp [AllOpened, DaemonState.start, Container.containerInit, ContainerTable.entries]
  room := by simp [DaemonState.start, Container.containerInit, ContainerTable.entries]
  listed := rfl
  stats := rfl

variable {base : CString} {d d' : DaemonState} {v : View} {json : CString} {r : ServeSys}
variable {response : Bytes} {c : EngineCall}

/-- The calls of the daemon leave sessions that were started. -/
theorem startable_tableAfter
    {t : SessionTable} {reply : EngineReply}
    (h : Startable t)
    (hsys : reply.sys.childPid ≠ 0 ∧ reply.sys.childPid ≤ intMax)
    (hlast : ¬ (c = .sessionCreate ∧ createWrites t ∧ t.nextId = intMax)) :
    Startable (tableAfter t reply c) := by
  cases c with
  | sessionCreate =>
      exact startable_create h ⟨rfl, hsys⟩ fun hnext => hlast ⟨rfl, hnext⟩
  | sessionDestroy id =>
      obtain ⟨hsessions, hnextId, -⟩ := sessionDestroy_spec t id
      refine startable_of_subset h (fun e he => ?_) hnextId
      rw [tableAfter, hsessions] at he
      exact List.mem_of_mem_filter he
  | emergencyWipe =>
      obtain ⟨hsessions, hnextId, -⟩ := sessionDestroyAll_spec t
      exact startable_of_subset h (by simp [tableAfter, hsessions]) hnextId
  | _ => exact h

/-- A call keeps the containers open, and no more than there is room for. -/
theorem containers_after
    (hopened : AllOpened d.containers)
    (hroom : d.containers.entries.length ≤ Container.containerMaxActive) :
    AllOpened (((containerOutcome base d r c).map Container.Outcome.table).getD d.containers) ∧
      (((containerOutcome base d r c).map Container.Outcome.table).getD
        d.containers).entries.length ≤ Container.containerMaxActive := by
  cases c with
  | containerOpen name pw =>
      refine ⟨CrypticEngine.allOpened_containerOpen hopened _ _ _ _, ?_⟩
      simp only [containerOutcome, Option.map_some, Option.getD_some]
      have heffect :=
        Container.containerOpen_effect d.containers base name d.served r.openSys
      generalize Container.containerOpen d.containers base name d.served r.openSys = o
        at heffect ⊢
      cases heffect with
      | already _ | refused _ | locked _ _ | unmounted _ _ _ _ _ _ => exact hroom
      | opened hclosed hfree _ =>
          have hnone := CrypticEngine.findContainer_of_closed hopened hclosed
          have hlt := hfree hnone
          rw [Container.entries_track hnone, List.length_append, List.length_singleton,
            Container.length_entries]
          omega
  | containerClose name =>
      refine ⟨CrypticEngine.allOpened_containerClose hopened _ _, ?_⟩
      simp only [containerOutcome, Option.map_some, Option.getD_some]
      have heffect := Container.containerClose_effect d.containers name r.closeSys
      generalize Container.containerClose d.containers name r.closeSys = o at heffect ⊢
      cases heffect with
      | absent _ => exact hroom
      | closed hfind _ =>
          rw [Container.entries_untrack_idx hfind]
          exact (List.length_eraseIdx_le _ _).trans hroom
  | emergencyWipe =>
      have hempty := (CrypticEngine.containerCloseAll_entries hopened r.closeAll).1
      simp [containerOutcome, AllOpened, hempty]
  | _ => exact ⟨hopened, hroom⟩

/-- Serving a request keeps the state known. -/
theorem known_serve
    (h : Known d v)
    (hsys : r.Plausible)
    (hserve : serveRequest base d json r = some (d', response)) :
    Known d' (v.observe (json, response)) := by
  unfold serveRequest at hserve
  unfold View.observe
  cases hcall : handleCommand json with
  | refuse refused =>
      simp only [hcall, Option.some.injEq] at hserve
      obtain ⟨rfl, rfl⟩ := Prod.mk.inj hserve
      exact ⟨h.ids, h.names, h.startable, h.opened, h.room, h.listed, h.stats⟩
  | call c =>
      simp only [hcall] at hserve
      obtain ⟨⟨t, resp⟩, hanswer, heq⟩ := Option.map_eq_some_iff.mp hserve
      obtain ⟨rfl, rfl⟩ := Prod.mk.inj heq
      obtain ⟨ht, -, hlast⟩ := answer_call hcall hanswer
      have hids := ids_observed h.startable.nextId_le hcall hanswer
      have hnames := names_observed h.opened hcall hanswer
      obtain ⟨hopened, hroom⟩ := containers_after h.opened h.room
      rw [h.ids] at hids
      rw [h.names] at hnames
      have hmemory : (memoryAfter d r c).tracker.allocList = [] ∧
          secureMemoryStats (memoryAfter d r c) = (0, 0) := by
        cases c with
        | encryptFile _ _ | decryptFile _ _ =>
            have hsame := tracker_keyBuffer h.listed r.key
            simp only [memoryAfter, secureMemoryStats, hsame]
            exact ⟨h.listed, h.stats⟩
        | emergencyWipe => exact ⟨rfl, rfl⟩
        | _ => exact ⟨h.listed, h.stats⟩
      refine ⟨hids, hnames, ?_, hopened, hroom, hmemory.1, hmemory.2⟩
      rw [ht]
      exact startable_tableAfter h.startable ⟨hsys.clone_ne, hsys.clone_le⟩ hlast

/-- The ids that were given out grow, and the next one is above them. -/
structure Given (d : DaemonState) (exchanges : List Exchange) : Prop where
  ordered : (givenIds exchanges).Pairwise (· < ·)
  below : ∀ id ∈ givenIds exchanges, id < d.sessions.nextId

theorem givenIds_append
    (exchanges : List Exchange) (x : Exchange) :
    givenIds (exchanges ++ [x]) = givenIds exchanges ++ givenIds [x] := by
  rw [givenIds, List.filterMap_append]
  rfl

/-- No call takes the next id back. -/
theorem nextId_le_tableAfter
    (t : SessionTable) (reply : EngineReply) (c : EngineCall) :
    t.nextId ≤ (tableAfter t reply c).nextId := by
  cases c with
  | sessionCreate =>
      rcases sessionCreate_cases t ⟨none, 0, 0⟩ reply.sys with ⟨-, -, hle⟩ | ⟨-, -, hnext⟩
      · exact hle
      · rw [tableAfter, hnext]
        omega
  | sessionDestroy id => exact (sessionDestroy_spec t id).2.1.ge
  | emergencyWipe => exact (sessionDestroyAll_spec t).2.1.ge
  | _ => exact le_rfl

/-- What an exchange gives out is the next id, which is then counted. -/
theorem givenIds_serve
    (hnext : d.sessions.nextId ≤ intMax)
    (hserve : serveRequest base d json r = some (d', response)) :
    givenIds [(json, response)] = [] ∧ d.sessions.nextId ≤ d'.sessions.nextId ∨
      givenIds [(json, response)] = [d.sessions.nextId] ∧
        d.sessions.nextId < d'.sessions.nextId := by
  unfold serveRequest at hserve
  cases hcall : handleCommand json with
  | refuse refused =>
      simp only [hcall, Option.some.injEq] at hserve
      obtain ⟨rfl, -⟩ := Prod.mk.inj hserve
      exact .inl ⟨by simp [givenIds, hcall], le_rfl⟩
  | call c =>
      simp only [hcall] at hserve
      obtain ⟨⟨t, resp⟩, hanswer, heq⟩ := Option.map_eq_some_iff.mp hserve
      obtain ⟨rfl, rfl⟩ := Prod.mk.inj heq
      obtain ⟨rfl, rfl, -⟩ := answer_call hcall hanswer
      have hle := nextId_le_tableAfter d.sessions (replyOf base d r c) c
      by_cases hcreate : c = .sessionCreate
      · subst hcreate
        have hok := reportsOk_callResponse d.sessions (replyOf base d r .sessionCreate)
          .sessionCreate
        have hreturns : ((replyOf base d r .sessionCreate).engine d.sessions).returns
            .sessionCreate = (sessionCreate d.sessions ⟨none, 0, 0⟩ r.sys).2 := rfl
        have hsys : (replyOf base d r .sessionCreate).sys = r.sys := rfl
        have hpos := d.sessions.next_pos
        simp only [Succeeds, hsys] at hok
        simp only [givenIds, List.filterMap_cons, List.filterMap_nil, hcall, true_and]
        rcases sessionCreate_cases d.sessions ⟨none, 0, 0⟩ r.sys with
          ⟨-, hret, -⟩ | ⟨-, hret, hcount⟩
        · rw [if_neg (by rw [hok, hret]; decide)]
          exact .inl ⟨rfl, hle⟩
        · have hread := sessionIdIn_started
            (e := (replyOf base d r .sessionCreate).engine d.sessions)
            (by rw [hreturns, hret]; exact hpos) (by rw [hreturns, hret]; exact hnext)
          rw [if_pos (by rw [hok, hret]; exact hpos), hread, hreturns, hret]
          refine .inr ⟨rfl, ?_⟩
          rw [tableAfter, hsys, hcount]
          omega
      · refine .inl ⟨?_, hle⟩
        simp [givenIds, hcall, hcreate]

/-- What an exchange gives out is new. -/
theorem given_serve
    {exchanges : List Exchange}
    (h : Given d exchanges)
    (hnext : d.sessions.nextId ≤ intMax)
    (hserve : serveRequest base d json r = some (d', response)) :
    Given d' (exchanges ++ [(json, response)]) := by
  rcases givenIds_serve hnext hserve with ⟨hnone, hle⟩ | ⟨hone, hlt⟩
  · constructor
    · rw [givenIds_append, hnone, List.append_nil]
      exact h.ordered
    · rw [givenIds_append, hnone, List.append_nil]
      exact fun id hid => (h.below id hid).trans_le hle
  · constructor
    · rw [givenIds_append, hone, List.pairwise_append]
      refine ⟨h.ordered, List.pairwise_singleton _ _, fun a ha b hb => ?_⟩
      rw [List.mem_singleton.mp hb]
      exact h.below a ha
    · rw [givenIds_append, hone, List.forall_mem_append, List.forall_mem_singleton]
      exact ⟨fun id hid => (h.below id hid).trans hlt, hlt⟩

/-- A run of requests keeps both. -/
theorem known_run
    {requests : List (CString × ServeSys)} {d d' : DaemonState}
    {exchanges exchanges' : List Exchange}
    (hsys : ∀ q ∈ requests, q.2.Plausible)
    (h : Known d (viewOf exchanges)) (hgiven : Given d exchanges)
    (hrun : run (serveStep base) (d, exchanges) requests = some (d', exchanges')) :
    Known d' (viewOf exchanges') ∧ Given d' exchanges' := by
  induction requests generalizing d exchanges with
  | nil =>
      obtain ⟨rfl, rfl⟩ := Prod.mk.inj (Option.some.inj hrun)
      exact ⟨h, hgiven⟩
  | cons q requests ih =>
      obtain ⟨⟨d₁, exchanges₁⟩, hstep, hrest⟩ := run_cons_eq_some.mp hrun
      obtain ⟨⟨d₂, response⟩, hserve, heq⟩ := Option.map_eq_some_iff.mp hstep
      obtain ⟨rfl, rfl⟩ := Prod.mk.inj heq
      rw [List.forall_mem_cons] at hsys
      refine ih hsys.2 ?_ (given_serve hgiven h.startable.nextId_le hserve) hrest
      rw [viewOf, List.foldl_append]
      exact known_serve h hsys.1 hserve

/-- An answer to a report says what is known. -/
theorem saysKnown_of_known
    (h : Known d v)
    (hsys : r.Plausible)
    (hcall : handleCommand json = .call c)
    (hserve : serveRequest base d json r = some (d', response)) :
    SaysKnown v response c := by
  unfold serveRequest at hserve
  simp only [hcall] at hserve
  obtain ⟨⟨t, resp⟩, hanswer, heq⟩ := Option.map_eq_some_iff.mp hserve
  obtain ⟨-, rfl⟩ := Prod.mk.inj heq
  obtain ⟨-, rfl, -⟩ := answer_call hcall hanswer
  have hcount : d.sessions.sessions.length ≤ sessionMaxActive :=
    (length_sessions d.sessions).trans_le d.sessions.count_le
  have hids : d.sessions.sessions.length = v.ids.length := by
    rw [← h.ids, List.length_map]
  cases c with
  | status =>
      have hpid := hsys.pid_le
      have hpos := hsys.pid_pos
      rw [intMax] at hpid
      rw [sessionMaxActive] at hcount
      obtain ⟨hallocs, hbytes⟩ := Prod.mk.inj h.stats
      have hzero : ((replyOf base d r .status).engine d.sessions).secureAllocs = 0 ∧
          ((replyOf base d r .status).engine d.sessions).secureBytes = 0 := by
        constructor
        · exact congrArg BitVec.toNat hallocs
        · exact congrArg BitVec.toNat hbytes
      have hprint : Printable ((replyOf base d r .status).engine d.sessions) := by
        refine ⟨?_, ?_, ?_, ?_⟩
        · rw [hzero.1]
          exact ⟨by decide, by decide⟩
        · rw [hzero.2]
          exact ⟨by decide, by decide⟩
        · have hlist : ((replyOf base d r .status).engine d.sessions).sessions.length ≤ 16 :=
            hcount
          exact ⟨by omega, by omega⟩
        · have hsame : ((replyOf base d r .status).engine d.sessions).daemonPid = r.pid := rfl
          rw [hsame]
          exact ⟨by omega, by omega⟩
      have hobject := status_object hprint
      refine ⟨?_, ?_, ?_⟩
      · refine (extractInt_object (f := field "active_sessions") hobject rfl).trans ?_
        rw [DecimalInt.value_ofInt, ← hids]
        rfl
      · refine (extractInt_object (f := field "secure_allocs") hobject rfl).trans ?_
        rw [DecimalInt.value_ofInt, hzero.1]
        rfl
      · refine (extractInt_object (f := field "secure_bytes") hobject rfl).trans ?_
        rw [DecimalInt.value_ofInt, hzero.2]
        rfl
  | sessionList =>
      obtain ⟨hwhole, hfits, -⟩ := sessionListResponse_spec hcount h.startable.started
      refine ⟨d.sessions.sessions.map rowOf, ?_, fun turns hturns => ?_⟩
      · rw [List.map_map, ← h.ids]
        rfl
      · have hread : Shell.sendCmdRead
            (callResponse ((replyOf base d r .sessionList).engine d.sessions) .sessionList) =
              listingText d.sessions.sessions := by
          have hresponse :
              callResponse ((replyOf base d r .sessionList).engine d.sessions) .sessionList =
                (sessionListResponse respBufSize d.sessions.sessions).text := rfl
          rw [respBufSize] at hfits
          rw [hresponse, Shell.sendCmdRead,
            List.take_of_length_le (by rw [respBufSize]; omega), hwhole]
        rw [hread, ← hids]
        exact securesessionStatus_listingText hcount h.startable.started (by omega)
  | containerList =>
      have hresponse :
          callResponse ((replyOf base d r .containerList).engine d.sessions) .containerList =
            containerListResponse respBufSize d.containers.entries := rfl
      rw [SaysKnown, hresponse, containerListResponse_eq h.opened h.room, h.names]
  | _ => trivial

end Invariant

/--
**The answers tell the state.**

After every run of requests that are served one after the other, whatever their bytes and
whatever the system does, as long as the counter of the session ids does not overflow, the ids
in the table of sessions and the names in the table of containers are those that a client
computes from the exchanges alone; whatever comes next, a status counts just these sessions and
no secure allocation, and the two listings give just these ids and names.  The ids that were
given out grow from one to the next.
-/
theorem answers_tell_state
    (base : CString) (requests : List (CString × ServeSys)) (d : DaemonState)
    (exchanges : List Exchange)
    (hsys : ∀ q ∈ requests, q.2.Plausible)
    (hrun : run (serveStep base) (.start, []) requests = some (d, exchanges)) :
    d.sessions.sessions.map SessionInfo.id = (viewOf exchanges).ids ∧
      namesOf d.containers = (viewOf exchanges).names ∧
      (∀ json r c d' response,
        r.Plausible → handleCommand json = .call c →
          serveRequest base d json r = some (d', response) →
            SaysKnown (viewOf exchanges) response c) ∧
      (givenIds exchanges).Pairwise (· < ·) := by
  obtain ⟨hknown, hgiven⟩ :=
    known_run hsys known_start ⟨List.Pairwise.nil, by simp [givenIds]⟩ hrun
  exact ⟨hknown.ids, hknown.names,
    fun _ _ _ _ _ hr hcall hserve => saysKnown_of_known hknown hr hcall hserve, hgiven.ordered⟩

section Examples

/-- A system in which everything succeeds. -/
def calmSys : ServeSys where
  ret := 0
  hex := cstr []
  sys := ⟨0, true, 100⟩
  openSys := ⟨true, true, true, true, true⟩
  closeSys := ⟨true, true⟩
  closeAll := fun _ => ⟨true, true⟩
  key := none
  pid := 1

theorem calmSys_calm : calmSys.Plausible :=
  ⟨by decide, by decide, by decide, by decide⟩

/-- Two sessions are started, the first is ended, and a container is opened. -/
def sampleRequests : List (CString × ServeSys) :=
  [(cstr (ascii "\x7b\"cmd\":\"session_start\"\x7d"), calmSys),
    (cstr (ascii "\x7b\"cmd\":\"session_start\"\x7d"), calmSys),
    (cstr (ascii "\x7b\"cmd\":\"session_end\",\"id\":1\x7d"), calmSys),
    (cstr (ascii "\x7b\"cmd\":\"container_open\",\"name\":\"v\",\"password\":\"p\"\x7d"), calmSys)]

/-- One session and one container are left, and the answers tell so. -/
theorem sample_answers_tell_state :
    ∃ d exchanges,
      run (serveStep (cstr (ascii "/root"))) (.start, []) sampleRequests = some (d, exchanges) ∧
        viewOf exchanges = ⟨[2], [cstr (ascii "v")]⟩ ∧
        d.sessions.sessions.map SessionInfo.id = (viewOf exchanges).ids := by
  have hview : (run (serveStep (cstr (ascii "/root"))) (.start, []) sampleRequests).map
      (fun s => viewOf s.2) = some ⟨[2], [cstr (ascii "v")]⟩ := by
    decide +kernel
  obtain ⟨⟨d, exchanges⟩, hrun, hknown⟩ := Option.map_eq_some_iff.mp hview
  have hsys : ∀ q ∈ sampleRequests, q.2.Plausible := by
    intro q hq
    simp only [sampleRequests, List.mem_cons, List.not_mem_nil, or_false] at hq
    rcases hq with rfl | rfl | rfl | rfl <;> exact calmSys_calm
  exact ⟨d, exchanges, hrun, hknown,
    (answers_tell_state _ sampleRequests d exchanges hsys hrun).1⟩

end Examples

end Daemon
end SecureZ
