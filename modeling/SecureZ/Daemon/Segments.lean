import SecureZ.Daemon.SessionListing
import SecureZ.Engine.HiddenContainer

/-!
# A request in several segments

`client_handler` reads from its socket once and answers what it got.  The client marks the
end of its request by shutting its side down, but the daemon does not wait for that: when
the stream delivers the request in several reads, the answer is one to the first of them.

The responses are those of `handle_command`, from what the engine returns to it.  The main
result says for which deliveries of a request the whole of it is answered.
-/

namespace SecureZ
namespace Daemon

open CLib
open Container
open Session

/-- `CMD_BUF_SIZE`. -/
def cmdBufSize : Nat := 4096

section Responses

/-- What the engine tells `handle_command`. -/
structure Engine where
  /-- `secure_memory_stats`. -/
  secureAllocs : Nat
  secureBytes : Nat
  /-- `getpid`. -/
  daemonPid : Int
  /-- `session_list`. -/
  sessions : List SessionInfo
  /-- `container_list`. -/
  containers : List ContainerInfo
  /-- `cryptic_hash_file`: the digits, none when it fails. -/
  hashFile : CString → Option Bytes
  /-- The return value of any other call. -/
  returns : EngineCall → Int

/-- The output of `%d` for a state. -/
def stateText : ContainerState → Bytes
  | .closed => intText 0
  | .opened => intText 1
  | .error => intText 2

/-- What is printed for the container at index `i`. -/
def containerItem (i : Nat) (c : ContainerInfo) : Bytes :=
  (if i > 0 then ascii "," else []) ++ ascii "\x7b\"name\":\"" ++ c.name.text.bytes ++
    ascii "\",\"state\":" ++ stateText c.state ++ ascii "\x7d"

/-- The loop over the containers from index `i` on. -/
def containerLoop (respSize : Nat) (p : Printer) (i : Nat) : List ContainerInfo → Printer
  | [] => p
  | c :: cs =>
      if p.offset < respSize - 100 then
        containerLoop respSize (p.print respSize (containerItem i c)) (i + 1) cs
      else p

/-- `handle_command` for `container_list`, with what `container_list` has copied. -/
def containerListResponse (respSize : Nat) (containers : List ContainerInfo) : Bytes :=
  let header :=
    ascii "\x7b\"status\":\"ok\",\"count\":" ++ intText containers.length ++
      ascii ",\"containers\":["
  let p := containerLoop respSize ((Printer.mk [] 0).print respSize header) 0 containers
  printAt respSize p (ascii "]\x7d")

/-- `handle_command` for `status`. -/
def statusResponse (e : Engine) : Bytes :=
  snprintf respBufSize
    (ascii "\x7b\"status\":\"ok\",\"version\":\"1.0.0\",\"secure_allocs\":" ++
      decimal e.secureAllocs ++ ascii ",\"secure_bytes\":" ++ decimal e.secureBytes ++
      ascii ",\"active_sessions\":" ++ intText e.sessions.length ++ ascii ",\"daemon_pid\":" ++
      intText e.daemonPid ++ ascii "\x7d")

/-- The response that tells whether a call returned 0. -/
def returnResponse (ret : Int) : Bytes :=
  snprintf respBufSize
    (ascii "\x7b\"status\":\"" ++ ascii (if ret = 0 then "ok" else "error") ++ ascii "\"\x7d")

/-- The response of `handle_command` behind a call into the engine. -/
def callResponse (e : Engine) : EngineCall → Bytes
  | .status => statusResponse e
  | .hashFile path =>
      match e.hashFile path with
      | some hex =>
          snprintf respBufSize
            (ascii "\x7b\"status\":\"ok\",\"hash\":\"" ++ hex ++ ascii "\"\x7d")
      | none => errorResponse (ascii "hash failed")
  | .sessionCreate =>
      if e.returns .sessionCreate > 0 then
        snprintf respBufSize
          (ascii "\x7b\"status\":\"ok\",\"session_id\":" ++ intText (e.returns .sessionCreate) ++
            ascii "\x7d")
      else errorResponse (ascii "session creation failed")
  | .sessionList => (sessionListResponse respBufSize e.sessions).text
  | .containerList => containerListResponse respBufSize e.containers
  | .emergencyWipe =>
      snprintf respBufSize (ascii "\x7b\"status\":\"ok\",\"msg\":\"all data wiped\"\x7d")
  | call => returnResponse (e.returns call)

/-- The response of `handle_command`. -/
def commandResponse (e : Engine) (json : CString) : Bytes :=
  match handleCommand json with
  | .refuse response => response
  | .call c => callResponse e c

end Responses

section Model

/-- What a client is served: the text that `handle_command` was given, and its response. -/
structure Served where
  request : CString
  response : Bytes
deriving DecidableEq

/-- `handle_command` on a request. -/
def serve (e : Engine) (json : CString) : Served :=
  ⟨json, commandResponse e json⟩

/-- `client_handler`, from what the successive reads of its socket would return; the list
ends where a read returns 0. -/
def clientHandler (e : Engine) (reads : List Bytes) : Option Served :=
  match reads with
  | [] => none
  | data :: _ => some (serve e (cstr (data.take (cmdBufSize - 1))))

/-- A way in which the socket delivers a request: every read returns something, and together
they return the request. -/
structure Delivery (request : Bytes) where
  reads : List Bytes
  nonempty : ∀ data ∈ reads, data ≠ []
  whole : reads.flatten = request

/-- The response that is sent is the one for the whole request. -/
def AnsweredWhole (e : Engine) (request : Bytes) (d : Delivery request) : Prop :=
  clientHandler e d.reads = some (serve e (cstr request))

/-- The first read returns the request at least up to its end as a string. -/
def FirstReadWhole (request : Bytes) (d : Delivery request) : Prop :=
  ∃ data, d.reads.head? = some data ∧ (cstr request).strlen ≤ data.length

end Model

section Prefixes

/-- The beginning of a buffer is the same string as the buffer exactly when the string ends
in it. -/
theorem cstr_eq_cstr_append_iff
    (data rest : Bytes) :
    cstr data = cstr (data ++ rest) ↔ (cstr (data ++ rest)).strlen ≤ data.length := by
  constructor
  · intro h
    rw [← h]
    exact cstr_length_le data
  · intro h
    ext1
    by_cases hnul : ∀ b ∈ data, (b != 0) = true
    · have happend :
          (cstr (data ++ rest)).bytes = data ++ rest.takeWhile (fun b => b != 0) :=
        List.takeWhile_append_of_pos hnul
      rw [CString.strlen, happend, List.length_append] at h
      have hnil : rest.takeWhile (fun b => b != 0) = [] :=
        List.eq_nil_of_length_eq_zero (by omega)
      rw [happend, hnil, List.append_nil]
      exact List.takeWhile_eq_self_iff.mpr hnul
    · have hshort : ¬ (data.takeWhile (fun b => b != 0)).length = data.length := by
        intro hlen
        have hall := List.IsPrefix.eq_of_length (List.takeWhile_prefix _) hlen
        exact hnul (List.takeWhile_eq_self_iff.mp hall)
      simp only [cstr]
      rw [List.takeWhile_append, if_neg hshort]

end Prefixes

/--
**Requests in segments.**

The response to a request that fits the buffer is the one for the whole request if and only
if the first read returns the whole of it.
-/
theorem answered_whole_iff
    (e : Engine) (request : Bytes)
    (hfits : request.length ≤ cmdBufSize - 1)
    (d : Delivery request) :
    AnsweredWhole e request d ↔ FirstReadWhole request d := by
  obtain ⟨reads, hnonempty, rfl⟩ := d
  cases reads with
  | nil =>
      simp [AnsweredWhole, FirstReadWhole, clientHandler]
  | cons data rest =>
      rw [List.flatten_cons, List.length_append] at hfits
      have hread : data.take (cmdBufSize - 1) = data :=
        List.take_of_length_le (by omega)
      have hserve :
          ∀ s t : CString, serve e s = serve e t ↔ s = t := by
        intro s t
        constructor
        · exact fun h => congrArg Served.request h
        · rintro rfl
          rfl
      simp only [AnsweredWhole, FirstReadWhole, clientHandler, hread, Option.some.injEq, hserve,
        List.head?_cons, exists_eq_left', List.flatten_cons]
      exact cstr_eq_cstr_append_iff data rest.flatten

section Examples

/-- An engine with nothing in it. -/
def quietEngine : Engine where
  secureAllocs := 0
  secureBytes := 0
  daemonPid := 1
  sessions := []
  containers := []
  hashFile := fun _ => none
  returns := fun _ => 0

/-- The request for the status. -/
def statusRequest : Bytes := ascii "\x7b\"cmd\":\"status\"\x7d"

/-- The request in one read. -/
def inOneRead : Delivery statusRequest where
  reads := [statusRequest]
  nonempty := by decide
  whole := by decide

/-- The request in two reads. -/
def inTwoReads : Delivery statusRequest where
  reads := [ascii "\x7b\"cmd\":\"sta", ascii "tus\"\x7d"]
  nonempty := by decide
  whole := by decide

theorem one_read_answered :
    AnsweredWhole quietEngine statusRequest inOneRead :=
  (answered_whole_iff quietEngine statusRequest (by decide) inOneRead).mpr
    ⟨statusRequest, rfl, by decide⟩

/-- The daemon answers the first of two reads: the command is not found in it. -/
theorem two_reads_not_answered :
    (clientHandler quietEngine inTwoReads.reads).map Served.response =
        some (errorResponse (ascii "missing cmd field")) ∧
      commandResponse quietEngine (cstr statusRequest) = statusResponse quietEngine ∧
      ¬ AnsweredWhole quietEngine statusRequest inTwoReads := by
  refine ⟨by decide +kernel, by decide +kernel, fun h => ?_⟩
  have htext := congrArg (Option.map Served.request) h
  exact absurd htext (by decide +kernel)

end Examples

end Daemon
end SecureZ
