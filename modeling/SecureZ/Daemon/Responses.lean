import SecureZ.Daemon.Segments

/-!
# What the daemon answers

`handle_command` of `crypticd.c` prints its answer into a buffer of 4096 bytes.  The shell
takes an answer for a success when it finds `"ok"` in it, with its quotes, anywhere.  Some
answers repeat text that came with the request: the name of an unknown command, and the
names of sessions and containers.

Requests are served one after the other on the table of sessions; what the other functions
of the engine return is given with each request.  The main result holds of every answer of
every run: it has `"ok"` in it exactly when a known command came with its fields and what it
calls succeeded, and no part of the answer that a client reads has it otherwise.
-/

namespace SecureZ
namespace Daemon

open CLib Transition Session

section Model

/-- What the engine and the system come back with while a request is served. -/
structure EngineReply where
  /-- What the function returns that the request is for, where it works on no session. -/
  ret : Int
  /-- The text that `cryptic_hash_file` writes. -/
  hex : CString
  /-- What the system calls of `session_create` come back with. -/
  sys : CreateSys
  /-- What `container_list` copies. -/
  containers : List Container.ContainerInfo
  /-- The two numbers of `secure_memory_stats`. -/
  memCount : Nat
  memBytes : Nat
  pid : Int

/-- What the engine tells while a request is served on a table of sessions. -/
def EngineReply.engine (t : SessionTable) (r : EngineReply) : Engine where
  secureAllocs := r.memCount
  secureBytes := r.memBytes
  daemonPid := r.pid
  sessions := sessionList t
  containers := r.containers
  hashFile := fun _ => if r.ret = 0 then some r.hex.bytes else none
  returns
    | .sessionCreate => (sessionCreate t ⟨none, 0, 0⟩ r.sys).2
    | .sessionDestroy id => (sessionDestroy t id).2
    | _ => r.ret

/-- The table of sessions behind a call. -/
def tableAfter (t : SessionTable) (r : EngineReply) : EngineCall → SessionTable
  | .sessionCreate => (sessionCreate t ⟨none, 0, 0⟩ r.sys).1
  | .sessionDestroy id => (sessionDestroy t id).1
  | .emergencyWipe => sessionDestroyAll t
  | _ => t

/-- `handle_command`: the table of sessions and the answer.  Counting the next id up past
`INT_MAX` has no meaning in C. -/
def answer (t : SessionTable) (request : CString × EngineReply) :
    Option (SessionTable × Bytes) :=
  match handleCommand request.1 with
  | .refuse response => some (t, response)
  | .call c =>
      if c = .sessionCreate ∧ createWrites t ∧ t.nextId = intMax then none
      else some (tableAfter t request.2 c, callResponse (request.2.engine t) c)

/-- A request in a run of the daemon. -/
def answerStep (t : SessionTable) (request : CString × EngineReply) : Option SessionTable :=
  (answer t request).map Prod.fst

/-- The text that the shell looks for. -/
def okText : Bytes := ascii "\"ok\""

/-- `strstr(resp, "\"ok\"")` of the shell. -/
def reportsOk (response : Bytes) : Bool :=
  (strstr okText response).isSome

end Model

section Specification

/-- The request has the text field. -/
def HasField (json : CString) (field : Bytes) : Prop :=
  (extractField json field).isSome = true

/-- The request has a number in the field. -/
def HasNumber (json : CString) (field : Bytes) : Prop :=
  (strstr (intSearch field) json.bytes).isSome = true

/-- The request has the fields that its command needs. -/
def HasFields (json : CString) : Command → Prop
  | .encrypt | .decrypt | .unlock =>
      HasField json (ascii "path") ∧ HasField json (ascii "password")
  | .hash | .wipe | .lock => HasField json (ascii "path")
  | .sessionEnd => HasNumber json (ascii "id")
  | .containerCreate =>
      HasField json (ascii "name") ∧ HasField json (ascii "password") ∧
        HasNumber json (ascii "size")
  | .containerOpen => HasField json (ascii "name") ∧ HasField json (ascii "password")
  | .containerClose => HasField json (ascii "name")
  | .status | .sessionStart | .sessionList | .containerList | .emergencyWipe => True

/-- The function that is called returns success: a positive id from `session_create`, 0 from
the others that return something. -/
def Succeeds (t : SessionTable) (r : EngineReply) : EngineCall → Prop
  | .status | .sessionList | .containerList | .emergencyWipe => True
  | .sessionCreate => 0 < (sessionCreate t ⟨none, 0, 0⟩ r.sys).2
  | .sessionDestroy id => (sessionDestroy t id).2 = 0
  | _ => r.ret = 0

/-- A known command came with its fields, and what it calls returned success. -/
def Succeeded (t : SessionTable) (json : CString) (r : EngineReply) : Prop :=
  ∃ cmd c call,
    extractField json (ascii "cmd") = some cmd ∧
      cmd.bytes = Command.text c ∧
      HasFields json c ∧
      commandBranch json c = .call call ∧
      Succeeds t r call

/-- Every session has a positive id. -/
def PositiveIds (t : SessionTable) : Prop :=
  ∀ e ∈ t.sessions, 0 < e.id

end Specification

section Answers

/-- What every answer to a success begins with. -/
def okHead : Bytes := ascii "\x7b\"status\":\"ok\""

/-- An answer that begins so is taken for a success, wherever it is cut off behind. -/
theorem reportsOk_of_okHead
    {text : Bytes}
    (h : okHead <+: text) :
    reportsOk text = true := by
  obtain ⟨rest, rfl⟩ := h
  rw [reportsOk, isSome_strstr_iff]
  exact ⟨ascii "\x7b\"status\":", rest, rfl⟩

theorem okHead_snprintf
    {text : Bytes}
    (h : okHead <+: text) :
    okHead <+: snprintf respBufSize text := by
  rw [snprintf, List.prefix_take_iff]
  exact ⟨h, by decide⟩

/-- An error answer is not taken for a success when its message has no quote in it and does
not begin with an `o`. -/
theorem not_reportsOk_errorResponse
    {b : UInt8} {msg : Bytes}
    (hquote : quote ∉ msg)
    (hfirst : msg.head? = some b)
    (hb : b ≠ 111) :
    reportsOk (errorResponse msg) = false := by
  obtain ⟨msg, rfl⟩ := List.head?_eq_some_iff.mp hfirst
  have hhead : skips okText (ascii "\x7b\"status\":\"error\",\"msg\":") = true := by decide
  have hopen : skips okText (quote :: b :: msg) = true := by
    have hneedle : okText = quote :: 111 :: [107, quote] := by decide
    have hclash : clash okText (quote :: b :: msg) = true := by
      simp [hneedle, clash, List.isPrefixOf, hb, Ne.symm hb]
    rw [skips, hclash, Bool.true_and, hneedle]
    exact skips_of_head_not_mem hquote
  have htext :
      ascii "\x7b\"status\":\"error\",\"msg\":\"" ++ (b :: msg) ++ ascii "\"\x7d" =
        (ascii "\x7b\"status\":\"error\",\"msg\":" ++ (quote :: b :: msg)) ++ ascii "\"\x7d" := by
    have hsplit :
        ascii "\x7b\"status\":\"error\",\"msg\":\"" =
          ascii "\x7b\"status\":\"error\",\"msg\":" ++ [quote] := by
      decide
    rw [hsplit]
    simp only [List.append_assoc, List.cons_append, List.nil_append]
  rw [Bool.eq_false_iff]
  intro hfound
  have hwhole := isSome_strstr_take hfound
  rw [htext, strstr_append_of_skips (skips_append hhead hopen)] at hwhole
  exact absurd hwhole (by decide)

theorem reportsOk_returnResponse
    (ret : Int) :
    reportsOk (returnResponse ret) = true ↔ ret = 0 := by
  unfold returnResponse
  by_cases h : ret = 0
  · rw [if_pos h]
    exact iff_of_true (reportsOk_of_okHead (okHead_snprintf ⟨ascii "\x7d", by decide⟩)) h
  · rw [if_neg h]
    exact iff_of_false (by decide) h

theorem reportsOk_hashFile
    (t : SessionTable) (r : EngineReply) (path : CString) :
    reportsOk (callResponse (r.engine t) (.hashFile path)) = true ↔ r.ret = 0 := by
  simp only [callResponse, EngineReply.engine]
  by_cases h : r.ret = 0
  · simp only [if_pos h, List.append_assoc]
    refine iff_of_true (reportsOk_of_okHead (okHead_snprintf ?_)) h
    exact (show okHead <+: ascii "\x7b\"status\":\"ok\",\"hash\":\"" by decide).trans
      (List.prefix_append _ _)
  · have hnone : reportsOk (errorResponse (ascii "hash failed")) = false :=
      not_reportsOk_errorResponse (by decide) rfl (by decide)
    simp only [if_neg h, hnone]
    exact iff_of_false Bool.false_ne_true h

theorem reportsOk_sessionCreate
    (e : Engine) :
    reportsOk (callResponse e .sessionCreate) = true ↔ 0 < e.returns .sessionCreate := by
  have hnone : reportsOk (errorResponse (ascii "session creation failed")) = false :=
    not_reportsOk_errorResponse (by decide) rfl (by decide)
  simp only [callResponse]
  by_cases h : e.returns .sessionCreate > 0
  · rw [if_pos h, List.append_assoc]
    refine iff_of_true (reportsOk_of_okHead (okHead_snprintf ?_)) h
    exact (show okHead <+: ascii "\x7b\"status\":\"ok\",\"session_id\":" by decide).trans
      (List.prefix_append _ _)
  · rw [if_neg h, hnone]
    exact iff_of_false Bool.false_ne_true h

theorem reportsOk_statusResponse
    (e : Engine) :
    reportsOk (statusResponse e) = true := by
  unfold statusResponse
  simp only [List.append_assoc]
  refine reportsOk_of_okHead (okHead_snprintf ?_)
  exact (show okHead <+:
      ascii "\x7b\"status\":\"ok\",\"version\":\"1.0.0\",\"secure_allocs\":" by decide).trans
    (List.prefix_append _ _)

/-- The text in the buffer begins as a success does, and the offset is behind that. -/
def Printer.BeginsOk (p : Printer) : Prop :=
  okHead <+: p.text ∧ okHead.length ≤ p.offset

/-- Printing behind the beginning keeps it. -/
theorem okHead_printAt
    {p : Printer}
    (h : p.BeginsOk)
    (respSize : Nat) (text : Bytes) :
    okHead <+: printAt respSize p text := by
  unfold printAt
  split_ifs
  · exact (List.prefix_take_iff.mpr h).trans (List.prefix_append _ _)
  · exact h.1

theorem beginsOk_print
    {p : Printer}
    (h : p.BeginsOk)
    (respSize : Nat) (text : Bytes) :
    (p.print respSize text).BeginsOk :=
  ⟨okHead_printAt h respSize text, h.2.trans (Nat.le_add_right _ _)⟩

/-- A header that begins as a success does. -/
theorem beginsOk_header
    {header : Bytes}
    (h : okHead <+: header) :
    ((Printer.mk [] 0).print respBufSize header).BeginsOk :=
  ⟨okHead_snprintf h, by simpa [Printer.print] using h.length_le⟩

/-- The loop that prints a list from index `i` on, while there are 100 bytes left. -/
def printItems {α : Type} (respSize : Nat) (item : Nat → α → Bytes) (p : Printer) (i : Nat) :
    List α → Printer
  | [] => p
  | e :: es =>
      if p.offset < respSize - 100 then
        printItems respSize item (p.print respSize (item i e)) (i + 1) es
      else p

/-- The loop over the items keeps the beginning. -/
theorem beginsOk_printItems
    {α : Type} {item : Nat → α → Bytes} {p : Printer} {items : List α} {i : Nat}
    (h : p.BeginsOk)
    (respSize : Nat) :
    (printItems respSize item p i items).BeginsOk := by
  induction items generalizing p i with
  | nil =>
      exact h
  | cons e es ih =>
      rw [printItems]
      split_ifs
      · exact ih (beginsOk_print h respSize _)
      · exact h

/-- The loop over the sessions prints as the one over any items. -/
theorem listingLoop_eq_printItems
    (respSize : Nat) (p : Printer) (i : Nat) (sessions : List SessionInfo) :
    (listingLoop respSize p i sessions).1 =
      printItems respSize listingItem p i sessions := by
  induction sessions generalizing p i with
  | nil =>
      rfl
  | cons e es ih =>
      rw [listingLoop, printItems]
      split_ifs
      · exact ih _ _
      · rfl

theorem containerLoop_eq_printItems
    (respSize : Nat) (p : Printer) (i : Nat) (containers : List Container.ContainerInfo) :
    containerLoop respSize p i containers = printItems respSize containerItem p i containers := by
  induction containers generalizing p i with
  | nil =>
      rfl
  | cons c cs ih =>
      rw [containerLoop, printItems]
      split_ifs
      · exact ih _ _
      · rfl

theorem reportsOk_sessionList
    (sessions : List SessionInfo) :
    reportsOk (sessionListResponse respBufSize sessions).text = true := by
  refine reportsOk_of_okHead (okHead_printAt ?_ _ _)
  rw [listingLoop_eq_printItems]
  refine beginsOk_printItems (beginsOk_header ?_) _
  rw [listingHeader, List.append_assoc]
  exact (show okHead <+: ascii "\x7b\"status\":\"ok\",\"count\":" by decide).trans
    (List.prefix_append _ _)

theorem reportsOk_containerList
    (containers : List Container.ContainerInfo) :
    reportsOk (containerListResponse respBufSize containers) = true := by
  refine reportsOk_of_okHead (okHead_printAt ?_ _ _)
  rw [containerLoop_eq_printItems]
  refine beginsOk_printItems (beginsOk_header ?_) _
  rw [List.append_assoc]
  exact (show okHead <+: ascii "\x7b\"status\":\"ok\",\"count\":" by decide).trans
    (List.prefix_append _ _)

theorem reportsOk_wiped :
    reportsOk
        (snprintf respBufSize (ascii "\x7b\"status\":\"ok\",\"msg\":\"all data wiped\"\x7d")) =
      true :=
  reportsOk_of_okHead (okHead_snprintf ⟨ascii ",\"msg\":\"all data wiped\"\x7d", by decide⟩)

/-- The answer to a call is taken for a success exactly when the function succeeded. -/
theorem reportsOk_callResponse
    (t : SessionTable) (r : EngineReply) (call : EngineCall) :
    reportsOk (callResponse (r.engine t) call) = true ↔ Succeeds t r call := by
  cases call with
  | status => exact iff_of_true (reportsOk_statusResponse _) trivial
  | encryptFile path password => exact reportsOk_returnResponse r.ret
  | decryptFile path password => exact reportsOk_returnResponse r.ret
  | hashFile path => exact reportsOk_hashFile t r path
  | secureDelete path => exact reportsOk_returnResponse r.ret
  | lockFolder path password => exact reportsOk_returnResponse r.ret
  | unlockFolder path password => exact reportsOk_returnResponse r.ret
  | sessionCreate => exact reportsOk_sessionCreate _
  | sessionDestroy id => exact reportsOk_returnResponse _
  | sessionList => exact iff_of_true (reportsOk_sessionList _) trivial
  | containerCreate name size password => exact reportsOk_returnResponse r.ret
  | containerOpen name password => exact reportsOk_returnResponse r.ret
  | containerClose name => exact reportsOk_returnResponse r.ret
  | containerList => exact iff_of_true (reportsOk_containerList _) trivial
  | emergencyWipe => exact iff_of_true reportsOk_wiped trivial

end Answers

section Dispatching

variable {json : CString} {field missing response : Bytes}

theorem fieldCommand_refuse
    {call : CString → EngineCall}
    (h : fieldCommand json field missing call = .refuse response) :
    response = errorResponse missing := by
  unfold fieldCommand at h
  cases hfield : extractField json field with
  | none =>
      rw [hfield] at h
      exact (Dispatch.refuse.inj h).symm
  | some value =>
      rw [hfield] at h
      cases h

theorem passwordCommand_refuse
    {call : CString → CString → EngineCall}
    (h : passwordCommand json field missing call = .refuse response) :
    response = errorResponse missing := by
  unfold passwordCommand at h
  split at h
  · cases h
  · exact (Dispatch.refuse.inj h).symm

theorem fieldCommand_hasField
    {call : CString → EngineCall} {c : EngineCall}
    (h : fieldCommand json field missing call = .call c) :
    HasField json field := by
  obtain ⟨value, hvalue, -⟩ := fieldCommand_eq_call_iff.mp h
  rw [HasField, hvalue]
  rfl

theorem passwordCommand_hasField
    {call : CString → CString → EngineCall} {c : EngineCall}
    (h : passwordCommand json field missing call = .call c) :
    HasField json field ∧ HasField json (ascii "password") := by
  obtain ⟨value, pw, hvalue, hpw, -⟩ := passwordCommand_eq_call_iff.mp h
  rw [HasField, HasField, hvalue, hpw]
  exact ⟨rfl, rfl⟩

/-- A number that is not there is read as -1. -/
theorem hasNumber_of_extractInt
    (h : extractInt json field ≠ -1) :
    HasNumber json field := by
  unfold extractInt at h
  unfold HasNumber
  cases hfind : strstr (intSearch field) json.bytes with
  | none =>
      rw [hfind] at h
      exact absurd rfl h
  | some found => rfl

theorem fieldCommand_of_hasField
    {call : CString → EngineCall}
    (h : HasField json field) :
    ∃ value, fieldCommand json field missing call = .call (call value) := by
  obtain ⟨value, hvalue⟩ := Option.isSome_iff_exists.mp h
  exact ⟨value, fieldCommand_eq_call_iff.mpr ⟨value, hvalue, rfl⟩⟩

theorem passwordCommand_of_hasField
    {call : CString → CString → EngineCall}
    (h : HasField json field)
    (hpw : HasField json (ascii "password")) :
    ∃ value pw, passwordCommand json field missing call = .call (call value pw) := by
  obtain ⟨value, hvalue⟩ := Option.isSome_iff_exists.mp h
  obtain ⟨pw, hpwValue⟩ := Option.isSome_iff_exists.mp hpw
  exact ⟨value, pw, passwordCommand_eq_call_iff.mpr ⟨value, pw, hvalue, hpwValue, rfl⟩⟩

/-- A known command that comes with its fields makes the call of its own function; only a
container without a size is refused. -/
theorem commandBranch_of_hasFields
    {c : Command}
    (h : HasFields json c)
    (hsize : c = .containerCreate → 0 < extractInt json (ascii "size")) :
    ∃ call, commandBranch json c = .call call ∧ call.command = c := by
  cases c with
  | encrypt | decrypt | unlock | containerOpen =>
      obtain ⟨value, pw, hcall⟩ := passwordCommand_of_hasField h.1 h.2
      exact ⟨_, hcall, rfl⟩
  | hash | wipe | lock | containerClose =>
      obtain ⟨value, hcall⟩ := fieldCommand_of_hasField h
      exact ⟨_, hcall, rfl⟩
  | containerCreate =>
      obtain ⟨value, pw, hcall⟩ := passwordCommand_of_hasField h.1 h.2.1
      exact ⟨_, (if_neg (not_le.mpr (hsize rfl))).trans hcall, rfl⟩
  | status | sessionStart | sessionEnd | sessionList | containerList | emergencyWipe =>
      exact ⟨_, rfl, rfl⟩

/-- What a known command is refused with is not taken for a success. -/
theorem commandBranch_refuse
    {c : Command}
    (h : commandBranch json c = .refuse response) :
    reportsOk response = false := by
  cases c with
  | encrypt | decrypt | unlock | containerOpen =>
      rw [passwordCommand_refuse h]
      exact not_reportsOk_errorResponse (by decide) rfl (by decide)
  | hash | wipe | lock | containerClose =>
      rw [fieldCommand_refuse h]
      exact not_reportsOk_errorResponse (by decide) rfl (by decide)
  | containerCreate =>
      simp only [commandBranch] at h
      split_ifs at h
      · obtain rfl := Dispatch.refuse.inj h
        exact not_reportsOk_errorResponse (by decide) rfl (by decide)
      · rw [passwordCommand_refuse h]
        exact not_reportsOk_errorResponse (by decide) rfl (by decide)
  | status | sessionStart | sessionEnd | sessionList | containerList | emergencyWipe =>
      cases h

/-- A call for a command is made with its fields, when it succeeds: `session_destroy` fails
for an id that was not in the request. -/
theorem hasFields_of_succeeds
    {t : SessionTable} {r : EngineReply} {c : Command} {call : EngineCall}
    (hids : PositiveIds t)
    (h : commandBranch json c = .call call)
    (hok : Succeeds t r call) :
    HasFields json c := by
  cases c with
  | encrypt | decrypt | unlock | containerOpen => exact passwordCommand_hasField h
  | hash | wipe | lock | containerClose => exact fieldCommand_hasField h
  | containerCreate =>
      simp only [commandBranch] at h
      split_ifs at h with hsize
      obtain ⟨hname, hpw⟩ := passwordCommand_hasField h
      exact ⟨hname, hpw, hasNumber_of_extractInt (by omega)⟩
  | sessionEnd =>
      obtain rfl := Dispatch.call.inj h
      refine hasNumber_of_extractInt fun hid => ?_
      simp only [Succeeds, (sessionDestroy_spec t _).2.2.2] at hok
      split_ifs at hok with hfound
      obtain ⟨e, he, heid⟩ := hfound
      have := hids e he
      omega
  | status | sessionStart | sessionList | containerList | emergencyWipe => trivial

/-- The chain of comparisons finds the command of that text. -/
theorem parseCommand_eq_some_iff
    {cmd : CString} {c : Command} :
    parseCommand cmd = some c ↔ cmd.bytes = c.text := by
  constructor
  · intro h
    have := List.find?_some h
    simpa using (of_decide_eq_true this).symm
  · intro h
    rw [← parseCommand_text c]
    unfold parseCommand
    congr 1
    funext d
    rw [cstr_bytes_of_nulFree (h ▸ cmd.nulFree), h]

/-- The text of a command is that of one command only. -/
theorem parseCommand_unique
    {cmd : CString} {c c' : Command}
    (hparse : parseCommand cmd = some c)
    (htext : cmd.bytes = c'.text) :
    c' = c := by
  rw [parseCommand_eq_some_iff.mpr htext, Option.some.injEq] at hparse
  exact hparse

end Dispatching

section Serving

/-- The value of a text field has no quote in it. -/
theorem quote_not_mem_extractField
    {json value : CString} {field : Bytes}
    (h : extractField json field = some value) :
    quote ∉ value.bytes := by
  simp only [extractField, Option.bind_eq_bind, Option.bind_eq_some_iff, Option.pure_def,
    Option.some.injEq] at h
  obtain ⟨found, -, stop, hstop, rfl⟩ := h
  rw [take_strchr hstop]
  exact fun hmem => not_mem_before _ _ ((List.takeWhile_prefix _).subset hmem)

/-- The answer is the response to the command, as the engine stands when it is served. -/
theorem answer_commandResponse
    {t t' : SessionTable} {json : CString} {r : EngineReply} {response : Bytes}
    (h : answer t (json, r) = some (t', response)) :
    response = commandResponse (r.engine t) json := by
  unfold answer at h
  unfold commandResponse
  cases hdispatch : handleCommand json with
  | refuse refused =>
      simp only [hdispatch, Option.some.injEq, Prod.mk.injEq] at h
      exact h.2.symm
  | call call =>
      simp only [hdispatch] at h
      split_ifs at h
      exact (Prod.mk.inj (Option.some.inj h)).2.symm

/-- One answer, given that the ids are positive. -/
theorem reportsOk_answer
    {t t' : SessionTable} {json : CString} {r : EngineReply} {response : Bytes}
    (hids : PositiveIds t)
    (h : answer t (json, r) = some (t', response)) :
    reportsOk response = true ↔ Succeeded t json r := by
  unfold answer handleCommand at h
  unfold Succeeded
  cases hcmd : extractField json (ascii "cmd") with
  | none =>
      simp only [hcmd, Option.some.injEq, Prod.mk.injEq] at h
      rw [← h.2]
      exact iff_of_false (by decide) (by simp)
  | some cmd =>
  cases hparse : parseCommand cmd with
  | none =>
      simp only [hcmd, hparse, Option.some.injEq, Prod.mk.injEq] at h
      rw [← h.2]
      refine iff_of_false ?_ ?_
      · have hquote : quote ∉ ascii "unknown command: " ++ cmd.bytes := by
          rw [List.mem_append, not_or]
          exact ⟨by decide, quote_not_mem_extractField hcmd⟩
        have hfirst : (ascii "unknown command: " ++ cmd.bytes).head? = some 117 := rfl
        rw [not_reportsOk_errorResponse hquote hfirst (by decide)]
        exact Bool.false_ne_true
      · rintro ⟨cmd', c, call, hcmd', htext, -⟩
        obtain rfl := Option.some.inj hcmd'
        rw [parseCommand_eq_some_iff.mpr htext] at hparse
        cases hparse
  | some c =>
  have htext := parseCommand_eq_some_iff.mp hparse
  simp only [hcmd, hparse] at h
  cases hbranch : commandBranch json c with
  | refuse refused =>
      simp only [hbranch, Option.some.injEq, Prod.mk.injEq] at h
      rw [← h.2, commandBranch_refuse hbranch]
      refine iff_of_false Bool.false_ne_true ?_
      rintro ⟨cmd', c', call, hcmd', htext', -, hcall, -⟩
      obtain rfl := Option.some.inj hcmd'
      rw [parseCommand_unique hparse htext', hbranch] at hcall
      cases hcall
  | call call =>
      simp only [hbranch] at h
      split_ifs at h
      rw [Option.some.injEq] at h
      obtain ⟨-, rfl⟩ := Prod.mk.inj h
      rw [reportsOk_callResponse]
      constructor
      · intro hok
        exact ⟨cmd, c, call, rfl, htext, hasFields_of_succeeds hids hbranch hok, hbranch, hok⟩
      · rintro ⟨cmd', c', call', hcmd', htext', -, hcall, hok⟩
        obtain rfl := Option.some.inj hcmd'
        rw [parseCommand_unique hparse htext', hbranch] at hcall
        exact (Dispatch.call.inj hcall) ▸ hok

theorem positiveIds_sessionInit : PositiveIds sessionInit := by
  intro e he
  simp [SessionTable.sessions, sessionInit, SlotArray.entries] at he

theorem positiveIds_sessionCreate
    {t : SessionTable}
    (h : PositiveIds t)
    (args : CreateArgs) (sys : CreateSys) :
    PositiveIds (sessionCreate t args sys).1 := by
  by_cases hw : createWrites t
  · by_cases hok : sys.stack = true ∧ 0 ≤ sys.childPid
    · rw [sessionCreate_done hw hok, PositiveIds, sessions_addSession t _ hw.2 rfl]
      intro e he
      rcases List.mem_append.mp he with he | he
      · exact h e he
      · obtain rfl := List.mem_singleton.mp he
        exact t.next_pos
    · rw [sessionCreate_failed hw hok, PositiveIds, sessions_writeNext]
      exact h
  · rw [sessionCreate, createLocked_of_not_writes hw]
    exact h

/-- Serving a request keeps the ids positive. -/
theorem positiveIds_answerStep
    (t : SessionTable) (request : CString × EngineReply) (t' : SessionTable)
    (h : PositiveIds t)
    (hstep : answerStep t request = some t') :
    PositiveIds t' := by
  obtain ⟨⟨t₁, response⟩, hserve, rfl⟩ := Option.map_eq_some_iff.mp hstep
  unfold answer at hserve
  cases hdispatch : handleCommand request.1 with
  | refuse refused =>
      simp only [hdispatch, Option.some.injEq, Prod.mk.injEq] at hserve
      exact hserve.1 ▸ h
  | call call =>
      simp only [hdispatch] at hserve
      split_ifs at hserve
      rw [← congrArg Prod.fst (Option.some.inj hserve)]
      cases call with
      | sessionCreate => exact positiveIds_sessionCreate h _ _
      | sessionDestroy id =>
          intro e he
          rw [tableAfter, (sessionDestroy_spec t id).1] at he
          exact h e (List.mem_filter.mp he).1
      | emergencyWipe =>
          intro e he
          rw [tableAfter, (sessionDestroyAll_spec t).1] at he
          cases he
      | _ => exact h

/-- Every answer of every run of the daemon has `"ok"` in it exactly when a known command
came with its fields and what it calls succeeded; and whatever part of an answer a client
reads, it finds `"ok"` there only then. -/
theorem answer_ok_iff_succeeded
    {history : List (CString × EngineReply)} {t t' : SessionTable}
    {json : CString} {r : EngineReply} {response : Bytes}
    (hrun : run answerStep sessionInit history = some t)
    (hserve : answer t (json, r) = some (t', response)) :
    (reportsOk response = true ↔ Succeeded t json r) ∧
      ∀ n, reportsOk (response.take n) = true → Succeeded t json r := by
  have hids : PositiveIds t :=
    invariant_of_run positiveIds_answerStep positiveIds_sessionInit hrun
  have hiff := reportsOk_answer hids hserve
  exact ⟨hiff, fun n hread => hiff.mp (isSome_strstr_take hread)⟩

/-- A request whose command is the text that the shell looks for, without its quotes. -/
def okRequest : CString := cstr (ascii "\x7b\"cmd\":\"ok\"\x7d")

/-- A request to start a session. -/
def startRequest : CString := cstr (ascii "\x7b\"cmd\":\"session_start\"\x7d")

/-- A request to end the second one. -/
def endRequest : CString := cstr (ascii "\x7b\"cmd\":\"session_end\",\"id\":2\x7d")

/-- Nothing comes back from the engine. -/
def noReply : EngineReply where
  ret := -1
  hex := cstr []
  sys := ⟨0, false, -1⟩
  containers := []
  memCount := 0
  memBytes := 0
  pid := 1

/-- Every process is cloned. -/
def cloningReply : EngineReply := { noReply with sys := ⟨0, true, 100⟩ }

/-- After two sessions were started, the end of the second succeeds and is taken for a success;
the text `ok` that an answer repeats is not. -/
theorem endRequest_succeeded :
    ∃ t t' response,
      run answerStep sessionInit
          [(startRequest, cloningReply), (okRequest, noReply), (startRequest, cloningReply)] =
        some t ∧
      answer t (endRequest, noReply) = some (t', response) ∧
      Succeeded t endRequest noReply ∧
      ¬ Succeeded t okRequest noReply := by
  have hserved : (do
      let t ← run answerStep sessionInit
        [(startRequest, cloningReply), (okRequest, noReply), (startRequest, cloningReply)]
      let ended ← answer t (endRequest, noReply)
      let unknown ← answer t (okRequest, noReply)
      return (reportsOk ended.2, reportsOk unknown.2)) = some (true, false) := by
    decide +kernel
  simp only [Option.bind_eq_bind, Option.bind_eq_some_iff, Option.pure_def, Option.some.injEq,
    Prod.mk.injEq] at hserved
  obtain ⟨t, hrun, ⟨t', ended⟩, hended, ⟨t'', unknown⟩, hunknown, hok, hnot⟩ := hserved
  refine ⟨t, t', ended, hrun, hended, ((answer_ok_iff_succeeded hrun hended).1).mp hok, ?_⟩
  rw [← (answer_ok_iff_succeeded hrun hunknown).1, hnot]
  exact Bool.false_ne_true

end Serving

end Daemon
end SecureZ
