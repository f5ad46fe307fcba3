import SecureZ.Lib.Decimal
import SecureZ.Engine.SessionMap
import SecureZ.Daemon.Requests
import SecureZ.Shell.SessionCmds

/-!
# The session listing, from the daemon to the shell

For `session_list`, `handle_command` prints the sessions into its response buffer at a
running offset, as long as there are 100 bytes left.  The shell reads the response by
substring search.

The names of the sessions hold no quote, and between two places where `"id":` is found no
other place can start, in whatever way the numbers and keys stand beside each other.  For
every list of sessions that the daemon can have, the shell reads back what was printed.
-/

namespace SecureZ
namespace Daemon

open CLib Transition Session Shell

section Model

/-- The response buffer with the running offset. -/
structure Printer where
  /-- The text in the buffer, up to its first NUL. -/
  text : Bytes
  offset : Nat

/-- `snprintf(response + offset, resp_size - offset, ...)`, for an offset in the buffer. -/
def printAt (respSize : Nat) (p : Printer) (s : Bytes) : Bytes :=
  if p.offset ≤ p.text.length then p.text.take p.offset ++ snprintf (respSize - p.offset) s
  else p.text

/-- `offset += snprintf(response + offset, resp_size - offset, ...)`. -/
def Printer.print (respSize : Nat) (p : Printer) (s : Bytes) : Printer :=
  ⟨printAt respSize p s, p.offset + s.length⟩

/-- What is printed before the sessions. -/
def listingHeader (count : Nat) : Bytes :=
  ascii "\x7b\"status\":\"ok\",\"count\":" ++ intText count ++ ascii ",\"sessions\":["

/-- What is printed for the session at index `i`. -/
def listingItem (i : Nat) (e : SessionInfo) : Bytes :=
  (if i > 0 then ascii "," else []) ++ ascii "\x7b\"id\":" ++ intText e.id ++
    ascii ",\"name\":\"" ++ e.name ++ ascii "\",\"pid\":" ++ intText e.pid ++ ascii "\x7d"

/-- The loop over the sessions from index `i` on, with the values of the offset. -/
def listingLoop (respSize : Nat) (p : Printer) (i : Nat) :
    List SessionInfo → Printer × List Nat
  | [] => (p, [])
  | e :: es =>
      if p.offset < respSize - 100 then
        let p' := p.print respSize (listingItem i e)
        let rest := listingLoop respSize p' (i + 1) es
        (rest.1, p'.offset :: rest.2)
      else (p, [])

/-- A response, and every value that the offset had while it was printed. -/
structure ListingResponse where
  text : Bytes
  offsets : List Nat

/-- `handle_command` for `session_list`, with what `session_list` has copied. -/
def sessionListResponse (respSize : Nat) (sessions : List SessionInfo) : ListingResponse :=
  let p := (Printer.mk [] 0).print respSize (listingHeader sessions.length)
  let rest := listingLoop respSize p 0 sessions
  ⟨printAt respSize rest.1 (ascii "]\x7d"), p.offset :: rest.2⟩

end Model

section Specification

/-- A session as `session_start` creates it: it has no name of its own, and its id and its
process are positive numbers of type `int`. -/
structure Started (e : SessionInfo) : Prop where
  name : e.name = sessionName none e.id
  id_pos : 0 < e.id
  id_le : e.id ≤ intMax
  pid_pos : 0 < e.pid
  pid_le : e.pid ≤ intMax

/-- The texts of the sessions from index `i` on, one behind the other. -/
def listingItems (i : Nat) : List SessionInfo → Bytes
  | [] => []
  | e :: es => listingItem i e ++ listingItems (i + 1) es

/-- The listing without a bound on its length. -/
def listingText (sessions : List SessionInfo) : Bytes :=
  listingHeader sessions.length ++ listingItems 0 sessions ++ ascii "]\x7d"

/-- The line of a session. -/
def rowOf (e : SessionInfo) : StatusRow := ⟨e.id, e.name, e.pid⟩

/-- The response is the whole listing, printed inside the buffer, and the shell reads the
sessions back from it in order, with their number. -/
structure RoundTrips (sessions : List SessionInfo) : Prop where
  whole : (sessionListResponse respBufSize sessions).text = listingText sessions
  fits : (sessionListResponse respBufSize sessions).text.length < respBufSize
  inside : ∀ offset ∈ (sessionListResponse respBufSize sessions).offsets, offset < respBufSize
  read : ∀ turns, sessions.length < turns →
    securesessionStatus turns (sendCmdRead (sessionListResponse respBufSize sessions).text) =
      some ⟨sessions.length, sessions.map rowOf⟩

end Specification

section Texts

/-- A number that is not negative is printed with its digits. -/
theorem intText_natCast
    (n : Nat) :
    intText (n : Int) = decimal n :=
  rfl

/-- The numbers of a session are natural numbers below `2 ^ 31`, and its name is its id
behind `session-`. -/
theorem started_numbers
    {e : SessionInfo}
    (h : Started e) :
    ∃ id pid : Nat, e.id = id ∧ e.pid = pid ∧ id < 2 ^ 31 ∧ pid < 2 ^ 31 ∧
      e.name = ascii "session-" ++ decimal id := by
  obtain ⟨hname, hid, hidle, hpid, hpidle⟩ := h
  rw [intMax] at hidle hpidle
  refine ⟨e.id.toNat, e.pid.toNat, by omega, by omega, by omega, by omega, ?_⟩
  have hcast : e.id = (e.id.toNat : Int) := by omega
  have hlen : (decimal e.id.toNat).length ≤ 10 := length_decimal_le (Nat.succ_pos _) (by omega)
  have hfront : (ascii "session-").length = 8 := rfl
  rw [hname, sessionName, hcast, intText_natCast, Int.toNat_natCast]
  apply snprintf_of_fits
  rw [List.length_append, sessionNameMax]
  omega

/-- The text of a session from `"id":` on. -/
def keyedText (e : SessionInfo) : Bytes :=
  ascii "\"id\":" ++ (intText e.id ++ (ascii ",\"name\":\"" ++ (e.name ++
    (ascii "\",\"pid\":" ++ (intText e.pid ++ ascii "\x7d")))))

/-- What stands before `"id":` in an item. -/
def itemOpen (i : Nat) : Bytes :=
  (if i > 0 then ascii "," else []) ++ ascii "\x7b"

theorem listingItem_eq
    (i : Nat) (e : SessionInfo) :
    listingItem i e = itemOpen i ++ keyedText e := by
  have hopen : ascii "\x7b\"id\":" = ascii "\x7b" ++ ascii "\"id\":" := rfl
  simp only [listingItem, itemOpen, keyedText, hopen, List.append_assoc]

/-- An item takes at most 63 bytes. -/
theorem length_listingItem_le
    {e : SessionInfo}
    (h : Started e)
    (i : Nat) :
    (listingItem i e).length ≤ 63 := by
  obtain ⟨id, pid, hid, hpid, hidlt, hpidlt, hname⟩ := started_numbers h
  have hidlen : (decimal id).length ≤ 10 := length_decimal_le (Nat.succ_pos _) (by omega)
  have hpidlen : (decimal pid).length ≤ 10 := length_decimal_le (Nat.succ_pos _) (by omega)
  have hsep : (if i > 0 then ascii "," else []).length ≤ 1 := by
    split_ifs <;> decide
  have hfixed : (ascii "\x7b\"id\":").length = 6 ∧ (ascii ",\"name\":\"").length = 9 ∧
      (ascii "session-").length = 8 ∧ (ascii "\",\"pid\":").length = 8 ∧
      (ascii "\x7d").length = 1 :=
    ⟨rfl, rfl, rfl, rfl, rfl⟩
  simp only [listingItem, hid, hpid, hname, intText_natCast, List.length_append]
  omega

/-- The header takes at most 38 bytes for at most 16 sessions. -/
theorem length_listingHeader_le
    {count : Nat}
    (h : count ≤ sessionMaxActive) :
    (listingHeader count).length ≤ 38 := by
  rw [sessionMaxActive] at h
  have hcount : (decimal count).length ≤ 2 := length_decimal_le (Nat.succ_pos _) (by omega)
  have hfixed : (ascii "\x7b\"status\":\"ok\",\"count\":").length = 23 ∧
      (ascii ",\"sessions\":[").length = 13 :=
    ⟨rfl, rfl⟩
  simp only [listingHeader, intText_natCast, List.length_append]
  omega

end Texts

section Printing

variable {respSize : Nat} {p : Printer}

/-- The text ends where the offset is. -/
def Printer.AtEnd (p : Printer) : Prop :=
  p.offset = p.text.length

/-- What fits is printed whole, behind the text. -/
theorem printAt_of_fits
    {s : Bytes}
    (hend : p.AtEnd)
    (hfits : p.offset + s.length < respSize) :
    printAt respSize p s = p.text ++ s := by
  unfold Printer.AtEnd at hend
  rw [printAt, if_pos hend.le, hend, List.take_length, snprintf_of_fits]
  omega

theorem atEnd_print
    {s : Bytes}
    (hend : p.AtEnd)
    (hfits : p.offset + s.length < respSize) :
    (p.print respSize s).AtEnd := by
  unfold Printer.AtEnd at hend ⊢
  simp only [Printer.print]
  rw [printAt_of_fits hend hfits, List.length_append, hend]

/-- Where there is room for all sessions, the loop prints them all. -/
theorem listingLoop_spec
    {es : List SessionInfo}
    (hstarted : ∀ e ∈ es, Started e)
    (hend : p.AtEnd)
    (hroom : p.offset + 63 * es.length + 100 < respSize)
    (i : Nat) :
    (listingLoop respSize p i es).1.AtEnd ∧
      (listingLoop respSize p i es).1.text = p.text ++ listingItems i es ∧
      (listingLoop respSize p i es).1.offset ≤ p.offset + 63 * es.length ∧
      ∀ offset ∈ (listingLoop respSize p i es).2, offset < respSize := by
  induction es generalizing p i with
  | nil =>
      simpa [listingLoop, listingItems] using hend
  | cons e es ih =>
      rw [List.forall_mem_cons] at hstarted
      have hitem := length_listingItem_le hstarted.1 i
      rw [List.length_cons] at hroom
      have hfits : p.offset + (listingItem i e).length < respSize := by omega
      have hoffset :
          (p.print respSize (listingItem i e)).offset = p.offset + (listingItem i e).length :=
        rfl
      obtain ⟨hend', htext, hle, hinside⟩ :=
        ih hstarted.2 (atEnd_print hend hfits) (by omega) (i + 1)
      rw [listingLoop, if_pos (by omega)]
      refine ⟨hend', ?_, ?_, ?_⟩
      · dsimp only
        rw [htext, listingItems, ← List.append_assoc]
        congr 1
        exact printAt_of_fits hend hfits
      · dsimp only
        rw [List.length_cons]
        omega
      · rw [List.forall_mem_cons]
        exact ⟨by omega, hinside⟩

/-- The response is the whole listing, and the offset stays in the buffer. -/
theorem sessionListResponse_spec
    {sessions : List SessionInfo}
    (hlen : sessions.length ≤ sessionMaxActive)
    (hstarted : ∀ e ∈ sessions, Started e) :
    (sessionListResponse respBufSize sessions).text = listingText sessions ∧
      (sessionListResponse respBufSize sessions).text.length < respBufSize ∧
      ∀ offset ∈ (sessionListResponse respBufSize sessions).offsets, offset < respBufSize := by
  have hheader := length_listingHeader_le hlen
  have hsize : respBufSize = 4096 := rfl
  have hclose : (ascii "]\x7d").length = 2 := rfl
  rw [sessionMaxActive] at hlen
  have hstart : (Printer.mk [] 0).AtEnd := rfl
  have hfits : 0 + (listingHeader sessions.length).length < respBufSize := by omega
  have hroom :
      0 + (listingHeader sessions.length).length + 63 * sessions.length + 100 < respBufSize := by
    omega
  obtain ⟨hend, htext, hle, hinside⟩ :=
    listingLoop_spec hstarted (atEnd_print hstart hfits) hroom 0
  have hheaderText := printAt_of_fits hstart hfits
  simp only [Printer.print] at hend htext hle hinside
  have hlast := @printAt_of_fits respBufSize _ (ascii "]\x7d") hend (by omega)
  refine ⟨?_, ?_, ?_⟩
  · simp only [sessionListResponse, Printer.print]
    rw [hlast, htext, hheaderText, listingText, List.nil_append]
  · simp only [sessionListResponse, Printer.print]
    rw [hlast, List.length_append, ← hend]
    omega
  · simp only [sessionListResponse, Printer.print]
    rw [List.forall_mem_cons]
    exact ⟨hfits, hinside⟩

end Printing

section Reading

variable {e : SessionInfo}

/-- No other `"id":` starts in the text of a session behind its first byte. -/
theorem skips_keyedText
    (h : Started e) :
    skips (ascii "\"id\":") ((keyedText e).drop 1) = true := by
  obtain ⟨id, pid, hid, hpid, -, -, hname⟩ := started_numbers h
  have hdigits : ∀ n, skips (ascii "\"id\":") (decimal n) = true := skips_decimal rfl
  have hfront : ascii "\"id\":" = 34 :: ascii "id\":" := rfl
  have hnameKey : ascii ",\"name\":\"" ++ ascii "session-" = ascii ",\"name\":\"session-" :=
    rfl
  have hdrop : (keyedText e).drop 1 = ascii "id\":" ++ (decimal id ++
      ((ascii ",\"name\":\"" ++ ascii "session-") ++ (decimal id ++ (ascii "\",\"pid\":" ++
        (decimal pid ++ ascii "\x7d"))))) := by
    rw [keyedText, hid, hpid, hname, intText_natCast, intText_natCast, hfront]
    simp only [List.cons_append, List.drop_succ_cons, List.drop_zero, List.append_assoc]
  rw [hdrop, hnameKey]
  refine skips_append rfl (skips_append (hdigits id) ?_)
  refine skips_append rfl (skips_append (hdigits id) ?_)
  exact skips_append rfl (skips_append (hdigits pid) rfl)

/-- Behind `"id":` the shell reads the id. -/
theorem id_of_keyedText
    (h : Started e)
    (rest : Bytes) :
    atoi ((keyedText e ++ rest).drop 5) = e.id := by
  obtain ⟨id, pid, hid, hpid, hidlt, -, hname⟩ := started_numbers h
  have hcomma : ascii ",\"name\":\"" = 44 :: ascii "\"name\":\"" := rfl
  have hkey : (ascii "\"id\":").length = 5 := rfl
  rw [keyedText, hid, intText_natCast, hcomma, List.append_assoc, List.drop_left' hkey,
    List.append_assoc, List.cons_append]
  exact atoi_decimal hidlt rfl _

/-- From `"id":` on the shell finds the name. -/
theorem statusName_keyedText
    (h : Started e)
    (rest : Bytes) :
    statusName (keyedText e ++ rest) = e.name := by
  obtain ⟨id, pid, hid, hpid, hidlt, -, hname⟩ := started_numbers h
  have hskips : skips (ascii "\"name\":\"") (ascii "\"id\":" ++ (decimal id ++ [44])) = true :=
    skips_append rfl (skips_append (skips_decimal rfl id) rfl)
  have hkey : (ascii "\"name\":\"").length = 8 := rfl
  have hsplit : keyedText e ++ rest =
      (ascii "\"id\":" ++ (decimal id ++ [44])) ++ (ascii "\"name\":\"" ++ (e.name ++
        34 :: (ascii ",\"pid\":" ++ (intText e.pid ++ (ascii "\x7d" ++ rest))))) := by
    have hcomma : ascii ",\"name\":\"" = 44 :: ascii "\"name\":\"" := rfl
    have hquote : ascii "\",\"pid\":" = 34 :: ascii ",\"pid\":" := rfl
    rw [keyedText, hid, intText_natCast, hcomma, hquote]
    simp only [List.append_assoc, List.cons_append, List.nil_append]
  have hnot : (34 : UInt8) ∉ e.name := by
    rw [hname, List.mem_append, not_or]
    exact ⟨by decide, not_mem_decimal (by decide) id⟩
  have hlen : e.name.length ≤ 63 := by
    have hidlen : (decimal id).length ≤ 10 := length_decimal_le (Nat.succ_pos _) (by omega)
    have hfront : (ascii "session-").length = 8 := rfl
    rw [hname, List.length_append]
    omega
  rw [statusName, hsplit, strstr_append_needle hskips]
  dsimp only
  rw [List.drop_left' hkey]
  cases hstop : strchr (e.name ++ 34 :: (ascii ",\"pid\":" ++ (intText e.pid ++
      (ascii "\x7d" ++ rest)))) 34 with
  | none =>
      rw [strchr_eq_none_iff] at hstop
      simp at hstop
  | some stop =>
      dsimp only
      rw [take_strchr hstop, before_append_of_not_mem hnot]
      exact List.take_of_length_le hlen

/-- From `"id":` on the shell finds the process. -/
theorem statusPid_keyedText
    (h : Started e)
    (rest : Bytes) :
    statusPid (keyedText e ++ rest) = e.pid := by
  obtain ⟨id, pid, hid, hpid, -, hpidlt, hname⟩ := started_numbers h
  have hdigits : ∀ n, skips (ascii "\"pid\":") (decimal n) = true := skips_decimal rfl
  have hskips : skips (ascii "\"pid\":") (ascii "\"id\":" ++ (decimal id ++
      (ascii ",\"name\":\"session-" ++ (decimal id ++ ascii "\",")))) = true :=
    skips_append rfl (skips_append (hdigits id)
      (skips_append rfl (skips_append (hdigits id) rfl)))
  have hkey : (ascii "\"pid\":").length = 6 := rfl
  have hsplit : keyedText e ++ rest =
      (ascii "\"id\":" ++ (decimal id ++ (ascii ",\"name\":\"session-" ++ (decimal id ++
        ascii "\",")))) ++ (ascii "\"pid\":" ++ (decimal pid ++ 125 :: rest)) := by
    have hnameKey : ascii ",\"name\":\"session-" = ascii ",\"name\":\"" ++ ascii "session-" :=
      rfl
    have hpidKey : ascii "\",\"pid\":" = ascii "\"," ++ ascii "\"pid\":" := rfl
    have hclose : ascii "\x7d" = [125] := rfl
    rw [keyedText, hid, hpid, hname, intText_natCast, intText_natCast, hnameKey, hpidKey, hclose]
    simp only [List.append_assoc, List.cons_append, List.nil_append]
  rw [statusPid, hsplit, strstr_append_needle hskips]
  dsimp only
  rw [List.drop_left' hkey, hpid]
  exact atoi_decimal hpidlt rfl rest

/-- The line for the place of a session is that of the session. -/
theorem statusRow_keyedText
    (h : Started e)
    (rest : Bytes) :
    statusRow (keyedText e ++ rest) = rowOf e := by
  rw [statusRow, id_of_keyedText h, statusName_keyedText h, statusPid_keyedText h, rowOf]

/-- The loop reads the sessions in order, from any text in which no `"id":` starts. -/
theorem statusRows_listingItems
    {sessions : List SessionInfo}
    (hstarted : ∀ e ∈ sessions, Started e)
    {pre : Bytes}
    (hpre : skips (ascii "\"id\":") pre = true)
    (i : Nat)
    {turns : Nat}
    (hturns : sessions.length < turns) :
    statusRows turns (pre ++ (listingItems i sessions ++ ascii "]\x7d")) =
      some (sessions.map rowOf) := by
  induction sessions generalizing pre i turns with
  | nil =>
      cases turns with
      | zero => omega
      | succ turns =>
          have hnone : strstr (ascii "\"id\":") (ascii "]\x7d") = none := rfl
          rw [statusRows, strstr_append_of_skips hpre, listingItems, List.nil_append, hnone]
          rfl
  | cons e es ih =>
      cases turns with
      | zero => simp at hturns
      | succ turns =>
          rw [List.forall_mem_cons] at hstarted
          rw [List.length_cons] at hturns
          have hopen : skips (ascii "\"id\":") (itemOpen i) = true := by
            unfold itemOpen
            split_ifs <;> decide
          have hsplit :
              pre ++ (listingItems i (e :: es) ++ ascii "]\x7d") =
                (pre ++ itemOpen i) ++
                  (keyedText e ++ (listingItems (i + 1) es ++ ascii "]\x7d")) := by
            rw [listingItems, listingItem_eq]
            simp only [List.append_assoc]
          have hfound : strstr (ascii "\"id\":")
              (keyedText e ++ (listingItems (i + 1) es ++ ascii "]\x7d")) =
                some (keyedText e ++ (listingItems (i + 1) es ++ ascii "]\x7d")) := by
            apply strstr_of_prefix
            rw [keyedText, List.append_assoc]
            exact List.prefix_append _ _
          have hdrop : (keyedText e ++ (listingItems (i + 1) es ++ ascii "]\x7d")).drop 1 =
              (keyedText e).drop 1 ++ (listingItems (i + 1) es ++ ascii "]\x7d") :=
            List.drop_append_of_le_length (by simp [keyedText, ascii])
          rw [hsplit, statusRows, strstr_append_of_skips (skips_append hpre hopen), hfound]
          dsimp only
          rw [hdrop, ih hstarted.2 (skips_keyedText hstarted.1) (i + 1) (by omega),
            statusRow_keyedText hstarted.1]
          rfl

end Reading

section Reachable

/-- A call as the daemon makes it: a session has no name of its own, and `clone` returns a
process of type `pid_t` in the parent, or fails. -/
def FromDaemon : Operation → Prop
  | .create args sys => args.name = none ∧ sys.childPid ≠ 0 ∧ sys.childPid ≤ intMax
  | _ => True

/-- What a call of the daemon keeps of the table. -/
structure Startable (t : SessionTable) : Prop where
  started : ∀ e ∈ t.sessions, Started e
  nextId_le : t.nextId ≤ intMax

/-- Ending sessions leaves sessions that were started. -/
theorem startable_of_subset
    {t t' : SessionTable}
    (h : Startable t)
    (hsub : ∀ e ∈ t'.sessions, e ∈ t.sessions)
    (hnext : t'.nextId = t.nextId) :
    Startable t' :=
  ⟨fun e he => h.started e (hsub e he), hnext ▸ h.nextId_le⟩

/-- A creation adds a session that was started, if any. -/
theorem startable_create
    {t : SessionTable} {args : CreateArgs} {sys : CreateSys}
    (h : Startable t)
    (hcall : FromDaemon (.create args sys))
    (hnext : ¬ (createWrites t ∧ t.nextId = intMax)) :
    Startable (sessionCreate t args sys).1 := by
  obtain ⟨hname, hpid, hpidle⟩ := hcall
  by_cases hw : createWrites t
  · have hle := h.nextId_le
    have hlt : t.nextId + 1 ≤ intMax := by
      have hne : t.nextId ≠ intMax := fun heq => hnext ⟨hw, heq⟩
      omega
    by_cases hok : sys.stack = true ∧ 0 ≤ sys.childPid
    · have hsessions : (sessionCreate t args sys).1.sessions =
          t.sessions ++ [activeEntry t.nextId args sys] := by
        rw [sessionCreate_done hw hok]
        exact sessions_addSession t _ hw.2 rfl
      have hnextId : (sessionCreate t args sys).1.nextId = t.nextId + 1 := by
        rw [sessionCreate_done hw hok]
        rfl
      refine ⟨?_, hnextId ▸ hlt⟩
      rw [hsessions, List.forall_mem_append, List.forall_mem_singleton]
      refine ⟨h.started, ?_, t.next_pos, hle, ?_, hpidle⟩
      · simp only [activeEntry, startingEntry, hname]
      · have hpos : 0 < sys.childPid := by omega
        exact hpos
    · rw [sessionCreate_failed hw hok]
      exact ⟨by simpa using h.started, hlt⟩
  · rw [sessionCreate, createLocked_of_not_writes hw]
    exact h

/-- Every call of the daemon leaves sessions that were started. -/
theorem startable_step
    {s s' : SessionTable × List Answer} {op : Operation}
    (h : Startable s.1)
    (hcall : FromDaemon op)
    (hstep : tableStep s op = some s') :
    Startable s'.1 := by
  rw [tableStep, Option.map_eq_some_iff] at hstep
  obtain ⟨r, hperform, rfl⟩ := hstep
  cases op with
  | create args sys =>
      simp only [perform] at hperform
      split_ifs at hperform with hnext
      obtain rfl := Option.some.inj hperform
      exact startable_create h hcall hnext
  | destroy id =>
      obtain rfl := Option.some.inj hperform
      obtain ⟨hsessions, hnextId, -⟩ := sessionDestroy_spec s.1 id
      refine startable_of_subset h (fun e he => ?_) hnextId
      rw [hsessions] at he
      exact List.mem_of_mem_filter he
  | destroyAll =>
      obtain rfl := Option.some.inj hperform
      obtain ⟨hsessions, hnextId, -⟩ := sessionDestroyAll_spec s.1
      exact startable_of_subset h (by simp [hsessions]) hnextId
  | getInfo id =>
      obtain rfl := Option.some.inj hperform
      exact h
  | list =>
      obtain rfl := Option.some.inj hperform
      exact h

/-- Every table that the daemon reaches holds at most `SESSION_MAX_ACTIVE` sessions, all as
`session_start` creates them. -/
theorem started_of_run
    {t : SessionTable} {answers : List Answer} {ops : List Operation}
    (hcalls : ∀ op ∈ ops, FromDaemon op)
    (hrun : run tableStep (sessionInit, []) ops = some (t, answers)) :
    t.sessions.length ≤ sessionMaxActive ∧ ∀ e ∈ t.sessions, Started e := by
  have hstep :
      ∀ (s : SessionTable × List Answer) op s', Startable s.1 → FromDaemon op →
        tableStep s op = some s' → Startable s'.1 :=
    fun _ _ _ h hcall hstep => startable_step h hcall hstep
  have hinit : Startable sessionInit :=
    ⟨by simp [SessionTable.sessions, sessionInit], by decide⟩
  have hend := invariant_of_guarded hstep hinit (guarded_of_forall_mem hcalls _) hrun
  exact ⟨(length_sessions t).trans_le t.count_le, hend.started⟩

end Reachable

section RoundTrip

variable {sessions : List SessionInfo}

/-- The shell reads the number of sessions. -/
theorem statusCount_listingText
    (hlen : sessions.length ≤ sessionMaxActive) :
    statusCount (listingText sessions) = sessions.length := by
  have hskips : skips (ascii "\"count\":") (ascii "\x7b\"status\":\"ok\",") = true := rfl
  have hkey : (ascii "\"count\":").length = 8 := rfl
  have hsplit : listingText sessions =
      ascii "\x7b\"status\":\"ok\"," ++ (ascii "\"count\":" ++ (decimal sessions.length ++
        44 :: (ascii "\"sessions\":[" ++ (listingItems 0 sessions ++ ascii "]\x7d")))) := by
    have hcount : ascii "\x7b\"status\":\"ok\",\"count\":" =
        ascii "\x7b\"status\":\"ok\"," ++ ascii "\"count\":" := rfl
    have hcomma : ascii ",\"sessions\":[" = 44 :: ascii "\"sessions\":[" := rfl
    rw [listingText, listingHeader, intText_natCast, hcount, hcomma]
    simp only [List.append_assoc, List.cons_append]
  rw [sessionMaxActive] at hlen
  rw [statusCount, hsplit, strstr_append_needle hskips]
  dsimp only
  rw [List.drop_left' hkey]
  exact atoi_decimal (by omega) rfl _

/-- The shell finds the beginning of the sessions. -/
theorem strstr_sessions_listingText :
    strstr (ascii "\"sessions\":[") (listingText sessions) =
      some (ascii "\"sessions\":[" ++ (listingItems 0 sessions ++ ascii "]\x7d")) := by
  have hskips : skips (ascii "\"sessions\":[") (ascii "\x7b\"status\":\"ok\",\"count\":" ++
      (decimal sessions.length ++ ascii ",")) = true :=
    skips_append rfl (skips_append (skips_decimal rfl _) rfl)
  have hsplit : listingText sessions = (ascii "\x7b\"status\":\"ok\",\"count\":" ++
      (decimal sessions.length ++ ascii ",")) ++
        (ascii "\"sessions\":[" ++ (listingItems 0 sessions ++ ascii "]\x7d")) := by
    have hkey : ascii ",\"sessions\":[" = ascii "," ++ ascii "\"sessions\":[" := rfl
    rw [listingText, listingHeader, intText_natCast, hkey]
    simp only [List.append_assoc]
  rw [hsplit]
  exact strstr_append_needle hskips _

/-- The shell reads the listing back. -/
theorem securesessionStatus_listingText
    (hlen : sessions.length ≤ sessionMaxActive)
    (hstarted : ∀ e ∈ sessions, Started e)
    {turns : Nat}
    (hturns : sessions.length < turns) :
    securesessionStatus turns (listingText sessions) =
      some ⟨sessions.length, sessions.map rowOf⟩ := by
  have hcount := statusCount_listingText hlen
  have hkey : skips (ascii "\"id\":") (ascii "\"sessions\":[") = true := rfl
  have hrows := statusRows_listingItems hstarted hkey 0 hturns
  rw [securesessionStatus, hcount, strstr_sessions_listingText]
  dsimp only
  split_ifs with hzero
  · obtain rfl : sessions = [] := List.length_eq_zero_iff.mp (by omega)
    rfl
  · rw [hrows]
    rfl

/--
**The session listing round-trips.**  For at most `SESSION_MAX_ACTIVE` sessions as
`session_start` creates them, whatever their ids and processes, the response of the daemon
is not cut off, the offset stays below the size of the buffer, and the loop of the shell
ends with the ids, names and processes of all sessions in order, and their number.
-/
theorem session_listing_roundtrip
    (sessions : List SessionInfo)
    (hlen : sessions.length ≤ sessionMaxActive)
    (hstarted : ∀ e ∈ sessions, Started e) :
    RoundTrips sessions := by
  obtain ⟨hwhole, hfits, hinside⟩ := sessionListResponse_spec hlen hstarted
  refine ⟨hwhole, hfits, hinside, fun turns hturns => ?_⟩
  have hread : sendCmdRead (sessionListResponse respBufSize sessions).text =
      listingText sessions := by
    rw [respBufSize] at hfits
    rw [sendCmdRead, List.take_of_length_le (by rw [respBufSize]; omega), hwhole]
  rw [hread]
  exact securesessionStatus_listingText hlen hstarted hturns

/-- A session of process 100 under the id 1, and one of the greatest numbers. -/
def twoSessions : List SessionInfo :=
  [activeEntry 1 ⟨none, 0, 0⟩ ⟨0, true, 100⟩,
    activeEntry intMax ⟨none, 0, 0⟩ ⟨0, true, intMax⟩]

theorem two_sessions_roundtrip :
    twoSessions.length ≤ sessionMaxActive ∧ RoundTrips twoSessions := by
  refine ⟨by decide, session_listing_roundtrip twoSessions (by decide) ?_⟩
  intro e he
  simp only [twoSessions, List.mem_cons, List.not_mem_nil, or_false] at he
  rcases he with rfl | rfl
  · exact ⟨rfl, by decide, by decide, by decide, by decide⟩
  · exact ⟨rfl, by decide, by decide, by decide, by decide⟩

end RoundTrip

end Daemon
end SecureZ
