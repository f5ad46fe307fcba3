import SecureZ.Engine.Integrity
import SecureZ.Lib.Stream
import SecureZ.Lib.Transition

/-!
# The integrity monitor

`integrity_monitor_daemon` waits in `read` for the events of the watched directories.  One call
returns several of them, each a header of sixteen bytes with the length of the padded name
behind it; the loop goes through the buffer from header to header.  A signal only clears
`running`, which is looked at between two calls of `read`.

The kernel keeps the events in a queue and hands out as many of them as fit; the buffer still
holds what earlier calls left there.  The main result is about every interleaving of file
events, signals and returns of `read`: every event with a name is reported exactly once and in
order, and the loop ends with the first return after a signal.
-/

namespace SecureZ
namespace Integrity

open CLib Transition

section Model

/-- `EVENT_SIZE`. -/
def eventSize : Nat := 16

/-- `BUF_LEN`. -/
def bufLen : Nat := 1024 * (eventSize + 256)

/-- `IN_MODIFY`. -/
def inModify : Nat := 0x2

/-- `IN_CREATE`. -/
def inCreate : Nat := 0x100

/-- `IN_DELETE`. -/
def inDelete : Nat := 0x200

/-- The priorities of `syslog`. -/
inductive Priority
  | crit
  | err
  | warning
  | info
deriving DecidableEq

/-- A line of the system log. -/
structure LogLine where
  priority : Priority
  text : Bytes
deriving DecidableEq

/-- An event as it lies in the buffer: the mask, and the name if there is one. -/
structure SeenEvent where
  mask : Nat
  name : Option CString
deriving DecidableEq

/-- The line that is logged for an event with a name. -/
def tamperLine (mask : Nat) (name : CString) : LogLine :=
  if mask &&& inDelete ≠ 0 then
    ⟨.crit, ascii "[TAMPER] File deleted: " ++ name.bytes⟩
  else if mask &&& (inModify ||| inCreate) ≠ 0 then
    ⟨.crit, ascii "[TAMPER] File modified: " ++ name.bytes⟩
  else
    ⟨.warning, ascii "[TAMPER] File moved: " ++ name.bytes⟩

/-- The status that the callback gets. -/
def tamperStatus (mask : Nat) : IntegrityStatus :=
  if mask &&& inDelete ≠ 0 then .missing else .modified

/-- What the loop over a buffer works on: the index, and what was reported so far. -/
structure Walk where
  index : Int
  log : List LogLine
  calls : List (CString × IntegrityStatus)

/-- The event at an index of the buffer, with the index behind it; none when the read leaves
the buffer. -/
def eventAt (buf : Bytes) (index : Int) : Option (SeenEvent × Int) := do
  guard (0 ≤ index)
  let header ← readSlice buf index.toNat eventSize
  let mask := leNat (slice header 4 4)
  let len := leNat (slice header 12 4)
  let behind := Int.bmod (index + eventSize + len) (2 ^ 32)
  if len = 0 then return (⟨mask, none⟩, behind)
  else
    let text := buf.drop (index.toNat + eventSize)
    guard (0 ∈ text)
    return (⟨mask, some (cstr text)⟩, behind)

/-- What a turn reports for an event. -/
def Walk.report (w : Walk) (callback : Bool) (e : SeenEvent) : Walk :=
  match e.name with
  | none => w
  | some name =>
      { w with
        log := w.log ++ [tamperLine e.mask name]
        calls := if callback then w.calls ++ [(name, tamperStatus e.mask)] else w.calls }

/-- A turn of the loop over the buffer; the result is none when a read leaves the buffer. -/
def walkTurn (callback : Bool) (buf : Bytes) (length : Nat) (w : Walk) :
    Turn Walk (Option Walk) :=
  if w.index < length then
    match eventAt buf w.index with
    | none => .done none
    | some (e, behind) => .next { w.report callback e with index := behind }
  else .done (some w)

/-- The loop over a buffer of which `length` bytes were read. -/
def walkBuffer (callback : Bool) (buf : Bytes) (length : Nat) (w : Walk) : Option Walk :=
  (iterate (walkTurn callback buf length) bufLen { w with index := 0 }).join

end Model

section Kernel

/-- An event as the kernel queues it.  The name is that of an entry of the watched directory,
at most 255 bytes long. -/
structure QueuedEvent where
  wd : Nat
  mask : Nat
  cookie : Nat
  name : Option CString
  mask_lt : mask < 2 ^ 32
  name_ne : ∀ n, name = some n → n.bytes ≠ []
  name_le : ∀ n, name = some n → n.strlen ≤ 255
deriving DecidableEq

/-- The name of an event in the buffer, padded with NULs to a multiple of the header. -/
def QueuedEvent.field (e : QueuedEvent) : Bytes :=
  match e.name with
  | none => []
  | some name =>
      name.bytes ++ List.replicate (eventSize * (name.strlen / eventSize + 1) - name.strlen) 0

/-- The bytes of an event. -/
def QueuedEvent.bytes (e : QueuedEvent) : Bytes :=
  leBytes 4 e.wd ++ leBytes 4 e.mask ++ leBytes 4 e.cookie ++ leBytes 4 e.field.length ++ e.field

/-- The event that the loop is to see. -/
def QueuedEvent.seen (e : QueuedEvent) : SeenEvent := ⟨e.mask, e.name⟩

/-- The bytes of some events. -/
def queueBytes (es : List QueuedEvent) : Bytes :=
  (es.map QueuedEvent.bytes).flatten

end Kernel

section Daemon

/-- Where the monitor is. -/
inductive Phase
  /-- In `read`. -/
  | reading
  /-- Behind the loop, with the descriptor closed. -/
  | returned
  /-- Outside the buffer. -/
  | undefined
deriving DecidableEq

/-- The monitor, with the queue of the kernel. -/
structure MonitorState where
  phase : Phase
  running : Bool
  buf : Bytes
  queue : List QueuedEvent
  log : List LogLine
  calls : List (CString × IntegrityStatus)

/-- What happens to the monitor. -/
inductive MonitorEvent
  | fileEvent (e : QueuedEvent)
  /-- `SIGTERM` or `SIGINT`. -/
  | signal
  /-- `read` returns with this many events. -/
  | readReturns (n : Nat)
  /-- `read` returns -1 with `EINTR`. -/
  | readInterrupted
  /-- `read` returns -1 with another error. -/
  | readFails
deriving DecidableEq

/-- The head of the loop. -/
def MonitorState.loopHead (s : MonitorState) : MonitorState :=
  { s with phase := if s.running then .reading else .returned }

/-- The lines that are logged while the watches are added; `watch` tells which succeed. -/
def watchLine (watch : CString → Bool) (error : CString → CString) (dir : CString) : LogLine :=
  if watch dir then ⟨.info, ascii "Watching: " ++ dir.bytes⟩
  else ⟨.warning, ascii "Cannot watch " ++ dir.bytes ++ ascii ": " ++ (error dir).bytes⟩

/-- The log when the loop begins. -/
def startLog (watch : CString → Bool) (error : CString → CString) : List LogLine :=
  ⟨.info, ascii "Integrity monitor started"⟩ :: watchedDirs.map (watchLine watch error)

/-- The monitor at the head of its loop for the first time; `running` may have been cleared
already. -/
def monitorStart
    (watch : CString → Bool) (error : CString → CString) (running : Bool) (buf : Bytes) :
    MonitorState :=
  MonitorState.loopHead ⟨.reading, running, buf, [], startLog watch error, []⟩

/-- The log when `inotify_init` fails. -/
def failedLog (error : CString) : List LogLine :=
  [⟨.info, ascii "Integrity monitor started"⟩,
    ⟨.err, ascii "inotify_init failed: " ++ error.bytes⟩]

/-- The monitor behind `inotify_init`, which may fail with an error: then nothing is watched. -/
def monitorEntry
    (initError : Option CString) (watch : CString → Bool) (error : CString → CString)
    (running : Bool) (buf : Bytes) : MonitorState :=
  match initError with
  | none => monitorStart watch error running buf
  | some e => ⟨.returned, running, buf, [], failedLog e, []⟩

/-- The monitor behind a read that returned these bytes. -/
def MonitorState.handle (s : MonitorState) (callback : Bool) (read : Bytes) : MonitorState :=
  let buf := read ++ s.buf.drop read.length
  match walkBuffer callback buf read.length ⟨0, s.log, s.calls⟩ with
  | none => { s with phase := .undefined, buf := buf }
  | some w => MonitorState.loopHead { s with buf := buf, log := w.log, calls := w.calls }

/-- `integrity_monitor_daemon`, with the kernel. -/
def monitorStep (callback : Bool) (s : MonitorState) : MonitorEvent → Option MonitorState
  | .fileEvent e => some { s with queue := s.queue ++ [e] }
  | .signal => some { s with running := false }
  | .readReturns n =>
      if s.phase = .reading ∧ 0 < n ∧ n ≤ s.queue.length ∧
          (queueBytes (s.queue.take n)).length ≤ bufLen then
        some (MonitorState.handle { s with queue := s.queue.drop n } callback
          (queueBytes (s.queue.take n)))
      else none
  | .readInterrupted => if s.phase = .reading then some s.loopHead else none
  | .readFails => if s.phase = .reading then some { s with phase := .returned } else none

end Daemon

section Reports

/-- The line that an event is to be logged with. -/
def QueuedEvent.line (e : QueuedEvent) : Option LogLine :=
  e.name.map (tamperLine e.mask)

/-- What the callback is to be called with for an event. -/
def QueuedEvent.call (callback : Bool) (e : QueuedEvent) : Option (CString × IntegrityStatus) :=
  if callback then e.name.map fun name => (name, tamperStatus e.mask) else none

/-- The events that the kernel queued. -/
def arrived (events : List MonitorEvent) : List QueuedEvent :=
  events.filterMap fun
    | .fileEvent e => some e
    | _ => none

/-- `read` returns to the loop, which goes on. -/
def MonitorEvent.Returns : MonitorEvent → Prop
  | .readReturns _ => True
  | .readInterrupted => True
  | _ => False

/-- An end of the loop: `read` fails, or it returns after a signal. -/
def Ends (running : Bool) (events : List MonitorEvent) : Prop :=
  running = false ∨ ∃ before last after, events = before ++ last :: after ∧
    (last = .readFails ∨ last.Returns ∧ .signal ∈ before)

end Reports

section Buffer

@[simp] theorem queueBytes_cons
    (e : QueuedEvent) (es : List QueuedEvent) :
    queueBytes (e :: es) = e.bytes ++ queueBytes es := by
  simp [queueBytes]

theorem length_field_le
    (e : QueuedEvent) :
    e.field.length ≤ 256 := by
  unfold QueuedEvent.field eventSize
  cases hname : e.name with
  | none =>
      simp
  | some name =>
      have hle := e.name_le name hname
      simp only [CString.strlen, List.length_append, List.length_replicate] at hle ⊢
      omega

theorem length_field_eq_zero_iff
    (e : QueuedEvent) :
    e.field.length = 0 ↔ e.name = none := by
  unfold QueuedEvent.field
  cases hname : e.name with
  | none =>
      simp
  | some name =>
      have hne := e.name_ne name hname
      simp [hne]

@[simp] theorem length_bytes
    (e : QueuedEvent) :
    e.bytes.length = eventSize + e.field.length := by
  simp [QueuedEvent.bytes, eventSize]
  omega

/-- A name is followed by a NUL inside its event. -/
theorem field_eq_of_name
    {e : QueuedEvent} {name : CString}
    (hname : e.name = some name) :
    ∃ k, e.field = name.bytes ++ 0 :: List.replicate k 0 := by
  have hpad : eventSize * (name.strlen / eventSize + 1) - name.strlen =
      eventSize * (name.strlen / eventSize + 1) - name.strlen - 1 + 1 := by
    have := Nat.lt_mul_div_succ name.strlen (by decide : 0 < eventSize)
    omega
  refine ⟨eventSize * (name.strlen / eventSize + 1) - name.strlen - 1, ?_⟩
  simp only [QueuedEvent.field, hname]
  conv_lhs => rw [hpad, List.replicate_succ]

/-- A C string in a buffer ends at its NUL. -/
theorem cstr_append_nul
    (name : CString) (rest : Bytes) :
    cstr (name.bytes ++ 0 :: rest) = name := by
  ext1
  have hfree : ∀ b ∈ name.bytes, (b != 0) = true := by
    intro b hb
    have : b ≠ 0 := fun h0 => name.nulFree (h0 ▸ hb)
    simpa using this
  change (name.bytes ++ 0 :: rest).takeWhile _ = name.bytes
  rw [List.takeWhile_append_of_pos hfree, List.takeWhile_cons_of_neg (by decide),
    List.append_nil]

/-- The event that begins at an index of the buffer is read as it was queued. -/
theorem eventAt_front
    {front rest : Bytes} {e : QueuedEvent}
    (hfits : front.length + e.bytes.length ≤ bufLen) :
    eventAt (front ++ (e.bytes ++ rest)) front.length =
      some (e.seen, ((front.length + e.bytes.length : Nat) : Int)) := by
  have hfield := length_field_le e
  have hlen := length_bytes e
  have hheader : readSlice (front ++ (e.bytes ++ rest)) front.length eventSize =
      some (leBytes 4 e.wd ++ leBytes 4 e.mask ++ leBytes 4 e.cookie ++
        leBytes 4 e.field.length) := by
    rw [readSlice_eq_some_iff]
    constructor
    · simp only [List.length_append]
      omega
    · rw [slice, List.drop_left, QueuedEvent.bytes, List.append_assoc]
      exact (List.take_left' (by simp [eventSize])).symm
  have hmask : leNat (slice (leBytes 4 e.wd ++ leBytes 4 e.mask ++ leBytes 4 e.cookie ++
      leBytes 4 e.field.length) 4 4) = e.mask := by
    have hslice : slice (leBytes 4 e.wd ++ leBytes 4 e.mask ++ leBytes 4 e.cookie ++
        leBytes 4 e.field.length) 4 4 = leBytes 4 e.mask := by
      simp only [slice, List.append_assoc]
      rw [List.drop_left' (by simp), List.take_left' (by simp)]
    rw [hslice]
    exact leNat_leBytes_of_lt e.mask_lt
  have hlength : leNat (slice (leBytes 4 e.wd ++ leBytes 4 e.mask ++ leBytes 4 e.cookie ++
      leBytes 4 e.field.length) 12 4) = e.field.length := by
    have hslice : slice (leBytes 4 e.wd ++ leBytes 4 e.mask ++ leBytes 4 e.cookie ++
        leBytes 4 e.field.length) 12 4 = leBytes 4 e.field.length := by
      rw [slice, List.drop_left' (by simp), List.take_of_length_le (by simp)]
    rw [hslice]
    exact leNat_leBytes_of_lt (by omega)
  have hbehind : Int.bmod ((front.length : Int) + eventSize + e.field.length) (2 ^ 32) =
      ((front.length + e.bytes.length : Nat) : Int) := by
    have hroom : bufLen = 278528 := rfl
    rw [Int.bmod_eq_of_le] <;> omega
  simp only [eventAt, Int.toNat_natCast, hheader, Option.bind_eq_bind, Option.bind_some, hmask,
    hlength, hbehind, Int.natCast_nonneg, guard_true, Option.pure_def]
  by_cases hname : e.name = none
  · rw [if_pos ((length_field_eq_zero_iff e).mpr hname), QueuedEvent.seen, hname]
  · obtain ⟨name, hname⟩ := Option.ne_none_iff_exists'.mp hname
    obtain ⟨k, hfield⟩ := field_eq_of_name hname
    have htext : (front ++ (e.bytes ++ rest)).drop (front.length + eventSize) =
        name.bytes ++ 0 :: (List.replicate k 0 ++ rest) := by
      have hhead : e.bytes ++ rest = (leBytes 4 e.wd ++ leBytes 4 e.mask ++ leBytes 4 e.cookie ++
          leBytes 4 e.field.length) ++ (e.field ++ rest) := by
        simp only [QueuedEvent.bytes, List.append_assoc]
      rw [hhead, ← List.append_assoc front, List.drop_left' (by simp [eventSize]), hfield]
      simp
    have hcstr := cstr_append_nul name (List.replicate k 0 ++ rest)
    rw [if_neg (mt (length_field_eq_zero_iff e).mp (by simp [hname])), QueuedEvent.seen, hname]
    simp [htext, hcstr]

end Buffer

section Walking

variable {callback : Bool}

/-- What a turn reports is what its event is to be reported with. -/
theorem report_seen
    (callback : Bool) (w : Walk) (e : QueuedEvent) :
    (w.report callback e.seen).log = w.log ++ e.line.toList ∧
      (w.report callback e.seen).calls = w.calls ++ (e.call callback).toList := by
  unfold Walk.report QueuedEvent.seen QueuedEvent.line QueuedEvent.call
  cases e.name with
  | none =>
      simp
  | some name =>
      cases callback <;> simp

/-- The events that are still ahead in the buffer, with all that there is to report. -/
structure Ahead
    (callback : Bool) (buf : Bytes) (length : Nat)
    (log : List LogLine) (calls : List (CString × IntegrityStatus))
    (es : List QueuedEvent) (w : Walk) : Prop where
  behind : ∃ front rest, buf = front ++ (queueBytes es ++ rest) ∧ w.index = front.length ∧
    length = front.length + (queueBytes es).length
  log_eq : w.log ++ es.filterMap QueuedEvent.line = log
  calls_eq : w.calls ++ es.filterMap (QueuedEvent.call callback) = calls

variable {buf : Bytes} {length : Nat}
  {log : List LogLine} {calls : List (CString × IntegrityStatus)}

/-- A turn goes over the next event. -/
theorem walkTurn_event
    (hlength : length ≤ bufLen)
    {e : QueuedEvent} {es : List QueuedEvent} {w : Walk}
    (h : Ahead callback buf length log calls (e :: es) w) :
    ∃ w', walkTurn callback buf length w = .next w' ∧
      Ahead callback buf length log calls es w' := by
  obtain ⟨front, rest, hbuf, hindex, hlen⟩ := h.behind
  rw [queueBytes_cons, List.append_assoc] at hbuf
  rw [queueBytes_cons, List.length_append] at hlen
  have hbytes := length_bytes e
  have hsize : eventSize = 16 := rfl
  have hevent : eventAt buf w.index =
      some (e.seen, ((front.length + e.bytes.length : Nat) : Int)) := by
    rw [hbuf, hindex]
    exact eventAt_front (by omega)
  obtain ⟨hlog, hcalls⟩ := report_seen callback w e
  refine ⟨_, by rw [walkTurn, if_pos (by omega), hevent], ⟨front ++ e.bytes, rest, ?_, ?_, ?_⟩,
    ?_, ?_⟩
  · rw [hbuf, List.append_assoc]
  · simp
  · rw [List.length_append]
    omega
  · change (w.report callback e.seen).log ++ _ = log
    rw [hlog, ← h.log_eq, List.filterMap_cons]
    cases e.line <;> simp
  · change (w.report callback e.seen).calls ++ _ = calls
    rw [hcalls, ← h.calls_eq, List.filterMap_cons]
    cases e.call callback <;> simp

/-- Every event takes up a header. -/
theorem length_le_queueBytes
    (es : List QueuedEvent) :
    eventSize * es.length ≤ (queueBytes es).length := by
  induction es with
  | nil =>
      exact Nat.le_refl _
  | cons e es ih =>
      rw [queueBytes_cons, List.length_append, length_bytes, List.length_cons, Nat.mul_succ]
      omega

/-- The loop over a buffer reports its events in order, whatever lies behind them. -/
theorem walkBuffer_events
    (callback : Bool)
    {es : List QueuedEvent}
    (hfits : (queueBytes es).length ≤ bufLen)
    (rest : Bytes) (index : Int) (log : List LogLine) (calls : List (CString × IntegrityStatus)) :
    ∃ i, walkBuffer callback (queueBytes es ++ rest) (queueBytes es).length ⟨index, log, calls⟩ =
      some ⟨i, log ++ es.filterMap QueuedEvent.line,
        calls ++ es.filterMap (QueuedEvent.call callback)⟩ := by
  have hstart : Ahead callback (queueBytes es ++ rest) (queueBytes es).length
      (log ++ es.filterMap QueuedEvent.line)
      (calls ++ es.filterMap (QueuedEvent.call callback)) (es ++ []) ⟨0, log, calls⟩ :=
    ⟨⟨[], rest, by simp, by simp, by simp⟩, by simp, by simp⟩
  have hturn : ∀ e es' w, True → Ahead callback (queueBytes es ++ rest) (queueBytes es).length
      (log ++ es.filterMap QueuedEvent.line)
      (calls ++ es.filterMap (QueuedEvent.call callback)) (e :: es') w → _ :=
    fun e es' w _ h => walkTurn_event hfits h
  obtain ⟨⟨i, log', calls'⟩, hlast, hrun⟩ := iterate_pass hturn (fun _ _ => trivial) hstart
  obtain ⟨⟨front, _, -, hi, hlen⟩, hlog, hcalls⟩ := hlast
  have hdone : walkTurn callback (queueBytes es ++ rest) (queueBytes es).length
      ⟨i, log', calls'⟩ = .done (some ⟨i, log', calls'⟩) := by
    have hend : (queueBytes ([] : List QueuedEvent)).length = 0 := rfl
    rw [hend] at hlen
    rw [walkTurn, if_neg]
    simp only at hi ⊢
    omega
  have hroom : bufLen = 278528 := rfl
  have hcount : 16 * es.length ≤ (queueBytes es).length := length_le_queueBytes es
  obtain ⟨k, hk⟩ : ∃ k, bufLen = es.length + (k + 1) := ⟨bufLen - es.length - 1, by omega⟩
  refine ⟨i, ?_⟩
  rw [walkBuffer, hk]
  simp only [List.filterMap_nil, List.append_nil] at hlog hcalls
  rw [hrun, iterate_done hdone, ← hlog, ← hcalls]
  rfl

end Walking

section Runs

variable {callback running : Bool}

theorem ends_snoc_iff
    {events : List MonitorEvent} {e : MonitorEvent} :
    Ends running (events ++ [e]) ↔
      Ends running events ∨ e = .readFails ∨ e.Returns ∧ .signal ∈ events := by
  unfold Ends
  constructor
  · rintro (hstopped | ⟨before, last, after, hsplit, hlast⟩)
    · exact Or.inl (Or.inl hstopped)
    · rcases List.eq_nil_or_concat' after with rfl | ⟨after', e', rfl⟩
      · obtain ⟨rfl, hsame⟩ := List.append_inj' hsplit rfl
        obtain rfl : e = last := by simpa using hsame
        exact Or.inr hlast
      · rw [← List.cons_append, ← List.append_assoc] at hsplit
        obtain ⟨rfl, -⟩ := List.append_inj' hsplit rfl
        exact Or.inl (Or.inr ⟨before, last, after', rfl, hlast⟩)
  · rintro ((hstopped | ⟨before, last, after, rfl, hlast⟩) | hlast)
    · exact Or.inl hstopped
    · exact Or.inr ⟨before, last, after ++ [e], by simp, hlast⟩
    · exact Or.inr ⟨events, e, [], rfl, hlast⟩

/-- What the monitor has reported and what is still to be reported, behind some events. -/
structure Reported
    (callback running : Bool) (log : List LogLine)
    (events : List MonitorEvent) (s : MonitorState) : Prop where
  defined : s.phase ≠ .undefined
  log_eq : s.log ++ s.queue.filterMap QueuedEvent.line =
    log ++ (arrived events).filterMap QueuedEvent.line
  calls_eq : s.calls ++ s.queue.filterMap (QueuedEvent.call callback) =
    (arrived events).filterMap (QueuedEvent.call callback)
  stopped : s.running = false ↔ running = false ∨ .signal ∈ events
  returned : s.phase = .returned ↔ Ends running events

variable {log : List LogLine} {events : List MonitorEvent} {s s' : MonitorState}

theorem arrived_snoc
    (events : List MonitorEvent) (e : MonitorEvent) :
    arrived (events ++ [e]) = arrived events ++ arrived [e] :=
  List.filterMap_append

/-- Behind a read, the head of the loop looks at `running` for the first time since. -/
theorem Reported.loopHead
    (h : Reported callback running log events s)
    (hreading : s.phase = .reading)
    {e : MonitorEvent}
    (hreturns : e.Returns) :
    (s.loopHead.phase = .returned ↔ Ends running (events ++ [e])) ∧
      s.loopHead.phase ≠ .undefined := by
  have hopen : ¬ Ends running events := by
    rw [← h.returned, hreading]
    decide
  have hrunning : ¬ running = false := fun hstopped => hopen (Or.inl hstopped)
  have hnot : e ≠ .readFails := by
    rintro rfl
    exact hreturns
  have hstopped : s.running = false ↔ .signal ∈ events :=
    h.stopped.trans (or_iff_right hrunning)
  rw [ends_snoc_iff]
  simp only [MonitorState.loopHead, hopen, hnot, hreturns, false_or, true_and]
  rw [← hstopped]
  cases s.running <;> decide

/-- A read hands its events over to the reports. -/
theorem handle_reads
    (callback : Bool)
    {n : Nat}
    (hfits : (queueBytes (s.queue.take n)).length ≤ bufLen) :
    ∃ buf,
      MonitorState.handle { s with queue := s.queue.drop n } callback
          (queueBytes (s.queue.take n)) =
        MonitorState.loopHead
          { s with
            buf := buf
            queue := s.queue.drop n
            log := s.log ++ (s.queue.take n).filterMap QueuedEvent.line
            calls := s.calls ++ (s.queue.take n).filterMap (QueuedEvent.call callback) } := by
  obtain ⟨i, hwalk⟩ := walkBuffer_events callback hfits
    (s.buf.drop (queueBytes (s.queue.take n)).length) 0 s.log s.calls
  refine ⟨queueBytes (s.queue.take n) ++ s.buf.drop (queueBytes (s.queue.take n)).length, ?_⟩
  simp only [MonitorState.handle, hwalk]

theorem reported_step
    (h : Reported callback running log events s)
    {e : MonitorEvent}
    (hstep : monitorStep callback s e = some s') :
    Reported callback running log (events ++ [e]) s' := by
  cases e with
  | fileEvent e =>
      obtain rfl := Option.some.inj hstep
      refine ⟨h.defined, ?_, ?_, ?_, ?_⟩
      · rw [List.filterMap_append, ← List.append_assoc, h.log_eq, arrived_snoc,
          List.filterMap_append, List.append_assoc]
        rfl
      · rw [List.filterMap_append, ← List.append_assoc, h.calls_eq, arrived_snoc,
          List.filterMap_append]
        rfl
      · simpa using h.stopped
      · simpa [ends_snoc_iff, MonitorEvent.Returns] using h.returned
  | signal =>
      obtain rfl := Option.some.inj hstep
      refine ⟨h.defined, ?_, ?_, by simp, ?_⟩
      · simpa [arrived_snoc, arrived] using h.log_eq
      · simpa [arrived_snoc, arrived] using h.calls_eq
      · simpa [ends_snoc_iff, MonitorEvent.Returns] using h.returned
  | readReturns n =>
      simp only [monitorStep] at hstep
      split_ifs at hstep with hcan
      obtain ⟨hreading, -, -, hfits⟩ := hcan
      obtain rfl := Option.some.inj hstep
      obtain ⟨buf, hhandle⟩ := handle_reads callback hfits
      rw [hhandle]
      obtain ⟨hreturned, hdefined⟩ := h.loopHead hreading (e := .readReturns n) trivial
      refine ⟨hdefined, ?_, ?_, ?_, hreturned⟩
      · have hqueue := List.take_append_drop n s.queue
        have hlog := h.log_eq
        rw [← hqueue, List.filterMap_append] at hlog
        simpa [arrived_snoc, arrived, MonitorState.loopHead] using hlog
      · have hqueue := List.take_append_drop n s.queue
        have hcalls := h.calls_eq
        rw [← hqueue, List.filterMap_append] at hcalls
        simpa [arrived_snoc, arrived, MonitorState.loopHead] using hcalls
      · simpa [MonitorState.loopHead] using h.stopped
  | readInterrupted =>
      simp only [monitorStep] at hstep
      split_ifs at hstep with hreading
      obtain rfl := Option.some.inj hstep
      obtain ⟨hreturned, hdefined⟩ := h.loopHead hreading (e := .readInterrupted) trivial
      refine ⟨hdefined, ?_, ?_, ?_, hreturned⟩
      · simpa [arrived_snoc, arrived, MonitorState.loopHead] using h.log_eq
      · simpa [arrived_snoc, arrived, MonitorState.loopHead] using h.calls_eq
      · simpa [MonitorState.loopHead] using h.stopped
  | readFails =>
      simp only [monitorStep] at hstep
      split_ifs at hstep with hreading
      obtain rfl := Option.some.inj hstep
      refine ⟨by simp, ?_, ?_, by simpa using h.stopped, ?_⟩
      · simpa [arrived_snoc, arrived] using h.log_eq
      · simpa [arrived_snoc, arrived] using h.calls_eq
      · simp [ends_snoc_iff]

theorem reported_start
    (watch : CString → Bool) (error : CString → CString) (buf : Bytes) :
    Reported callback running (startLog watch error) []
      (monitorStart watch error running buf) := by
  have hends : Ends running [] ↔ running = false := by
    simp [Ends]
  refine ⟨?_, rfl, rfl, by simp [monitorStart, MonitorState.loopHead], ?_⟩
  · cases running <;> simp [monitorStart, MonitorState.loopHead]
  · rw [hends]
    cases running <;> simp [monitorStart, MonitorState.loopHead]

theorem reported_run
    {pre : List MonitorEvent}
    (h : Reported callback running log pre s)
    (hrun : run (monitorStep callback) s events = some s') :
    Reported callback running log (pre ++ events) s' := by
  induction events generalizing pre s with
  | nil =>
      obtain rfl := Option.some.inj hrun
      rwa [List.append_nil]
  | cons e events ih =>
      obtain ⟨s₁, hstep, hrest⟩ := run_cons_eq_some.mp hrun
      have hlast := ih (reported_step h hstep) hrest
      rwa [List.append_assoc] at hlast

/-- Behind its return the monitor reports nothing. -/
theorem returned_step
    {e : MonitorEvent}
    (hreturned : s.phase = .returned)
    (hstep : monitorStep callback s e = some s') :
    s'.phase = .returned ∧ s'.log = s.log ∧ s'.calls = s.calls := by
  have hnot : s.phase ≠ .reading := by
    rw [hreturned]
    decide
  cases e with
  | fileEvent e =>
      obtain rfl := Option.some.inj hstep
      exact ⟨hreturned, rfl, rfl⟩
  | signal =>
      obtain rfl := Option.some.inj hstep
      exact ⟨hreturned, rfl, rfl⟩
  | readReturns n => simp [monitorStep, hnot] at hstep
  | readInterrupted => simp [monitorStep, hnot] at hstep
  | readFails => simp [monitorStep, hnot] at hstep

/-- Without `inotify_init`, the monitor returns with its two lines in the log, whatever happens
to the files. -/
theorem monitor_without_inotify
    {watch : CString → Bool} {error : CString → CString} {buf : Bytes} {e : CString}
    (hrun : run (monitorStep callback) (monitorEntry (some e) watch error running buf) events =
      some s) :
    s.phase = .returned ∧ s.log = failedLog e ∧ s.calls = [] := by
  have hkept : ∀ (s₁ : MonitorState) (event : MonitorEvent) (s₂ : MonitorState),
      s₁.phase = .returned ∧ s₁.log = failedLog e ∧ s₁.calls = [] →
        monitorStep callback s₁ event = some s₂ →
          s₂.phase = .returned ∧ s₂.log = failedLog e ∧ s₂.calls = [] := by
    intro s₁ event s₂ h hstep
    obtain ⟨hphase, hlog, hcalls⟩ := returned_step h.1 hstep
    exact ⟨hphase, hlog.trans h.2.1, hcalls.trans h.2.2⟩
  exact invariant_of_run hkept ⟨rfl, rfl, rfl⟩ hrun

/-- The next event fits into the buffer. -/
theorem read_possible
    (hreading : s.phase = .reading)
    (hqueue : s.queue ≠ []) :
    ∃ s', monitorStep callback s (.readReturns 1) = some s' := by
  obtain ⟨e, es, hcons⟩ := List.exists_cons_of_ne_nil hqueue
  have hroom : bufLen = 278528 ∧ eventSize = 16 := ⟨rfl, rfl⟩
  have hfield := length_field_le e
  refine ⟨_, if_pos ⟨hreading, by decide, ?_, ?_⟩⟩
  · rw [hcons, List.length_cons]
    omega
  · rw [hcons, List.take_one, List.head?_cons, Option.toList_some, queueBytes_cons,
      List.length_append, length_bytes]
    have hend : (queueBytes ([] : List QueuedEvent)).length = 0 := rfl
    omega

/--
**The integrity monitor loses no event and repeats none.**

Once `inotify_init` has succeeded, in every interleaving of file events, signals and returns of
`read`, the log is what it was at the beginning and a line for every event with a name, in order,
up to those that wait in the kernel; the callback, where there is one, is called alike.  No read
leaves the buffer, an event that waits can be read, and the loop is left exactly when `read`
fails or returns behind a signal.
-/
theorem monitor_reports_each_event
    {callback running : Bool} {watch : CString → Bool} {error : CString → CString}
    {buf : Bytes} {events : List MonitorEvent} {s : MonitorState}
    (hrun : run (monitorStep callback) (monitorStart watch error running buf) events = some s) :
    s.log ++ s.queue.filterMap QueuedEvent.line =
        startLog watch error ++ (arrived events).filterMap QueuedEvent.line ∧
      s.calls ++ s.queue.filterMap (QueuedEvent.call callback) =
        (arrived events).filterMap (QueuedEvent.call callback) ∧
      s.phase ≠ .undefined ∧
      (s.phase = .returned ↔ Ends running events) ∧
      (s.phase = .reading → s.queue ≠ [] →
        ∃ s', monitorStep callback s (.readReturns 1) = some s') := by
  have h := reported_run (reported_start watch error buf) hrun
  rw [List.nil_append] at h
  exact ⟨h.log_eq, h.calls_eq, h.defined, h.returned, read_possible⟩

end Runs

section Examples

/-- `shadow` is modified. -/
def shadowModified : QueuedEvent where
  wd := 5
  mask := inModify
  cookie := 0
  name := some (cstr (ascii "shadow"))
  mask_lt := by decide
  name_ne := by
    rintro n ⟨⟩
    decide
  name_le := by
    rintro n ⟨⟩
    decide

/-- `shadow` is removed. -/
def shadowDeleted : QueuedEvent := { shadowModified with mask := inDelete, mask_lt := by decide }

/-- Both events arrive, are read at once, and a signal ends the loop with the next return. -/
def shadowEvents : List MonitorEvent :=
  [.fileEvent shadowModified, .fileEvent shadowDeleted, .readReturns 2, .signal,
    .readInterrupted]

/-- The buffer is as the stack left it. -/
theorem shadow_reported :
    ∃ s, run (monitorStep true) (monitorStart (fun _ => true) id true (List.replicate 40 7))
          shadowEvents = some s ∧
      s.calls = [(cstr (ascii "shadow"), .modified), (cstr (ascii "shadow"), .missing)] ∧
      s.phase = .returned := by
  have hsome : (run (monitorStep true)
      (monitorStart (fun _ => true) id true (List.replicate 40 7)) shadowEvents).isSome := by
    decide +kernel
  obtain ⟨s, hrun⟩ := Option.isSome_iff_exists.mp hsome
  obtain ⟨-, hcalls, -, hreturned, -⟩ := monitor_reports_each_event hrun
  have hempty : (run (monitorStep true)
      (monitorStart (fun _ => true) id true (List.replicate 40 7)) shadowEvents).map
        MonitorState.queue = some [] := by
    decide +kernel
  rw [hrun, Option.map_some, Option.some.injEq] at hempty
  rw [hempty, List.filterMap_nil, List.append_nil] at hcalls
  refine ⟨s, hrun, hcalls, hreturned.mpr (Or.inr ?_)⟩
  exact ⟨shadowEvents.take 4, .readInterrupted, [], rfl, Or.inr ⟨trivial, by decide⟩⟩

end Examples

end Integrity
end SecureZ
