import SecureZ.Daemon.SessionControl
import SecureZ.Daemon.Transcript
import SecureZ.Daemon.Agreement

/-!
# Vaults from the command line

`vault create`, `open`, `close` and `list` of the shell, and `run` for a binary, format a
request for the daemon with what was typed and print what the answer tells.  Nothing is
escaped, the request is cut to its buffer, and without a daemon `vault` prints nothing.

Whatever is typed, quotes included, the open vaults are those that follow from the printed
lines alone: an opened vault has the name up to the first quote in it, kept up to the length
of an entry.  The daemon does not know the request of `run`.
-/

namespace SecureZ
namespace Daemon

open CLib Transition Session
open Shell (PasswordLine fieldText passwordText vaultCreateText formatRequest promptPassword)

section Model

/-- What `vault` prints. -/
inductive VaultSaid
  | usage
  | unknown (subcommand : CString)
  | mismatch
  | nothing
  | created (name size : CString)
  | notCreated
  | opened (name : CString)
  | notOpened
  | closed (name : CString)
  | notClosed
  | listed (resp : Bytes)
deriving DecidableEq

/-- What `vault` has come to when it has asked what it asks. -/
inductive VaultAsk
  | stop (said : VaultSaid)
  | create (name size : CString) (pw : PasswordLine)
  | openVault (name : CString) (pw : PasswordLine)
  | close (name : CString)
  | list

/-- `cmd_vault` with `create`, up to the request. -/
def vaultCreateAsk (input : Bytes) : List CString → VaultAsk
  | name :: size :: _ =>
      match promptPassword input with
      | none => .stop .nothing
      | some (_, left) =>
          match promptPassword left with
          | none => .stop .mismatch
          -- the first line is gone: both prompts return the same buffer
          | some (pw, _) => .create name size pw
  | _ => .stop .usage

/-- `cmd_vault` with `open`, up to the request. -/
def vaultOpenAsk (input : Bytes) : List CString → VaultAsk
  | name :: _ =>
      match promptPassword input with
      | none => .stop .nothing
      | some (pw, _) => .openVault name pw
  | [] => .stop .usage

/-- `cmd_vault`, up to the request. -/
def vaultAsk (input : Bytes) : List CString → VaultAsk
  | [] => .stop .usage
  | sub :: args =>
      if sub = cstr (ascii "create") then vaultCreateAsk input args
      else if sub = cstr (ascii "open") then vaultOpenAsk input args
      else if sub = cstr (ascii "close") then
        match args with
        | name :: _ => .close name
        | [] => .stop .usage
      else if sub = cstr (ascii "list") then .list
      else .stop (.unknown sub)

/-- The request that is sent. -/
def VaultAsk.request : VaultAsk → Option CString
  | .stop _ => none
  | .create name size pw => some (formatRequest (vaultCreateText name size pw.line))
  | .openVault name pw =>
      some (formatRequest (passwordText (ascii "container_open") (ascii "name") name pw.line))
  | .close name => some (formatRequest (fieldText (ascii "container_close") (ascii "name") name))
  | .list => some (cstr (ascii "\x7b\"cmd\":\"container_list\"\x7d"))

/-- What is printed for an answer that was read. -/
def VaultAsk.printed (resp : Bytes) : VaultAsk → VaultSaid
  | .stop said => said
  | .create name size _ => if reportsOk resp then .created name size else .notCreated
  | .openVault name _ => if reportsOk resp then .opened name else .notOpened
  | .close name => if reportsOk resp then .closed name else .notClosed
  | .list => .listed resp

/-- What `vault` returns: 1 where it stops. -/
def VaultAsk.ret : VaultAsk → Int
  | .stop _ => 1
  | _ => 0

/-- A `vault` command that is typed, and what it meets. -/
structure VaultEvent where
  args : List CString
  input : Bytes
  /-- Whether the daemon can be reached. -/
  up : Bool
  sys : ServeSys

/-- `cmd_vault`: what it returns and prints, and the state of the daemon. -/
def cmdVault (base : CString) (e : VaultEvent) (d : DaemonState) :
    Option ((Int × VaultSaid) × DaemonState) :=
  let ask := vaultAsk e.input e.args
  match ask.request with
  | none => some ((ask.ret, ask.printed []), d)
  | some json =>
      if e.up then
        (serveRequest base d json e.sys).map fun a =>
          ((ask.ret, ask.printed (Shell.sendCmdRead a.2)), a.1)
      else some ((ask.ret, .nothing), d)

/-- What `run` prints. -/
inductive RunSaid
  | usage
  | unreadable
  | declined
  | loaded
  | loadFailed
  /-- It runs the loader with these arguments. -/
  | loader (argv : List Bytes)
deriving DecidableEq

/-- The password in the request of `run`, if there is one. -/
def nxePasswordText : Option PasswordLine → Bytes
  | some pw =>
      if pw.line.strlen > 0 then ascii ",\"password\":\"" ++ pw.line.bytes ++ ascii "\"" else []
  | none => []

/-- The request of `run`. -/
def nxeLoadText (path : CString) (pw : Option PasswordLine) : Bytes :=
  ascii "\x7b\"cmd\":\"nxe_load\",\"path\":\"" ++ path.bytes ++ ascii "\"" ++
    nxePasswordText pw ++ ascii "\x7d"

/-- The path has the extension of a binary: `.nxe` is what stands from its last dot on. -/
def hasNxeExtension (path : CString) : Bool :=
  (ascii ".nxe").isSuffixOf path.bytes

/-- A `run` that is typed, and what it meets. -/
structure RunEvent where
  args : List CString
  /-- The file can be read. -/
  readable : Bool
  input : Bytes
  up : Bool
  sys : ServeSys
  /-- What the loader exits with, none when it cannot be started. -/
  loaderStatus : Option Int

/-- `cmd_run_nxe`: what it returns and prints, and the state of the daemon. -/
def cmdRunNxe (base : CString) (e : RunEvent) (d : DaemonState) :
    Option ((Int × RunSaid) × DaemonState) :=
  match e.args with
  | [] => some ((1, .usage), d)
  | path :: _ =>
      if !e.readable then some ((1, .unreadable), d)
      else
        let confirm := fgets 8 e.input
        if !hasNxeExtension path ∧ (confirm.bind fun c => c.1.head?) ≠ some (Shell.byte 'y') then
          some ((0, .declined), d)
        else
          -- the password is what the question has left of the input
          let left := if hasNxeExtension path then e.input else (confirm.map Prod.snd).getD []
          let json := formatRequest (nxeLoadText path ((promptPassword left).map Prod.fst))
          if e.up then
            (serveRequest base d json e.sys).map fun a =>
              ((0, if reportsOk (Shell.sendCmdRead a.2) then .loaded else .loadFailed), a.1)
          else
            some ((e.loaderStatus.getD 0, .loader [ascii "nxe-loader", path.bytes]), d)

/-- A typed command. -/
inductive VaultCommand
  | vault (e : VaultEvent)
  | run (e : RunEvent)

/-- A command in a run: the daemon, and what `vault` has printed. -/
def vaultStep (base : CString) (s : DaemonState × List VaultSaid) :
    VaultCommand → Option (DaemonState × List VaultSaid)
  | .vault e => (cmdVault base e s.1).map fun r => (r.2, s.2 ++ [r.1.2])
  | .run e => (cmdRunNxe base e s.1).map fun r => (r.2, s.2)

end Model

section Specification

/-- The name as the daemon reads it. -/
def sentName (name : CString) : CString :=
  cstr (before quote name.bytes)

/-- What a printed line tells about the open vaults. -/
def VaultSaid.tell (names : List CString) : VaultSaid → List CString
  | .opened name =>
      if sentName name ∈ names then names else names ++ [keptName (sentName name)]
  | .closed name => names.erase (sentName name)
  | _ => names

/-- The open vaults, by what was printed. -/
def vaultsTold (said : List VaultSaid) : List CString :=
  said.foldl VaultSaid.tell []

/-- What the system promises. -/
def VaultCommand.Plausible : VaultCommand → Prop
  | .vault e => e.sys.Plausible
  | .run e => e.sys.Plausible

end Specification

section Requests

/-- A cut behind the first quote does not change the text in front of it. -/
theorem before_take_of_mem
    {text : Bytes} {k : Nat}
    (h : quote ∈ text.take k) :
    before quote (text.take k) = before quote text := by
  have hfree := not_mem_before quote (text.take k)
  have hsplit : before quote text = before quote (text.take k ++ text.drop k) := by
    rw [List.take_append_drop]
  rw [hsplit, before, before, List.takeWhile_append, if_neg]
  intro hlen
  have hwhole := (List.takeWhile_prefix (fun b => b != quote)).eq_of_length hlen
  rw [before, hwhole] at hfree
  exact hfree h

/-- A text is read up to the first quote in it, or in front of the one behind it. -/
theorem before_append_quote
    (text rest : Bytes) :
    before quote (text ++ quote :: rest) = before quote text := by
  by_cases h : quote ∈ text
  · have htake : (text ++ quote :: rest).take text.length = text := List.take_left
    rw [← before_take_of_mem (k := text.length) (by rwa [htake]), htake]
  · rw [before_append_of_not_mem h, before, List.takeWhile_eq_self_iff.mpr]
    intro b hb
    have hne : b ≠ quote := fun h0 => h (h0 ▸ hb)
    simpa using hne

/-- What is read of a field is the text up to the first quote behind it. -/
theorem extractField_eq_before
    {json got : CString} {field front tail : Bytes} {n : Nat}
    (hjson : json.bytes = (front ++ (fieldSearch field ++ tail)).take n)
    (hfront : skips (fieldSearch field) front = true)
    (h : extractField json field = some got) :
    got.bytes = before quote tail := by
  have hnul := json.nulFree
  rw [extractField, hjson] at h
  rw [hjson] at hnul
  by_cases hn : front.length + (fieldSearch field).length ≤ n
  · rw [strstr_take_of_skips hfront hn] at h
    obtain ⟨k, rfl⟩ := Nat.exists_eq_add_of_le hn
    rw [Nat.add_sub_cancel_left] at h
    rw [Nat.add_assoc, List.take_length_add_append, List.take_length_add_append] at hnul
    have hrest : (0 : UInt8) ∉ tail.take k := fun h0 => hnul (by simp [h0])
    simp only [Option.bind_eq_bind, Option.bind_some, List.drop_left, Option.pure_def,
      Option.bind_eq_some_iff, Option.some.injEq] at h
    obtain ⟨hmem, hbefore⟩ := (copied_eq_iff hrest).mp h
    rw [← hbefore]
    exact before_take_of_mem hmem
  · rw [strstr_take_eq_none hfront (by omega)] at h
    cases h

/-- The name that is read of a request that is cut to its buffer. -/
theorem extractField_sentName
    {text front rest field : Bytes} {name got : CString}
    (hnul : (0 : UInt8) ∉ text)
    (htext : text = front ++ (fieldSearch field ++ (name.bytes ++ quote :: rest)))
    (hfront : skips (fieldSearch field) front = true)
    (h : extractField (formatRequest text) field = some got) :
    got = sentName name := by
  have hjson := Shell.formatRequest_bytes hnul
  rw [htext] at hjson h
  have hread := extractField_eq_before hjson hfront h
  rw [before_append_quote] at hread
  rw [sentName, ← hread, cstr_bytes]

/-- The request of `open` calls for the name that is read of it, or for nothing. -/
theorem handleCommand_open
    (name pw : CString) :
    handleCommand
        (formatRequest (passwordText (ascii "container_open") (ascii "name") name pw)) =
      .refuse (errorResponse (ascii "missing name or password")) ∨
    ∃ pw', handleCommand
        (formatRequest (passwordText (ascii "container_open") (ascii "name") name pw)) =
      .call (.containerOpen (sentName name) pw') := by
  have hkey : IsKey (ascii "name") := Or.inr rfl
  have hcmd : ascii "container_open" = Command.containerOpen.text := rfl
  have hnul := nul_not_mem_passwordText .containerOpen hkey name pw
  have hbranch := handleCommand_request hnul
    (passwordText_cmd Command.containerOpen.text (ascii "name") name pw)
  rw [hcmd, hbranch, commandBranch, passwordCommand]
  split
  · next value pw' hread _ =>
      have hname := extractField_sentName hnul
        (passwordText_key Command.containerOpen.text hkey name pw)
        (skips_frontOfKey hkey (quote_not_mem_text .containerOpen)) hread
      exact Or.inr ⟨pw', by rw [hname]⟩
  · exact Or.inl rfl

/-- So does the request of `close`. -/
theorem handleCommand_close
    (name : CString) :
    handleCommand (formatRequest (fieldText (ascii "container_close") (ascii "name") name)) =
      .refuse (errorResponse (ascii "missing name")) ∨
    handleCommand (formatRequest (fieldText (ascii "container_close") (ascii "name") name)) =
      .call (.containerClose (sentName name)) := by
  have hkey : IsKey (ascii "name") := Or.inr rfl
  have hcmd : ascii "container_close" = Command.containerClose.text := rfl
  have hnul : (0 : UInt8) ∉ fieldText Command.containerClose.text (ascii "name") name := by
    simp [fieldText, ascii, nul_not_mem_text, name.nulFree]
  have htext : fieldText Command.containerClose.text (ascii "name") name =
      ascii "\x7b" ++ (fieldSearch (ascii "cmd") ++ (Command.containerClose.text ++ quote ::
        (ascii ",\"" ++ ascii "name" ++ ascii "\":\"" ++ name.bytes ++ ascii "\"\x7d"))) := by
    simp [fieldText, fieldSearch_eq, ascii, quote]
  have hvalue : fieldText Command.containerClose.text (ascii "name") name =
      frontOfKey Command.containerClose.text ++ (fieldSearch (ascii "name") ++
        (name.bytes ++ quote :: ascii "\x7d")) := by
    rw [fieldSearch_eq (isFieldName_key hkey).short]
    simp [fieldText, frontOfKey, ascii, quote]
  rw [hcmd, handleCommand_request hnul htext, commandBranch, fieldCommand]
  cases hread : extractField (formatRequest (fieldText Command.containerClose.text
      (ascii "name") name)) (ascii "name") with
  | none => exact Or.inl rfl
  | some value =>
      have hname := extractField_sentName hnul hvalue
        (skips_frontOfKey hkey (quote_not_mem_text .containerClose)) hread
      exact Or.inr (by rw [hname])

/-- The request of `create` calls for a container, or for nothing. -/
theorem handleCommand_create
    (name size pw : CString) :
    (∃ response, handleCommand (formatRequest (vaultCreateText name size pw)) =
      .refuse response) ∨
    ∃ name' n pw', handleCommand (formatRequest (vaultCreateText name size pw)) =
      .call (.containerCreate name' n pw') := by
  rw [handleCommand_request (nul_not_mem_vaultCreateText name size pw)
    (vaultCreateText_cmd name size pw), commandBranch]
  split_ifs
  · exact Or.inl ⟨_, rfl⟩
  · unfold passwordCommand
    split
    · exact Or.inr ⟨_, _, _, rfl⟩
    · exact Or.inl ⟨_, rfl⟩

/-- The daemon does not know the request of `run`, whatever stands in it. -/
theorem handleCommand_run
    (path : CString) (pw : Option PasswordLine) :
    handleCommand (formatRequest (nxeLoadText path pw)) =
      .refuse (errorResponse (ascii "unknown command: nxe_load")) := by
  have hpassword : (0 : UInt8) ∉ nxePasswordText pw := by
    cases pw with
    | none => simp [nxePasswordText]
    | some pw =>
        simp only [nxePasswordText]
        split_ifs <;> simp [ascii, pw.line.nulFree]
  have hnul : (0 : UInt8) ∉ nxeLoadText path pw := by
    simp [nxeLoadText, ascii, path.nulFree, hpassword]
  have htext : nxeLoadText path pw =
      ascii "\x7b" ++ (fieldSearch (ascii "cmd") ++ (ascii "nxe_load" ++ quote ::
        (ascii ",\"path\":\"" ++ path.bytes ++ ascii "\"" ++ nxePasswordText pw ++
          ascii "\x7d"))) := by
    simp [nxeLoadText, fieldSearch_eq, ascii, quote]
  have hread : extractField (formatRequest (nxeLoadText path pw)) (ascii "cmd") =
      some (cstr (ascii "nxe_load")) := by
    refine (extractField_request hnul htext (by decide)).mpr ⟨by decide, ?_⟩
    have hlen := congrArg List.length htext
    have hfront : (ascii "\x7b").length = 1 := rfl
    have hsearch : (fieldSearch (ascii "cmd")).length = 7 := rfl
    have hname : (ascii "nxe_load").length = 8 := rfl
    rw [List.length_append, List.length_append, List.length_append, List.length_cons, hfront,
      hsearch, hname] at hlen
    omega
  have hunknown : parseCommand (cstr (ascii "nxe_load")) = none := by decide
  simp only [handleCommand, hread, hunknown]
  rfl

end Requests

section Served

variable (base : CString) {d : DaemonState} {v : View} {json : CString} {r : ServeSys}
variable {c : EngineCall}

/-- A request that is refused is answered with its error. -/
theorem served_refused
    {response : Bytes}
    (h : Known d v)
    (hrefuse : handleCommand json = .refuse response) :
    ∃ d', serveRequest base d json r = some (d', response) ∧ Known d' v ∧
      d'.containers = d.containers := by
  refine ⟨{ d with served := d.served + 1 }, ?_, ?_, rfl⟩
  · simp only [serveRequest, hrefuse]
  · exact ⟨h.ids, h.names, h.startable, h.opened, h.room, h.listed, h.stats⟩

/-- A call that starts no session is made, and the state stays known. -/
theorem served_call
    (h : Known d v)
    (hsys : r.Plausible)
    (hcall : handleCommand json = .call c)
    (hstart : c ≠ .sessionCreate) :
    ∃ d' response,
      serveRequest base d json r = some (d', response) ∧
        Known d' (v.observe (json, response)) ∧
        response = callResponse ((replyOf base d r c).engine d.sessions) c := by
  have hanswer := answer_of_call (t := d.sessions) hcall
    (fun hnext => hstart hnext.1) (replyOf base d r c)
  obtain ⟨d', hserve⟩ : ∃ d', serveRequest base d json r =
      some (d', callResponse ((replyOf base d r c).engine d.sessions) c) := by
    simp only [serveRequest, hcall, hanswer, Option.map_some, Option.some.injEq, Prod.mk.injEq,
      and_true, exists_eq']
  exact ⟨d', _, hserve, known_serve h hsys hserve, rfl⟩

/-- The shell reads an error as one. -/
theorem reportsOk_refused
    {b : UInt8} {msg : Bytes}
    (hquote : quote ∉ msg)
    (hfirst : msg.head? = some b)
    (hb : b ≠ 111) :
    reportsOk (Shell.sendCmdRead (errorResponse msg)) = false := by
  rw [errorResponse, sendCmdRead_snprintf]
  exact not_reportsOk_errorResponse hquote hfirst hb

end Served

section Steps

variable (base : CString) {d : DaemonState} {ids : List Int} {names : List CString}
variable {r : ServeSys}

/-- An opened vault is told by what `open` prints. -/
theorem open_served
    (h : Known d ⟨ids, names⟩)
    (hsys : r.Plausible)
    (name : CString) (pw : PasswordLine) :
    ∃ d' response,
      serveRequest base d
          (formatRequest (passwordText (ascii "container_open") (ascii "name") name pw.line)) r =
        some (d', response) ∧
      Known d' ⟨ids,
        ((VaultAsk.openVault name pw).printed (Shell.sendCmdRead response)).tell names⟩ := by
  rcases handleCommand_open name pw.line with hrefuse | ⟨pw', hcall⟩
  · obtain ⟨d', hserve, hknown, -⟩ := served_refused (r := r) base h hrefuse
    refine ⟨d', _, hserve, ?_⟩
    have hread : reportsOk (Shell.sendCmdRead
        (errorResponse (ascii "missing name or password"))) = false :=
      reportsOk_refused (by decide) rfl (by decide)
    rw [VaultAsk.printed, hread]
    exact hknown
  · obtain ⟨d', response, hserve, hknown, hresponse⟩ :=
      served_call base h hsys hcall (by simp)
    have hread : Shell.sendCmdRead response = response := by
      rw [hresponse]
      exact sendCmdRead_snprintf _
    refine ⟨d', response, hserve, ?_⟩
    simp only [View.observe, hcall, observeIds, observeNames] at hknown
    rw [VaultAsk.printed, hread]
    split_ifs with hok
    · simp only [hok, true_and, ite_not] at hknown
      exact hknown
    · rw [if_neg fun hnew => hok hnew.1] at hknown
      exact hknown

/-- A closed one by what `close` prints. -/
theorem close_served
    (h : Known d ⟨ids, names⟩)
    (hsys : r.Plausible)
    (name : CString) :
    ∃ d' response,
      serveRequest base d
          (formatRequest (fieldText (ascii "container_close") (ascii "name") name)) r =
        some (d', response) ∧
      Known d' ⟨ids,
        ((VaultAsk.close name).printed (Shell.sendCmdRead response)).tell names⟩ := by
  rcases handleCommand_close name with hrefuse | hcall
  · obtain ⟨d', hserve, hknown, -⟩ := served_refused (r := r) base h hrefuse
    refine ⟨d', _, hserve, ?_⟩
    have hread : reportsOk (Shell.sendCmdRead (errorResponse (ascii "missing name"))) = false :=
      reportsOk_refused (by decide) rfl (by decide)
    rw [VaultAsk.printed, hread]
    exact hknown
  · obtain ⟨d', response, hserve, hknown, hresponse⟩ :=
      served_call base h hsys hcall (by simp)
    have hread : Shell.sendCmdRead response = response := by
      rw [hresponse]
      exact sendCmdRead_snprintf _
    refine ⟨d', response, hserve, ?_⟩
    simp only [View.observe, hcall, observeIds, observeNames] at hknown
    rw [VaultAsk.printed, hread]
    split_ifs with hok
    · rw [if_pos hok] at hknown
      exact hknown
    · rw [if_neg hok] at hknown
      exact hknown

/-- `create` opens nothing. -/
theorem create_served
    (h : Known d ⟨ids, names⟩)
    (hsys : r.Plausible)
    (name size : CString) (pw : PasswordLine) :
    ∃ d' response,
      serveRequest base d (formatRequest (vaultCreateText name size pw.line)) r =
        some (d', response) ∧
      Known d' ⟨ids,
        ((VaultAsk.create name size pw).printed (Shell.sendCmdRead response)).tell names⟩ := by
  have htell : ∀ resp, ((VaultAsk.create name size pw).printed resp).tell names = names := by
    intro resp
    rw [VaultAsk.printed]
    split_ifs <;> rfl
  simp only [htell]
  rcases handleCommand_create name size pw.line with ⟨response, hrefuse⟩ | ⟨_, _, _, hcall⟩
  · obtain ⟨d', hserve, hknown, -⟩ := served_refused (r := r) base h hrefuse
    exact ⟨d', _, hserve, hknown⟩
  · obtain ⟨d', response, hserve, hknown, -⟩ :=
      served_call base h hsys hcall (by simp)
    refine ⟨d', response, hserve, ?_⟩
    simp only [View.observe, hcall] at hknown
    exact hknown

theorem handleCommand_containerList :
    handleCommand (cstr (ascii "\x7b\"cmd\":\"container_list\"\x7d")) =
      .call .containerList := by
  decide +kernel

theorem length_containerItems_le
    {names : List CString}
    (h : ∀ n ∈ names, n.bytes.length < 64)
    (i : Nat) :
    (containerItems i names).length ≤ 85 * names.length := by
  induction names generalizing i with
  | nil =>
      exact Nat.le_refl 0
  | cons n ns ih =>
      rw [List.forall_mem_cons] at h
      have hrest := ih h.2 (i + 1)
      have hsep : (if i > 0 then ascii "," else []).length ≤ 1 := by split_ifs <;> decide
      have hfixed : (ascii "\x7b\"name\":\"").length = 9 ∧
          (ascii "\",\"state\":1\x7d").length = 12 := ⟨rfl, rfl⟩
      simp only [containerItems, List.length_append, List.length_cons]
      omega

/-- The listing of the open vaults is read whole. -/
theorem sendCmdRead_containerListing
    (h : Known d ⟨ids, names⟩) :
    Shell.sendCmdRead (containerListing names) = containerListing names := by
  have hnames : names = namesOf d.containers := h.names.symm
  have hcount : names.length ≤ 16 := by
    rw [hnames, namesOf, List.length_map]
    exact h.room
  have hitems : (containerItems 0 names).length ≤ 85 * names.length := by
    refine length_containerItems_le (fun n hn => ?_) 0
    rw [hnames, namesOf, List.mem_map] at hn
    obtain ⟨e, -, rfl⟩ := hn
    exact e.name.fits
  have hdigits : (decimal names.length).length ≤ 2 :=
    length_decimal_le (by decide) (hcount.trans_lt (by decide))
  have hfixed : (ascii "\x7b\"status\":\"ok\",\"count\":").length = 23 ∧
      (ascii ",\"containers\":[").length = 15 ∧ (ascii "]\x7d").length = 2 :=
    ⟨rfl, rfl, rfl⟩
  refine List.take_of_length_le ?_
  simp only [containerListing, List.length_append]
  omega

/-- `list` prints the names of the open vaults. -/
theorem list_served
    (h : Known d ⟨ids, names⟩)
    (hsys : r.Plausible) :
    ∃ d',
      serveRequest base d (cstr (ascii "\x7b\"cmd\":\"container_list\"\x7d")) r =
        some (d', containerListing names) ∧
      Known d' ⟨ids, names⟩ := by
  obtain ⟨d', response, hserve, hknown, -⟩ :=
    served_call base h hsys handleCommand_containerList (by simp)
  have hlisting := saysKnown_of_known h hsys handleCommand_containerList hserve
  simp only [SaysKnown] at hlisting
  simp only [View.observe, handleCommand_containerList] at hknown
  rw [hlisting] at hserve
  exact ⟨d', hserve, hknown⟩

/-- A command that stops at its arguments or at a prompt tells nothing. -/
theorem tell_of_stop
    {input : Bytes} {args : List CString} {said : VaultSaid}
    (h : vaultAsk input args = .stop said) :
    said.tell names = names := by
  cases args with
  | nil =>
      obtain rfl := VaultAsk.stop.inj h
      rfl
  | cons sub args =>
      simp only [vaultAsk] at h
      split_ifs at h
      · unfold vaultCreateAsk at h
        split at h
        · split at h
          · obtain rfl := VaultAsk.stop.inj h
            rfl
          · split at h
            · obtain rfl := VaultAsk.stop.inj h
              rfl
            · cases h
        · obtain rfl := VaultAsk.stop.inj h
          rfl
      · unfold vaultOpenAsk at h
        split at h
        · split at h
          · obtain rfl := VaultAsk.stop.inj h
            rfl
          · cases h
        · obtain rfl := VaultAsk.stop.inj h
          rfl
      · split at h
        · cases h
        · obtain rfl := VaultAsk.stop.inj h
          rfl
      · obtain rfl := VaultAsk.stop.inj h
        rfl

/-- Whatever `vault` asks for, the open vaults stay told by what it prints. -/
theorem vault_known
    (h : Known d ⟨ids, names⟩)
    (e : VaultEvent)
    (hsys : e.sys.Plausible) :
    ∃ ret said d',
      cmdVault base e d = some ((ret, said), d') ∧ Known d' ⟨ids, said.tell names⟩ := by
  unfold cmdVault
  cases hask : vaultAsk e.input e.args with
  | stop said =>
      refine ⟨_, _, d, rfl, ?_⟩
      rw [VaultAsk.printed, tell_of_stop hask]
      exact h
  | create name size pw =>
      cases hup : e.up with
      | false => exact ⟨_, _, d, rfl, h⟩
      | true =>
          obtain ⟨d', response, hserve, hknown⟩ := create_served base h hsys name size pw
          simp only [VaultAsk.request, if_true, hserve, Option.map_some]
          exact ⟨_, _, d', rfl, hknown⟩
  | openVault name pw =>
      cases hup : e.up with
      | false => exact ⟨_, _, d, rfl, h⟩
      | true =>
          obtain ⟨d', response, hserve, hknown⟩ := open_served base h hsys name pw
          simp only [VaultAsk.request, if_true, hserve, Option.map_some]
          exact ⟨_, _, d', rfl, hknown⟩
  | close name =>
      cases hup : e.up with
      | false => exact ⟨_, _, d, rfl, h⟩
      | true =>
          obtain ⟨d', response, hserve, hknown⟩ := close_served base h hsys name
          simp only [VaultAsk.request, if_true, hserve, Option.map_some]
          exact ⟨_, _, d', rfl, hknown⟩
  | list =>
      cases hup : e.up with
      | false => exact ⟨_, _, d, rfl, h⟩
      | true =>
          obtain ⟨d', hserve, hknown⟩ := list_served base h hsys
          simp only [VaultAsk.request, if_true, hserve, Option.map_some]
          exact ⟨_, _, d', rfl, hknown⟩

theorem reportsOk_unknown_nxeLoad :
    reportsOk (Shell.sendCmdRead (errorResponse (ascii "unknown command: nxe_load"))) = false :=
  reportsOk_refused (by decide) rfl (by decide)

/-- `run` leaves the vaults as they are, and the daemon loads nothing for it. -/
theorem run_known
    (h : Known d ⟨ids, names⟩)
    (e : RunEvent) :
    ∃ ret said d',
      cmdRunNxe base e d = some ((ret, said), d') ∧ Known d' ⟨ids, names⟩ ∧ said ≠ .loaded := by
  unfold cmdRunNxe
  cases e.args with
  | nil => exact ⟨_, _, d, rfl, h, by simp⟩
  | cons path rest =>
      by_cases hread : (!e.readable) = true
      · exact ⟨_, _, d, if_pos hread, h, by simp⟩
      by_cases hdeclined : !hasNxeExtension path ∧
          ((fgets 8 e.input).bind fun c => c.1.head?) ≠ some (Shell.byte 'y')
      · exact ⟨_, _, d, (if_neg hread).trans (if_pos hdeclined), h, by simp⟩
      simp only [if_neg hread, if_neg hdeclined]
      generalize (promptPassword (if hasNxeExtension path then e.input else
        ((fgets 8 e.input).map Prod.snd).getD [])).map Prod.fst = pw
      cases hup : e.up with
      | false => exact ⟨_, _, d, rfl, h, by simp⟩
      | true =>
          obtain ⟨d', hserve, hknown, -⟩ :=
            served_refused (r := e.sys) base h (handleCommand_run path pw)
          simp only [if_true, hserve, Option.map_some, reportsOk_unknown_nxeLoad]
          exact ⟨_, _, d', rfl, hknown, by simp⟩

/-- A typed command keeps the open vaults told. -/
theorem known_vaultStep
    {said : List VaultSaid}
    (h : Known d ⟨ids, vaultsTold said⟩)
    (command : VaultCommand)
    (hsys : command.Plausible) :
    ∃ d' said',
      vaultStep base (d, said) command = some (d', said') ∧
        Known d' ⟨ids, vaultsTold said'⟩ := by
  cases command with
  | vault e =>
      obtain ⟨ret, line, d', hstep, hknown⟩ := vault_known base h e hsys
      refine ⟨d', said ++ [line], ?_, ?_⟩
      · simp only [vaultStep, hstep, Option.map_some]
      · rw [vaultsTold, List.foldl_append]
        exact hknown
  | run e =>
      obtain ⟨ret, line, d', hstep, hknown, -⟩ := run_known base h e
      refine ⟨d', said, ?_, hknown⟩
      simp only [vaultStep, hstep, Option.map_some]

/-- So does every run of them. -/
theorem known_vaultRun
    {said : List VaultSaid} {commands : List VaultCommand}
    (hsys : ∀ c ∈ commands, c.Plausible)
    (h : Known d ⟨ids, vaultsTold said⟩) :
    ∃ d' said',
      run (vaultStep base) (d, said) commands = some (d', said') ∧
        Known d' ⟨ids, vaultsTold said'⟩ := by
  induction commands generalizing d said with
  | nil =>
      exact ⟨d, said, rfl, h⟩
  | cons c cs ih =>
      rw [List.forall_mem_cons] at hsys
      obtain ⟨d₁, said₁, hstep, h₁⟩ := known_vaultStep base h c hsys.1
      obtain ⟨d', said', hrun, h'⟩ := ih hsys.2 h₁
      exact ⟨d', said', run_cons_eq_some.mpr ⟨_, hstep, hrun⟩, h'⟩

/-- What `list` comes to is a listing of the daemon. -/
theorem cmdVault_list
    {e : VaultEvent}
    (h : Known d ⟨ids, names⟩)
    (hlist : e.args.head? = some (cstr (ascii "list")))
    (hup : e.up = true)
    (hsys : e.sys.Plausible) :
    ∃ d',
      cmdVault base e d = some ((0, .listed (containerListing names)), d') ∧
        Known d' ⟨ids, names⟩ := by
  obtain ⟨args, hargs⟩ := List.head?_eq_some_iff.mp hlist
  have hask : vaultAsk e.input e.args = .list := by
    rw [hargs]
    rfl
  obtain ⟨d', hserve, hknown⟩ := list_served base h hsys
  refine ⟨d', ?_, hknown⟩
  simp only [cmdVault, hask, VaultAsk.request, hup, if_true, hserve, Option.map_some,
    VaultAsk.printed, VaultAsk.ret, sendCmdRead_containerListing h]

end Steps

/--
**The open vaults are those that the shell has told of.**

After every run of `vault` and `run` commands, one after the other, whatever is typed, quotes in
names and passwords included, and whether or not the daemon is reached, the open vaults are
those that follow from the printed lines: a vault stands under what its name has before the
first quote, cut to 63 bytes.  The next `vault list` prints just these, and the next `run` loads
nothing and leaves them open.
-/
theorem vaults_as_told
    (base : CString) (commands : List VaultCommand)
    (hsys : ∀ c ∈ commands, c.Plausible) :
    ∃ d said,
      run (vaultStep base) (.start, []) commands = some (d, said) ∧
        namesOf d.containers = vaultsTold said ∧
        (∀ e : VaultEvent,
          e.sys.Plausible → e.up = true → e.args.head? = some (cstr (ascii "list")) →
            ∃ d', cmdVault base e d =
              some ((0, .listed (containerListing (vaultsTold said))), d')) ∧
        ∀ e : RunEvent,
          ∃ ret line d', cmdRunNxe base e d = some ((ret, line), d') ∧
            line ≠ .loaded ∧ namesOf d'.containers = vaultsTold said := by
  obtain ⟨d, said, hrun, hknown⟩ :=
    known_vaultRun base hsys (show Known .start ⟨[], vaultsTold []⟩ from known_start)
  refine ⟨d, said, hrun, hknown.names, ?_, ?_⟩
  · intro e hplausible hup hlist
    obtain ⟨d', hlisted, -⟩ := cmdVault_list base hknown hlist hup hplausible
    exact ⟨d', hlisted⟩
  · intro e
    obtain ⟨ret, line, d', hstep, hknown', hline⟩ := run_known base hknown e
    exact ⟨ret, line, d', hstep, hline, hknown'.names⟩

section Examples

/-- A vault is opened whose name holds a quote, and another one is closed. -/
def sampleVaultCommands : List VaultCommand :=
  [.vault ⟨[cstr (ascii "open"), cstr (ascii "a\"b")], ascii "p\n", true, calmSys⟩,
    .run ⟨[cstr (ascii "x.nxe")], true, ascii "\n", true, calmSys, none⟩,
    .vault ⟨[cstr (ascii "close"), cstr (ascii "c")], [], true, calmSys⟩]

/-- The vault that is open has the name up to the quote. -/
theorem sample_vaults_as_told :
    ∃ d said,
      run (vaultStep (cstr (ascii "/root"))) (.start, []) sampleVaultCommands =
          some (d, said) ∧
        said = [.opened (cstr (ascii "a\"b")), .notClosed] ∧
        namesOf d.containers = [cstr (ascii "a")] := by
  have hsys : ∀ c ∈ sampleVaultCommands, c.Plausible := by
    intro c hc
    simp only [sampleVaultCommands, List.mem_cons, List.not_mem_nil, or_false] at hc
    rcases hc with rfl | rfl | rfl <;> exact calmSys_calm
  obtain ⟨d, said, hrun, hnames, -⟩ :=
    vaults_as_told (cstr (ascii "/root")) sampleVaultCommands hsys
  have hsaid : (run (vaultStep (cstr (ascii "/root"))) (.start, []) sampleVaultCommands).map
      Prod.snd = some [.opened (cstr (ascii "a\"b")), .notClosed] := by
    decide +kernel
  rw [hrun, Option.map_some, Option.some.injEq] at hsaid
  obtain rfl : said = _ := hsaid
  refine ⟨d, _, hrun, rfl, ?_⟩
  rw [hnames]
  decide +kernel

end Examples

end Daemon
end SecureZ
