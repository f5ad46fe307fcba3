import SecureZ.Daemon.FlatObjects
import SecureZ.Daemon.Responses

/-!
# Messages with numbers

The daemon prints its numbers with `%d` and `%zu` and reads those of a request with
`extract_int`.  Here the answers and requests that carry numbers are written as flat objects,
so that what is read from them is read off the object.
-/

namespace SecureZ
namespace Daemon

open CLib Session

section Numbers

/-- A number that `%d` prints. -/
structure IsInt (n : Int) : Prop where
  lower : -(2 ^ 31) ≤ n
  upper : n < 2 ^ 31

/-- The output of `%d` for a negative number. -/
theorem intText_negSucc
    (m : Nat) :
    intText (Int.negSucc m) = Shell.byte '-' :: decimal (m + 1) := by
  have htext : toString (Int.negSucc m) = "-" ++ toString (m + 1) := rfl
  rw [intText, htext, ascii, String.toList_append, List.map_append]
  rfl

/-- The sign and the digits that are printed are read as the number. -/
theorem signedValue_natAbs
    (n : Int) :
    signedValue (decide (n < 0)) (decimal n.natAbs) = n := by
  simp only [signedValue, digitsValue_decimal, decide_eq_true_eq]
  split_ifs <;> omega

theorem lower_ofInt
    {n : Int}
    (h : IsInt n) :
    -(2 ^ 31) ≤ signedValue (decide (n < 0)) (decimal n.natAbs) := by
  rw [signedValue_natAbs]
  exact h.lower

theorem upper_ofInt
    {n : Int}
    (h : IsInt n) :
    signedValue (decide (n < 0)) (decimal n.natAbs) < 2 ^ 31 := by
  rw [signedValue_natAbs]
  exact h.upper

/-- A number as it is printed. -/
def DecimalInt.ofInt (n : Int) (h : IsInt n) : DecimalInt where
  negative := decide (n < 0)
  digits := decimal n.natAbs
  ne_nil := decimal_ne_nil _
  isDigits := fun _ => isDigit_of_mem_decimal
  lower := lower_ofInt h
  upper := upper_ofInt h

@[simp] theorem DecimalInt.value_ofInt
    (n : Int) (h : IsInt n) :
    (DecimalInt.ofInt n h).value = n :=
  signedValue_natAbs n

@[simp] theorem DecimalInt.text_ofInt
    (n : Int) (h : IsInt n) :
    (DecimalInt.ofInt n h).text = intText n := by
  cases n with
  | ofNat m =>
      have hsign : ¬ Int.ofNat m < 0 := by simp
      simp only [DecimalInt.text, DecimalInt.ofInt, hsign, decide_false, Bool.false_eq_true,
        if_false]
      rfl
  | negSucc m =>
      have hsign : Int.negSucc m < 0 := Int.negSucc_lt_zero m
      rw [intText_negSucc]
      simp only [DecimalInt.text, DecimalInt.ofInt, hsign, decide_true, if_true]
      rfl

/-- A number is printed in at most eleven bytes. -/
theorem length_intText_le
    {n : Int}
    (h : IsInt n) :
    (intText n).length ≤ 11 := by
  have hlower := h.lower
  have hupper := h.upper
  cases n with
  | ofNat m =>
      rw [Int.ofNat_eq_natCast] at hupper
      have hlen : (decimal m).length ≤ 10 := length_decimal_le (by decide) (by omega)
      exact hlen.trans (by decide)
  | negSucc m =>
      have hlen : (decimal (m + 1)).length ≤ 10 := length_decimal_le (by decide) (by omega)
      rw [intText_negSucc, List.length_cons]
      omega

end Numbers

section Objects

/-- A text that is the name of a field. -/
def isField (s : String) : Bool :=
  !(ascii s).isEmpty && (ascii s).all Shell.isNameByte && decide ((ascii s).length < 120)

theorem isField_iff
    {s : String} :
    isField s = true ↔
      ascii s ≠ [] ∧ (∀ b ∈ ascii s, Shell.isNameByte b = true) ∧ (ascii s).length < 120 := by
  simp [isField, and_assoc]

/-- The name of a field of the source. -/
def field (s : String) (h : isField s = true := by decide) : Identifier :=
  ⟨ascii s, (isField_iff.mp h).1, (isField_iff.mp h).2.1, (isField_iff.mp h).2.2⟩

/-- A text that needs no escape. -/
def isPlain (s : String) : Bool :=
  !(ascii s).elem 0 && !(ascii s).elem quote

theorem isPlain_iff
    {s : String} :
    isPlain s = true ↔ (0 : UInt8) ∉ ascii s ∧ quote ∉ ascii s := by
  simp [isPlain]

/-- A text of the source. -/
def plain (s : String) (h : isPlain s = true := by decide) : PlainText :=
  ⟨⟨ascii s, (isPlain_iff.mp h).1⟩, (isPlain_iff.mp h).2⟩

/-- A pair with a text. -/
def textPair (key : Identifier) (value : PlainText) : FlatPair :=
  ⟨key, .text value⟩

/-- A pair with a number. -/
def intPair (key : Identifier) (n : Int) (h : IsInt n) : FlatPair :=
  ⟨key, .int (.ofInt n h)⟩

/-- The pair that every answer to a success begins with. -/
def okPair : FlatPair :=
  textPair (field "status") (plain "ok")

/-- What is read from an answer that is a flat object. -/
theorem extractInt_object
    {response : Bytes} {pairs : List FlatPair} {f : Identifier} {n : DecimalInt}
    (hobject : response = objectText pairs)
    (hfirst : firstValue pairs f = some (.int n)) :
    extractInt (cstr response) f.bytes = n.value := by
  have hcstr : cstr response = objectJson pairs := by
    ext1
    rw [hobject]
    exact cstr_bytes_of_nulFree (nul_not_mem_objectText pairs)
  rw [hcstr]
  exact extractInt_objectJson_of_int hfirst

theorem extractField_object
    {response : Bytes} {pairs : List FlatPair} {f : Identifier} {value : CString}
    (hobject : response = objectText pairs)
    (hfirst : firstText pairs f = some value) :
    extractField (cstr response) f.bytes = some value := by
  have hcstr : cstr response = objectJson pairs := by
    ext1
    rw [hobject]
    exact cstr_bytes_of_nulFree (nul_not_mem_objectText pairs)
  rw [hcstr, extractField_objectJson, hfirst]

end Objects

section Answers

/-- The answer to a session that was started. -/
theorem started_object
    {id : Int}
    (h : IsInt id) :
    snprintf respBufSize
        (ascii "\x7b\"status\":\"ok\",\"session_id\":" ++ intText id ++ ascii "\x7d") =
      objectText [okPair, intPair (field "session_id") id h] := by
  have hlen := length_intText_le h
  rw [snprintf_of_fits]
  · simp only [objectText, List.map_cons, List.map_nil, FlatPair.render, okPair, textPair,
      intPair, FlatValue.render, DecimalInt.text_ofInt]
    simp [List.intercalate, List.intersperse, ascii, Shell.byte, quote, field, plain]
  · have hfixed : (ascii "\x7b\"status\":\"ok\",\"session_id\":").length = 28 ∧
        (ascii "\x7d").length = 1 := ⟨rfl, rfl⟩
    simp only [List.length_append, respBufSize]
    omega

/-- The numbers of a status can be printed. -/
structure Printable (e : Engine) : Prop where
  allocs : IsInt e.secureAllocs
  bytes : IsInt e.secureBytes
  sessions : IsInt e.sessions.length
  pid : IsInt e.daemonPid

/-- The pairs of a status. -/
def statusPairs (e : Engine) (h : Printable e) : List FlatPair :=
  [okPair, textPair (field "version") (plain "1.0.0"),
    intPair (field "secure_allocs") e.secureAllocs h.allocs,
    intPair (field "secure_bytes") e.secureBytes h.bytes,
    intPair (field "active_sessions") e.sessions.length h.sessions,
    intPair (field "daemon_pid") e.daemonPid h.pid]

/-- The answer to `status`. -/
theorem status_object
    {e : Engine}
    (h : Printable e) :
    statusResponse e = objectText (statusPairs e h) := by
  have hallocs := length_intText_le h.allocs
  have hbytes := length_intText_le h.bytes
  have hsessions := length_intText_le h.sessions
  have hpid := length_intText_le h.pid
  have hfixed :
      (ascii "\x7b\"status\":\"ok\",\"version\":\"1.0.0\",\"secure_allocs\":").length = 49 ∧
        (ascii ",\"secure_bytes\":").length = 16 ∧
        (ascii ",\"active_sessions\":").length = 19 ∧
        (ascii ",\"daemon_pid\":").length = 14 ∧
        (ascii "\x7d").length = 1 := ⟨rfl, rfl, rfl, rfl, rfl⟩
  rw [statusResponse, ← intText_natCast, ← intText_natCast, snprintf_of_fits]
  · simp only [objectText, statusPairs, List.map_cons, List.map_nil, FlatPair.render, okPair,
      textPair, intPair, FlatValue.render, DecimalInt.text_ofInt]
    simp [List.intercalate, List.intersperse, ascii, Shell.byte, quote, field, plain]
  · simp only [List.length_append, respBufSize]
    omega

end Answers

section Requests

/-- The request of `cmd_securesession` with `end`. -/
def sessionEndText (id : Int) : Bytes :=
  ascii "\x7b\"cmd\":\"session_end\",\"id\":" ++ intText id ++ ascii "\x7d"

/-- The pairs of that request. -/
def sessionEndPairs (id : Int) (h : IsInt id) : List FlatPair :=
  [textPair (field "cmd") (plain "session_end"), intPair (field "id") id h]

theorem sessionEnd_object
    {id : Int}
    (h : IsInt id) :
    snprintf 256 (sessionEndText id) = objectText (sessionEndPairs id h) := by
  have hlen := length_intText_le h
  have hfixed : (ascii "\x7b\"cmd\":\"session_end\",\"id\":").length = 26 ∧
      (ascii "\x7d").length = 1 := ⟨rfl, rfl⟩
  rw [sessionEndText, snprintf_of_fits]
  · simp only [objectText, sessionEndPairs, List.map_cons, List.map_nil, FlatPair.render,
      textPair, intPair, FlatValue.render, DecimalInt.text_ofInt]
    simp [List.intercalate, List.intersperse, ascii, Shell.byte, quote, field, plain]
  · simp only [List.length_append]
    omega

/-- The daemon ends the session whose number is in the request. -/
theorem handleCommand_sessionEnd
    {id : Int}
    (h : IsInt id) :
    handleCommand (cstr (snprintf 256 (sessionEndText id))) = .call (.sessionDestroy id) := by
  have hobject := sessionEnd_object h
  have hcmd : extractField (cstr (snprintf 256 (sessionEndText id))) (ascii "cmd") =
      some (cstr (Command.text .sessionEnd)) :=
    extractField_object (f := field "cmd") hobject rfl
  have hid : extractInt (cstr (snprintf 256 (sessionEndText id))) (ascii "id") = id :=
    (extractInt_object (f := field "id") (n := .ofInt id h) hobject rfl).trans
      (DecimalInt.value_ofInt id h)
  rw [handleCommand_of_cmd hcmd, commandBranch, hid]

end Requests

end Daemon
end SecureZ
