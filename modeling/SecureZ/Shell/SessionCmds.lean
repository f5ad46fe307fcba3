import SecureZ.Lib.Decimal

/-!
# Reading the session listing

`cmd_securesession` with `status` asks the daemon for its sessions and reads the response
by substring search.  A loop looks for `"id":` from the byte behind the last place where it
was found, and takes the name and the process from the first keys behind it.

The loop is given a bound on the number of its turns; it is none when they do not suffice.
-/

namespace SecureZ
namespace Shell

open CLib

section Model

/-- A line of the listing. -/
structure StatusRow where
  id : Int
  name : Bytes
  pid : Int
deriving DecidableEq

/-- What `securesession status` prints: the number in the title, and the lines. -/
structure StatusListing where
  count : Int
  rows : List StatusRow
deriving DecidableEq

/-- `read` of `send_cmd` into its buffer of 4096 bytes. -/
def sendCmdRead (response : Bytes) : Bytes :=
  response.take 4095

/-- The dash that `name` is initialised with, in UTF-8. -/
def noName : Bytes := [0xE2, 0x80, 0x94]

/-- `name`, from the place `p` where `"id":` was found. -/
def statusName (p : Bytes) : Bytes :=
  match strstr (ascii "\"name\":\"") p with
  | none => noName
  | some found =>
      match strchr (found.drop 8) 34 with
      | none => noName
      | some stop => ((found.drop 8).take ((found.drop 8).length - stop.length)).take 63

/-- `pid`, from the place `p` where `"id":` was found. -/
def statusPid (p : Bytes) : Int :=
  match strstr (ascii "\"pid\":") p with
  | none => 0
  | some found => atoi (found.drop 6)

/-- The line that is printed for the place `p` where `"id":` was found. -/
def statusRow (p : Bytes) : StatusRow :=
  ⟨atoi (p.drop 5), statusName p, statusPid p⟩

/-- The loop over the places where `"id":` is found, from `p` on. -/
def statusRows : Nat → Bytes → Option (List StatusRow)
  | 0, _ => none
  | turns + 1, p =>
      match strstr (ascii "\"id\":") p with
      | none => some []
      | some found => (statusRows turns (found.drop 1)).map fun rows => statusRow found :: rows

/-- The number behind `"count":`. -/
def statusCount (resp : Bytes) : Int :=
  match strstr (ascii "\"count\":") resp with
  | none => 0
  | some found => atoi (found.drop 8)

/-- `cmd_securesession` with `status`, on the response that it has read. -/
def securesessionStatus (turns : Nat) (resp : Bytes) : Option StatusListing :=
  if statusCount resp = 0 then some ⟨0, []⟩
  else
    match strstr (ascii "\"sessions\":[") resp with
    | none => some ⟨statusCount resp, []⟩
    | some s => (statusRows turns s).map fun rows => ⟨statusCount resp, rows⟩

end Model

section Termination

/-- The loop ends on every text: it has fewer turns than the text has bytes, and one. -/
theorem statusRows_terminates
    (p : Bytes)
    {turns : Nat}
    (h : p.length < turns) :
    (statusRows turns p).isSome := by
  induction turns generalizing p with
  | zero =>
      omega
  | succ turns ih =>
      simp only [statusRows]
      cases hfound : strstr (ascii "\"id\":") p with
      | none =>
          rfl
      | some found =>
          obtain ⟨front, rfl, hprefix⟩ := strstr_eq_some hfound
          have hlen := hprefix.length_le
          have hkey : (ascii "\"id\":").length = 5 := by decide
          have hshorter : (found.drop 1).length < turns := by
            rw [List.length_drop]
            rw [List.length_append] at h
            omega
          simpa using ih (found.drop 1) hshorter

end Termination

end Shell
end SecureZ
