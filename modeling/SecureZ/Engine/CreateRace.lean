import SecureZ.Lib.Transition
import SecureZ.Lib.Bytes
import Mathlib.Logic.Function.Basic

/-!
# Two creations of one container

`container_create` takes no lock.  It looks whether the vault file exists, and then makes
and formats vault and header in several steps; when a step fails it unlinks what it has
made so far, or what it takes for that.  Nobody looks at the results of `mkfs.ext4`, of the
last `cryptsetup close` and of the `fork` for `cryptsetup open`.

The system is the pair of files of one name, the mapping of that name, and two clients
that each run `container_create` for it.  A file is known by whose key its content is
under: the header by the client that formatted it, the file system in the vault by the
volume key with which it was written.
-/

namespace SecureZ
namespace CreateRace

open CLib Transition

section Model

/-- The two clients. -/
inductive Client
  | first
  | second
deriving DecidableEq

/-- The other client. -/
def Client.other : Client → Client
  | .first => .second
  | .second => .first

/-- How far a client is in `container_create`. -/
inductive Phase
  /-- The existence check comes next. -/
  | start
  /-- `dd` comes next. -/
  | absent
  /-- `luksFormat` comes next. -/
  | filled
  /-- `cryptsetup open` comes next. -/
  | formatted
  /-- `mkfs.ext4` comes next. -/
  | mapped
  /-- `cryptsetup close` comes next. -/
  | made
  /-- The unlink of the vault comes next, and that of the header if `both`. -/
  | failed (both : Bool)
  /-- The unlink of the header comes next. -/
  | halfUnlinked
  /-- The call has returned 0, or `-1`. -/
  | returned (ok : Bool)
deriving DecidableEq

/-- The files and the mapping of the name, and the clients. -/
structure System where
  /-- The vault file, with the client under whose key there is a file system in it. -/
  vault : Option (Option Client)
  /-- The header file, with the client that formatted it, if it is a header at all. -/
  header : Option (Option Client)
  /-- The open mapping, with the client that formatted the header it was opened with. -/
  mapping : Option Client
  phase : Client → Phase

/-- A new name: no file, no mapping, and both calls to come. -/
def System.initial : System := ⟨none, none, none, fun _ => .start⟩

/-- The steps of a client, with what the system comes back with. -/
inductive Event
  /-- The arguments are refused. -/
  | refuse (c : Client)
  /-- `access` of the vault. -/
  | check (c : Client)
  /-- `dd`; if it fails, the vault is there or not. -/
  | dd (c : Client) (ok left : Bool)
  /-- `pipe` and `fork` for `luksFormat` fail. -/
  | formatPipeFails (c : Client)
  /-- `luksFormat`; if it fails, it may have written on the header. -/
  | luksFormat (c : Client) (ok wrote : Bool)
  /-- `cryptsetup open`, or the `pipe` for it, fails for a reason of its own if not `ok`. -/
  | cryptsetupOpen (c : Client) (ok : Bool)
  /-- `fork` for `cryptsetup open` fails.  The `waitpid(-1)` that follows leaves the status
  of `luksFormat` or takes that of some other child: `good` says what is read. -/
  | openForkFails (c : Client) (good : Bool)
  /-- `mkfs.ext4`. -/
  | mkfs (c : Client) (ok : Bool)
  /-- `cryptsetup close`. -/
  | cryptsetupClose (c : Client) (ok : Bool)
  /-- `unlink` of the vault. -/
  | unlinkVault (c : Client)
  /-- `unlink` of the header. -/
  | unlinkHeader (c : Client)
deriving DecidableEq

/-- The system after a client went on. -/
def System.advance (s : System) (c : Client) (p : Phase) : System :=
  { s with phase := Function.update s.phase c p }

/-- `cryptsetup open` can map the vault: both files are there, the header accepts the
password of the client, and no mapping of the name is open. -/
def System.opensWith (s : System) (pw : Client → CString) (c : Client) : Option Client :=
  match s.vault, s.header, s.mapping with
  | some _, some (some owner), none => if pw owner = pw c then some owner else none
  | _, _, _ => none

/-- One step. -/
def step (pw : Client → CString) (s : System) : Event → Option System
  | .refuse c =>
      if s.phase c = .start then some (s.advance c (.returned false)) else none
  | .check c =>
      if s.phase c = .start then
        some (s.advance c (if s.vault.isSome then .returned false else .absent))
      else none
  | .dd c ok left =>
      if s.phase c = .absent then
        if ok then some ({ s with vault := some none }.advance c .filled)
        else
          some ({ s with vault := if left then some none else s.vault }.advance c
            (.returned false))
      else none
  | .formatPipeFails c =>
      if s.phase c = .filled then some (s.advance c (.failed false)) else none
  | .luksFormat c ok wrote =>
      if s.phase c = .filled then
        if ok = true ∧ s.vault.isSome then
          some ({ s with header := some (some c) }.advance c .formatted)
        else
          some ({ s with header := if wrote then some none else s.header }.advance c
            (.failed true))
      else none
  | .cryptsetupOpen c ok =>
      if s.phase c = .formatted then
        match s.opensWith pw c with
        | some owner =>
            if ok then some ({ s with mapping := some owner }.advance c .mapped)
            else some (s.advance c (.failed true))
        | none => some (s.advance c (.failed true))
      else none
  | .openForkFails c good =>
      if s.phase c = .formatted then
        some (s.advance c (if good then .mapped else .failed true))
      else none
  | .mkfs c ok =>
      if s.phase c = .mapped then
        match s.mapping, s.vault with
        | some owner, some _ =>
            if ok then some ({ s with vault := some (some owner) }.advance c .made)
            else some (s.advance c .made)
        | _, _ => some (s.advance c .made)
      else none
  | .cryptsetupClose c ok =>
      if s.phase c = .made then
        some ({ s with mapping := if ok then none else s.mapping }.advance c (.returned true))
      else none
  | .unlinkVault c =>
      match s.phase c with
      | .failed true => some ({ s with vault := none }.advance c .halfUnlinked)
      | .failed false => some ({ s with vault := none }.advance c (.returned false))
      | _ => none
  | .unlinkHeader c =>
      if s.phase c = .halfUnlinked then
        some ({ s with header := none }.advance c (.returned false))
      else none

end Model

section Specification

/-- Both calls have returned. -/
def Finished (s : System) : Prop :=
  ∀ c, ∃ ok, s.phase c = .returned ok

/-- The container opens with the password of the client: the mapping can be made, and the
file system is readable through it. -/
def Opens (pw : Client → CString) (s : System) (c : Client) : Prop :=
  ∃ owner, s.opensWith pw c = some owner ∧ s.vault = some (some owner)

/-- If a call returned 0, both files are there, and the container opens with the password
of a call that returned 0. -/
def Usable (pw : Client → CString) (s : System) : Prop :=
  (∃ c, s.phase c = .returned true) →
    s.vault.isSome ∧ s.header.isSome ∧ ∃ c, s.phase c = .returned true ∧ Opens pw s c

/-- A client is not between its existence check and its return. -/
def Idle : Phase → Prop
  | .start => True
  | .returned _ => True
  | _ => False

/-- The condition on a step: no existence check finds the vault missing while the other
call is running, and what is not checked goes well, which is the `fork` for
`cryptsetup open`, `mkfs.ext4` and the last `cryptsetup close`. -/
def StepOk (s : System) : Event → Prop
  | .check c => s.vault = none → Idle (s.phase c.other)
  | .openForkFails _ good => good = false
  | .mkfs _ ok => ok = true
  | .cryptsetupClose _ ok => ok = true
  | _ => True

instance : ∀ p, Decidable (Idle p)
  | .start => isTrue trivial
  | .returned _ => isTrue trivial
  | .absent => isFalse id
  | .filled => isFalse id
  | .formatted => isFalse id
  | .mapped => isFalse id
  | .made => isFalse id
  | .failed _ => isFalse id
  | .halfUnlinked => isFalse id

instance (s : System) : ∀ e, Decidable (StepOk s e)
  | .refuse _ => isTrue trivial
  | .check _ => inferInstanceAs (Decidable (_ → _))
  | .dd _ _ _ => isTrue trivial
  | .formatPipeFails _ => isTrue trivial
  | .luksFormat _ _ _ => isTrue trivial
  | .cryptsetupOpen _ _ => isTrue trivial
  | .openForkFails _ good => inferInstanceAs (Decidable (good = false))
  | .mkfs _ ok => inferInstanceAs (Decidable (ok = true))
  | .cryptsetupClose _ ok => inferInstanceAs (Decidable (ok = true))
  | .unlinkVault _ => isTrue trivial
  | .unlinkHeader _ => isTrue trivial

end Specification

section Clients

@[simp]
theorem Client.other_ne
    (c : Client) :
    c.other ≠ c := by
  cases c <;> decide

@[simp]
theorem Client.other_other
    (c : Client) :
    c.other.other = c := by
  cases c <;> rfl

theorem Client.eq_or_eq_other
    (c d : Client) :
    d = c ∨ d = c.other := by
  cases c <;> cases d <;> decide

variable (s : System) (c : Client) (p : Phase)

@[simp]
theorem advance_vault :
    (s.advance c p).vault = s.vault :=
  rfl

@[simp]
theorem advance_header :
    (s.advance c p).header = s.header :=
  rfl

@[simp]
theorem advance_mapping :
    (s.advance c p).mapping = s.mapping :=
  rfl

@[simp]
theorem advance_phase_self :
    (s.advance c p).phase c = p :=
  Function.update_self ..

@[simp]
theorem advance_phase_other :
    (s.advance c p).phase c.other = s.phase c.other :=
  Function.update_of_ne c.other_ne ..

@[simp]
theorem advance_other_phase :
    (s.advance c.other p).phase c = s.phase c :=
  Function.update_of_ne (Ne.symm c.other_ne) ..

end Clients

section Effect

/-- What a step can do. -/
inductive Effect (pw : Client → CString) (s : System) : Event → System → Prop
  | refused
      {c : Client}
      (hphase : s.phase c = .start) :
      Effect pw s (.refuse c) (s.advance c (.returned false))
  | present
      {c : Client}
      (hphase : s.phase c = .start)
      (hvault : s.vault ≠ none) :
      Effect pw s (.check c) (s.advance c (.returned false))
  | passed
      {c : Client}
      (hphase : s.phase c = .start)
      (hvault : s.vault = none) :
      Effect pw s (.check c) (s.advance c .absent)
  | filled
      {c : Client} {left : Bool}
      (hphase : s.phase c = .absent) :
      Effect pw s (.dd c true left) ({ s with vault := some none }.advance c .filled)
  | notFilled
      {c : Client} {left : Bool} {vault : Option (Option Client)}
      (hphase : s.phase c = .absent) :
      Effect pw s (.dd c false left) ({ s with vault := vault }.advance c (.returned false))
  | noFormatPipe
      {c : Client}
      (hphase : s.phase c = .filled) :
      Effect pw s (.formatPipeFails c) (s.advance c (.failed false))
  | formatted
      {c : Client} {wrote : Bool}
      (hphase : s.phase c = .filled)
      (hvault : s.vault ≠ none) :
      Effect pw s (.luksFormat c true wrote)
        ({ s with header := some (some c) }.advance c .formatted)
  | notFormatted
      {c : Client} {ok wrote : Bool} {header : Option (Option Client)}
      (hphase : s.phase c = .filled) :
      Effect pw s (.luksFormat c ok wrote) ({ s with header := header }.advance c (.failed true))
  | mapped
      {c owner : Client}
      (hphase : s.phase c = .formatted)
      (hopens : s.opensWith pw c = some owner) :
      Effect pw s (.cryptsetupOpen c true) ({ s with mapping := some owner }.advance c .mapped)
  | notMapped
      {c : Client} {ok : Bool}
      (hphase : s.phase c = .formatted) :
      Effect pw s (.cryptsetupOpen c ok) (s.advance c (.failed true))
  | forkFailed
      {c : Client} {good : Bool}
      (hphase : s.phase c = .formatted) :
      Effect pw s (.openForkFails c good)
        (s.advance c (if good then .mapped else .failed true))
  | made
      {c owner : Client} {ok : Bool}
      (hphase : s.phase c = .mapped)
      (hmapping : s.mapping = some owner)
      (hvault : s.vault ≠ none) :
      Effect pw s (.mkfs c ok)
        ({ s with vault := if ok then some (some owner) else s.vault }.advance c .made)
  | notMade
      {c : Client} {ok : Bool}
      (hphase : s.phase c = .mapped)
      (hgone : s.mapping = none ∨ s.vault = none) :
      Effect pw s (.mkfs c ok) (s.advance c .made)
  | closed
      {c : Client} {ok : Bool}
      (hphase : s.phase c = .made) :
      Effect pw s (.cryptsetupClose c ok)
        ({ s with mapping := if ok then none else s.mapping }.advance c (.returned true))
  | vaultUnlinked
      {c : Client} {both : Bool}
      (hphase : s.phase c = .failed both) :
      Effect pw s (.unlinkVault c)
        ({ s with vault := none }.advance c
          (if both then .halfUnlinked else .returned false))
  | headerUnlinked
      {c : Client}
      (hphase : s.phase c = .halfUnlinked) :
      Effect pw s (.unlinkHeader c)
        ({ s with header := none }.advance c (.returned false))

/-- A step does one of these. -/
theorem effect_of_step
    {pw : Client → CString} {s s' : System} {e : Event}
    (h : step pw s e = some s') :
    Effect pw s e s' := by
  cases e with
  | refuse c =>
      obtain ⟨hphase, h⟩ := Option.ite_none_right_eq_some.mp h
      obtain rfl := Option.some.inj h
      exact .refused hphase
  | check c =>
      obtain ⟨hphase, h⟩ := Option.ite_none_right_eq_some.mp h
      obtain rfl := Option.some.inj h
      split_ifs with hvault
      · exact .present hphase (Option.isSome_iff_ne_none.mp hvault)
      · exact .passed hphase (Option.not_isSome_iff_eq_none.mp hvault)
  | dd c ok left =>
      obtain ⟨hphase, h⟩ := Option.ite_none_right_eq_some.mp h
      cases ok with
      | true =>
          obtain rfl := Option.some.inj h
          exact .filled hphase
      | false =>
          obtain rfl := Option.some.inj h
          exact .notFilled hphase
  | formatPipeFails c =>
      obtain ⟨hphase, h⟩ := Option.ite_none_right_eq_some.mp h
      obtain rfl := Option.some.inj h
      exact .noFormatPipe hphase
  | luksFormat c ok wrote =>
      obtain ⟨hphase, h⟩ := Option.ite_none_right_eq_some.mp h
      split_ifs at h with hok
      · obtain rfl := Option.some.inj h
        obtain ⟨rfl, hvault⟩ := hok
        exact .formatted hphase (Option.isSome_iff_ne_none.mp hvault)
      all_goals
        obtain rfl := Option.some.inj h
        exact .notFormatted hphase
  | cryptsetupOpen c ok =>
      obtain ⟨hphase, h⟩ := Option.ite_none_right_eq_some.mp h
      cases hopens : s.opensWith pw c with
      | none =>
          rw [hopens] at h
          obtain rfl := Option.some.inj h
          exact .notMapped hphase
      | some owner =>
          rw [hopens] at h
          cases ok with
          | true =>
              obtain rfl := Option.some.inj h
              exact .mapped hphase hopens
          | false =>
              obtain rfl := Option.some.inj h
              exact .notMapped hphase
  | openForkFails c good =>
      obtain ⟨hphase, h⟩ := Option.ite_none_right_eq_some.mp h
      obtain rfl := Option.some.inj h
      exact .forkFailed hphase
  | mkfs c ok =>
      obtain ⟨hphase, h⟩ := Option.ite_none_right_eq_some.mp h
      split at h
      · next owner content hmapping hvault =>
          have heffect := @Effect.made pw s c owner ok hphase hmapping (by simp [hvault])
          cases ok with
          | true =>
              obtain rfl := Option.some.inj h
              exact heffect
          | false =>
              obtain rfl := Option.some.inj h
              exact heffect
      · next hgone =>
          obtain rfl := Option.some.inj h
          refine .notMade hphase ?_
          cases hmapping : s.mapping with
          | none =>
              exact Or.inl rfl
          | some owner =>
              cases hvault : s.vault with
              | none =>
                  exact Or.inr rfl
              | some content =>
                  exact (hgone owner content hmapping hvault).elim
  | cryptsetupClose c ok =>
      obtain ⟨hphase, h⟩ := Option.ite_none_right_eq_some.mp h
      obtain rfl := Option.some.inj h
      exact .closed hphase
  | unlinkVault c =>
      simp only [step] at h
      split at h
      · next hphase =>
          obtain rfl := Option.some.inj h
          exact .vaultUnlinked hphase
      · next hphase =>
          obtain rfl := Option.some.inj h
          exact .vaultUnlinked hphase
      · cases h
  | unlinkHeader c =>
      obtain ⟨hphase, h⟩ := Option.ite_none_right_eq_some.mp h
      obtain rfl := Option.some.inj h
      exact .headerUnlinked hphase

end Effect

section Worker

/-- A client that has not begun, or that has failed. -/
def Quiet : Phase → Prop
  | .start => True
  | .returned ok => ok = false
  | _ => False

/-- What the files are like for a client that works alone. -/
def Facts (s : System) (c : Client) : Phase → Prop
  | .filled => s.vault = some none ∧ s.mapping = none
  | .formatted => s.vault = some none ∧ s.header = some (some c) ∧ s.mapping = none
  | .mapped => s.vault = some none ∧ s.header = some (some c) ∧ s.mapping = some c
  | .made => s.vault = some (some c) ∧ s.header = some (some c) ∧ s.mapping = some c
  | .failed _ => s.vault = some none ∧ s.mapping = none
  | .halfUnlinked => s.vault = none ∧ s.mapping = none
  | .returned true => s.vault = some (some c) ∧ s.header = some (some c) ∧ s.mapping = none
  | _ => s.mapping = none

/-- Only this client works, or has worked with success. -/
structure WorksAlone (s : System) (c : Client) : Prop where
  facts : Facts s c (s.phase c)
  quiet : Quiet (s.phase c.other)

theorem worksAlone_initial
    (c : Client) :
    WorksAlone System.initial c :=
  ⟨rfl, trivial⟩

/-- Whoever works alone can go on, if the facts hold where it goes to. -/
theorem worksAlone_advance
    {s : System} {c : Client} {p : Phase}
    (hquiet : Quiet (s.phase c.other))
    (hfacts : Facts s c p) :
    WorksAlone (s.advance c p) c := by
  refine ⟨?_, ?_⟩
  · rw [advance_phase_self]
    cases p with
    | returned ok => cases ok <;> exact hfacts
    | _ => exact hfacts
  · rw [advance_phase_other]
    exact hquiet

/-- `cryptsetup open` finds the header of the worker. -/
theorem owner_of_opensWith
    {pw : Client → CString} {s : System} {c owner : Client}
    (hheader : s.header = some (some c))
    (hopens : s.opensWith pw c = some owner) :
    owner = c := by
  rw [System.opensWith, hheader] at hopens
  split at hopens
  · next found _ hfound _ =>
      obtain rfl := Option.some.inj (Option.some.inj hfound)
      split_ifs at hopens
      exact (Option.some.inj hopens).symm
  · cases hopens

/-- Whoever is busy is the worker. -/
theorem worker_of_busy
    {s : System} {c d : Client}
    (h : WorksAlone s c)
    (hbusy : ¬ Quiet (s.phase d)) :
    d = c := by
  rcases Client.eq_or_eq_other c d with rfl | rfl
  · rfl
  · exact absurd h.quiet hbusy

/-- Whoever is busy has the files as its phase says. -/
theorem facts_of_busy
    {s : System} {c d : Client} {p : Phase}
    (h : WorksAlone s c)
    (hphase : s.phase d = p)
    (hbusy : ¬ Quiet p) :
    d = c ∧ Facts s d p := by
  obtain rfl := worker_of_busy h (hphase ▸ hbusy)
  exact ⟨rfl, hphase ▸ h.facts⟩

/-- The other client can give up. -/
theorem worksAlone_giveUp
    {s : System} {c : Client}
    (h : WorksAlone s c) :
    WorksAlone (s.advance c.other (.returned false)) c := by
  have hfacts : Facts s c (s.phase c) := h.facts
  refine ⟨?_, ?_⟩
  · rw [advance_other_phase]
    cases hphase : s.phase c with
    | returned ok =>
        rw [hphase] at hfacts
        cases ok <;> exact hfacts
    | _ =>
        rw [hphase] at hfacts
        exact hfacts
  · rw [advance_phase_self]
    rfl

/-- Whoever is not begun can give up. -/
theorem worksAlone_refused
    {s : System} {c d : Client}
    (h : WorksAlone s c)
    (hphase : s.phase d = .start) :
    WorksAlone (s.advance d (.returned false)) c := by
  rcases Client.eq_or_eq_other c d with rfl | rfl
  · have hfacts : Facts s d (s.phase d) := h.facts
    rw [hphase] at hfacts
    exact worksAlone_advance h.quiet hfacts
  · exact worksAlone_giveUp h

/-- If the vault is missing and the worker is between calls, it has not begun or has
failed, and nothing is mapped. -/
theorem quiet_of_vault_none
    {s : System} {c : Client}
    (h : WorksAlone s c)
    (hvault : s.vault = none)
    (hidle : Idle (s.phase c)) :
    Quiet (s.phase c) ∧ s.mapping = none := by
  have hfacts : Facts s c (s.phase c) := h.facts
  cases hphase : s.phase c with
  | start =>
      rw [hphase] at hfacts
      exact ⟨trivial, hfacts⟩
  | returned ok =>
      rw [hphase] at hfacts
      cases ok with
      | true =>
          have hpresent : s.vault = some (some c) := hfacts.1
          rw [hvault] at hpresent
          cases hpresent
      | false =>
          exact ⟨rfl, hfacts⟩
  | _ =>
      rw [hphase] at hidle
      exact hidle.elim

/-- **A step that meets the condition leaves one client working alone.** -/
theorem worksAlone_step
    {pw : Client → CString} {s s' : System} {e : Event}
    (h : ∃ c, WorksAlone s c)
    (hok : StepOk s e)
    (hstep : step pw s e = some s') :
    ∃ c, WorksAlone s' c := by
  obtain ⟨c, h⟩ := h
  cases effect_of_step hstep with
  | refused hphase =>
      exact ⟨c, worksAlone_refused h hphase⟩
  | present hphase hvault =>
      exact ⟨c, worksAlone_refused h hphase⟩
  | @passed d hphase hvault =>
      rcases Client.eq_or_eq_other c d with rfl | rfl
      · have hfacts : Facts s d .start := hphase ▸ h.facts
        exact ⟨d, worksAlone_advance h.quiet hfacts⟩
      · -- the other client takes over from one that has returned, or not begun
        have hidle : Idle (s.phase c) := by simpa using hok hvault
        obtain ⟨hquiet, hmapping⟩ := quiet_of_vault_none h hvault hidle
        exact ⟨c.other, worksAlone_advance (by simpa using hquiet) hmapping⟩
  | filled hphase =>
      obtain ⟨rfl, hfacts⟩ := facts_of_busy h hphase id
      exact ⟨_, worksAlone_advance h.quiet ⟨rfl, hfacts⟩⟩
  | notFilled hphase =>
      obtain ⟨rfl, hfacts⟩ := facts_of_busy h hphase id
      exact ⟨_, worksAlone_advance h.quiet hfacts⟩
  | noFormatPipe hphase =>
      obtain ⟨rfl, hfacts⟩ := facts_of_busy h hphase id
      exact ⟨_, worksAlone_advance h.quiet hfacts⟩
  | formatted hphase hvault =>
      obtain ⟨rfl, hfacts⟩ := facts_of_busy h hphase id
      exact ⟨_, worksAlone_advance h.quiet ⟨hfacts.1, rfl, hfacts.2⟩⟩
  | notFormatted hphase =>
      obtain ⟨rfl, hfacts⟩ := facts_of_busy h hphase id
      exact ⟨_, worksAlone_advance h.quiet hfacts⟩
  | mapped hphase hopens =>
      obtain ⟨rfl, hfacts⟩ := facts_of_busy h hphase id
      obtain ⟨hvault, hheader, hmapping⟩ := hfacts
      obtain rfl := owner_of_opensWith hheader hopens
      exact ⟨_, worksAlone_advance h.quiet ⟨hvault, hheader, rfl⟩⟩
  | notMapped hphase =>
      obtain ⟨rfl, hfacts⟩ := facts_of_busy h hphase id
      exact ⟨_, worksAlone_advance h.quiet ⟨hfacts.1, hfacts.2.2⟩⟩
  | forkFailed hphase =>
      obtain ⟨rfl, hfacts⟩ := facts_of_busy h hphase id
      obtain rfl : _ = false := hok
      exact ⟨_, worksAlone_advance h.quiet ⟨hfacts.1, hfacts.2.2⟩⟩
  | made hphase hmapping hvault =>
      obtain ⟨rfl, hfacts⟩ := facts_of_busy h hphase id
      obtain ⟨-, hheader, hmapped⟩ := hfacts
      obtain rfl := Option.some.inj (hmapping.symm.trans hmapped)
      obtain rfl : _ = true := hok
      exact ⟨_, worksAlone_advance h.quiet ⟨rfl, hheader, hmapped⟩⟩
  | notMade hphase hgone =>
      obtain ⟨rfl, hfacts⟩ := facts_of_busy h hphase id
      obtain ⟨hvault, -, hmapped⟩ := hfacts
      simp [hvault, hmapped] at hgone
  | closed hphase =>
      obtain ⟨rfl, hfacts⟩ := facts_of_busy h hphase id
      obtain ⟨hvault, hheader, -⟩ := hfacts
      obtain rfl : _ = true := hok
      exact ⟨_, worksAlone_advance h.quiet ⟨hvault, hheader, rfl⟩⟩
  | @vaultUnlinked d both hphase =>
      obtain ⟨rfl, hfacts⟩ := facts_of_busy h hphase id
      cases both with
      | true => exact ⟨d, worksAlone_advance h.quiet ⟨rfl, hfacts.2⟩⟩
      | false => exact ⟨d, worksAlone_advance h.quiet hfacts.2⟩
  | headerUnlinked hphase =>
      obtain ⟨rfl, hfacts⟩ := facts_of_busy h hphase id
      exact ⟨_, worksAlone_advance h.quiet hfacts.2⟩

/-- What one client has made alone is usable. -/
theorem usable_of_worksAlone
    {pw : Client → CString} {s : System} {c : Client}
    (h : WorksAlone s c) :
    Usable pw s := by
  rintro ⟨d, hreturned⟩
  obtain ⟨rfl, hvault, hheader, hmapping⟩ := facts_of_busy h hreturned (by simp [Quiet])
  have hopens : s.opensWith pw d = some d := by
    simp [System.opensWith, hvault, hheader, hmapping]
  exact ⟨by simp [hvault], by simp [hheader], d, hreturned, d, hopens, hvault⟩

end Worker

section Runs

/--
**Once a call has returned 0, the container is usable, also when both have returned.**
The condition on the steps is that no existence check finds the vault missing while the
other call is running, and that what is not checked goes well.
-/
theorem usable_of_guarded
    (pw : Client → CString)
    (s : System)
    (es : List Event)
    (hguard : Guarded (step pw) StepOk System.initial es)
    (hrun : run (step pw) System.initial es = some s) :
    Usable pw s := by
  have hinv : ∃ c, WorksAlone s c :=
    invariant_of_guarded (fun _ _ _ h hok hstep => worksAlone_step h hok hstep)
      ⟨.first, worksAlone_initial .first⟩ hguard hrun
  obtain ⟨c, h⟩ := hinv
  exact usable_of_worksAlone h

/-- One call makes the container, and the other finds it. -/
def oneAfterTheOther : List Event :=
  [.check .first, .dd .first true true, .check .second, .luksFormat .first true true,
    .cryptsetupOpen .first true, .mkfs .first true, .cryptsetupClose .first true]

/-- The passwords of two clients. -/
def twoPasswords : Client → CString
  | .first => ⟨ascii "one", by decide⟩
  | .second => ⟨ascii "two", by decide⟩

theorem one_after_the_other_usable :
    ∃ s, run (step twoPasswords) System.initial oneAfterTheOther = some s ∧
      (∃ c, s.phase c = .returned true) ∧ Usable twoPasswords s :=
  ⟨_, rfl, ⟨.first, rfl⟩,
    usable_of_guarded twoPasswords _ oneAfterTheOther (by decide +kernel) rfl⟩

/-- Both calls pass the existence check.  The second finds the mapping of the first open,
fails, and unlinks the files. -/
def failsInside : List Event :=
  [.check .first, .check .second, .dd .second true true, .dd .first true true,
    .luksFormat .second true true, .luksFormat .first true true,
    .cryptsetupOpen .first true, .cryptsetupOpen .second true, .unlinkVault .second,
    .unlinkHeader .second, .mkfs .first true, .cryptsetupClose .first true]

/-- Both calls have returned, the first with 0, and there is no file. -/
theorem failing_call_unlinks :
    ∃ s, run (step twoPasswords) System.initial failsInside = some s ∧ Finished s ∧
      s.phase .first = .returned true ∧ s.vault = none ∧ s.header = none ∧
      ¬ Usable twoPasswords s := by
  refine ⟨_, rfl, ?_, rfl, rfl, rfl, ?_⟩
  · intro c
    cases c with
    | first => exact ⟨true, rfl⟩
    | second => exact ⟨false, rfl⟩
  · intro h
    obtain ⟨hvault, -⟩ := h ⟨.first, rfl⟩
    cases hvault

end Runs

section Violation

variable {pw : Client → CString} {s : System}

theorem idle_of_quiet :
    ∀ {p : Phase}, Quiet p → Idle p
  | .start, _ => trivial
  | .returned _, _ => trivial

theorem finished_of_returned
    {c : Client} {ok ok' : Bool}
    (hself : s.phase c = .returned ok)
    (hother : s.phase c.other = .returned ok') :
    Finished s := by
  intro d
  rcases Client.eq_or_eq_other c d with rfl | rfl
  · exact ⟨ok, hself⟩
  · exact ⟨ok', hother⟩

/-- If one call has returned 0 and the other is not begun or has failed, both can have
returned without a change to what is there. -/
theorem finish_of_quiet
    {c : Client}
    (hreturned : s.phase c = .returned true)
    (hquiet : Quiet (s.phase c.other)) :
    ∃ es t, run (step pw) s es = some t ∧ Finished t ∧ (Usable pw t → Usable pw s) := by
  cases hother : s.phase c.other with
  | start =>
      have hself : (s.advance c.other (.returned false)).phase c = .returned true := by
        simp [hreturned]
      refine ⟨[.refuse c.other], s.advance c.other (.returned false), ?_, ?_, ?_⟩
      · simp [run, step, hother]
      · exact finished_of_returned hself (advance_phase_self ..)
      · rintro husable -
        obtain ⟨hvault, hheader, d, hd, hopens⟩ := husable ⟨c, hself⟩
        have hne : d ≠ c.other := by
          rintro rfl
          simp at hd
        obtain rfl := (Client.eq_or_eq_other c d).resolve_right hne
        exact ⟨hvault, hheader, d, hreturned, hopens⟩
  | returned ok =>
      exact ⟨[], s, rfl, finished_of_returned hreturned hother, id⟩
  | _ =>
      rw [hother] at hquiet
      exact hquiet.elim

/-- A run at whose end one call has returned 0, the other has failed, and a file is gone. -/
theorem broken_of_unlinked
    {c : Client}
    (es : List Event)
    (h : ∃ t, run (step pw) s es = some t ∧ t.phase c = .returned true ∧
      t.phase c.other = .returned false ∧ (t.vault = none ∨ t.header = none)) :
    ∃ es t, run (step pw) s es = some t ∧ Finished t ∧ ¬ Usable pw t := by
  obtain ⟨t, hrun, hself, hother, hgone⟩ := h
  refine ⟨es, t, hrun, finished_of_returned hself hother, ?_⟩
  intro husable
  obtain ⟨hvault, hheader, -⟩ := husable ⟨c, hself⟩
  rcases hgone with hgone | hgone
  · simp [hgone] at hvault
  · simp [hgone] at hheader

/-- Both clients are past the check: the first opens, the second fails to open and unlinks
what the first has made. -/
theorem broken_of_both_absent
    {c : Client}
    (hself : s.phase c = .absent)
    (hother : s.phase c.other = .absent)
    (hmapping : s.mapping = none) :
    ∃ es t, run (step pw) s es = some t ∧ Finished t ∧ ¬ Usable pw t := by
  refine broken_of_unlinked (c := c) [.dd c true true, .dd c.other true true,
    .luksFormat c.other true true, .luksFormat c true true, .cryptsetupOpen c true,
    .cryptsetupOpen c.other true, .unlinkVault c.other, .unlinkHeader c.other,
    .mkfs c true, .cryptsetupClose c true] ?_
  simp [run, step, hself, hother, hmapping, System.opensWith]

/-- The first client makes the container between the two unlinks of the second. -/
theorem broken_of_half_unlinked
    {c : Client}
    (hself : s.phase c = .absent)
    (hother : s.phase c.other = .halfUnlinked)
    (hmapping : s.mapping = none) :
    ∃ es t, run (step pw) s es = some t ∧ Finished t ∧ ¬ Usable pw t := by
  refine broken_of_unlinked (c := c) [.dd c true true, .luksFormat c true true,
    .cryptsetupOpen c true, .unlinkHeader c.other, .mkfs c true, .cryptsetupClose c true] ?_
  simp [run, step, hself, hother, hmapping, System.opensWith]

/-- A call that has returned 0 leaves a container that does not open. -/
theorem broken_of_returned
    {c : Client}
    (es : List Event)
    (h : ∃ t, run (step pw) s es = some t ∧ t.phase c = .returned true ∧
      Quiet (t.phase c.other) ∧ (t.vault = some none ∨ t.mapping ≠ none)) :
    ∃ es t, run (step pw) s es = some t ∧ Finished t ∧ ¬ Usable pw t := by
  obtain ⟨t, hrun, hself, hquiet, hbad⟩ := h
  obtain ⟨es', t', hrun', hfinished, husable⟩ := @finish_of_quiet pw t c hself hquiet
  refine ⟨es ++ es', t', ?_, hfinished, ?_⟩
  · rw [run_append, hrun]
    exact hrun'
  intro h
  obtain ⟨-, -, d, -, owner, hopens, hvault⟩ := husable h ⟨c, hself⟩
  rcases hbad with hbad | hbad
  · rw [hbad] at hvault
    cases hvault
  · unfold System.opensWith at hopens
    split at hopens
    · next hmapping => exact hbad hmapping
    · cases hopens

/-- The condition is exact: from a state in which one client works alone, a step against
the condition can be continued until both calls have returned, one of them 0, and the
container is not usable. -/
theorem violation_breaks
    {s' : System} {e : Event}
    (h : ∃ c, WorksAlone s c)
    (hviolation : ¬ StepOk s e)
    (hstep : step pw s e = some s') :
    ∃ es t, run (step pw) s' es = some t ∧ Finished t ∧ ¬ Usable pw t := by
  obtain ⟨c, h⟩ := h
  cases effect_of_step hstep with
  | present hphase hvault =>
      exact absurd (fun hnone => absurd hnone hvault) hviolation
  | @passed d hphase hvault =>
      have hnotIdle : ¬ Idle (s.phase d.other) := fun hidle => hviolation fun _ => hidle
      rcases Client.eq_or_eq_other c d with rfl | rfl
      · exact absurd (idle_of_quiet h.quiet) hnotIdle
      · rw [Client.other_other] at hnotIdle
        have hfacts : Facts s c (s.phase c) := h.facts
        cases hself : s.phase c with
        | absent =>
            rw [hself] at hfacts
            exact broken_of_both_absent (c := c) (by simp [hself]) (by simp) hfacts
        | halfUnlinked =>
            rw [hself] at hfacts
            exact broken_of_half_unlinked (c := c.other) (by simp) (by simp [hself]) hfacts.2
        | start => exact absurd (by rw [hself]; trivial) hnotIdle
        | returned ok => exact absurd (by rw [hself]; trivial) hnotIdle
        | _ =>
            rw [hself] at hfacts
            have hpresent := hfacts.1
            rw [hvault] at hpresent
            cases hpresent
  | @forkFailed d good hphase =>
      obtain ⟨rfl, hfacts⟩ := facts_of_busy h hphase id
      obtain rfl : good = true := Bool.eq_true_of_not_eq_false hviolation
      refine broken_of_returned (c := d) [.mkfs d true, .cryptsetupClose d true] ?_
      simp [run, step, hfacts.1, hfacts.2.2, h.quiet]
  | @made d owner ok hphase hmapping hvault =>
      obtain ⟨rfl, hfacts⟩ := facts_of_busy h hphase id
      obtain rfl : ok = false := Bool.eq_false_iff.mpr hviolation
      refine broken_of_returned (c := d) [.cryptsetupClose d true] ?_
      simp [run, step, hfacts.1, h.quiet]
  | notMade hphase hgone =>
      obtain ⟨rfl, hfacts⟩ := facts_of_busy h hphase id
      simp [hfacts.1, hfacts.2.2] at hgone
  | @closed d ok hphase =>
      obtain ⟨rfl, hfacts⟩ := facts_of_busy h hphase id
      obtain rfl : ok = false := Bool.eq_false_iff.mpr hviolation
      refine broken_of_returned (c := d) [] ?_
      simp [run, hfacts.2.2, h.quiet]
  | _ => exact absurd trivial hviolation

end Violation

end CreateRace
end SecureZ
