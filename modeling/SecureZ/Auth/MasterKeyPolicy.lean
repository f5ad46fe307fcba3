import SecureZ.Auth.PamSecurez
import SecureZ.Lib.TextLines
import SecureZ.Lib.Transition

/-!
# The policy of the master key

Five writers in three programs produce the file of the master key, and each of them checks
the length of the password for itself.  The policy is that whenever the file exists it is
the hash of a password of at least 16 bytes, and that a file written at the terminal is the
hash of the two lines that were typed at its prompts.  A line ends with its newline; what a
prompt reads of it is another matter, since its buffer takes 255 bytes at a time.

The system is the file with a record of who wrote it.  Its runs are the calls of the five
writers in any order, with any input.
-/

namespace SecureZ
namespace MasterKey

open CLib
open CryptoCore
open KeyStorage
open PamSecurez

section System

/-- Who wrote the file: `do_setup(0)`, with the two lines that were typed for it, or one of the
others. -/
inductive Writer
  | prompted (first second : Bytes)
  | other
deriving DecidableEq

/-- The files, and who wrote the file of the master key last. -/
structure Machine where
  fs : FileSystem
  writer : Writer

/-- A machine without a master key. -/
def Machine.initial : Machine := ⟨fun _ => none, .other⟩

/-- A call of one of the programs, with its input, the salt it draws and its outcomes. -/
inductive Operation
  /-- `keystore_master_setup`. -/
  | setup (w : FlushOutcome) (hashSalt : Salt) (password : CString)
  /-- `keystore_master_change`. -/
  | change (w : FlushOutcome) (hashSalt : Salt) (oldPassword newPassword : CString)
  /-- `do_setup` with a pipe. -/
  | setupPiped (w : FlushOutcome) (hashSalt : Salt) (input : Bytes)
  /-- `do_setup` at the terminal. -/
  | setupPrompted (w : FlushOutcome) (hashSalt : Salt) (input : Bytes)
  /-- `--change` of the utility. -/
  | changePrompted (w : FlushOutcome) (hashSalt : Salt) (junk : CString) (input : Bytes)
  /-- `pam_sm_chauthtok`. -/
  | chauthtok (w : FlushOutcome) (hashSalt : Salt) (req : ChangeRequest)

/-- The record after a call that leaves `fs`, having written the file or not. -/
def Machine.after (m : Machine) (wrote : Bool) (writer : Writer) (fs : FileSystem) : Machine :=
  ⟨fs, if wrote then writer else m.writer⟩

/-- The record that `do_setup(0)` leaves. -/
def promptedWriter (input : Bytes) : Writer :=
  .prompted (typedLine input) (typedLine (behindLine input))

/-- A call. -/
def perform (na : Sodium) (m : Machine) : Operation → Machine
  | .setup w hashSalt password =>
      let r := keystoreMasterSetup na w.toWrite hashSalt password m.fs
      m.after (r.1 = 0) .other r.2
  | .change w hashSalt oldPassword newPassword =>
      let r := keystoreMasterChange na w.toWrite hashSalt oldPassword newPassword m.fs
      m.after (r.1 = 0) .other r.2
  | .setupPiped w hashSalt input =>
      let r := doSetupPiped na w.toWrite hashSalt input m.fs
      m.after (r.1 = 0) .other r.2
  | .setupPrompted w hashSalt input =>
      let r := doSetupPrompted na w.toWrite hashSalt (.start input) m.fs
      m.after (r.1 = 0) (promptedWriter input) r.2
  | .changePrompted w hashSalt junk input =>
      let r := changeMasterKey na w.toWrite hashSalt junk (.start input) m.fs
      -- the first line is the old password
      m.after (r.1 = 0) (promptedWriter (behindLine input)) r.2
  | .chauthtok w hashSalt req =>
      let r := pamSmChauthtok na w.toWrite hashSalt req m.fs
      m.after (r.1 = .success ∧ req.prelimCheck = false) .other r.2

/-- Every call is possible in every state. -/
def step (na : Sodium) (m : Machine) (op : Operation) : Option Machine :=
  some (perform na m op)

end System

section Policy

variable (na : Sodium)

/-- The file of the master key is the hash of `password`. -/
def IsHashOf (fs : FileSystem) (password : CString) : Prop :=
  ∃ hashSalt hash,
    na.pwhashStr password hashSalt = some hash ∧
      fs masterHashPath = some (hash.bytes ++ [10])

/-- The policy. -/
def Policy (m : Machine) : Prop :=
  m.fs masterHashPath ≠ none →
    ∃ password,
      IsHashOf na m.fs password ∧
        16 ≤ password.strlen ∧
        ∀ first second,
          m.writer = .prompted first second →
          first = password.bytes ∧ second = password.bytes

/-- At the terminal `do_setup` has too little to read: fewer than 16 bytes in front of the first
newline or NUL, or nothing behind what the first prompt takes. -/
def Refused (input : Bytes) : Prop :=
  (cstr (typedLine input)).strlen < 16 ∨ (behindLine input = [] ∧ input.length ≤ 255)

instance (input : Bytes) : Decidable (Refused input) :=
  inferInstanceAs (Decidable (_ ∨ _))

/-- The same line is typed twice, without a NUL and of at most 254 bytes. -/
def TypedTwice (input : Bytes) : Prop :=
  typedLine (behindLine input) = typedLine input ∧
    (typedLine input).length ≤ 254 ∧
    (0 : UInt8) ∉ typedLine input

instance (input : Bytes) : Decidable (TypedTwice input) :=
  inferInstanceAs (Decidable (_ ∧ _))

/-- The outcomes of the write of a call. -/
def Operation.outcome : Operation → FlushOutcome
  | .setup w _ _ => w
  | .change w _ _ _ => w
  | .setupPiped w _ _ => w
  | .setupPrompted w _ _ => w
  | .changePrompted w _ _ _ => w
  | .chauthtok w _ _ => w

/-- What is written reaches the disk. -/
def Operation.Complete (op : Operation) : Prop :=
  op.outcome.lost = 0

instance (op : Operation) : Decidable op.Complete :=
  inferInstanceAs (Decidable (_ = _))

/-- At the terminal the new password is typed twice, if there is one.  For `--change` it comes
behind a line with the old password; of a line that is too long for the buffer the rest is what
`do_setup` reads. -/
def Operation.Confirmed : Operation → Prop
  | .setupPrompted _ _ input => Refused input ∨ TypedTwice input
  | .changePrompted _ _ _ input =>
      if (typedLine input).length ≤ 254 then
        Refused (behindLine input) ∨ TypedTwice (behindLine input)
      else Refused (input.drop 255)
  | _ => True

instance : (op : Operation) → Decidable op.Confirmed
  | .setupPrompted _ _ input => inferInstanceAs (Decidable (Refused input ∨ TypedTwice input))
  | .changePrompted _ _ _ input =>
      inferInstanceAs (Decidable (if (typedLine input).length ≤ 254 then
        Refused (behindLine input) ∨ TypedTwice (behindLine input) else Refused (input.drop 255)))
  | .setup .. | .change .. | .setupPiped .. | .chauthtok .. => isTrue trivial

end Policy

section Effects

variable {na : Sodium}

/-- What a call does to the file of the master key and its record. -/
inductive Effect (na : Sodium) (m m' : Machine) : Prop
  | unchanged (hfs : m'.fs = m.fs) (hwriter : m'.writer = m.writer)
  | removed (hfs : m'.fs masterHashPath = none)
  | written (password : CString)
      (hash : IsHashOf na m'.fs password)
      (hlong : 16 ≤ password.strlen)
      (hwriter : m'.writer = .other ∨ m'.writer = .prompted password.bytes password.bytes)

/-- A complete write of a hash. -/
theorem isHashOf_writeFile
    {w : FlushOutcome} {hashSalt : Salt} {password hash : CString}
    (hcomplete : w.lost = 0)
    (hstr : na.pwhashStr password hashSalt = some hash)
    (fs : FileSystem) :
    IsHashOf na (fs.writeFile masterHashPath (w.toWrite.disk (hash.bytes ++ [10]))) password := by
  refine ⟨hashSalt, hash, hstr, ?_⟩
  rw [FileSystem.writeFile_self, FlushOutcome.disk_eq_iff.mpr (Or.inl hcomplete)]

/-- A call that fails leaves the files that it found, where the hash may be removed. -/
theorem effect_failed
    {m : Machine} {fs : FileSystem}
    (writer : Writer)
    (hfs : fs = m.fs ∨ fs = m.fs.unlink masterHashPath) :
    Effect na m (m.after false writer fs) := by
  rcases hfs with rfl | rfl
  · exact .unchanged rfl rfl
  · exact .removed (by simp [Machine.after, FileSystem.unlink])

/-- A setup of the keystore, from the files that it finds. -/
theorem effect_setup
    {m : Machine} {w : FlushOutcome} {hashSalt : Salt} {password : CString} {fs : FileSystem}
    (hcomplete : w.lost = 0)
    (hfs : fs = m.fs ∨ fs = m.fs.unlink masterHashPath) :
    Effect na m
      (m.after ((keystoreMasterSetup na w.toWrite hashSalt password fs).1 = 0) .other
        (keystoreMasterSetup na w.toWrite hashSalt password fs).2) := by
  rcases keystoreMasterSetup_cases na w.toWrite hashSalt password fs with
    hfailed | ⟨hash, hlong, hstr, hdone⟩
  · rw [hfailed]
    exact effect_failed _ hfs
  · rw [hdone]
    exact .written password (isHashOf_writeFile hcomplete hstr fs) hlong (Or.inl rfl)

/-- The end of `do_setup`, from the files that it finds. -/
theorem effect_writeHash
    {m : Machine} {w : FlushOutcome} {hashSalt : Salt} {password : CString} {fs : FileSystem}
    {writer : Writer}
    (hcomplete : w.lost = 0)
    (hlong : 16 ≤ password.strlen)
    (hwriter : writer = .other ∨ writer = .prompted password.bytes password.bytes)
    (hfs : fs = m.fs ∨ fs = m.fs.unlink masterHashPath) :
    Effect na m
      (m.after ((writeHash na w.toWrite hashSalt password fs).1 = 0) writer
        (writeHash na w.toWrite hashSalt password fs).2) := by
  rcases writeHash_cases na w.toWrite hashSalt password fs with
    hfailed | ⟨hash, hstr, hdone⟩
  · rw [hfailed]
    exact effect_failed _ hfs
  · rw [hdone]
    exact .written password (isHashOf_writeFile hcomplete hstr fs) hlong hwriter

/-- What the two prompts read: the second one reads on where the first one stopped. -/
theorem promptTexts_typed
    {input : Bytes}
    (hne : input ≠ []) :
    promptTexts input =
      ((fgetsText 256 (if (typedLine input).length ≤ 254 then behindLine input
          else input.drop 255)).map Prod.fst).map
        fun second => (cstr ((typedLine input).take 255), second) := by
  unfold promptTexts
  by_cases hfits : (typedLine input).length ≤ 254
  · rw [if_pos hfits, fgetsText_typed_fits hne (by omega), List.take_of_length_le (by omega)]
    simp only [Option.bind_eq_bind, Option.bind_some]
    cases fgetsText 256 (behindLine input) <;> rfl
  · rw [if_neg hfits, fgetsText_typed_long (by omega) (by omega)]
    simp only [Option.bind_eq_bind, Option.bind_some]
    cases fgetsText 256 (input.drop (256 - 1)) <;> rfl

/-- The length check sees the line in front of its first NUL. -/
theorem strlen_first_lt_iff
    (line : Bytes) :
    (cstr (line.take 255)).strlen < 16 ↔ (cstr line).strlen < 16 := by
  rw [strlen_cstr_take]
  omega

/-- Nothing is written when there is too little to read. -/
theorem doSetupPrompted_refused
    {w : WriteOutcome} {hashSalt : Salt} {c : Console} {fs : FileSystem}
    (h : Refused c.input) :
    doSetupPrompted na w hashSalt c fs = (1, fs) := by
  rw [doSetupPrompted_eq]
  by_cases hne : c.input = []
  · rw [hne]
    rfl
  rw [promptTexts_typed hne]
  rcases h with hshort | ⟨hbehind, hlen⟩
  · cases fgetsText 256 (if (typedLine c.input).length ≤ 254 then behindLine c.input
        else c.input.drop 255) with
    | none => rfl
    | some r => simp [strlen_first_lt_iff, hshort]
  · have hrest :
        (if (typedLine c.input).length ≤ 254 then behindLine c.input else c.input.drop 255) =
          [] := by
      split_ifs
      · exact hbehind
      · exact List.drop_eq_nil_of_le hlen
    rw [hrest]
    rfl

/-- A line that is typed twice is read twice. -/
theorem promptTexts_typedTwice
    {input : Bytes}
    (h : TypedTwice input)
    (hnot : ¬ Refused input) :
    promptTexts input = some (cstr (typedLine input), cstr (typedLine input)) ∧
      (cstr (typedLine input)).bytes = typedLine input ∧
      16 ≤ (cstr (typedLine input)).strlen := by
  obtain ⟨hsame, hfits, hnul⟩ := h
  have hline : (cstr (typedLine input)).bytes = typedLine input := cstr_bytes_of_nulFree hnul
  have hlong : 16 ≤ (cstr (typedLine input)).strlen :=
    Nat.le_of_not_lt fun hshort => hnot (Or.inl hshort)
  have hne : typedLine input ≠ [] := by
    intro hnil
    rw [hnil] at hlong
    exact absurd hlong (by decide)
  have hinput : input ≠ [] := by
    rintro rfl
    exact hne rfl
  have hbehind : behindLine input ≠ [] := by
    intro hnil
    rw [hnil] at hsame
    exact hne hsame.symm
  refine ⟨?_, hline, hlong⟩
  rw [promptTexts_typed hinput, if_pos hfits, fgetsText_typed, if_neg hbehind, hsame,
    List.take_of_length_le (by omega), Option.map_some]

/-- Two lines of which the first is long enough are read as two texts, the second one from where
the first prompt stopped. -/
theorem promptTexts_of_not_refused
    {input : Bytes}
    (h : ¬ Refused input) :
    ∃ first second,
      promptTexts input = some (first, second) ∧
        16 ≤ first.strlen ∧
        (¬ (typedLine input).length ≤ 254 →
          second.strlen ≤ (typedLine input).length - 255) := by
  rw [Refused, not_or] at h
  obtain ⟨hlong, hmore⟩ := h
  have hne : input ≠ [] := by
    rintro rfl
    exact hlong (by decide)
  have hrest :
      (if (typedLine input).length ≤ 254 then behindLine input else input.drop 255) ≠ [] := by
    split_ifs with hfits
    · intro hnil
      obtain ⟨-, ⟨hall, -⟩ | hsplit⟩ := typedLine_split input
      · exact hmore ⟨hnil, by rw [hall]; omega⟩
      · refine hmore ⟨hnil, ?_⟩
        rw [hsplit, hnil, List.length_append, List.length_singleton]
        omega
    · intro hnil
      have hlen := List.drop_eq_nil_iff.mp hnil
      obtain ⟨-, ⟨-, hbehind⟩ | hsplit⟩ := typedLine_split input
      · exact hmore ⟨hbehind, hlen⟩
      · rw [hsplit, List.length_append, List.length_cons] at hlen
        omega
  refine ⟨cstr ((typedLine input).take 255),
    cstr ((typedLine (if (typedLine input).length ≤ 254 then behindLine input
      else input.drop 255)).take 255), ?_, ?_, fun hcut => ?_⟩
  · rw [promptTexts_typed hne, fgetsText_typed, if_neg hrest, Option.map_some]
  · exact Nat.le_of_not_lt fun hshort => hlong ((strlen_first_lt_iff _).mp hshort)
  · have hdrop := @typedLine_drop 255 input (by omega)
    have hle : (cstr ((typedLine input).drop 255)).strlen ≤ ((typedLine input).drop 255).length :=
      (List.takeWhile_prefix _).length_le
    rw [if_neg hcut, strlen_cstr_take, hdrop]
    rw [List.length_drop] at hle
    omega

/-- `do_setup` at the terminal, from the files that it finds. -/
theorem effect_prompted
    {m : Machine} {w : FlushOutcome} {hashSalt : Salt} {c : Console} {fs : FileSystem}
    {writer : Writer}
    (hcomplete : w.lost = 0)
    (htwice : Refused c.input ∨ (TypedTwice c.input ∧ writer = promptedWriter c.input))
    (hfs : fs = m.fs ∨ fs = m.fs.unlink masterHashPath) :
    Effect na m
      (m.after ((doSetupPrompted na w.toWrite hashSalt c fs).1 = 0) writer
        (doSetupPrompted na w.toWrite hashSalt c fs).2) := by
  by_cases hrefused : Refused c.input
  · rw [doSetupPrompted_refused hrefused]
    exact effect_failed _ hfs
  · obtain ⟨htyped, rfl⟩ := htwice.resolve_left hrefused
    obtain ⟨htexts, hline, hlong⟩ := promptTexts_typedTwice htyped hrefused
    have hwriter :
        promptedWriter c.input =
          .prompted (cstr (typedLine c.input)).bytes (cstr (typedLine c.input)).bytes := by
      rw [promptedWriter, htyped.1, hline]
    rw [doSetupPrompted_eq, htexts]
    simp only [Nat.not_lt_of_le hlong, if_false]
    exact effect_writeHash hcomplete hlong (Or.inr hwriter) hfs

/-- A removal that may fail. -/
theorem unlinked_or_not
    (b : Bool) (fs : FileSystem) :
    (if b then fs.unlink masterHashPath else fs) = fs ∨
      (if b then fs.unlink masterHashPath else fs) = fs.unlink masterHashPath := by
  cases b
  · exact Or.inl rfl
  · exact Or.inr rfl

theorem effect_change
    {m : Machine} {w : FlushOutcome} {hashSalt : Salt} {oldPassword newPassword : CString}
    (hcomplete : w.lost = 0) :
    Effect na m (perform na m (.change w hashSalt oldPassword newPassword)) := by
  simp only [perform, keystoreMasterChange]
  split_ifs with hverify hshort hunlink
  · exact .unchanged rfl rfl
  · exact .unchanged rfl rfl
  · exact effect_setup hcomplete (Or.inr rfl)
  · exact effect_setup hcomplete (Or.inl rfl)

theorem effect_setupPiped
    {m : Machine} {w : FlushOutcome} {hashSalt : Salt} {input : Bytes}
    (hcomplete : w.lost = 0) :
    Effect na m (perform na m (.setupPiped w hashSalt input)) := by
  cases hread : readPasswordStdin input with
  | none =>
      simp only [perform, doSetupPiped, hread]
      exact .unchanged rfl rfl
  | some password =>
      by_cases hshort : password.strlen < 16
      · simp only [perform, doSetupPiped, hread, hshort, if_true]
        exact .unchanged rfl rfl
      · simp only [perform, doSetupPiped, hread, hshort, if_false]
        exact effect_writeHash hcomplete (Nat.le_of_not_lt hshort) (Or.inl rfl) (Or.inl rfl)

/-- The prompt for the old password leaves what is typed behind its line, or the rest of a line
that is too long. -/
theorem promptPassword_input
    (input : Bytes) :
    (promptPassword (.start input)).2.input =
      if (typedLine input).length ≤ 254 then behindLine input else input.drop 255 := by
  unfold promptPassword Console.start
  by_cases hne : input = []
  · subst hne
    rfl
  by_cases hfits : (typedLine input).length ≤ 254
  · simp only [hfits, if_true, fgetsText_typed_fits hne (Nat.add_lt_add_right
      (Nat.lt_succ_of_le hfits) 1)]
  · have hlong : 256 ≤ (typedLine input).length + 1 := by omega
    simp only [hfits, if_false, fgetsText_typed_long (by omega) hlong]

theorem effect_changePrompted
    {m : Machine} {w : FlushOutcome} {hashSalt : Salt} {junk : CString} {input : Bytes}
    (hcomplete : w.lost = 0)
    (hconfirmed :
      if (typedLine input).length ≤ 254 then
        Refused (behindLine input) ∨ TypedTwice (behindLine input)
      else Refused (input.drop 255)) :
    Effect na m (perform na m (.changePrompted w hashSalt junk input)) := by
  have htwice :
      Refused (promptPassword (.start input)).2.input ∨
        (TypedTwice (promptPassword (.start input)).2.input ∧
          promptedWriter (behindLine input) =
            promptedWriter (promptPassword (.start input)).2.input) := by
    rw [promptPassword_input]
    by_cases hfits : (typedLine input).length ≤ 254
    · rw [if_pos hfits] at hconfirmed ⊢
      exact hconfirmed.imp_right fun h => ⟨h, rfl⟩
    · rw [if_neg hfits] at hconfirmed ⊢
      exact Or.inl hconfirmed
  simp only [perform, changeMasterKey]
  split
  · exact .unchanged rfl rfl
  split
  · exact .unchanged rfl rfl
  split
  · exact .unchanged rfl rfl
  · exact effect_prompted hcomplete htwice (unlinked_or_not _ _)

theorem effect_chauthtok
    {m : Machine} {w : FlushOutcome} {hashSalt : Salt} {req : ChangeRequest}
    (hcomplete : w.lost = 0) :
    Effect na m (perform na m (.chauthtok w hashSalt req)) := by
  simp only [perform]
  rcases pamSmChauthtok_cases na w.toWrite hashSalt req m.fs with
    ⟨result, hresult, hfailed | hprelim⟩ | ⟨newPw, hash, -, hprelim, hlong, hstr, hresult⟩
  · rw [hresult]
    exact .unchanged rfl (by simp [Machine.after, hfailed])
  · rw [hresult]
    exact .unchanged rfl (by simp [Machine.after, hprelim])
  · rw [hresult]
    exact .written newPw (isHashOf_writeFile hcomplete hstr m.fs) hlong
      (Or.inl (by simp [Machine.after, hprelim]))

/-- What a call whose write is complete and confirmed does to the file. -/
theorem effect_perform
    {m : Machine} {op : Operation}
    (hcomplete : op.Complete)
    (hconfirmed : op.Confirmed) :
    Effect na m (perform na m op) := by
  cases op with
  | setup w hashSalt password =>
      exact effect_setup hcomplete (Or.inl rfl)
  | change w hashSalt oldPassword newPassword =>
      exact effect_change hcomplete
  | setupPiped w hashSalt input =>
      exact effect_setupPiped hcomplete
  | setupPrompted w hashSalt input =>
      exact effect_prompted hcomplete (hconfirmed.imp_right fun h => ⟨h, rfl⟩) (Or.inl rfl)
  | changePrompted w hashSalt junk input =>
      exact effect_changePrompted hcomplete hconfirmed
  | chauthtok w hashSalt req =>
      exact effect_chauthtok hcomplete

end Effects

section Runs

variable {na : Sodium}

/-- Where there is no master key, the policy holds. -/
theorem policy_of_absent
    {m : Machine}
    (h : m.fs masterHashPath = none) :
    Policy na m :=
  fun hthere => absurd h hthere

/-- A step keeps the policy. -/
theorem policy_of_effect
    {m m' : Machine}
    (h : Policy na m)
    (heffect : Effect na m m') :
    Policy na m' := by
  cases heffect with
  | unchanged hfs hwriter =>
      intro hthere
      rw [hfs] at hthere
      obtain ⟨password, ⟨hashSalt, hash, hstr, hfile⟩, hlong, htyped⟩ := h hthere
      refine ⟨password, ⟨hashSalt, hash, hstr, by rw [hfs, hfile]⟩, hlong, ?_⟩
      rwa [hwriter]
  | removed hfs =>
      exact fun hthere => absurd hfs hthere
  | written password hash hlong hwriter =>
      intro _
      refine ⟨password, hash, hlong, fun first second hprompted => ?_⟩
      rcases hwriter with hother | htyped
      · rw [hother] at hprompted
        cases hprompted
      · rw [htyped] at hprompted
        cases hprompted
        exact ⟨rfl, rfl⟩

/--
**The policy of the master key.**

In every run of the five writers from a machine without a master key, whose writes reach
the disk and in which a new password at the terminal is typed as the same line of at most 254
bytes twice, the policy holds in every state.
-/
theorem master_key_policy
    {ops : List Operation} {start m : Machine}
    (hstart : start.fs masterHashPath = none)
    (hcomplete : ∀ op ∈ ops, op.Complete)
    (hconfirmed : ∀ op ∈ ops, op.Confirmed)
    (hrun : Transition.run (step na) start ops = some m) :
    Policy na m := by
  have hguard :
      Transition.Guarded (step na) (fun _ op => op.Complete ∧ op.Confirmed) start ops :=
    Transition.guarded_of_forall_mem (fun op hop => ⟨hcomplete op hop, hconfirmed op hop⟩) _
  refine Transition.invariant_of_guarded ?_ (policy_of_absent hstart) hguard hrun
  intro s op s' hpolicy hop hstep
  obtain rfl := Option.some.inj hstep
  exact policy_of_effect hpolicy (effect_perform hop.1 hop.2)

/-- A setup at the terminal that could write keeps the policy exactly when the password is typed
twice, or too little is typed. -/
theorem policy_setupPrompted_iff
    {m : Machine} {w : FlushOutcome} {hashSalt : Salt} {input : Bytes}
    (habsent : m.fs masterHashPath = none)
    (hcomplete : w.lost = 0)
    (hopen : w.fopen = true)
    (hmemory :
      ∀ first second,
        promptTexts input = some (first, second) → na.pwhashStr second hashSalt ≠ none)
    (hcollision :
      ∀ p q salt salt' hash,
        na.pwhashStr p salt = some hash → na.pwhashStr q salt' = some hash → p = q) :
    Policy na (perform na m (.setupPrompted w hashSalt input))
      ↔
    Refused input ∨ TypedTwice input := by
  constructor
  · intro hpolicy
    by_contra hnot
    obtain ⟨hrefused, hdiffers⟩ := not_or.mp hnot
    obtain ⟨first, second, htexts, hlong, hcut⟩ := promptTexts_of_not_refused hrefused
    obtain ⟨hash, hstr⟩ := Option.ne_none_iff_exists'.mp (hmemory first second htexts)
    have hsetup :
        doSetupPrompted na w.toWrite hashSalt (.start input) m.fs =
          (0, m.fs.writeFile masterHashPath (hash.bytes ++ [10])) := by
      rw [doSetupPrompted_eq]
      simp [Console.start, htexts, Nat.not_lt_of_le hlong, writeHash, habsent, hstr,
        FlushOutcome.toWrite, hopen, hcomplete]
    obtain ⟨password, ⟨hashSalt', hash', hstr', hfile⟩, -, htyped⟩ :=
      hpolicy (by simp [perform, hsetup, Machine.after])
    have hwriter :
        (perform na m (.setupPrompted w hashSalt input)).writer = promptedWriter input := by
      simp [perform, hsetup, Machine.after]
    obtain ⟨hfirst, hsecond⟩ := htyped _ _ hwriter
    -- the file is the hash of what the second prompt read, and so of no other password
    have hsame : hash.bytes = hash'.bytes := by
      simpa [perform, hsetup, Machine.after] using hfile
    obtain rfl : password = second :=
      hcollision _ _ _ _ hash' hstr' (by rw [hstr, CString.ext hsame])
    refine hdiffers ⟨hsecond.trans hfirst.symm, ?_, ?_⟩
    · by_contra hmany
      have hshort := hcut hmany
      rw [CString.strlen, ← hfirst] at hshort
      omega
    · rw [hfirst]
      exact password.nulFree
  · intro hconfirmed
    exact policy_of_effect (policy_of_absent habsent)
      (@effect_perform na m (.setupPrompted w hashSalt input) hcomplete hconfirmed)

end Runs

section Examples

/-- Two lines at the terminal. -/
def twoLines (first second : String) : Bytes :=
  ascii first ++ 10 :: (ascii second ++ [10])

/-- The key is set at the terminal and then changed there, with the passwords typed twice. -/
def setAndChange : List Operation :=
  [.setupPrompted .complete (Block.zero 16) (twoLines "0123456789abcdef" "0123456789abcdef"),
    .changePrompted .complete (Block.zero 16) (cstr [])
      (ascii "0123456789abcdef" ++ 10 :: twoLines "fedcba9876543210" "fedcba9876543210")]

theorem set_and_change_policy :
    ∃ m,
      Transition.run (step mirror) Machine.initial setAndChange = some m ∧
        m.fs masterHashPath = some (ascii "fedcba9876543210" ++ [10]) ∧
        Policy mirror m := by
  have hcomplete : ∀ op ∈ setAndChange, op.Complete := by decide +kernel
  have hconfirmed : ∀ op ∈ setAndChange, op.Confirmed := by decide +kernel
  exact ⟨_, rfl, by decide +kernel, master_key_policy rfl hcomplete hconfirmed rfl⟩

/-- A short second line is not noticed, and its hash is written. -/
theorem short_confirmation_breaks_policy :
    ¬ Policy mirror
      (perform mirror Machine.initial
        (.setupPrompted .complete (Block.zero 16) (twoLines "0123456789abcdef" "short"))) := by
  have hnot :
      ¬ (Refused (twoLines "0123456789abcdef" "short") ∨
        TypedTwice (twoLines "0123456789abcdef" "short")) := by
    decide +kernel
  have htexts :
      promptTexts (twoLines "0123456789abcdef" "short") =
        some (cstr (ascii "0123456789abcdef"), cstr (ascii "short")) := by
    decide +kernel
  refine mt (policy_setupPrompted_iff rfl rfl rfl ?_ ?_).mp hnot
  · intro first second h
    obtain ⟨-, rfl⟩ := Prod.mk.inj (Option.some.inj (htexts.symm.trans h))
    decide +kernel
  · intro p q salt salt' hash hp hq
    simp only [mirror, Option.ite_none_right_eq_some, Option.some.injEq] at hp hq
    exact hp.2.trans hq.2.symm

end Examples

end MasterKey
end SecureZ
