import SecureZ.Engine.MasterChange

/-!
# Storing a key under a name that is taken

`keystore_store` appends to the log and never looks for the name, and `keystore_retrieve`
returns the first entry that has it.  A store under a name that is taken is therefore
reported as a success, and the key that is read back is the one stored first.

The main result is about runs of stores: exactly when the key of every store of the run is
the one read back after it.
-/

namespace SecureZ
namespace KeyStorage

open CLib
open CryptoCore

section Specification

/-- A call of `keystore_store` with the outcomes of its steps. -/
structure StoreCall where
  outcome : StoreOutcome
  request : StoreRequest
  masterPw : CString

/-- A call of `keystore_store` that returns 0. -/
def storeCall (na : Sodium) (fs : FileSystem) (c : StoreCall) : Option FileSystem :=
  match keystoreStore na c.outcome c.request c.masterPw fs with
  | (0, fs') => some fs'
  | _ => none

/-- A hash string is accepted for one password at most. -/
def VerifiesOne (na : Sodium) : Prop :=
  ∀ h p q, na.pwhashStrVerify h p = true → na.pwhashStrVerify h q = true → p = q

/-- The name fits the buffers of the readers, and the length is a `size_t`. -/
def StoreCall.Valid (c : StoreCall) : Prop :=
  c.request.name.strlen < keystoreNameMax ∧ c.request.keyData.length < 2 ^ 64

instance (c : StoreCall) : Decidable c.Valid :=
  inferInstanceAs (Decidable (_ ∧ _))

/-- Every byte that is written reaches the file. -/
def StoreCall.Complete (c : StoreCall) : Prop :=
  ∀ bs, c.outcome.appended bs = bs

/-- After every store of the run, its key is the one that is retrieved. -/
def EachReadBack (na : Sodium) (fs : FileSystem) (calls : List StoreCall) : Prop :=
  ∀ pre c post,
    calls = pre ++ c :: post →
    ∀ fs',
      Transition.run (storeCall na) fs (pre ++ [c]) = some fs' →
      keystoreRetrieve na .ok c.request.name c.masterPw fs' = some c.request.keyData

/-- The requests in the log after another call: the log starts anew when it could not be
opened to append. -/
def logAfter (log : List StoreRequest) (c : StoreCall) : List StoreRequest :=
  (if c.outcome.fopenAppend then log else []) ++ [c.request]

/-- The requests in the log after some calls. -/
def loggedBy (calls : List StoreCall) : List StoreRequest :=
  calls.foldl logAfter []

/-- A request can join the log: its key fits, and where its name is taken the key is the
one that is there. -/
def Joins (log : List StoreRequest) (r : StoreRequest) : Prop :=
  KeyFits r ∧ ∀ q ∈ log, q.name = r.name → q.keyData = r.keyData

instance (log : List StoreRequest) (r : StoreRequest) : Decidable (Joins log r) :=
  inferInstanceAs (Decidable (_ ∧ _))

/-- Every call of the run finds a log that its request can join. -/
def EachJoins (calls : List StoreCall) : Prop :=
  ∀ pre c post,
    calls = pre ++ c :: post →
    Joins (if c.outcome.fopenAppend then loggedBy pre else []) c.request

end Specification

section Logs

/-- A log in which every key fits and a name has one key. -/
structure Consistent (log : List StoreRequest) : Prop where
  fits : ∀ q ∈ log, KeyFits q
  oneKey : ∀ p ∈ log, ∀ q ∈ log, p.name = q.name → p.keyData = q.keyData

theorem consistent_nil : Consistent [] :=
  ⟨by simp, by simp⟩

/-- A request that can join a consistent log keeps it consistent. -/
theorem consistent_append
    {log : List StoreRequest} {r : StoreRequest}
    (h : Consistent log)
    (hjoins : Joins log r) :
    Consistent (log ++ [r]) where
  fits := by
    intro q hq
    rcases List.mem_append.mp hq with hold | hnew
    · exact h.fits q hold
    · obtain rfl := List.mem_singleton.mp hnew
      exact hjoins.1
  oneKey := by
    intro p hp q hq hname
    rcases List.mem_append.mp hp with hp | hp <;> rcases List.mem_append.mp hq with hq | hq
    · exact h.oneKey p hp q hq hname
    · rw [List.mem_singleton.mp hq] at hname ⊢
      exact hjoins.2 p hp hname
    · rw [List.mem_singleton.mp hp] at hname ⊢
      exact (hjoins.2 q hq hname.symm).symm
    · rw [List.mem_singleton.mp hp, List.mem_singleton.mp hq]

theorem loggedBy_append
    (pre : List StoreCall) (c : StoreCall) :
    loggedBy (pre ++ [c]) =
      (if c.outcome.fopenAppend then loggedBy pre else []) ++ [c.request] := by
  rw [loggedBy, List.foldl_append]
  rfl

theorem eachJoins_nil : EachJoins [] := by
  intro pre c post h
  simp at h

/-- What holds of every call of a run holds of every call of its beginning. -/
theorem eachJoins_of_append
    {pre post : List StoreCall}
    (h : EachJoins (pre ++ post)) :
    EachJoins pre := by
  rintro a d b rfl
  exact h a d (b ++ post) (by simp)

/-- One more call that can join. -/
theorem eachJoins_append_singleton
    {pre : List StoreCall} {c : StoreCall}
    (hpre : EachJoins pre)
    (hjoins : Joins (if c.outcome.fopenAppend then loggedBy pre else []) c.request) :
    EachJoins (pre ++ [c]) := by
  intro a d b hsplit
  rcases List.eq_nil_or_concat' b with rfl | ⟨b', e, rfl⟩
  · obtain ⟨rfl, hd⟩ := List.append_inj' hsplit rfl
    obtain rfl := List.singleton_inj.mp hd
    exact hjoins
  · have hcut : a ++ d :: (b' ++ [e]) = (a ++ d :: b') ++ [e] := by simp
    rw [hcut] at hsplit
    exact hpre a d b' (List.append_inj' hsplit rfl).1

/-- A run whose calls each can join leaves a consistent log. -/
theorem consistent_loggedBy
    {calls : List StoreCall}
    (h : EachJoins calls) :
    Consistent (loggedBy calls) := by
  induction calls using List.reverseRecOn with
  | nil =>
      exact consistent_nil
  | append_singleton pre c ih =>
      rw [loggedBy_append]
      refine consistent_append ?_ (h pre c [] rfl)
      cases c.outcome.fopenAppend
      · exact consistent_nil
      · exact ih (eachJoins_of_append h)

/-- The log that a call appends to is consistent when every call before it could join. -/
theorem consistent_before
    {pre : List StoreCall}
    (h : EachJoins pre)
    (append : Bool) :
    Consistent (if append then loggedBy pre else []) := by
  cases append
  · exact consistent_nil
  · exact consistent_loggedBy h

end Logs

section Scan

variable {na : Sodium} {masterPw : CString} {fs : FileSystem}

/-- Under a new name, a key is read back exactly when it fits: the scan ends at its own
entry. -/
theorem readBack_new_iff
    {log : List StoreRequest} {r : StoreRequest} {entries : List Entry}
    (haead : AeadCorrect na)
    (htrunc : RejectsTruncation na)
    (hfit : ∀ q ∈ log, KeyFits q)
    (hnames : ∀ q ∈ log, q.name ≠ r.name)
    (hsize : r.keyData.length < 2 ^ 64)
    (hsealed : List.Forall₂ (SealedAs na masterPw) (log ++ [r]) entries)
    (hfile : fs keystorePath = some (logBytes entries))
    (hverify : keystoreMasterVerify na masterPw fs = true) :
    keystoreRetrieve na .ok r.name masterPw fs = some r.keyData ↔ KeyFits r := by
  constructor
  · intro hget
    by_contra hlong
    rw [keystoreRetrieve_too_long haead htrunc hsealed hfile hnames hfit hlong hsize
      hverify] at hget
    cases hget
  · intro hfits
    obtain ⟨pre', e, post', rfl, hpre, hre⟩ := sealed_split hsealed
    exact keystoreRetrieve_sealed haead hverify hfile
      (skips_of_names haead hnames hfit hpre) hre ((hre.framed_iff haead).mpr hfits)

/-- Under a name that is taken, the key of its first store is read back. -/
theorem keystoreRetrieve_taken
    {pre post : List StoreRequest} {q : StoreRequest} {entries : List Entry}
    (haead : AeadCorrect na)
    (hfit : ∀ p ∈ pre ++ q :: post, KeyFits p)
    (hnames : ∀ p ∈ pre, p.name ≠ q.name)
    {later : List StoreRequest}
    (hsealed : List.Forall₂ (SealedAs na masterPw) (pre ++ q :: post ++ later) entries)
    (hfile : fs keystorePath = some (logBytes entries))
    (hverify : keystoreMasterVerify na masterPw fs = true) :
    keystoreRetrieve na .ok q.name masterPw fs = some q.keyData := by
  rw [List.append_assoc, List.cons_append] at hsealed
  obtain ⟨pre', e, post', rfl, hpre, hqe⟩ := sealed_split hsealed
  exact keystoreRetrieve_sealed haead hverify hfile
    (skips_of_names haead hnames (fun p hp => hfit p (by simp [hp])) hpre) hqe
    ((hqe.framed_iff haead).mpr (hfit q (by simp)))

/-- Behind a consistent log, a key is read back exactly when it can join. -/
theorem readBack_iff
    {log : List StoreRequest} {r : StoreRequest} {entries : List Entry}
    (haead : AeadCorrect na)
    (htrunc : RejectsTruncation na)
    (hlog : Consistent log)
    (hsize : r.keyData.length < 2 ^ 64)
    (hsealed : List.Forall₂ (SealedAs na masterPw) (log ++ [r]) entries)
    (hfile : fs keystorePath = some (logBytes entries))
    (hverify : keystoreMasterVerify na masterPw fs = true) :
    keystoreRetrieve na .ok r.name masterPw fs = some r.keyData ↔ Joins log r := by
  cases hfind : log.find? (fun q => q.name = r.name) with
  | none =>
      have hnames : ∀ q ∈ log, q.name ≠ r.name := by
        intro q hq hname
        exact absurd hname (by simpa using List.find?_eq_none.mp hfind q hq)
      have hjoins : Joins log r ↔ KeyFits r :=
        and_iff_left fun q hq hname => absurd hname (hnames q hq)
      rw [hjoins]
      exact readBack_new_iff haead htrunc hlog.fits hnames hsize hsealed hfile hverify
  | some q =>
      -- the scan ends at the first entry with the name
      obtain ⟨hname, pre, post, rfl, hpre⟩ := List.find?_eq_some_iff_append.mp hfind
      have hqname : q.name = r.name := by simpa using hname
      have hnames : ∀ p ∈ pre, p.name ≠ q.name := by
        intro p hp
        rw [hqname]
        simpa using hpre p hp
      have hq : q ∈ pre ++ q :: post := by simp
      rw [← hqname, keystoreRetrieve_taken haead hlog.fits hnames hsealed hfile hverify,
        Option.some.injEq]
      constructor
      · intro hsame
        refine ⟨?_, fun p hp hpname => ?_⟩
        · have hfits := hlog.fits q hq
          rwa [KeyFits, hsame] at hfits
        · rw [← hsame]
          exact hlog.oneKey p hp q hq (hpname.trans hqname.symm)
      · exact fun hjoins => hjoins.2 q hq hqname

end Scan

section Runs

variable {na : Sodium} {masterPw : CString} {fs fs' : FileSystem}

theorem storeCall_eq_some
    {c : StoreCall}
    (hvalid : c.Valid)
    (hcomplete : c.Complete)
    (h : storeCall na fs c = some fs') :
    keystoreMasterVerify na c.masterPw fs = true ∧
      ∃ e,
        SealedAs na c.masterPw c.request e ∧
          fs' =
            fs.writeFile keystorePath
              ((if c.outcome.fopenAppend then (fs keystorePath).getD [] else []) ++ e.bytes) := by
  unfold storeCall at h
  split at h
  · rename_i fs₁ hstore
    obtain rfl := Option.some.inj h
    exact keystoreStore_eq_zero hvalid.1 hcomplete hstore
  · cases h

/-- The password that a master file verifies is the only one. -/
theorem keystoreMasterVerify_unique
    (hone : VerifiesOne na)
    {p q : CString}
    (hp : keystoreMasterVerify na p fs = true)
    (hq : keystoreMasterVerify na q fs = true) :
    p = q := by
  unfold keystoreMasterVerify at hp hq
  cases hread : fs.readFile keystoreMasterPath with
  | none =>
      simp [hread] at hp
  | some content =>
      cases hline : fgets pwhashStrbytes content with
      | none =>
          simp [hread, hline] at hp
      | some line =>
          simp only [hread, hline] at hp hq
          exact hone _ p q hp hq

/-- The file after a run holds the entries of the log, all sealed under the password that
the master file verifies. -/
theorem run_calls
    {calls : List StoreCall}
    (hone : VerifiesOne na)
    (hempty : (fs keystorePath).getD [] = [])
    (hvalid : ∀ c ∈ calls, c.Valid)
    (hcomplete : ∀ c ∈ calls, c.Complete)
    (hrun : Transition.run (storeCall na) fs calls = some fs') :
    fs' keystoreMasterPath = fs keystoreMasterPath ∧
      ∃ entries,
        (fs' keystorePath).getD [] = logBytes entries ∧
          (keystoreMasterVerify na masterPw fs = true →
            List.Forall₂ (SealedAs na masterPw) (loggedBy calls) entries) := by
  induction calls using List.reverseRecOn generalizing fs' with
  | nil =>
      obtain rfl := Option.some.inj hrun
      exact ⟨rfl, [], hempty, fun _ => .nil⟩
  | append_singleton pre c ih =>
      rw [Transition.run_append] at hrun
      obtain ⟨fs₁, hpre, hlast⟩ := Option.bind_eq_some_iff.mp hrun
      obtain ⟨fs₂, hstep, hend⟩ := Transition.run_cons_eq_some.mp hlast
      obtain rfl := Option.some.inj hend
      obtain ⟨hmaster, entries, hlog, hsealed⟩ :=
        ih (fun d hd => hvalid d (by simp [hd])) (fun d hd => hcomplete d (by simp [hd])) hpre
      obtain ⟨hverify₁, e, hsealede, rfl⟩ :=
        storeCall_eq_some (hvalid c (by simp)) (hcomplete c (by simp)) hstep
      refine ⟨(FileSystem.writeFile_of_ne _ _ keystoreMasterPath_ne).trans hmaster, ?_⟩
      have hsame : keystoreMasterVerify na masterPw fs = true → c.masterPw = masterPw := by
        intro hverify
        rw [← keystoreMasterVerify_congr hmaster] at hverify
        exact keystoreMasterVerify_unique hone hverify₁ hverify
      rw [loggedBy_append, FileSystem.writeFile_self, Option.getD_some]
      cases c.outcome.fopenAppend with
      | false =>
          refine ⟨[e], by simp, fun hverify => ?_⟩
          exact .cons (hsame hverify ▸ hsealede) .nil
      | true =>
          refine ⟨entries ++ [e], by simp [hlog], fun hverify => ?_⟩
          exact List.rel_append (hsealed hverify) (.cons (hsame hverify ▸ hsealede) .nil)

/-- What the last call of a run leaves. -/
theorem run_last
    {pre : List StoreCall} {c : StoreCall}
    (hone : VerifiesOne na)
    (hempty : (fs keystorePath).getD [] = [])
    (hvalid : ∀ d ∈ pre ++ [c], d.Valid)
    (hcomplete : ∀ d ∈ pre ++ [c], d.Complete)
    (hrun : Transition.run (storeCall na) fs (pre ++ [c]) = some fs') :
    keystoreMasterVerify na c.masterPw fs' = true ∧
      ∃ entries,
        List.Forall₂ (SealedAs na c.masterPw)
            ((if c.outcome.fopenAppend then loggedBy pre else []) ++ [c.request]) entries ∧
          fs' keystorePath = some (logBytes entries) := by
  obtain ⟨hmaster, entries, hlog, hsealed⟩ :=
    @run_calls na c.masterPw fs fs' (pre ++ [c]) hone hempty hvalid hcomplete hrun
  rw [Transition.run_append] at hrun
  obtain ⟨fs₁, hpre, hlast⟩ := Option.bind_eq_some_iff.mp hrun
  obtain ⟨fs₂, hstep, hend⟩ := Transition.run_cons_eq_some.mp hlast
  obtain rfl := Option.some.inj hend
  obtain ⟨hverify₁, e, -, rfl⟩ :=
    storeCall_eq_some (hvalid c (by simp)) (hcomplete c (by simp)) hstep
  have hverify :
      keystoreMasterVerify na c.masterPw
        (fs₁.writeFile keystorePath
          ((if c.outcome.fopenAppend then (fs₁ keystorePath).getD [] else []) ++ e.bytes)) =
        true := by
    rwa [keystoreMasterVerify_congr (FileSystem.writeFile_of_ne _ _ keystoreMasterPath_ne)]
  refine ⟨hverify, entries, ?_, ?_⟩
  · rw [← loggedBy_append]
    exact hsealed ((keystoreMasterVerify_congr hmaster).symm.trans hverify)
  · rw [← hlog, FileSystem.writeFile_self, Option.getD_some]

/-- The key of the last call of a run, behind calls that could all join, is read back exactly
when it can join too. -/
theorem readBack_last_iff
    {pre : List StoreCall} {c : StoreCall}
    (haead : AeadCorrect na)
    (htrunc : RejectsTruncation na)
    (hone : VerifiesOne na)
    (hempty : (fs keystorePath).getD [] = [])
    (hvalid : ∀ d ∈ pre ++ [c], d.Valid)
    (hcomplete : ∀ d ∈ pre ++ [c], d.Complete)
    (hpre : EachJoins pre)
    (hrun : Transition.run (storeCall na) fs (pre ++ [c]) = some fs') :
    keystoreRetrieve na .ok c.request.name c.masterPw fs' = some c.request.keyData
      ↔
    Joins (if c.outcome.fopenAppend then loggedBy pre else []) c.request := by
  obtain ⟨hverify, entries, hsealed, hfile⟩ := run_last hone hempty hvalid hcomplete hrun
  exact readBack_iff haead htrunc (consistent_before hpre _) (hvalid c (by simp)).2 hsealed
    hfile hverify

end Runs

/--
**Reused names.**

In a run of successful stores into an empty keystore, whose writes are complete, the key of
every store is the one read back after it if and only if every key fits its length field and
every store under a name that is taken stores the key that is there.
-/
theorem each_read_back_iff
    (na : Sodium)
    (haead : AeadCorrect na)
    (htrunc : RejectsTruncation na)
    (hone : VerifiesOne na)
    (fs fs' : FileSystem)
    (hempty : (fs keystorePath).getD [] = [])
    (calls : List StoreCall)
    (hvalid : ∀ c ∈ calls, c.Valid)
    (hcomplete : ∀ c ∈ calls, c.Complete)
    (hrun : Transition.run (storeCall na) fs calls = some fs') :
    EachReadBack na fs calls ↔ EachJoins calls := by
  constructor
  · intro hback
    -- by induction on the calls: the last one is behind a run in which each could join
    induction calls using List.reverseRecOn generalizing fs' with
    | nil =>
        exact eachJoins_nil
    | append_singleton pre c ih =>
        have hpre : EachJoins pre := by
          rw [Transition.run_append] at hrun
          obtain ⟨fs₁, hrun₁, -⟩ := Option.bind_eq_some_iff.mp hrun
          refine ih fs₁ (fun d hd => hvalid d (by simp [hd]))
            (fun d hd => hcomplete d (by simp [hd])) hrun₁ ?_
          rintro a d b rfl
          exact hback a d (b ++ [c]) (by simp)
        exact eachJoins_append_singleton hpre
          ((readBack_last_iff haead htrunc hone hempty hvalid hcomplete hpre hrun).mp
            (hback pre c [] rfl fs' hrun))
  · rintro hjoins pre c post rfl fs₁ hrun₁
    have hsub : ∀ d ∈ pre ++ [c], d ∈ pre ++ c :: post := by
      intro d hd
      rcases List.mem_append.mp hd with hold | hlast
      · exact List.mem_append_left _ hold
      · obtain rfl := List.mem_singleton.mp hlast
        simp
    exact (readBack_last_iff haead htrunc hone hempty (fun d hd => hvalid d (hsub d hd))
      (fun d hd => hcomplete d (hsub d hd)) (eachJoins_of_append hjoins) hrun₁).mpr
      (hjoins pre c post rfl)

section Examples

/-- A call that stores the one-byte key `key` under the one-byte name `name`. -/
def exampleCall (name key : UInt8) : StoreCall where
  outcome := .ok
  request := { exampleStore name with keyData := [key] }
  masterPw := examplePw

theorem mirror_verifiesOne : VerifiesOne mirror := by
  intro h p q hp hq
  have hp' : h = p := by simpa [mirror] using hp
  have hq' : h = q := by simpa [mirror] using hq
  exact hp'.symm.trans hq'

/-- A key is stored twice under its name and another one under another name. -/
theorem same_key_read_back :
    ∃ fs',
      Transition.run (storeCall mirror) exampleMaster
          ([exampleCall 1 1] ++ [exampleCall 1 1] ++ [exampleCall 2 2]) = some fs' ∧
        EachReadBack mirror exampleMaster
          ([exampleCall 1 1] ++ [exampleCall 1 1] ++ [exampleCall 2 2]) := by
  have hone := eachJoins_append_singleton (c := exampleCall 1 1) eachJoins_nil (by decide +kernel)
  have htwo := eachJoins_append_singleton (c := exampleCall 1 1) hone (by decide +kernel)
  have hthree := eachJoins_append_singleton (c := exampleCall 2 2) htwo (by decide +kernel)
  have hvalid :
      ∀ c ∈ [exampleCall 1 1] ++ [exampleCall 1 1] ++ [exampleCall 2 2], c.Valid := by
    decide +kernel
  have hcomplete :
      ∀ c ∈ [exampleCall 1 1] ++ [exampleCall 1 1] ++ [exampleCall 2 2], c.Complete := by
    simp [StoreCall.Complete, exampleCall, StoreOutcome.ok]
  exact ⟨_, rfl,
    (each_read_back_iff mirror mirror_aeadIdeal.toAeadCorrect mirror_rejectsTruncation
      mirror_verifiesOne exampleMaster _ (by decide +kernel) _ hvalid hcomplete rfl).mpr hthree⟩

/-- A second store under the same name is reported as a success, and the first key is read
back. -/
theorem rotated_key_not_read_back :
    ∃ fs',
      Transition.run (storeCall mirror) exampleMaster [exampleCall 1 1, exampleCall 1 2] =
          some fs' ∧
        keystoreRetrieve mirror .ok (cstr [1]) examplePw fs' = some [1] ∧
        ¬ EachReadBack mirror exampleMaster [exampleCall 1 1, exampleCall 1 2] := by
  have hget :
      keystoreRetrieve mirror .ok (cstr [1]) examplePw
        (keystoreStore mirror .ok (exampleCall 1 2).request examplePw
          (keystoreStore mirror .ok (exampleCall 1 1).request examplePw exampleMaster).2).2 =
        some [1] := by
    decide +kernel
  refine ⟨_, rfl, hget, fun hback => ?_⟩
  have hsecond := hback [exampleCall 1 1] (exampleCall 1 2) [] rfl _ rfl
  exact absurd (hget.symm.trans hsecond) (by decide)

end Examples

end KeyStorage
end SecureZ
