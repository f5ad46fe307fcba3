import SecureZ.Engine.KeyReuse

/-!
# What a store hides

`keystore_store` narrows the length of the name to 16 bits and that of the encrypted data to
32, without the limits that the readers enforce.  An entry that the readers cannot pass stops
them, and every key behind it is hidden from both.

The main result is about runs of stores: when each of them writes an entry that both readers
pass, no store hides any other key, and every key can be retrieved and is listed.
-/

namespace SecureZ
namespace KeyStorage

open CLib
open CryptoCore

section Specification

/-- The entry of the call is one that both readers pass: the name fits their buffers, the key
leaves the skip distance of the listing below `2 ^ 32`, and every byte reaches the file. -/
structure StoreCall.Passable (c : StoreCall) : Prop where
  name : c.request.name.strlen < keystoreNameMax
  size :
    crypticSaltLen + crypticNonceLen + (c.request.keyData.length + crypticMacLen) < 2 ^ 32
  complete : c.Complete

/-- The call writes its entry whole, under its own name, behind what was there. -/
def WritesWhole (fs : FileSystem) (c : StoreCall) : Prop :=
  c.request.name.strlen < keystoreNameMax ∧
    c.Complete ∧
    (c.outcome.fopenAppend = true ∨ (fs keystorePath).getD [] = [])

/-- The condition on a store: its entry can be passed, and the file that was there is appended
to, unless there was nothing in it. -/
def StoreOk (fs : FileSystem) (c : StoreCall) : Prop :=
  c.Passable ∧ (c.outcome.fopenAppend = true ∨ (fs keystorePath).getD [] = [])

/-- No store of the run hides a key. -/
structure NothingHidden (na : Sodium) (fs : FileSystem) (calls : List StoreCall) : Prop where
  /-- A store changes the answer for no other name. -/
  unchanged :
    ∀ pre c post fs₁ fs₂,
      calls = pre ++ c :: post →
      Transition.run (storeCall na) fs pre = some fs₁ →
      storeCall na fs₁ c = some fs₂ →
      ∀ o name masterPw,
        name ≠ c.request.name →
        keystoreRetrieve na o name masterPw fs₂ = keystoreRetrieve na o name masterPw fs₁
  /-- The key that was stored first under its name is retrieved, whatever was stored before
  and after it. -/
  retrieved :
    ∀ pre c post fs',
      calls = pre ++ c :: post →
      (∀ d ∈ pre, d.request.name ≠ c.request.name) →
      Transition.run (storeCall na) fs calls = some fs' →
      keystoreRetrieve na .ok c.request.name c.masterPw fs' = some c.request.keyData
  /-- The first keys are listed, in order. -/
  listed :
    ∀ fs',
      Transition.run (storeCall na) fs calls = some fs' →
      keystoreList fs' = (calls.take keystoreMaxKeys).map fun c => c.request.info

end Specification

section Retrieval

variable {na : Sodium} {o : RetrieveOutcome} {name masterPw : CString} {fs fs' : FileSystem}

/-- What `keystore_retrieve` makes of the entry that it found. -/
def unwrapEntry (na : Sodium) (o : RetrieveOutcome) (masterPw : CString) (e : Entry) :
    Option Bytes := do
  guard o.malloc
  guard o.secureAllocKey
  let wrapKey ← normalKey na masterPw e.salt
  guard (o.secureAllocData ∧ e.encLen ≠ 0)
  cryptoDecryptBuffer na (e.cipher.take e.encLen) e.nonce wrapKey

/-- The first entry with the name decides what is retrieved. -/
theorem keystoreRetrieve_first
    {pre post : List Entry} {e : Entry}
    (hlog : fs keystorePath = some (logBytes (pre ++ e :: post)))
    (hpre : ∀ p ∈ pre, p.name ≠ name ∧ p.Framed)
    (he : e.name = name) :
    keystoreRetrieve na o name masterPw fs =
      if keystoreMasterVerify na masterPw fs then unwrapEntry na o masterPw e else none := by
  have hread : fs.readFile keystorePath = some (logBytes (pre ++ e :: post)) :=
    FileSystem.readFile_eq_some_iff.mpr ⟨by decide, hlog⟩
  obtain ⟨f, hfind, hrest⟩ := findEntry_found post hpre he
  have hle : e.encLen ≤ e.cipher.length := Nat.mod_le _ _
  have hcut :
      f.rest = e.cipher.take e.encLen ++ (e.cipher.drop e.encLen ++ logBytes post) := by
    rw [hrest, ← List.append_assoc, List.take_append_drop]
  obtain ⟨f', hcipher, -⟩ :=
    Stream.freadExact_of_rest hcut (by rw [List.length_take, Nat.min_eq_left hle])
  generalize logBytes (pre ++ e :: post) = content at hread hfind
  cases hverify : keystoreMasterVerify na masterPw fs with
  | false =>
      simp [keystoreRetrieve, hverify]
  | true =>
      simp [keystoreRetrieve, unwrapEntry, hverify, hread, hfind, hcipher, Entry.head]

/-- A keystore whose entries are some is a file. -/
theorem keystore_eq_some
    {entries : List Entry}
    (hne : entries ≠ [])
    (hlog : (fs keystorePath).getD [] = logBytes entries) :
    fs keystorePath = some (logBytes entries) := by
  cases hfile : fs keystorePath with
  | none =>
      rw [hfile, Option.getD_none] at hlog
      have hlen := length_le_logBytes entries
      rw [← hlog] at hlen
      exact absurd (List.eq_nil_of_length_eq_zero (by simpa using hlen)) hne
  | some content =>
      rw [← hlog, hfile, Option.getD_some]

/-- An entry behind a log changes the answer for no name that was in the log, nor for one
that is not its own. -/
theorem keystoreRetrieve_append
    {entries : List Entry} {e : Entry}
    (hmaster : fs' keystoreMasterPath = fs keystoreMasterPath)
    (hlog : (fs keystorePath).getD [] = logBytes entries)
    (hlog' : fs' keystorePath = some (logBytes (entries ++ [e])))
    (hframed : ∀ p ∈ entries, p.Framed)
    (he : (∃ p ∈ entries, p.name = name) ∨ e.name ≠ name ∧ e.Framed) :
    keystoreRetrieve na o name masterPw fs' = keystoreRetrieve na o name masterPw fs := by
  cases hfind : entries.find? (fun p => p.name = name) with
  | none =>
      have hnames : ∀ p ∈ entries, p.name ≠ name := by simpa using hfind
      have hskip : ∀ p ∈ entries, p.name ≠ name ∧ p.Framed :=
        fun p hp => ⟨hnames p hp, hframed p hp⟩
      have hother : e.name ≠ name ∧ e.Framed := by
        rcases he with ⟨p, hp, hname⟩ | hother
        · exact absurd hname (hnames p hp)
        · exact hother
      have hskip' : ∀ p ∈ entries ++ [e], p.name ≠ name ∧ p.Framed := by
        intro p hp
        rcases List.mem_append.mp hp with hold | hnew
        · exact hskip p hold
        · rwa [List.mem_singleton.mp hnew]
      rw [keystoreRetrieve_absent hlog hskip, keystoreRetrieve_absent (by rw [hlog']; rfl) hskip']
  | some p =>
      -- the entry that both find has what is behind it, and reads none of that
      obtain ⟨hname, pre, post, rfl, hpre⟩ := List.find?_eq_some_iff_append.mp hfind
      have hpname : p.name = name := by simpa using hname
      have hskip : ∀ q ∈ pre, q.name ≠ name ∧ q.Framed := by
        intro q hq
        exact ⟨by simpa using hpre q hq, hframed q (by simp [hq])⟩
      have hfile := keystore_eq_some (by simp) hlog
      rw [List.append_assoc, List.cons_append] at hlog'
      rw [keystoreRetrieve_first hlog' hskip hpname, keystoreRetrieve_first hfile hskip hpname,
        keystoreMasterVerify_congr hmaster]

end Retrieval

section Runs

variable {na : Sodium} {fs fs' : FileSystem}

/-- The entry is the one that the call writes. -/
def WrittenBy (na : Sodium) (c : StoreCall) (e : Entry) : Prop :=
  SealedAs na c.masterPw c.request e

/-- What a store that writes its entry whole leaves. -/
theorem storeCall_whole
    {c : StoreCall}
    (hwhole : WritesWhole fs c)
    (h : storeCall na fs c = some fs') :
    keystoreMasterVerify na c.masterPw fs = true ∧
      ∃ e,
        WrittenBy na c e ∧
          fs' = fs.writeFile keystorePath ((fs keystorePath).getD [] ++ e.bytes) := by
  obtain ⟨hshort, hcomplete, happend⟩ := hwhole
  unfold storeCall at h
  split at h
  · rename_i fs₁ hstore
    obtain rfl := Option.some.inj h
    obtain ⟨hverify, e, hsealed, rfl⟩ := keystoreStore_eq_zero hshort hcomplete hstore
    refine ⟨hverify, e, hsealed, ?_⟩
    rcases happend with happend | hempty
    · rw [happend, if_pos rfl]
    · rw [hempty, ite_self]
  · cases h

/-- What a run of such stores leaves: the log grew by one entry for each call. -/
theorem run_whole
    {calls : List StoreCall}
    (entries : List Entry)
    (hlog : (fs keystorePath).getD [] = logBytes entries)
    (hguard : Transition.Guarded (storeCall na) WritesWhole fs calls)
    (hrun : Transition.run (storeCall na) fs calls = some fs') :
    fs' keystoreMasterPath = fs keystoreMasterPath ∧
      (∀ c ∈ calls, keystoreMasterVerify na c.masterPw fs = true) ∧
      ∃ added,
        List.Forall₂ (WrittenBy na) calls added ∧
          (fs' keystorePath).getD [] = logBytes (entries ++ added) := by
  induction calls generalizing fs entries with
  | nil =>
      obtain rfl := Option.some.inj hrun
      exact ⟨rfl, by simp, [], .nil, by rw [List.append_nil, hlog]⟩
  | cons c calls ih =>
      obtain ⟨fs₁, hstep, hrest⟩ := Transition.run_cons_eq_some.mp hrun
      obtain ⟨hwhole, hguard⟩ := hguard
      obtain ⟨hverify, e, hwritten, rfl⟩ := storeCall_whole hwhole hstep
      have hlog₁ :
          ((fs.writeFile keystorePath ((fs keystorePath).getD [] ++ e.bytes))
              keystorePath).getD [] = logBytes (entries ++ [e]) := by
        simp [hlog]
      obtain ⟨hmaster, hcalls, added, hadded, hfinal⟩ := ih _ hlog₁ (hguard _ hstep) hrest
      have hsame :
          (fs.writeFile keystorePath ((fs keystorePath).getD [] ++ e.bytes)) keystoreMasterPath =
            fs keystoreMasterPath :=
        FileSystem.writeFile_of_ne _ _ keystoreMasterPath_ne
      refine ⟨hmaster.trans hsame, ?_, e :: added, .cons hwritten hadded, by simpa using hfinal⟩
      rw [List.forall_mem_cons]
      refine ⟨hverify, fun d hd => ?_⟩
      rw [← keystoreMasterVerify_congr hsame]
      exact hcalls d hd

/-- Entries of calls whose keys fit and whose names are others are passed by a scan for the
name. -/
theorem skips_of_written
    {pre : List StoreCall} {entries : List Entry} {name : CString}
    (haead : AeadCorrect na)
    (hnames : ∀ c ∈ pre, c.request.name ≠ name)
    (hfits : ∀ c ∈ pre, KeyFits c.request)
    (hwritten : List.Forall₂ (WrittenBy na) pre entries) :
    ∀ p ∈ entries, p.name ≠ name ∧ p.Framed := by
  induction hwritten with
  | nil =>
      simp
  | cons hce _ ih =>
      rw [List.forall_mem_cons] at hnames hfits ⊢
      exact ⟨⟨hce.name ▸ hnames.1, (hce.framed_iff haead).mpr hfits.1⟩, ih hnames.2 hfits.2⟩

/-- After a run of such stores of keys that fit, a key whose name was in the log neither
before the run nor before its call is retrieved. -/
theorem retrieved_of_run
    {pre post : List StoreCall} {c : StoreCall} {entries : List Entry}
    (haead : AeadCorrect na)
    (hlog : (fs keystorePath).getD [] = logBytes entries)
    (hentries : ∀ e ∈ entries, e.name ≠ c.request.name ∧ e.Framed)
    (hguard : Transition.Guarded (storeCall na) WritesWhole fs (pre ++ c :: post))
    (hfits : ∀ d ∈ pre ++ c :: post, KeyFits d.request)
    (hnames : ∀ d ∈ pre, d.request.name ≠ c.request.name)
    (hrun : Transition.run (storeCall na) fs (pre ++ c :: post) = some fs') :
    keystoreRetrieve na .ok c.request.name c.masterPw fs' = some c.request.keyData := by
  obtain ⟨hmaster, hcalls, added, hwritten, hfinal⟩ := run_whole entries hlog hguard hrun
  obtain ⟨pre', e, post', rfl, hpre, hce⟩ := forall₂_split hwritten
  have hskip := skips_of_written haead hnames (fun d hd => hfits d (by simp [hd])) hpre
  have hverify := hcalls c (by simp)
  rw [← keystoreMasterVerify_congr hmaster] at hverify
  rw [← List.append_assoc] at hfinal
  refine keystoreRetrieve_sealed haead hverify (keystore_eq_some (by simp) hfinal) ?_ hce
    ((hce.framed_iff haead).mpr (hfits c (by simp)))
  intro p hp
  rcases List.mem_append.mp hp with hold | hnew
  · exact hentries p hold
  · exact hskip p hnew

end Runs

section Passing

variable {na : Sodium}

theorem StoreCall.Passable.keyFits
    {c : StoreCall}
    (h : c.Passable) :
    KeyFits c.request := by
  have hsize := h.size
  rw [KeyFits]
  omega

theorem StoreOk.writesWhole
    {fs : FileSystem} {c : StoreCall}
    (h : StoreOk fs c) :
    WritesWhole fs c :=
  ⟨h.1.name, h.1.complete, h.2⟩

/-- The entry of a call that can be passed. -/
theorem listable_of_passable
    {c : StoreCall} {e : Entry}
    (haead : AeadCorrect na)
    (hpassable : c.Passable)
    (hwritten : WrittenBy na c e) :
    e.Listable := by
  have hlen := hwritten.length_cipher haead
  have hsize := hpassable.size
  rw [Entry.Listable, hlen]
  exact hsize

/-- The entries of calls that can all be passed: `keystore_list` passes them, and describes
them as the calls. -/
theorem listable_of_written
    {calls : List StoreCall} {entries : List Entry}
    (haead : AeadCorrect na)
    (hpassable : ∀ c ∈ calls, c.Passable)
    (hwritten : List.Forall₂ (WrittenBy na) calls entries) :
    (∀ e ∈ entries, e.Listable) ∧
      entries.map Entry.info = calls.map fun c => c.request.info := by
  induction hwritten with
  | nil =>
      simp
  | cons hce _ ih =>
      rw [List.forall_mem_cons] at hpassable ⊢
      obtain ⟨hlist, hinfo⟩ := ih hpassable.2
      have he := listable_of_passable haead hpassable.1 hce
      refine ⟨⟨he, hlist⟩, ?_⟩
      rw [List.map_cons, List.map_cons,
        SealedAs.info_eq haead hce (Entry.framed_of_listable he), hinfo]

end Passing

/--
**Hidden keys.**

In a run of stores into an empty keystore, each of which writes an entry that both readers
pass behind what was there, no store hides another key.
-/
theorem store_hides_nothing
    (na : Sodium)
    (haead : AeadCorrect na)
    (fs : FileSystem)
    (hempty : (fs keystorePath).getD [] = [])
    (calls : List StoreCall)
    (hguard : Transition.Guarded (storeCall na) StoreOk fs calls) :
    NothingHidden na fs calls where
  unchanged := by
    rintro pre c post fs₁ fs₂ rfl hpre hstep o name masterPw hname
    obtain ⟨hguard₁, hguard₂⟩ := Transition.guarded_append_iff.mp hguard
    have hwhole := Transition.guarded_mono (fun _ _ h => h.writesWhole) hguard₁
    have hpassable := Transition.forall_mem_of_guarded (fun _ _ h => h.1) hguard₁ hpre
    obtain ⟨-, -, entries, hwritten, hlog⟩ := run_whole [] hempty hwhole hpre
    obtain ⟨hlist, -⟩ := listable_of_written haead hpassable hwritten
    obtain ⟨hok, -⟩ := hguard₂ fs₁ hpre
    obtain ⟨-, e, hce, rfl⟩ := storeCall_whole hok.writesWhole hstep
    have he := listable_of_passable haead hok.1 hce
    have hother : e.name ≠ name := by
      rw [hce.name]
      exact hname.symm
    rw [List.nil_append] at hlog
    exact keystoreRetrieve_append (FileSystem.writeFile_of_ne _ _ keystoreMasterPath_ne) hlog
      (by simp [hlog]) (fun p hp => Entry.framed_of_listable (hlist p hp))
      (.inr ⟨hother, Entry.framed_of_listable he⟩)
  retrieved := by
    rintro pre c post fs' rfl hnames hrun
    have hpassable := Transition.forall_mem_of_guarded (fun _ _ h => h.1) hguard hrun
    have hlog : (fs keystorePath).getD [] = logBytes [] := hempty
    exact retrieved_of_run haead hlog (by simp)
      (Transition.guarded_mono (fun _ _ h => h.writesWhole) hguard)
      (fun d hd => (hpassable d hd).keyFits) hnames hrun
  listed := by
    intro fs' hrun
    have hwhole := Transition.guarded_mono (fun _ _ h => h.writesWhole) hguard
    have hpassable := Transition.forall_mem_of_guarded (fun _ _ h => h.1) hguard hrun
    obtain ⟨-, -, entries, hwritten, hlog⟩ := run_whole [] hempty hwhole hrun
    obtain ⟨hlist, hinfo⟩ := listable_of_written haead hpassable hwritten
    rw [List.nil_append] at hlog
    rw [keystoreList_log hlog hlist, List.map_take, hinfo, List.map_take]

section Examples

/-- The condition holds of a call that stores a short key under a short name. -/
theorem storeOk_exampleCall
    (fs : FileSystem) (name key : UInt8) :
    StoreOk fs (exampleCall name key) := by
  have hcut : (cstr [name]).bytes.length ≤ 1 := cstr_length_le [name]
  have hsize : crypticSaltLen + crypticNonceLen + (1 + crypticMacLen) < 2 ^ 32 := by decide
  exact ⟨⟨Nat.lt_of_le_of_lt hcut (by decide), hsize, fun _ => rfl⟩, .inl rfl⟩

/-- Two keys are stored under two names. -/
theorem short_names_hide_nothing :
    NothingHidden mirror exampleMaster [exampleCall 1 1, exampleCall 2 2] := by
  refine store_hides_nothing mirror mirror_aeadIdeal.toAeadCorrect exampleMaster
    (by decide +kernel) _ ?_
  exact ⟨storeOk_exampleCall _ 1 1, fun fs₁ _ =>
    ⟨storeOk_exampleCall _ 2 2, fun _ _ => trivial⟩⟩

/-- A call that stores the key `[1]` under a name of 64 bytes. -/
def longNameCall : StoreCall :=
  { exampleCall 1 1 with
    request := { exampleStore 1 with name := cstr (List.replicate 64 97), keyData := [1] } }

/-- A store under a name of 64 bytes succeeds, and no key that is stored behind it can be
retrieved or is listed. -/
theorem long_name_hides :
    ∃ fs',
      Transition.run (storeCall mirror) exampleMaster [longNameCall, exampleCall 2 2] = some fs' ∧
        keystoreRetrieve mirror .ok (cstr [2]) examplePw fs' = none ∧
        keystoreList fs' = [] ∧
        ¬ NothingHidden mirror exampleMaster [longNameCall, exampleCall 2 2] := by
  have hget :
      keystoreRetrieve mirror .ok (cstr [2]) examplePw
        (keystoreStore mirror .ok (exampleCall 2 2).request examplePw
          (keystoreStore mirror .ok longNameCall.request examplePw exampleMaster).2).2 =
        none := by
    decide +kernel
  have hlist :
      keystoreList
        (keystoreStore mirror .ok (exampleCall 2 2).request examplePw
          (keystoreStore mirror .ok longNameCall.request examplePw exampleMaster).2).2 =
        [] := by
    decide +kernel
  refine ⟨_, rfl, hget, hlist, fun hhidden => ?_⟩
  have hsecond :=
    hhidden.retrieved [longNameCall] (exampleCall 2 2) [] _ rfl (by decide +kernel) rfl
  exact absurd (hget.symm.trans hsecond) (by decide)

end Examples

end KeyStorage
end SecureZ
