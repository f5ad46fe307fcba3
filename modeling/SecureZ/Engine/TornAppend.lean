import SecureZ.Engine.StoreHides
import Mathlib.Data.Fintype.BigOperators

/-!
# A torn append

`keystore_store` writes its entry in eight pieces and looks at no result.  What reaches the
file is then any string, and the call returns 0 all the same.

The main result says exactly when a store leaves a sound keystore sound, for keys whose length
field can hold their length: the call fails before it writes, or the whole entry reaches the
file, behind what was there and under a name that cannot hide a later one.
-/

namespace SecureZ
namespace KeyStorage

open CLib
open CryptoCore

section Specification

/-- A keystore file that is a log of entries whose length fields are true. -/
structure WellFormed (fs : FileSystem) (entries : List Entry) : Prop where
  log : (fs keystorePath).getD [] = logBytes entries
  framed : ∀ e ∈ entries, e.Framed
  /-- The size of a file is an `off_t`. -/
  size : (logBytes entries).length < 2 ^ 63

/-- A later store writes its entry whole, and its key fits the length field. -/
def LaterOk (fs : FileSystem) (c : StoreCall) : Prop :=
  WritesWhole fs c ∧ KeyFits c.request

/-- What the call leaves is a sound keystore again. -/
structure Harmless
    (na : Sodium) (o : StoreOutcome) (r : StoreRequest) (masterPw : CString)
    (fs : FileSystem) (entries : List Entry) : Prop where
  /-- The call returns 0 and the whole entry is on disk, or it returns -1. -/
  whole :
    (∃ entry,
      wrappedEntry na o r masterPw = some entry ∧
        keystoreStore na o r masterPw fs =
          (0, fs.writeFile keystorePath
            ((if o.fopenAppend then (fs keystorePath).getD [] else []) ++ entry)))
      ∨
    (keystoreStore na o r masterPw fs).1 = -1
  /-- Every key that could be retrieved before still can. -/
  earlier :
    ∀ name key,
      keystoreRetrieve na .ok name masterPw fs = some key →
      keystoreRetrieve na .ok name masterPw (keystoreStore na o r masterPw fs).2 = some key
  /-- Every key that is stored afterwards under a new name can be retrieved. -/
  later :
    ∀ pre c post fs',
      Transition.Guarded (storeCall na) LaterOk (keystoreStore na o r masterPw fs).2
        (pre ++ c :: post) →
      Transition.run (storeCall na) (keystoreStore na o r masterPw fs).2 (pre ++ c :: post) =
        some fs' →
      (∀ e ∈ entries, e.name ≠ c.request.name) →
      r.name ≠ c.request.name →
      (∀ d ∈ pre, d.request.name ≠ c.request.name) →
      keystoreRetrieve na .ok c.request.name c.masterPw fs' = some c.request.keyData

/-- The call comes to write the entry. -/
def Writes
    (na : Sodium) (o : StoreOutcome) (r : StoreRequest) (masterPw : CString)
    (fs : FileSystem) (entry : Bytes) : Prop :=
  r.keyData ≠ [] ∧
    keystoreMasterVerify na masterPw fs = true ∧
    wrappedEntry na o r masterPw = some entry ∧
    (o.fopenAppend = true ∨ o.fopenCreate = true)

/-- The name in the entry: its length is cut to 16 bits. -/
def StoreRequest.writtenName (r : StoreRequest) : CString :=
  r.name.take (r.name.strlen % 2 ^ 16)

/-- The condition on a call that comes to write: the whole entry reaches the file, its name
passes the readers and is its own or one that was taken, its key fits, and unless the file is
appended to, nothing is lost with it. -/
structure AppendOk
    (na : Sodium) (o : StoreOutcome) (r : StoreRequest) (masterPw : CString)
    (fs : FileSystem) (entries : List Entry) (entry : Bytes) : Prop where
  complete : o.appended entry = entry
  short : r.writtenName.strlen < keystoreNameMax
  name : r.writtenName = r.name ∨ ∃ e ∈ entries, e.name = r.writtenName
  fits : KeyFits r
  kept :
    o.fopenAppend = true ∨
      ∀ name key,
        keystoreRetrieve na .ok name masterPw fs = some key →
        name = r.writtenName ∧ key = r.keyData

end Specification

section Stores

variable {na : Sodium} {o : StoreOutcome} {r : StoreRequest} {masterPw : CString}
  {fs : FileSystem} {entry : Bytes}

/-- What a call that comes to write leaves. -/
theorem keystoreStore_of_writes
    (h : Writes na o r masterPw fs entry) :
    keystoreStore na o r masterPw fs =
      (0, fs.writeFile keystorePath
        ((if o.fopenAppend then (fs keystorePath).getD [] else []) ++ o.appended entry)) := by
  obtain ⟨hdata, hverify, hentry, hopen⟩ := h
  cases happend : o.fopenAppend with
  | true =>
      simp [keystoreStore, hdata, hverify, hentry, happend]
  | false =>
      have hcreate : o.fopenCreate = true := by simpa [happend] using hopen
      simp [keystoreStore, hdata, hverify, hentry, happend, hcreate]

theorem storeCall_of_writes
    {c : StoreCall}
    (h : Writes na c.outcome c.request c.masterPw fs entry) :
    ∃ fs', storeCall na fs c = some fs' := by
  rw [storeCall, keystoreStore_of_writes h]
  exact ⟨_, rfl⟩

/-- A call that does not come to write returns -1 and changes nothing. -/
theorem keystoreStore_of_not_writes
    (h : ¬ ∃ entry, Writes na o r masterPw fs entry) :
    keystoreStore na o r masterPw fs = (-1, fs) := by
  unfold keystoreStore
  by_cases hdata : r.keyData = []
  · rw [if_pos hdata]
  rw [if_neg hdata]
  cases hverify : keystoreMasterVerify na masterPw fs with
  | false =>
      rfl
  | true =>
  cases hentry : wrappedEntry na o r masterPw with
  | none =>
      rfl
  | some entry =>
      have hclosed : ¬ (o.fopenAppend = true ∨ o.fopenCreate = true) :=
        fun hopen => h ⟨entry, hdata, hverify, hentry, hopen⟩
      rw [not_or] at hclosed
      simp [hclosed.1, hclosed.2]

/-- The entry as it is written, when its name passes the readers. -/
theorem wrappedEntry_written
    (hshort : r.writtenName.strlen < keystoreNameMax)
    (h : wrappedEntry na o r masterPw = some entry) :
    ∃ e, SealedAs na masterPw { r with name := r.writtenName } e ∧ entry = e.bytes := by
  have hlen : r.writtenName.strlen = r.name.strlen % 2 ^ 16 := by
    have hle : r.name.strlen % 2 ^ 16 ≤ r.name.bytes.length := Nat.mod_le _ _
    simp only [StoreRequest.writtenName, CString.take, CString.strlen, List.length_take] at hle ⊢
    omega
  have hsame :
      ∀ encrypted,
        entryBytes r encrypted = entryBytes { r with name := r.writtenName } encrypted := by
    intro encrypted
    have hcut : r.writtenName.strlen % 2 ^ 16 = r.writtenName.strlen := by
      simp only [keystoreNameMax] at hshort
      exact Nat.mod_eq_of_lt (by omega)
    have htake :
        r.writtenName.bytes.take r.writtenName.strlen =
          r.name.bytes.take r.writtenName.strlen := by
      rw [hlen, StoreRequest.writtenName, CString.take, List.take_take, Nat.min_self]
    simp only [entryBytes, hcut, htake, ← hlen]
  refine wrappedEntry_eq_some (o := o) (r := { r with name := r.writtenName }) hshort ?_
  rw [← h]
  simp only [wrappedEntry, hsame]

end Stores

section FreshNames

/-- A string of ones and twos. -/
def bitString {n : Nat} (bits : Fin n → Bool) : CString where
  bytes := List.ofFn fun i => if bits i then 2 else 1
  nulFree := by
    intro h
    obtain ⟨i, hi⟩ := (List.mem_ofFn' _ _).mp h
    cases hbit : bits i <;> simp [hbit] at hi

theorem bitString_injective
    (n : Nat) :
    Function.Injective (@bitString n) := by
  intro a b h
  have hbytes := congrArg CString.bytes h
  rw [bitString, bitString, List.ofFn_inj] at hbytes
  funext i
  have hi := congrFun hbytes i
  cases ha : a i <;> cases hb : b i <;> simp [ha, hb] at hi ⊢

/-- Fewer than `2 ^ n` names leave a string of length `n` that is none of them. -/
theorem exists_fresh_name
    {n : Nat} {names : List CString}
    (h : names.length < 2 ^ n) :
    ∃ name : CString, name.strlen = n ∧ name ∉ names := by
  have hcard : names.toFinset.card < (Finset.univ.image (@bitString n)).card := by
    rw [Finset.card_image_of_injective _ (bitString_injective n), Finset.card_univ,
      Fintype.card_pi_const, Fintype.card_bool]
    exact Nat.lt_of_le_of_lt (List.toFinset_card_le names) h
  obtain ⟨name, hname, hnew⟩ := Finset.exists_mem_notMem_of_card_lt_card hcard
  obtain ⟨bits, -, rfl⟩ := Finset.mem_image.mp hname
  exact ⟨bitString bits, by simp [bitString, CString.strlen], by simpa using hnew⟩

end FreshNames

section Effects

variable {na : Sodium} {o : StoreOutcome} {r : StoreRequest} {masterPw : CString}
  {fs : FileSystem} {entries : List Entry} {entry : Bytes}

/-- The entries in front of the one that is written. -/
def keptEntries (o : StoreOutcome) (entries : List Entry) : List Entry :=
  if o.fopenAppend then entries else []

theorem mem_of_mem_keptEntries
    {e : Entry}
    (h : e ∈ keptEntries o entries) :
    e ∈ entries := by
  unfold keptEntries at h
  split_ifs at h
  · exact h
  · simp at h

/-- What a call that comes to write a whole entry leaves. -/
theorem store_leaves
    (hsound : WellFormed fs entries)
    (hwrites : Writes na o r masterPw fs entry)
    (hcomplete : o.appended entry = entry) :
    (keystoreStore na o r masterPw fs).2 =
      fs.writeFile keystorePath (logBytes (keptEntries o entries) ++ entry) := by
  rw [keystoreStore_of_writes hwrites, hcomplete, hsound.log]
  unfold keptEntries
  split_ifs <;> rfl

/-- It is a log again when its name passes the readers. -/
theorem store_leaves_log
    (hsound : WellFormed fs entries)
    (hwrites : Writes na o r masterPw fs entry)
    (hcomplete : o.appended entry = entry)
    (hshort : r.writtenName.strlen < keystoreNameMax) :
    ∃ e,
      SealedAs na masterPw { r with name := r.writtenName } e ∧
        (keystoreStore na o r masterPw fs).2 =
          fs.writeFile keystorePath (logBytes (keptEntries o entries ++ [e])) := by
  obtain ⟨e, hsealed, rfl⟩ := wrappedEntry_written hshort hwrites.2.2.1
  refine ⟨e, hsealed, ?_⟩
  rw [store_leaves hsound hwrites hcomplete]
  simp

/-- The master file is as before. -/
theorem store_master
    (hwrites : Writes na o r masterPw fs entry) :
    (keystoreStore na o r masterPw fs).2 keystoreMasterPath = fs keystoreMasterPath := by
  rw [keystoreStore_of_writes hwrites]
  exact FileSystem.writeFile_of_ne fs
    ((if o.fopenAppend then (fs keystorePath).getD [] else []) ++ o.appended entry)
    keystoreMasterPath_ne

/-- After a call that came to write, a key can be stored under any short name: with the salt of
the call. -/
theorem exists_later_store
    {name : CString} {key : Bytes} {fs₁ : FileSystem}
    (hwrites : Writes na o r masterPw fs entry)
    (hmaster : fs₁ keystoreMasterPath = fs keystoreMasterPath)
    (hname : name.strlen < keystoreNameMax)
    (hkey : key.length = 1) :
    ∃ c fs₂,
      c.request.name = name ∧
        c.request.keyData = key ∧
        c.masterPw = masterPw ∧
        LaterOk fs₁ c ∧
        storeCall na fs₁ c = some fs₂ := by
  obtain ⟨-, hverify, hentry, -⟩ := hwrites
  simp only [wrappedEntry, Option.bind_eq_bind, Option.bind_eq_some_iff, Option.guard_eq_some',
    Option.pure_def, Option.some.injEq] at hentry
  obtain ⟨-, -, wrapKey, hwrap, -, -, -⟩ := hentry
  rw [← keystoreMasterVerify_congr hmaster] at hverify
  have hne : key ≠ [] := by
    rintro rfl
    simp at hkey
  have hlater : Writes na .ok { r with name, keyData := key } masterPw fs₁
      (entryBytes { r with name, keyData := key }
        (cryptoEncryptBuffer na key r.nonce wrapKey)) :=
    ⟨hne, hverify, by simp [wrappedEntry, StoreOutcome.ok, hwrap], .inl rfl⟩
  have hfits : KeyFits { r with name, keyData := key } := by
    rw [KeyFits, hkey]
    decide
  obtain ⟨fs₂, hstep⟩ :=
    storeCall_of_writes (c := ⟨.ok, { r with name, keyData := key }, masterPw⟩) hlater
  exact ⟨_, fs₂, rfl, rfl, rfl, ⟨⟨hname, fun _ => rfl, .inl rfl⟩, hfits⟩, hstep⟩

/-- The key of the call is found under the name in its entry. -/
theorem retrieved_written
    {pre post : List Entry} {e : Entry} {fs' : FileSystem}
    (haead : AeadCorrect na)
    (hwrites : Writes na o r masterPw fs entry)
    (hmaster : fs' keystoreMasterPath = fs keystoreMasterPath)
    (hlog : fs' keystorePath = some (logBytes (pre ++ e :: post)))
    (hpre : ∀ p ∈ pre, p.name ≠ r.writtenName ∧ p.Framed)
    (hsealed : SealedAs na masterPw { r with name := r.writtenName } e)
    (hfits : KeyFits r) :
    keystoreRetrieve na .ok r.writtenName masterPw fs' = some r.keyData := by
  have hverify := hwrites.2.1
  rw [← keystoreMasterVerify_congr hmaster] at hverify
  have hframed : e.Framed := (hsealed.framed_iff haead).mpr hfits
  exact keystoreRetrieve_sealed (r := { r with name := r.writtenName }) haead hverify hlog hpre
    hsealed hframed

/-- It is found when the entry is the only one. -/
theorem retrieved_alone
    {e : Entry} {fs' : FileSystem}
    (haead : AeadCorrect na)
    (hwrites : Writes na o r masterPw fs entry)
    (hmaster : fs' keystoreMasterPath = fs keystoreMasterPath)
    (hlog : fs' keystorePath = some (logBytes [e]))
    (hsealed : SealedAs na masterPw { r with name := r.writtenName } e)
    (hfits : KeyFits r) :
    keystoreRetrieve na .ok r.writtenName masterPw fs' = some r.keyData := by
  have hsplit : fs' keystorePath = some (logBytes ([] ++ e :: [])) := hlog
  exact retrieved_written haead hwrites hmaster hsplit (by simp) hsealed hfits

end Effects

section Blocked

variable {na : Sodium} {name masterPw : CString} {fs : FileSystem} {pre : List Entry}

/-- The reader stands in front of the entries, behind which are other bytes. -/
def AtTail (tail : Bytes) (entries : List Entry) (f : Stream) : Prop :=
  f.eof = false ∧ f.rest = logBytes entries ++ tail

theorem retrieveTurn_pass_tail
    {tail : Bytes} {e : Entry} {entries : List Entry} {f : Stream}
    (he : e.name ≠ name ∧ e.Framed)
    (hat : AtTail tail (e :: entries) f) :
    ∃ f', retrieveTurn name f = .next f' ∧ AtTail tail entries f' := by
  refine retrieveTurn_pass he hat.1 ?_
  rw [hat.2, logBytes_cons, List.append_assoc]

/-- No entry is found behind a name length that the readers reject. -/
theorem findEntry_blocked
    {nameLen : Nat} {tail : Bytes}
    (hpre : ∀ p ∈ pre, p.name ≠ name ∧ p.Framed)
    (hlong : keystoreNameMax ≤ nameLen)
    (hlen : nameLen < 2 ^ 16) :
    findEntry name (logBytes pre ++ (leBytes 2 nameLen ++ tail)) = none := by
  have hopen :
      AtTail (leBytes 2 nameLen ++ tail) (pre ++ [])
        (Stream.fopen (logBytes pre ++ (leBytes 2 nameLen ++ tail))) :=
    ⟨rfl, by rw [Stream.rest_fopen, List.append_nil]⟩
  obtain ⟨f, ⟨heof, hrest⟩, hrun⟩ :=
    iterate_pass (fun _ _ _ => retrieveTurn_pass_tail) hpre hopen
  obtain ⟨g, hread, -, -⟩ :=
    Stream.freadExact_of_rest (hrest.trans (List.nil_append _)) (length_leBytes 2 nameLen)
  have hreject : ¬ leNat (leBytes 2 nameLen) < keystoreNameMax := by
    rw [leNat_leBytes_of_lt (hlen.trans_eq rfl)]
    omega
  have hhead : retrieveHead f = none := by
    simp [retrieveHead, hread, hreject, guard]
  have hturn : retrieveTurn name f = .done none := by
    simp [retrieveTurn, heof, hhead]
  have hfuel := length_le_logBytes pre
  obtain ⟨k, hk⟩ :
      ∃ k, (logBytes pre ++ (leBytes 2 nameLen ++ tail)).length + 1 = pre.length + (k + 1) :=
    ⟨(logBytes pre ++ (leBytes 2 nameLen ++ tail)).length - pre.length, by
      rw [List.length_append]
      omega⟩
  rw [findEntry, hk, hrun, iterate_done hturn]
  rfl

/-- Nothing is retrieved behind such a name length. -/
theorem keystoreRetrieve_blocked
    {o : RetrieveOutcome} {nameLen : Nat} {tail : Bytes}
    (hlog : fs keystorePath = some (logBytes pre ++ (leBytes 2 nameLen ++ tail)))
    (hpre : ∀ p ∈ pre, p.name ≠ name ∧ p.Framed)
    (hlong : keystoreNameMax ≤ nameLen)
    (hlen : nameLen < 2 ^ 16) :
    keystoreRetrieve na o name masterPw fs = none := by
  have hread :=
    FileSystem.readFile_eq_some_iff.mpr ⟨show keystorePath.bytes ≠ [] by decide, hlog⟩
  have hfind : findEntry name (logBytes pre ++ (leBytes 2 nameLen ++ tail)) = none :=
    findEntry_blocked hpre hlong hlen
  generalize logBytes pre ++ (leBytes 2 nameLen ++ tail) = content at hread hfind
  simp [keystoreRetrieve, hread, hfind]

end Blocked

section Sufficiency

variable {na : Sodium} {o : StoreOutcome} {r : StoreRequest} {masterPw : CString}
  {fs : FileSystem} {entries : List Entry} {entry : Bytes}

/-- A call that does not come to write is harmless. -/
theorem harmless_of_not_writes
    (haead : AeadCorrect na)
    (hsound : WellFormed fs entries)
    (h : ¬ ∃ entry, Writes na o r masterPw fs entry) :
    Harmless na o r masterPw fs entries := by
  have hstore := keystoreStore_of_not_writes h
  refine ⟨.inr (by rw [hstore]), ?_, ?_⟩
  · intro name key hget
    rwa [hstore]
  · intro pre c post fs' hguard hrun hnew _ hnames
    rw [hstore] at hguard hrun
    exact retrieved_of_run haead hsound.log (fun e he => ⟨hnew e he, hsound.framed e he⟩)
      (Transition.guarded_mono (fun _ _ h => h.1) hguard)
      (Transition.forall_mem_of_guarded (fun _ _ h => h.2) hguard hrun) hnames hrun

/-- Under the condition, every key that could be retrieved before still can. -/
theorem earlier_of_appendOk
    {e : Entry}
    (haead : AeadCorrect na)
    (hsound : WellFormed fs entries)
    (hwrites : Writes na o r masterPw fs entry)
    (hok : AppendOk na o r masterPw fs entries entry)
    (hsealed : SealedAs na masterPw { r with name := r.writtenName } e)
    (hleft :
      (keystoreStore na o r masterPw fs).2 =
        fs.writeFile keystorePath (logBytes (keptEntries o entries ++ [e])))
    {name : CString} {key : Bytes}
    (hget : keystoreRetrieve na .ok name masterPw fs = some key) :
    keystoreRetrieve na .ok name masterPw (keystoreStore na o r masterPw fs).2 = some key := by
  have hmaster := store_master hwrites
  have hfile :
      (keystoreStore na o r masterPw fs).2 keystorePath =
        some (logBytes (keptEntries o entries ++ [e])) := by
    rw [hleft, FileSystem.writeFile_self]
  cases happend : o.fopenAppend with
  | true =>
      rw [keptEntries, happend, if_pos rfl] at hfile
      have htaken : ∃ p ∈ entries, p.name = name := by
        by_contra hnone
        push Not at hnone
        rw [keystoreRetrieve_absent hsound.log
          fun p hp => ⟨hnone p hp, hsound.framed p hp⟩] at hget
        cases hget
      rw [keystoreRetrieve_append hmaster hsound.log hfile hsound.framed (.inl htaken), hget]
  | false =>
      -- nothing was kept, and only the key of the call could be retrieved
      rw [keptEntries, happend, if_neg (by decide), List.nil_append] at hfile
      obtain ⟨rfl, rfl⟩ := (hok.kept.resolve_left (by simp [happend])) name key hget
      exact retrieved_alone haead hwrites hmaster hfile hsealed hok.fits

/-- A call that writes under the condition is harmless. -/
theorem harmless_of_appendOk
    (haead : AeadCorrect na)
    (hsound : WellFormed fs entries)
    (hwrites : Writes na o r masterPw fs entry)
    (hok : AppendOk na o r masterPw fs entries entry) :
    Harmless na o r masterPw fs entries := by
  obtain ⟨e, hsealed, hleft⟩ := store_leaves_log hsound hwrites hok.complete hok.short
  refine ⟨.inl ⟨entry, hwrites.2.2.1, ?_⟩, ?_, ?_⟩
  · rw [keystoreStore_of_writes hwrites, hok.complete]
  · exact fun name key hget =>
      earlier_of_appendOk haead hsound hwrites hok hsealed hleft hget
  · intro pre c post fs' hguard hrun hnew hother hnames
    have hlog :
        ((keystoreStore na o r masterPw fs).2 keystorePath).getD [] =
          logBytes (keptEntries o entries ++ [e]) := by
      rw [hleft, FileSystem.writeFile_self, Option.getD_some]
    have hename : e.name ≠ c.request.name := by
      have hwritten : e.name = r.writtenName := hsealed.name
      rw [hwritten]
      rcases hok.name with hown | ⟨p, hp, htaken⟩
      · rwa [hown]
      · rw [← htaken]
        exact hnew p hp
    refine retrieved_of_run haead hlog ?_ (Transition.guarded_mono (fun _ _ h => h.1) hguard)
      (Transition.forall_mem_of_guarded (fun _ _ h => h.2) hguard hrun) hnames hrun
    intro p hp
    rcases List.mem_append.mp hp with hold | hlast
    · exact ⟨hnew p (mem_of_mem_keptEntries hold), hsound.framed p (mem_of_mem_keptEntries hold)⟩
    · obtain rfl := List.mem_singleton.mp hlast
      exact ⟨hename, (hsealed.framed_iff haead).mpr hok.fits⟩

end Sufficiency

section Necessity

variable {na : Sodium} {o : StoreOutcome} {r : StoreRequest} {masterPw : CString}
  {fs : FileSystem} {entries : List Entry} {entry : Bytes}

/-- A harmless call that comes to write gets its whole entry into the file. -/
theorem complete_of_harmless
    (hwrites : Writes na o r masterPw fs entry)
    (h : Harmless na o r masterPw fs entries) :
    o.appended entry = entry := by
  have hwhole := h.whole
  rw [keystoreStore_of_writes hwrites] at hwhole
  rcases hwhole with ⟨entry', hentry, hsame⟩ | hfailed
  · obtain rfl : entry = entry' := Option.some.inj (hwrites.2.2.1.symm.trans hentry)
    have hfile := congrFun (congrArg Prod.snd hsame) keystorePath
    dsimp only at hfile
    rw [FileSystem.writeFile_self, FileSystem.writeFile_self, Option.some.injEq] at hfile
    exact List.append_cancel_left hfile
  · simp at hfailed

/-- One key stored after a harmless call, under a new name, is retrieved. -/
theorem retrieved_after_harmless
    {name : CString} {key : Bytes}
    (hwrites : Writes na o r masterPw fs entry)
    (h : Harmless na o r masterPw fs entries)
    (hname : name.strlen < keystoreNameMax)
    (hkey : key.length = 1)
    (hnew : ∀ e ∈ entries, e.name ≠ name)
    (hother : r.name ≠ name) :
    ∃ (e : Entry) (fs' : FileSystem),
      fs' keystoreMasterPath = fs keystoreMasterPath ∧
        fs' keystorePath =
          some (((keystoreStore na o r masterPw fs).2 keystorePath).getD [] ++ e.bytes) ∧
        keystoreRetrieve na .ok name masterPw fs' = some key := by
  have hmaster := store_master hwrites
  obtain ⟨c, fs', rfl, rfl, rfl, hlater, hstep⟩ :=
    exists_later_store hwrites hmaster hname hkey
  have hget :=
    h.later [] c [] fs' ⟨hlater, fun _ _ => trivial⟩ (by simp [Transition.run, hstep]) hnew
      hother (by simp)
  obtain ⟨-, e, hwritten, rfl⟩ := storeCall_whole hlater.1 hstep
  refine ⟨e, _, ?_, FileSystem.writeFile_self _ _ _, hget⟩
  rw [FileSystem.writeFile_of_ne _ _ keystoreMasterPath_ne, hmaster]

/-- The name in the entry of a harmless call passes the readers: a longer one would hide a key
stored behind it. -/
theorem short_of_harmless
    (hsound : WellFormed fs entries)
    (hwrites : Writes na o r masterPw fs entry)
    (h : Harmless na o r masterPw fs entries) :
    r.writtenName.strlen < keystoreNameMax := by
  by_contra hlong
  have hcut : r.writtenName.strlen = min (r.name.strlen % 2 ^ 16) r.name.strlen := by
    simp [StoreRequest.writtenName, CString.take, CString.strlen]
  have hnameLen : keystoreNameMax ≤ r.name.strlen % 2 ^ 16 := by omega
  have hfew : (entries.map Entry.name).length < 2 ^ 63 := by
    have hlen := length_le_logBytes entries
    have hsize := hsound.size
    rw [List.length_map]
    omega
  obtain ⟨name, hlen, hfresh⟩ := exists_fresh_name hfew
  have hnew : ∀ e ∈ entries, e.name ≠ name := by
    rintro e he rfl
    exact hfresh (List.mem_map_of_mem he)
  have hother : r.name ≠ name := by
    rintro rfl
    simp only [keystoreNameMax] at hnameLen
    omega
  have hshort : name.strlen < keystoreNameMax := by
    rw [hlen]
    decide
  have hone : ([0] : Bytes).length = 1 := rfl
  obtain ⟨e, fs', -, hfile, hget⟩ :=
    retrieved_after_harmless hwrites h hshort hone hnew hother
  have hcomplete := complete_of_harmless hwrites h
  obtain ⟨-, -, hentry, -⟩ := id hwrites
  simp only [wrappedEntry, Option.bind_eq_bind, Option.bind_eq_some_iff, Option.guard_eq_some',
    Option.pure_def, Option.some.injEq] at hentry
  obtain ⟨-, -, wrapKey, -, -, -, rfl⟩ := hentry
  rw [store_leaves hsound hwrites hcomplete, FileSystem.writeFile_self, Option.getD_some,
    entryBytes, List.append_assoc, List.append_assoc] at hfile
  rw [keystoreRetrieve_blocked hfile
    (fun p hp =>
      ⟨hnew p (mem_of_mem_keptEntries hp), hsound.framed p (mem_of_mem_keptEntries hp)⟩)
    hnameLen (Nat.mod_lt _ (by decide))] at hget
  cases hget

/-- The name in the entry of a harmless call is its own or one that was taken: a key stored
under it later would not be found. -/
theorem name_of_harmless
    (haead : AeadCorrect na)
    (hsound : WellFormed fs entries)
    (hwrites : Writes na o r masterPw fs entry)
    (hfits : KeyFits r)
    (h : Harmless na o r masterPw fs entries) :
    r.writtenName = r.name ∨ ∃ e ∈ entries, e.name = r.writtenName := by
  by_contra hcut
  push Not at hcut
  obtain ⟨hother, hnew⟩ := hcut
  have hshort := short_of_harmless hsound hwrites h
  obtain ⟨e, hsealed, hleft⟩ :=
    store_leaves_log hsound hwrites (complete_of_harmless hwrites h) hshort
  obtain ⟨key, hlen, hkey⟩ : ∃ key : Bytes, key.length = 1 ∧ key ≠ r.keyData := by
    by_cases hzero : r.keyData = [0]
    · exact ⟨[1], rfl, by rw [hzero]; decide⟩
    · exact ⟨[0], rfl, Ne.symm hzero⟩
  obtain ⟨e', fs', hmaster, hfile, hget⟩ :=
    retrieved_after_harmless hwrites h hshort hlen hnew hother.symm
  have hlog : fs' keystorePath = some (logBytes (keptEntries o entries ++ e :: [e'])) := by
    rw [hfile, hleft, FileSystem.writeFile_self, Option.getD_some]
    simp
  have hfirst :=
    retrieved_written haead hwrites hmaster hlog
      (fun p hp =>
        ⟨hnew p (mem_of_mem_keptEntries hp), hsound.framed p (mem_of_mem_keptEntries hp)⟩)
      hsealed hfits
  exact hkey (Option.some.inj (hget.symm.trans hfirst))

/-- A harmless call either appends or loses nothing but its own key. -/
theorem kept_of_harmless
    (haead : AeadCorrect na)
    (hsound : WellFormed fs entries)
    (hwrites : Writes na o r masterPw fs entry)
    (hfits : KeyFits r)
    (h : Harmless na o r masterPw fs entries) :
    o.fopenAppend = true ∨
      ∀ name key,
        keystoreRetrieve na .ok name masterPw fs = some key →
        name = r.writtenName ∧ key = r.keyData := by
  cases happend : o.fopenAppend with
  | true =>
      exact .inl rfl
  | false =>
      refine .inr fun name key hget => ?_
      have hshort := short_of_harmless hsound hwrites h
      obtain ⟨e, hsealed, hleft⟩ :=
        store_leaves_log hsound hwrites (complete_of_harmless hwrites h) hshort
      have hfile : (keystoreStore na o r masterPw fs).2 keystorePath = some (logBytes [e]) := by
        rw [hleft, FileSystem.writeFile_self, keptEntries, happend]
        rfl
      have hafter := h.earlier name key hget
      by_cases hname : name = r.writtenName
      · subst hname
        have hown :=
          retrieved_alone haead hwrites (store_master hwrites) hfile hsealed hfits
        exact ⟨rfl, Option.some.inj (hafter.symm.trans hown)⟩
      · have hskip : ∀ p ∈ [e], p.name ≠ name ∧ p.Framed := by
          intro p hp
          obtain rfl := List.mem_singleton.mp hp
          have hwritten : p.name = r.writtenName := hsealed.name
          exact ⟨hwritten ▸ Ne.symm hname, (hsealed.framed_iff haead).mpr hfits⟩
        rw [keystoreRetrieve_absent (by rw [hfile]; rfl) hskip] at hafter
        cases hafter

end Necessity

/--
**Torn appends.**

A call of `keystore_store` on a sound keystore leaves a sound keystore when it does not come to
write, or when its entry reaches the file whole, under a name that the readers pass and that
hides no other, with nothing lost.  For a key whose encrypted length fits the length field,
this is also necessary.
-/
theorem torn_append_iff
    (na : Sodium)
    (haead : AeadCorrect na)
    (o : StoreOutcome) (r : StoreRequest) (masterPw : CString)
    (fs : FileSystem) (entries : List Entry)
    (hsound : WellFormed fs entries) :
    ((∀ entry, Writes na o r masterPw fs entry → AppendOk na o r masterPw fs entries entry) →
      Harmless na o r masterPw fs entries)
      ∧
    (KeyFits r →
      Harmless na o r masterPw fs entries →
      ∀ entry, Writes na o r masterPw fs entry → AppendOk na o r masterPw fs entries entry) := by
  constructor
  · intro hok
    by_cases hwrites : ∃ entry, Writes na o r masterPw fs entry
    · obtain ⟨entry, hentry⟩ := hwrites
      exact harmless_of_appendOk haead hsound hentry (hok entry hentry)
    · exact harmless_of_not_writes haead hsound hwrites
  · intro hfits h entry hwrites
    exact
      { complete := complete_of_harmless hwrites h
        short := short_of_harmless hsound hwrites h
        name := name_of_harmless haead hsound hwrites hfits h
        fits := hfits
        kept := kept_of_harmless haead hsound hwrites hfits h }

section Examples

/-- Complete stores into an empty keystore leave a sound one, with an entry for each. -/
theorem wellFormed_of_stores
    {na : Sodium} {masterPw : CString} {fs fs' : FileSystem} {reqs : List StoreRequest}
    (haead : AeadCorrect na)
    (hempty : (fs keystorePath).getD [] = [])
    (hshort : ∀ r ∈ reqs, r.name.strlen < keystoreNameMax)
    (hfits : ∀ r ∈ reqs, KeyFits r)
    (hrun : Transition.run (storeStep na masterPw) fs reqs = some fs')
    (hsize : ((fs' keystorePath).getD []).length < 2 ^ 63) :
    ∃ entries, entries.map Entry.name = reqs.map StoreRequest.name ∧ WellFormed fs' entries := by
  obtain ⟨entries, hsealed, hlog, -⟩ := run_stores_empty hempty hshort hrun
  refine ⟨entries, ?_, hlog, fun e he => ?_, hlog ▸ hsize⟩
  · clear hlog hrun hshort hfits
    induction hsealed with
    | nil => rfl
    | cons hfirst _ ih => rw [List.map_cons, List.map_cons, hfirst.name, ih]
  · obtain ⟨r, hr, hre⟩ := exists_request hsealed he
    exact (hre.framed_iff haead).mpr (hfits r hr)

/-- Behind two keys, a third store is harmless when all of it reaches the file. -/
theorem third_store_harmless :
    ∃ fs entries,
      Transition.run (storeStep mirror examplePw) exampleMaster
          [exampleStore 1, exampleStore 2] = some fs ∧
        entries.map Entry.name = [cstr [1], cstr [2]] ∧
        Harmless mirror .ok (exampleStore 3) examplePw fs entries := by
  have hlength :
      (Transition.run (storeStep mirror examplePw) exampleMaster
          [exampleStore 1, exampleStore 2]).map
        (fun fs => ((fs keystorePath).getD []).length) = some 152 := by
    decide +kernel
  obtain ⟨fs, hrun, hsize⟩ := Option.map_eq_some_iff.mp hlength
  obtain ⟨entries, hnames, hsound⟩ :=
    wellFormed_of_stores mirror_aeadIdeal.toAeadCorrect (by decide +kernel) (by decide)
      (by decide) hrun (by omega)
  refine ⟨fs, entries, hrun, hnames,
    (torn_append_iff mirror mirror_aeadIdeal.toAeadCorrect .ok (exampleStore 3) examplePw fs
      entries hsound).1 fun entry _ => ?_⟩
  exact
    { complete := rfl
      short := by decide +kernel
      name := .inl (by decide +kernel)
      fits := by decide
      kept := .inl rfl }

/-- All steps succeed, and ten bytes of what is written reach the file. -/
def tornAfterTen : StoreOutcome :=
  { StoreOutcome.ok with appended := fun bs => bs.take 10 }

/-- A torn first store returns 0, and the key that is stored next is not retrieved. -/
theorem torn_store_hides :
    (keystoreStore mirror tornAfterTen (exampleCall 1 1).request examplePw exampleMaster).1 = 0 ∧
      keystoreRetrieve mirror .ok (cstr [2]) examplePw
          (keystoreStore mirror .ok (exampleCall 2 2).request examplePw
            (keystoreStore mirror tornAfterTen (exampleCall 1 1).request examplePw
              exampleMaster).2).2 =
        none ∧
      ¬ Harmless mirror tornAfterTen (exampleCall 1 1).request examplePw exampleMaster [] := by
  have hget :
      keystoreRetrieve mirror .ok (cstr [2]) examplePw
          (keystoreStore mirror .ok (exampleCall 2 2).request examplePw
            (keystoreStore mirror tornAfterTen (exampleCall 1 1).request examplePw
              exampleMaster).2).2 =
        none := by
    decide +kernel
  refine ⟨by decide +kernel, hget, fun h => ?_⟩
  have hlater :
      LaterOk (keystoreStore mirror tornAfterTen (exampleCall 1 1).request examplePw
        exampleMaster).2 (exampleCall 2 2) :=
    ⟨⟨by decide +kernel, fun _ => rfl, .inl rfl⟩, by decide⟩
  have hsecond :=
    h.later [] (exampleCall 2 2) [] _ ⟨hlater, fun _ _ => trivial⟩ rfl (by simp)
      (by decide +kernel) (by simp)
  exact absurd (hget.symm.trans hsecond) (by decide)

end Examples

end KeyStorage
end SecureZ
