import SecureZ.Engine.KeyStorage
import SecureZ.Lib.Transition
import Mathlib.Data.List.Forall2

/-!
# The keystore as a log of entries

The meaning of a keystore file is a list of entries, written one behind the other.
The two readers refine the two obvious functions on that list: `findEntry` finds the
first entry with a name, `listEntries` describes the first entries of the list.  Both
need that the lengths in the file are the true ones, `Entry.Framed` for the first and
`Entry.Listable` for the second, whose skip distance is a smaller number of bits away
from overflowing.

A store appends one entry.  A run of stores therefore leaves the entries of the calls
in order, and what the readers return follows from the list.
-/

namespace SecureZ
namespace KeyStorage

open CLib
open CryptoCore

section Entries

/-- An entry of the log.  Its name fits the buffers of the readers. -/
structure Entry where
  name : CString
  type : UInt32
  createdAt : UInt64
  salt : Salt
  nonce : Nonce
  cipher : Bytes
  nameShort : name.strlen < keystoreNameMax

namespace Entry

/-- What the length field in front of the encrypted data holds. -/
def encLen (e : Entry) : Nat :=
  e.cipher.length % 2 ^ 32

/-- The entry in the file. -/
def bytes (e : Entry) : Bytes :=
  leBytes 2 e.name.strlen ++ (e.name.bytes ++ (leBytes 4 e.type.toNat ++
    (leBytes 8 e.createdAt.toNat ++ (leBytes 4 e.encLen ++ (e.salt.bytes ++
      (e.nonce.bytes ++ e.cipher))))))

/-- What `keystore_retrieve` sees of an entry. -/
def head (e : Entry) : EntryHead where
  name := e.name
  encLen := e.encLen
  salt := e.salt
  nonce := e.nonce

/-- What `keystore_list` tells of an entry. -/
def info (e : Entry) : KeyInfo where
  name := e.name
  type := e.type
  keyLen := e.encLen
  createdAt := e.createdAt
  lastUsed := 0
  locked := false

/-- The length field holds the length. -/
def Framed (e : Entry) : Prop :=
  e.cipher.length < 2 ^ 32

/-- The distance that `keystore_list` skips is the true one. -/
def Listable (e : Entry) : Prop :=
  crypticSaltLen + crypticNonceLen + e.cipher.length < 2 ^ 32

theorem encLen_of_framed
    {e : Entry}
    (h : e.Framed) :
    e.encLen = e.cipher.length :=
  Nat.mod_eq_of_lt h

theorem framed_of_listable
    {e : Entry}
    (h : e.Listable) :
    e.Framed := by
  unfold Listable at h
  unfold Framed
  omega

theorem bytes_ne_nil
    (e : Entry) :
    1 ≤ e.bytes.length := by
  simp only [bytes, List.length_append, length_leBytes]
  omega

end Entry

/-- The file that holds a list of entries. -/
def logBytes (entries : List Entry) : Bytes :=
  (entries.map Entry.bytes).flatten

@[simp] theorem logBytes_nil :
    logBytes [] = [] := by
  rfl

@[simp] theorem logBytes_cons
    (e : Entry) (entries : List Entry) :
    logBytes (e :: entries) = e.bytes ++ logBytes entries := by
  rfl

@[simp] theorem logBytes_append
    (xs ys : List Entry) :
    logBytes (xs ++ ys) = logBytes xs ++ logBytes ys := by
  simp [logBytes]

/-- A log has at least one byte for each entry, so the readers have turns enough. -/
theorem length_le_logBytes
    (entries : List Entry) :
    entries.length ≤ (logBytes entries).length := by
  induction entries with
  | nil =>
      simp
  | cons e entries ih =>
      have he := e.bytes_ne_nil
      simp only [List.length_cons, logBytes_cons, List.length_append]
      omega

end Entries

section Heads

variable {f : Stream} {e : Entry} {tail : Bytes}

/-- The name of an entry reads back as the string it is. -/
theorem leNat_nameLen
    (e : Entry) :
    leNat (leBytes 2 e.name.strlen) = e.name.strlen := by
  have hshort := e.nameShort
  simp only [keystoreNameMax] at hshort
  exact leNat_leBytes_of_lt (by omega)

theorem leNat_encLen
    (e : Entry) :
    leNat (leBytes 4 e.encLen) = e.encLen :=
  leNat_leBytes_of_lt (Nat.mod_lt _ (by decide))

/-- In front of an entry, the reads of `keystore_retrieve` return its head and stop in
front of its encrypted data. -/
theorem retrieveHead_entry
    (hrest : f.rest = e.bytes ++ tail) :
    ∃ f', retrieveHead f = some (e.head, f') ∧
      f'.rest = e.cipher ++ tail ∧
      f'.eof = f.eof := by
  simp only [Entry.bytes, List.append_assoc] at hrest
  obtain ⟨f₁, h₁, r₁, t₁⟩ := Stream.freadExact_of_rest hrest (length_leBytes 2 _)
  obtain ⟨f₂, h₂, r₂, t₂⟩ := Stream.freadExact_of_rest r₁ rfl
  obtain ⟨f₃, h₃, r₃, t₃⟩ := Stream.freadExact_of_rest r₂ (length_leBytes 4 _)
  obtain ⟨f₄, h₄, r₄, t₄⟩ := Stream.freadExact_of_rest r₃ (length_leBytes 8 _)
  obtain ⟨f₅, h₅, r₅, t₅⟩ := Stream.freadExact_of_rest r₄ (length_leBytes 4 _)
  obtain ⟨f₆, h₆, r₆, t₆⟩ := Stream.freadBlock_of_rest r₅
  obtain ⟨f₇, h₇, r₇, t₇⟩ := Stream.freadBlock_of_rest r₆
  have hname : e.name.strlen < keystoreNameMax := e.nameShort
  refine ⟨f₇, ?_, r₇, by rw [t₇, t₆, t₅, t₄, t₃, t₂, t₁]⟩
  rw [← leNat_nameLen e] at hname
  have h₂' : f₁.freadExact (leNat (leBytes 2 e.name.strlen)) =
      some (e.name.bytes, f₂) := by
    rw [leNat_nameLen]
    exact h₂
  simp [retrieveHead, h₁, hname, h₂', h₃, h₄, h₅, h₆, h₇, leNat_encLen, Entry.head,
    guard]

/-- In front of an entry, the reads of `keystore_list` return its description and stop
in front of its salt. -/
theorem listHead_entry
    (hrest : f.rest = e.bytes ++ tail) :
    ∃ f', listHead f = some (e.info, f') ∧
      f'.rest = e.salt.bytes ++ (e.nonce.bytes ++ (e.cipher ++ tail)) ∧
      f'.eof = f.eof := by
  simp only [Entry.bytes, List.append_assoc] at hrest
  obtain ⟨f₁, h₁, r₁, t₁⟩ := Stream.freadExact_of_rest hrest (length_leBytes 2 _)
  obtain ⟨f₂, h₂, r₂, t₂⟩ := Stream.freadExact_of_rest r₁ rfl
  obtain ⟨f₃, h₃, r₃, t₃⟩ := Stream.freadExact_of_rest r₂ (length_leBytes 4 _)
  obtain ⟨f₄, h₄, r₄, t₄⟩ := Stream.freadExact_of_rest r₃ (length_leBytes 8 _)
  obtain ⟨f₅, h₅, r₅, t₅⟩ := Stream.freadExact_of_rest r₄ (length_leBytes 4 _)
  have hname : e.name.strlen < keystoreNameMax := e.nameShort
  refine ⟨f₅, ?_, r₅, by rw [t₅, t₄, t₃, t₂, t₁]⟩
  rw [← leNat_nameLen e] at hname
  have h₂' : f₁.freadExact (leNat (leBytes 2 e.name.strlen)) =
      some (e.name.bytes, f₂) := by
    rw [leNat_nameLen]
    exact h₂
  have htype : leNat (leBytes 4 e.type.toNat) = e.type.toNat :=
    leNat_leBytes_of_lt e.type.toNat_lt
  have htime : leNat (leBytes 8 e.createdAt.toNat) = e.createdAt.toNat :=
    leNat_leBytes_of_lt e.createdAt.toNat_lt
  simp [listHead, h₁, hname, h₂', h₃, h₄, h₅, leNat_encLen, htype, htime, Entry.info,
    guard]

/-- At the end of the log no entry is read. -/
theorem retrieveHead_nil
    (hrest : f.rest = []) :
    retrieveHead f = none := by
  simp [retrieveHead, Stream.freadExact_nil hrest]

theorem listHead_nil
    (hrest : f.rest = []) :
    listHead f = none := by
  simp [listHead, Stream.freadExact_nil hrest]

end Heads

section Scan

/-- The reader stands in front of the entries. -/
def At (entries : List Entry) (f : Stream) : Prop :=
  f.eof = false ∧ f.rest = logBytes entries

theorem at_fopen
    (entries : List Entry) :
    At entries (Stream.fopen (logBytes entries)) :=
  ⟨rfl, by simp⟩

/-- An entry with another name and a true length is skipped exactly, whatever is behind it. -/
theorem retrieveTurn_pass
    {name : CString} {e : Entry} {tail : Bytes} {f : Stream}
    (he : e.name ≠ name ∧ e.Framed)
    (heof : f.eof = false)
    (hrest : f.rest = e.bytes ++ tail) :
    ∃ f', retrieveTurn name f = .next f' ∧ f'.eof = false ∧ f'.rest = tail := by
  obtain ⟨hne, hframed⟩ := he
  obtain ⟨g, hhead, hg, -⟩ := retrieveHead_entry hrest
  refine ⟨g.fseekCur e.encLen, ?_, rfl, ?_⟩
  · simp [retrieveTurn, heof, hhead, Entry.head, hne]
  · rw [Stream.rest_fseekCur, hg, Entry.encLen_of_framed hframed, List.drop_left]

theorem retrieveTurn_skip
    {name : CString} {e : Entry} {entries : List Entry} {f : Stream}
    (he : e.name ≠ name ∧ e.Framed)
    (hat : At (e :: entries) f) :
    ∃ f', retrieveTurn name f = .next f' ∧ At entries f' :=
  retrieveTurn_pass he hat.1 (hat.2.trans (logBytes_cons e entries))

/-- The loop of `keystore_retrieve` stops at the first entry with the name, in front of
its encrypted data. -/
theorem findEntry_found
    {name : CString} {pre : List Entry} {e : Entry}
    (post : List Entry)
    (hpre : ∀ p ∈ pre, p.name ≠ name ∧ p.Framed)
    (he : e.name = name) :
    ∃ f, findEntry name (logBytes (pre ++ e :: post)) = some (e.head, f) ∧
      f.rest = e.cipher ++ logBytes post := by
  obtain ⟨g, ⟨heof, hrest⟩, hrun⟩ :=
    iterate_pass (fun _ _ _ => retrieveTurn_skip) hpre (at_fopen (pre ++ e :: post))
  rw [logBytes_cons] at hrest
  obtain ⟨f, hhead, hf, -⟩ := retrieveHead_entry hrest
  have hturn : retrieveTurn name g = .done (some (e.head, f)) := by
    simp [retrieveTurn, heof, hhead, Entry.head, he]
  have hfuel := length_le_logBytes (pre ++ e :: post)
  rw [List.length_append, List.length_cons] at hfuel
  obtain ⟨k, hk⟩ :
      ∃ k, (logBytes (pre ++ e :: post)).length + 1 = pre.length + (k + 1) :=
    ⟨(logBytes (pre ++ e :: post)).length - pre.length, by omega⟩
  refine ⟨f, ?_, hf⟩
  rw [findEntry, hk, hrun, iterate_done hturn]
  rfl

/-- The loop of `keystore_retrieve` finds nothing when no entry has the name. -/
theorem findEntry_absent
    {name : CString} {entries : List Entry}
    (hall : ∀ e ∈ entries, e.name ≠ name ∧ e.Framed) :
    findEntry name (logBytes entries) = none := by
  have hat : At (entries ++ []) (Stream.fopen (logBytes entries)) := by
    rw [List.append_nil]
    exact at_fopen entries
  obtain ⟨g, ⟨heof, hrest⟩, hrun⟩ :=
    iterate_pass (fun _ _ _ => retrieveTurn_skip) hall hat
  have hturn : retrieveTurn name g = .done none := by
    simp [retrieveTurn, heof, retrieveHead_nil hrest]
  have hfuel := length_le_logBytes entries
  obtain ⟨k, hk⟩ : ∃ k, (logBytes entries).length + 1 = entries.length + (k + 1) :=
    ⟨(logBytes entries).length - entries.length, by omega⟩
  rw [findEntry, hk, hrun, iterate_done hturn]
  rfl

/-- One entry is described and skipped exactly, while there is room. -/
theorem listTurn_entry
    {keys : List KeyInfo} {e : Entry} {entries : List Entry} {f : Stream}
    (hroom : keys.length < keystoreMaxKeys)
    (he : e.Listable)
    (hat : At (e :: entries) f) :
    ∃ f', listTurn (keys, f) = .next (keys ++ [e.info], f') ∧ At entries f' := by
  obtain ⟨heof, hrest⟩ := hat
  rw [logBytes_cons] at hrest
  obtain ⟨g, hhead, hg, -⟩ := listHead_entry hrest
  have hlen : e.encLen = e.cipher.length :=
    Entry.encLen_of_framed (Entry.framed_of_listable he)
  have hskip :
      (crypticSaltLen + crypticNonceLen + e.info.keyLen) % 2 ^ 32 =
        e.salt.bytes.length + (e.nonce.bytes.length + e.cipher.length) := by
    rw [Entry.info, hlen, Nat.mod_eq_of_lt he, e.salt.size, e.nonce.size, Nat.add_assoc]
  refine ⟨g.fseekCur ((crypticSaltLen + crypticNonceLen + e.info.keyLen) % 2 ^ 32),
    ?_, rfl, ?_⟩
  · have hopen : ¬ (f.eof = true ∨ keystoreMaxKeys ≤ keys.length) := by
      rw [heof]
      simpa using hroom
    simp only [listTurn, if_neg hopen, hhead]
  · rw [Stream.rest_fseekCur, hg, hskip]
    simp

/-- The loop of `keystore_list` adds the descriptions of the entries ahead, as far as
there is room. -/
theorem iterate_listTurn
    (entries : List Entry)
    (hall : ∀ e ∈ entries, e.Listable)
    (keys : List KeyInfo) (f : Stream)
    (hat : At entries f)
    {n : Nat}
    (hn : entries.length < n) :
    iterate listTurn n (keys, f) =
      some (keys ++ (entries.take (keystoreMaxKeys - keys.length)).map Entry.info) := by
  induction entries generalizing keys f n with
  | nil =>
      obtain ⟨m, rfl⟩ : ∃ m, n = m + 1 := ⟨n - 1, by simp at hn; omega⟩
      have hturn : listTurn (keys, f) = .done keys := by
        simp [listTurn, listHead_nil hat.2]
      rw [iterate_done hturn]
      simp
  | cons e entries ih =>
      obtain ⟨m, rfl⟩ : ∃ m, n = m + 1 := ⟨n - 1, by simp at hn; omega⟩
      rw [List.length_cons] at hn
      by_cases hroom : keys.length < keystoreMaxKeys
      · obtain ⟨f', hturn, hat'⟩ :=
          listTurn_entry hroom (hall e List.mem_cons_self) hat
        obtain ⟨k, hk⟩ : ∃ k, keystoreMaxKeys - keys.length = k + 1 :=
          ⟨keystoreMaxKeys - keys.length - 1, by omega⟩
        have hk' : keystoreMaxKeys - (keys ++ [e.info]).length = k := by
          rw [List.length_append, List.length_singleton]
          omega
        rw [iterate_next hturn,
          ih (fun e' he' => hall e' (List.mem_cons_of_mem _ he')) _ f' hat' (by omega),
          hk, hk', List.take_succ_cons, List.map_cons, List.append_assoc]
        rfl
      · have hturn : listTurn (keys, f) = .done keys := by
          simp [listTurn, Nat.le_of_not_lt hroom]
        have hzero : keystoreMaxKeys - keys.length = 0 := by omega
        rw [iterate_done hturn, hzero]
        simp

/-- `keystore_list` describes the first entries of the log. -/
theorem listEntries_logBytes
    {entries : List Entry}
    (hall : ∀ e ∈ entries, e.Listable) :
    listEntries (logBytes entries) =
      (entries.take keystoreMaxKeys).map Entry.info := by
  have hfuel := length_le_logBytes entries
  rw [listEntries, iterate_listTurn entries hall [] _ (at_fopen entries) (by omega)]
  simp

end Scan

section Stores

variable {na : Sodium} {masterPw : CString}

/-- `e` is the entry that a store of the request writes. -/
structure SealedAs (na : Sodium) (masterPw : CString) (r : StoreRequest) (e : Entry) :
    Prop where
  name : e.name = r.name
  type : e.type = r.type.toU32
  createdAt : e.createdAt = r.time
  cipher :
    ∃ wrapKey,
      normalKey na masterPw e.salt = some wrapKey ∧
        e.cipher = cryptoEncryptBuffer na r.keyData e.nonce wrapKey

/-- A successful call of `keystore_store`, every write complete. -/
def storeStep
    (na : Sodium) (masterPw : CString) (fs : FileSystem) (r : StoreRequest) :
    Option FileSystem :=
  match keystoreStore na .ok r masterPw fs with
  | (0, fs') => some fs'
  | _ => none

/-- The entry that a request with a short name is written as. -/
theorem entryBytes_eq
    (r : StoreRequest) (encrypted : Bytes)
    (hshort : r.name.strlen < keystoreNameMax) :
    entryBytes r encrypted =
      Entry.bytes
        { name := r.name
          type := r.type.toU32
          createdAt := r.time
          salt := r.salt
          nonce := r.nonce
          cipher := encrypted
          nameShort := hshort } := by
  have hlen : r.name.strlen % 2 ^ 16 = r.name.strlen := by
    simp only [keystoreNameMax] at hshort
    exact Nat.mod_eq_of_lt (by omega)
  have htake : r.name.bytes.take r.name.strlen = r.name.bytes :=
    List.take_length
  simp only [entryBytes, Entry.bytes, Entry.encLen, hlen, htake]

/-- The entry that a store comes to write seals the request. -/
theorem wrappedEntry_eq_some
    {o : StoreOutcome} {r : StoreRequest} {entry : Bytes}
    (hshort : r.name.strlen < keystoreNameMax)
    (h : wrappedEntry na o r masterPw = some entry) :
    ∃ e, SealedAs na masterPw r e ∧ entry = e.bytes := by
  simp only [wrappedEntry, Option.bind_eq_bind, Option.bind_eq_some_iff, Option.guard_eq_some',
    Option.pure_def, Option.some.injEq] at h
  obtain ⟨-, -, wrapKey, hkey, -, -, rfl⟩ := h
  rw [entryBytes_eq r _ hshort]
  exact ⟨_, ⟨rfl, rfl, rfl, wrapKey, hkey, rfl⟩, rfl⟩

/-- A store that returns 0 and whose writes are complete verified the password and added one
entry: to the log, or to nothing when the log could not be opened. -/
theorem keystoreStore_eq_zero
    {o : StoreOutcome} {r : StoreRequest} {fs fs' : FileSystem}
    (hshort : r.name.strlen < keystoreNameMax)
    (hcomplete : ∀ bs, o.appended bs = bs)
    (h : keystoreStore na o r masterPw fs = (0, fs')) :
    keystoreMasterVerify na masterPw fs = true ∧
      ∃ e,
        SealedAs na masterPw r e ∧
          fs' =
            fs.writeFile keystorePath
              ((if o.fopenAppend then (fs keystorePath).getD [] else []) ++ e.bytes) := by
  unfold keystoreStore at h
  by_cases hempty : r.keyData = []
  · simp [hempty] at h
  cases hverify : keystoreMasterVerify na masterPw fs with
  | false =>
      simp [hempty, hverify] at h
  | true =>
  cases hentry : wrappedEntry na o r masterPw with
  | none =>
      simp [hempty, hverify, hentry] at h
  | some entry =>
      obtain ⟨e, hsealed, rfl⟩ := wrappedEntry_eq_some hshort hentry
      refine ⟨rfl, e, hsealed, ?_⟩
      cases happend : o.fopenAppend with
      | true =>
          simpa [hempty, hverify, hentry, happend, hcomplete] using h.symm
      | false =>
          cases hcreate : o.fopenCreate with
          | true =>
              simpa [hempty, hverify, hentry, happend, hcreate, hcomplete] using h.symm
          | false =>
              simp [hempty, hverify, hentry, happend, hcreate] at h

/-- A successful store verified the password and appended one entry. -/
theorem storeStep_eq_some
    {fs fs' : FileSystem} {r : StoreRequest}
    (hshort : r.name.strlen < keystoreNameMax)
    (h : storeStep na masterPw fs r = some fs') :
    keystoreMasterVerify na masterPw fs = true ∧
      ∃ e,
        SealedAs na masterPw r e ∧
          fs' = fs.writeFile keystorePath ((fs keystorePath).getD [] ++ e.bytes) := by
  unfold storeStep at h
  split at h
  · rename_i fs₁ hstore
    obtain rfl := Option.some.inj h
    exact keystoreStore_eq_zero hshort (fun _ => rfl) hstore
  · cases h

/-- The master file is not the keystore file. -/
theorem keystoreMasterPath_ne : keystoreMasterPath ≠ keystorePath := by
  decide

/-- Verification depends on the master file alone. -/
theorem keystoreMasterVerify_congr
    {fs fs' : FileSystem} {password : CString}
    (h : fs' keystoreMasterPath = fs keystoreMasterPath) :
    keystoreMasterVerify na password fs' = keystoreMasterVerify na password fs := by
  simp only [keystoreMasterVerify, FileSystem.readFile, h]

/-- What a run of successful stores leaves: the log grew by the entries of the calls,
in order, and the master file is as before. -/
theorem run_stores
    {reqs : List StoreRequest} {fs fs' : FileSystem}
    (entries : List Entry)
    (hlog : (fs keystorePath).getD [] = logBytes entries)
    (hshort : ∀ r ∈ reqs, r.name.strlen < keystoreNameMax)
    (hrun : Transition.run (storeStep na masterPw) fs reqs = some fs') :
    ∃ added,
      List.Forall₂ (SealedAs na masterPw) reqs added ∧
        (fs' keystorePath).getD [] = logBytes (entries ++ added) ∧
        fs' keystoreMasterPath = fs keystoreMasterPath ∧
        (reqs ≠ [] →
          keystoreMasterVerify na masterPw fs = true ∧ (fs' keystorePath).isSome) := by
  induction reqs generalizing fs entries with
  | nil =>
      obtain rfl := Option.some.inj hrun
      exact ⟨[], .nil, by simpa using hlog, rfl, fun h => absurd rfl h⟩
  | cons r reqs ih =>
      obtain ⟨fs₁, hstep, hrest⟩ := Transition.run_cons_eq_some.mp hrun
      obtain ⟨hverify, e, hsealed, rfl⟩ :=
        storeStep_eq_some (hshort r List.mem_cons_self) hstep
      have hlog₁ :
          ((fs.writeFile keystorePath ((fs keystorePath).getD [] ++ e.bytes))
              keystorePath).getD [] = logBytes (entries ++ [e]) := by
        simp [hlog]
      obtain ⟨added, hadded, hfinal, hmaster, hsome⟩ :=
        ih _ hlog₁ (fun r' hr' => hshort r' (List.mem_cons_of_mem _ hr')) hrest
      refine ⟨e :: added, .cons hsealed hadded, by simpa using hfinal, ?_, fun _ => ?_⟩
      · rw [hmaster]
        exact FileSystem.writeFile_of_ne _ _ keystoreMasterPath_ne
      · refine ⟨hverify, ?_⟩
        cases reqs with
        | nil =>
            obtain rfl := Option.some.inj hrest
            simp
        | cons r' reqs =>
            exact (hsome (by simp)).2

/-- Two related lists cut at a member of the first. -/
theorem forall₂_split
    {α β : Type*} {R : α → β → Prop}
    {pre post : List α} {a : α} {bs : List β}
    (h : List.Forall₂ R (pre ++ a :: post) bs) :
    ∃ pre' b post',
      bs = pre' ++ b :: post' ∧
        List.Forall₂ R pre pre' ∧
        R a b := by
  have htake := List.forall₂_take pre.length h
  have hdrop := List.forall₂_drop pre.length h
  rw [List.take_left] at htake
  rw [List.drop_left] at hdrop
  obtain ⟨b, post', hab, -, hpost⟩ := List.forall₂_cons_left_iff.mp hdrop
  refine ⟨bs.take pre.length, b, post', ?_, htake, hab⟩
  rw [← hpost, List.take_append_drop]

/-- A run of stores cut at one of its calls. -/
theorem sealed_split
    {pre post : List StoreRequest} {r : StoreRequest} {entries : List Entry}
    (h : List.Forall₂ (SealedAs na masterPw) (pre ++ r :: post) entries) :
    ∃ pre' e post',
      entries = pre' ++ e :: post' ∧
        List.Forall₂ (SealedAs na masterPw) pre pre' ∧
        SealedAs na masterPw r e :=
  forall₂_split h

/-- Every entry of a run of stores belongs to one of its calls. -/
theorem exists_request
    {reqs : List StoreRequest} {entries : List Entry} {e : Entry}
    (h : List.Forall₂ (SealedAs na masterPw) reqs entries)
    (he : e ∈ entries) :
    ∃ r ∈ reqs, SealedAs na masterPw r e := by
  induction h with
  | nil =>
      simp at he
  | cons hr _ ih =>
      rcases List.mem_cons.mp he with rfl | he
      · exact ⟨_, List.mem_cons_self, hr⟩
      · obtain ⟨r', hr', hsealed⟩ := ih he
        exact ⟨r', List.mem_cons_of_mem _ hr', hsealed⟩

theorem SealedAs.length_cipher
    {r : StoreRequest} {e : Entry}
    (haead : AeadCorrect na)
    (h : SealedAs na masterPw r e) :
    e.cipher.length = r.keyData.length + crypticMacLen := by
  obtain ⟨wrapKey, _, hcipher⟩ := h.cipher
  rw [hcipher]
  exact haead.length_encrypt _ _ _

/-- The longest key whose ciphertext length fits the length field. -/
def KeyFits (r : StoreRequest) : Prop :=
  r.keyData.length < 2 ^ 32 - crypticMacLen

instance (r : StoreRequest) : Decidable (KeyFits r) :=
  inferInstanceAs (Decidable (_ < _))

theorem SealedAs.framed_iff
    {r : StoreRequest} {e : Entry}
    (haead : AeadCorrect na)
    (h : SealedAs na masterPw r e) :
    e.Framed ↔ KeyFits r := by
  have hmac : crypticMacLen = 16 := rfl
  rw [Entry.Framed, KeyFits, h.length_cipher haead, hmac]
  omega

/-- Entries of keys that fit and have other names are skipped. -/
theorem skips_of_names
    {pre : List StoreRequest} {name : CString} {entries : List Entry}
    (haead : AeadCorrect na)
    (hnames : ∀ q ∈ pre, q.name ≠ name)
    (hfits : ∀ q ∈ pre, KeyFits q)
    (hpre : List.Forall₂ (SealedAs na masterPw) pre entries) :
    ∀ p ∈ entries, p.name ≠ name ∧ p.Framed := by
  intro p hp
  obtain ⟨q, hq, hqp⟩ := exists_request hpre hp
  exact ⟨hqp.name ▸ hnames q hq, (hqp.framed_iff haead).mpr (hfits q hq)⟩

/-- In a run with distinct names, the keys in front of one have other names. -/
theorem names_ne_of_distinct
    {pre post : List StoreRequest} {r : StoreRequest}
    (hdistinct : ((pre ++ r :: post).map StoreRequest.name).Nodup) :
    ∀ q ∈ pre, q.name ≠ r.name := by
  intro q hq
  rw [List.map_append, List.map_cons, List.nodup_append] at hdistinct
  exact hdistinct.2.2 _ (List.mem_map_of_mem hq) _ List.mem_cons_self

/-- What a run of stores into an empty keystore leaves on disk. -/
theorem run_stores_empty
    {fs fs' : FileSystem} {reqs : List StoreRequest}
    (hempty : (fs keystorePath).getD [] = [])
    (hshort : ∀ r ∈ reqs, r.name.strlen < keystoreNameMax)
    (hrun : Transition.run (storeStep na masterPw) fs reqs = some fs') :
    ∃ entries,
      List.Forall₂ (SealedAs na masterPw) reqs entries ∧
        (fs' keystorePath).getD [] = logBytes entries ∧
        (reqs ≠ [] →
          keystoreMasterVerify na masterPw fs' = true ∧
            fs' keystorePath = some (logBytes entries)) := by
  obtain ⟨entries, hsealed, hlog, hmaster, hsome⟩ :=
    run_stores [] hempty hshort hrun
  rw [List.nil_append] at hlog
  refine ⟨entries, hsealed, hlog, ?_⟩
  intro hne
  obtain ⟨hverify, hfile⟩ := hsome hne
  rw [← keystoreMasterVerify_congr hmaster] at hverify
  obtain ⟨content, hcontent⟩ := Option.isSome_iff_exists.mp hfile
  rw [hcontent, Option.getD_some] at hlog
  exact ⟨hverify, hlog ▸ hcontent⟩

end Stores

section Retrieval

variable {na : Sodium} {masterPw name : CString} {fs : FileSystem}

/-- What `keystore_retrieve` makes of the first entry with the name: it decrypts as many
bytes as the length field says, unless that is zero. -/
theorem keystoreRetrieve_found
    (pre : List Entry) {post : List Entry} {e : Entry}
    (hverify : keystoreMasterVerify na masterPw fs = true)
    (hlog : fs keystorePath = some (logBytes (pre ++ e :: post)))
    (hpre : ∀ p ∈ pre, p.name ≠ name ∧ p.Framed)
    (he : e.name = name) :
    keystoreRetrieve na .ok name masterPw fs =
      (normalKey na masterPw e.salt).bind fun wrapKey =>
        if e.encLen = 0 then none
        else cryptoDecryptBuffer na (e.cipher.take e.encLen) e.nonce wrapKey := by
  have hread : fs.readFile keystorePath = some (logBytes (pre ++ e :: post)) :=
    FileSystem.readFile_eq_some_iff.mpr ⟨by decide, hlog⟩
  obtain ⟨f, hfind, hrest⟩ := findEntry_found post hpre he
  have hle : e.encLen ≤ e.cipher.length := Nat.mod_le _ _
  have hcut :
      f.rest = e.cipher.take e.encLen ++ (e.cipher.drop e.encLen ++ logBytes post) := by
    rw [hrest, ← List.append_assoc, List.take_append_drop]
  obtain ⟨f', hcipher, -⟩ :=
    Stream.freadExact_of_rest hcut (by rw [List.length_take, Nat.min_eq_left hle])
  generalize logBytes (pre ++ e :: post) = content at hread hfind
  cases hkey : normalKey na masterPw e.salt with
  | none =>
      simp [keystoreRetrieve, hverify, hread, hfind, hcipher, RetrieveOutcome.ok,
        Entry.head, hkey]
  | some wrapKey =>
      by_cases hzero : e.encLen = 0 <;>
        simp [keystoreRetrieve, hverify, hread, hfind, hcipher, RetrieveOutcome.ok,
          Entry.head, hkey, hzero]

/-- A stored key is retrieved under the password that sealed it. -/
theorem keystoreRetrieve_sealed
    {pre post : List Entry} {e : Entry} {r : StoreRequest}
    (haead : AeadCorrect na)
    (hverify : keystoreMasterVerify na masterPw fs = true)
    (hlog : fs keystorePath = some (logBytes (pre ++ e :: post)))
    (hpre : ∀ p ∈ pre, p.name ≠ r.name ∧ p.Framed)
    (hsealed : SealedAs na masterPw r e)
    (hframed : e.Framed) :
    keystoreRetrieve na .ok r.name masterPw fs = some r.keyData := by
  obtain ⟨wrapKey, hkey, hcipher⟩ := hsealed.cipher
  have hlen := hsealed.length_cipher haead
  have hfull : e.cipher.take e.encLen = e.cipher := by
    rw [Entry.encLen_of_framed hframed, List.take_length]
  have hpos : e.encLen ≠ 0 := by
    rw [Entry.encLen_of_framed hframed, hlen]
    simp [crypticMacLen]
  rw [keystoreRetrieve_found pre hverify hlog hpre hsealed.name, hkey, Option.bind_some,
    if_neg hpos, hfull, hcipher]
  exact haead.decrypt_encrypt _ _ _

/-- Every key of a run of stores is retrieved, when the names are distinct and the keys
fit. -/
theorem keystoreRetrieve_of_mem
    {reqs : List StoreRequest} {entries : List Entry} {r : StoreRequest}
    (haead : AeadCorrect na)
    (hsealed : List.Forall₂ (SealedAs na masterPw) reqs entries)
    (hdistinct : (reqs.map StoreRequest.name).Nodup)
    (hfits : ∀ q ∈ reqs, KeyFits q)
    (hverify : keystoreMasterVerify na masterPw fs = true)
    (hlog : fs keystorePath = some (logBytes entries))
    (hr : r ∈ reqs) :
    keystoreRetrieve na .ok r.name masterPw fs = some r.keyData := by
  obtain ⟨pre, post, rfl⟩ := List.append_of_mem hr
  obtain ⟨pre', e, post', rfl, hpre, hre⟩ := sealed_split hsealed
  have hskip :=
    skips_of_names haead (names_ne_of_distinct hdistinct) (fun q hq => hfits q (by simp [hq])) hpre
  exact keystoreRetrieve_sealed haead hverify hlog hskip hre
    ((hre.framed_iff haead).mpr (hfits r hr))

/-- A name that no entry has is not retrieved. -/
theorem keystoreRetrieve_absent
    {o : RetrieveOutcome} {entries : List Entry}
    (hlog : (fs keystorePath).getD [] = logBytes entries)
    (hall : ∀ e ∈ entries, e.name ≠ name ∧ e.Framed) :
    keystoreRetrieve na o name masterPw fs = none := by
  have habsent := findEntry_absent hall
  rw [← hlog] at habsent
  cases hfile : fs keystorePath with
  | none =>
      simp [keystoreRetrieve, FileSystem.readFile, hfile]
  | some content =>
      simp only [hfile, Option.getD_some] at habsent
      simp [keystoreRetrieve, FileSystem.readFile, hfile, habsent]

/-- `keystore_list` describes the first entries of the keystore. -/
theorem keystoreList_log
    {entries : List Entry}
    (hlog : (fs keystorePath).getD [] = logBytes entries)
    (hall : ∀ e ∈ entries, e.Listable) :
    keystoreList fs = (entries.take keystoreMaxKeys).map Entry.info := by
  have hne : keystorePath.bytes ≠ [] := by decide
  cases hfile : fs keystorePath with
  | none =>
      have hempty : entries = [] := by
        rw [hfile] at hlog
        have hlen := length_le_logBytes entries
        rw [← hlog] at hlen
        exact List.eq_nil_of_length_eq_zero (by simpa using hlen)
      simp [keystoreList, FileSystem.readFile, hfile, hempty]
  | some content =>
      rw [hfile, Option.getD_some] at hlog
      simp [keystoreList, FileSystem.readFile, hfile, hlog, hne,
        listEntries_logBytes hall]

end Retrieval

section RoundTrip

/-- What `keystore_list` tells of a stored key. -/
def StoreRequest.info (r : StoreRequest) : KeyInfo where
  name := r.name
  type := r.type.toU32
  keyLen := r.keyData.length + crypticMacLen
  createdAt := r.time
  lastUsed := 0
  locked := false

theorem SealedAs.info_eq
    {na : Sodium} {masterPw : CString} {r : StoreRequest} {e : Entry}
    (haead : AeadCorrect na)
    (h : SealedAs na masterPw r e)
    (hframed : e.Framed) :
    e.info = r.info := by
  simp [Entry.info, StoreRequest.info, h.name, h.type, h.createdAt,
    Entry.encLen_of_framed hframed, h.length_cipher haead]

/-- The entries of a run of stores are described as its calls. -/
theorem map_info_eq
    {na : Sodium} {masterPw : CString}
    {reqs : List StoreRequest} {entries : List Entry}
    (haead : AeadCorrect na)
    (h : List.Forall₂ (SealedAs na masterPw) reqs entries)
    (hframed : ∀ e ∈ entries, e.Framed) :
    entries.map Entry.info = reqs.map StoreRequest.info := by
  induction h with
  | nil =>
      rfl
  | cons hr _ ih =>
      rw [List.map_cons, List.map_cons,
        hr.info_eq haead (hframed _ List.mem_cons_self),
        ih fun e he => hframed e (List.mem_cons_of_mem _ he)]

/--
**The keystore log.**

After any run of successful stores under one master password into an empty keystore,
with distinct short names and key lengths up to `2 ^ 32 - 57`, every stored name is
retrieved with exactly its key data, no other name is, and the listing tells of the
first stores in order.
-/
theorem keystore_log_roundtrip
    (na : Sodium)
    (haead : AeadCorrect na)
    (masterPw : CString)
    (fs fs' : FileSystem)
    (hempty : (fs keystorePath).getD [] = [])
    (reqs : List StoreRequest)
    (hrun : Transition.run (storeStep na masterPw) fs reqs = some fs')
    (hdistinct : (reqs.map StoreRequest.name).Nodup)
    (hshort : ∀ r ∈ reqs, r.name.strlen < keystoreNameMax)
    (hlen :
      ∀ r ∈ reqs, 1 ≤ r.keyData.length ∧ r.keyData.length ≤ 2 ^ 32 - 57) :
    (∀ r ∈ reqs, keystoreRetrieve na .ok r.name masterPw fs' = some r.keyData)
      ∧
    (∀ o name,
      name ∉ reqs.map StoreRequest.name →
      keystoreRetrieve na o name masterPw fs' = none)
      ∧
    keystoreList fs' = (reqs.take keystoreMaxKeys).map StoreRequest.info := by
  obtain ⟨entries, hsealed, hlog, hfile⟩ := run_stores_empty hempty hshort hrun
  have hfits : ∀ r ∈ reqs, KeyFits r := by
    intro r hr
    have hmax := (hlen r hr).2
    simp only [KeyFits, crypticMacLen]
    omega
  have hlistable : ∀ e ∈ entries, e.Listable := by
    intro e he
    obtain ⟨r, hr, hre⟩ := exists_request hsealed he
    have hcipher := hre.length_cipher haead
    have hmax := (hlen r hr).2
    simp only [Entry.Listable, hcipher, crypticSaltLen, crypticNonceLen, crypticMacLen]
    omega
  have hframed : ∀ e ∈ entries, e.Framed :=
    fun e he => Entry.framed_of_listable (hlistable e he)
  refine ⟨?_, ?_, ?_⟩
  · intro r hr
    obtain ⟨hverify, hcontent⟩ := hfile (List.ne_nil_of_mem hr)
    exact keystoreRetrieve_of_mem haead hsealed hdistinct hfits hverify hcontent hr
  · intro o name hname
    refine keystoreRetrieve_absent hlog fun e he => ⟨?_, hframed e he⟩
    obtain ⟨r, hr, hre⟩ := exists_request hsealed he
    rintro rfl
    exact hname (hre.name ▸ List.mem_map_of_mem hr)
  · rw [keystoreList_log hlog hlistable, List.map_take, List.map_take,
      map_info_eq haead hsealed hframed]

/-- The master password of the examples. -/
def examplePw : CString :=
  cstr (ascii "0123456789abcdef")

/-- A file system with a master file for it and no keys. -/
def exampleMaster : FileSystem :=
  FileSystem.writeFile (fun _ => none) keystoreMasterPath (examplePw.bytes ++ [10])

/-- A request to store the one-byte key `b` under the one-byte name `b`. -/
def exampleStore (b : UInt8) : StoreRequest where
  name := cstr [b]
  type := .signing
  keyData := [b]
  salt := Block.zero 16
  nonce := Block.zero 24
  time := 0

/-- Two keys are stored and the second is retrieved. -/
theorem keystore_log_two_keys :
    ∃ fs',
      Transition.run (storeStep mirror examplePw) exampleMaster
          [exampleStore 1, exampleStore 2] = some fs' ∧
        keystoreRetrieve mirror .ok (cstr [2]) examplePw fs' = some [2] := by
  have hsome :
      (Transition.run (storeStep mirror examplePw) exampleMaster
        [exampleStore 1, exampleStore 2]).isSome = true := by
    decide +kernel
  obtain ⟨fs', hrun⟩ := Option.isSome_iff_exists.mp hsome
  have hround :=
    keystore_log_roundtrip mirror mirror_aeadIdeal.toAeadCorrect examplePw exampleMaster
      fs' (by decide) [exampleStore 1, exampleStore 2] hrun (by decide) (by decide)
      (by decide)
  exact ⟨fs', hrun, hround.1 (exampleStore 2) (by simp)⟩

end RoundTrip

end KeyStorage
end SecureZ
