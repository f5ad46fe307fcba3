import SecureZ.Engine.KeyReuse
import SecureZ.Engine.TrackerAccounting

/-!
# The accounts of retrieved keys

`keystore_retrieve` allocates as many bytes as the encrypted key has, and reports the length
of the key, which is shorter by the authentication tag.  The caller releases the buffer with
the length it was given, and the tracker takes that off its total.

The state here is the memory together with the buffers that the caller holds.  The main result
says in which runs of retrievals and releases the total is that of the allocated blocks in
every state, and what is left in the accounts when every buffer has been released.
-/

namespace SecureZ
namespace SecureMemory

open CLib
open CryptoCore
open KeyStorage

section Model

/-- Outcomes of the allocations of `keystore_retrieve`: of the buffer for the encrypted key,
of the wrapping key and of the key, the latter two with their nodes. -/
structure RetrieveAllocs where
  malloc : Bool
  wrapMalloc : Option Nat
  wrapNode : Bool
  dataMalloc : Option Nat
  dataNode : Bool
deriving DecidableEq

/-- The part of `keystore_retrieve` before it allocates secure memory. -/
def locateEntry
    (na : Sodium) (malloc : Bool) (name masterPw : CString) (fs : FileSystem) :
    Option (EntryHead × Bytes) := do
  guard (keystoreMasterVerify na masterPw fs = true)
  let content ← fs.readFile keystorePath
  let (head, f) ← findEntry name content
  guard malloc
  let (encrypted, _) ← f.freadExact head.encLen
  return (head, encrypted)

/-- The size of the wrapping key. -/
def wrapSize : SizeT := BitVec.ofNat 64 crypticKeyLen

/-- The rest of it: the buffer with the key, and the memory. -/
def unwrapInto
    (na : Sodium) (a : RetrieveAllocs) (masterPw : CString) (head : EntryHead)
    (encrypted : Bytes) (m : Memory) :
    Option (Pointer × Bytes) × Memory :=
  let ptAlloc := BitVec.ofNat 64 head.encLen
  match secureAlloc m wrapSize a.wrapMalloc a.wrapNode with
  | (none, m) => (none, m)
  | (some wrapPtr, m) =>
      match normalKey na masterPw head.salt with
      | none => (none, secureFree m (some wrapPtr) wrapSize)
      | some wrapKey =>
          match secureAlloc m ptAlloc a.dataMalloc a.dataNode with
          | (none, m) => (none, secureFree m (some wrapPtr) wrapSize)
          | (some keyData, m) =>
              let m := secureFree m (some wrapPtr) wrapSize
              match cryptoDecryptBuffer na encrypted head.nonce wrapKey with
              | none => (none, secureFree m (some keyData) ptAlloc)
              | some key => (some (keyData, key), m)

/-- `keystore_retrieve` with the memory that it allocates. -/
def keystoreRetrieveInto
    (na : Sodium) (a : RetrieveAllocs) (name masterPw : CString) (fs : FileSystem)
    (m : Memory) :
    Option (Pointer × Bytes) × Memory :=
  match locateEntry na a.malloc name masterPw fs with
  | none => (none, m)
  | some (head, encrypted) => unwrapInto na a masterPw head encrypted m

/-- `sodium_malloc` may return what the call gets. -/
def retrieveGranted
    (na : Sodium) (a : RetrieveAllocs) (name masterPw : CString) (fs : FileSystem)
    (m : Memory) : Bool :=
  match locateEntry na a.malloc name masterPw fs with
  | none => true
  | some (head, _) =>
      let m₁ := (secureAlloc m wrapSize a.wrapMalloc a.wrapNode).2
      (a.wrapMalloc.all fun addr => m.grants ⟨⟨addr, m.allocs⟩, wrapSize⟩) &&
        a.dataMalloc.all fun addr =>
          m₁.grants ⟨⟨addr, m₁.allocs⟩, BitVec.ofNat 64 head.encLen⟩

/-- A buffer that the caller holds, with the length it was given; whether the buffer is tracked
is known to nobody. -/
structure Buffer where
  keyData : Pointer
  keyLen : SizeT
  tracked : Bool
deriving DecidableEq

/-- The memory, the buffers that the caller holds, and the number of tracked ones that it has
released. -/
structure CallerState where
  memory : Memory
  held : List Buffer
  released : Nat
deriving DecidableEq

/-- The caller holds nothing yet. -/
def CallerState.start (m : Memory) : CallerState := ⟨m, [], 0⟩

/-- What the caller does. -/
inductive CallerEvent
  /-- `keystore_retrieve`, with the files at that time. -/
  | retrieve (a : RetrieveAllocs) (name masterPw : CString) (fs : FileSystem)
  /-- `secure_free(key_data, key_len)`. -/
  | release (b : Buffer)

/-- A step of the caller. -/
def callerStep (na : Sodium) (s : CallerState) : CallerEvent → Option CallerState
  | .retrieve a name masterPw fs =>
      if retrieveGranted na a name masterPw fs s.memory then
        match keystoreRetrieveInto na a name masterPw fs s.memory with
        | (none, m) => some { s with memory := m }
        | (some (keyData, key), m) =>
            some { s with
              memory := m
              held := ⟨keyData, BitVec.ofNat 64 key.length, a.dataNode⟩ :: s.held }
      else none
  | .release b =>
      if s.held.contains b then
        some
          { memory := secureFree s.memory (some b.keyData) b.keyLen
            held := s.held.erase b
            released := if b.tracked then s.released + 1 else s.released }
      else none

end Model

section Specification

/-- The total that is reported is that of the allocated blocks. -/
def Balanced (m : Memory) : Prop :=
  (secureMemoryStats m).2.toNat = sizes m.live

instance (m : Memory) : Decidable (Balanced m) :=
  inferInstanceAs (Decidable (_ = _))

/-- So it is in every state of the run. -/
def AlwaysBalanced (na : Sodium) (m : Memory) (events : List CallerEvent) : Prop :=
  ∀ pre post s,
    events = pre ++ post →
    Transition.run (callerStep na) (.start m) pre = some s →
    Balanced s.memory

/-- The condition on a step: a buffer that is returned is tracked, and none is released. -/
def AccountsOk (na : Sodium) (s : CallerState) : CallerEvent → Prop
  | .retrieve a name masterPw fs =>
      (keystoreRetrieveInto na a name masterPw fs s.memory).1.isSome = true → a.dataNode = true
  | .release _ => False

/-- What libsodium documents of `crypto_aead_xchacha20poly1305_ietf_decrypt`: the message is
shorter than the ciphertext by the tag. -/
def DecryptLength (na : Sodium) : Prop :=
  ∀ c nonce key m,
    na.aeadDecrypt c nonce key = some m →
    m.length + crypticMacLen = c.length

end Specification

section Refinement

variable {na : Sodium} {a : RetrieveAllocs} {name masterPw : CString} {fs : FileSystem}
  {m : Memory}

/-- What `keystore_retrieve` makes of the entry, when its allocations have the outcomes. -/
def unwrapFound
    (na : Sodium) (o : RetrieveOutcome) (masterPw : CString) (found : EntryHead × Bytes) :
    Option Bytes := do
  guard o.secureAllocKey
  let wrapKey ← normalKey na masterPw found.1.salt
  guard (o.secureAllocData ∧ found.1.encLen ≠ 0)
  cryptoDecryptBuffer na found.2 found.1.nonce wrapKey

/-- What is retrieved with the memory is what `keystore_retrieve` returns. -/
theorem keystoreRetrieveInto_refines
    (na : Sodium) (a : RetrieveAllocs) (name masterPw : CString) (fs : FileSystem)
    (m : Memory) :
    ∃ o,
      keystoreRetrieve na o name masterPw fs =
        (keystoreRetrieveInto na a name masterPw fs m).1.map Prod.snd := by
  have hlocate :
      ∀ o : RetrieveOutcome,
        keystoreRetrieve na o name masterPw fs =
          (locateEntry na o.malloc name masterPw fs).bind (unwrapFound na o masterPw) := by
    intro o
    simp only [keystoreRetrieve, locateEntry, unwrapFound, Option.bind_eq_bind,
      Option.bind_assoc, Option.pure_def, Option.bind_some]
  unfold keystoreRetrieveInto
  cases hfound : locateEntry na a.malloc name masterPw fs with
  | none =>
      exact ⟨⟨a.malloc, true, true⟩, by rw [hlocate, hfound]; rfl⟩
  | some found =>
      obtain ⟨head, encrypted⟩ := found
      simp only [unwrapInto]
      rcases secureAlloc_cases m wrapSize a.wrapMalloc a.wrapNode with
        hwrap | ⟨w, -, -, -, -, hwrap⟩
      · refine ⟨⟨a.malloc, false, true⟩, ?_⟩
        rw [hlocate, hfound, hwrap]
        rfl
      rw [hwrap]
      cases hkey : normalKey na masterPw head.salt with
      | none =>
          refine ⟨⟨a.malloc, true, true⟩, ?_⟩
          rw [hlocate, hfound]
          simp [unwrapFound, hkey]
      | some wrapKey =>
          rcases secureAlloc_cases (m.addBlock w a.wrapNode) (BitVec.ofNat 64 head.encLen)
            a.dataMalloc a.dataNode with hdata | ⟨d, -, -, -, hsize, hdata⟩
          · refine ⟨⟨a.malloc, true, false⟩, ?_⟩
            rw [hlocate, hfound]
            simp [unwrapFound, hkey, hdata]
          · refine ⟨⟨a.malloc, true, true⟩, ?_⟩
            have hpos : head.encLen ≠ 0 := by
              rintro hzero
              simp [hzero] at hsize
            rw [hlocate, hfound]
            cases hplain : cryptoDecryptBuffer na encrypted head.nonce wrapKey <;>
              simp [unwrapFound, hkey, hdata, hpos, hplain]

end Refinement

section Blocks

variable {m : Memory} {b c : AllocNode}

/-- A node that is added and removed again leaves the tracker as it was. -/
theorem trackerRemove_trackerAdd
    {t : Tracker} {ptr : Pointer}
    (hfresh : ∀ n ∈ t.allocList, n.ptr.addr ≠ ptr.addr)
    (node : Bool) (size : SizeT) :
    trackerRemove (trackerAdd t node ptr size) ptr size = t := by
  cases node with
  | false =>
      have hnone : ¬ (t.allocList.any fun n => n.isAt ptr) = true := by
        rw [List.any_eq_true]
        rintro ⟨n, hn, hat⟩
        exact hfresh n hn (by simpa [AllocNode.isAt] using hat)
      exact if_neg hnone
  | true =>
      simp [trackerAdd, trackerRemove, AllocNode.isAt]

/-- A removal does not see a node that was added for another address. -/
theorem trackerRemove_trackerAdd_other
    {t : Tracker} {ptr ptr' : Pointer}
    (hother : ptr'.addr ≠ ptr.addr)
    (node : Bool) (size size' : SizeT) :
    trackerRemove (trackerAdd t node ptr' size') ptr size =
      trackerAdd (trackerRemove t ptr size) node ptr' size' := by
  have hat : AllocNode.isAt ⟨ptr', size'⟩ ptr = false := by simpa [AllocNode.isAt] using hother
  cases node with
  | false =>
      rfl
  | true =>
      simp only [trackerAdd, trackerRemove, if_true, List.any_cons, hat, Bool.false_or]
      split_ifs
      · rw [List.eraseP_cons_of_neg (by simp [hat])]
        congr 1 <;> bv_omega
      · rfl

/-- A block that may be allocated is at no address of one that is. -/
theorem addr_ne_of_grants
    (h : Sound m)
    (hgrants : m.grants b = true)
    (hsize : 0 < b.size.toNat) :
    ∀ n ∈ m.live, n.ptr.addr ≠ b.ptr.addr := by
  intro n hn haddr
  simp only [Memory.grants, Bool.and_eq_true, List.all_eq_true] at hgrants
  have hapart := hgrants.2 n hn
  have hn0 := h.nonempty n hn
  simp only [AllocNode.isApart, Bool.or_eq_true, decide_eq_true_eq] at hapart
  omega

/-- Releasing a block that was only added leaves no trace of it. -/
theorem secureFree_of_added
    {m' : Memory} {node : Bool}
    (hfresh : ∀ n ∈ m.tracker.allocList, n.ptr.addr ≠ b.ptr.addr)
    (htracker : m'.tracker = trackerAdd m.tracker node b.ptr b.size)
    (hlive : m'.live = b :: m.live) :
    (secureFree m' (some b.ptr) b.size).tracker = m.tracker ∧
      (secureFree m' (some b.ptr) b.size).live = m.live := by
  have hown : b.isAt b.ptr = true := by simp [AllocNode.isAt]
  constructor
  · simp only [secureFree]
    rw [htracker, trackerRemove_trackerAdd hfresh]
  · simp only [secureFree]
    rw [hlive, List.eraseP_cons, hown, cond_true]

/-- A block that is allocated and released at once leaves no trace. -/
theorem secureFree_addBlock
    (h : Sound m)
    (hgrants : m.grants b = true)
    (hsize : 0 < b.size.toNat)
    (node : Bool) :
    (secureFree (m.addBlock b node) (some b.ptr) b.size).tracker = m.tracker ∧
      (secureFree (m.addBlock b node) (some b.ptr) b.size).live = m.live :=
  secureFree_of_added
    (fun n hn => addr_ne_of_grants h hgrants hsize n (h.listed.subset hn)) rfl rfl

/-- Nor does one that was allocated just before another one that stays. -/
theorem secureFree_addBlock_addBlock
    (h : Sound m)
    (hgrants : m.grants b = true)
    (hsize : 0 < b.size.toNat)
    (hother : c.ptr.addr ≠ b.ptr.addr)
    (nodeB nodeC : Bool) :
    (secureFree ((m.addBlock b nodeB).addBlock c nodeC) (some b.ptr) b.size).tracker =
        trackerAdd m.tracker nodeC c.ptr c.size ∧
      (secureFree ((m.addBlock b nodeB).addBlock c nodeC) (some b.ptr) b.size).live =
        c :: m.live := by
  have hne := addr_ne_of_grants h hgrants hsize
  constructor
  · simp only [secureFree, Memory.addBlock]
    rw [trackerRemove_trackerAdd_other hother,
      trackerRemove_trackerAdd fun n hn => hne n (h.listed.subset hn)]
  · have hat : c.isAt b.ptr = false := by simpa [AllocNode.isAt] using hother
    have hown : b.isAt b.ptr = true := by simp [AllocNode.isAt]
    simp only [secureFree, Memory.addBlock]
    rw [List.eraseP_cons, hat, cond_false, List.eraseP_cons, hown, cond_true]

end Blocks

section Effect

variable {na : Sodium} {a : RetrieveAllocs} {name masterPw : CString} {fs : FileSystem}
  {m : Memory}

/-- What a call leaves: nothing but what was there, or also the block that it returns, whose
size is that of the key with the tag. -/
def Leaves (a : RetrieveAllocs) (m : Memory) (r : Option (Pointer × Bytes) × Memory) : Prop :=
  Sound r.2 ∧
    ((r.1 = none ∧ r.2.tracker = m.tracker ∧ r.2.live = m.live)
      ∨
    ∃ (b : AllocNode) (key : Bytes),
      r.1 = some (b.ptr, key) ∧
        b.size = BitVec.ofNat 64 (key.length + crypticMacLen) ∧
        key.length + crypticMacLen < 2 ^ 32 ∧
        (∀ n ∈ m.live, n.ptr.addr ≠ b.ptr.addr) ∧
        r.2.tracker = trackerAdd m.tracker a.dataNode b.ptr b.size ∧
        r.2.live = b :: m.live)

/-- The encrypted key is as long as its entry says. -/
theorem length_of_locateEntry
    {malloc : Bool} {head : EntryHead} {encrypted : Bytes}
    (h : locateEntry na malloc name masterPw fs = some (head, encrypted)) :
    encrypted.length = head.encLen := by
  simp only [locateEntry, Option.bind_eq_bind, Option.bind_eq_some_iff, Option.guard_eq_some',
    Option.pure_def, Option.some.injEq, Prod.mk.injEq] at h
  obtain ⟨-, -, content, -, ⟨head', f⟩, -, -, -, ⟨encrypted', f'⟩, hread, rfl, rfl⟩ := h
  exact (Stream.freadExact_eq_some hread).2.1

/-- The length in an entry has 32 bits. -/
theorem encLen_lt_of_locateEntry
    {malloc : Bool} {head : EntryHead} {encrypted : Bytes}
    (h : locateEntry na malloc name masterPw fs = some (head, encrypted)) :
    head.encLen < 2 ^ 32 := by
  simp only [locateEntry, Option.bind_eq_bind, Option.bind_eq_some_iff, Option.guard_eq_some',
    Option.pure_def, Option.some.injEq, Prod.mk.injEq] at h
  obtain ⟨-, -, content, -, ⟨head', f⟩, hfind, -, -, -, -, rfl, -⟩ := h
  obtain ⟨g, hturn⟩ := exists_done_of_iterate (Option.join_eq_some_iff.mp hfind)
  unfold retrieveTurn at hturn
  split_ifs at hturn with heof
  · simp at hturn
  split at hturn
  · simp at hturn
  rename_i head₁ f₁ hhead
  split_ifs at hturn
  obtain ⟨rfl, -⟩ := Prod.mk.inj (Option.some.inj (Turn.done.inj hturn))
  simp only [retrieveHead, Option.bind_eq_bind, Option.bind_eq_some_iff, Option.guard_eq_some',
    Option.pure_def, Option.some.injEq, Prod.mk.injEq] at hhead
  obtain ⟨_, _, _, _, _, _, _, _, _, _, ⟨encLen, _⟩, hread, _, _, _, _, rfl, _⟩ := hhead
  have hlen := (Stream.freadExact_eq_some hread).2.1
  have hlt := leNat_lt encLen
  rwa [hlen] at hlt

theorem unwrapInto_leaves
    {head : EntryHead} {encrypted : Bytes}
    (hdecrypt : DecryptLength na)
    (hsound : Sound m)
    (hlength : encrypted.length = head.encLen)
    (hshort : head.encLen < 2 ^ 32)
    (hwrapMalloc :
      (a.wrapMalloc.all fun addr => m.grants ⟨⟨addr, m.allocs⟩, wrapSize⟩) = true)
    (hdataMalloc :
      (a.dataMalloc.all fun addr =>
        (secureAlloc m wrapSize a.wrapMalloc a.wrapNode).2.grants
          ⟨⟨addr, (secureAlloc m wrapSize a.wrapMalloc a.wrapNode).2.allocs⟩,
            BitVec.ofNat 64 head.encLen⟩) = true) :
    Leaves a m (unwrapInto na a masterPw head encrypted m) := by
  unfold unwrapInto
  rcases secureAlloc_granted hwrapMalloc a.wrapNode with hwrap | ⟨w, hwsize, hwpos, hwgrants, hwrap⟩
  · rw [hwrap]
    exact ⟨hsound, .inl ⟨rfl, rfl, rfl⟩⟩
  have hsound₁ := sound_addBlock hsound hwgrants hwpos a.wrapNode
  rw [hwrap] at hdataMalloc ⊢
  rw [← hwsize]
  have hback := secureFree_addBlock hsound hwgrants hwpos a.wrapNode
  have hfreed := sound_secureFree hsound₁ (some w.ptr) w.size
  cases hkey : normalKey na masterPw head.salt with
  | none =>
      exact ⟨hfreed, .inl ⟨rfl, hback⟩⟩
  | some wrapKey =>
      rcases secureAlloc_granted hdataMalloc a.dataNode with
        hdata | ⟨d, hdsize, hdpos, hdgrants, hdata⟩
      · simp only [hdata]
        exact ⟨hfreed, .inl ⟨rfl, hback⟩⟩
      have hsound₂ := sound_addBlock hsound₁ hdgrants hdpos a.dataNode
      have hnew := addr_ne_of_grants hsound₁ hdgrants hdpos
      have hother : d.ptr.addr ≠ w.ptr.addr := (hnew w List.mem_cons_self).symm
      obtain ⟨htracker, hlive⟩ :=
        secureFree_addBlock_addBlock hsound hwgrants hwpos hother a.wrapNode a.dataNode
      have hsound₃ := sound_secureFree hsound₂ (some w.ptr) w.size
      simp only [hdata]
      cases hplain : cryptoDecryptBuffer na encrypted head.nonce wrapKey with
      | none =>
          have hfreed' := sound_secureFree hsound₃ (some d.ptr) (BitVec.ofNat 64 head.encLen)
          rw [← hdsize] at hfreed' ⊢
          exact ⟨hfreed', .inl ⟨rfl, secureFree_of_added
            (fun n hn => hnew n (List.mem_cons_of_mem _ (hsound.listed.subset hn)))
            htracker hlive⟩⟩
      | some key =>
          have hkeylen : key.length + crypticMacLen = head.encLen := by
            rw [hdecrypt _ _ _ _ hplain, hlength]
          refine ⟨hsound₃, .inr ⟨d, key, rfl, ?_, ?_, ?_, htracker, hlive⟩⟩
          · rw [hkeylen, hdsize]
          · rw [hkeylen]
            exact hshort
          · exact fun n hn => hnew n (List.mem_cons_of_mem _ hn)

/-- Every call that `sodium_malloc` allows leaves that. -/
theorem keystoreRetrieveInto_leaves
    (hdecrypt : DecryptLength na)
    (hsound : Sound m)
    (hgranted : retrieveGranted na a name masterPw fs m = true) :
    Leaves a m (keystoreRetrieveInto na a name masterPw fs m) := by
  unfold retrieveGranted at hgranted
  unfold keystoreRetrieveInto
  cases hfound : locateEntry na a.malloc name masterPw fs with
  | none =>
      exact ⟨hsound, .inl ⟨rfl, rfl, rfl⟩⟩
  | some found =>
      obtain ⟨head, encrypted⟩ := found
      simp only [hfound, Bool.and_eq_true] at hgranted
      exact unwrapInto_leaves hdecrypt hsound (length_of_locateEntry hfound)
        (encLen_lt_of_locateEntry hfound) hgranted.1 hgranted.2

end Effect

section Invariant

/-- The block of a buffer: the length that the caller was given is that of the key. -/
def Buffer.node (b : Buffer) : AllocNode :=
  ⟨b.keyData, b.keyLen + BitVec.ofNat 64 crypticMacLen⟩

/-- The list holds the nodes of the tracked buffers and those of `base`, and the total has one
tag too many for each tracked buffer that was released. -/
structure CallerInv (base : List AllocNode) (s : CallerState) : Prop where
  sound : Sound s.memory
  short : ∀ b ∈ s.held, b.keyLen.toNat + crypticMacLen < 2 ^ 32
  live : ∀ b ∈ s.held, b.node ∈ s.memory.live
  listed : ∀ b ∈ s.held, b.node ∈ s.memory.tracker.allocList ↔ b.tracked = true
  distinct : s.held.Pairwise fun b c => b.keyData.addr ≠ c.keyData.addr
  perm :
    s.memory.tracker.allocList.Perm
      ((s.held.filter Buffer.tracked).map Buffer.node ++ base)
  total :
    s.memory.tracker.allocTotalBytes =
      bytes s.memory.tracker.allocList + BitVec.ofNat 64 (crypticMacLen * s.released)

variable {na : Sodium} {base : List AllocNode} {s s' : CallerState} {b : Buffer}

theorem Buffer.size_node
    (hshort : b.keyLen.toNat + crypticMacLen < 2 ^ 32) :
    b.node.size.toNat = b.keyLen.toNat + crypticMacLen := by
  have hmac : crypticMacLen = 16 := rfl
  rw [hmac] at hshort ⊢
  simp only [Buffer.node, hmac, BitVec.toNat_add, BitVec.toNat_ofNat]
  omega

/-- The other buffers are at other addresses. -/
theorem CallerInv.addr_ne
    (h : CallerInv base s)
    (hb : b ∈ s.held)
    {c : Buffer}
    (hc : c ∈ s.held.erase b) :
    c ∈ s.held ∧ c.keyData.addr ≠ b.keyData.addr := by
  have hnodup : s.held.Nodup := by
    refine h.distinct.imp fun {c d} hne heq => hne ?_
    rw [heq]
  obtain ⟨hne, hmem⟩ := hnodup.mem_erase_iff.mp hc
  have hsymm : Std.Symm fun b c : Buffer => b.keyData.addr ≠ c.keyData.addr :=
    ⟨fun _ _ h => h.symm⟩
  exact ⟨hmem, h.distinct.forall hmem hb hne⟩

/-- What stays at its address through a release. -/
theorem mem_eraseP_node
    {c : Buffer} {nodes : List AllocNode}
    (hne : c.keyData.addr ≠ b.keyData.addr) :
    c.node ∈ nodes.eraseP (fun n : AllocNode => n.isAt b.keyData) ↔ c.node ∈ nodes := by
  have hat : ¬ c.node.isAt b.keyData = true := by simpa [AllocNode.isAt, Buffer.node] using hne
  exact List.mem_eraseP_of_neg (p := fun n : AllocNode => n.isAt b.keyData) hat

/-- A memory with the same blocks, listed alike, keeps the invariant. -/
theorem inv_of_same
    {m : Memory}
    (h : CallerInv base s)
    (hsound : Sound m)
    (htracker : m.tracker = s.memory.tracker)
    (hlive : m.live = s.memory.live) :
    CallerInv base { s with memory := m } where
  sound := hsound
  short := h.short
  live := by
    rw [hlive]
    exact h.live
  listed := by
    rw [htracker]
    exact h.listed
  distinct := h.distinct
  perm := by
    rw [htracker]
    exact h.perm
  total := by
    rw [htracker]
    exact h.total

/-- A new block keeps it when the caller holds the block. -/
theorem inv_hold
    {m : Memory} {node : Bool} {n : AllocNode}
    (h : CallerInv base s)
    (hsound : Sound m)
    (hnode : b.node = n)
    (hflag : b.tracked = node)
    (hshort : b.keyLen.toNat + crypticMacLen < 2 ^ 32)
    (hnew : ∀ k ∈ s.memory.live, k.ptr.addr ≠ n.ptr.addr)
    (htracker : m.tracker = trackerAdd s.memory.tracker node n.ptr n.size)
    (hlive : m.live = n :: s.memory.live) :
    CallerInv base { s with memory := m, held := b :: s.held } := by
  subst hnode hflag
  have hother : ∀ c ∈ s.held, c.node ≠ b.node := by
    intro c hc heq
    exact hnew c.node (h.live c hc) (by rw [heq])
  have hlist :
      m.tracker.allocList =
        if b.tracked then b.node :: s.memory.tracker.allocList
        else s.memory.tracker.allocList := by
    rw [htracker, allocList_trackerAdd]
  refine ⟨hsound, ?_, ?_, ?_, ?_, ?_, ?_⟩
  · exact List.forall_mem_cons.mpr ⟨hshort, h.short⟩
  · rw [List.forall_mem_cons, hlive]
    exact ⟨List.mem_cons_self, fun c hc => List.mem_cons_of_mem _ (h.live c hc)⟩
  · rw [List.forall_mem_cons, hlist]
    cases hflag : b.tracked with
    | true =>
        refine ⟨by simp, fun c hc => ?_⟩
        rw [if_pos rfl, List.mem_cons, or_iff_right (hother c hc)]
        exact h.listed c hc
    | false =>
        refine ⟨?_, h.listed⟩
        rw [if_neg (by decide)]
        refine ⟨fun hmem => absurd rfl (hnew b.node (h.sound.listed.subset hmem)), ?_⟩
        simp
  · refine List.pairwise_cons.mpr ⟨fun c hc heq => ?_, h.distinct⟩
    exact hnew c.node (h.live c hc) heq.symm
  · rw [hlist]
    cases hflag : b.tracked with
    | true =>
        simp only [if_true, List.filter_cons_of_pos hflag, List.map_cons, List.cons_append]
        exact h.perm.cons b.node
    | false =>
        have hskip : ¬ b.tracked = true := by simp [hflag]
        rw [if_neg (by decide), List.filter_cons_of_neg hskip]
        exact h.perm
  · rw [hlist, htracker]
    cases hflag : b.tracked with
    | true =>
        simp only [trackerAdd, if_true, bytes_cons, h.total]
        rw [BitVec.add_comm, BitVec.add_assoc]
    | false =>
        exact h.total

/-- A retrieval keeps the invariant. -/
theorem inv_retrieve
    {a : RetrieveAllocs} {r : Option (Pointer × Bytes) × Memory}
    (h : CallerInv base s)
    (hleaves : Leaves a s.memory r) :
    (r.1 = none → CallerInv base { s with memory := r.2 }) ∧
      ∀ keyData key,
        r.1 = some (keyData, key) →
        CallerInv base
          { s with
            memory := r.2
            held := ⟨keyData, BitVec.ofNat 64 key.length, a.dataNode⟩ :: s.held } := by
  obtain ⟨hsound, hfailed | hfound⟩ := hleaves
  · obtain ⟨hnone, htracker, hlive⟩ := hfailed
    refine ⟨fun _ => inv_of_same h hsound htracker hlive, fun keyData key hsome => ?_⟩
    rw [hnone] at hsome
    cases hsome
  · obtain ⟨n, key, hsome, hsize, hshort, hnew, htracker, hlive⟩ := hfound
    refine ⟨fun hnone => ?_, fun keyData key' hsome' => ?_⟩
    · rw [hnone] at hsome
      cases hsome
    obtain ⟨rfl, rfl⟩ := Prod.mk.inj (Option.some.inj (hsome.symm.trans hsome'))
    have hnode : Buffer.node ⟨n.ptr, BitVec.ofNat 64 key.length, a.dataNode⟩ = n := by
      rw [Buffer.node, ← BitVec.ofNat_add, ← hsize]
    refine inv_hold h hsound hnode rfl ?_ hnew htracker hlive
    rw [BitVec.toNat_ofNat, Nat.mod_eq_of_lt (by omega)]
    exact hshort

/-- The tracked buffers without one. -/
theorem perm_filter_erase
    {held : List Buffer}
    (hb : b ∈ held)
    (htracked : b.tracked = true) :
    ((held.filter Buffer.tracked).map Buffer.node).Perm
      (b.node :: ((held.erase b).filter Buffer.tracked).map Buffer.node) := by
  have hperm := ((List.perm_cons_erase hb).filter Buffer.tracked).map Buffer.node
  rwa [List.filter_cons_of_pos htracked, List.map_cons] at hperm

/-- An untracked buffer is not among them. -/
theorem perm_filter_erase_untracked
    {held : List Buffer}
    (hb : b ∈ held)
    (huntracked : b.tracked = false) :
    ((held.filter Buffer.tracked).map Buffer.node).Perm
      (((held.erase b).filter Buffer.tracked).map Buffer.node) := by
  have hperm := ((List.perm_cons_erase hb).filter Buffer.tracked).map Buffer.node
  rwa [List.filter_cons_of_neg (by simp [huntracked])] at hperm

/-- What the release of a buffer leaves in the tracker: a tracked one goes with the length of
the key, which leaves its tag in the total. -/
theorem tracker_release
    (h : CallerInv base s)
    (hb : b ∈ s.held) :
    (b.tracked = true →
        ∃ front rest,
          s.memory.tracker.allocList = front ++ b.node :: rest ∧
            (secureFree s.memory (some b.keyData) b.keyLen).tracker.allocList = front ++ rest ∧
            (secureFree s.memory (some b.keyData) b.keyLen).tracker.allocTotalBytes =
              s.memory.tracker.allocTotalBytes - b.keyLen)
      ∧
    (b.tracked = false →
      (secureFree s.memory (some b.keyData) b.keyLen).tracker = s.memory.tracker) := by
  have hany := any_isAt_iff h.sound (h.live b hb)
  rw [h.listed b hb] at hany
  constructor
  · intro htracked
    obtain ⟨front, rest, hsplit, herase⟩ :=
      split_of_mem h.sound h.sound.listed ((h.listed b hb).mpr htracked)
    refine ⟨front, rest, hsplit, ?_, ?_⟩
    · simp only [secureFree, allocList_trackerRemove]
      exact herase
    · simp only [secureFree]
      unfold trackerRemove
      exact congrArg Tracker.allocTotalBytes (if_pos (hany.mpr htracked))
  · intro huntracked
    have hnone := mt hany.mp (by simp [huntracked])
    simp only [secureFree]
    unfold trackerRemove
    exact if_neg hnone

/-- A release keeps the invariant. -/
theorem inv_release
    (h : CallerInv base s)
    (hb : b ∈ s.held) :
    CallerInv base
      { memory := secureFree s.memory (some b.keyData) b.keyLen
        held := s.held.erase b
        released := if b.tracked then s.released + 1 else s.released } := by
  have hlist := allocList_trackerRemove s.memory.tracker b.keyData b.keyLen
  obtain ⟨htracked, huntracked⟩ := tracker_release h hb
  have hsound := sound_secureFree h.sound (some b.keyData) b.keyLen
  refine ⟨hsound, ?_, ?_, ?_, ?_, ?_, ?_⟩
  · exact fun c hc => h.short c (h.addr_ne hb hc).1
  · intro c hc
    obtain ⟨hmem, hne⟩ := h.addr_ne hb hc
    exact (mem_eraseP_node hne).mpr (h.live c hmem)
  · intro c hc
    obtain ⟨hmem, hne⟩ := h.addr_ne hb hc
    simp only [secureFree, hlist]
    rw [mem_eraseP_node hne]
    exact h.listed c hmem
  · exact h.distinct.sublist List.erase_sublist
  · cases hflag : b.tracked with
    | true =>
        obtain ⟨front, rest, hsplit, hleft, -⟩ := htracked hflag
        have hperm := h.perm
        rw [hsplit] at hperm
        rw [hleft]
        refine (List.Perm.cons_inv (a := b.node) ?_)
        exact List.perm_middle.symm.trans
          (hperm.trans ((perm_filter_erase hb hflag).append_right base))
    | false =>
        rw [huntracked hflag]
        exact h.perm.trans ((perm_filter_erase_untracked hb hflag).append_right base)
  · cases hflag : b.tracked with
    | true =>
        obtain ⟨front, rest, hsplit, hleft, htotal⟩ := htracked hflag
        have hbefore := h.total
        rw [hsplit, bytes_split] at hbefore
        rw [hleft, htotal, hbefore, if_pos rfl, Nat.mul_succ, BitVec.ofNat_add]
        simp only [Buffer.node]
        grind
    | false =>
        rw [huntracked hflag]
        exact h.total

/-- Every step keeps the invariant. -/
theorem inv_step
    {e : CallerEvent}
    (hdecrypt : DecryptLength na)
    (h : CallerInv base s)
    (hstep : callerStep na s e = some s') :
    CallerInv base s' := by
  cases e with
  | retrieve a name masterPw fs =>
      simp only [callerStep] at hstep
      split_ifs at hstep with hgranted
      obtain ⟨hnone, hsome⟩ :=
        inv_retrieve h (keystoreRetrieveInto_leaves hdecrypt h.sound hgranted)
      split at hstep
      · rename_i m hcall
        obtain rfl := Option.some.inj hstep
        rw [hcall] at hnone
        exact hnone rfl
      · rename_i keyData key m hcall
        obtain rfl := Option.some.inj hstep
        rw [hcall] at hsome
        exact hsome keyData key rfl
  | release b =>
      by_cases hheld : s.held.contains b = true
      · rw [callerStep, if_pos hheld, Option.some.injEq] at hstep
        exact hstep ▸ inv_release h (List.contains_iff_mem.mp hheld)
      · rw [callerStep, if_neg hheld] at hstep
        cases hstep

end Invariant

section Balance

variable {na : Sodium} {base : List AllocNode} {s s' : CallerState} {m : Memory}

/-- The bytes of a list do not depend on its order. -/
theorem bytes_perm
    {xs ys : List AllocNode}
    (h : xs.Perm ys) :
    bytes xs = bytes ys := by
  induction h with
  | nil =>
      rfl
  | cons n _ ih =>
      rw [bytes_cons, bytes_cons, ih]
  | swap n k nodes =>
      rw [bytes_cons, bytes_cons, bytes_cons, bytes_cons, ← BitVec.add_assoc,
        BitVec.add_comm k.size, BitVec.add_assoc]
  | trans _ _ ih₁ ih₂ =>
      exact ih₁.trans ih₂

/-- Every allocated block is in the list as far as its size goes, and no buffer that was tracked
has been released. -/
structure Clean (base : List AllocNode) (s : CallerState) : Prop extends CallerInv base s where
  untouched : s.released = 0
  allTracked : ∀ b ∈ s.held, b.tracked = true
  complete : sizes s.memory.live = sizes s.memory.tracker.allocList

/-- The total of such a state. -/
theorem toNat_total
    (h : CallerInv base s)
    (huntouched : s.released = 0) :
    s.memory.tracker.allocTotalBytes.toNat = sizes s.memory.tracker.allocList := by
  have hle := sizes_le_of_sublist h.sound.listed
  have hlt := sizes_live_lt h.sound
  rw [h.total, huntouched, Nat.mul_zero, BitVec.add_zero, toNat_bytes]
  exact Nat.mod_eq_of_lt (by omega)

theorem balanced_of_clean
    (h : Clean base s) :
    Balanced s.memory := by
  rw [Balanced, secureMemoryStats, toNat_total h.toCallerInv h.untouched, h.complete]

theorem inv_start
    (hsound : Sound m)
    (hsummed : Summed m) :
    CallerInv m.tracker.allocList (.start m) where
  sound := hsound
  short := by simp [CallerState.start]
  live := by simp [CallerState.start]
  listed := by simp [CallerState.start]
  distinct := List.Pairwise.nil
  perm := List.Perm.refl _
  total := by
    rw [CallerState.start, Nat.mul_zero, BitVec.add_zero]
    exact hsummed

theorem clean_start
    (hsound : Sound m)
    (hsummed : Summed m)
    (hbalanced : Balanced m) :
    Clean m.tracker.allocList (.start m) where
  toCallerInv := inv_start hsound hsummed
  untouched := rfl
  allTracked := by simp [CallerState.start]
  complete := hbalanced.symm.trans (toNat_total (inv_start hsound hsummed) rfl)

/-- What a retrieval does: it returns nothing and the blocks are as before, or there is one
block more, and the caller holds it. -/
theorem retrieve_cases
    {a : RetrieveAllocs} {name masterPw : CString} {fs : FileSystem}
    (hdecrypt : DecryptLength na)
    (hsound : Sound s.memory)
    (hstep : callerStep na s (.retrieve a name masterPw fs) = some s') :
    s'.released = s.released ∧
      (((keystoreRetrieveInto na a name masterPw fs s.memory).1 = none ∧
          s'.held = s.held ∧
          s'.memory.tracker = s.memory.tracker ∧
          s'.memory.live = s.memory.live)
        ∨
      ∃ (n : AllocNode) (b : Buffer),
        (keystoreRetrieveInto na a name masterPw fs s.memory).1.isSome = true ∧
          s'.held = b :: s.held ∧
          b.tracked = a.dataNode ∧
          0 < n.size.toNat ∧
          s'.memory.tracker = trackerAdd s.memory.tracker a.dataNode n.ptr n.size ∧
          s'.memory.live = n :: s.memory.live) := by
  simp only [callerStep] at hstep
  split_ifs at hstep with hgranted
  obtain ⟨hsound', hleaves⟩ :=
    @keystoreRetrieveInto_leaves na a name masterPw fs s.memory hdecrypt hsound hgranted
  rcases hleaves with ⟨hnone, htracker, hlive⟩ | ⟨n, key, hsome, -, -, -, htracker, hlive⟩
  · split at hstep
    · rename_i m hcall
      obtain rfl := Option.some.inj hstep
      rw [hcall] at hnone htracker hlive ⊢
      exact ⟨rfl, .inl ⟨rfl, rfl, htracker, hlive⟩⟩
    · rename_i keyData key m hcall
      rw [hcall] at hnone
      cases hnone
  · split at hstep
    · rename_i m hcall
      rw [hcall] at hsome
      cases hsome
    · rename_i keyData key' m hcall
      obtain rfl := Option.some.inj hstep
      rw [hcall] at hsound' htracker hlive ⊢
      have hpos : 0 < n.size.toNat := by
        refine hsound'.nonempty n ?_
        rw [hlive]
        exact List.mem_cons_self
      exact ⟨rfl, .inr ⟨n, _, rfl, rfl, rfl, hpos, htracker, hlive⟩⟩

/-- Steps that meet the condition keep the accounts clean. -/
theorem clean_step
    {e : CallerEvent}
    (hdecrypt : DecryptLength na)
    (h : Clean base s)
    (hok : AccountsOk na s e)
    (hstep : callerStep na s e = some s') :
    Clean base s' := by
  have hinv := inv_step hdecrypt h.toCallerInv hstep
  cases e with
  | release b =>
      exact hok.elim
  | retrieve a name masterPw fs =>
      obtain ⟨hreleased, hcases⟩ := retrieve_cases hdecrypt h.sound hstep
      rcases hcases with ⟨-, hheld, htracker, hlive⟩ |
        ⟨n, b, hsome, hheld, hflag, -, htracker, hlive⟩
      · exact
          { hinv with
            untouched := hreleased.trans h.untouched
            allTracked := by
              rw [hheld]
              exact h.allTracked
            complete := by
              rw [hlive, htracker, h.complete] }
      · have hnode : a.dataNode = true := hok hsome
        exact
          { hinv with
            untouched := hreleased.trans h.untouched
            allTracked := by
              rw [hheld, List.forall_mem_cons]
              exact ⟨hflag.trans hnode, h.allTracked⟩
            complete := by
              rw [hlive, htracker, allocList_trackerAdd, if_pos hnode, sizes_cons, sizes_cons,
                h.complete] }

/-- A block that the total does not know of makes it wrong. -/
theorem unbalanced_untracked
    {n : AllocNode}
    (h : Clean base s)
    (hpos : 0 < n.size.toNat)
    (htracker : s'.memory.tracker = trackerAdd s.memory.tracker false n.ptr n.size)
    (hlive : s'.memory.live = n :: s.memory.live) :
    ¬ Balanced s'.memory := by
  have htotal := toNat_total h.toCallerInv h.untouched
  have hcomplete := h.complete
  rw [Balanced, secureMemoryStats, htracker, hlive, sizes_cons]
  simp only [trackerAdd]
  rw [if_neg (by decide)]
  omega

/-- A release leaves the tag of the block in the total. -/
theorem unbalanced_release
    {b : Buffer}
    (h : Clean base s)
    (hb : b ∈ s.held) :
    ¬ Balanced (secureFree s.memory (some b.keyData) b.keyLen) := by
  have hcomplete := h.complete
  have hflag := h.allTracked b hb
  obtain ⟨front, rest, hsplit, hleft, -⟩ := (tracker_release h.toCallerInv hb).1 hflag
  obtain ⟨front', rest', hsplit', hleft'⟩ :=
    split_of_mem h.sound (List.Sublist.refl _) (h.live b hb)
  have hsum :
      (secureFree s.memory (some b.keyData) b.keyLen).tracker.allocTotalBytes =
        bytes (front ++ rest) + 16#64 := by
    have htotal := (inv_release h.toCallerInv hb).total
    rw [hleft, if_pos hflag, h.untouched] at htotal
    exact htotal
  have hlt := sizes_live_lt h.sound
  have hsize := Buffer.size_node (h.short b hb)
  have hnat := congrArg BitVec.toNat hsum
  rw [BitVec.toNat_add, toNat_bytes] at hnat
  rw [hsplit] at hcomplete
  rw [hsplit'] at hcomplete hlt
  simp only [sizes_append, sizes_cons] at hcomplete hlt hnat
  have hlive :
      sizes (secureFree s.memory (some b.keyData) b.keyLen).live =
        sizes front' + sizes rest' := by
    rw [← sizes_append, ← hleft']
    rfl
  have hmac : crypticMacLen = 16 := rfl
  have h16 : (16#64).toNat = 16 := rfl
  rw [Balanced, hlive]
  simp only [secureMemoryStats]
  omega

/-- A step that does not meet the condition leaves a wrong total. -/
theorem unbalanced_step
    {e : CallerEvent}
    (hdecrypt : DecryptLength na)
    (h : Clean base s)
    (hbad : ¬ AccountsOk na s e)
    (hstep : callerStep na s e = some s') :
    ¬ Balanced s'.memory := by
  cases e with
  | retrieve a name masterPw fs =>
      simp only [AccountsOk, Classical.not_imp, Bool.not_eq_true] at hbad
      obtain ⟨-, hcases⟩ := retrieve_cases hdecrypt h.sound hstep
      rcases hcases with ⟨hnone, -⟩ | ⟨n, b, -, -, -, hpos, htracker, hlive⟩
      · rw [hnone] at hbad
        simp at hbad
      · rw [hbad.2] at htracker
        exact unbalanced_untracked h hpos htracker hlive
  | release b =>
      by_cases hheld : s.held.contains b = true
      · rw [callerStep, if_pos hheld, Option.some.injEq] at hstep
        exact hstep ▸ unbalanced_release h (List.contains_iff_mem.mp hheld)
      · rw [callerStep, if_neg hheld] at hstep
        cases hstep

end Balance

/--
**The accounts of retrieved keys.**

In a run of retrievals and releases, from any state that allocations, releases and wipes lead
to, the total is that of the allocated blocks in every state if and only if it was before, every
buffer that is returned is tracked, and none is released.  When all buffers have been released,
the count is the one before the run, and the total is larger by a tag for each of them that was
tracked.
-/
theorem retrieve_accounting_iff
    (na : Sodium)
    (hdecrypt : DecryptLength na)
    (initialized : Bool) (calls : List MemoryCall) (m : Memory)
    (hcalls : Transition.run memoryStep (Memory.start initialized) calls = some m)
    (events : List CallerEvent) (s : CallerState)
    (hrun : Transition.run (callerStep na) (.start m) events = some s) :
    (AlwaysBalanced na m events
      ↔
    Balanced m ∧ Transition.Guarded (callerStep na) (AccountsOk na) (.start m) events)
      ∧
    (s.held = [] →
      secureMemoryStats s.memory =
        ((secureMemoryStats m).1,
          (secureMemoryStats m).2 + BitVec.ofNat 64 (crypticMacLen * s.released))) := by
  obtain ⟨hsound, hsummed⟩ :=
    Transition.invariant_of_run (fun _ _ _ h hstep => sound_step h hstep)
      ⟨sound_start initialized, rfl⟩ hcalls
  constructor
  · by_cases hbalanced : Balanced m
    · rw [and_iff_right hbalanced]
      exact Transition.always_iff_guarded (fun _ h => balanced_of_clean h)
        (fun _ _ _ h hok hstep => clean_step hdecrypt h hok hstep)
        (fun _ _ _ h hbad hstep => unbalanced_step hdecrypt h hbad hstep)
        (clean_start hsound hsummed hbalanced) hrun
    · refine iff_of_false (fun hall => hbalanced ?_) (fun h => hbalanced h.1)
      exact hall [] events (.start m) rfl rfl
  · intro hheld
    have hinv : CallerInv m.tracker.allocList s :=
      Transition.invariant_of_run (fun _ _ _ h hstep => inv_step hdecrypt h hstep)
        (inv_start hsound hsummed) hrun
    have hperm := hinv.perm
    rw [hheld] at hperm
    have hbytes : bytes s.memory.tracker.allocList = bytes m.tracker.allocList := bytes_perm hperm
    rw [secureMemoryStats, secureMemoryStats, hinv.sound.count, hsound.count, hinv.total, hbytes,
      ← hsummed, hperm.length_eq]
    rfl

section Examples

theorem decryptLength_of_ideal
    {na : Sodium}
    (haead : AeadIdeal na) :
    DecryptLength na := by
  intro c nonce key m h
  rw [haead.encrypt_of_decrypt c nonce key m h, haead.length_encrypt]

/-- A keystore with one key of one byte. -/
def oneKey : FileSystem :=
  (keystoreStore mirror .ok (exampleCall 1 1).request examplePw exampleMaster).2

/-- A retrieval of the key, every allocation of which succeeds. -/
def exampleRetrieve : CallerEvent :=
  .retrieve ⟨true, some 4096, true, some 8192, true⟩ (cstr [1]) examplePw oneKey

/-- The buffer that it returns. -/
def exampleBuffer : Buffer := ⟨⟨8192, 1⟩, 1, true⟩

/-- While the caller holds the buffer, the accounts are right. -/
theorem held_key_balanced :
    (∃ s,
      Transition.run (callerStep mirror) (.start (Memory.start true)) [exampleRetrieve] = some s ∧
        s.held = [exampleBuffer])
      ∧
    AlwaysBalanced mirror (Memory.start true) [exampleRetrieve] := by
  have hrun :
      (Transition.run (callerStep mirror) (.start (Memory.start true)) [exampleRetrieve]).map
          CallerState.held =
        some [exampleBuffer] := by
    decide +kernel
  obtain ⟨s, hs, hheld⟩ := Option.map_eq_some_iff.mp hrun
  refine ⟨⟨s, hs, hheld⟩, ?_⟩
  have hexact :=
    retrieve_accounting_iff mirror (decryptLength_of_ideal mirror_aeadIdeal) true []
      (Memory.start true) rfl [exampleRetrieve] s hs
  exact hexact.1.mpr ⟨rfl, fun _ => rfl, fun _ _ => trivial⟩

/-- When the caller has released it as documented, nothing is allocated, and the total is 16. -/
theorem released_key_unbalanced :
    DecryptLength mirror ∧
      ∃ s,
        Transition.run (callerStep mirror) (.start (Memory.start true))
            [exampleRetrieve, .release exampleBuffer] = some s ∧
          s.held = [] ∧
          s.memory.live = [] ∧
          secureMemoryStats s.memory = (0, 16) ∧
          ¬ AlwaysBalanced mirror (Memory.start true)
            [exampleRetrieve, .release exampleBuffer] := by
  have hrun :
      (Transition.run (callerStep mirror) (.start (Memory.start true))
          [exampleRetrieve, .release exampleBuffer]).map
          (fun s => (s.held, s.memory.live, secureMemoryStats s.memory)) =
        some ([], [], (0, 16)) := by
    decide +kernel
  obtain ⟨s, hs, hends⟩ := Option.map_eq_some_iff.mp hrun
  obtain ⟨hheld, hrest⟩ := Prod.mk.inj hends
  obtain ⟨hlive, hstats⟩ := Prod.mk.inj hrest
  refine ⟨decryptLength_of_ideal mirror_aeadIdeal, s, hs, hheld, hlive, hstats, fun hall => ?_⟩
  have hbalanced := hall [exampleRetrieve, .release exampleBuffer] [] s rfl hs
  rw [Balanced, hstats, hlive] at hbalanced
  exact absurd hbalanced (by decide)

end Examples

end SecureMemory
end SecureZ
