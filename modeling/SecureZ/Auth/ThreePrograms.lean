import SecureZ.Auth.PamSecurez

/-!
# Three programs and one master key

The keystore, the utility and the PAM module each write the hash file and each verify a
password against it, with buffers of their own.  Every verifier reads the stored line into
a buffer that is large enough; the utility reads the password itself into 256 bytes, when
it sets it from a pipe and when it verifies it.

The main result says for which passwords the nine pairs of writer and verifier agree.
-/

namespace SecureZ
namespace MasterKey

open CLib
open CryptoCore
open KeyStorage
open PamSecurez

section Specification

/-- A password typed as a line. -/
def typed (password : CString) : Bytes :=
  password.bytes ++ [10]

/-- Each of the three verifiers accepts `password` and rejects every other line. -/
def AcceptsOnly (na : Sodium) (fs : FileSystem) (password : CString) : Prop :=
  ∀ q : CString,
    (10 : UInt8) ∉ q.bytes →
    (verifyPassword na q fs = .success ↔ q = password) ∧
      (keystoreMasterVerify na q fs = true ↔ q = password) ∧
      (doVerify na (.start (typed q)) fs = 0 ↔ q = password)

/-- What the disk holds after `hash` was written with the outcomes `w`. -/
def hashWritten (w : FlushOutcome) (hash : CString) (fs : FileSystem) : FileSystem :=
  fs.writeFile masterHashPath (w.toWrite.disk (hash.bytes ++ [10]))

end Specification

section Stored

variable {na : Sodium} {w : FlushOutcome} {hashSalt : Salt} {password hash : CString}

/-- What a verifier reads from a hash that was written. -/
theorem readStored_hashWritten
    {size : Nat}
    (hsize : 128 ≤ size)
    (hnl : (10 : UInt8) ∉ hash.bytes)
    (hlen : hash.strlen < 128)
    (fs : FileSystem) :
    readStored size (hashWritten w hash fs) =
      some
        (if w.lost ≤ hash.strlen then some (hash.take (hash.strlen + 1 - w.lost)) else none) := by
  have hread :
      (hashWritten w hash fs).readFile masterHashPath =
        some (w.toWrite.disk (hash.bytes ++ [10])) :=
    FileSystem.readFile_eq_some_iff.mpr ⟨by decide, FileSystem.writeFile_self _ _ _⟩
  rw [readStored, hread, Option.map_some, Option.some.injEq]
  have hdisk :
      w.toWrite.disk (hash.bytes ++ [10]) =
        (hash.bytes ++ [10]).take (hash.strlen + 1 - w.lost) := by
    simp [FlushOutcome.toWrite, CString.strlen]
  rw [hdisk]
  by_cases hwhole : w.lost = 0
  · have hall :
        (hash.bytes ++ [10]).take (hash.strlen + 1 - w.lost) = hash.bytes ++ [10] :=
      List.take_of_length_le (by simp [CString.strlen, hwhole])
    rw [hall, fgetsText_fst hnl (by omega), if_pos (by omega),
      CString.take_of_strlen_le (by omega), CString.take_of_strlen_le (by omega)]
  · have hcut :
        (hash.bytes ++ [10]).take (hash.strlen + 1 - w.lost) =
          (hash.take (hash.strlen + 1 - w.lost)).bytes :=
      List.take_append_of_le_length (by simp only [CString.strlen]; omega)
    rw [hcut]
    split_ifs with hsome
    · have hlength : (hash.take (hash.strlen + 1 - w.lost)).strlen = hash.strlen + 1 - w.lost := by
        simp only [CString.take, CString.strlen, List.length_take] at hsome ⊢
        omega
      rw [fgetsText_last (fun h => hnl (List.mem_of_mem_take h)) ?_ (by omega), Option.map_some]
      intro hnil
      rw [CString.strlen, hnil, List.length_nil] at hlength
      omega
    · have hzero : hash.strlen + 1 - w.lost = 0 := by omega
      rw [hzero]
      rfl

/-- Against a hash that was written, with the end of it perhaps lost, exactly its password
verifies, and only if no more than the newline was lost. -/
theorem verify_hashWritten
    (hna : PwhashStrExact na)
    (hstr : na.pwhashStr password hashSalt = some hash)
    {size : Nat}
    (hsize : 128 ≤ size)
    (fs : FileSystem) (q : CString) :
    (∃ stored,
        readStored size (hashWritten w hash fs) = some (some stored) ∧
          na.pwhashStrVerify stored q = true)
      ↔
    w.lost ≤ 1 ∧ q = password := by
  obtain ⟨hpos, hlen, hnl⟩ := hna.line password hashSalt hash hstr
  rw [readStored_hashWritten hsize hnl hlen]
  by_cases hlost : w.lost ≤ 1
  · have hwhole : hash.take (hash.strlen + 1 - w.lost) = hash :=
      CString.take_of_strlen_le (by omega)
    rw [if_pos (by omega), hwhole]
    simp only [Option.some.injEq, exists_eq_left', hlost, true_and]
    exact hna.verify_iff password hashSalt hash hstr q
  · simp only [hlost, false_and, iff_false, not_exists, not_and, Bool.not_eq_true]
    intro stored hstored
    split_ifs at hstored with hsome
    · obtain rfl := Option.some.inj (Option.some.inj hstored)
      exact hna.cut password hashSalt hash _ hstr (by omega) q
    · simp at hstored

end Stored

section Verifiers

variable {na : Sodium} {fs : FileSystem} {q : CString}

theorem verifyPassword_iff :
    verifyPassword na q fs = .success
      ↔
    ∃ stored,
      readStored 256 fs = some (some stored) ∧ na.pwhashStrVerify stored q = true := by
  unfold verifyPassword
  cases readStored 256 fs with
  | none =>
      simp
  | some stored =>
      cases stored <;> simp

theorem keystoreMasterVerify_iff :
    keystoreMasterVerify na q fs = true
      ↔
    ∃ stored,
      readStored pwhashStrbytes fs = some (some stored) ∧
        na.pwhashStrVerify stored q = true := by
  rw [keystoreMasterVerify_eq]
  cases readStored pwhashStrbytes fs with
  | none =>
      simp
  | some stored =>
      cases stored <;> simp

/-- The utility verifies as much of the line as its buffer holds. -/
theorem doVerify_iff
    (hnl : (10 : UInt8) ∉ q.bytes) :
    doVerify na (.start (typed q)) fs = 0
      ↔
    ∃ stored,
      readStored pwhashStrbytes fs = some (some stored) ∧
        na.pwhashStrVerify stored (q.take 255) = true := by
  have hfst := fgetsText_fst hnl (by decide : 1 < 256) []
  obtain ⟨⟨text, rest⟩, hread, htext⟩ := Option.map_eq_some_iff.mp hfst
  obtain rfl : text = q.take 255 := htext
  have hprompt :
      promptPassword (.start (typed q)) = (true, ⟨rest, q.take 255⟩) := by
    simp [promptPassword, Console.start, typed, hread]
  simp only [doVerify, hprompt, Bool.not_true, Bool.false_eq_true, if_false]
  cases readStored pwhashStrbytes fs with
  | none =>
      simp
  | some stored =>
      cases stored <;> simp

end Verifiers

section Agreement

variable {na : Sodium} {w : FlushOutcome} {hashSalt : Salt} {password hash : CString}

/-- A line that is cut to a text with room to spare was not cut. -/
theorem take_eq_iff_of_short
    {n : Nat} {p q : CString}
    (hlen : p.strlen < n) :
    q.take n = p ↔ q = p := by
  constructor
  · rintro rfl
    refine (CString.take_of_strlen_le ?_).symm
    simp only [CString.take, CString.strlen, List.length_take] at hlen ⊢
    omega
  · rintro rfl
    exact CString.take_of_strlen_le hlen.le

/-- A line with one byte more. -/
def oneMore (p : CString) : CString :=
  p.append (cstr (ascii "a"))

theorem take_oneMore
    (p : CString) :
    (oneMore p).take p.strlen = p :=
  CString.ext (List.take_left' rfl)

theorem oneMore_ne
    (p : CString) :
    oneMore p ≠ p := by
  intro h
  have hlen := congrArg CString.strlen h
  have hone : (cstr (ascii "a")).bytes.length = 1 := by decide
  simp only [oneMore, CString.append, CString.strlen, List.length_append] at hlen
  omega

/-- The utility does not tell a password that fills its buffer from a longer one, and does
not see the end of a longer one. -/
theorem not_acceptsOnly_of_long
    (hna : PwhashStrExact na)
    {p : CString}
    (hstr : na.pwhashStr p hashSalt = some hash)
    (hnl : (10 : UInt8) ∉ p.bytes)
    (hlost : w.lost ≤ 1)
    (hlong : 255 ≤ p.strlen)
    (fs : FileSystem) :
    ¬ AcceptsOnly na (hashWritten w hash fs) p := by
  intro h
  have hverify :
      ∀ q : CString, (10 : UInt8) ∉ q.bytes →
        (doVerify na (.start (typed q)) (hashWritten w hash fs) = 0 ↔ q.take 255 = p) := by
    intro q hq
    rw [doVerify_iff hq, verify_hashWritten hna hstr (by decide) fs]
    exact and_iff_right hlost
  rcases Nat.eq_or_lt_of_le hlong with hfull | hover
  · have hmore : (10 : UInt8) ∉ (oneMore p).bytes := by
      have hletter : (10 : UInt8) ∉ (cstr (ascii "a")).bytes := by decide
      simpa [oneMore, CString.append, hnl] using hletter
    have htake : (oneMore p).take 255 = p := by
      rw [hfull]
      exact take_oneMore p
    exact oneMore_ne p ((h _ hmore).2.2.mp ((hverify _ hmore).mpr htake))
  · have htake := (hverify p hnl).mp ((h p hnl).2.2.mpr rfl)
    have hlen := congrArg CString.strlen htake
    simp only [CString.take, CString.strlen, List.length_take] at hlen hover
    omega

/-- The three verifiers agree on the password that was hashed, if it fits the buffer of the
utility with room for more. -/
theorem acceptsOnly_hashWritten_iff
    (hna : PwhashStrExact na)
    (hstr : na.pwhashStr password hashSalt = some hash)
    {p : CString}
    (hnl : (10 : UInt8) ∉ p.bytes)
    (fs : FileSystem) :
    AcceptsOnly na (hashWritten w hash fs) p
      ↔
    password = p ∧ p.strlen ≤ 254 ∧ w.lost ≤ 1 := by
  have hverify :
      ∀ size q,
        128 ≤ size →
        ((∃ stored,
            readStored size (hashWritten w hash fs) = some (some stored) ∧
              na.pwhashStrVerify stored q = true)
          ↔
        w.lost ≤ 1 ∧ q = password) :=
    fun size q hsize => verify_hashWritten hna hstr hsize fs q
  constructor
  · intro h
    obtain ⟨hlost, rfl⟩ :=
      (hverify 256 p (by decide)).mp (verifyPassword_iff.mp ((h p hnl).1.mpr rfl))
    refine ⟨rfl, ?_, hlost⟩
    by_contra hlong
    exact not_acceptsOnly_of_long hna hstr hnl hlost (by omega) fs h
  · rintro ⟨rfl, hlen, hlost⟩ q hq
    refine ⟨?_, ?_, ?_⟩
    · rw [verifyPassword_iff, hverify 256 q (by decide)]
      exact and_iff_right hlost
    · rw [keystoreMasterVerify_iff, hverify pwhashStrbytes q (by decide)]
      exact and_iff_right hlost
    · rw [doVerify_iff hq, hverify pwhashStrbytes _ (by decide), and_iff_right hlost]
      exact take_eq_iff_of_short (by omega)

end Agreement

section Writers

variable {na : Sodium} {w : FlushOutcome} {hashSalt : Salt} {p : CString} {fs fs' : FileSystem}

/-- A setup from a pipe hashes as much of the line as its buffer holds. -/
theorem written_of_doSetupPiped
    (hnl : (10 : UInt8) ∉ p.bytes)
    (h : doSetupPiped na w.toWrite hashSalt (typed p) fs = (0, fs')) :
    ∃ hash, na.pwhashStr (p.take 255) hashSalt = some hash ∧ fs' = hashWritten w hash fs := by
  have hread : readPasswordStdin (typed p) = some (p.take 255) :=
    fgetsText_fst hnl (by decide) []
  simp only [doSetupPiped, hread] at h
  split_ifs at h with hshort
  · simp at h
  · rcases writeHash_cases na w.toWrite hashSalt (p.take 255) fs with
      hfailed | ⟨hash, hstr, hdone⟩
    · rw [hfailed] at h
      simp at h
    · rw [hdone] at h
      exact ⟨hash, hstr, (Prod.mk.inj h).2.symm⟩

theorem written_of_keystoreMasterSetup
    (h : keystoreMasterSetup na w.toWrite hashSalt p fs = (0, fs')) :
    ∃ hash, na.pwhashStr p hashSalt = some hash ∧ fs' = hashWritten w hash fs := by
  rcases keystoreMasterSetup_cases na w.toWrite hashSalt p fs with
    hfailed | ⟨hash, -, hstr, hdone⟩
  · rw [hfailed] at h
    simp at h
  · rw [hdone] at h
    exact ⟨hash, hstr, (Prod.mk.inj h).2.symm⟩

/-- A successful call of the PAM module was a preliminary one, or wrote the hash. -/
theorem written_of_pamSmChauthtok
    {req : ChangeRequest}
    (hnew : req.newPw = some p)
    (h : pamSmChauthtok na w.toWrite hashSalt req fs = (.success, fs')) :
    (req.prelimCheck = true ∧ fs' = fs) ∨
      (req.prelimCheck = false ∧
        ∃ hash, na.pwhashStr p hashSalt = some hash ∧ fs' = hashWritten w hash fs) := by
  rcases pamSmChauthtok_cases na w.toWrite hashSalt req fs with
    ⟨result, hresult, hcase⟩ | ⟨newPw, hash, hgiven, hprelim, -, hstr, hdone⟩
  · rw [hresult] at h
    obtain ⟨rfl, rfl⟩ := Prod.mk.inj h
    rcases hcase with hfailed | hprelim
    · exact absurd rfl hfailed
    · exact Or.inl ⟨hprelim, rfl⟩
  · rw [hdone] at h
    obtain rfl := Option.some.inj (hgiven.symm.trans hnew)
    exact Or.inr ⟨hprelim, hash, hstr, (Prod.mk.inj h).2.symm⟩

end Writers

/--
**The three programs.**

After a successful call of one of the writers, the three verifiers accept its password and
no other exactly when it has at most 254 bytes and the line with its hash reached the disk,
but for its newline.  A preliminary call of the PAM module leaves things as they were.
-/
theorem programs_agree_iff
    (na : Sodium)
    (hna : PwhashStrExact na)
    (p : CString)
    (hnl : (10 : UInt8) ∉ p.bytes)
    (w : FlushOutcome) (hashSalt : Salt) (fs fs' : FileSystem) :
    (doSetupPiped na w.toWrite hashSalt (typed p) fs = (0, fs') →
      (AcceptsOnly na fs' p ↔ p.strlen ≤ 254 ∧ w.lost ≤ 1))
      ∧
    (keystoreMasterSetup na w.toWrite hashSalt p fs = (0, fs') →
      (AcceptsOnly na fs' p ↔ p.strlen ≤ 254 ∧ w.lost ≤ 1))
      ∧
    (∀ req,
      req.newPw = some p →
      pamSmChauthtok na w.toWrite hashSalt req fs = (.success, fs') →
      (AcceptsOnly na fs' p
        ↔
      if req.prelimCheck then AcceptsOnly na fs p else p.strlen ≤ 254 ∧ w.lost ≤ 1)) := by
  refine ⟨?_, ?_, ?_⟩
  · intro h
    obtain ⟨hash, hstr, rfl⟩ := written_of_doSetupPiped hnl h
    rw [acceptsOnly_hashWritten_iff hna hstr hnl]
    constructor
    · exact fun hcase => hcase.2
    · exact fun hcase => ⟨CString.take_of_strlen_le (by omega), hcase⟩
  · intro h
    obtain ⟨hash, hstr, rfl⟩ := written_of_keystoreMasterSetup h
    rw [acceptsOnly_hashWritten_iff hna hstr hnl]
    exact and_iff_right rfl
  · intro req hnew h
    rcases written_of_pamSmChauthtok hnew h with
      ⟨hprelim, rfl⟩ | ⟨hprelim, hash, hstr, rfl⟩
    · simp [hprelim]
    · rw [acceptsOnly_hashWritten_iff hna hstr hnl]
      simp [hprelim]

section Examples

/-- A password of sixteen bytes. -/
def sixteenBytes : CString := cstr (ascii "0123456789abcdef")

/-- Set from a pipe, the password is the one that all three verifiers accept. -/
theorem sixteen_bytes_accepted :
    ∃ fs',
      doSetupPiped markedMirror FlushOutcome.complete.toWrite (Block.zero 16) (typed sixteenBytes)
          (fun _ => none) = (0, fs') ∧
        AcceptsOnly markedMirror fs' sixteenBytes :=
  ⟨_, rfl,
    ((programs_agree_iff markedMirror markedMirror_pwhashStrExact sixteenBytes (by decide)
      .complete (Block.zero 16) (fun _ => none) _).1 rfl).mpr (by decide)⟩

/-- A password of 256 bytes. -/
def longPassword : CString where
  bytes := List.replicate 256 97
  nulFree := fun h => absurd (List.eq_of_mem_replicate h) (by decide)

/-- A hashing that knows the long password alone. -/
def longMirror : Sodium :=
  { mirror with
    pwhashStr := fun pw _ => if pw = longPassword then some hashMark else none
    pwhashStrVerify := fun h pw => h = hashMark ∧ pw = longPassword }

theorem longMirror_pwhashStrExact : PwhashStrExact longMirror where
  verify_iff := by
    intro pw salt h hstr q
    simp only [longMirror] at hstr ⊢
    split_ifs at hstr with hpw
    obtain rfl := Option.some.inj hstr
    simp [hpw]
  line := by
    intro pw salt h hstr
    simp only [longMirror] at hstr
    split_ifs at hstr
    obtain rfl := Option.some.inj hstr
    decide
  cut := by
    intro pw salt h n hstr hn q
    simp only [longMirror] at hstr ⊢
    split_ifs at hstr
    obtain rfl := Option.some.inj hstr
    obtain rfl : n = 0 := Nat.lt_one_iff.mp hn
    simp only [decide_eq_false_iff_not, not_and]
    exact fun h => absurd h (by decide)

/-- The keystore sets a password of 256 bytes, and the utility does not accept it. -/
theorem long_password_not_accepted :
    PwhashStrExact longMirror ∧
      ∃ fs',
        keystoreMasterSetup longMirror FlushOutcome.complete.toWrite (Block.zero 16) longPassword
            (fun _ => none) = (0, fs') ∧
          ¬ AcceptsOnly longMirror fs' longPassword := by
  have hstr : longMirror.pwhashStr longPassword (Block.zero 16) = some hashMark := by
    simp only [longMirror, if_true]
  have hlen : longPassword.strlen = 256 := List.length_replicate
  have hlong : ¬ longPassword.strlen < 16 := by omega
  have hnl : (10 : UInt8) ∉ longPassword.bytes :=
    fun h => absurd (List.eq_of_mem_replicate h) (by decide)
  refine ⟨longMirror_pwhashStrExact, hashWritten .complete hashMark (fun _ => none), ?_, ?_⟩
  · simp [keystoreMasterSetup, hlong, hstr, FlushOutcome.toWrite, FlushOutcome.complete,
      hashWritten, masterHashPath_eq]
  · exact not_acceptsOnly_of_long longMirror_pwhashStrExact hstr hnl (by decide) (by omega) _

end Examples

end MasterKey
end SecureZ
