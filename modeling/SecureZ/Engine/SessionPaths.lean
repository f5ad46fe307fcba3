import SecureZ.Lib.Decimal
import SecureZ.Lib.Paths
import SecureZ.Engine.SessionMap

/-!
# The directories of the sessions

The control group of a session is named after its id, its tmpfs after the name that the
caller gave, cut to 63 bytes, or after the id when there is none.  `session_create` does not
compare the name with those of the sessions there are, and does not look into it: a name can
be taken twice, and with slashes and dots it can lead into the directories of another
session, the control groups included.

The main result is about runs: no session's directories are in reach of the end of another
exactly when each creation is given a name that leads to a place of its own.
-/

namespace SecureZ
namespace Session

open CLib Transition

section Directories

/-- The tmpfs directory of a session. -/
def SessionInfo.tmpfsDir (e : SessionInfo) : Location :=
  location [] e.tmpfsPath

/-- The control group directory of a session. -/
def SessionInfo.cgroupDir (e : SessionInfo) : Location :=
  location [] e.cgroupPath

/-- `session_destroy` unmounts or removes the directory when it ends this session.
`umount2` with `MNT_DETACH` takes what is mounted at the path and below it. -/
def SessionInfo.Takes (e : SessionInfo) (dir : Location) : Prop :=
  e.tmpfsPath ≠ [] ∧ e.tmpfsDir <+: dir ∨ e.cgroupPath ≠ [] ∧ dir = e.cgroupDir

/-- `session_destroy` with this id unmounts or removes the directory. -/
def destroyTakes (t : SessionTable) (id : Int) (dir : Location) : Prop :=
  ∃ idx, findSession t id = some idx ∧ (t.slots idx).Takes dir

/-- A call in a run: the table only. -/
def tableCall (t : SessionTable) (op : Operation) : Option SessionTable :=
  (perform t op).map Prod.fst

end Directories

section Specification

/-- The sessions have paths of their own, and the end of one leaves the directories of the
others where they are. -/
structure PathsApart (t : SessionTable) : Prop where
  tmpfs :
    ∀ a ∈ t.sessions, ∀ b ∈ t.sessions, a.id ≠ b.id → a.tmpfsPath ≠ b.tmpfsPath
  cgroup :
    ∀ a ∈ t.sessions, ∀ b ∈ t.sessions, a.id ≠ b.id → a.cgroupPath ≠ b.cgroupPath
  untouched :
    ∀ id, ∀ b ∈ t.sessions, b.id ≠ id →
      ¬ destroyTakes t id b.tmpfsDir ∧ ¬ destroyTakes t id b.cgroupDir

/-- Where a name leads from the directory of the tmpfs mounts. -/
def nameDir (name : Bytes) : Location :=
  walk [ascii "tmp", ascii "securez-sessions"] (components name)

/-- The control group of an id. -/
def groupDir (id : Int) : Location :=
  [ascii "sys", ascii "fs", ascii "cgroup", ascii "securez", ascii "session-" ++ intText id]

/-- The name leads neither to the place of the other name, nor above it or below it, nor
above the control group of the other id. -/
def Clear (name : Bytes) (other : Bytes) (otherId : Int) : Prop :=
  ¬ nameDir name <+: nameDir other ∧ ¬ nameDir name <+: groupDir otherId

/-- The condition on a creation that will succeed: its name is clear of every session, and
the name of every session is clear of it. -/
def NameFree (t : SessionTable) : Operation → Prop
  | .create args sys =>
      createWrites t ∧ sys.stack = true ∧ 0 ≤ sys.childPid →
        ∀ e ∈ t.sessions,
          Clear (sessionName args.name t.nextId) e.name e.id ∧
            Clear e.name (sessionName args.name t.nextId) t.nextId
  | _ => True

instance (name other : Bytes) (otherId : Int) : Decidable (Clear name other otherId) :=
  inferInstanceAs (Decidable (¬ _ ∧ ¬ _))

instance (t : SessionTable) : ∀ op, Decidable (NameFree t op)
  | .create _ _ => inferInstanceAs (Decidable (_ → ∀ e ∈ t.sessions, _))
  | .destroy _ => isTrue trivial
  | .destroyAll => isTrue trivial
  | .getInfo _ => isTrue trivial
  | .list => isTrue trivial

/-- What holds of the table as long as every creation meets the condition. -/
structure Apart (t : SessionTable) : Prop where
  next_le : t.nextId ≤ intMax
  entries :
    ∀ e ∈ t.sessions,
      0 < e.id ∧ ∃ args sys, e = activeEntry e.id args sys
  clear : ∀ a ∈ t.sessions, ∀ b ∈ t.sessions, a.id ≠ b.id → Clear a.name b.name b.id

end Specification

section Numbers

theorem intText_ofNat
    (n : Nat) :
    intText n = decimal n :=
  rfl

/-- Different ids are written differently. -/
theorem intText_inj
    {a b : Int}
    (ha : 0 < a) (hb : 0 < b) :
    intText a = intText b ↔ a = b := by
  obtain ⟨m, rfl⟩ := Int.eq_ofNat_of_zero_le ha.le
  obtain ⟨n, rfl⟩ := Int.eq_ofNat_of_zero_le hb.le
  rw [intText_ofNat, intText_ofNat]
  constructor
  · intro h
    have hvalue := congrArg digitsValue h
    rw [digitsValue_decimal, digitsValue_decimal] at hvalue
    rw [hvalue]
  · intro h
    rw [Int.ofNat_inj.mp h]

/-- An id takes at most ten digits. -/
theorem length_intText_le
    {id : Int}
    (hpos : 0 < id) (hle : id ≤ intMax) :
    (intText id).length ≤ 10 := by
  obtain ⟨n, rfl⟩ := Int.eq_ofNat_of_zero_le hpos.le
  rw [intText_ofNat]
  simp only [intMax] at hle
  exact length_decimal_le (by decide) (by omega)

theorem noSlash_intText
    {id : Int}
    (hpos : 0 < id) :
    (47 : UInt8) ∉ intText id := by
  obtain ⟨n, rfl⟩ := Int.eq_ofNat_of_zero_le hpos.le
  rw [intText_ofNat]
  exact not_mem_decimal (by decide) n

/-- The name of a control group is a plain one. -/
theorem plainName_group
    {id : Int}
    (hpos : 0 < id) :
    PlainName (ascii "session-" ++ intText id) := by
  have hlong : 8 ≤ (ascii "session-" ++ intText id).length := by
    rw [List.length_append]
    exact Nat.le_add_right 8 _
  refine ⟨?_, ?_, ?_, ?_⟩
  · rintro h
    simp [h] at hlong
  · rw [List.mem_append, not_or]
    exact ⟨by decide, noSlash_intText hpos⟩
  · rintro h
    simp [h] at hlong
  · rintro h
    simp [h] at hlong

end Numbers

section EntryPaths

/-- A name has at most 63 bytes. -/
theorem length_sessionName_le
    (name : Option CString) (id : Int) :
    (sessionName name id).length ≤ 63 := by
  cases name with
  | none => exact (List.length_take_le _ _)
  | some name => exact (List.length_take_le _ _)

/-- The paths of an entry are not cut. -/
theorem activeEntry_paths
    {id : Int}
    (hpos : 0 < id) (hle : id ≤ intMax)
    (args : CreateArgs) (sys : CreateSys) :
    (activeEntry id args sys).tmpfsPath =
        sessionTmpfsBase ++ 47 :: sessionName args.name id ∧
      (activeEntry id args sys).cgroupPath =
        sessionCgroupBase ++ 47 :: (ascii "session-" ++ intText id) := by
  have hname := length_sessionName_le args.name id
  have hid := length_intText_le hpos hle
  have htmp : sessionTmpfsBase.length = 21 := by decide
  have hgroup : sessionCgroupBase.length = 22 := by decide
  have hslash : (ascii "/").length = 1 := by decide
  have hsession : (ascii "/session-").length = 9 := by decide
  constructor
  · have hfit : (sessionTmpfsBase ++ ascii "/" ++ sessionName args.name id).length < 256 := by
      rw [List.length_append, List.length_append]
      omega
    refine (snprintf_of_fits hfit).trans ?_
    rw [List.append_assoc]
    rfl
  · have hfit : (sessionCgroupBase ++ ascii "/session-" ++ intText id).length < 256 := by
      rw [List.length_append, List.length_append]
      omega
    refine (snprintf_of_fits hfit).trans ?_
    rw [List.append_assoc]
    rfl

/-- The directories of an entry. -/
theorem activeEntry_dirs
    {id : Int}
    (hpos : 0 < id) (hle : id ≤ intMax)
    (args : CreateArgs) (sys : CreateSys) :
    (activeEntry id args sys).tmpfsDir = nameDir (sessionName args.name id) ∧
      (activeEntry id args sys).cgroupDir = groupDir id := by
  obtain ⟨htmpfs, hgroup⟩ := activeEntry_paths hpos hle args sys
  constructor
  · rw [SessionInfo.tmpfsDir, htmpfs, location_append_slash (by decide)]
    have hbase :
        location [] sessionTmpfsBase = [ascii "tmp", ascii "securez-sessions"] := by
      decide
    rw [hbase, nameDir]
  · rw [SessionInfo.cgroupDir, hgroup, location_append_slash (by decide),
      walk_components_plain (plainName_group hpos)]
    have hbase :
        location [] sessionCgroupBase =
          [ascii "sys", ascii "fs", ascii "cgroup", ascii "securez"] := by
      decide
    rw [hbase, groupDir]
    rfl

/-- Control groups of different ids are in different places. -/
theorem groupDir_inj
    {a b : Int}
    (ha : 0 < a) (hb : 0 < b) :
    groupDir a = groupDir b ↔ a = b := by
  rw [groupDir, groupDir]
  simp only [List.cons.injEq, and_true, true_and, List.append_cancel_left_eq]
  exact intText_inj ha hb

end EntryPaths

section Steps

/-- Every session of the table was written by a creation. -/
theorem Apart.entry
    {t : SessionTable}
    (h : Apart t)
    {e : SessionInfo} (he : e ∈ t.sessions) :
    0 < e.id ∧ e.id ≤ intMax ∧
      e.tmpfsPath = sessionTmpfsBase ++ 47 :: e.name ∧
      e.cgroupPath = sessionCgroupBase ++ 47 :: (ascii "session-" ++ intText e.id) ∧
      e.tmpfsDir = nameDir e.name ∧ e.cgroupDir = groupDir e.id := by
  obtain ⟨hpos, args, sys, heq⟩ := h.entries e he
  have hle : e.id ≤ intMax := (sessions_below t e he).le.trans h.next_le
  have hname : e.name = sessionName args.name e.id := by
    rw [heq]
    rfl
  obtain ⟨htmpfs, hcgroup⟩ := activeEntry_paths hpos hle args sys
  obtain ⟨htmpfsDir, hcgroupDir⟩ := activeEntry_dirs hpos hle args sys
  rw [← heq] at htmpfs hcgroup htmpfsDir hcgroupDir
  rw [hname]
  exact ⟨hpos, hle, htmpfs, hcgroup, htmpfsDir, hcgroupDir⟩

/-- What one call does to the sessions. -/
theorem tableCall_cases
    {t t' : SessionTable} {op : Operation}
    (h : tableCall t op = some t') :
    ((∀ e ∈ t'.sessions, e ∈ t.sessions) ∧
        (t'.nextId = t.nextId ∨ t'.nextId = t.nextId + 1 ∧ t.nextId ≠ intMax) ∧
        NameFree t op) ∨
      ∃ args sys,
        op = .create args sys ∧
          (createWrites t ∧ sys.stack = true ∧ 0 ≤ sys.childPid) ∧
          t.nextId ≠ intMax ∧
          t'.sessions = t.sessions ++ [activeEntry t.nextId args sys] ∧
          t'.nextId = t.nextId + 1 := by
  cases op with
  | create args sys =>
      rw [tableCall, perform] at h
      split_ifs at h with hlast
      · cases h
      obtain rfl := Option.some.inj h
      by_cases hw : createWrites t
      · have hnext : t.nextId ≠ intMax := fun heq => hlast ⟨hw, heq⟩
        by_cases hok : sys.stack = true ∧ 0 ≤ sys.childPid
        · right
          refine ⟨args, sys, rfl, ⟨hw, hok⟩, hnext, ?_, ?_⟩
          · simp only [sessionCreate_done hw hok]
            exact sessions_addSession t _ hw.2 rfl
          · simp only [sessionCreate_done hw hok, SessionTable.addSession]
        · left
          simp only [sessionCreate_failed hw hok, sessions_writeNext]
          exact ⟨fun e he => he, .inr ⟨rfl, hnext⟩, fun hsome => absurd hsome.2 hok⟩
      · left
        rw [sessionCreate, createLocked_of_not_writes hw]
        exact ⟨fun e he => he, .inl rfl, fun hsome => absurd hsome.1 hw⟩
  | destroy id =>
      left
      obtain rfl := Option.some.inj h
      obtain ⟨hsessions, hnext, -, -⟩ := sessionDestroy_spec t id
      refine ⟨fun e he => ?_, .inl hnext, trivial⟩
      simp only [hsessions] at he
      exact (List.mem_filter.mp he).1
  | destroyAll =>
      left
      obtain rfl := Option.some.inj h
      obtain ⟨hsessions, hnext, -⟩ := sessionDestroyAll_spec t
      refine ⟨fun e he => ?_, .inl hnext, trivial⟩
      simp only [hsessions] at he
      cases he
  | getInfo id =>
      left
      obtain rfl := Option.some.inj h
      exact ⟨fun e he => he, .inl rfl, trivial⟩
  | list =>
      left
      obtain rfl := Option.some.inj h
      exact ⟨fun e he => he, .inl rfl, trivial⟩

/-- A call that meets the condition keeps the sessions apart. -/
theorem apart_call
    {t t' : SessionTable} {op : Operation}
    (h : Apart t)
    (hok : NameFree t op)
    (hcall : tableCall t op = some t') :
    Apart t' := by
  rcases tableCall_cases hcall with
    ⟨hsub, hnext, -⟩ | ⟨args, sys, rfl, hdone, hlast, hsessions, hnext⟩
  · refine ⟨?_, fun e he => h.entries e (hsub e he), ?_⟩
    · have := h.next_le
      rcases hnext with heq | ⟨heq, hne⟩ <;> omega
    · intro a ha b hb hab
      exact h.clear a (hsub a ha) b (hsub b hb) hab
  · have hnew : (activeEntry t.nextId args sys).id = t.nextId := rfl
    refine ⟨?_, ?_, ?_⟩
    · have := h.next_le
      omega
    · rw [hsessions]
      refine List.forall_mem_append.mpr ⟨h.entries, ?_⟩
      rw [List.forall_mem_singleton]
      exact ⟨t.next_pos, args, sys, rfl⟩
    · rw [hsessions]
      intro a ha b hb hab
      rcases List.mem_append.mp ha with ha | ha <;> rcases List.mem_append.mp hb with hb | hb
      · exact h.clear a ha b hb hab
      · obtain rfl := List.mem_singleton.mp hb
        exact (hok hdone a ha).2
      · obtain rfl := List.mem_singleton.mp ha
        exact (hok hdone b hb).1
      · obtain rfl := List.mem_singleton.mp ha
        obtain rfl := List.mem_singleton.mp hb
        exact absurd rfl hab

/-- What the end of a session takes, by the entry. -/
theorem destroyTakes_iff
    {t : SessionTable} {e : SessionInfo}
    (he : e ∈ t.sessions)
    (dir : Location) :
    destroyTakes t e.id dir ↔ e.Takes dir := by
  obtain ⟨i, hi, rfl⟩ := mem_sessions.mp he
  have hfind : findSession t (t.slots i).id = some i := by
    rw [findSession_eq, SlotArray.find_eq_some_iff]
    refine ⟨hi, by simp, fun j hj => ?_⟩
    simpa using (t.ordered j i hj hi).ne
  rw [destroyTakes, hfind]
  simp

/-- What the end of a session takes, by its name and its id. -/
theorem Apart.takes_iff
    {t : SessionTable}
    (h : Apart t)
    {e : SessionInfo} (he : e ∈ t.sessions)
    (dir : Location) :
    destroyTakes t e.id dir ↔ nameDir e.name <+: dir ∨ dir = groupDir e.id := by
  obtain ⟨-, -, htmpfs, hcgroup, htmpfsDir, hcgroupDir⟩ := h.entry he
  rw [destroyTakes_iff he, SessionInfo.Takes, htmpfs, hcgroup, htmpfsDir, hcgroupDir]
  simp

/-- Sessions that are apart have paths of their own. -/
theorem Apart.pathsApart
    {t : SessionTable}
    (h : Apart t) :
    PathsApart t := by
  refine ⟨?_, ?_, ?_⟩
  · intro a ha b hb hab heq
    obtain ⟨-, -, -, -, hdira, -⟩ := h.entry ha
    obtain ⟨-, -, -, -, hdirb, -⟩ := h.entry hb
    have hdir : nameDir a.name = nameDir b.name := by
      rw [← hdira, ← hdirb, SessionInfo.tmpfsDir, SessionInfo.tmpfsDir, heq]
    exact (h.clear a ha b hb hab).1 (hdir ▸ List.prefix_rfl)
  · intro a ha b hb hab heq
    obtain ⟨hposa, -, -, -, -, hdira⟩ := h.entry ha
    obtain ⟨hposb, -, -, -, -, hdirb⟩ := h.entry hb
    refine hab ((groupDir_inj hposa hposb).mp ?_)
    rw [← hdira, ← hdirb, SessionInfo.cgroupDir, SessionInfo.cgroupDir, heq]
  · intro id b hb hne
    obtain ⟨hposb, -, -, -, hdirb, hgroupb⟩ := h.entry hb
    rw [hdirb, hgroupb]
    by_cases hid : ∃ a ∈ t.sessions, a.id = id
    · obtain ⟨a, ha, rfl⟩ := hid
      obtain ⟨hposa, -⟩ := h.entry ha
      have hab := h.clear a ha b hb hne.symm
      have hba := h.clear b hb a ha hne
      rw [h.takes_iff ha, h.takes_iff ha]
      refine ⟨?_, ?_⟩
      · rintro (hname | hgroup)
        · exact hab.1 hname
        · exact hba.2 (hgroup ▸ List.prefix_rfl)
      · rintro (hname | hgroup)
        · exact hab.2 hname
        · exact hne ((groupDir_inj hposb hposa).mp hgroup)
    · have hnone : ∀ dir, ¬ destroyTakes t id dir := by
        rintro dir ⟨idx, hfind, -⟩
        rw [findSession_eq, SlotArray.find_eq_some_iff] at hfind
        exact hid ⟨t.slots idx, mem_sessions.mpr ⟨idx, hfind.1, rfl⟩, by simpa using hfind.2.1⟩
      exact ⟨hnone _, hnone _⟩

/-- A creation that does not meet the condition puts a session in reach of the end of
another. -/
theorem not_pathsApart_call
    {t t' : SessionTable} {op : Operation}
    (h : Apart t)
    (hnot : ¬ NameFree t op)
    (hcall : tableCall t op = some t') :
    ¬ PathsApart t' := by
  intro hgood
  rcases tableCall_cases hcall with
    ⟨-, -, hfree⟩ | ⟨args, sys, rfl, hdone, hlast, hsessions, hnext⟩
  · exact hnot hfree
  refine hnot fun _ e he => ?_
  have hle : t.nextId ≤ intMax := h.next_le
  have hlt := sessions_below t e he
  obtain ⟨-, -, htmpfs, -, hdir, hgroup⟩ := h.entry he
  obtain ⟨hnewPath, -⟩ := activeEntry_paths t.next_pos hle args sys
  obtain ⟨hnewDir, hnewGroup⟩ := activeEntry_dirs t.next_pos hle args sys
  have hmem : e ∈ t'.sessions := by
    rw [hsessions]
    exact List.mem_append_left _ he
  have hmemNew : activeEntry t.nextId args sys ∈ t'.sessions := by
    rw [hsessions]
    exact List.mem_append_right _ List.mem_cons_self
  have hnewId : (activeEntry t.nextId args sys).id = t.nextId := rfl
  -- The end of either session would reach what the other has there.
  have hnewTakes : ∀ dir, nameDir (sessionName args.name t.nextId) <+: dir →
      destroyTakes t' t.nextId dir := by
    intro dir hdir
    rw [← hnewId, destroyTakes_iff hmemNew]
    exact .inl ⟨by simp [hnewPath], hnewDir ▸ hdir⟩
  have holdTakes : ∀ dir, nameDir e.name <+: dir → destroyTakes t' e.id dir := by
    intro dir hprefix
    rw [destroyTakes_iff hmem]
    exact .inl ⟨by simp [htmpfs], hdir ▸ hprefix⟩
  obtain ⟨htmpfsOld, hgroupOld⟩ := hgood.untouched t.nextId e hmem hlt.ne
  obtain ⟨htmpfsNew, hgroupNew⟩ := hgood.untouched e.id _ hmemNew (hnewId.trans_ne hlt.ne')
  rw [hdir] at htmpfsOld
  rw [hgroup] at hgroupOld
  rw [hnewDir] at htmpfsNew
  rw [hnewGroup] at hgroupNew
  exact ⟨⟨fun hp => htmpfsOld (hnewTakes _ hp), fun hp => hgroupOld (hnewTakes _ hp)⟩,
    fun hp => htmpfsNew (holdTakes _ hp), fun hp => hgroupNew (holdTakes _ hp)⟩

end Steps

section Runs

/--
**Whose directories the end of a session takes.**  In a run from `session_init`, the sessions
have paths of their own and no `session_destroy` unmounts or removes a directory of another
session in any state, exactly when every creation that succeeds is given a name that leads to
a place apart: not into, onto or above the tmpfs of a session, not above or onto its control
group, and with no session's tmpfs above or onto the new control group.
-/
theorem session_paths_apart_iff
    {ops : List Operation} {t : SessionTable}
    (hrun : run tableCall sessionInit ops = some t) :
    (∀ before after u,
        ops = before ++ after → run tableCall sessionInit before = some u → PathsApart u)
      ↔
    Guarded tableCall NameFree sessionInit ops := by
  have hstart : Apart sessionInit := by
    have hnone : sessionInit.sessions = [] := rfl
    exact ⟨by decide, by simp [hnone], by simp [hnone]⟩
  refine always_iff_guarded (fun s => Apart.pathsApart) ?_ ?_ hstart hrun
  · exact fun s op s' hinv hok hstep => apart_call hinv hok hstep
  · exact fun s op s' hinv hnot hstep => not_pathsApart_call hinv hnot hstep

/-- A creation that succeeds, with a name. -/
def createNamed (name : String) : Operation :=
  .create ⟨some (cstr (ascii name)), 0, 0⟩ ⟨0, true, 100⟩

/-- Two names, no name, and the first session again after its end. -/
def apartCalls : List Operation :=
  [createNamed "work", createNamed "play", .create ⟨none, 0, 0⟩ ⟨0, true, 100⟩, .destroy 1,
    createNamed "work"]

/-- The sessions of that run stay apart. -/
theorem apart_calls_apart :
    ∃ t, run tableCall sessionInit apartCalls = some t ∧
      ∀ before after u,
        apartCalls = before ++ after → run tableCall sessionInit before = some u →
          PathsApart u := by
  refine ⟨_, rfl, ?_⟩
  have hiff := @session_paths_apart_iff apartCalls _ rfl
  exact hiff.mpr (by decide)

/-- Two sessions of one name. -/
def twiceNamed : List Operation :=
  [createNamed "work", createNamed "work"]

/-- Both sessions are active, and both have the tmpfs path of that name: the end of either
unmounts and removes the directory of the other. -/
theorem twice_named_shared :
    ∃ t a b, run tableCall sessionInit twiceNamed = some t ∧ t.sessions = [a, b] ∧
      a.id = 1 ∧ b.id = 2 ∧ a.tmpfsPath = b.tmpfsPath ∧
      destroyTakes t 1 b.tmpfsDir ∧ ¬ PathsApart t := by
  refine ⟨_, _, _, rfl, rfl, rfl, rfl, rfl, ⟨0, rfl, .inl ⟨by decide, List.prefix_rfl⟩⟩, ?_⟩
  intro h
  exact h.tmpfs _ (List.mem_cons_self) _ (List.mem_cons_of_mem _ List.mem_cons_self) (by decide)
    rfl

end Runs

end Session
end SecureZ
