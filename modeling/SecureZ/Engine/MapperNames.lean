import SecureZ.Engine.ContainerHistory

/-!
# What closing undoes

`container_open` builds a mapper name and a mount path and passes them to the system;
closing passes the copies in the entry.  Both are determined by the container name, so the
calls of closing can be compared with those of opening in every run, at every position of
the entry and after any calls for other containers.

The mount path always survives the copy.  The mapper name is built in an array of
`CONTAINER_NAME_MAX + 16` bytes and kept in one of `CONTAINER_NAME_MAX`, which is too small
for the longest names.
-/

namespace SecureZ
namespace Container

open CLib

section Specification

/-- An opening mapped and mounted a device under these names. -/
def OpensWith (calls : List Call) (mapper path : CString) : Prop :=
  (∃ header vault, .cryptsetupOpen header vault mapper true ∈ calls) ∧
    ∃ device, .mount device path true ∈ calls

/-- The calls that undo it. -/
def undoCalls (mapper path : CString) (sys : CloseSys) : List Call :=
  [.umount path sys.umount, .rmdir path, .cryptsetupClose mapper sys.cryptsetupClose]

/-- Closing the name, alone or with all others, makes the calls that undo an opening. -/
structure Undoes (t : ContainerTable) (name mapper path : CString) : Prop where
  close : ∀ sys, (containerClose t name sys).calls = undoCalls mapper path sys
  closeAll :
    ∀ sys, ∃ i, undoCalls mapper path (sys i) <:+: (containerCloseAll t sys).calls

/-- In every run, whatever a successful opening of the name mapped and mounted is what
closing it unmounts and closes, as long as the entry of that opening is in the table. -/
def ClosesWhatItOpens (base name : CString) : Prop :=
  ∀ (before after : List Operation) (sys : OpenSys) (mapper path : CString),
    (containerOpen (runFrom base before).1 base name (runFrom base before).2.length sys).status
        = 0 →
    OpensWith
      (containerOpen (runFrom base before).1 base name (runFrom base before).2.length sys).calls
      mapper path →
    (∃ e ∈ (after.foldl (runStep base)
        (runStep base (runFrom base before) (.openContainer name sys))).1.entries,
      e.opening = (runFrom base before).2.length) →
    Undoes (after.foldl (runStep base)
      (runStep base (runFrom base before) (.openContainer name sys))).1 name mapper path

end Specification

section Invariant

/-- The entry was written by the opening that has its number in the history. -/
def FromHistory (h : History) (e : ContainerInfo) : Prop :=
  ∃ name sys status,
    h[e.opening]? = some (.openContainer name sys, status) ∧ WrittenFor e name

/-- Every entry of the table was written by an opening of the history. -/
def Recorded (s : ContainerTable × History) : Prop :=
  ∀ e ∈ s.1.entries, FromHistory s.2 e

theorem fromHistory_append
    {h : History} {e : ContainerInfo}
    (hfrom : FromHistory h e)
    (more : History) :
    FromHistory (h ++ more) e := by
  obtain ⟨name, sys, status, hget, hwritten⟩ := hfrom
  refine ⟨name, sys, status, ?_, hwritten⟩
  have hlt : e.opening < h.length := (List.getElem?_eq_some_iff.mp hget).1
  rw [List.getElem?_append_left hlt, hget]

theorem state_of_recorded
    {s : ContainerTable × History}
    (h : Recorded s)
    {name : CString} {idx : Nat}
    (hfind : findContainer s.1 name = some idx) :
    (s.1.slots idx).state = .opened := by
  obtain ⟨n, sys, status, -, hwritten⟩ := h _ (findContainer_spec hfind).2.2
  exact hwritten.state

/-- A close takes entries away and adds none. -/
theorem entries_containerClose_subset
    (t : ContainerTable) (name : CString) (sys : CloseSys) :
    ∀ e ∈ (containerClose t name sys).table.entries, e ∈ t.entries := by
  have heffect := containerClose_effect t name sys
  generalize containerClose t name sys = r at heffect ⊢
  cases heffect with
  | absent hclosed => exact fun e he => he
  | closed hfind hopen =>
      rw [entries_untrack hfind]
      exact fun e he => List.mem_of_mem_eraseP he

theorem entries_closeLoop_subset
    (t : ContainerTable) (sys : Nat → CloseSys) (names : List CString) :
    ∀ e ∈ (closeLoop t sys names).table.entries, e ∈ t.entries := by
  induction names generalizing t sys with
  | nil =>
      exact fun e he => he
  | cons name names ih =>
      exact fun e he => entries_containerClose_subset t name (sys 0) e (ih _ _ e he)

/-- Every call keeps the table recorded. -/
theorem recorded_step
    {s : ContainerTable × History}
    (h : Recorded s)
    (base : CString) (op : Operation) :
    Recorded (runStep base s op) := by
  have hkept :
      ∀ r : Outcome, (∀ e ∈ r.table.entries, e ∈ s.1.entries) →
        ∀ e ∈ r.table.entries, FromHistory (s.2 ++ [(op, r.status)]) e :=
    fun r hsub e he => fromHistory_append (h e (hsub e he)) _
  cases op with
  | openContainer name sys =>
      have heffect := containerOpen_effect s.1 base name s.2.length sys
      simp only [Recorded, runStep, perform]
      generalize containerOpen s.1 base name s.2.length sys = r at heffect ⊢
      cases heffect with
      | already hopen => exact hkept ⟨s.1, 0, []⟩ fun e he => he
      | refused hclosed => exact hkept ⟨s.1, -1, []⟩ fun e he => he
      | locked hclosed hfail => exact hkept ⟨s.1, -1, []⟩ fun e he => he
      | unmounted hclosed hroom hfiles hpipe hopened hfail =>
          exact hkept ⟨s.1, -1, []⟩ fun e he => he
      | opened hclosed hroom hopened =>
          have hnone : findContainer s.1 name = none := by
            cases hfind : findContainer s.1 name with
            | none => rfl
            | some idx => exact absurd ⟨idx, hfind, state_of_recorded h hfind⟩ hclosed
          rw [entries_track hnone]
          refine List.forall_mem_append.mpr ⟨fun e he => fromHistory_append (h e he) _, ?_⟩
          intro e he
          obtain rfl := List.mem_singleton.mp he
          exact ⟨name, sys, 0, by simp [openEntry], openEntry_writtenFor _ _ _ _⟩
  | closeContainer name sys => exact hkept _ (entries_containerClose_subset _ _ _)
  | destroyContainer name sys => exact hkept _ (entries_containerClose_subset _ _ _)
  | closeAll sys => exact hkept _ (entries_closeLoop_subset _ _ _)

theorem recorded_run
    {s : ContainerTable × History}
    (h : Recorded s)
    (base : CString) (ops : List Operation) :
    Recorded (ops.foldl (runStep base) s) := by
  induction ops generalizing s with
  | nil =>
      exact h
  | cons op ops ih =>
      exact ih (recorded_step h base op)

theorem recorded_runFrom
    (base : CString) (ops : List Operation) :
    Recorded (runFrom base ops) :=
  recorded_run (by simp [Recorded, containerInit, ContainerTable.entries]) base ops

/-- A run only adds to the history. -/
theorem history_prefix
    (s : ContainerTable × History) (base : CString) (ops : List Operation) :
    s.2 <+: (ops.foldl (runStep base) s).2 := by
  induction ops generalizing s with
  | nil =>
      exact List.prefix_refl _
  | cons op ops ih =>
      exact (List.prefix_append _ _).trans (ih (runStep base s op))

end Invariant

section Closing

/-- Every entry was written by some opening. -/
def AllWritten (t : ContainerTable) : Prop :=
  ∀ e ∈ t.entries, ∃ n, WrittenFor e n

/-- Closing a short name makes the calls that undo its opening. -/
theorem calls_containerClose
    {t : ContainerTable} {name : CString}
    (h : AllWritten t)
    (hshort : ShortName name)
    (hmem : ∃ e ∈ t.entries, e.name.text = name)
    (sys : CloseSys) :
    (containerClose t name sys).calls =
      undoCalls (mapperName name).text (mountPath name).text sys := by
  have hfound : findContainer t name ≠ none := by
    obtain ⟨e, he, hname⟩ := hmem
    exact fun hnone => findContainer_eq_none_iff.mp hnone e he hname
  obtain ⟨idx, hfind⟩ := Option.ne_none_iff_exists'.mp hfound
  obtain ⟨-, hname, he⟩ := findContainer_spec hfind
  obtain ⟨n, hwritten⟩ := h _ he
  rw [← hname] at hshort
  have hn : n = name := (name_of_short hwritten hshort).symm.trans hname
  subst hn
  have hmapper := (mapperName_eq_iff hwritten).mpr ((shortName_iff hwritten).mp hshort)
  simp only [containerClose, hfind, hwritten.state, ne_eq, not_true_eq_false, if_false,
    closeCalls, undoCalls, hmapper, hwritten.mount]

/-- Closing another name keeps an entry. -/
theorem mem_entries_containerClose
    {t : ContainerTable} {e : ContainerInfo} {name : CString}
    (he : e ∈ t.entries)
    (hne : e.name.text ≠ name)
    (sys : CloseSys) :
    e ∈ (containerClose t name sys).table.entries := by
  have heffect := containerClose_effect t name sys
  generalize containerClose t name sys = r at heffect ⊢
  cases heffect with
  | absent hclosed => exact he
  | closed hfind hopen =>
      rw [entries_untrack hfind]
      exact (List.mem_eraseP_of_neg (by simpa using hne)).mpr he

/-- The closing loop comes to each of its names while its entry is in the table. -/
theorem calls_closeLoop
    {t : ContainerTable} {name : CString} {names : List CString}
    (h : AllWritten t)
    (hshort : ShortName name)
    (hmem : ∃ e ∈ t.entries, e.name.text = name)
    (hname : name ∈ names)
    (sys : Nat → CloseSys) :
    ∃ i, undoCalls (mapperName name).text (mountPath name).text (sys i) <:+:
      (closeLoop t sys names).calls := by
  induction names generalizing t sys with
  | nil =>
      simp at hname
  | cons first names ih =>
      simp only [closeLoop]
      by_cases heq : first = name
      · subst heq
        refine ⟨0, ?_⟩
        rw [calls_containerClose h hshort hmem]
        exact (List.prefix_append _ _).isInfix
      · have hrest : name ∈ names := by
          simpa [Ne.symm heq] using hname
        obtain ⟨e, he, hentry⟩ := hmem
        have hkept : e ∈ (containerClose t first (sys 0)).table.entries :=
          mem_entries_containerClose he (by rw [hentry]; exact Ne.symm heq) _
        obtain ⟨i, hi⟩ := ih (fun e he => h e (entries_containerClose_subset _ _ _ e he))
          ⟨e, hkept, hentry⟩ hrest (fun i => sys (i + 1))
        exact ⟨i + 1, hi.trans (List.suffix_append _ _).isInfix⟩

end Closing

section Main

/-- The names that an opening uses are determined by the container name. -/
theorem names_of_opensWith
    {t : ContainerTable} {base name mapper path : CString} {opening : Nat} {sys : OpenSys}
    (h : OpensWith (containerOpen t base name opening sys).calls mapper path) :
    mapper = (mapperName name).text ∧ path = (mountPath name).text := by
  have heffect := containerOpen_effect t base name opening sys
  generalize containerOpen t base name opening sys = r at heffect h
  obtain ⟨⟨header, vault, hopen⟩, device, hmount⟩ := h
  cases heffect with
  | already hopen' => simp at hopen
  | refused hclosed => simp at hopen
  | locked hclosed hfail => simp [openCall] at hopen
  | unmounted hclosed hroom hfiles hpipe hopened hfail => simp [openCall, mountCall] at hmount
  | opened hclosed hroom hopened =>
      simp only [openCall, mountCall, List.mem_cons, Call.cryptsetupOpen.injEq,
        List.not_mem_nil, or_false, reduceCtorEq, and_true] at hopen
      simp only [openCall, mountCall, List.mem_cons, Call.mount.injEq, List.not_mem_nil,
        or_false, reduceCtorEq, false_or, and_true] at hmount
      exact ⟨hopen.2.2, hmount.2⟩

/-- A short name is closed as it was opened. -/
theorem closesWhatItOpens_of_short
    {name : CString}
    (hshort : ShortName name)
    (base : CString) :
    ClosesWhatItOpens base name := by
  intro before after sys mapper path _ hopens hentry
  obtain ⟨rfl, rfl⟩ := names_of_opensWith hopens
  have hrecorded := recorded_run
    (recorded_step (recorded_runFrom base before) base (.openContainer name sys)) base after
  have hprefix := history_prefix
    (runStep base (runFrom base before) (.openContainer name sys)) base after
  generalize after.foldl (runStep base) _ = s at hentry hrecorded hprefix ⊢
  have hwritten : AllWritten s.1 := by
    intro e he
    obtain ⟨n, _, _, _, hn⟩ := hrecorded e he
    exact ⟨n, hn⟩
  have hmem : ∃ e ∈ s.1.entries, e.name.text = name := by
    obtain ⟨e, he, hopening⟩ := hentry
    obtain ⟨n, sys', status, hget, hn⟩ := hrecorded e he
    obtain ⟨more, hmore⟩ := hprefix
    have hthis : s.2[e.opening]? =
        some (.openContainer name sys,
          (perform base (runFrom base before).2.length (runFrom base before).1
            (.openContainer name sys)).status) := by
      rw [← hmore, hopening]
      simp [runStep]
    rw [hthis] at hget
    simp only [Option.some.injEq, Prod.mk.injEq, Operation.openContainer.injEq] at hget
    obtain ⟨⟨rfl, -⟩, -⟩ := hget
    exact ⟨e, he, name_of_short hn ((shortName_iff hn).mpr hshort)⟩
  refine ⟨fun csys => calls_containerClose hwritten hshort hmem csys, fun csys => ?_⟩
  obtain ⟨e, he, hname⟩ := hmem
  refine calls_closeLoop hwritten hshort ⟨e, he, hname⟩ ?_ csys
  exact List.mem_map.mpr ⟨e, he, hname⟩

/-- What the system comes back with when everything succeeds. -/
def allSucceeds : OpenSys := ⟨true, true, true, true, true⟩

/-- A name that is opened first and closed at once is closed as it was opened only if it is
short. -/
theorem short_of_closesWhatItOpens
    {base name : CString}
    (h : ClosesWhatItOpens base name) :
    ShortName name := by
  have hopen : containerOpen containerInit base name 0 allSucceeds =
      ⟨track containerInit base name 0, 0, [openCall base name true, mountCall name true]⟩ := by
    have hclosed : ¬ isOpen containerInit name := by
      simp [isOpen, findContainer, containerInit, SlotArray.find]
    have hroom : ¬ containerMaxActive ≤ containerInit.count := by decide
    simp [containerOpen, hclosed, hroom, allSucceeds]
  have hentries : (track containerInit base name 0).entries =
      [openEntry base name 0 .zero] :=
    entries_track rfl base 0
  have hrun : (([] : List Operation).foldl (runStep base)
      (runStep base (runFrom base []) (.openContainer name allSucceeds))).1 =
        track containerInit base name 0 :=
    congrArg Outcome.table hopen
  have hopens : OpensWith (containerOpen containerInit base name 0 allSucceeds).calls
      (mapperName name).text (mountPath name).text := by
    rw [hopen]
    exact ⟨⟨_, _, List.mem_cons_self⟩, (devPath name).text,
      List.mem_cons_of_mem _ (List.mem_singleton_self _)⟩
  have hentry : openEntry base name 0 .zero ∈ (track containerInit base name 0).entries := by
    rw [hentries]
    exact List.mem_singleton_self _
  have hundoes := h [] [] allSucceeds (mapperName name).text (mountPath name).text
    (congrArg Outcome.status hopen) hopens
    ⟨openEntry base name 0 .zero, by rw [hrun]; exact hentry, rfl⟩
  rw [hrun] at hundoes
  have hclose := hundoes.close ⟨true, true⟩
  have heffect := containerClose_effect (track containerInit base name 0) name ⟨true, true⟩
  generalize containerClose (track containerInit base name 0) name ⟨true, true⟩ = r
    at heffect hclose
  cases heffect with
  | absent hclosed => simp [undoCalls] at hclose
  | @closed idx hfind hopened =>
      have he := (findContainer_spec hfind).2.2
      rw [hentries, List.mem_singleton] at he
      rw [he] at hclose
      simp only [closeCalls, undoCalls, List.cons.injEq, Call.cryptsetupClose.injEq,
        and_true] at hclose
      exact (mapperName_eq_iff (openEntry_writtenFor base name 0 .zero)).mp hclose.2.2

/--
**What closing undoes.**  Closing a container, alone or with all others, unmounts the path
and closes the mapper name of its opening, in every run, exactly if its name leaves room
for the prefix in the mapper name of an entry: if it has at most 60 bytes.
-/
theorem closesWhatItOpens_iff
    (base name : CString) :
    ClosesWhatItOpens base name ↔ name.strlen ≤ 60 := by
  have hiff : ShortName name ↔ name.strlen ≤ 60 := by
    simp only [ShortName, containerNameMax]
    omega
  rw [← hiff]
  exact ⟨short_of_closesWhatItOpens, fun hshort => closesWhatItOpens_of_short hshort base⟩

/-- A name of 61 bytes, which `container_create` accepts. -/
def longName : CString where
  bytes := List.replicate 61 97
  nulFree := by decide

/-- Closing it closes another mapper name than opening it opened. -/
theorem long_name_not_closed :
    longName.strlen < containerNameMax ∧ ¬ ClosesWhatItOpens someBase longName :=
  ⟨by decide, fun h => absurd (short_of_closesWhatItOpens h) (by decide)⟩

end Main

end Container
end SecureZ
