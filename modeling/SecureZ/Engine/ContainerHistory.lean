import SecureZ.Engine.HiddenContainer

/-!
# The container table and its history

What the table is for: it holds exactly the containers whose latest opening succeeded and
that were not closed since.  The history of a run lists the calls with their statuses;
which names are open is read off the history alone.

The table keeps to the history in every run with names that fit the array of an entry,
whatever the system does.  The key fact is that closing removes the entries of one name
from the list, also when a name was copied before the table changed.
-/

namespace SecureZ
namespace Container

open CLib

section Runs

/-- A call, with what the system comes back with. -/
inductive Operation
  | openContainer (name : CString) (sys : OpenSys)
  | closeContainer (name : CString) (sys : CloseSys)
  | destroyContainer (name : CString) (sys : CloseSys)
  | closeAll (sys : Nat → CloseSys)

/-- The name of the call, if it has one, fits the array of an entry. -/
def Operation.NameFits : Operation → Prop
  | .openContainer name _ => name.strlen < containerNameMax
  | .closeContainer name _ => name.strlen < containerNameMax
  | .destroyContainer name _ => name.strlen < containerNameMax
  | .closeAll _ => True

/-- A call on the table. -/
def perform (base : CString) (opening : Nat) (t : ContainerTable) : Operation → Outcome
  | .openContainer name sys => containerOpen t base name opening sys
  | .closeContainer name sys => containerClose t name sys
  | .destroyContainer name sys => containerDestroy t name sys
  | .closeAll sys => containerCloseAll t sys

/-- The calls of a run with their statuses. -/
abbrev History := List (Operation × Int)

/-- A call in a run. -/
def runStep (base : CString) (s : ContainerTable × History) (op : Operation) :
    ContainerTable × History :=
  ((perform base s.2.length s.1 op).table,
    s.2 ++ [(op, (perform base s.2.length s.1 op).status)])

/-- The table and the history after a run from `container_init`. -/
def runFrom (base : CString) (ops : List Operation) : ContainerTable × History :=
  ops.foldl (runStep base) (containerInit, [])

end Runs

section Purpose

/-- What a call means for whether a name is open. -/
def trackName (name : CString) (was : Bool) : Operation × Int → Bool
  | (.openContainer n _, status) => if n = name then status = 0 else was
  | (.closeContainer n _, status) => if n = name ∧ status = 0 then false else was
  | (.destroyContainer n _, status) => if n = name ∧ status = 0 then false else was
  | (.closeAll _, _) => false

/-- The latest opening of the name succeeded, and nothing closed it since. -/
def openedLast (h : History) (name : CString) : Bool :=
  h.foldl (trackName name) false

/-- The table by itself: every entry is open, and names differ. -/
structure Sound (t : ContainerTable) : Prop where
  opened : ∀ e ∈ t.entries, e.state = .opened
  distinct : t.entries.Pairwise fun a b => a.name.text ≠ b.name.text
  count_le : t.count ≤ containerMaxActive

/-- The table keeps to the history: one entry for each open name and no other. -/
structure Faithful (t : ContainerTable) (h : History) : Prop extends Sound t where
  tracked : ∀ name, (∃ e ∈ t.entries, e.name.text = name) ↔ openedLast h name = true

/-- `container_open` would write again the slot of an entry that is not open. -/
def ReusesSlot (t : ContainerTable) (name : CString) : Prop :=
  ∃ idx ∈ findContainer t name, (t.slots idx).state ≠ .opened

theorem openedLast_append
    (h : History) (c : Operation × Int) (name : CString) :
    openedLast (h ++ [c]) name = trackName name (openedLast h name) c := by
  simp [openedLast]

end Purpose

section TableSteps

variable {t : ContainerTable}

/-- In a sound table, an entry under the name is all that it takes to be open. -/
theorem isOpen_iff
    (h : Sound t)
    (name : CString) :
    isOpen t name ↔ ∃ e ∈ t.entries, e.name.text = name := by
  constructor
  · rintro ⟨idx, hfind, -⟩
    obtain ⟨-, hname, hmem⟩ := findContainer_spec hfind
    exact ⟨_, hmem, hname⟩
  · rintro ⟨e, he, hname⟩
    cases hfind : findContainer t name with
    | none => exact absurd hname (findContainer_eq_none_iff.mp hfind e he)
    | some idx => exact ⟨idx, hfind, h.opened _ (findContainer_spec hfind).2.2⟩

/-- Removing entries keeps a table sound. -/
theorem sound_of_sublist
    {t' : ContainerTable}
    (h : Sound t)
    (hsub : t'.entries.Sublist t.entries) :
    Sound t' := by
  refine ⟨fun e he => h.opened e (hsub.subset he), h.distinct.sublist hsub, ?_⟩
  have hlen := hsub.length_le
  rw [length_entries, length_entries] at hlen
  exact hlen.trans h.count_le

/-- Closing removes the entries of the name, and succeeds if there is one. -/
theorem containerClose_spec
    (h : Sound t)
    (name : CString) (sys : CloseSys) :
    (containerClose t name sys).table.entries =
        t.entries.filter (fun e => e.name.text ≠ name) ∧
      (containerClose t name sys).status =
        if ∃ e ∈ t.entries, e.name.text = name then 0 else -1 := by
  have heffect := containerClose_effect t name sys
  generalize containerClose t name sys = r at heffect ⊢
  cases heffect with
  | absent hclosed =>
      rw [isOpen_iff h] at hclosed
      refine ⟨?_, by rw [if_neg hclosed]⟩
      rw [eq_comm, List.filter_eq_self]
      intro e he
      simpa using fun hname => hclosed ⟨e, he, hname⟩
  | closed hfind hopen =>
      obtain ⟨-, hname, hmem⟩ := findContainer_spec hfind
      refine ⟨?_, by rw [if_pos ⟨_, hmem, hname⟩]⟩
      rw [entries_untrack hfind]
      exact SlotArray.eraseP_key_eq_filter (fun e : ContainerInfo => e.name.text) h.distinct name

theorem sound_containerClose
    (h : Sound t)
    (name : CString) (sys : CloseSys) :
    Sound (containerClose t name sys).table := by
  refine sound_of_sublist h ?_
  rw [(containerClose_spec h name sys).1]
  exact List.filter_sublist

/-- The closing loop removes the entries of all its names. -/
theorem closeLoop_spec
    (h : Sound t)
    (sys : Nat → CloseSys) (names : List CString) :
    Sound (closeLoop t sys names).table ∧
      (closeLoop t sys names).table.entries =
        t.entries.filter (fun e => e.name.text ∉ names) := by
  induction names generalizing t sys with
  | nil =>
      simpa [closeLoop] using h
  | cons name names ih =>
      obtain ⟨hsound, hentries⟩ :=
        ih (sound_containerClose h name (sys 0)) (fun i => sys (i + 1))
      refine ⟨hsound, ?_⟩
      have hfirst := (containerClose_spec h name (sys 0)).1
      simp only [closeLoop]
      rw [hentries, hfirst, List.filter_filter]
      refine List.filter_congr fun e _ => ?_
      by_cases he : e.name.text = name <;> simp [he]

/-- `container_close_all` leaves the table empty. -/
theorem containerCloseAll_spec
    (h : Sound t)
    (sys : Nat → CloseSys) :
    Sound (containerCloseAll t sys).table ∧ (containerCloseAll t sys).table.entries = [] := by
  obtain ⟨hsound, hentries⟩ := closeLoop_spec h sys (t.entries.map fun e => e.name.text)
  refine ⟨hsound, ?_⟩
  rw [containerCloseAll, hentries, List.filter_eq_nil_iff]
  intro e he
  simpa using ⟨e, he, rfl⟩

/-- The name in a new entry is the one that was asked for, if it fits. -/
theorem openEntry_name
    {name : CString}
    (hfits : name.strlen < containerNameMax)
    (base : CString) (opening : Nat) (old : ContainerInfo) :
    (openEntry base name opening old).name.text = name :=
  CharArray.store_text_of_fits hfits

/-- A new entry under a new name keeps a table sound. -/
theorem sound_track
    {name : CString}
    (h : Sound t)
    (hfits : name.strlen < containerNameMax)
    (hnone : findContainer t name = none)
    (hroom : t.count < containerMaxActive)
    (base : CString) (opening : Nat) :
    Sound (track t base name opening) := by
  have hentries := entries_track hnone base opening
  refine ⟨?_, ?_, ?_⟩
  · rw [hentries]
    exact List.forall_mem_append.mpr ⟨h.opened, by simp [openEntry]⟩
  · rw [hentries, List.pairwise_append]
    refine ⟨h.distinct, by simp, ?_⟩
    intro a ha b hb
    obtain rfl := List.mem_singleton.mp hb
    rw [openEntry_name hfits]
    exact findContainer_eq_none_iff.mp hnone a ha
  · have hlen := congrArg List.length hentries
    rw [length_entries, List.length_append, length_entries, List.length_singleton] at hlen
    omega

/-- Opening changes the table only by an entry behind the others, if it succeeds and the
name was not open. -/
theorem containerOpen_spec
    {name : CString}
    (h : Sound t)
    (hfits : name.strlen < containerNameMax)
    (base : CString) (opening : Nat) (sys : OpenSys) :
    Sound (containerOpen t base name opening sys).table ∧
      ∀ n, (∃ e ∈ (containerOpen t base name opening sys).table.entries, e.name.text = n)
        ↔
      if name = n then (containerOpen t base name opening sys).status = 0
      else ∃ e ∈ t.entries, e.name.text = n := by
  have hiff := isOpen_iff h name
  have hstays :
      ∀ status : Int, (status = 0 ↔ isOpen t name) →
        ∀ n, (∃ e ∈ t.entries, e.name.text = n)
          ↔
        if name = n then status = 0 else ∃ e ∈ t.entries, e.name.text = n := by
    intro status hstatus n
    split_ifs with hn
    · subst hn
      rw [hstatus, hiff]
    · rfl
  have heffect := containerOpen_effect t base name opening sys
  generalize containerOpen t base name opening sys = r at heffect ⊢
  cases heffect with
  | already hopen => exact ⟨h, hstays 0 (by simp [hopen])⟩
  | refused hclosed => exact ⟨h, hstays (-1) (by simp [hclosed])⟩
  | locked hclosed hfail => exact ⟨h, hstays (-1) (by simp [hclosed])⟩
  | unmounted hclosed hroom hfiles hpipe hopened hfail =>
      exact ⟨h, hstays (-1) (by simp [hclosed])⟩
  | opened hclosed hroom hopened =>
      have hnone : findContainer t name = none := by
        rw [findContainer_eq_none_iff]
        exact fun e he hname => hclosed (hiff.mpr ⟨e, he, hname⟩)
      refine ⟨sound_track h hfits hnone (hroom hnone) base opening, fun n => ?_⟩
      rw [entries_track hnone]
      have hnew := openEntry_name hfits base opening (t.slots t.count)
      split_ifs with hn
      · exact ⟨fun _ => rfl, fun _ => ⟨_, List.mem_append_right _ (List.mem_singleton_self _),
          hnew.trans hn⟩⟩
      · simp [hnew, hn]

/-- What opening does to the list. -/
theorem entries_containerOpen
    (h : Sound t)
    (base name : CString) (opening : Nat) (sys : OpenSys) :
    (containerOpen t base name opening sys).table.entries = t.entries ∨
      ∃ e, e.opening = opening ∧
        (containerOpen t base name opening sys).table.entries = t.entries ++ [e] := by
  have heffect := containerOpen_effect t base name opening sys
  generalize containerOpen t base name opening sys = r at heffect ⊢
  cases heffect with
  | opened hclosed hroom hopened =>
      have hnone : findContainer t name = none := by
        rw [findContainer_eq_none_iff]
        exact fun e he hname => hclosed ((isOpen_iff h name).mpr ⟨e, he, hname⟩)
      exact Or.inr ⟨_, rfl, entries_track hnone base opening⟩
  | _ => exact Or.inl rfl

end TableSteps

section History

/-- Which names are left after a close, and whether it succeeded. -/
theorem containerClose_names
    {t : ContainerTable} {h : History}
    (hf : Faithful t h)
    (name : CString) (sys : CloseSys) :
    ∀ n, (∃ e ∈ (containerClose t name sys).table.entries, e.name.text = n)
      ↔
    name ≠ n ∧ openedLast h n = true := by
  intro n
  rw [(containerClose_spec hf.toSound name sys).1, ← hf.tracked n]
  constructor
  · rintro ⟨e, he, rfl⟩
    rw [List.mem_filter] at he
    exact ⟨Ne.symm (by simpa using he.2), e, he.1, rfl⟩
  · rintro ⟨hne, e, he, rfl⟩
    exact ⟨e, List.mem_filter.mpr ⟨he, by simpa using Ne.symm hne⟩, rfl⟩

/-- A close fails only for names that are not open. -/
theorem openedLast_of_close
    {t : ContainerTable} {h : History}
    (hf : Faithful t h)
    (name : CString) (sys : CloseSys) :
    (containerClose t name sys).status = 0 ∨ openedLast h name = false := by
  rw [(containerClose_spec hf.toSound name sys).2]
  split_ifs with hname
  · exact Or.inl rfl
  · right
    rw [hf.tracked name] at hname
    simpa using hname

/-- Every call keeps the table faithful to the history. -/
theorem faithful_step
    {s : ContainerTable × History} {op : Operation}
    (hf : Faithful s.1 s.2)
    (hfits : op.NameFits)
    (base : CString) :
    Faithful (runStep base s op).1 (runStep base s op).2 := by
  obtain ⟨t, h⟩ := s
  cases op with
  | openContainer name sys =>
      obtain ⟨hsound, hnames⟩ := containerOpen_spec hf.toSound hfits base h.length sys
      refine ⟨hsound, fun n => ?_⟩
      simp only [runStep, perform, openedLast_append, trackName]
      rw [hnames n]
      split_ifs
      · simp
      · exact hf.tracked n
  | closeContainer name sys =>
      refine ⟨sound_containerClose hf.toSound name sys, fun n => ?_⟩
      simp only [runStep, perform, openedLast_append, trackName]
      rw [containerClose_names hf name sys n]
      by_cases hn : name = n
      · subst hn
        rcases openedLast_of_close hf name sys with hstatus | hclosed
        · simp [hstatus]
        · simp [hclosed]
      · simp [hn]
  | destroyContainer name sys =>
      refine ⟨sound_containerClose hf.toSound name sys, fun n => ?_⟩
      simp only [runStep, perform, containerDestroy, openedLast_append, trackName]
      rw [containerClose_names hf name sys n]
      by_cases hn : name = n <;> simp [hn]
  | closeAll sys =>
      obtain ⟨hsound, hentries⟩ := containerCloseAll_spec hf.toSound sys
      refine ⟨hsound, fun n => ?_⟩
      simp only [runStep, perform, openedLast_append, trackName]
      simp [hentries]

/-- The table is faithful in every state that a run reaches. -/
theorem faithful_run
    {s : ContainerTable × History} {ops : List Operation}
    (hf : Faithful s.1 s.2)
    (hfits : ∀ op ∈ ops, op.NameFits)
    (base : CString) :
    Faithful (ops.foldl (runStep base) s).1 (ops.foldl (runStep base) s).2 := by
  induction ops generalizing s with
  | nil =>
      exact hf
  | cons op ops ih =>
      rw [List.forall_mem_cons] at hfits
      exact ih (faithful_step hf hfits.1 base) hfits.2

theorem faithful_init :
    Faithful containerInit [] where
  opened := by simp [ContainerTable.entries, containerInit]
  distinct := by simp [ContainerTable.entries, containerInit]
  count_le := by decide
  tracked := by simp [ContainerTable.entries, containerInit, openedLast]

/--
**The container table is faithful to its history.**  After every run with names that fit,
there is exactly one entry, in state `OPEN`, for each name whose latest opening succeeded
and that was not closed since; no call would reuse a slot, and `container_close_all` would
leave the table empty.
-/
theorem containerTable_faithful
    (base : CString) (ops : List Operation)
    (hfits : ∀ op ∈ ops, op.NameFits) :
    Faithful (runFrom base ops).1 (runFrom base ops).2 ∧
      (∀ name, ¬ ReusesSlot (runFrom base ops).1 name) ∧
      ∀ sys, (containerCloseAll (runFrom base ops).1 sys).table.count = 0 := by
  have hf := faithful_run (s := (containerInit, [])) faithful_init hfits base
  refine ⟨hf, ?_, ?_⟩
  · rintro name ⟨idx, hfind, hstate⟩
    exact hstate (hf.opened _ (findContainer_spec hfind).2.2)
  · intro sys
    rw [← length_entries]
    exact congrArg List.length (containerCloseAll_spec hf.toSound sys).2

/-- The directory of the containers, for root. -/
def someBase : CString := literal "/root/.securez/containers" (by decide)

/-- The name `work`. -/
def workName : CString := literal "work" (by decide)

/-- The name `mail`. -/
def mailName : CString := literal "mail" (by decide)

/-- Two containers are opened, one of them twice, and one is closed. -/
def twoContainers : List Operation :=
  [.openContainer workName ⟨true, true, true, true, true⟩,
    .openContainer mailName ⟨true, true, true, true, true⟩,
    .openContainer workName ⟨true, true, false, false, false⟩,
    .closeContainer workName ⟨false, false⟩]

/-- After that run the table holds the other one. -/
theorem two_containers_faithful :
    (∀ op ∈ twoContainers, op.NameFits) ∧
      Faithful (runFrom someBase twoContainers).1 (runFrom someBase twoContainers).2 ∧
      openedLast (runFrom someBase twoContainers).2 mailName = true ∧
      openedLast (runFrom someBase twoContainers).2 workName = false := by
  have hfits : ∀ op ∈ twoContainers, op.NameFits := by
    simp only [twoContainers, List.forall_mem_cons, Operation.NameFits, List.not_mem_nil,
      false_imp_iff, implies_true, and_true]
    decide
  exact ⟨hfits, (containerTable_faithful _ twoContainers hfits).1, by decide +kernel,
    by decide +kernel⟩

end History

end Container
end SecureZ
