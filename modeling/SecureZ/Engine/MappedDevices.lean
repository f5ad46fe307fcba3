import SecureZ.Lib.Transition
import SecureZ.Engine.ContainerHistory
import Mathlib.Data.List.Forall2

/-!
# The table and the mapped devices

An open container is a device mapping in the kernel.  The table is what the engine knows
about the mappings: a mapping without an entry is never closed again.

A system is the table together with the mappings that are open.  `cryptsetup open` fails
for a mapper name that is in use; what else the system comes back with is free.  The
engine does not look at the result of `cryptsetup close`, and an entry keeps at most 63
bytes of its mapper name, so the two sides agree only as long as those closings succeed
and the names fit.
-/

namespace SecureZ
namespace Container

open CLib Transition

section Model

/-- An open mapping, with the opening that made it. -/
structure Mapping where
  mapper : CString
  opening : Nat
deriving DecidableEq

/-- The table, the open mappings and the number of the next opening. -/
structure System where
  table : ContainerTable
  mappings : List Mapping
  openings : Nat

/-- The system after `container_init`, with no mapping. -/
def System.initial : System := ⟨containerInit, [], 0⟩

/-- What a call does to the mappings. -/
def kernelCall (opening : Nat) (ms : List Mapping) : Call → List Mapping
  | .cryptsetupOpen _ _ mapper true => ms ++ [⟨mapper, opening⟩]
  | .cryptsetupClose mapper true => ms.filter fun m => m.mapper ≠ mapper
  | _ => ms

/-- A mapping of the name is open. -/
def Mapped (ms : List Mapping) (mapper : CString) : Prop :=
  ∃ m ∈ ms, m.mapper = mapper

instance (ms : List Mapping) (mapper : CString) : Decidable (Mapped ms mapper) :=
  inferInstanceAs (Decidable (∃ m ∈ ms, _))

/-- `cryptsetup open` fails for a mapper name that is in use. -/
def kernelSys (ms : List Mapping) : Operation → Operation
  | .openContainer name sys =>
      .openContainer name
        { sys with
          cryptsetupOpen := sys.cryptsetupOpen && !decide (Mapped ms (mapperName name).text) }
  | op => op

/-- The result of a call in the system. -/
def outcome (base : CString) (s : System) (op : Operation) : Outcome :=
  perform base s.openings s.table (kernelSys s.mappings op)

/-- One call. -/
def step (base : CString) (s : System) (op : Operation) : Option System :=
  some {
    table := (outcome base s op).table
    mappings := (outcome base s op).calls.foldl (kernelCall s.openings) s.mappings
    openings := s.openings + 1 }

end Model

section Specification

/-- Every open mapping has its entry. -/
def Remembered (s : System) : Prop :=
  ∀ m ∈ s.mappings, ∃ e ∈ s.table.entries, e.opening = m.opening

/-- This opening maps the device and fails to mount it. -/
def MountFails (s : System) (name : CString) (sys : OpenSys) : Prop :=
  ¬ isOpen s.table name ∧
    ¬ (containerMaxActive ≤ s.table.count ∧ findContainer s.table name = none) ∧
    sys.files = true ∧ sys.pipe = true ∧ sys.cryptsetupOpen = true ∧
    ¬ Mapped s.mappings (mapperName name).text ∧ sys.mount = false

/-- The condition on closing a name: if it is open, the name in its entry is short, so that
the mapper name there was not cut, and `cryptsetup close` succeeds. -/
def CloseOk (t : ContainerTable) (name : CString) (sys : CloseSys) : Prop :=
  ∀ idx ∈ findContainer t name,
    (t.slots idx).state = .opened →
      ShortName (t.slots idx).name.text ∧ sys.cryptsetupClose = true

/-- The condition on the loop of `container_close_all`: it holds for each name in turn. -/
def LoopOk (t : ContainerTable) (sys : Nat → CloseSys) : List CString → Prop
  | [] => True
  | name :: names =>
      CloseOk t name (sys 0) ∧
        LoopOk (containerClose t name (sys 0)).table (fun i => sys (i + 1)) names

/-- The condition on a call: each `cryptsetup close` that it makes closes its mapping. -/
def StepOk (s : System) : Operation → Prop
  | .openContainer name sys => MountFails s name sys → sys.cryptsetupClose = true
  | .closeContainer name sys => CloseOk s.table name sys
  | .destroyContainer name sys => CloseOk s.table name sys
  | .closeAll sys => LoopOk s.table sys (s.table.entries.map fun e => e.name.text)

instance (s : System) : Decidable (Remembered s) :=
  inferInstanceAs (Decidable (∀ m ∈ s.mappings, _))

instance (s : System) (name : CString) (sys : OpenSys) : Decidable (MountFails s name sys) :=
  inferInstanceAs (Decidable (_ ∧ _))

instance (t : ContainerTable) (name : CString) (sys : CloseSys) :
    Decidable (CloseOk t name sys) :=
  inferInstanceAs (Decidable (∀ idx ∈ _, _))

instance decidableLoopOk :
    ∀ (t : ContainerTable) (sys : Nat → CloseSys) (names : List CString),
      Decidable (LoopOk t sys names)
  | _, _, [] => isTrue trivial
  | t, sys, name :: names =>
      have := decidableLoopOk (containerClose t name (sys 0)).table (fun i => sys (i + 1)) names
      inferInstanceAs (Decidable (_ ∧ _))

instance (s : System) : ∀ op, Decidable (StepOk s op)
  | .openContainer _ _ => inferInstanceAs (Decidable (_ → _))
  | .closeContainer name sys => inferInstanceAs (Decidable (CloseOk s.table name sys))
  | .destroyContainer name sys => inferInstanceAs (Decidable (CloseOk s.table name sys))
  | .closeAll _ => inferInstanceAs (Decidable (LoopOk _ _ _))

end Specification

section Pairing

/-- A mapping and the entry of the same opening. -/
structure Paired (m : Mapping) (e : ContainerInfo) : Prop where
  opening : e.opening = m.opening
  written : ∃ name : CString, m.mapper = (mapperName name).text ∧ WrittenFor e name

/-- The mappings and the entries run in parallel. -/
structure InStep (t : ContainerTable) (ms : List Mapping) (openings : Nat) : Prop where
  paired : List.Forall₂ Paired ms t.entries
  mappers : ms.Pairwise fun a b => a.mapper ≠ b.mapper
  numbered : ms.Pairwise fun a b => a.opening ≠ b.opening
  below : ∀ m ∈ ms, m.opening < openings

/-- In parallel, no mapping is forgotten. -/
theorem remembered_of_inStep
    {s : System}
    (h : InStep s.table s.mappings s.openings) :
    Remembered s := by
  intro m hm
  obtain ⟨e, he, hpaired⟩ := SlotArray.forall₂_mem h.paired hm
  exact ⟨e, he, hpaired.opening⟩

theorem inStep_mono
    {t : ContainerTable} {ms : List Mapping} {n n' : Nat}
    (h : InStep t ms n)
    (hle : n ≤ n') :
    InStep t ms n' :=
  ⟨h.paired, h.mappers, h.numbered, fun m hm => (h.below m hm).trans_le hle⟩

theorem Paired.state
    {m : Mapping} {e : ContainerInfo}
    (h : Paired m e) :
    e.state = .opened := by
  obtain ⟨name, -, hwritten⟩ := h.written
  exact hwritten.state

/-- The mapper name of an entry is that of its mapping exactly for short names. -/
theorem mapper_eq_iff
    {m : Mapping} {e : ContainerInfo}
    (h : Paired m e) :
    e.mapperName.text = m.mapper ↔ ShortName e.name.text := by
  obtain ⟨name, hmapper, hwritten⟩ := h.written
  rw [hmapper, mapperName_eq_iff hwritten, shortName_iff hwritten]

end Pairing

section Steps

variable {t : ContainerTable} {ms : List Mapping} {n : Nat}

/-- In parallel, a name that is found is open. -/
theorem opened_of_inStep
    (h : InStep t ms n)
    {name : CString} {idx : Nat}
    (hfind : findContainer t name = some idx) :
    ∃ m, ms[idx]? = some m ∧ Paired m (t.slots idx) :=
  SlotArray.forall₂_getElem? h.paired (SlotArray.getElem?_entries (findContainer_spec hfind).1)

/-- Removing the same position on both sides keeps them in parallel. -/
theorem inStep_eraseIdx
    {name : CString} {idx : Nat}
    (h : InStep t ms n)
    (hfind : findContainer t name = some idx) :
    InStep (untrack t idx) (ms.eraseIdx idx) n := by
  have hsub : (ms.eraseIdx idx).Sublist ms := List.eraseIdx_sublist ms idx
  refine ⟨?_, h.mappers.sublist hsub, h.numbered.sublist hsub,
    fun m hm => h.below m (hsub.subset hm)⟩
  rw [entries_untrack_idx hfind]
  exact SlotArray.forall₂_eraseIdx h.paired idx

/-- A close under its condition removes the entry and its mapping. -/
theorem inStep_close
    {name : CString} {sys : CloseSys}
    (h : InStep t ms n)
    (hok : CloseOk t name sys)
    (k : Nat) :
    InStep (containerClose t name sys).table
      ((containerClose t name sys).calls.foldl (kernelCall k) ms) n := by
  have heffect := containerClose_effect t name sys
  generalize containerClose t name sys = r at heffect ⊢
  cases heffect with
  | absent hclosed => exact h
  | @closed idx hfind hopen =>
      obtain ⟨m, hm, hpaired⟩ := opened_of_inStep h hfind
      obtain ⟨hshort, hclose⟩ := hok idx hfind hopen
      have hfilter :
          (closeCalls (t.slots idx) sys).foldl (kernelCall k) ms = ms.eraseIdx idx := by
        rw [← SlotArray.filter_key_eq_eraseIdx Mapping.mapper h.mappers hm,
          ← (mapper_eq_iff hpaired).mpr hshort]
        simp only [closeCalls, hclose, List.foldl_cons, List.foldl_nil, kernelCall]
      rw [hfilter]
      exact inStep_eraseIdx h hfind

/-- The closing loop under its condition. -/
theorem inStep_closeLoop
    {sys : Nat → CloseSys} {names : List CString}
    (h : InStep t ms n)
    (hok : LoopOk t sys names)
    (k : Nat) :
    InStep (closeLoop t sys names).table
      ((closeLoop t sys names).calls.foldl (kernelCall k) ms) n := by
  induction names generalizing t ms sys with
  | nil =>
      exact h
  | cons name names ih =>
      simp only [closeLoop, List.foldl_append]
      exact ih (inStep_close h hok.1 k) hok.2

/-- A mapping that is made and closed again leaves the others. -/
theorem filter_append_mapping
    {mapper : CString}
    (hfree : ¬ Mapped ms mapper)
    (k : Nat) :
    (ms ++ [(⟨mapper, k⟩ : Mapping)]).filter (fun m => m.mapper ≠ mapper) = ms := by
  rw [List.filter_append, List.filter_cons_of_neg (by simp), List.filter_nil, List.append_nil,
    List.filter_eq_self]
  intro m hm
  simpa using fun heq => hfree ⟨m, hm, heq⟩

/-- A new entry and its mapping keep both sides in parallel. -/
theorem inStep_track
    {name : CString}
    (h : InStep t ms n)
    (hnone : findContainer t name = none)
    (hfree : ¬ Mapped ms (mapperName name).text)
    (base : CString) :
    InStep (track t base name n) (ms ++ [⟨(mapperName name).text, n⟩]) (n + 1) := by
  refine ⟨?_, ?_, ?_, ?_⟩
  · rw [entries_track hnone]
    refine List.rel_append h.paired (List.Forall₂.cons ?_ .nil)
    exact ⟨rfl, name, rfl, openEntry_writtenFor base name n _⟩
  · rw [List.pairwise_append]
    refine ⟨h.mappers, by simp, fun m hm m' hm' heq => ?_⟩
    obtain rfl := List.mem_singleton.mp hm'
    exact hfree ⟨m, hm, heq⟩
  · rw [List.pairwise_append]
    refine ⟨h.numbered, by simp, fun m hm m' hm' => ?_⟩
    obtain rfl := List.mem_singleton.mp hm'
    exact (h.below m hm).ne
  · refine List.forall_mem_append.mpr ⟨fun m hm => (h.below m hm).trans (Nat.lt_succ_self n), ?_⟩
    simp

/-- An opening under its condition keeps both sides in parallel. -/
theorem inStep_open
    {s : System} {name : CString} {sys : OpenSys}
    (h : InStep s.table s.mappings s.openings)
    (hok : MountFails s name sys → sys.cryptsetupClose = true)
    (base : CString) :
    InStep (outcome base s (.openContainer name sys)).table
      ((outcome base s (.openContainer name sys)).calls.foldl (kernelCall s.openings) s.mappings)
      (s.openings + 1) := by
  have hmono := inStep_mono h (Nat.le_succ _)
  simp only [outcome, kernelSys, perform]
  have heffect := containerOpen_effect s.table base name s.openings
    { sys with
      cryptsetupOpen :=
        sys.cryptsetupOpen && !decide (Mapped s.mappings (mapperName name).text) }
  generalize containerOpen s.table base name s.openings _ = r at heffect ⊢
  cases heffect with
  | already hopen => exact hmono
  | refused hclosed => exact hmono
  | locked hclosed hfail => exact hmono
  | unmounted hclosed hroom hfiles hpipe hopened hfail =>
      simp only [Bool.and_eq_true, Bool.not_eq_true', decide_eq_false_iff_not] at hopened
      have hclose := hok ⟨hclosed, hroom, hfiles, hpipe, hopened.1, hopened.2, hfail⟩
      simp only [List.foldl_cons, List.foldl_nil, openCall, mountCall, kernelCall, hclose]
      rw [filter_append_mapping hopened.2]
      exact hmono
  | opened hclosed hroom hopened =>
      simp only [Bool.and_eq_true, Bool.not_eq_true', decide_eq_false_iff_not] at hopened
      have hnone : findContainer s.table name = none := by
        cases hfind : findContainer s.table name with
        | none => rfl
        | some idx =>
            obtain ⟨m, -, hpaired⟩ := opened_of_inStep h hfind
            exact absurd ⟨idx, hfind, hpaired.state⟩ hclosed
      exact inStep_track h hnone hopened.2 base

/-- Every call under its condition keeps both sides in parallel. -/
theorem inStep_step
    {s s' : System} {op : Operation} {base : CString}
    (h : InStep s.table s.mappings s.openings)
    (hok : StepOk s op)
    (hstep : step base s op = some s') :
    InStep s'.table s'.mappings s'.openings := by
  obtain rfl := Option.some.inj hstep
  cases op with
  | openContainer name sys => exact inStep_open h hok base
  | closeContainer name sys => exact inStep_mono (inStep_close h hok _) (Nat.le_succ _)
  | destroyContainer name sys => exact inStep_mono (inStep_close h hok _) (Nat.le_succ _)
  | closeAll sys => exact inStep_mono (inStep_closeLoop h hok _) (Nat.le_succ _)

end Steps

section Runs

/-- Both sides of a system are in parallel. -/
def Parallel (s : System) : Prop :=
  InStep s.table s.mappings s.openings

theorem parallel_run
    {base : CString} {s : System} {ops : List Operation}
    (hguard : Guarded (step base) StepOk System.initial ops)
    (hrun : run (step base) System.initial ops = some s) :
    Parallel s :=
  invariant_of_guarded (fun _ _ _ (h : Parallel _) hok hstep => inStep_step h hok hstep)
    ⟨.nil, .nil, .nil, by simp [System.initial]⟩ hguard hrun

/-- The numbers of the openings in the table differ. -/
theorem openings_distinct
    {t : ContainerTable} {ms : List Mapping} {n : Nat}
    (h : InStep t ms n) :
    t.entries.Pairwise fun a b => a.opening ≠ b.opening := by
  have hmap : t.entries.map ContainerInfo.opening = ms.map Mapping.opening := by
    rw [← List.forall₂_eq_eq_eq, List.forall₂_map_left_iff, List.forall₂_map_right_iff]
    exact h.paired.flip.imp fun e m hpaired => hpaired.opening
  rw [← List.pairwise_map (f := ContainerInfo.opening) (R := fun a b => a ≠ b), hmap,
    List.pairwise_map]
  exact h.numbered

/-- The entry that a close removes takes its number along. -/
theorem opening_not_mem_untrack
    {t : ContainerTable} {ms : List Mapping} {n idx : Nat} {name : CString}
    (h : InStep t ms n)
    (hfind : findContainer t name = some idx) :
    ∀ e ∈ (untrack t idx).entries, e.opening ≠ (t.slots idx).opening := by
  have hget : t.entries[idx]? = some (t.slots idx) :=
    SlotArray.getElem?_entries (findContainer_spec hfind).1
  rw [entries_untrack_idx hfind,
    ← SlotArray.filter_key_eq_eraseIdx ContainerInfo.opening (openings_distinct h) hget]
  intro e he
  simpa using (List.mem_filter.mp he).2

/-- In parallel, a close of a name that is found removes its entry. -/
theorem containerClose_of_inStep
    {t : ContainerTable} {ms : List Mapping} {n idx : Nat} {name : CString}
    (h : InStep t ms n)
    (hfind : findContainer t name = some idx)
    (sys : CloseSys) :
    containerClose t name sys = ⟨untrack t idx, 0, closeCalls (t.slots idx) sys⟩ := by
  obtain ⟨m, -, hpaired⟩ := opened_of_inStep h hfind
  simp [containerClose, hfind, hpaired.state]

/--
**No mapping is forgotten.**  In every run in which each `cryptsetup close` of the engine
closes its mapping, every open mapping has its entry in the table; and a further
`container_close` under that condition that returns 0 leaves no mapping of the entry that
it removed.
-/
theorem mappings_remembered
    {base : CString} {s : System} {ops : List Operation}
    (hguard : Guarded (step base) StepOk System.initial ops)
    (hrun : run (step base) System.initial ops = some s) :
    Remembered s ∧
      ∀ (name : CString) (sys : CloseSys) (s' : System),
        StepOk s (.closeContainer name sys) →
        step base s (.closeContainer name sys) = some s' →
        (outcome base s (.closeContainer name sys)).status = 0 →
        ∃ idx, findContainer s.table name = some idx ∧
          ∀ m ∈ s'.mappings, m.opening ≠ (s.table.slots idx).opening := by
  have h := parallel_run hguard hrun
  refine ⟨remembered_of_inStep h, ?_⟩
  intro name sys s' hok hstep hstatus
  have h' : Parallel s' := inStep_step h hok hstep
  cases hfind : findContainer s.table name with
  | none =>
      simp [outcome, kernelSys, perform, containerClose, hfind] at hstatus
  | some idx =>
      refine ⟨idx, rfl, fun m hm heq => ?_⟩
      obtain ⟨e, he, hopening⟩ := remembered_of_inStep h' m hm
      have htable : s'.table = untrack s.table idx := by
        obtain rfl := Option.some.inj hstep
        exact congrArg Outcome.table (containerClose_of_inStep h hfind sys)
      rw [htable] at he
      exact opening_not_mem_untrack h hfind e he (hopening.trans heq)

/-- A container is opened. -/
def openWork : List Operation :=
  [.openContainer workName ⟨true, true, true, true, true⟩]

/-- While it is open, it is remembered. -/
theorem open_work_remembered :
    ∃ s, run (step someBase) System.initial openWork = some s ∧
      s.mappings = [⟨(mapperName workName).text, 0⟩] ∧
      Remembered s := by
  have hguard : Guarded (step someBase) StepOk System.initial openWork := by
    decide +kernel
  exact ⟨_, rfl, by decide +kernel, (mappings_remembered hguard rfl).1⟩

end Runs

section Violation

/-- A close against its condition forgets a mapping. -/
theorem forgotten_of_close
    {s s' : System} {base name : CString} {sys : CloseSys}
    (h : Parallel s)
    (hbad : ¬ CloseOk s.table name sys)
    (hstep : step base s (.closeContainer name sys) = some s') :
    ¬ Remembered s' := by
  simp only [CloseOk, not_forall] at hbad
  obtain ⟨idx, hfind, -, hbad⟩ := hbad
  obtain ⟨m, hm, hpaired⟩ := opened_of_inStep h hfind
  have hmem : m ∈ s.mappings := List.mem_of_getElem? hm
  have hclose := containerClose_of_inStep h hfind sys
  obtain rfl := Option.some.inj hstep
  have hkept :
      m ∈ (closeCalls (s.table.slots idx) sys).foldl (kernelCall s.openings) s.mappings := by
    simp only [closeCalls, List.foldl_cons, List.foldl_nil, kernelCall]
    cases hsys : sys.cryptsetupClose with
    | false => exact hmem
    | true =>
        have hcut : ¬ ShortName (s.table.slots idx).name.text :=
          fun hshort => hbad ⟨hshort, hsys⟩
        have hne := mt (mapper_eq_iff hpaired).mp hcut
        exact List.mem_filter.mpr ⟨hmem, by simpa using Ne.symm hne⟩
  intro hremembered
  obtain ⟨e, he, hopening⟩ := hremembered m (by
    simp only [outcome, kernelSys, perform, hclose]
    exact hkept)
  simp only [outcome, kernelSys, perform, hclose] at he
  exact opening_not_mem_untrack h hfind e he (hopening.trans hpaired.opening.symm)

/-- An opening against its condition forgets a mapping. -/
theorem forgotten_of_open
    {s s' : System} {base name : CString} {sys : OpenSys}
    (h : Parallel s)
    (hfails : MountFails s name sys)
    (hclose : sys.cryptsetupClose = false)
    (hstep : step base s (.openContainer name sys) = some s') :
    ¬ Remembered s' := by
  obtain ⟨hclosed, hroom, hfiles, hpipe, hopened, hfree, hmount⟩ := hfails
  obtain rfl := Option.some.inj hstep
  have hout : outcome base s (.openContainer name sys) =
      ⟨s.table, -1, [openCall base name true, mountCall name false,
        .cryptsetupClose (mapperName name).text false]⟩ := by
    simp [outcome, kernelSys, perform, containerOpen, hclosed, hroom, hfiles, hpipe, hopened,
      hfree, hmount, hclose]
  intro hremembered
  obtain ⟨e, he, hopening⟩ := hremembered ⟨(mapperName name).text, s.openings⟩ (by
    rw [hout]
    simp [openCall, mountCall, kernelCall])
  rw [hout] at he
  obtain ⟨m, hm, hpaired⟩ := SlotArray.forall₂_mem h.paired.flip he
  have hlt := h.below m hm
  have heq : m.opening = s.openings := hpaired.opening.symm.trans hopening
  omega

/-- It is closed while `cryptsetup close` fails: the call returns 0, and the mapping is
open without an entry. -/
theorem failed_close_forgets :
    ∃ s s', run (step someBase) System.initial openWork = some s ∧
      step someBase s (.closeContainer workName ⟨true, false⟩) = some s' ∧
      (outcome someBase s (.closeContainer workName ⟨true, false⟩)).status = 0 ∧
      s'.mappings = [⟨(mapperName workName).text, 0⟩] ∧
      ¬ Remembered s' := by
  exact ⟨_, _, rfl, rfl, by decide +kernel, by decide +kernel, by decide +kernel⟩

end Violation

end Container
end SecureZ
