import SecureZ.Lib.CText

/-!
# The environment of a process

`environ` is a list of texts `name=value`.  `getenv` takes the first text with its name,
`setenv` writes over that text or puts a new one at the end.

Seen from outside this is a map from names to values: what was set last under a name is what
is found.  A list whose names are all different keeps that property, and then holds a text
`name=value` exactly when the map does.
-/

namespace CLib

section Model

/-- The text of a variable. -/
def entryText (name : Bytes) (value : CString) : Bytes :=
  name ++ 61 :: value.bytes

/-- The text begins with the name and `=`. -/
def isEntry (name text : Bytes) : Bool :=
  (name ++ [61]).isPrefixOf text

/-- `getenv`. -/
def getenv (environ : List Bytes) (name : Bytes) : Option CString :=
  if name = [] then none
  else (environ.find? (isEntry name)).map fun text => cstr (text.drop (name.length + 1))

/-- The text in the place of the first one under the name, or behind all. -/
def putEntry (name text : Bytes) : List Bytes → List Bytes
  | [] => [text]
  | old :: environ =>
      if isEntry name old then text :: environ else old :: putEntry name text environ

/-- `setenv(name, value, 1)`; the environment is left alone where the name is refused. -/
def setenv (environ : List Bytes) (name : Bytes) (value : CString) : List Bytes :=
  if name = [] ∨ 61 ∈ name then environ else putEntry name (entryText name value) environ

/-- A name that `setenv` takes. -/
def SettableName (name : Bytes) : Prop :=
  name ≠ [] ∧ 61 ∉ name

/-- The value that was written last under a name. -/
def lastWrite (writes : List (Bytes × CString)) (name : Bytes) : Option CString :=
  (writes.filterMap fun w => if w.1 = name then some w.2 else none).getLast?

/-- The environment after some writes. -/
def setAll (environ : List Bytes) (writes : List (Bytes × CString)) : List Bytes :=
  writes.foldl (fun environ w => setenv environ w.1 w.2) environ

/-- Every text is that of a variable, and no two are of the same. -/
structure DistinctNames (environ : List Bytes) : Prop where
  isVariable : ∀ text ∈ environ, ∃ name value, SettableName name ∧ text = entryText name value
  distinct : environ.Pairwise fun a b => before 61 a ≠ before 61 b

end Model

section Names

variable {name other : Bytes} {value : CString}

@[simp] theorem before_entryText
    (hname : SettableName name) :
    before 61 (entryText name value) = name :=
  before_append_of_not_mem hname.2

/-- The texts under a name are those whose part in front of the first `=` is the name. -/
theorem isEntry_entryText
    (hname : SettableName name)
    (hother : 61 ∉ other) :
    isEntry other (entryText name value) = true ↔ other = name := by
  rw [isEntry, List.isPrefixOf_iff_prefix]
  constructor
  · rintro ⟨rest, hrest⟩
    have hbefore := congrArg (before 61) hrest
    rw [List.append_assoc, List.singleton_append, before_append_of_not_mem hother,
      before_entryText hname] at hbefore
    exact hbefore
  · rintro rfl
    exact ⟨value.bytes, by simp [entryText]⟩

@[simp] theorem drop_entryText :
    cstr ((entryText name value).drop (name.length + 1)) = value := by
  rw [entryText, List.drop_length_add_append]
  simp

/-- What a text under a name holds where the name is not that of the text. -/
theorem isEntry_of_ne
    {text : Bytes}
    (hname : SettableName name)
    (hother : SettableName other)
    (hne : other ≠ name)
    (htext : isEntry name text = true) :
    isEntry other text = false := by
  rw [isEntry, List.isPrefixOf_iff_prefix] at htext
  obtain ⟨rest, rfl⟩ := htext
  by_contra h
  rw [Bool.not_eq_false, isEntry, List.isPrefixOf_iff_prefix] at h
  obtain ⟨rest', h⟩ := h
  have hbefore := congrArg (before 61) h
  simp only [List.append_assoc, List.singleton_append] at hbefore
  rw [before_append_of_not_mem hother.2, before_append_of_not_mem hname.2] at hbefore
  exact hne hbefore

end Names

section Laws

variable {environ : List Bytes} {name other : Bytes} {value : CString}

/-- The variable that was set is found. -/
theorem getenv_setenv
    (hname : SettableName name) :
    getenv (setenv environ name value) name = some value := by
  rw [setenv, if_neg (not_or.mpr hname), getenv, if_neg hname.1]
  have hself : isEntry name (entryText name value) = true :=
    (isEntry_entryText hname hname.2).mpr rfl
  induction environ with
  | nil =>
      simp [putEntry, hself]
  | cons old environ ih =>
      by_cases hold : isEntry name old = true
      · simp [putEntry, hold, hself]
      · simpa [putEntry, hold] using ih

/-- Every other variable is found as before. -/
theorem getenv_setenv_of_ne
    (hother : SettableName other)
    (hne : other ≠ name) :
    getenv (setenv environ name value) other = getenv environ other := by
  unfold setenv
  split_ifs with hrefused
  · rfl
  · rw [not_or] at hrefused
    rw [getenv, getenv, if_neg hother.1, if_neg hother.1]
    have hentry : isEntry other (entryText name value) = false := by
      rw [Bool.eq_false_iff]
      exact fun h => hne ((isEntry_entryText hrefused hother.2).mp h)
    congr 1
    induction environ with
    | nil =>
        simp [putEntry, hentry]
    | cons old environ ih =>
        by_cases hold : isEntry name old = true
        · simp [putEntry, hold, hentry, isEntry_of_ne hrefused hother hne hold]
        · simp only [putEntry, hold, if_false, Bool.false_eq_true, List.find?_cons, ih]

@[simp] theorem setAll_nil :
    setAll environ [] = environ :=
  rfl

theorem setAll_append
    (writes more : List (Bytes × CString)) :
    setAll environ (writes ++ more) = setAll (setAll environ writes) more :=
  List.foldl_append

theorem lastWrite_append
    (writes more : List (Bytes × CString)) :
    lastWrite (writes ++ more) name = (lastWrite more name).or (lastWrite writes name) := by
  simp only [lastWrite, List.filterMap_append, List.getLast?_append]

/-- After a list of writes, a variable has the value that was written last, or the one it
had. -/
theorem getenv_setAll
    (hname : SettableName name)
    (writes : List (Bytes × CString)) :
    getenv (setAll environ writes) name = (lastWrite writes name).or (getenv environ name) := by
  induction writes generalizing environ with
  | nil =>
      rfl
  | cons w writes ih =>
      rw [setAll, List.foldl_cons, ← setAll, ih, ← List.singleton_append, lastWrite_append,
        Option.or_assoc]
      congr 1
      by_cases hw : w.1 = name
      · obtain ⟨n, value⟩ := w
        obtain rfl : n = name := hw
        simp [lastWrite, getenv_setenv hname]
      · rw [getenv_setenv_of_ne hname (Ne.symm hw)]
        simp [lastWrite, hw]

end Laws

section Listing

variable {environ : List Bytes} {name : Bytes} {value : CString}

theorem mem_putEntry
    {text other : Bytes}
    (h : other ∈ putEntry name text environ) :
    other = text ∨ other ∈ environ := by
  induction environ with
  | nil =>
      simpa [putEntry] using h
  | cons old environ ih =>
      unfold putEntry at h
      split_ifs at h
      · rw [List.mem_cons] at h ⊢
        exact h.imp_right .inr
      · rw [List.mem_cons] at h ⊢
        rcases h with rfl | h
        · exact .inr (.inl rfl)
        · exact (ih h).imp_right .inr

/-- A write keeps the names different. -/
theorem distinctNames_setenv
    (h : DistinctNames environ) :
    DistinctNames (setenv environ name value) := by
  unfold setenv
  split_ifs with hrefused
  · exact h
  · rw [not_or] at hrefused
    refine ⟨fun text htext => ?_, ?_⟩
    · rcases mem_putEntry htext with rfl | hmem
      · exact ⟨name, value, hrefused, rfl⟩
      · exact h.isVariable text hmem
    · obtain ⟨hvariable, hdistinct⟩ := h
      induction environ with
      | nil =>
          exact List.pairwise_singleton _ _
      | cons old environ ih =>
          rw [List.pairwise_cons] at hdistinct
          obtain ⟨oldName, oldValue, hold, rfl⟩ := hvariable old List.mem_cons_self
          unfold putEntry
          split_ifs with hentry
          · rw [isEntry_entryText hold hrefused.2] at hentry
            subst hentry
            rw [List.pairwise_cons, before_entryText hold]
            exact ⟨by simpa [before_entryText hold] using hdistinct.1, hdistinct.2⟩
          · rw [List.pairwise_cons, before_entryText hold]
            refine ⟨fun other hother => ?_, ih (fun t ht => hvariable t (.tail _ ht)) hdistinct.2⟩
            rcases mem_putEntry hother with rfl | hmem
            · rw [before_entryText hrefused]
              rw [isEntry_entryText hold hrefused.2] at hentry
              exact Ne.symm hentry
            · simpa [before_entryText hold] using hdistinct.1 other hmem

theorem distinctNames_setAll
    (h : DistinctNames environ)
    (writes : List (Bytes × CString)) :
    DistinctNames (setAll environ writes) := by
  induction writes generalizing environ with
  | nil =>
      exact h
  | cons w writes ih =>
      exact ih (distinctNames_setenv h)

/-- The texts of a list whose names are different are those of the variables that are found. -/
theorem entryText_mem_iff
    (h : DistinctNames environ)
    (hname : SettableName name) :
    entryText name value ∈ environ ↔ getenv environ name = some value := by
  rw [getenv, if_neg hname.1]
  obtain ⟨hvariable, hdistinct⟩ := h
  induction environ with
  | nil =>
      simp
  | cons old environ ih =>
      rw [List.pairwise_cons] at hdistinct
      have hrest := ih (fun t ht => hvariable t (.tail _ ht)) hdistinct.2
      obtain ⟨oldName, oldValue, hold, rfl⟩ := hvariable old List.mem_cons_self
      by_cases hentry : isEntry name (entryText oldName oldValue) = true
      · obtain rfl := (isEntry_entryText hold hname.2).mp hentry
        have hnot : entryText name value ∉ environ := by
          intro hmem
          exact hdistinct.1 _ hmem (by rw [before_entryText hold, before_entryText hname])
        simp only [List.mem_cons, hnot, or_false, List.find?_cons, hentry, Option.map_some,
          drop_entryText, Option.some.injEq]
        constructor
        · intro heq
          have := congrArg (fun text => cstr (text.drop (name.length + 1))) heq
          simpa using this.symm
        · rintro rfl
          rfl
      · have hne : entryText name value ≠ entryText oldName oldValue := by
          intro heq
          rw [← heq] at hentry
          exact hentry ((isEntry_entryText hname hname.2).mpr rfl)
        simp only [List.mem_cons, hne, false_or, List.find?_cons, hentry, hrest]

end Listing

end CLib
