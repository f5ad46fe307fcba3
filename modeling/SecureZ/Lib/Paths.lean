import SecureZ.Lib.CText

/-!
# Paths

A path is a text whose components end at slashes.  `location` is the directory or file that
it leads to where every component on the way is a directory and none is a symbolic link: the
names to follow from the root of the file system.  Empty components and "." stay where they
are, ".." goes up, and a path without a slash in front starts at the working directory.

Different paths can lead to one location, so two files are apart when their locations are.
-/

namespace CLib

section Definitions

/-- The names on the way from the root of the file system. -/
abbrev Location := List Bytes

/-- The components of a path. -/
def components (path : Bytes) : List Bytes :=
  path.splitOn 47

/-- One component, followed from a directory. -/
def enter (dir : Location) (c : Bytes) : Location :=
  if c = [] ∨ c = [46] then dir
  else if c = [46, 46] then dir.dropLast
  else dir ++ [c]

/-- Components, followed one after the other. -/
def walk (dir : Location) (cs : List Bytes) : Location :=
  cs.foldl enter dir

/-- Where a path leads. -/
def location (cwd : Location) (path : Bytes) : Location :=
  if path.head? = some 47 then walk [] (components path) else walk cwd (components path)

/-- The components of a path in front of the last one. -/
def parentComponents (path : Bytes) : List Bytes :=
  (components path).dropLast

/-- What stands behind the last slash of a path. -/
def lastComponent (path : Bytes) : Bytes :=
  (components path).getLastD []

/-- A name that a directory entry can have. -/
structure PlainName (c : Bytes) : Prop where
  nonempty : c ≠ []
  noSlash : (47 : UInt8) ∉ c
  notDot : c ≠ [46]
  notDotDot : c ≠ [46, 46]

instance (c : Bytes) : Decidable (PlainName c) :=
  decidable_of_iff (c ≠ [] ∧ (47 : UInt8) ∉ c ∧ c ≠ [46] ∧ c ≠ [46, 46])
    ⟨fun h => ⟨h.1, h.2.1, h.2.2.1, h.2.2.2⟩, fun h => ⟨h.1, h.2, h.3, h.4⟩⟩

end Definitions

section Lemmas

@[simp] theorem walk_nil
    (dir : Location) :
    walk dir [] = dir :=
  rfl

@[simp] theorem walk_cons
    (dir : Location) (c : Bytes) (cs : List Bytes) :
    walk dir (c :: cs) = walk (enter dir c) cs :=
  rfl

theorem walk_append
    (dir : Location) (cs cs' : List Bytes) :
    walk dir (cs ++ cs') = walk (walk dir cs) cs' :=
  List.foldl_append

/-- A slash ends a component. -/
theorem components_append_slash
    (path rest : Bytes) :
    components (path ++ 47 :: rest) = components path ++ components rest :=
  List.splitOn_append_cons_self path rest

theorem components_of_noSlash
    {c : Bytes}
    (h : (47 : UInt8) ∉ c) :
    components c = [c] :=
  List.splitOn_eq_singleton h

/-- A plain name leads one directory down. -/
theorem enter_plain
    {c : Bytes}
    (h : PlainName c)
    (dir : Location) :
    enter dir c = dir ++ [c] := by
  rw [enter, if_neg, if_neg h.notDotDot]
  rintro (hnil | hdot)
  · exact h.nonempty hnil
  · exact h.notDot hdot

theorem walk_components_plain
    {c : Bytes}
    (h : PlainName c)
    (dir : Location) :
    walk dir (components c) = dir ++ [c] := by
  rw [components_of_noSlash h.noSlash, walk_cons, walk_nil, enter_plain h]

/-- What is appended behind a slash is followed from where the path in front leads. -/
theorem location_append_slash
    {path : Bytes}
    (h : path ≠ [])
    (cwd : Location) (rest : Bytes) :
    location cwd (path ++ 47 :: rest) = walk (location cwd path) (components rest) := by
  have hhead : (path ++ 47 :: rest).head? = path.head? := by
    cases path with
    | nil => exact absurd rfl h
    | cons b bs => rfl
  rw [location, location, hhead, components_append_slash, walk_append, walk_append]
  split_ifs <;> rfl

theorem components_ne_nil
    (path : Bytes) :
    components path ≠ [] := by
  rw [components]
  exact List.splitOn_ne_nil 47 path

/-- Induction on the components of a path: it has one, or one in front of a shorter path. -/
@[elab_as_elim]
theorem path_induction
    {motive : Bytes → Prop}
    (single : ∀ c, (47 : UInt8) ∉ c → motive c)
    (slash : ∀ c rest, (47 : UInt8) ∉ c → motive rest → motive (c ++ 47 :: rest))
    (path : Bytes) :
    motive path := by
  induction hlen : path.length using Nat.strong_induction_on generalizing path with
  | h n ih =>
      by_cases hslash : (47 : UInt8) ∈ path
      · obtain ⟨c, rest, rfl, hc⟩ := List.eq_append_cons_of_mem hslash
        have hshort : rest.length < n := by
          rw [← hlen, List.length_append, List.length_cons]
          omega
        exact slash c rest hc (ih rest.length hshort rest rfl)
      · exact single path hslash

/-- The components of a path whose first component is known. -/
theorem components_slash
    {c : Bytes}
    (h : (47 : UInt8) ∉ c)
    (rest : Bytes) :
    components (c ++ 47 :: rest) = c :: components rest := by
  rw [components_append_slash, components_of_noSlash h, List.singleton_append]

theorem parentComponents_slash
    {c : Bytes}
    (h : (47 : UInt8) ∉ c)
    (rest : Bytes) :
    parentComponents (c ++ 47 :: rest) = c :: parentComponents rest := by
  rw [parentComponents, components_slash h, List.dropLast_cons_of_ne_nil (components_ne_nil rest),
    parentComponents]

theorem lastComponent_slash
    {c : Bytes}
    (h : (47 : UInt8) ∉ c)
    (rest : Bytes) :
    lastComponent (c ++ 47 :: rest) = lastComponent rest := by
  rw [lastComponent, components_slash h, lastComponent]
  cases hcomponents : components rest with
  | nil => exact absurd hcomponents (components_ne_nil rest)
  | cons d ds => simp

theorem lastComponent_of_noSlash
    {c : Bytes}
    (h : (47 : UInt8) ∉ c) :
    lastComponent c = c := by
  rw [lastComponent, components_of_noSlash h]
  rfl

theorem parentComponents_of_noSlash
    {c : Bytes}
    (h : (47 : UInt8) ∉ c) :
    parentComponents c = [] := by
  rw [parentComponents, components_of_noSlash h]
  rfl

/-- Bytes behind a path that are no slashes go to its last component. -/
theorem components_append_noSlash
    {ext : Bytes}
    (h : (47 : UInt8) ∉ ext)
    (path : Bytes) :
    components (path ++ ext) = parentComponents path ++ [lastComponent path ++ ext] := by
  induction path using path_induction with
  | single c hc =>
      have happend : (47 : UInt8) ∉ c ++ ext := by
        rw [List.mem_append, not_or]
        exact ⟨hc, h⟩
      rw [components_of_noSlash happend, parentComponents_of_noSlash hc,
        lastComponent_of_noSlash hc]
      rfl
  | slash c rest hc ih =>
      rw [List.append_assoc, List.cons_append, components_slash hc, ih, parentComponents_slash hc,
        lastComponent_slash hc]
      rfl

/-- What stands behind the last slash has none. -/
theorem noSlash_lastComponent
    (path : Bytes) :
    (47 : UInt8) ∉ lastComponent path := by
  induction path using path_induction with
  | single c hc => rwa [lastComponent_of_noSlash hc]
  | slash c rest hc ih => rwa [lastComponent_slash hc]

/-- A component with something in it besides dots is a plain name. -/
theorem plainName_of_mem
    {c : Bytes} {b : UInt8}
    (hslash : (47 : UInt8) ∉ c)
    (hb : b ∈ c) (hdot : b ≠ 46) :
    PlainName c := by
  refine ⟨?_, hslash, ?_, ?_⟩ <;> rintro rfl <;> simp_all

/-- Where a file is: a name with an extension, in a directory. -/
theorem location_file
    {dir name ext : Bytes} {b : UInt8}
    (hdir : dir ≠ [])
    (hext : (47 : UInt8) ∉ ext)
    (hb : b ∈ ext) (hdot : b ≠ 46)
    (cwd : Location) :
    location cwd (dir ++ 47 :: (name ++ ext)) =
      walk (location cwd dir) (parentComponents name) ++ [lastComponent name ++ ext] := by
  have hplain : PlainName (lastComponent name ++ ext) := by
    refine plainName_of_mem ?_ (List.mem_append_right _ hb) hdot
    rw [List.mem_append, not_or]
    exact ⟨noSlash_lastComponent name, hext⟩
  rw [location_append_slash hdir, components_append_noSlash hext, walk_append, walk_cons,
    walk_nil, enter_plain hplain]

end Lemmas

end CLib
