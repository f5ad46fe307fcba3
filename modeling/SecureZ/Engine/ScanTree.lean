import SecureZ.Lib.FileTree
import SecureZ.Engine.IntegrityScan

/-!
# The scan of a directory tree

The disk is a finite tree of directories, regular files and other nodes below the path that
the scan starts with.  What a path names is found by following its components, so that cut
paths mean what they mean to the system.

The main result is about every such tree: the scan ends, and passes the files whose paths fit
once each and no other path, exactly when no path that is cut names a regular file or a
directory with something in it, and the counter stays an `int`.
-/

namespace SecureZ
namespace Integrity

open CLib
open CryptoCore

section Tree

/-- What `lstat` tells of a node. -/
def fileKind : FileNode → FileKind
  | .regular _ => .regular
  | .other => .other
  | .directory _ => .directory

/-- A directory tree at the path that the scan starts with.  The callers pass nine bytes at
most. -/
structure DirectoryTree where
  top : CString
  top_ne : top.bytes ≠ []
  top_short : top.strlen ≤ 507
  entries : Entries
  legal : (FileNode.directory entries).Legal

/-- The directories that are watched can be the top of a tree. -/
theorem watchedDirs_short :
    ∀ top ∈ watchedDirs, top.bytes ≠ [] ∧ top.strlen ≤ 507 := by
  decide

/-- The top directory of a tree. -/
def DirectoryTree.root (t : DirectoryTree) : FileNode := .directory t.entries

/-- What a path names on a disk with this tree. -/
def DirectoryTree.resolve (t : DirectoryTree) (path : CString) : Option (List FileNode) :=
  CLib.resolve t.root t.top.bytes path.bytes

/-- A disk with the tree; paths that lead out of it are found `elsewhere`. -/
def DirectoryTree.disk (t : DirectoryTree) (elsewhere : Disk) : Disk where
  readdir path :=
    match t.resolve path with
    | some (.directory entries :: _) =>
        some (cstr (ascii ".") :: cstr (ascii "..") :: entries.map fun e => e.1.text)
    | some [] => elsewhere.readdir path
    | _ => none
  lstat path :=
    match t.resolve path with
    | some (node :: _) => some (fileKind node)
    | some [] => elsewhere.lstat path
    | none => none
  access path :=
    match t.resolve path with
    | some (.regular _ :: _) => true
    | some (.directory _ :: _) => true
    | none => false
    | _ => elsewhere.access path
  read path :=
    match t.resolve path with
    | some (.regular content :: _) => content
    | some (.directory _ :: _) => none
    | none => none
    | _ => elsewhere.read path
  access_of_read := by
    intro path h
    split at h <;> simp_all [elsewhere.access_of_read]

end Tree

section Specification

variable (disk : Disk)

/-- The paths of the regular files below a node that fit the array. -/
def fittingPaths (path : CString) (node : FileNode) : List CString :=
  ((node.files path).map Prod.fst).filter fun p => p.strlen < 512

/-- How many of them can be read. -/
def readableCount (path : CString) (node : FileNode) : Nat :=
  (node.files path).countP fun f => f.1.strlen < 512 ∧ f.2.isSome

/-- The scan did what it is for: each regular file whose path fits was passed to
`hash_and_store` exactly once, under its own path, no other path was, what could be read was
recorded, and the counter grew by that. -/
structure ScanRight
    (na : Sodium) (disk : Disk) (t : DirectoryTree) (count : Int) (s : ScanState) : Prop where
  once : ∀ p ∈ fittingPaths t.top t.root, s.passed.count p = 1
  only : ∀ p ∈ s.passed, p ∈ fittingPaths t.top t.root
  recorded : s.recorded = s.passed.filterMap (hashAndStore na disk)
  counted : s.fileCount = count + s.recorded.length

/-- A path that is neither a regular file nor a directory with something in it. -/
def CutHarmless (path : CString) : Prop :=
  disk.lstat path ≠ some .regular ∧
    (disk.lstat path = some .directory →
      ∀ names, disk.readdir path = some names → ∀ name ∈ names, isDots name)

/-- No path that is cut in the directories of a node names anything that the scan would take
up. -/
inductive CutsHarmless : CString → FileNode → Prop
  | regular (path : CString) (content : Option Bytes) : CutsHarmless path (.regular content)
  | other (path : CString) : CutsHarmless path .other
  | directory
      {path : CString} {entries : Entries}
      (fitting :
        ∀ e ∈ entries, (path.child e.1.text).strlen < 512 →
          CutsHarmless (path.child e.1.text) e.2)
      (cut :
        ∀ e ∈ entries, 512 ≤ (path.child e.1.text).strlen →
          CutHarmless disk (fullPath path e.1.text)) :
      CutsHarmless path (.directory entries)

end Specification

section Paths

theorem fullPath_eq_take
    (dirPath name : CString) :
    fullPath dirPath name = (dirPath.child name).take 511 :=
  rfl

theorem fullPath_bytes
    (dirPath name : CString) :
    (fullPath dirPath name).bytes = (dirPath.bytes ++ 47 :: name.bytes).take 511 :=
  congrArg (List.take 511) (child_bytes dirPath name)

/-- A path that fits is not cut. -/
theorem fullPath_of_fits
    {dirPath name : CString}
    (h : (dirPath.child name).strlen < 512) :
    fullPath dirPath name = dirPath.child name :=
  CString.take_of_strlen_le (Nat.le_of_lt_succ h)

/-- What is left of the name in a path that is cut stands alone behind the slash. -/
theorem fullPath_cut
    {dirPath : CString}
    (hroom : dirPath.strlen < 511)
    (name : CString) :
    (fullPath dirPath name).bytes =
      dirPath.bytes ++ 47 :: name.bytes.take (510 - dirPath.strlen) := by
  have hle : dirPath.bytes.length ≤ 511 := Nat.le_of_lt hroom
  have hsplit : 511 - dirPath.bytes.length = 510 - dirPath.strlen + 1 := by
    simp only [CString.strlen] at hroom ⊢
    omega
  rw [fullPath_bytes, List.take_append, List.take_of_length_le hle, hsplit, List.take_succ_cons]

end Paths

section Standing

variable {t : DirectoryTree} {elsewhere : Disk} {path : CString} {node : FileNode}
  {up : List FileNode} {entries : Entries}

/-- A node of the tree at its own path, with the directories above it. -/
structure Standing
    (t : DirectoryTree) (path : CString) (node : FileNode) (up : List FileNode) : Prop where
  resolved : t.resolve path = some (node :: up)
  directories : ∀ u ∈ up, ∃ entries, u = .directory entries
  short : up = [] → path.strlen ≤ 507

theorem standing_top
    (t : DirectoryTree) :
    Standing t t.top t.root [] where
  resolved := if_pos rfl
  directories := by simp
  short := fun _ => t.top_short

/-- Every entry of a directory stands at its own path. -/
theorem Standing.child
    (h : Standing t path (.directory entries) up)
    (hdistinct : (entries.map fun e => e.1.text).Nodup)
    {e : FileName × FileNode} (he : e ∈ entries) :
    Standing t (path.child e.1.text) e.2 (.directory entries :: up) where
  resolved := by
    rw [DirectoryTree.resolve, child_bytes, resolve_append_name h.resolved e.1.plain.noSlash,
      follow_plain e.1.plain, find_entry hdistinct he]
    rfl
  directories := by
    rw [List.forall_mem_cons]
    exact ⟨⟨entries, rfl⟩, h.directories⟩
  short := fun hnil => absurd hnil (by simp)

/-- A cut path is followed from the directory by what is left of the name. -/
theorem Standing.resolve_cut
    (h : Standing t path (.directory entries) up)
    (hroom : path.strlen < 511)
    (name : FileName) :
    t.resolve (fullPath path name.text) =
      follow (.directory entries :: up) (name.text.bytes.take (510 - path.strlen)) := by
  have hslash : (47 : UInt8) ∉ name.text.bytes.take (510 - path.strlen) :=
    fun hmem => name.plain.noSlash (List.mem_of_mem_take hmem)
  rw [DirectoryTree.resolve, fullPath_cut hroom, resolve_append_name h.resolved hslash]

theorem Standing.lstat
    (h : Standing t path node up) :
    (t.disk elsewhere).lstat path = some (fileKind node) := by
  simp only [DirectoryTree.disk, h.resolved]

theorem Standing.readdir
    (h : Standing t path (.directory entries) up) :
    (t.disk elsewhere).readdir path =
      some (cstr (ascii ".") :: cstr (ascii "..") :: entries.map fun e => e.1.text) := by
  simp only [DirectoryTree.disk, h.resolved]

theorem Standing.read
    {content : Option Bytes}
    (h : Standing t path (.regular content) up) :
    (t.disk elsewhere).read path = content := by
  simp only [DirectoryTree.disk, h.resolved]

/-- A name in the tree is none of the two that are skipped. -/
theorem not_isDots
    (name : FileName) :
    ¬ isDots name.text := by
  have hdot : ascii "." = [46] := by decide
  have hdotdot : ascii ".." = [46, 46] := by decide
  rw [isDots, hdot, hdotdot, not_or]
  exact ⟨name.plain.notDot, name.plain.notDotDot⟩

/-- The scan of a directory of the tree goes through its entries. -/
theorem Standing.passed_eq
    (h : Standing t path (.directory entries) up)
    (fuel : Nat) :
    passedPaths (t.disk elsewhere) (fuel + 1) path =
      (entries.mapM fun e =>
        passedAt (t.disk elsewhere) (passedPaths (t.disk elsewhere) fuel)
          (fullPath path e.1.text)).map List.flatten := by
  have hnames :
      (entries.map fun e => e.1.text).mapM
          (passedByName (t.disk elsewhere) (passedPaths (t.disk elsewhere) fuel) path) =
        entries.mapM fun e =>
          passedAt (t.disk elsewhere) (passedPaths (t.disk elsewhere) fuel)
            (fullPath path e.1.text) := by
    rw [List.mapM_map]
    congr 1
    funext e
    exact if_neg (not_isDots e.1)
  have hdot : isDots (cstr (ascii ".")) := .inl (by decide)
  have hdotdot : isDots (cstr (ascii "..")) := .inr (by decide)
  rw [passedPaths, h.readdir]
  dsimp only
  rw [List.mapM_cons, List.mapM_cons, passedByName, if_pos hdot, passedByName, if_pos hdotdot,
    hnames]
  simp only [Option.bind_eq_bind, Option.bind_some, Option.pure_def]
  cases hparts : List.mapM
      (fun e => passedAt (t.disk elsewhere) (passedPaths (t.disk elsewhere) fuel)
        (fullPath path e.1.text)) entries with
  | none => rfl
  | some parts => rfl

/-- A directory with an entry that is never left is never left. -/
theorem Standing.endless
    (h : Standing t path (.directory entries) up)
    (elsewhere : Disk)
    {e : FileName × FileNode} (he : e ∈ entries)
    (hentry :
      ∀ fuel,
        passedAt (t.disk elsewhere) (passedPaths (t.disk elsewhere) fuel)
          (fullPath path e.1.text) = none)
    (fuel : Nat) :
    passedPaths (t.disk elsewhere) fuel path = none := by
  rcases fuel with _ | fuel
  · rfl
  rw [h.passed_eq, mapM_eq_none_of_mem he (hentry fuel), Option.map_none]

/-- What is passed at the path of a directory is what its scan passes. -/
theorem Standing.passedAt_eq
    (h : Standing t path (.directory entries) up)
    (fuel : Nat) :
    passedAt (t.disk elsewhere) (passedPaths (t.disk elsewhere) fuel) path =
      passedPaths (t.disk elsewhere) fuel path := by
  rw [passedAt, h.lstat, fileKind]

/-- A directory above one that is never left is never left. -/
theorem Standing.endless_above
    (h : Standing t path (.directory entries) up)
    (hdistinct : (entries.map fun e => e.1.text).Nodup)
    {name : FileName} {below : Entries}
    (he : (name, .directory below) ∈ entries)
    (hfits : (path.child name.text).strlen < 512)
    (hbelow : ∀ fuel, passedPaths (t.disk elsewhere) fuel (path.child name.text) = none)
    (fuel : Nat) :
    passedPaths (t.disk elsewhere) fuel path = none := by
  have hstand := h.child hdistinct he
  refine h.endless elsewhere he (fun fuel => ?_) fuel
  rw [fullPath_of_fits hfits, hstand.passedAt_eq]
  exact hbelow fuel

/-- Behind a path of 510 bytes, every cut path is that directory again. -/
theorem Standing.endless_slash
    (h : Standing t path (.directory entries) up)
    (elsewhere : Disk)
    (hlen : path.strlen = 510)
    {e : FileName × FileNode} (he : e ∈ entries)
    (fuel : Nat) :
    passedPaths (t.disk elsewhere) fuel path = none := by
  have hlength : path.bytes.length = 510 := hlen
  have hbytes : (fullPath path e.1.text).bytes = path.bytes ++ 47 :: [] := by
    rw [fullPath_bytes, List.take_append, List.take_of_length_le (by omega), hlength]
    rfl
  have hfull : (fullPath path e.1.text).strlen = 511 := by
    rw [CString.strlen, hbytes, List.length_append, hlength]
    rfl
  have hagain :
      t.resolve (fullPath path e.1.text) = some (.directory entries :: up) := by
    rw [DirectoryTree.resolve, hbytes, resolve_append_name h.resolved (by simp)]
    rfl
  have hstand : Standing t (fullPath path e.1.text) (.directory entries) up := {
    resolved := hagain
    directories := h.directories
    short := fun hnil => absurd (h.short hnil) (by omega) }
  refine h.endless elsewhere he (fun fuel => ?_) fuel
  rw [hstand.passedAt_eq]
  exact passedPaths_stuck hfull hstand.lstat hstand.readdir
    (List.mem_cons_of_mem _ (List.mem_cons_of_mem _ (List.mem_map_of_mem he)))
    (not_isDots e.1) fuel

end Standing

section Fitting

variable {path : CString} {node : FileNode}

theorem fittingPaths_directory
    (path : CString) (entries : Entries) :
    fittingPaths path (.directory entries) =
      entries.flatMap fun e => fittingPaths (path.child e.1.text) e.2 := by
  rw [fittingPaths, files_directory, List.map_flatMap, List.filter_flatMap]
  rfl

/-- Below a path that does not fit, none does. -/
theorem fittingPaths_of_long
    (hlegal : node.Legal)
    (h : 512 ≤ path.strlen) :
    fittingPaths path node = [] := by
  rw [fittingPaths, List.filter_eq_nil_iff]
  intro p hp
  obtain ⟨f, hf, rfl⟩ := List.mem_map.mp hp
  have hlong : path.strlen ≤ f.1.strlen := by
    rcases path_of_mem_files hlegal hf with heq | ⟨rest, heq⟩
    · exact (congrArg List.length heq).ge
    · rw [CString.strlen, CString.strlen, heq, List.length_append]
      exact Nat.le_add_right _ _
  simp
  omega

theorem fittingPaths_nodup
    (hlegal : node.Legal)
    (path : CString) :
    (fittingPaths path node).Nodup :=
  (files_nodup hlegal path).filter _

end Fitting

section Sufficient

variable {t : DirectoryTree} {elsewhere : Disk} {disk : Disk} {path : CString}
  {node : FileNode} {up : List FileNode} {fuel : Nat}

/-- A harmless cut passes nothing. -/
theorem passedAt_of_cutHarmless
    (h : CutHarmless disk path)
    (hfuel : 1 ≤ fuel) :
    passedAt disk (passedPaths disk fuel) path = some [] := by
  obtain ⟨hregular, hempty⟩ := h
  rw [passedAt]
  rcases hkind : disk.lstat path with _ | kind
  · rfl
  cases kind with
  | regular => exact absurd hkind hregular
  | other => rfl
  | directory =>
      obtain ⟨f, rfl⟩ := Nat.exists_eq_add_of_le' hfuel
      dsimp only
      rw [passedPaths]
      rcases hread : disk.readdir path with _ | names
      · rfl
      have hskip :
          names.mapM (passedByName disk (passedPaths disk f) path) =
            some (names.map fun _ => []) :=
        mapM_eq_map fun name hname => if_pos (hempty hkind names hread name hname)
      dsimp only
      rw [hskip]
      simp

/-- Where no cut path is taken up, the files that fit are passed, in order. -/
theorem passedAt_of_cutsHarmless
    (hlegal : node.Legal)
    (hcuts : CutsHarmless (t.disk elsewhere) path node)
    (hstand : Standing t path node up)
    (hfits : path.strlen < 512) :
    ∃ k, ∀ fuel, k ≤ fuel →
      passedAt (t.disk elsewhere) (passedPaths (t.disk elsewhere) fuel) path =
        some (fittingPaths path node) := by
  induction hlegal generalizing path up with
  | regular content =>
      refine ⟨0, fun fuel _ => ?_⟩
      rw [passedAt, hstand.lstat]
      simp [fileKind, fittingPaths, FileNode.files, hfits]
  | other =>
      refine ⟨0, fun fuel _ => ?_⟩
      rw [passedAt, hstand.lstat]
      rfl
  | @directory entries distinct below ih =>
      cases hcuts with
      | directory fitting cut =>
          -- Each entry passes what fits below it, whether its own path fits or not.
          have hentries : ∀ e ∈ entries, ∃ k, ∀ fuel, k ≤ fuel →
              passedAt (t.disk elsewhere) (passedPaths (t.disk elsewhere) fuel)
                  (fullPath path e.1.text) =
                some (fittingPaths (path.child e.1.text) e.2) := by
            intro e he
            by_cases hchild : (path.child e.1.text).strlen < 512
            · rw [fullPath_of_fits hchild]
              exact ih e he (fitting e he hchild) (hstand.child distinct he) hchild
            · have hlong : 512 ≤ (path.child e.1.text).strlen := Nat.le_of_not_lt hchild
              refine ⟨1, fun fuel hfuel => ?_⟩
              rw [fittingPaths_of_long (below e he) hlong]
              exact passedAt_of_cutHarmless (cut e he hlong) hfuel
          obtain ⟨k, hk⟩ := exists_fuel hentries
          refine ⟨k + 1, fun fuel hfuel => ?_⟩
          obtain ⟨f, rfl⟩ := Nat.exists_eq_add_of_le' (Nat.le_trans (Nat.le_add_left 1 k) hfuel)
          rw [passedAt, hstand.lstat, fileKind]
          dsimp only
          rw [hstand.passed_eq, mapM_eq_map fun e he => hk e he f (by omega), Option.map_some,
            fittingPaths_directory, List.flatMap_def]

end Sufficient

section Necessary

variable {t : DirectoryTree} {elsewhere : Disk} {path : CString} {node : FileNode}
  {up : List FileNode} {entries : Entries} {fuel : Nat}

/-- A cut path that names a regular file is the path of another entry of the directory. -/
theorem entry_of_cut_regular
    (hstand : Standing t path (.directory entries) up)
    (hfits : path.strlen < 512)
    {e : FileName × FileNode}
    (hlong : 512 ≤ (path.child e.1.text).strlen)
    (hregular : (t.disk elsewhere).lstat (fullPath path e.1.text) = some .regular) :
    ∃ m ∈ entries, path.child m.1.text = fullPath path e.1.text ∧ m ≠ e := by
  have hlen := strlen_child path e.1.text
  by_cases hfull : path.strlen = 511
  · rw [fullPath_of_full hfull, hstand.lstat] at hregular
    cases hregular
  have hroom : path.strlen < 511 := by omega
  have hcut : (e.1.text.bytes.take (510 - path.strlen)).length = 510 - path.strlen := by
    rw [hlen] at hlong
    simp only [CString.strlen] at hlong ⊢
    rw [List.length_take]
    omega
  simp only [DirectoryTree.disk, hstand.resolve_cut hroom, follow] at hregular
  split_ifs at hregular with hself hup
  · cases hregular
  · -- The parent is a directory of the tree; only a short path has none.
    rcases up with _ | ⟨u, up⟩
    · have hshort := hstand.short rfl
      rw [hup] at hcut
      simp only [List.length_cons, List.length_nil] at hcut
      omega
    · obtain ⟨above, rfl⟩ := hstand.directories u List.mem_cons_self
      cases hregular
  · rcases hfind : entries.find? fun e' =>
        e'.1.text.bytes = e.1.text.bytes.take (510 - path.strlen) with _ | m
    · rw [hfind] at hregular
      cases hregular
    · have hm : m.1.text.bytes = e.1.text.bytes.take (510 - path.strlen) := by
        simpa using List.find?_some hfind
      refine ⟨m, List.mem_of_find?_eq_some hfind, CString.ext ?_, ?_⟩
      · rw [child_bytes, hm, fullPath_cut hroom]
      · intro heq
        rw [heq] at hm
        have hshorter : e.1.text.strlen = 510 - path.strlen := (congrArg List.length hm).trans hcut
        omega

/-- A scan that ends without passing a path twice takes up no cut path. -/
theorem cutsHarmless_of_passedAt
    (hlegal : node.Legal)
    (hstand : Standing t path node up)
    (hfits : path.strlen < 512)
    {paths : List CString}
    (hpassed :
      passedAt (t.disk elsewhere) (passedPaths (t.disk elsewhere) fuel) path = some paths)
    (hnodup : paths.Nodup) :
    CutsHarmless (t.disk elsewhere) path node := by
  induction hlegal generalizing path up fuel paths with
  | regular content => exact .regular path content
  | other => exact .other path
  | @directory entries distinct below ih =>
      rw [passedAt, hstand.lstat] at hpassed
      simp only [fileKind] at hpassed
      rcases fuel with _ | fuel
      · cases hpassed
      rw [hstand.passed_eq] at hpassed
      obtain ⟨parts, hparts, rfl⟩ := Option.map_eq_some_iff.mp hpassed
      refine .directory (fun e he hchild => ?_) (fun e he hlong => ⟨fun hregular => ?_, ?_⟩)
      · obtain ⟨part, hpart, hvalue⟩ := value_of_mapM hparts he
        rw [fullPath_of_fits hchild] at hvalue
        exact ih e he (hstand.child distinct he) hchild hvalue
          (hnodup.sublist (List.sublist_flatten_of_mem hpart))
      · -- The entry with the cut path as its own passes it too.
        obtain ⟨m, hm, hpath, hne⟩ := entry_of_cut_regular hstand hfits hlong hregular
        have hfitsm : (path.child m.1.text).strlen < 512 := by
          rw [hpath]
          exact fullPath_short path e.1.text
        have hvalue :
            passedAt (t.disk elsewhere) (passedPaths (t.disk elsewhere) fuel)
                (fullPath path e.1.text) =
              some [fullPath path e.1.text] := by
          rw [passedAt, hregular]
        have hvaluem :
            passedAt (t.disk elsewhere) (passedPaths (t.disk elsewhere) fuel)
                (fullPath path m.1.text) =
              some [fullPath path e.1.text] := by
          rw [fullPath_of_fits hfitsm, hpath]
          exact hvalue
        have hapart := disjoint_of_mapM hparts hnodup hm he hne hvaluem hvalue
        exact hapart List.mem_cons_self List.mem_cons_self
      · -- A directory with something in it would never be left.
        intro hkind names hread name hname
        by_contra hdots
        have hlen := strlen_child path e.1.text
        have hfull : (fullPath path e.1.text).strlen = 511 := by
          simp only [fullPath_eq_take, CString.take, CString.strlen, List.length_take] at hlong ⊢
          omega
        have hstuck := passedPaths_stuck hfull hkind hread hname hdots fuel
        obtain ⟨part, -, hvalue⟩ := value_of_mapM hparts he
        rw [passedAt, hkind] at hvalue
        simp only [hstuck] at hvalue
        cases hvalue

end Necessary

section Counting

variable {na : Sodium} {t : DirectoryTree} {elsewhere : Disk} {disk : Disk} {path : CString}
  {node : FileNode} {up : List FileNode}

/-- What is read at the path of a file of the tree is its content. -/
theorem read_of_mem_files
    (hlegal : node.Legal)
    (hstand : Standing t path node up)
    {f : CString × Option Bytes} (hf : f ∈ node.files path) :
    (t.disk elsewhere).read f.1 = f.2 := by
  induction hlegal generalizing path up with
  | regular content =>
      rw [FileNode.files, List.mem_singleton] at hf
      rw [hf]
      exact hstand.read
  | other =>
      rw [FileNode.files] at hf
      cases hf
  | directory distinct below ih =>
      rw [files_directory, List.mem_flatMap] at hf
      obtain ⟨e, he, hfile⟩ := hf
      exact ih e he (hstand.child distinct he) hfile

/-- What `hash_and_store` can hash is what can be read. -/
theorem isSome_hashAndStore
    (p : CString) :
    (hashAndStore na disk p).isSome = (disk.read p).isSome := by
  rw [hashAndStore, cryptoHashFile, Option.isSome_map, Option.isSome_map]

/-- As many files are recorded as fit and can be read. -/
theorem length_recorded
    (hread : ∀ f ∈ node.files path, disk.read f.1 = f.2) :
    ((fittingPaths path node).filterMap (hashAndStore na disk)).length =
      readableCount path node := by
  unfold fittingPaths readableCount
  generalize node.files path = files at hread ⊢
  induction files with
  | nil => rfl
  | cons f fs ih =>
      rw [List.forall_mem_cons] at hread
      have hsome : (hashAndStore na disk f.1).isSome = (disk.read f.1).isSome :=
        isSome_hashAndStore f.1
      rw [hread.1] at hsome
      have hrest := ih hread.2
      rw [List.map_cons, List.filter_cons, List.countP_cons, ← hrest]
      by_cases hfits : f.1.strlen < 512
      · cases hstore : hashAndStore na disk f.1 with
        | none =>
            rw [hstore, Option.isSome_none] at hsome
            simp [hfits, hstore, ← hsome]
        | some e =>
            rw [hstore, Option.isSome_some] at hsome
            simp [hfits, hstore, ← hsome]
      · simp [hfits]

end Counting

section Scan

variable {na : Sodium} {t : DirectoryTree} {elsewhere : Disk}

/-- The scan of the tree is what is passed at its top. -/
theorem passedAt_top
    (fuel : Nat) :
    passedAt (t.disk elsewhere) (passedPaths (t.disk elsewhere) fuel) t.top =
      passedPaths (t.disk elsewhere) fuel t.top := by
  rw [passedAt, (standing_top t).lstat, DirectoryTree.root, fileKind]

/-- As many files of the tree are recorded as fit and can be read. -/
theorem length_recorded_tree
    (na : Sodium) (t : DirectoryTree) (elsewhere : Disk) :
    ((fittingPaths t.top t.root).filterMap (hashAndStore na (t.disk elsewhere))).length =
      readableCount t.top t.root :=
  length_recorded fun _ hf => read_of_mem_files t.legal (standing_top t) hf

/-- A scan that is right passes the paths that fit, in some order. -/
theorem ScanRight.perm
    {count : Int} {s : ScanState}
    (h : ScanRight na (t.disk elsewhere) t count s) :
    s.passed.Perm (fittingPaths t.top t.root) := by
  have honce : s.passed.Nodup := by
    rw [List.nodup_iff_count_eq_one]
    exact fun p hp => h.once p (h.only p hp)
  refine (List.perm_ext_iff_of_nodup honce (fittingPaths_nodup t.legal t.top)).mpr fun p => ?_
  refine ⟨h.only p, fun hp => ?_⟩
  rw [← List.count_pos_iff, h.once p hp]
  decide

/-- Only where no cut path is taken up and the counter has room the scan is right. -/
theorem handled_of_scanRight
    {count : Int} {hcount : count ≤ intMax} {fuel : Nat} {s : ScanState}
    (hscan :
      scanDirectoryCounted na (t.disk elsewhere) fuel t.top (.start count hcount) = some s)
    (hright : ScanRight na (t.disk elsewhere) t count s) :
    CutsHarmless (t.disk elsewhere) t.top t.root ∧
      count + readableCount t.top t.root ≤ intMax := by
  rw [scanDirectoryCounted_eq, Option.bind_eq_some_iff] at hscan
  obtain ⟨paths, hpaths, hpass⟩ := hscan
  obtain ⟨hpassed, -, hfileCount⟩ := passAll_some hpass
  obtain rfl : s.passed = paths := hpassed
  have hperm := hright.perm
  constructor
  · rw [← passedAt_top] at hpaths
    exact cutsHarmless_of_passedAt t.legal (standing_top t)
      (Nat.lt_of_le_of_lt t.top_short (by decide)) hpaths
      (hperm.nodup_iff.mpr (fittingPaths_nodup t.legal t.top))
  · have hsame := (hperm.filterMap (hashAndStore na (t.disk elsewhere))).length_eq
    have hle := s.fileCount_le
    rw [hfileCount, hsame, length_recorded_tree] at hle
    exact hle

/-- There it is. -/
theorem scanRight_of_handled
    {count : Int} (hcount : count ≤ intMax)
    (hcuts : CutsHarmless (t.disk elsewhere) t.top t.root)
    (hroom : count + readableCount t.top t.root ≤ intMax) :
    ∃ fuel s,
      scanDirectoryCounted na (t.disk elsewhere) fuel t.top (.start count hcount) = some s ∧
        ScanRight na (t.disk elsewhere) t count s := by
  obtain ⟨fuel, hfuel⟩ :=
    passedAt_of_cutsHarmless t.legal hcuts (standing_top t)
      (Nat.lt_of_le_of_lt t.top_short (by decide))
  have hpaths := hfuel fuel le_rfl
  rw [passedAt_top] at hpaths
  rw [← length_recorded_tree na t elsewhere] at hroom
  have hstart :
      (ScanState.start count hcount).fileCount +
          ((fittingPaths t.top t.root).filterMap
            (hashAndStore na (t.disk elsewhere))).length ≤ intMax :=
    hroom
  obtain ⟨s, hpass⟩ := exists_passAll hstart
  obtain ⟨hpassed, hrecorded, hfileCount⟩ := passAll_some hpass
  have hall : s.passed = fittingPaths t.top t.root := hpassed
  refine ⟨fuel, s, ?_, ?_⟩
  · rw [scanDirectoryCounted_eq, hpaths]
    exact hpass
  · refine ⟨fun p hp => ?_, fun p hp => hall ▸ hp, ?_, ?_⟩
    · rw [hall]
      exact List.count_eq_one_of_mem (fittingPaths_nodup t.legal t.top) hp
    · rw [hall]
      exact hrecorded
    · rw [hfileCount, hrecorded]
      rfl

/--
**When the scan is right.**  For every finite directory tree, `scan_directory_recursive` ends
and passes each regular file whose full path fits the array to `hash_and_store` exactly once,
under its own path, and no other path, and its counter grows by the number of files that were
recorded, exactly when no path that is cut names a regular file or a directory with something
in it, and the counter has room for the files that can be read.
-/
theorem scan_right_iff
    (na : Sodium) (t : DirectoryTree) (elsewhere : Disk)
    {count : Int} (hcount : count ≤ intMax) :
    (∃ fuel s,
        scanDirectoryCounted na (t.disk elsewhere) fuel t.top (.start count hcount) = some s ∧
          ScanRight na (t.disk elsewhere) t count s)
      ↔
    CutsHarmless (t.disk elsewhere) t.top t.root ∧
      count + readableCount t.top t.root ≤ intMax := by
  constructor
  · rintro ⟨fuel, s, hscan, hright⟩
    exact handled_of_scanRight hscan hright
  · rintro ⟨hcuts, hroom⟩
    exact scanRight_of_handled hcount hcuts hroom

theorem plainName_letters
    (n : Nat) :
    PlainName (List.replicate (n + 1) 97) := by
  refine plainName_of_mem (b := 97) (fun h => ?_) (by simp) (by decide)
  exact absurd (List.eq_of_mem_replicate h) (by decide)

/-- A name of `n + 1` letters. -/
def letters (n : Nat) : FileName :=
  ⟨⟨List.replicate (n + 1) 97, nulFree_replicate (n + 1)⟩, plainName_letters n⟩

theorem strlen_letters
    (n : Nat) :
    (letters n).text.strlen = n + 1 :=
  List.length_replicate

/-- A directory with one entry is legal when the entry is. -/
theorem legal_single
    {e : FileName × FileNode}
    (h : e.2.Legal) :
    (FileNode.directory [e]).Legal :=
  .directory (List.nodup_singleton _) (by simpa using h)

/-- The path of a watched directory. -/
def etc : CString := cstr (ascii "/etc")

theorem etc_watched : etc ∈ watchedDirs := by
  decide

theorem strlen_etc : etc.strlen = 4 := by
  decide

theorem zero_le_intMax : (0 : Int) ≤ intMax := by
  decide

/-- Nothing outside the tree. -/
def noDisk : Disk where
  readdir := fun _ => none
  lstat := fun _ => none
  access := fun _ => false
  read := fun _ => none
  access_of_read := fun _ h => absurd rfl h

/-- `/etc/a/aa`, a file with one byte. -/
def shortTree : DirectoryTree where
  top := etc
  top_ne := (watchedDirs_short etc etc_watched).1
  top_short := (watchedDirs_short etc etc_watched).2
  entries := [(letters 0, .directory [(letters 1, .regular (some [7]))])]
  legal := legal_single (legal_single (.regular _))

/-- That tree is scanned as it should be. -/
theorem short_tree_scanned :
    ∃ fuel s,
      scanDirectoryCounted mirror (shortTree.disk noDisk) fuel shortTree.top
          (.start 0 zero_le_intMax) = some s ∧
        ScanRight mirror (shortTree.disk noDisk) shortTree 0 s := by
  have hfits : ((etc.child (letters 0).text).child (letters 1).text).strlen = 9 := by
    rw [strlen_child, strlen_child, strlen_etc, strlen_letters, strlen_letters]
  have hdir : (etc.child (letters 0).text).strlen = 6 := by
    rw [strlen_child, strlen_etc, strlen_letters]
  refine (scan_right_iff mirror shortTree noDisk zero_le_intMax).mpr ⟨?_, by decide⟩
  refine .directory (fun e he _ => ?_) (fun e he hlong => ?_)
  · obtain rfl := List.mem_singleton.mp he
    refine .directory (fun e he _ => ?_) (fun e he hlong => ?_)
    · obtain rfl := List.mem_singleton.mp he
      exact .regular _ _
    · obtain rfl := List.mem_singleton.mp he
      exact absurd (hfits ▸ hlong) (by decide)
  · obtain rfl := List.mem_singleton.mp he
    exact absurd (hdir ▸ hlong) (by decide)

/-- Below `/etc`, two directories with names of 255 and 249 letters and a file with one: the
path of the inner directory has 510 bytes. -/
def deepTree : DirectoryTree where
  top := etc
  top_ne := (watchedDirs_short etc etc_watched).1
  top_short := (watchedDirs_short etc etc_watched).2
  entries :=
    [(letters 254, .directory [(letters 248, .directory [(letters 0, .regular (some []))])])]
  legal := legal_single (legal_single (legal_single (.regular _)))

/-- The path of the file is cut behind the slash and names the directory again, which is
scanned again, without end. -/
theorem deep_tree_scan_endless :
    ¬ ∃ fuel s,
      scanDirectoryCounted mirror (deepTree.disk noDisk) fuel deepTree.top
        (.start 0 zero_le_intMax) = some s := by
  rintro ⟨fuel, s, hscan⟩
  have htop := standing_top deepTree
  have houter := htop.child (List.nodup_singleton _) List.mem_cons_self
  have hinner := houter.child (List.nodup_singleton _) List.mem_cons_self
  have hlenOuter : (etc.child (letters 254).text).strlen = 260 := by
    rw [strlen_child, strlen_etc, strlen_letters]
  have hlenInner : ((etc.child (letters 254).text).child (letters 248).text).strlen = 510 := by
    rw [strlen_child, hlenOuter, strlen_letters]
  have hfitsOuter : (etc.child (letters 254).text).strlen < 512 := by
    rw [hlenOuter]
    decide
  have hfitsInner : ((etc.child (letters 254).text).child (letters 248).text).strlen < 512 := by
    rw [hlenInner]
    decide
  have hendless := hinner.endless_slash noDisk hlenInner List.mem_cons_self
  have houterEndless :=
    houter.endless_above (List.nodup_singleton _) List.mem_cons_self hfitsInner hendless
  have htopEndless :=
    htop.endless_above (List.nodup_singleton _) List.mem_cons_self hfitsOuter houterEndless
  rw [scanDirectoryCounted_eq, htopEndless] at hscan
  cases hscan

end Scan

end Integrity
end SecureZ
