import SecureZ.Lib.Paths
import Mathlib.Data.List.Nodup

/-!
# Directory trees

A tree of directories, regular files and other nodes below one directory, and what a path
names in it.  The path of the top directory is given; a path is followed component by
component, with a stack of the directories passed on the way, so that ".." can go back.  What
lies above the top is not part of the tree.

`files` lists the regular files with their full paths.  In a legal tree, where the names in a
directory differ, no two files have one path.
-/

namespace CLib

section Trees

/-- The name of a directory entry. -/
structure FileName where
  text : CString
  plain : PlainName text.bytes

/-- A node of the tree; `other` is a symbolic link, a device, a socket or a pipe. -/
inductive FileNode
  /-- A regular file, with its content when it can be read. -/
  | regular (content : Option Bytes)
  | other
  | directory (entries : List (FileName × FileNode))

/-- The entries of a directory, in the order in which they are read. -/
abbrev Entries := List (FileName × FileNode)

/-- The names in every directory differ. -/
inductive FileNode.Legal : FileNode → Prop
  | regular (content : Option Bytes) : Legal (.regular content)
  | other : Legal .other
  | directory
      {entries : Entries}
      (distinct : (entries.map fun e => e.1.text).Nodup)
      (below : ∀ e ∈ entries, Legal e.2) :
      Legal (.directory entries)

/-- The path of a name in a directory. -/
def CString.child (dir name : CString) : CString :=
  (dir.append (cstr (ascii "/"))).append name

mutual

/-- The regular files of a node with this path, with their contents. -/
def FileNode.files (path : CString) : FileNode → List (CString × Option Bytes)
  | .regular content => [(path, content)]
  | .other => []
  | .directory entries => entriesFiles path entries

/-- The files of the entries of a directory. -/
def entriesFiles (path : CString) : Entries → List (CString × Option Bytes)
  | [] => []
  | e :: rest => entryFiles path e ++ entriesFiles path rest

/-- The files of one entry. -/
def entryFiles (path : CString) : FileName × FileNode → List (CString × Option Bytes)
  | (name, node) => node.files (path.child name.text)

end

/-- A component of a path, followed from a node with the directories above it.  What is above
the top or behind a symbolic link is not known. -/
def follow : List FileNode → Bytes → Option (List FileNode)
  | [], _ => some []
  | .directory entries :: up, c =>
      if c = [] ∨ c = [46] then some (.directory entries :: up)
      else if c = [46, 46] then some up
      else
        (entries.find? fun e => e.1.text.bytes = c).map fun e => e.2 :: .directory entries :: up
  | .other :: _, _ => some []
  | .regular _ :: _, _ => none

/-- What a path names: none for nothing, and the empty stack for what is not in the tree. -/
def resolve (root : FileNode) (top path : Bytes) : Option (List FileNode) :=
  if path = top then some [root]
  else if (top ++ [47]).isPrefixOf path then
    (components (path.drop (top.length + 1))).foldlM follow [root]
  else some []

end Trees

section Resolution

variable {root : FileNode} {top path : Bytes}

/-- A path in the tree is the one of the top or goes on behind it with a slash. -/
theorem resolve_nonempty
    {node : FileNode} {up : List FileNode}
    (h : resolve root top path = some (node :: up)) :
    path = top ∧ [root] = node :: up ∨
      ∃ rest, path = top ++ 47 :: rest ∧
        (components rest).foldlM follow [root] = some (node :: up) := by
  unfold resolve at h
  split_ifs at h with htop hprefix
  · exact .inl ⟨htop, Option.some.inj h⟩
  · right
    obtain ⟨rest, rfl⟩ := List.isPrefixOf_iff_prefix.mp hprefix
    refine ⟨rest, by simp, ?_⟩
    have hlen : (top ++ [47]).length = top.length + 1 := by simp
    rwa [← hlen, List.drop_left] at h
  · cases h

/-- What stands behind a slash is followed from what the path in front names. -/
theorem resolve_append_slash
    {node : FileNode} {up : List FileNode}
    (h : resolve root top path = some (node :: up))
    (rest : Bytes) :
    resolve root top (path ++ 47 :: rest) = (components rest).foldlM follow (node :: up) := by
  have hbehind : ∀ behind : Bytes,
      resolve root top (top ++ 47 :: behind) = (components behind).foldlM follow [root] := by
    intro behind
    have hne : top ++ 47 :: behind ≠ top := by
      intro heq
      have hlen := congrArg List.length heq
      simp at hlen
    have hsplit : top ++ 47 :: behind = (top ++ [47]) ++ behind := by simp
    have hlen : (top ++ [47]).length = top.length + 1 := by simp
    have hprefix : (top ++ [47]).isPrefixOf (top ++ 47 :: behind) = true := by
      rw [List.isPrefixOf_iff_prefix, hsplit]
      exact List.prefix_append _ _
    rw [resolve, if_neg hne, if_pos hprefix, hsplit, ← hlen, List.drop_left]
  rcases resolve_nonempty h with ⟨rfl, hroot⟩ | ⟨front, rfl, hfront⟩
  · rw [hbehind, hroot]
  · rw [List.append_assoc, List.cons_append, hbehind, components_append_slash, List.foldlM_append,
      hfront]
    rfl

/-- One name behind a slash is one component to follow. -/
theorem resolve_append_name
    {node : FileNode} {up : List FileNode} {name : Bytes}
    (h : resolve root top path = some (node :: up))
    (hname : (47 : UInt8) ∉ name) :
    resolve root top (path ++ 47 :: name) = follow (node :: up) name := by
  rw [resolve_append_slash h, components_of_noSlash hname, List.foldlM_cons]
  exact bind_pure _

/-- A plain name is looked up in the directory. -/
theorem follow_plain
    {entries : Entries} {up : List FileNode} {c : Bytes}
    (h : PlainName c) :
    follow (.directory entries :: up) c =
      (entries.find? fun e => e.1.text.bytes = c).map
        fun e => e.2 :: .directory entries :: up := by
  rw [follow, if_neg, if_neg h.notDotDot]
  rintro (hnil | hdot)
  · exact h.nonempty hnil
  · exact h.notDot hdot

/-- An entry of a legal directory is found under its name. -/
theorem find_entry
    {entries : Entries} {e : FileName × FileNode}
    (hdistinct : (entries.map fun e => e.1.text).Nodup)
    (he : e ∈ entries) :
    entries.find? (fun e' => e'.1.text.bytes = e.1.text.bytes) = some e := by
  induction entries with
  | nil => cases he
  | cons d rest ih =>
      rw [List.map_cons, List.nodup_cons] at hdistinct
      rcases List.mem_cons.mp he with rfl | hrest
      · simp
      · have hne : d.1.text.bytes ≠ e.1.text.bytes := by
          intro heq
          refine hdistinct.1 (List.mem_map.mpr ⟨e, hrest, ?_⟩)
          exact (CString.ext heq).symm
        rw [List.find?_cons_of_neg (by simpa using hne)]
        exact ih hdistinct.2 hrest

end Resolution

section FullPaths

theorem child_bytes
    (dir name : CString) :
    (dir.child name).bytes = dir.bytes ++ 47 :: name.bytes := by
  have hslash : (cstr (ascii "/")).bytes = [47] := by decide
  simp [CString.child, CString.append, hslash]

theorem strlen_child
    (dir name : CString) :
    (dir.child name).strlen = dir.strlen + name.strlen + 1 := by
  rw [CString.strlen, child_bytes, List.length_append, List.length_cons, CString.strlen,
    CString.strlen]
  omega

/-- The files of a directory are those of its entries. -/
theorem files_directory
    (path : CString) (entries : Entries) :
    (FileNode.directory entries).files path =
      entries.flatMap fun e => e.2.files (path.child e.1.text) := by
  rw [FileNode.files]
  induction entries with
  | nil => rw [entriesFiles, List.flatMap_nil]
  | cons e rest ih =>
      rw [entriesFiles, ih, entryFiles, List.flatMap_cons]

/-- The paths of the files of a node begin with the path of the node, which ends there or at
a slash. -/
theorem path_of_mem_files
    {node : FileNode} {path : CString} {f : CString × Option Bytes}
    (hlegal : node.Legal)
    (hf : f ∈ node.files path) :
    f.1.bytes = path.bytes ∨ ∃ rest, f.1.bytes = path.bytes ++ 47 :: rest := by
  induction hlegal generalizing path with
  | regular content =>
      rw [FileNode.files, List.mem_singleton] at hf
      exact .inl (hf ▸ rfl)
  | other =>
      rw [FileNode.files] at hf
      cases hf
  | directory distinct below ih =>
      right
      rw [files_directory, List.mem_flatMap] at hf
      obtain ⟨e, he, hfile⟩ := hf
      rcases ih e he hfile with heq | ⟨rest, heq⟩
      · exact ⟨e.1.text.bytes, by rw [heq, child_bytes]⟩
      · refine ⟨e.1.text.bytes ++ 47 :: rest, ?_⟩
        rw [heq, child_bytes, List.append_assoc, List.cons_append]

/-- The first component behind a slash is the text up to the next slash. -/
theorem before_of_path
    {name text : Bytes}
    (hname : (47 : UInt8) ∉ name)
    (h : text = name ∨ ∃ rest, text = name ++ 47 :: rest) :
    before 47 text = name := by
  rcases h with rfl | ⟨rest, rfl⟩
  · rw [before, List.takeWhile_eq_self_iff]
    intro b hb
    have hne : b ≠ 47 := fun h => hname (h ▸ hb)
    simpa using hne
  · exact before_append_of_not_mem hname

/-- A file below an entry tells the name of the entry. -/
theorem name_of_mem_files
    {path : CString} {e : FileName × FileNode} {f : CString × Option Bytes}
    (hlegal : e.2.Legal)
    (hf : f ∈ e.2.files (path.child e.1.text)) :
    before 47 (f.1.bytes.drop (path.strlen + 1)) = e.1.text.bytes := by
  refine before_of_path e.1.plain.noSlash ?_
  have hlen : (path.bytes ++ [47]).length = path.strlen + 1 := by
    simp [CString.strlen]
  have hdrop : ∀ text, (path.bytes ++ 47 :: text).drop (path.strlen + 1) = text := by
    intro text
    have hsplit : path.bytes ++ 47 :: text = (path.bytes ++ [47]) ++ text := by simp
    rw [hsplit, ← hlen, List.drop_left]
  rcases path_of_mem_files hlegal hf with heq | ⟨rest, heq⟩
  · exact .inl (by rw [heq, child_bytes, hdrop])
  · refine .inr ⟨rest, ?_⟩
    rw [heq, child_bytes, List.append_assoc, List.cons_append, hdrop]

/-- No two files of a legal tree have one path. -/
theorem files_nodup
    {node : FileNode}
    (hlegal : node.Legal)
    (path : CString) :
    ((node.files path).map Prod.fst).Nodup := by
  induction hlegal generalizing path with
  | regular content =>
      rw [FileNode.files]
      exact List.nodup_singleton _
  | other =>
      rw [FileNode.files]
      exact List.nodup_nil
  | directory distinct below ih =>
      rw [files_directory, List.map_flatMap, List.nodup_flatMap]
      refine ⟨fun e he => ih e he (path.child e.1.text), ?_⟩
      rw [List.Nodup, List.pairwise_map] at distinct
      refine distinct.imp_of_mem fun {d e} hd he hne => ?_
      -- A path below both entries would begin with both names.
      refine List.disjoint_left.mpr fun p hpd hpe => ?_
      obtain ⟨f, hf, rfl⟩ := List.mem_map.mp hpd
      obtain ⟨g, hg, hfg⟩ := List.mem_map.mp hpe
      refine hne (CString.ext ?_)
      rw [← name_of_mem_files (below d hd) hf, ← name_of_mem_files (below e he) hg, hfg]

end FullPaths

end CLib
