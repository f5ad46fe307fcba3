import SecureZ.Engine.ContainerCreate

/-!
# The files of a container

The vault and the header of a container are at paths built from the base directory and the
name, in arrays of 256 bytes.  `snprintf` cuts what does not fit, from the end, where the two
paths differ; and a name may hold slashes and dots, so that different names can lead to one
place.

The main result says for every `HOME` and every two names when the paths are different and
creating or destroying one container leaves the files of the other alone.
-/

namespace SecureZ
namespace Container

open CLib

section Model

/-- `get_container_base`: what an earlier call left in the static array, or the directory
below `HOME`. -/
def getContainerBase (cached : CharArray containerPathMax) (home : CString) :
    CharArray containerPathMax :=
  if cached.text.bytes ≠ [] then cached
  else .store _ (home.append (cstr (ascii "/.securez/containers")))

/-- The base directory that the first call computes. -/
def containerBase (home : CString) : CString :=
  (getContainerBase (noText _) home).text

/-- `container_destroy`, as far as the files are concerned.  Before they are unlinked, the
vault is overwritten with what `dd` leaves. -/
def containerDestroyFiles
    (cwd : Location) (base : CString) (name password : Option CString) (dd : Option Bytes)
    (s : Storage) : Int × Storage :=
  match name, password with
  | some name, some _ =>
      let vault := vaultPlace cwd base name
      let overwritten := if (s.files vault).isSome then s.put vault dd else s
      (0, (overwritten.unlink vault).unlink (headerPlace cwd base name))
  | _, _ => (-1, s)

end Model

section Specification

/-- Creating and destroying the container `a` leaves a place as it is. -/
def LeavesAlone (cwd : Location) (base a : CString) (place : Location) : Prop :=
  ∀ s : Storage,
    (∀ sizeMb password steps,
        (containerCreate cwd base (some a) sizeMb password steps s).2.files place =
          s.files place) ∧
      ∀ password dd,
        (containerDestroyFiles cwd base (some a) password dd s).2.files place = s.files place

/-- The vault and the header of a container are at different paths. -/
def OwnPathsDiffer (base name : CString) : Prop :=
  (vaultPath base name).text ≠ (headerPath base name).text

/-- Two containers have no path in common, and neither is touched by what is done to the
other. -/
structure FilesApart (cwd : Location) (base a b : CString) : Prop where
  first : OwnPathsDiffer base a
  second : OwnPathsDiffer base b
  noCommon :
    ∀ p ∈ [(vaultPath base a).text, (headerPath base a).text],
      p ∉ [(vaultPath base b).text, (headerPath base b).text]
  firstAlone : ∀ p ∈ [vaultPlace cwd base b, headerPlace cwd base b], LeavesAlone cwd base a p
  secondAlone : ∀ p ∈ [vaultPlace cwd base a, headerPlace cwd base a], LeavesAlone cwd base b p

/-- The first byte behind the dot fits both paths, which is where they begin to differ. -/
def Fits (base name : CString) : Prop :=
  base.strlen + name.strlen + 3 < containerPathMax

/-- The room for an extension behind the name. -/
def extensionRoom (base name : CString) : Nat :=
  containerPathMax - 2 - base.strlen - name.strlen

/-- Where a name leads from the base directory: to a directory, and to a file name in it that
the extension goes behind. -/
def namePlace (cwd : Location) (base name : CString) : Location × Bytes :=
  (walk (location cwd base.bytes) (parentComponents name.bytes), lastComponent name.bytes)

/-- The names lead to one place, and as much of the extension `.vault` fits for both. -/
def SameFile (cwd : Location) (base a b : CString) : Prop :=
  namePlace cwd base a = namePlace cwd base b ∧
    min 6 (extensionRoom base a) = min 6 (extensionRoom base b)

end Specification

section Frame

variable {cwd : Location} {base name : CString} {s : Storage} {vault header place : Location}

@[simp] theorem files_put_of_ne
    (s : Storage) (content : Option Bytes)
    (h : place ≠ vault) :
    (s.put vault content).files place = s.files place := by
  simp [Storage.put, h]

@[simp] theorem files_unlink_of_ne
    (s : Storage)
    (h : place ≠ vault) :
    (s.unlink vault).files place = s.files place :=
  files_put_of_ne s none h

@[simp] theorem files_setMapped
    (s : Storage) (mapper : CString) (active : Bool) :
    (s.setMapped mapper active).files = s.files :=
  rfl

@[simp] theorem files_afterOpen
    (steps : CreateSteps) (mapper : CString) (s : Storage) :
    (afterOpen steps mapper s).files = s.files := by
  unfold afterOpen
  rcases steps.cryptsetupOpen with _ | e
  · rfl
  · dsimp only
    split_ifs <;> rfl

/-- From the second `pipe` on, only the two files of the container change. -/
theorem files_createOpen
    (hvault : place ≠ vault) (hheader : place ≠ header)
    (steps : CreateSteps) (mapper : CString) (status : Nat) (s : Storage) :
    (createOpen steps vault header mapper status s).2.files place = s.files place := by
  unfold createOpen createFinish
  split_ifs <;> simp [hvault, hheader]

/-- From the first `pipe` on, only the two files of the container change. -/
theorem files_createFormat
    (hvault : place ≠ vault) (hheader : place ≠ header)
    (steps : CreateSteps) (mapper : CString) (s : Storage) :
    (createFormat steps vault header mapper s).2.files place = s.files place := by
  unfold createFormat
  split_ifs
  · simp [hvault]
  rcases steps.luksFormat with _ | e
  · simp [hvault]
  dsimp only
  split_ifs
  · simp [hvault, hheader]
  · rw [files_createOpen hvault hheader, files_put_of_ne _ _ hheader]

/-- Creating a container changes its two files and no other. -/
theorem files_containerCreate
    (hvault : place ≠ vaultPlace cwd base name) (hheader : place ≠ headerPlace cwd base name)
    (sizeMb : Nat) (password : Option CString) (steps : CreateSteps) (s : Storage) :
    (containerCreate cwd base (some name) sizeMb password steps s).2.files place =
      s.files place := by
  unfold containerCreate
  dsimp only
  split_ifs
  · rfl
  · exact files_afterDd_of_ne steps hvault
  · rw [files_createFormat hvault hheader, files_afterDd_of_ne steps hvault]
  · rfl

/-- Destroying a container changes its two files and no other. -/
theorem files_containerDestroy
    (hvault : place ≠ vaultPlace cwd base name) (hheader : place ≠ headerPlace cwd base name)
    (password : Option CString) (dd : Option Bytes) (s : Storage) :
    (containerDestroyFiles cwd base (some name) password dd s).2.files place =
      s.files place := by
  rcases password with _ | password
  · rfl
  · simp only [containerDestroyFiles]
    split_ifs <;> simp [hvault, hheader]

/-- A place is left alone exactly when neither file is there: destroying removes both. -/
theorem leavesAlone_iff :
    LeavesAlone cwd base name place
      ↔
    place ∉ [vaultPlace cwd base name, headerPlace cwd base name] := by
  rw [List.mem_pair, not_or]
  constructor
  · intro h
    have hgone := (h ⟨fun _ => some [], fun _ => false⟩).2 (some name) none
    constructor <;> rintro rfl
    · simp [containerDestroyFiles, Storage.unlink, Storage.put, Function.update_apply] at hgone
    · simp [containerDestroyFiles, Storage.unlink, Storage.put] at hgone
  · rintro ⟨hvault, hheader⟩ s
    exact ⟨fun sizeMb password steps => files_containerCreate hvault hheader sizeMb password
      steps s, fun password dd => files_containerDestroy hvault hheader password dd s⟩

end Frame

section Cut

variable {cwd : Location} {base name a b : CString}

/-- What `snprintf` leaves of a path. -/
theorem vaultPath_bytes
    (base name : CString) :
    (vaultPath base name).text.bytes =
      (base.bytes ++ 47 :: (name.bytes ++ ascii ".vault")).take 255 := by
  simp only [vaultPath, CharArray.store, CString.take, CString.append, literal,
    List.append_assoc]
  rfl

theorem headerPath_bytes
    (base name : CString) :
    (headerPath base name).text.bytes =
      (base.bytes ++ 47 :: (name.bytes ++ ascii ".header")).take 255 := by
  simp only [headerPath, CharArray.store, CString.take, CString.append, literal,
    List.append_assoc]
  rfl

/-- When there is room for two bytes of the extension, the cut is in the extension. -/
theorem take_path
    (h : Fits base name)
    (ext : Bytes) :
    (base.bytes ++ 47 :: (name.bytes ++ ext)).take 255 =
      base.bytes ++ 47 :: (name.bytes ++ ext.take (extensionRoom base name)) := by
  have hsum : base.bytes.length + name.bytes.length + 3 < 256 := h
  have hsplit :
      base.bytes ++ 47 :: (name.bytes ++ ext) = (base.bytes ++ 47 :: name.bytes) ++ ext := by
    simp
  have hlen :
      (base.bytes ++ 47 :: name.bytes).length = base.bytes.length + name.bytes.length + 1 := by
    simp [Nat.add_assoc]
  have hroom : 255 - (base.bytes ++ 47 :: name.bytes).length = extensionRoom base name := by
    rw [hlen]
    simp only [extensionRoom, containerPathMax, CString.strlen]
    omega
  rw [hsplit, List.take_append, List.take_of_length_le (by omega), hroom]
  simp

/-- When there is none, the cut takes the whole extension behind the dot. -/
theorem take_path_of_not_fits
    (h : ¬ Fits base name)
    (ext : Bytes) :
    (base.bytes ++ 47 :: (name.bytes ++ 46 :: ext)).take 255 =
      (base.bytes ++ 47 :: (name.bytes ++ [46])).take 255 := by
  have hsum : ¬ base.bytes.length + name.bytes.length + 3 < 256 := h
  have hsplit :
      base.bytes ++ 47 :: (name.bytes ++ 46 :: ext) =
        (base.bytes ++ 47 :: (name.bytes ++ [46])) ++ ext := by
    simp
  rw [hsplit, List.take_append_of_le_length]
  simp only [List.length_append, List.length_cons, List.length_nil]
  omega

/-- A path that has room for it shows the first byte behind the dot. -/
theorem take_extensionRoom
    (h : Fits base name)
    (b : UInt8) (rest : Bytes) :
    (46 :: b :: rest).take (extensionRoom base name) =
      46 :: b :: rest.take (extensionRoom base name - 2) := by
  have hroom : extensionRoom base name = extensionRoom base name - 2 + 2 := by
    simp only [Fits, containerPathMax] at h
    simp only [extensionRoom, containerPathMax]
    omega
  rw [hroom]
  rfl

theorem vault_extension :
    ascii ".vault" = 46 :: 118 :: ascii "ault" := by
  decide

theorem header_extension :
    ascii ".header" = 46 :: 104 :: ascii "eader" := by
  decide

/-- The two paths of a container differ exactly when there is room for the byte behind the
dot. -/
theorem ownPathsDiffer_iff :
    OwnPathsDiffer base name ↔ Fits base name := by
  constructor
  · intro h
    by_contra hnot
    refine h (CString.ext ?_)
    rw [vaultPath_bytes, headerPath_bytes, vault_extension, header_extension]
    exact (take_path_of_not_fits hnot _).trans (take_path_of_not_fits hnot _).symm
  · intro h heq
    have hbytes := congrArg CString.bytes heq
    rw [vaultPath_bytes, headerPath_bytes, take_path h, take_path h, vault_extension,
      header_extension, take_extensionRoom h, take_extensionRoom h] at hbytes
    simp at hbytes

/-- Where a path leads that is cut in its extension. -/
theorem location_take
    {b : UInt8} {rest : Bytes}
    (hbase : base.bytes ≠ []) (h : Fits base name)
    (hb : b ≠ 46) (hslash : (47 : UInt8) ∉ 46 :: b :: rest)
    (cwd : Location) :
    location cwd ((base.bytes ++ 47 :: (name.bytes ++ 46 :: b :: rest)).take 255) =
      (namePlace cwd base name).1 ++
        [(namePlace cwd base name).2 ++ (46 :: b :: rest).take (extensionRoom base name)] := by
  have hmem : b ∈ (46 :: b :: rest).take (extensionRoom base name) := by
    rw [take_extensionRoom h]
    simp
  have hcut : (47 : UInt8) ∉ (46 :: b :: rest).take (extensionRoom base name) :=
    fun hin => hslash (List.mem_of_mem_take hin)
  rw [take_path h, location_file hbase hcut hmem hb cwd, namePlace]

/-- Where the vault of a container is when its path is not cut too short. -/
theorem vaultPlace_eq
    (hbase : base.bytes ≠ []) (h : Fits base name)
    (cwd : Location) :
    vaultPlace cwd base name =
      (namePlace cwd base name).1 ++
        [(namePlace cwd base name).2 ++ (ascii ".vault").take (extensionRoom base name)] := by
  rw [vaultPlace, vaultPath_bytes, vault_extension]
  exact location_take hbase h (by decide) (by decide) cwd

theorem headerPlace_eq
    (hbase : base.bytes ≠ []) (h : Fits base name)
    (cwd : Location) :
    headerPlace cwd base name =
      (namePlace cwd base name).1 ++
        [(namePlace cwd base name).2 ++ (ascii ".header").take (extensionRoom base name)] := by
  rw [headerPlace, headerPath_bytes, header_extension]
  exact location_take hbase h (by decide) (by decide) cwd

end Cut

section Extensions

/-- The last two bytes. -/
def lastTwo (s : Bytes) : Bytes :=
  s.reverse.take 2

/-- What stands in front of an extension does not change its last two bytes. -/
theorem lastTwo_append
    {ext : Bytes}
    (h : 2 ≤ ext.length)
    (c : Bytes) :
    lastTwo (c ++ ext) = lastTwo ext := by
  rw [lastTwo, lastTwo, List.reverse_append, List.take_append_of_le_length]
  rwa [List.length_reverse]

/-- The last two bytes tell how much of which extension was written. -/
theorem lastTwo_extensions :
    (∀ i < 7, ∀ j < 7, 2 ≤ i → 2 ≤ j →
        lastTwo ((ascii ".vault").take i) = lastTwo ((ascii ".vault").take j) → i = j) ∧
      (∀ i < 8, ∀ j < 8, 2 ≤ i → 2 ≤ j →
        lastTwo ((ascii ".header").take i) = lastTwo ((ascii ".header").take j) → i = j) ∧
      ∀ i < 7, ∀ j < 8, 2 ≤ i → 2 ≤ j →
        lastTwo ((ascii ".vault").take i) ≠ lastTwo ((ascii ".header").take j) :=
  ⟨by decide, by decide, by decide⟩

/-- An extension that is cut behind its end is not cut. -/
theorem take_min_length
    (ext : Bytes) (room : Nat) :
    ext.take room = ext.take (min ext.length room) := by
  rw [List.take_eq_take_iff]
  omega

variable {c d : Bytes} {i j : Nat}

/-- Two names with the vault extension are equal when the names and the cuts are. -/
theorem append_vault_inj
    (hi : 2 ≤ i) (hj : 2 ≤ j) :
    c ++ (ascii ".vault").take i = d ++ (ascii ".vault").take j
      ↔
    c = d ∧ min 6 i = min 6 j := by
  have hlen : (ascii ".vault").length = 6 := by decide
  rw [take_min_length _ i, take_min_length _ j, hlen]
  have hlong : ∀ n, 2 ≤ n → 2 ≤ ((ascii ".vault").take (min 6 n)).length := by
    intro n hn
    rw [List.length_take, hlen]
    omega
  constructor
  · intro h
    have htwo := congrArg lastTwo h
    rw [lastTwo_append (hlong i hi), lastTwo_append (hlong j hj)] at htwo
    have hcut := lastTwo_extensions.1 (min 6 i) (by omega) (min 6 j) (by omega) (by omega)
      (by omega) htwo
    rw [hcut] at h
    exact ⟨List.append_cancel_right h, hcut⟩
  · rintro ⟨rfl, hcut⟩
    rw [hcut]

/-- Two names with the header extension are equal only when the names and the cuts are. -/
theorem append_header_inj
    (hi : 2 ≤ i) (hj : 2 ≤ j)
    (h : c ++ (ascii ".header").take i = d ++ (ascii ".header").take j) :
    c = d ∧ min 7 i = min 7 j := by
  have hlen : (ascii ".header").length = 7 := by decide
  rw [take_min_length _ i, take_min_length _ j, hlen] at h
  have hlong : ∀ n, 2 ≤ n → 2 ≤ ((ascii ".header").take (min 7 n)).length := by
    intro n hn
    rw [List.length_take, hlen]
    omega
  have htwo := congrArg lastTwo h
  rw [lastTwo_append (hlong i hi), lastTwo_append (hlong j hj)] at htwo
  have hcut := lastTwo_extensions.2.1 (min 7 i) (by omega) (min 7 j) (by omega) (by omega)
    (by omega) htwo
  rw [hcut] at h
  exact ⟨List.append_cancel_right h, hcut⟩

/-- A vault is never named as a header is. -/
theorem append_vault_ne_header
    (hi : 2 ≤ i) (hj : 2 ≤ j) :
    c ++ (ascii ".vault").take i ≠ d ++ (ascii ".header").take j := by
  intro h
  have hvault : (ascii ".vault").length = 6 := by decide
  have hheader : (ascii ".header").length = 7 := by decide
  rw [take_min_length _ i, take_min_length _ j, hvault, hheader] at h
  have htwo := congrArg lastTwo h
  rw [lastTwo_append, lastTwo_append] at htwo
  · exact lastTwo_extensions.2.2 (min 6 i) (by omega) (min 7 j) (by omega) (by omega) (by omega)
      htwo
  · rw [List.length_take, hheader]
    omega
  · rw [List.length_take, hvault]
    omega

end Extensions

section Places

variable {cwd : Location} {base name a b : CString}

theorem two_le_extensionRoom
    (h : Fits base name) :
    2 ≤ extensionRoom base name := by
  simp only [Fits, containerPathMax] at h
  simp only [extensionRoom, containerPathMax]
  omega

/-- Vaults are at one place exactly when the names lead to one file. -/
theorem vaultPlace_eq_iff
    (hbase : base.bytes ≠ []) (ha : Fits base a) (hb : Fits base b) :
    vaultPlace cwd base a = vaultPlace cwd base b ↔ SameFile cwd base a b := by
  rw [vaultPlace_eq hbase ha, vaultPlace_eq hbase hb, List.append_singleton_inj,
    append_vault_inj (two_le_extensionRoom ha) (two_le_extensionRoom hb), ← and_assoc,
    ← Prod.ext_iff, SameFile]

theorem sameFile_of_headerPlace_eq
    (hbase : base.bytes ≠ []) (ha : Fits base a) (hb : Fits base b)
    (h : headerPlace cwd base a = headerPlace cwd base b) :
    SameFile cwd base a b := by
  rw [headerPlace_eq hbase ha, headerPlace_eq hbase hb, List.append_singleton_inj] at h
  obtain ⟨hdir, hfile⟩ := h
  obtain ⟨hlast, hcut⟩ :=
    append_header_inj (two_le_extensionRoom ha) (two_le_extensionRoom hb) hfile
  exact ⟨Prod.ext hdir hlast, by omega⟩

/-- No vault is where a header is. -/
theorem vaultPlace_ne_headerPlace
    (hbase : base.bytes ≠ []) (ha : Fits base a) (hb : Fits base b) :
    vaultPlace cwd base a ≠ headerPlace cwd base b := by
  rw [vaultPlace_eq hbase ha, headerPlace_eq hbase hb]
  intro h
  exact append_vault_ne_header (two_le_extensionRoom ha) (two_le_extensionRoom hb)
    (List.append_singleton_inj.mp h).2

/-- Names that do not lead to one file have their files at four places. -/
theorem places_apart
    (hbase : base.bytes ≠ []) (ha : Fits base a) (hb : Fits base b)
    (hsame : ¬ SameFile cwd base a b) :
    ∀ p ∈ [vaultPlace cwd base a, headerPlace cwd base a],
      p ∉ [vaultPlace cwd base b, headerPlace cwd base b] := by
  have hvaults := mt (vaultPlace_eq_iff hbase ha hb).mp hsame
  have hheaders := mt (sameFile_of_headerPlace_eq hbase ha hb) hsame
  have hcross : vaultPlace cwd base a ≠ headerPlace cwd base b :=
    vaultPlace_ne_headerPlace hbase ha hb
  have hcross' : vaultPlace cwd base b ≠ headerPlace cwd base a :=
    vaultPlace_ne_headerPlace hbase hb ha
  simp [hvaults, hheaders, hcross, hcross'.symm]

end Places

section Homes

variable {cwd : Location} {a b : CString}

/-- The base directory, with the cut of its own array. -/
theorem strlen_containerBase
    (home : CString) :
    (containerBase home).strlen = min 255 (home.strlen + 20) := by
  have hnone : (noText containerPathMax).text.bytes = [] := rfl
  have hlen : (cstr (ascii "/.securez/containers")).bytes.length = 20 := by decide
  rw [containerBase, getContainerBase, if_neg (by rw [hnone]; simp)]
  simp only [CharArray.store, CString.take, CString.append, CString.strlen, List.length_take,
    List.length_append, hlen, containerPathMax]

theorem containerBase_ne_nil
    (home : CString) :
    (containerBase home).bytes ≠ [] := by
  intro h
  have hlen := strlen_containerBase home
  rw [CString.strlen, h, List.length_nil] at hlen
  omega

/--
**When the files of two containers are apart.**  For every `HOME` and every two names, each
container has a vault path and a header path of its own and creating or destroying one leaves
the files of the other alone, exactly when two bytes of the extension fit behind both names,
and the names do not lead to one place with as much of the extension.
-/
theorem container_files_apart_iff
    (cwd : Location) (home a b : CString) :
    FilesApart cwd (containerBase home) a b
      ↔
    Fits (containerBase home) a ∧ Fits (containerBase home) b ∧
      ¬ SameFile cwd (containerBase home) a b := by
  have hbase := containerBase_ne_nil home
  constructor
  · intro h
    have ha := ownPathsDiffer_iff.mp h.first
    have hb := ownPathsDiffer_iff.mp h.second
    refine ⟨ha, hb, fun hsame => ?_⟩
    have halone := leavesAlone_iff.mp (h.firstAlone _ List.mem_cons_self)
    rw [← (vaultPlace_eq_iff hbase ha hb).mpr hsame] at halone
    exact halone List.mem_cons_self
  · rintro ⟨ha, hb, hsame⟩
    have happart := places_apart hbase ha hb hsame
    have happart' := places_apart hbase hb ha fun h => hsame ⟨h.1.symm, h.2.symm⟩
    refine ⟨ownPathsDiffer_iff.mpr ha, ownPathsDiffer_iff.mpr hb, fun p hpa hpb => ?_,
      fun p hp => leavesAlone_iff.mpr (happart' p hp),
      fun p hp => leavesAlone_iff.mpr (happart p hp)⟩
    exact happart _ (List.mem_map_of_mem (f := fun path => location cwd path.bytes) hpa)
      (List.mem_map_of_mem (f := fun path => location cwd path.bytes) hpb)

/-- A `HOME` of 240 bytes. -/
def longHome : CString := ⟨List.replicate 240 97, nulFree_replicate 240⟩

/-- Behind a long `HOME` a container has one path for both files.  Behind a short one, two
names lead to one vault, and destroying one container removes the other. -/
theorem paths_shared :
    ¬ OwnPathsDiffer (containerBase longHome) (cstr (ascii "docs")) ∧
      cstr (ascii "docs") ≠ cstr (ascii "./docs") ∧
      ¬ LeavesAlone [] (containerBase (cstr (ascii "/root"))) (cstr (ascii "./docs"))
        (vaultPlace [] (containerBase (cstr (ascii "/root"))) (cstr (ascii "docs"))) := by
  refine ⟨?_, by decide, ?_⟩
  · have hlong : longHome.strlen = 240 := List.length_replicate
    rw [ownPathsDiffer_iff, Fits, strlen_containerBase, hlong]
    decide
  · rw [leavesAlone_iff]
    decide

/-- A name without a slash leads to no place but its own. -/
theorem sameFile_iff_of_noSlash
    {base : CString}
    (ha : (47 : UInt8) ∉ a.bytes) (hb : (47 : UInt8) ∉ b.bytes) :
    SameFile cwd base a b ↔ a = b := by
  constructor
  · intro h
    have hname := congrArg Prod.snd h.1
    rw [namePlace, namePlace, lastComponent_of_noSlash ha, lastComponent_of_noSlash hb] at hname
    exact CString.ext hname
  · rintro rfl
    exact ⟨rfl, rfl⟩

/-- With a `HOME` of at most 169 bytes, accepted names without slashes have files that are
apart when the names differ. -/
theorem files_apart_of_short_home
    {home : CString}
    (hhome : home.strlen ≤ 169)
    (ha : a.strlen < containerNameMax) (hb : b.strlen < containerNameMax)
    (haslash : (47 : UInt8) ∉ a.bytes) (hbslash : (47 : UInt8) ∉ b.bytes)
    (hne : a ≠ b)
    (cwd : Location) :
    FilesApart cwd (containerBase home) a b := by
  have hlen := strlen_containerBase home
  simp only [containerNameMax] at ha hb
  rw [container_files_apart_iff, Fits, Fits, hlen, containerPathMax,
    sameFile_iff_of_noSlash haslash hbslash]
  exact ⟨by omega, by omega, hne⟩

end Homes

end Container
end SecureZ
