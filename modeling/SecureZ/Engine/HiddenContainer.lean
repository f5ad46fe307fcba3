import SecureZ.Lib.SlotArray
import SecureZ.Lib.CText

/-!
# Open containers

`hidden_container.c` keeps the containers that are open in a fixed array with a counter,
under their names.  Opening runs `cryptsetup open` and mounts the mapped device; closing
unmounts it, runs `cryptsetup close` and removes the entry.  Names and paths are built in
local arrays and copied into those of the entry with `strncpy`.

What the system comes back with is an argument of each operation.  An operation returns
the table, its status, and the calls that it made to the system, in their order.
-/

namespace SecureZ
namespace Container

open CLib

section Entries

/-- `CONTAINER_NAME_MAX`. -/
def containerNameMax : Nat := 64

/-- `CONTAINER_PATH_MAX`. -/
def containerPathMax : Nat := 256

/-- `CONTAINER_MAX_ACTIVE`. -/
def containerMaxActive : Nat := 16

instance : NeZero containerNameMax := ⟨by decide⟩

instance : NeZero (containerNameMax + 16) := ⟨by decide⟩

instance : NeZero containerPathMax := ⟨by decide⟩

/-- `ContainerState`. -/
inductive ContainerState
  | closed
  | opened
  | error
deriving DecidableEq

/-- `ContainerInfo`. -/
structure ContainerInfo where
  name : CharArray containerNameMax
  vaultPath : CharArray containerPathMax
  headerPath : CharArray containerPathMax
  mountPath : CharArray containerPathMax
  mapperName : CharArray containerNameMax
  state : ContainerState
  sizeMb : Nat
  /-- The call of `container_open` that wrote the entry.  Not in the source: it tells
  openings under one name apart. -/
  opening : Nat
deriving DecidableEq

/-- A literal of the source. -/
def literal (s : String) (h : (0 : UInt8) ∉ ascii s) : CString := ⟨ascii s, h⟩

/-- The empty text. -/
def noText (n : Nat) [NeZero n] : CharArray n :=
  .store n (literal "" (by decide))

/-- An entry after `memset`. -/
def ContainerInfo.zero : ContainerInfo where
  name := noText _
  vaultPath := noText _
  headerPath := noText _
  mountPath := noText _
  mapperName := noText _
  state := .closed
  sizeMb := 0
  opening := 0

end Entries

section Names

/-- `snprintf(vault_path, sizeof(vault_path), "%s/%s.vault", base, name)`. -/
def vaultPath (base name : CString) : CharArray containerPathMax :=
  .store _ ((base.append (literal "/" (by decide))).append
    (name.append (literal ".vault" (by decide))))

/-- `snprintf(header_path, sizeof(header_path), "%s/%s.header", base, name)`. -/
def headerPath (base name : CString) : CharArray containerPathMax :=
  .store _ ((base.append (literal "/" (by decide))).append
    (name.append (literal ".header" (by decide))))

/-- `snprintf(mount_path, sizeof(mount_path), "/mnt/securez-vault/%s", name)`. -/
def mountPath (name : CString) : CharArray containerPathMax :=
  .store _ ((literal "/mnt/securez-vault/" (by decide)).append name)

/-- `snprintf(mapper_name, sizeof(mapper_name), "sz-%s", name)`. -/
def mapperName (name : CString) : CharArray (containerNameMax + 16) :=
  .store _ ((literal "sz-" (by decide)).append name)

/-- `snprintf(dev_path, sizeof(dev_path), "/dev/mapper/%s", mapper_name)`. -/
def devPath (name : CString) : CharArray 128 :=
  .store _ ((literal "/dev/mapper/" (by decide)).append (mapperName name).text)

end Names

section Table

/-- The static state of the module. -/
structure ContainerTable where
  /-- The array; the slots from `count` on hold leftovers. -/
  slots : Nat → ContainerInfo
  /-- `container_count`. -/
  count : Nat

/-- The state after `container_init`. -/
def containerInit : ContainerTable := ⟨fun _ => .zero, 0⟩

/-- The entries of the table, in the order of the array. -/
def ContainerTable.entries (t : ContainerTable) : List ContainerInfo :=
  SlotArray.entries t.slots t.count

/-- `find_container`. -/
def findContainer (t : ContainerTable) (name : CString) : Option Nat :=
  SlotArray.find (fun e => e.name.text = name) t.slots t.count

/-- `container_list`. -/
def containerList (t : ContainerTable) : List ContainerInfo :=
  t.entries

/-- `container_get_info`: the entry, none for the return value `-1`. -/
def containerGetInfo (t : ContainerTable) (name : CString) : Option ContainerInfo :=
  (findContainer t name).map t.slots

end Table

section System

/-- A call to the system, with its outcome. -/
inductive Call
  /-- `cryptsetup open --header`, with the vault and a mapper name. -/
  | cryptsetupOpen (header vault mapper : CString) (ok : Bool)
  /-- `cryptsetup close` with a mapper name. -/
  | cryptsetupClose (mapper : CString) (ok : Bool)
  /-- `mount`, and the `mount` command if it fails. -/
  | mount (device path : CString) (ok : Bool)
  /-- `umount2`, and the `umount` command if it fails. -/
  | umount (path : CString) (ok : Bool)
  /-- `rmdir` of the mount point. -/
  | rmdir (path : CString)
deriving DecidableEq

/-- What the system comes back with while a container is opened. -/
structure OpenSys where
  /-- `access` finds the vault and the header readable. -/
  files : Bool
  /-- `pipe` succeeds. -/
  pipe : Bool
  /-- `cryptsetup open` exits with status 0. -/
  cryptsetupOpen : Bool
  /-- `mount` or the `mount` command succeeds. -/
  mount : Bool
  /-- `cryptsetup close` after a failed mount exits with status 0. -/
  cryptsetupClose : Bool

/-- What the system comes back with while a container is closed. -/
structure CloseSys where
  /-- `umount2` or the `umount` command succeeds. -/
  umount : Bool
  /-- `cryptsetup close` exits with status 0. -/
  cryptsetupClose : Bool

/-- What an operation leaves. -/
structure Outcome where
  table : ContainerTable
  status : Int
  calls : List Call

end System

section Operations

/-- The entry that `container_open` writes. -/
def openEntry (base name : CString) (opening : Nat) (old : ContainerInfo) : ContainerInfo where
  name := .store _ name
  vaultPath := vaultPath base name
  headerPath := headerPath base name
  mountPath := mountPath name
  mapperName := .store _ (mapperName name).text
  state := .opened
  sizeMb := old.sizeMb
  opening := opening

/-- `container_open` writes the entry of a found slot again, or counts a new one. -/
def track (t : ContainerTable) (base name : CString) (opening : Nat) : ContainerTable :=
  match findContainer t name with
  | some idx =>
      { t with slots := SlotArray.write t.slots idx (openEntry base name opening (t.slots idx)) }
  | none =>
      { slots :=
          SlotArray.write t.slots t.count (openEntry base name opening (t.slots t.count))
        count := t.count + 1 }

/-- The name belongs to an entry that is open. -/
def isOpen (t : ContainerTable) (name : CString) : Prop :=
  ∃ idx ∈ findContainer t name, (t.slots idx).state = .opened

instance (t : ContainerTable) (name : CString) : Decidable (isOpen t name) :=
  inferInstanceAs (Decidable (∃ idx ∈ _, _))

/-- The call of `cryptsetup open` for a container. -/
def openCall (base name : CString) (ok : Bool) : Call :=
  .cryptsetupOpen (headerPath base name).text (vaultPath base name).text (mapperName name).text
    ok

/-- The call of `mount` for a container. -/
def mountCall (name : CString) (ok : Bool) : Call :=
  .mount (devPath name).text (mountPath name).text ok

/-- `container_open`, as the call with number `opening`. -/
def containerOpen
    (t : ContainerTable) (base name : CString) (opening : Nat) (sys : OpenSys) : Outcome :=
  if isOpen t name then ⟨t, 0, []⟩
  else if containerMaxActive ≤ t.count ∧ findContainer t name = none then ⟨t, -1, []⟩
  else if sys.files = false then ⟨t, -1, []⟩
  else if sys.pipe = false then ⟨t, -1, []⟩
  else if sys.cryptsetupOpen = false then
    ⟨t, -1, [openCall base name false]⟩
  else if sys.mount = false then
    ⟨t, -1, [openCall base name true, mountCall name false,
      .cryptsetupClose (mapperName name).text sys.cryptsetupClose]⟩
  else
    ⟨track t base name opening, 0, [openCall base name true, mountCall name true]⟩

/-- The table after the entry at `idx` is marked closed and removed. -/
def untrack (t : ContainerTable) (idx : Nat) : ContainerTable where
  slots :=
    SlotArray.closeGap (SlotArray.write t.slots idx { t.slots idx with state := .closed }) idx
      t.count
  count := t.count - 1

/-- The calls that close the container of an entry. -/
def closeCalls (e : ContainerInfo) (sys : CloseSys) : List Call :=
  [.umount e.mountPath.text sys.umount, .rmdir e.mountPath.text,
    .cryptsetupClose e.mapperName.text sys.cryptsetupClose]

/-- `container_close`. -/
def containerClose (t : ContainerTable) (name : CString) (sys : CloseSys) : Outcome :=
  match findContainer t name with
  | none => ⟨t, -1, []⟩
  | some idx =>
      if (t.slots idx).state ≠ .opened then ⟨t, -1, []⟩
      else ⟨untrack t idx, 0, closeCalls (t.slots idx) sys⟩

/-- `container_destroy`, as far as the table and the mapping are concerned. -/
def containerDestroy (t : ContainerTable) (name : CString) (sys : CloseSys) : Outcome :=
  { containerClose t name sys with status := 0 }

/-- The second loop of `container_close_all`, over the names that are left. -/
def closeLoop (t : ContainerTable) (sys : Nat → CloseSys) : List CString → Outcome
  | [] => ⟨t, 0, []⟩
  | name :: names =>
      let first := containerClose t name (sys 0)
      let rest := closeLoop first.table (fun i => sys (i + 1)) names
      ⟨rest.table, 0, first.calls ++ rest.calls⟩

/-- `container_close_all`: the names are copied first. -/
def containerCloseAll (t : ContainerTable) (sys : Nat → CloseSys) : Outcome :=
  closeLoop t sys (t.entries.map fun e => e.name.text)

end Operations

section Lemmas

theorem mem_entries
    {t : ContainerTable} {e : ContainerInfo} :
    e ∈ t.entries ↔ ∃ i, i < t.count ∧ t.slots i = e :=
  SlotArray.mem_entries

theorem length_entries
    (t : ContainerTable) :
    t.entries.length = t.count :=
  SlotArray.length_entries _ _

theorem findContainer_eq_none_iff
    {t : ContainerTable} {name : CString} :
    findContainer t name = none ↔ ∀ e ∈ t.entries, e.name.text ≠ name := by
  rw [findContainer, SlotArray.find_eq_none_iff]
  simp [ContainerTable.entries]

/-- The entry that was found has the name and is in the table. -/
theorem findContainer_spec
    {t : ContainerTable} {name : CString} {idx : Nat}
    (h : findContainer t name = some idx) :
    idx < t.count ∧ (t.slots idx).name.text = name ∧ t.slots idx ∈ t.entries := by
  obtain ⟨hlt, hname, -⟩ := SlotArray.find_eq_some_iff.mp h
  exact ⟨hlt, by simpa using hname, mem_entries.mpr ⟨idx, hlt, rfl⟩⟩

/-- A new entry goes behind the others. -/
theorem entries_track
    {t : ContainerTable} {name : CString}
    (h : findContainer t name = none)
    (base : CString) (opening : Nat) :
    (track t base name opening).entries =
      t.entries ++ [openEntry base name opening (t.slots t.count)] := by
  simp only [track, h]
  exact SlotArray.entries_write_succ _ _ _

theorem entries_untrack_idx
    {t : ContainerTable} {name : CString} {idx : Nat}
    (h : findContainer t name = some idx) :
    (untrack t idx).entries = t.entries.eraseIdx idx :=
  SlotArray.entries_closeGap_write (findContainer_spec h).1 _

/-- Removing the entry that was found removes the first one with that name. -/
theorem entries_untrack
    {t : ContainerTable} {name : CString} {idx : Nat}
    (h : findContainer t name = some idx) :
    (untrack t idx).entries = t.entries.eraseP fun e => e.name.text = name := by
  calc (untrack t idx).entries
      = t.entries.eraseIdx idx := entries_untrack_idx h
    _ = t.entries.eraseP (fun e => e.name.text = name) := SlotArray.eraseIdx_of_find h

/-- The entry was written by an opening of this name. -/
structure WrittenFor (e : ContainerInfo) (n : CString) : Prop where
  state : e.state = .opened
  name : e.name = .store _ n
  mount : e.mountPath = mountPath n
  mapper : e.mapperName = .store _ (mapperName n).text

theorem openEntry_writtenFor
    (base name : CString) (opening : Nat) (old : ContainerInfo) :
    WrittenFor (openEntry base name opening old) name :=
  ⟨rfl, rfl, rfl, rfl⟩

/-- What a call of `container_open` can do. -/
inductive OpenEffect
    (t : ContainerTable) (base name : CString) (opening : Nat) (sys : OpenSys) :
    Outcome → Prop
  | already (hopen : isOpen t name) :
      OpenEffect t base name opening sys ⟨t, 0, []⟩
  | refused (hclosed : ¬ isOpen t name) :
      OpenEffect t base name opening sys ⟨t, -1, []⟩
  | locked
      (hclosed : ¬ isOpen t name)
      (hfail : sys.cryptsetupOpen = false) :
      OpenEffect t base name opening sys
        ⟨t, -1, [openCall base name false]⟩
  | unmounted
      (hclosed : ¬ isOpen t name)
      (hroom : ¬ (containerMaxActive ≤ t.count ∧ findContainer t name = none))
      (hfiles : sys.files = true) (hpipe : sys.pipe = true)
      (hopened : sys.cryptsetupOpen = true) (hfail : sys.mount = false) :
      OpenEffect t base name opening sys
        ⟨t, -1, [openCall base name true, mountCall name false,
          .cryptsetupClose (mapperName name).text sys.cryptsetupClose]⟩
  | opened
      (hclosed : ¬ isOpen t name)
      (hroom : findContainer t name = none → t.count < containerMaxActive)
      (hopened : sys.cryptsetupOpen = true) :
      OpenEffect t base name opening sys
        ⟨track t base name opening, 0, [openCall base name true, mountCall name true]⟩

theorem containerOpen_effect
    (t : ContainerTable) (base name : CString) (opening : Nat) (sys : OpenSys) :
    OpenEffect t base name opening sys (containerOpen t base name opening sys) := by
  unfold containerOpen
  split_ifs with hopen hfull hfiles hpipe hcrypt hmount
  · exact .already hopen
  · exact .refused hopen
  · exact .refused hopen
  · exact .refused hopen
  · exact .locked hopen hcrypt
  · exact .unmounted hopen hfull (by simpa using hfiles) (by simpa using hpipe)
      (by simpa using hcrypt) hmount
  · refine .opened hopen (fun hnone => ?_) (by simpa using hcrypt)
    exact Nat.lt_of_not_le fun hle => hfull ⟨hle, hnone⟩

/-- What a call of `container_close` can do. -/
inductive CloseEffect (t : ContainerTable) (name : CString) (sys : CloseSys) : Outcome → Prop
  | absent (hclosed : ¬ isOpen t name) :
      CloseEffect t name sys ⟨t, -1, []⟩
  | closed
      {idx : Nat}
      (hfind : findContainer t name = some idx)
      (hopen : (t.slots idx).state = .opened) :
      CloseEffect t name sys ⟨untrack t idx, 0, closeCalls (t.slots idx) sys⟩

theorem containerClose_effect
    (t : ContainerTable) (name : CString) (sys : CloseSys) :
    CloseEffect t name sys (containerClose t name sys) := by
  unfold containerClose
  cases hfind : findContainer t name with
  | none => exact .absent (by simp [isOpen, hfind])
  | some idx =>
      dsimp only
      split_ifs with hstate
      · exact .absent (by simpa [isOpen, hfind] using hstate)
      · exact .closed hfind (by simpa using hstate)

end Lemmas

section CutNames

/-- The name leaves room for the prefix `sz-` in the mapper name of an entry. -/
def ShortName (name : CString) : Prop :=
  name.strlen + 3 < containerNameMax

instance (name : CString) : Decidable (ShortName name) :=
  inferInstanceAs (Decidable (_ < _))

theorem strlen_mapperName
    (name : CString) :
    (mapperName name).text.strlen = min (containerNameMax + 15) (name.strlen + 3) := by
  have hprefix : (ascii "sz-").length = 3 := rfl
  simp only [mapperName, CharArray.store, CString.take, CString.strlen, CString.append, literal,
    List.length_take, List.length_append, hprefix]
  omega

/-- An entry keeps a short name as it is, and only a short name is short in an entry. -/
theorem shortName_iff
    {e : ContainerInfo} {name : CString}
    (h : WrittenFor e name) :
    ShortName e.name.text ↔ ShortName name := by
  rw [h.name]
  simp only [ShortName, CharArray.store, CString.take, CString.strlen, List.length_take,
    containerNameMax]
  omega

/-- The name in an entry whose name is short is the name that was opened. -/
theorem name_of_short
    {e : ContainerInfo} {name : CString}
    (h : WrittenFor e name)
    (hshort : ShortName e.name.text) :
    e.name.text = name := by
  have hname := (shortName_iff h).mp hshort
  have hfits : name.strlen < containerNameMax := by
    rw [ShortName] at hname
    omega
  rw [h.name]
  exact CharArray.store_text_of_fits hfits

/-- The entry keeps the mapper name that `cryptsetup open` was given exactly for short
names. -/
theorem mapperName_eq_iff
    {e : ContainerInfo} {name : CString}
    (h : WrittenFor e name) :
    e.mapperName.text = (mapperName name).text ↔ ShortName name := by
  have hlen := strlen_mapperName name
  constructor
  · intro heq
    have hfits := e.mapperName.fits
    rw [heq, hlen] at hfits
    rw [ShortName]
    omega
  · intro hshort
    have hfits : (mapperName name).text.strlen < containerNameMax := by
      rw [ShortName] at hshort
      omega
    rw [h.mapper]
    exact CharArray.store_text_of_fits hfits

end CutNames

end Container
end SecureZ
