/-
The inodes that `ext2_path_lookup` searches.

The file type in a mode is a code of four bits. The lookup takes an inode for a directory
when one of these bits is set, and that bit is in the codes of block devices and sockets too.
The walk is written here once more with a note of each inode that `find_dir_entry` searches;
without its notes it is `ext2_path_lookup` ([`erase_lookup`]). So it searches an inode that it
comes to on the way exactly if the bit is set ([`mem_searched_iff`]).
-/
import Loos.Lib.Bits
import Loos.Resolution

set_option autoImplicit false

namespace Loos.LookupTypes

open SysLib Ahci Ext2 PathLookup Resolution

/-! ## The code -/

/-- A program that notes the inodes that are searched. -/
abbrev NotedProg (α : Type) := Prog (ext2_inode ⊕ BlockRead) (ℤ × Mem) Stop α

/-- From a directory to the inode of one of its entries. -/
def enter (fs : ext2_fs) (dir : ext2_inode) (name : List UInt8) : NotedProg ext2_inode :=
  if dir.i_mode &&& EXT2_S_IFDIR = 0 then .stop (.err (-ENOTDIR))
  else
    -- the scan of `find_dir_entry` begins, in whatever `dir` is
    .ask (.inl dir) fun _ => .quiet do
      let next_ino ← find_dir_entry fs dir name
      ext2_get_inode fs next_ino

/-- From the root through all components. -/
def lookup (fs : ext2_fs) (path : List UInt8) : NotedProg ext2_inode := do
  let root ← .quiet (ext2_get_inode fs EXT2_ROOT_INO)
  (components path).foldlM (enter fs) root

/-- The inodes that a lookup searches entries in. -/
def searched (d : Dev) (fs : ext2_fs) (path : List UInt8) : List ext2_inode :=
  Prog.notes answer d (lookup fs path)

/-- The file type in the mode. -/
def file_type (inode : ext2_inode) : ℕ := inode.i_mode &&& 0xF000

/-- The components `before`, which are not all, lead to this inode. -/
def ComesTo (d : Dev) (fs : ext2_fs) (path : List UInt8) (before : List (List UInt8))
    (inode : ext2_inode) : Prop :=
  (∃ next after, components path = before ++ next :: after) ∧
    (Prog.run answer d (walk fs before)).1 = .ok inode

/-- Only directories are searched, and a component that leads to something else ends the lookup,
unless it is the last. -/
structure Checked (d : Dev) (fs : ext2_fs) (path : List UInt8) : Prop where
  searched_dir : ∀ inode ∈ searched d fs path, file_type inode = EXT2_S_IFDIR
  not_dir : ∀ before inode, before ≠ [] → ComesTo d fs path before inode →
    file_type inode ≠ EXT2_S_IFDIR →
      (Prog.run answer d (ext2_path_lookup fs path)).1 = .error (.err (-ENOTDIR))

/-- Block devices and sockets, and the codes that no type has. -/
def mistaken : List ℕ := [0x5000, 0x6000, 0x7000, 0xC000, 0xD000, 0xE000, 0xF000]

variable {d : Dev} {fs : ext2_fs} {path name : List UInt8} {names : List (List UInt8)}
  {dir inode : ext2_inode}

/-! ## The types -/

/-- The codes with the bit that is tested. -/
theorem i_mode_and_ifdir : inode.i_mode &&& EXT2_S_IFDIR ≠ 0 ↔
    file_type inode = EXT2_S_IFDIR ∨ file_type inode ∈ mistaken := by
  have hlt : inode.i_mode < 65536 := Mem.load_lt _ _ 2
  have htype : file_type inode = inode.i_mode / 4096 % 16 * 4096 := and_field_mask _ 4 12
  have hbit : inode.i_mode &&& EXT2_S_IFDIR = inode.i_mode / 16384 % 2 * 16384 :=
    and_field_mask _ 1 14
  -- the bit that is tested is the third of the four of the type
  rw [hbit, htype]
  simp only [mistaken, EXT2_S_IFDIR, List.mem_cons, List.not_mem_nil, or_false]
  omega

/-! ## The function of `Ext2` -/

theorem erase_enter : (enter fs dir name).erase = PathLookup.enter fs dir name := by
  rw [enter, PathLookup.enter]
  split_ifs
  · rfl
  · exact Prog.erase_quiet _

theorem erase_foldlM (dir : ext2_inode) (names : List (List UInt8)) :
    (names.foldlM (enter fs) dir).erase = names.foldlM (PathLookup.enter fs) dir := by
  induction names generalizing dir with
  | nil => rfl
  | cons name names ih => simp only [List.foldlM_cons, Prog.erase_bind, erase_enter, ih]

theorem erase_lookup : (lookup fs path).erase = ext2_path_lookup fs path := by
  rw [ext2_path_lookup_eq, walk, lookup, Prog.erase_bind, Prog.erase_quiet]
  simp only [erase_foldlM]

/-! ## What is searched -/

/-- The places in a list that begins with `a`. -/
theorem exists_cut_cons {α : Type} {a : α} {l : List α} {P : List α → Prop} :
    (∃ pre x post, a :: l = pre ++ x :: post ∧ P pre) ↔
      P [] ∨ ∃ pre x post, l = pre ++ x :: post ∧ P (a :: pre) := by
  constructor
  · rintro ⟨_ | ⟨b, pre⟩, x, post, hl, hP⟩
    · exact .inl hP
    · obtain ⟨rfl, rfl⟩ := List.cons.inj hl
      exact .inr ⟨pre, x, post, rfl, hP⟩
  · rintro (hP | ⟨pre, x, post, rfl, hP⟩)
    · exact ⟨[], a, l, rfl, hP⟩
    · exact ⟨a :: pre, x, post, rfl, hP⟩

/-- On the way through the names each inode is searched that has the bit set. -/
theorem mem_notes_iff :
    inode ∈ Prog.notes answer d (names.foldlM (enter fs) dir) ↔
      ∃ before next after, names = before ++ next :: after ∧
        (Prog.run answer d (before.foldlM (PathLookup.enter fs) dir)).1 = .ok inode ∧
          inode.i_mode &&& EXT2_S_IFDIR ≠ 0 := by
  induction names generalizing d dir with
  | nil => simp [Prog.notes]
  | cons name names ih =>
    rw [exists_cut_cons]
    simp only [List.foldlM_cons, List.foldlM_nil, Prog.run_bind]
    by_cases hbit : dir.i_mode &&& EXT2_S_IFDIR = 0
    · -- nothing is searched, and the walk ends here
      rw [enter, PathLookup.enter, if_pos hbit, if_pos hbit]
      constructor
      · exact fun hm => absurd hm List.not_mem_nil
      · rintro (⟨hrun, hset⟩ | ⟨_, _, _, _, hrun, _⟩)
        · obtain rfl := Except.ok.inj hrun
          exact absurd hbit hset
        · cases hrun
    · rw [enter, PathLookup.enter, if_neg hbit, if_neg hbit, Prog.ask_bind, Prog.notes,
        List.mem_cons]
      generalize (find_dir_entry fs dir name >>= fun next_ino => ext2_get_inode fs next_ino) = p
      refine or_congr ?_ ?_
      · constructor
        · rintro rfl
          exact ⟨rfl, hbit⟩
        · exact fun h => (Except.ok.inj h.1).symm
      · -- the rest of the way starts at what is found
        rw [Prog.notes_quiet_bind]
        rcases Prog.run answer d p with ⟨e | next, d'⟩
        · simp
        · rw [ih]

/-- **The inodes that are searched** are those on the way with the bit. -/
theorem mem_searched_iff : inode ∈ searched d fs path ↔
    ∃ before, ComesTo d fs path before inode ∧ inode.i_mode &&& EXT2_S_IFDIR ≠ 0 := by
  simp only [searched, lookup, ComesTo, walk, Prog.run_bind, Prog.notes_quiet_bind]
  rcases Prog.run answer d (ext2_get_inode fs EXT2_ROOT_INO) with ⟨e | root, d'⟩
  · simp
  · rw [mem_notes_iff]
    constructor
    · rintro ⟨before, next, after, hcut, hrun, hbit⟩
      exact ⟨before, ⟨⟨next, after, hcut⟩, hrun⟩, hbit⟩
    · rintro ⟨before, ⟨⟨next, after, hcut⟩, hrun⟩, hbit⟩
      exact ⟨before, next, after, hcut, hrun, hbit⟩

/-- The lookup ends at an inode without the bit. -/
theorem run_lookup_of_bit {before : List (List UInt8)} (h : ComesTo d fs path before inode)
    (hbit : inode.i_mode &&& EXT2_S_IFDIR = 0) :
    (Prog.run answer d (ext2_path_lookup fs path)).1 = .error (.err (-ENOTDIR)) := by
  obtain ⟨⟨next, after, hcut⟩, hrun⟩ := h
  rw [ext2_path_lookup_eq, hcut, walk_append, Prog.run_bind]
  rcases hwalk : Prog.run answer d (walk fs before) with ⟨r, d'⟩
  rw [hwalk] at hrun
  obtain rfl : r = .ok inode := hrun
  simp only [List.foldlM_cons]
  rw [PathLookup.enter, if_pos hbit]
  rfl

/-- **The test of one bit is the test of the type** exactly as long as the lookup comes to no
block device, no socket and no unknown type before the last component. -/
theorem checked_iff (d : Dev) (fs : ext2_fs) (path : List UInt8) :
    Checked d fs path ↔
      ∀ before inode, ComesTo d fs path before inode → file_type inode ∉ mistaken := by
  constructor
  · intro h before inode hcomes hmis
    -- such an inode is searched, and it is no directory
    have hmem := mem_searched_iff.mpr ⟨before, hcomes, i_mode_and_ifdir.mpr (.inr hmis)⟩
    rw [h.searched_dir inode hmem] at hmis
    exact absurd hmis (by decide)
  · intro h
    constructor
    · intro inode hmem
      obtain ⟨before, hcomes, hbit⟩ := mem_searched_iff.mp hmem
      exact (i_mode_and_ifdir.mp hbit).resolve_right (h before inode hcomes)
    · intro before inode _ hcomes htype
      refine run_lookup_of_bit hcomes (Decidable.byContradiction fun hbit => ?_)
      exact (i_mode_and_ifdir.mp hbit).elim htype (h before inode hcomes)

/-- In the root, inode 2, there is the block device `b`, inode 3, with the device number 8:7.
The block 2055 of the disk looks like a directory with the entry `x` for the root. -/
def with_device : Mem := fun x =>
  if x = 1024 then 8
  else if x = 1024 + 5 then 16
  else if x = 1024 + 20 then 1
  else if x = 1024 + 40 then 8
  else if x = 1024 + 56 then 0x53
  else if x = 1024 + 57 then 0xEF
  else if x = 1024 + 88 then 128
  else if x = 2048 + 8 then 5
  else if x = 5120 + 128 then 0xED
  else if x = 5120 + 129 then 0x41
  else if x = 5120 + 128 + 40 then 6
  else if x = 5120 + 256 then 0x80
  else if x = 5120 + 257 then 0x61
  else if x = 5120 + 256 + 40 then 7
  else if x = 5120 + 256 + 41 then 8
  else if x = 6144 then 3
  else if x = 6144 + 5 then 4
  else if x = 6144 + 6 then 1
  else if x = 6144 + 8 then 98
  else if x = 2055 * 1024 then 2
  else if x = 2055 * 1024 + 5 then 4
  else if x = 2055 * 1024 + 6 then 1
  else if x = 2055 * 1024 + 8 then 120
  else 0

def device_dev : Dev := ⟨with_device, fun _ => 0, fun _ => .done, fun _ _ => 0, 0⟩

def device_fs : ext2_fs := ⟨ext2_superblock.ofBytes (block with_device 1), 1024⟩

/-- **A block device is searched**, its number taken for the number of a block: the path
`/b/x` leads to a directory. -/
theorem device_searched :
    (searched device_dev device_fs [slash, 98, slash, 120]).map file_type = [0x4000, 0x6000] ∧
      (Prog.run answer device_dev
        (ext2_path_lookup device_fs [slash, 98, slash, 120])).1.toOption.map
          ext2_inode.i_mode = some 0x41ED ∧
      ¬ Checked device_dev device_fs [slash, 98, slash, 120] := by
  have hsearched : (searched device_dev device_fs [slash, 98, slash, 120]).map file_type =
    [0x4000, 0x6000] := by decide +kernel
  refine ⟨hsearched, by decide +kernel, fun h => ?_⟩
  have hdir : ∀ t ∈ (searched device_dev device_fs [slash, 98, slash, 120]).map file_type,
      t = EXT2_S_IFDIR := by
    intro t ht
    obtain ⟨inode, hmem, rfl⟩ := List.mem_map.mp ht
    exact h.searched_dir inode hmem
  rw [hsearched] at hdir
  exact absurd hdir (by decide)

end Loos.LookupTypes
