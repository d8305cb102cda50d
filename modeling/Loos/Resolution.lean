/-
What a path means on an ext2 disk, and that `ext2_path_lookup` finds it.

The meaning is given on the bytes of the disk, without reads and buffers: where an
inode is, which entries the blocks of a directory have, and the inode that the parts
of a path lead to. [`WellFormed`] is what the disk has to satisfy; it says nothing about
inodes that no path reaches.

The blocks have 1024 bytes here, and there are fewer than `2 ^ 31` of them.
-/
import Loos.PathLookup

set_option autoImplicit false

namespace Loos.Resolution

open SysLib Ahci Ext2 Cstring PathLookup

/-! ## The meaning of a path -/

/-- The block `b` of the disk. -/
def block (disk : Mem) (b : ℕ) : Mem := fun i => disk (b * 1024 + i)

/-- The first block of the inode table, from the descriptor of the group `g`. -/
def inode_table (disk : Mem) (fs : ext2_fs) (g : ℕ) : ℕ :=
  disk.load ((fs.sb.s_first_data_block + 1) * 1024 + 32 * g + 8) 4

/-- Where in the table of its group the inode `n` is. -/
def inode_offset (fs : ext2_fs) (n : ℕ) : ℕ :=
  (n - 1) % fs.sb.s_inodes_per_group * fs.sb.s_inode_size

/-- The inode `n`, if there is one and it is in use. -/
def load_inode (disk : Mem) (fs : ext2_fs) (n : ℕ) : Except ℤ ext2_inode :=
  if n = 0 ∨ n > fs.sb.s_inodes_count then .error (-1)
  else
    let table := inode_table disk fs ((n - 1) / fs.sb.s_inodes_per_group)
    let inode := ext2_inode.ofBytes disk (table * 1024 + inode_offset fs n)
    if inode.i_mode = 0 then .error (-5) else .ok inode

/-- The entries of a block of a directory from `de` on: inode number and name. -/
def entries (b : Mem) (de : ℕ) : List (ℕ × List UInt8) :=
  if h : de < 1024 ∧ b.load (de + 4) 2 ≠ 0 then
    (b.load de 4, de_name b de) :: entries b (de + b.load (de + 4) 2)
  else []
termination_by 1024 - de

/-- The direct blocks of a directory. -/
def dir_blocks (dir : ext2_inode) : List ℕ := ((List.range 12).map dir.i_block).filter (· ≠ 0)

/-- The entries in the direct blocks. -/
def dir_entries (disk : Mem) (dir : ext2_inode) : List (ℕ × List UInt8) :=
  (dir_blocks dir).flatMap fun b => entries (block disk b) 0

/-- The entry is in use and has this name. -/
def Named (name : List UInt8) (e : ℕ × List UInt8) : Prop := e.1 ≠ 0 ∧ e.2 = name

instance (name : List UInt8) : DecidablePred (Named name) :=
  fun _ => inferInstanceAs (Decidable (_ ∧ _))

/-- The first of the entries with this name. -/
def first_named (es : List (ℕ × List UInt8)) (name : List UInt8) : Except ℤ ℕ :=
  match es.find? fun e => Named name e with
  | some e => .ok e.1
  | none => .error (-1)

/-- The file type of the mode is that of a directory. -/
def IsDir (inode : ext2_inode) : Prop := inode.i_mode / 4096 = 4

instance (inode : ext2_inode) : Decidable (IsDir inode) := inferInstanceAs (Decidable (_ = _))

/-- From a directory to the inode under a name in it. -/
def child (disk : Mem) (fs : ext2_fs) (dir : ext2_inode) (name : List UInt8) :
    Except ℤ ext2_inode :=
  if IsDir dir then do
    let n ← first_named (dir_entries disk dir) name
    load_inode disk fs n
  else .error (-ENOTDIR)

/-- The inode that a path leads to, from the root through its parts. -/
def resolution (disk : Mem) (fs : ext2_fs) (path : List UInt8) : Except ℤ ext2_inode := do
  let root ← load_inode disk fs EXT2_ROOT_INO
  (parts path).foldlM (child disk fs) root

/-- The value that is returned, and what is in `result`. -/
def returned {α : Type} (result : α) : Except ℤ α → ℤ × α
  | .ok a => (0, a)
  | .error e => (e, result)

/-! ## Well-formed disks -/

/-- The entries of a block follow each other up to its end. Each is long enough for its
name, and a name in use has no 0 in it. -/
inductive Chain (b : Mem) : ℕ → Prop
  | last : Chain b 1024
  | entry {de : ℕ} (hname : 8 + b.load (de + 6) 1 ≤ b.load (de + 4) 2)
      (hend : de + b.load (de + 4) 2 ≤ 1024) (hnul : b.load de 4 ≠ 0 → 0 ∉ de_name b de)
      (hrest : Chain b (de + b.load (de + 4) 2)) : Chain b de

/-- The blocks of a directory: there is no hole between them. -/
structure Directory (disk : Mem) (fs : ext2_fs) (dir : ext2_inode) : Prop where
  blocks_lt : ∀ b ∈ dir_blocks dir, b < fs.sb.s_blocks_count
  no_hole : ((List.range 12).map dir.i_block).Pairwise fun b b' => b = 0 → b' = 0
  chain : ∀ b ∈ dir_blocks dir, Chain (block disk b) 0

/-- The numbers of the root and of all that is in a directory that can be reached. -/
inductive Reachable (disk : Mem) (fs : ext2_fs) : ℕ → Prop
  | root : Reachable disk fs EXT2_ROOT_INO
  | entry {n : ℕ} {dir : ext2_inode} {e : ℕ × List UInt8} (hn : Reachable disk fs n)
      (hload : load_inode disk fs n = .ok dir) (hdir : IsDir dir)
      (he : e ∈ dir_entries disk dir) (huse : e.1 ≠ 0) : Reachable disk fs e.1

/-- Regular files, directories, symbolic links, pipes and character devices. -/
def fileTypes : List ℕ := [0x8, 0x4, 0xA, 0x1, 0x2]

/-- A well-formed ext2 disk with blocks of 1024 bytes, mounted as `fs`. -/
structure WellFormed (disk : Mem) (fs : ext2_fs) : Prop where
  superblock : fs.sb = ext2_superblock.ofBytes (block disk 1)
  magic : fs.sb.s_magic = EXT2_SIGNATURE
  log_block_size : fs.sb.s_log_block_size = 0
  block_size : fs.block_size = 1024
  blocks_count : fs.sb.s_blocks_count < 2147483648
  inode_size_le : 128 ≤ fs.sb.s_inode_size
  inode_size_dvd : fs.sb.s_inode_size ∣ 1024
  per_group_pos : 0 < fs.sb.s_inodes_per_group
  per_group_le : fs.sb.s_inodes_per_group ≤ 8192
  descriptors : ∀ n, 0 < n → n ≤ fs.sb.s_inodes_count →
    fs.sb.s_first_data_block + 1 + (n - 1) / fs.sb.s_inodes_per_group / 32 < fs.sb.s_blocks_count
  tables : ∀ n, 0 < n → n ≤ fs.sb.s_inodes_count →
    inode_table disk fs ((n - 1) / fs.sb.s_inodes_per_group) + inode_offset fs n / 1024 <
      fs.sb.s_blocks_count
  types : ∀ n inode, Reachable disk fs n → load_inode disk fs n = .ok inode →
    inode.i_mode / 4096 ∈ fileTypes
  directories : ∀ n dir, Reachable disk fs n → load_inode disk fs n = .ok dir → IsDir dir →
    Directory disk fs dir

variable {disk : Mem} {fs : ext2_fs} {n : ℕ} {name : List UInt8} {inode dir : ext2_inode}

/-! ## Inodes -/

/-- Reading a block below `2 ^ 31`. -/
theorem read_ends {α : Type} {b : ℕ} {buf : Option Mem} {f : ℤ × Mem → DiskProg α}
    {r : Except Stop α} (hb : b < 2147483648)
    (h : ∀ buf', (∀ i < 1024, buf' i = block disk b i) → (f (0, buf')).Ends (Delivers disk) r) :
    (read_block b buf >>= f).Ends (Delivers disk) r := by
  apply Prog.ends_ask
  rintro ⟨ret, buf'⟩ ⟨hret, hbuf⟩
  obtain rfl : ret = 0 := hret
  refine h buf' fun i hi => (hbuf i hi).trans (congrArg disk ?_)
  show b * 2 % 4294967296 * 512 + i = b * 1024 + i
  omega

/-- The inodes are records of a size that divides a block, with some of them in each group. -/
structure Records (fs : ext2_fs) : Prop where
  block_size : fs.block_size = 1024
  inode_size_le : 128 ≤ fs.sb.s_inode_size
  inode_size_dvd : fs.sb.s_inode_size ∣ 1024
  per_group_pos : 0 < fs.sb.s_inodes_per_group
  per_group_le : fs.sb.s_inodes_per_group ≤ 8192

/-- The blocks with the descriptor and with the inode `n` have numbers that the driver finds. -/
structure Located (disk : Mem) (fs : ext2_fs) (n : ℕ) : Prop where
  desc_lt : fs.sb.s_first_data_block + 1 + (n - 1) / fs.sb.s_inodes_per_group / 32 < 2147483648
  table_lt : inode_table disk fs ((n - 1) / fs.sb.s_inodes_per_group) + inode_offset fs n / 1024 <
    2147483648

/-- An inode does not cross the end of a block. -/
theorem inode_offset_mod (h : Records fs) (n : ℕ) : inode_offset fs n % 1024 + 128 ≤ 1024 := by
  have hsize := h.inode_size_le
  obtain ⟨k, hk⟩ := h.inode_size_dvd
  -- the remainder is a multiple of the size too
  have hdvd : fs.sb.s_inode_size ∣ inode_offset fs n % 1024 :=
    (Nat.dvd_mod_iff h.inode_size_dvd).mpr (Nat.dvd_mul_left _ _)
  obtain ⟨j, hj⟩ := hdvd
  have hlt : inode_offset fs n % 1024 < 1024 := Nat.mod_lt _ (by decide)
  have hjk : j < k := by
    refine Nat.lt_of_mul_lt_mul_left (a := fs.sb.s_inode_size) ?_
    rw [← hj, ← hk]
    exact hlt
  have := Nat.mul_le_mul_left fs.sb.s_inode_size hjk
  rw [Nat.succ_eq_add_one, Nat.mul_add, Nat.mul_one, ← hj, ← hk] at this
  omega

theorem inode_offset_lt (h : Records fs) (n : ℕ) : inode_offset fs n < 8388608 := by
  have hmod := Nat.mod_lt (n - 1) h.per_group_pos
  have hsize : fs.sb.s_inode_size ≤ 1024 := Nat.le_of_dvd (by decide) h.inode_size_dvd
  have hle := h.per_group_le
  calc inode_offset fs n ≤ 8191 * 1024 := Nat.mul_le_mul (by omega) hsize
    _ < 8388608 := by decide

/-- The descriptor of a group, in a buffer with its block. -/
theorem load_descriptor {buf : Mem} {g : ℕ}
    (hbuf : ∀ i < 1024, buf i = block disk (fs.sb.s_first_data_block + 1 + g / 32) i) :
    buf.load (g % (1024 / 32) * 32 + 8) 4 = inode_table disk fs g := by
  refine Mem.load_eq fun i hi => ?_
  rw [hbuf _ (by omega), block]
  exact congrArg disk (by omega)

/-- **`ext2_get_inode` loads the inode**, or fails as the loading does. -/
theorem get_inode_ends_of (h : Records fs) (n : ℕ)
    (hloc : 0 < n → n ≤ fs.sb.s_inodes_count → Located disk fs n) :
    (ext2_get_inode fs n).Ends (Delivers disk) ((load_inode disk fs n).mapError .err) := by
  rw [ext2_get_inode, load_inode]
  by_cases hn : n = 0 ∨ n > fs.sb.s_inodes_count
  · rw [if_pos hn, if_pos hn]
    exact Prog.ends_stop _
  obtain ⟨hgroup, htable⟩ := hloc (by omega) (by omega)
  have hmod := inode_offset_mod h n
  have hoff := inode_offset_lt h n
  rw [if_neg hn, if_neg hn, h.block_size, if_neg (by have := h.per_group_pos; omega)]
  rw [kmalloc_eq (by decide)]
  simp only [Prog.ret_bind]
  have hoffset : (n - 1) % fs.sb.s_inodes_per_group * fs.sb.s_inode_size = inode_offset fs n := rfl
  rw [hoffset, Nat.mod_eq_of_lt (by omega : inode_offset fs n < 4294967296)]
  generalize (n - 1) / fs.sb.s_inodes_per_group = g at *
  generalize inode_offset fs n = off at *
  have hdesc : ((fs.sb.s_first_data_block + 1) % 4294967296 + g / (1024 / 32)) % 4294967296 =
      fs.sb.s_first_data_block + 1 + g / 32 := by omega
  rw [hdesc]
  refine read_ends (by omega) fun desc_buf hdesc_buf => ?_
  simp only [load_descriptor hdesc_buf]
  rw [if_neg (by simp), if_neg (by omega),
    Nat.mod_eq_of_lt (by omega : inode_table disk fs g + off / 1024 < 4294967296)]
  -- the inode in the table
  refine read_ends (by omega) fun block_buf hblock_buf => ?_
  have hinode : ext2_inode.ofBytes block_buf (off % 1024) =
      ext2_inode.ofBytes disk (inode_table disk fs g * 1024 + off) := by
    refine congrArg ext2_inode.mk (funext fun i => ?_)
    by_cases hi : i < 128
    · rw [if_pos hi, if_pos hi, hblock_buf _ (by omega), block]
      exact congrArg disk (by omega)
    · rw [if_neg hi, if_neg hi]
  rw [if_neg (by simp), hinode]
  split
  · exact Prog.ends_stop _
  · exact Prog.ends_ret _

theorem get_inode_ends (wf : WellFormed disk fs) (n : ℕ) :
    (ext2_get_inode fs n).Ends (Delivers disk) ((load_inode disk fs n).mapError .err) := by
  have hrec : Records fs :=
    ⟨wf.block_size, wf.inode_size_le, wf.inode_size_dvd, wf.per_group_pos, wf.per_group_le⟩
  exact get_inode_ends_of hrec n fun hpos hle =>
    ⟨Nat.lt_trans (wf.descriptors n hpos hle) wf.blocks_count,
      Nat.lt_trans (wf.tables n hpos hle) wf.blocks_count⟩

/-! ## Directories -/

/-- `scan_block` finds the first entry with the name. -/
theorem scan_block_eq {buf b : Mem} {de : ℕ} (hbuf : ∀ i < 1024, buf i = b i)
    (hchain : Chain b de) (h0 : 0 ∉ name) (hne : name ≠ []) (hlen : name.length ≤ EXT2_NAME_LEN) :
    scan_block 1024 buf name de = .ok (((entries b de).find? fun e => Named name e).map Prod.fst) := by
  induction hchain with
  | last =>
    rw [scan_block, entries]
    rfl
  | @entry de hname hend hnul hrest ih =>
    have hload : ∀ off n, off + n ≤ 8 → buf.load (de + off) n = b.load (de + off) n := by
      intro off n hle
      exact Mem.load_congr fun x h1 h2 => hbuf x (by omega)
    have hino : buf.load de 4 = b.load de 4 := hload 0 4 (by decide)
    have hrec := hload 4 2 (by decide)
    have hnlen := hload 6 1 (by decide)
    have hde : de_name buf de = de_name b de := by
      rw [de_name, de_name, hnlen]
      refine List.map_congr_left fun i hi => ?_
      exact hbuf _ (by have := List.mem_range.mp hi; omega)
    -- the code's test is that of the name
    have htest : (b.load de 4 ≠ 0 ∧ b.load (de + 6) 1 ≠ 0 ∧ strcmp (de_name b de) name = 0) ↔
        Named name (b.load de 4, de_name b de) := by
      have hcmp : strcmp (de_name b de) name = 0 ↔ (de_name b de).takeWhile (· ≠ 0) = name :=
        strcmp_eq_zero h0 (Nat.lt_of_le_of_lt hlen (by decide))
      have htake : b.load de 4 ≠ 0 → (de_name b de).takeWhile (· ≠ 0) = de_name b de := by
        intro hi
        refine List.takeWhile_eq_self_iff.mpr fun c hc => ?_
        simp only [ne_eq, decide_not, Bool.not_eq_eq_eq_not, Bool.not_true, decide_eq_false_iff_not]
        rintro rfl
        exact hnul hi hc
      constructor
      · rintro ⟨hi, -, hc⟩
        exact ⟨hi, (htake hi).symm.trans (hcmp.mp hc)⟩
      · rintro ⟨hi, he⟩
        refine ⟨hi, ?_, hcmp.mpr ((htake hi).trans he)⟩
        intro hzero
        have hnil : de_name b de = [] := by rw [de_name, hzero]; rfl
        exact hne (he.symm.trans hnil)
    rw [scan_block, if_pos (by omega), entries, dif_pos ⟨by omega, by omega⟩, hino, hnlen, hde,
      hrec]
    by_cases hm : Named name (b.load de 4, de_name b de)
    · rw [if_pos (htest.mpr hm), List.find?_cons_of_pos (by simpa using hm)]
      rfl
    · rw [if_neg fun h => hm (htest.mp h), if_neg (by omega), ih,
        List.find?_cons_of_neg (by simpa using hm)]

/-- The blocks in order, up to the first that is 0. -/
theorem find_in_blocks_ends {bs : List ℕ} {buf : Option Mem}
    (hlt : ∀ b ∈ bs.filter (· ≠ 0), b < 2147483648) (hhole : bs.Pairwise fun b b' => b = 0 → b' = 0)
    (hchain : ∀ b ∈ bs.filter (· ≠ 0), Chain (block disk b) 0)
    (h0 : 0 ∉ name) (hne : name ≠ []) (hlen : name.length ≤ EXT2_NAME_LEN) :
    (find_in_blocks 1024 name bs buf).Ends (Delivers disk) ((first_named
      ((bs.filter (· ≠ 0)).flatMap fun b => entries (block disk b) 0) name).mapError .err) := by
  induction bs generalizing buf with
  | nil => exact Prog.ends_stop _
  | cons b bs ih =>
    obtain ⟨hb, hrest⟩ := List.pairwise_cons.mp hhole
    rw [find_in_blocks]
    by_cases hz : b = 0
    · -- there is nothing behind the first 0
      have hnil : (b :: bs).filter (· ≠ 0) = [] := by
        rw [List.filter_eq_nil_iff]
        intro x hx
        rcases List.mem_cons.mp hx with rfl | hx
        · simpa using hz
        · simpa using hb x hx hz
      rw [if_pos hz, hnil]
      exact Prog.ends_stop _
    · have hcons : (b :: bs).filter (· ≠ 0) = b :: bs.filter (· ≠ 0) :=
        List.filter_cons_of_pos (by simpa using hz)
      rw [hcons] at hlt hchain ⊢
      rw [if_neg hz]
      refine read_ends (hlt b List.mem_cons_self) fun buf' hbuf => ?_
      rw [scan_block_eq hbuf (hchain b List.mem_cons_self) h0 hne hlen, List.flatMap_cons,
        first_named, List.find?_append]
      cases hfind : (entries (block disk b) 0).find? fun e => Named name e with
      | some e => exact Prog.ends_ret _
      | none =>
        exact ih (fun b hb => hlt b (List.mem_cons_of_mem _ hb)) hrest
          fun b hb => hchain b (List.mem_cons_of_mem _ hb)

theorem find_dir_entry_ends (wf : WellFormed disk fs) (hdir : Directory disk fs dir)
    (h0 : 0 ∉ name) (hne : name ≠ []) (hlen : name.length ≤ EXT2_NAME_LEN) :
    (find_dir_entry fs dir name).Ends (Delivers disk)
      ((first_named (dir_entries disk dir) name).mapError .err) := by
  rw [find_dir_entry, wf.block_size]
  exact find_in_blocks_ends (fun b hb => Nat.lt_trans (hdir.blocks_lt b hb) wf.blocks_count)
    hdir.no_hole hdir.chain h0 hne hlen

/-! ## Paths -/

/-- For these file types bit 14 of the mode is set in directories only. -/
theorem mode_and_ifdir (ht : inode.i_mode / 4096 ∈ fileTypes) :
    inode.i_mode &&& EXT2_S_IFDIR = 0 ↔ ¬ IsDir inode := by
  rw [IsDir, EXT2_S_IFDIR, show 0x4000 = 2 ^ 14 from rfl, Nat.and_two_pow,
    Nat.testBit_eq_decide_div_mod_eq]
  have hbit : inode.i_mode / 2 ^ 14 % 2 = inode.i_mode / 4096 / 4 % 2 := by omega
  rw [hbit]
  simp only [fileTypes, List.mem_cons, List.not_mem_nil, or_false] at ht
  rcases ht with ht | ht | ht | ht | ht <;> rw [ht] <;> decide

theorem mapError_bind {α β ε ε' : Type} {x : Except ε α} {f : α → Except ε β} {g : ε → ε'} :
    (x >>= f).mapError g = x.mapError g >>= fun a => (f a).mapError g := by
  cases x with
  | error e => rfl
  | ok a => rfl

theorem mapError_ok {α ε ε' : Type} {x : Except ε α} {g : ε → ε'} {a : α}
    (h : x.mapError g = .ok a) : x = .ok a := by
  cases x with
  | error e => cases h
  | ok b => rw [Except.ok.inj h]

/-- An inode that can be reached is loaded in it. -/
def Loaded (disk : Mem) (fs : ext2_fs) (inode : ext2_inode) : Prop :=
  ∃ n, Reachable disk fs n ∧ load_inode disk fs n = .ok inode

/-- A name as `component` can hold it. -/
structure Fits (name : List UInt8) : Prop where
  no_nul : 0 ∉ name
  ne_nil : name ≠ []
  length_le : name.length ≤ EXT2_NAME_LEN

theorem enter_ends (wf : WellFormed disk fs) (hdir : Loaded disk fs dir) (hname : Fits name) :
    (enter fs dir name).Ends (Delivers disk) ((child disk fs dir name).mapError .err) := by
  obtain ⟨n, hn, hload⟩ := hdir
  have hmode := mode_and_ifdir (wf.types n dir hn hload)
  rw [enter, child]
  by_cases hd : IsDir dir
  · rw [if_neg fun h => hmode.mp h hd, if_pos hd, mapError_bind]
    have hfind := find_dir_entry_ends wf (wf.directories n dir hn hload hd) hname.no_nul
      hname.ne_nil hname.length_le
    exact Prog.ends_bind hfind fun m _ => get_inode_ends wf m
  · rw [if_pos (hmode.mpr hd), if_neg hd]
    exact Prog.ends_stop _

/-- What is found in a directory can be reached. -/
theorem child_loaded (hdir : Loaded disk fs dir) (h : child disk fs dir name = .ok inode) :
    Loaded disk fs inode := by
  obtain ⟨n, hn, hload⟩ := hdir
  rw [child] at h
  split_ifs at h with hd
  cases hfind : (dir_entries disk dir).find? fun e => Named name e with
  | none =>
    rw [first_named, hfind] at h
    cases h
  | some e =>
    rw [first_named, hfind] at h
    have hnamed : Named name e := by simpa using List.find?_some hfind
    exact ⟨e.1, .entry hn hload hd (List.mem_of_find?_eq_some hfind) hnamed.1, h⟩

/-- One step for each name; the current inode stays one that can be reached. -/
theorem walk_ends (wf : WellFormed disk fs) {names : List (List UInt8)}
    (hnames : ∀ n ∈ names, Fits n) (hdir : Loaded disk fs dir) :
    (names.foldlM (enter fs) dir).Ends (Delivers disk)
      ((names.foldlM (child disk fs) dir).mapError .err) := by
  induction names generalizing dir with
  | nil => exact Prog.ends_ret _
  | cons name names ih =>
    rw [List.foldlM_cons, List.foldlM_cons, mapError_bind]
    refine Prog.ends_bind (enter_ends wf hdir (hnames name List.mem_cons_self)) fun next hnext => ?_
    exact ih (fun n hn => hnames n (List.mem_cons_of_mem _ hn))
      (child_loaded hdir (mapError_ok hnext))

theorem parts_fit {path : List UInt8} (h0 : 0 ∉ path)
    (hlen : ∀ n ∈ parts path, n.length ≤ EXT2_NAME_LEN) : ∀ n ∈ parts path, Fits n := by
  intro n hn
  obtain ⟨hne, -, hsub⟩ := of_mem_parts hn
  exact ⟨fun hz => h0 (hsub hz), hne, hlen n hn⟩

theorem lookup_ends (wf : WellFormed disk fs) {path : List UInt8} (h0 : 0 ∉ path)
    (hlen : ∀ n ∈ parts path, n.length ≤ EXT2_NAME_LEN) :
    (ext2_path_lookup fs path).Ends (Delivers disk) ((resolution disk fs path).mapError .err) := by
  rw [ext2_path_lookup_eq, components_eq h0 hlen, walk, resolution, mapError_bind]
  refine Prog.ends_bind (get_inode_ends wf _) fun root hroot => ?_
  exact walk_ends wf (parts_fit h0 hlen) ⟨_, .root, mapError_ok hroot⟩

theorem run_lookup {d : Dev} (wf : WellFormed d.disk fs) (hd : Working d) {path : List UInt8}
    (h0 : 0 ∉ path) (hlen : ∀ n ∈ parts path, n.length ≤ EXT2_NAME_LEN) :
    (Prog.run answer d (ext2_path_lookup fs path)).1
      = (resolution d.disk fs path).mapError .err :=
  run_working hd (lookup_ends wf h0 hlen)

theorem returns_mapError {α : Type} (result : α) (r : Except ℤ α) :
    returns result (r.mapError .err) = some (returned result r) := by
  cases r with
  | error e => rfl
  | ok a => rfl

/-- **`ext2_path_lookup` returns what the path means**: 0 and the inode that it leads to,
or the error of the first step that fails, with `result` as it was. Slashes in front, behind
and next to each other make no difference. -/
theorem lookup_eq_resolution {d : Dev} {path : List UInt8} (wf : WellFormed d.disk fs)
    (hd : Working d) (h0 : 0 ∉ path) (hlen : ∀ n ∈ parts path, n.length ≤ EXT2_NAME_LEN)
    (result : ext2_inode) :
    returns result (Prog.run answer d (ext2_path_lookup fs path)).1 =
        some (returned result (resolution d.disk fs path)) ∧
      ∀ path', 0 ∉ path' → parts path' = parts path →
        (Prog.run answer d (ext2_path_lookup fs path')).1 =
          (Prog.run answer d (ext2_path_lookup fs path)).1 := by
  have hrun : ∀ path', 0 ∉ path' → parts path' = parts path →
      (Prog.run answer d (ext2_path_lookup fs path')).1 =
        (resolution d.disk fs path).mapError .err := by
    intro path' h0' hparts
    rw [run_lookup wf hd h0' (hparts ▸ hlen), resolution, hparts, ← resolution]
  constructor
  · rw [hrun path h0 rfl, returns_mapError]
  · intro path' h0' hparts
    rw [hrun path' h0' hparts, hrun path h0 rfl]

/-! ## A small disk -/

/-- The root, inode 2 of the table in block 5, is the only file. Its block 6 has one entry,
the name `.` for the root. -/
def small : Mem := fun x =>
  if x = 1024 then 8
  else if x = 1024 + 4 then 16
  else if x = 1024 + 20 then 1
  else if x = 1024 + 40 then 8
  else if x = 1024 + 56 then 0x53
  else if x = 1024 + 57 then 0xEF
  else if x = 1024 + 88 then 128
  else if x = 2048 + 8 then 5
  else if x = 5120 + 128 then 0xED
  else if x = 5120 + 129 then 0x41
  else if x = 5120 + 128 + 40 then 6
  else if x = 6144 then 2
  else if x = 6144 + 5 then 4
  else if x = 6144 + 6 then 1
  else if x = 6144 + 8 then 46
  else 0

def small_fs : ext2_fs := ⟨ext2_superblock.ofBytes (block small 1), 1024⟩

def small_root : ext2_inode := ext2_inode.ofBytes small (5120 + 128)

theorem small_load : load_inode small small_fs 2 = .ok small_root := rfl

theorem small_blocks : dir_blocks small_root = [6] := by decide +kernel

theorem small_entries : dir_entries small small_root = [(2, [46])] := by
  rw [dir_entries, small_blocks, List.flatMap_singleton, entries, dif_pos (by decide +kernel),
    entries, dif_neg (by decide +kernel)]
  decide +kernel

theorem small_reachable (hn : Reachable small small_fs n) : n = 2 := by
  induction hn with
  | root => rfl
  | entry hn hload hdir he huse ih =>
    subst ih
    obtain rfl := Except.ok.inj (small_load.symm.trans hload)
    rw [small_entries, List.mem_singleton] at he
    rw [he]

theorem small_directory : Directory small small_fs small_root where
  blocks_lt := by
    rw [small_blocks]
    decide +kernel
  no_hole := by decide +kernel
  chain := by
    intro b hb
    rw [small_blocks, List.mem_singleton] at hb
    subst hb
    have hrec : (block small 6).load (0 + 4) 2 = 1024 := by decide +kernel
    have hname : (block small 6).load (0 + 6) 1 = 1 := by decide +kernel
    refine .entry ?_ ?_ (fun _ => by decide +kernel) ?_
    · rw [hrec, hname]
      decide
    · rw [hrec]
    · rw [hrec]
      exact .last

theorem small_wellFormed : WellFormed small small_fs where
  superblock := rfl
  magic := by decide +kernel
  log_block_size := by decide +kernel
  block_size := rfl
  blocks_count := by decide +kernel
  inode_size_le := by decide +kernel
  inode_size_dvd := by decide +kernel
  per_group_pos := by decide +kernel
  per_group_le := by decide +kernel
  descriptors := by
    -- all inodes are in the first group
    intro n hn hle
    have hcount : small_fs.sb.s_inodes_count = 8 := by decide +kernel
    have hgroup : small_fs.sb.s_inodes_per_group = 8 := by decide +kernel
    have hfirst : small_fs.sb.s_first_data_block = 1 := by decide +kernel
    have hblocks : small_fs.sb.s_blocks_count = 16 := by decide +kernel
    rw [hgroup, hfirst, hblocks]
    omega
  tables := by
    intro n hn hle
    have hcount : small_fs.sb.s_inodes_count = 8 := by decide +kernel
    have hgroup : small_fs.sb.s_inodes_per_group = 8 := by decide +kernel
    have hblocks : small_fs.sb.s_blocks_count = 16 := by decide +kernel
    have hsize : small_fs.sb.s_inode_size = 128 := by decide +kernel
    have htable : inode_table small small_fs 0 = 5 := by decide +kernel
    rw [inode_offset, hgroup, hblocks, hsize, show (n - 1) / 8 = 0 by omega, htable]
    omega
  types := by
    intro n inode hn hload
    obtain rfl := small_reachable hn
    obtain rfl := Except.ok.inj (small_load.symm.trans hload)
    decide +kernel
  directories := by
    intro n dir hn hload _
    obtain rfl := small_reachable hn
    obtain rfl := Except.ok.inj (small_load.symm.trans hload)
    exact small_directory

/-- The path `/./` leads to the root. -/
theorem lookup_small :
    returns (ext2_inode.ofBytes small 0)
        (Prog.run answer ⟨small, fun _ => 0, fun _ => .done, fun _ _ => 0, 0⟩
          (ext2_path_lookup small_fs [slash, 46, slash])).1 =
      some (returned (ext2_inode.ofBytes small 0)
        (resolution small small_fs [slash, 46, slash])) :=
  (lookup_eq_resolution small_wellFormed (fun _ => rfl) (by decide) (by decide +kernel) _).1

end Loos.Resolution
