/-
Which bytes of the disk a block read brings.

`fs->block_size` comes from the superblock, and the buffers and offsets of the
callers go by it. `read_block` goes by `BLOCK_SIZE`, which is 1024: it fills 1024 bytes
of the buffer, from sector `2 * n` on, and that product has 32 bits. So a read is right
where the two sizes agree and the product does not wrap, and nowhere else.
-/
import Loos.Ext2

set_option autoImplicit false

namespace Loos.BlockReads

open SysLib Ahci Ext2

/-- `fs` is what `ext2_read_superblock` makes of a disk. -/
def Mounted (fs : ext2_fs) : Prop :=
  ∃ d b, (Prog.run answer d (ext2_read_superblock b)).1 = .ok fs

/-- The functions that read blocks of a mounted file system, with their arguments. -/
inductive Caller where
  | ext2_get_inode (inode_num : ℕ)
  | find_dir_entry (dir : ext2_inode) (name : List UInt8)
  | get_physical_block (inode : ext2_inode) (logical_block : ℕ)
  | ext2_fread (inode : ext2_inode) (buf : Mem) (count : ℕ)

/-- The call, without its result. -/
def Caller.prog (fs : ext2_fs) : Caller → DiskProg Unit
  | .ext2_get_inode inode_num => do let _ ← Ext2.ext2_get_inode fs inode_num
  | .find_dir_entry dir name => do let _ ← Ext2.find_dir_entry fs dir name
  | .get_physical_block inode logical_block => do
    let _ ← Ext2.get_physical_block fs.block_size inode logical_block
  | .ext2_fread inode buf count => do let _ ← Ext2.ext2_fread fs.block_size inode buf count

/-- The buffer of a read of the block `n` holds the bytes of this block, all of them. -/
def Exact (fs : ext2_fs) (disk : Mem) (n : ℕ) (buf : Mem) : Prop :=
  ∀ i < fs.block_size, buf i = disk (n * fs.block_size + i)

/-- Every read of the block `n` is exact, in every call on every working disk. -/
def ReadsExact (fs : ext2_fs) (n : ℕ) : Prop :=
  ∀ (c : Caller) (d : Dev), Working d → ∀ q a, (q, a) ∈ Prog.asked answer d (c.prog fs) →
    q.block_offset = n → Exact fs d.disk n a.2

variable {fs : ext2_fs} {d : Dev} {n : ℕ}

/-! ## The block size -/

theorem mounted_block_size (h : Mounted fs) :
    fs.block_size = 1024 * 2 ^ (fs.sb.s_log_block_size % 32) % 4294967296 := by
  obtain ⟨d, b, h⟩ := h
  simp only [ext2_read_superblock, kmalloc_eq (show BLOCK_SIZE ≤ PGSIZE by decide), read_block,
    Prog.ret_bind, Prog.ask_bind, Prog.run] at h
  split at h
  · cases h
  · obtain rfl := Except.ok.inj h
    rfl

/-- Block sizes up to a page: 1, 2, 4, 8 or 16 KiB. -/
theorem mounted_le_page (h : Mounted fs) (hpage : 1024 * 2 ^ fs.sb.s_log_block_size ≤ PGSIZE) :
    fs.block_size = 1024 * 2 ^ fs.sb.s_log_block_size := by
  have hlog : fs.sb.s_log_block_size < 5 := by
    by_contra hge
    have : 2 ^ 5 ≤ 2 ^ fs.sb.s_log_block_size := Nat.pow_le_pow_right (by decide) (by omega)
    simp only [PGSIZE] at hpage
    omega
  rw [mounted_block_size h, Nat.mod_eq_of_lt (by omega : fs.sb.s_log_block_size < 32)]
  exact Nat.mod_eq_of_lt (by simp only [PGSIZE] at hpage; omega)

/-! ## Reads -/

theorem reads_exact_of (hbs : fs.block_size = 1024) (hn : n < 2147483648) : ReadsExact fs n := by
  intro c d hd q a hm hq i hi
  obtain ⟨d', ⟨hd', hdisk⟩, rfl⟩ :=
    Prog.mem_asked (fun d' => Working d' ∧ d'.disk = d.disk) (fun _ q h => (working_next h q).2)
      ⟨hd, rfl⟩ hm
  rw [answer_working hd', Mem.put, if_pos (by omega), hdisk, hq, hbs]
  exact congrArg d.disk (by omega)

/-- An inode whose first index block is `n`. -/
def indexed (n : ℕ) : ext2_inode := ⟨Mem.store (fun _ => 0) 88 4 n⟩

theorem indexed_block (hn : n < 4294967296) : (indexed n).i_block 12 = n := by
  rw [indexed, ext2_inode.i_block]
  exact (Mem.load_store_same _ 88 4 n).trans (Nat.mod_eq_of_lt (by simpa using hn))

/-- Looking up the first block behind the direct ones reads the index block. -/
theorem asked_indexed (hbs : 4 ≤ fs.block_size) (hn : n < 4294967296) :
    (⟨n, none⟩, (answer d ⟨n, none⟩).1) ∈
      Prog.asked answer d ((Caller.get_physical_block (indexed n) 12).prog fs) := by
  have hptrs : 0 < fs.block_size / 4 := Nat.div_pos hbs (by decide)
  simp only [Caller.prog, get_physical_block, Nat.lt_irrefl, if_false, Nat.sub_self, hptrs,
    if_true, indexed_block hn, read_index, read_block, Prog.ask_bind, Prog.asked]
  exact List.mem_cons_self

/-- With a larger block size the rest of the buffer is not written. -/
theorem not_exact_of_large (hbs : 1024 < fs.block_size) (hn : n < 4294967296) :
    ¬ ReadsExact fs n := by
  intro h
  let d : Dev := ⟨fun _ => 0, fun _ => 0, fun _ => .done, fun _ _ => 1, 0⟩
  have := h _ d (fun _ => rfl) _ _ (asked_indexed (by omega) hn) rfl 1024 hbs
  rw [answer_working fun _ => rfl, Mem.put_apply_of_disjoint (by omega)] at this
  have : (1 : UInt8) = 0 := this
  exact absurd this (by decide)

/-- A block number from `2 ^ 31` on gives a sector at the start of the disk. -/
theorem not_exact_of_wrap (hbs : fs.block_size = 1024) (hlt : n < 4294967296)
    (hn : 2147483648 ≤ n) : ¬ ReadsExact fs n := by
  intro h
  let d : Dev :=
    ⟨fun x => if x = n * 1024 then 1 else 0, fun _ => 0, fun _ => .done, fun _ _ => 0, 0⟩
  have := h _ d (fun _ => rfl) _ _ (asked_indexed (by omega) hlt) rfl 0 (by omega)
  rw [answer_working fun _ => rfl, Mem.put, if_pos (by omega), hbs] at this
  simp only [d] at this
  rw [if_neg (by omega), if_pos (by omega)] at this
  exact absurd this (by decide)

/-- **The reads of a block are exact where the block size is 1024 and the number of the
sector has 32 bits, and only there.** -/
theorem reads_exact_iff (h : Mounted fs) (hpage : 1024 * 2 ^ fs.sb.s_log_block_size ≤ PGSIZE)
    (hn : n < 4294967296) :
    ReadsExact fs n ↔ fs.sb.s_log_block_size = 0 ∧ n < 2147483648 := by
  have hbs := mounted_le_page h hpage
  constructor
  · intro hex
    have hlog : fs.sb.s_log_block_size = 0 := by
      by_contra hne
      have : 2 ^ 1 ≤ 2 ^ fs.sb.s_log_block_size := Nat.pow_le_pow_right (by decide) (by omega)
      exact not_exact_of_large (by omega) hn hex
    refine ⟨hlog, ?_⟩
    by_contra hwrap
    rw [hlog] at hbs
    exact not_exact_of_wrap hbs hn (by omega) hex
  · rintro ⟨hlog, hwrap⟩
    rw [hlog] at hbs
    exact reads_exact_of hbs hwrap

/-- A disk with a superblock in its second KiB and nothing else; the logarithm is that of
the block size in KiB. -/
def blank (log : UInt8) : Mem := fun x =>
  if x = 1024 + 24 then log
  else if x = 1024 + 56 then 0x53
  else if x = 1024 + 57 then 0xEF
  else 0

/-- The driver with this disk. -/
def boot (disk : Mem) : Dev := ⟨disk, fun _ => 0, fun _ => .done, fun _ _ => 0, 0⟩

/-- The file system on a blank disk. -/
def blank_fs (log : ℕ) : ext2_fs := ⟨⟨0, 0, 0, log, 0, EXT2_SIGNATURE, 0⟩, 1024 * 2 ^ log⟩

theorem blank_mounted : Mounted (blank_fs 0) ∧ Mounted (blank_fs 1) :=
  ⟨⟨boot (blank 0), 1, rfl⟩, ⟨boot (blank 1), 1, rfl⟩⟩

theorem reads_exact_small : ReadsExact (blank_fs 0) 5 :=
  (reads_exact_iff blank_mounted.1 (by decide) (by decide)).mpr ⟨rfl, by decide⟩

/-- **With blocks of 2 KiB no read is exact.** -/
theorem reads_half_block :
    Mounted (blank_fs 1) ∧ 1024 * 2 ^ (blank_fs 1).sb.s_log_block_size ≤ PGSIZE ∧
      ¬ ReadsExact (blank_fs 1) 5 :=
  ⟨blank_mounted.2, by decide, not_exact_of_large (by decide) (by decide)⟩

end Loos.BlockReads
