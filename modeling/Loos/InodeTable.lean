/-
Where `ext2_get_inode` finds an inode.

The number of an inode is taken apart twice: into a group and a place in it, and the group
into a descriptor block and a place in that. On a disk with blocks of 1024 bytes whose inode
tables do not overlap, the bytes that are copied are those of the record that the number
means ([`get_inode_record`]), and different numbers mean different bytes.
-/
import Loos.InodeBounds
import Loos.Resolution

set_option autoImplicit false

namespace Loos.InodeTable

open SysLib Ahci Ext2 Resolution
open InodeBounds (Op)

/-! ## The records -/

/-- A superblock with blocks of 1024 bytes. -/
structure Geometry (fs : ext2_fs) : Prop where
  block_size : fs.block_size = 1024
  first_data_block : fs.sb.s_first_data_block = 1
  per_group_pos : 1 ≤ fs.sb.s_inodes_per_group
  per_group_le : fs.sb.s_inodes_per_group ≤ 8192
  inode_size : ∃ k ≤ 3, fs.sb.s_inode_size = 128 * 2 ^ k
  inodes_count : fs.sb.s_inodes_count < 4294967296

/-- The number of blocks of an inode table. -/
def table_blocks (fs : ext2_fs) : ℕ :=
  (fs.sb.s_inodes_per_group * fs.sb.s_inode_size + 1023) / 1024

/-- The group of an inode. -/
def group (fs : ext2_fs) (n : ℕ) : ℕ := (n - 1) / fs.sb.s_inodes_per_group

/-- There is an inode with this number. -/
def Valid (fs : ext2_fs) (n : ℕ) : Prop := 1 ≤ n ∧ n ≤ fs.sb.s_inodes_count

/-- The inode tables are on a disk of `N` blocks, and no two of them have a block in common. -/
structure Tables (disk : Mem) (fs : ext2_fs) (N : ℕ) : Prop where
  on_disk : ∀ n, Valid fs n → inode_table disk fs (group fs n) + table_blocks fs ≤ N
  apart : ∀ n m, Valid fs n → Valid fs m → group fs n ≠ group fs m →
    inode_table disk fs (group fs n) + table_blocks fs ≤ inode_table disk fs (group fs m) ∨
      inode_table disk fs (group fs m) + table_blocks fs ≤ inode_table disk fs (group fs n)

/-- Where on the disk the record of the inode `n` is. -/
def record_addr (disk : Mem) (fs : ext2_fs) (n : ℕ) : ℕ :=
  inode_table disk fs (group fs n) * 1024 +
    (n - 1) % fs.sb.s_inodes_per_group * fs.sb.s_inode_size

/-- The first 128 bytes of the record. -/
def record (disk : Mem) (fs : ext2_fs) (n : ℕ) : ext2_inode :=
  .ofBytes disk (record_addr disk fs n)

/-- Where on the disk the 128 bytes come from that a call copies to the inode: they are in the
block that is read last. -/
def copied_from (d : Dev) (fs : ext2_fs) (n : ℕ) : Option ℕ :=
  (Prog.asked answer d (ext2_get_inode fs n)).getLast?.bind fun r =>
    match (Prog.notes answer d (InodeBounds.ext2_get_inode fs n)).getLast? with
    | some (.load off 128 _) => some (r.1.block_offset * 1024 + off)
    | _ => none

/-- Two ranges of 128 bytes without a common byte. -/
def Apart (a b : ℕ) : Prop := a + 128 ≤ b ∨ b + 128 ≤ a

variable {d : Dev} {disk : Mem} {fs : ext2_fs} {n m N : ℕ}

/-! ## Places -/

theorem Geometry.records (h : Geometry fs) : Records fs := by
  obtain ⟨k, hk, hsize⟩ := h.inode_size
  have hsizes : ∀ k ≤ 3, 128 ≤ 128 * 2 ^ k ∧ 128 * 2 ^ k ∣ 1024 := by decide
  exact ⟨h.block_size, hsize ▸ (hsizes k hk).1, hsize ▸ (hsizes k hk).2, h.per_group_pos,
    h.per_group_le⟩

/-- A record ends where the next one starts, or with the table. -/
theorem place_le (size : ℕ) {i j : ℕ} (h : i < j) : i * size + size ≤ j * size := by
  rw [← Nat.succ_mul]
  exact Nat.mul_le_mul_right size h

theorem inode_offset_le (hg : Geometry fs) (n : ℕ) :
    inode_offset fs n + 128 ≤ table_blocks fs * 1024 := by
  have hsize := hg.records.inode_size_le
  have hlast := place_le fs.sb.s_inode_size (Nat.mod_lt (n - 1) hg.per_group_pos)
  rw [inode_offset, table_blocks]
  omega

theorem located (hg : Geometry fs) (ht : Tables disk fs N) (hN : N < 2147483648)
    (hn : Valid fs n) : Located disk fs n := by
  have hcount := hg.inodes_count
  have hdiv := Nat.div_le_self (n - 1) fs.sb.s_inodes_per_group
  have hle := hn.2
  have htable := ht.on_disk n hn
  have hoff := inode_offset_le hg n
  refine ⟨?_, ?_⟩
  · rw [hg.first_data_block]
    omega
  · rw [group] at htable
    omega

/-- **Different inodes have different bytes.** -/
theorem record_apart (hg : Geometry fs) (ht : Tables disk fs N) (hn : Valid fs n) (hm : Valid fs m)
    (hne : n ≠ m) : Apart (record_addr disk fs n) (record_addr disk fs m) := by
  have hsize := hg.records.inode_size_le
  have hoffn := inode_offset_le hg n
  have hoffm := inode_offset_le hg m
  have hgroups := ht.apart n m hn hm
  rw [inode_offset] at hoffn hoffm
  rw [Apart, record_addr, record_addr]
  by_cases hgroup : group fs n = group fs m
  · -- two places in one table
    rw [hgroup]
    rw [group, group] at hgroup
    have hplace : (n - 1) % fs.sb.s_inodes_per_group ≠ (m - 1) % fs.sb.s_inodes_per_group := by
      intro hmod
      have := Nat.div_add_mod (n - 1) fs.sb.s_inodes_per_group
      have := Nat.div_add_mod (m - 1) fs.sb.s_inodes_per_group
      rw [hgroup, hmod] at *
      have := hn.1
      have := hm.1
      omega
    rcases Nat.lt_or_gt_of_ne hplace with hlt | hlt
    · have := place_le fs.sb.s_inode_size hlt
      omega
    · have := place_le fs.sb.s_inode_size hlt
      omega
  · rcases hgroups hgroup with hlt | hlt <;> omega

/-! ## The call -/

theorem run_get_inode (hg : Geometry fs) (hd : Working d) (ht : Tables d.disk fs N)
    (hN : N < 2147483648) (n : ℕ) :
    (Prog.run answer d (ext2_get_inode fs n)).1 = (load_inode d.disk fs n).mapError .err :=
  run_working hd (get_inode_ends_of hg.records n fun hpos hle => located hg ht hN ⟨hpos, hle⟩)

theorem load_inode_valid (hn : Valid fs n) : load_inode disk fs n =
    if (record disk fs n).i_mode = 0 then .error (-5) else .ok (record disk fs n) := by
  rw [load_inode, if_neg (by have := hn.1; have := hn.2; omega)]
  rfl

/-- The place in the block is that of the record. -/
theorem notes_get_inode_last (hg : Geometry fs) (hn : Valid fs n) :
    (Prog.notes answer d (InodeBounds.ext2_get_inode fs n)).getLast? =
      some (.load (inode_offset fs n % 1024) 128 1024) := by
  have hmod := inode_offset_mod hg.records n
  have hpos := hg.per_group_pos
  have hoffset : InodeBounds.intra_block_offset fs n = inode_offset fs n % 1024 := by
    rw [InodeBounds.intra_block_offset, hg.block_size, ← inode_offset]
    exact Nat.mod_mod_of_dvd _ (by decide)
  rw [InodeBounds.notes_get_inode hn.1 hn.2, hg.block_size, hoffset]
  have hipg : fs.sb.s_inodes_per_group ≠ 0 := by omega
  have hroom : ¬ inode_offset fs n % 1024 + 128 > 1024 := by omega
  simp [hipg, hroom, PGSIZE]

/-- The last read is the one of the block with the record. -/
theorem asked_get_inode (hg : Geometry fs) (hd : Working d) (ht : Tables d.disk fs N)
    (hN : N < 2147483648) (hn : Valid fs n) :
    ∃ r, (Prog.asked answer d (ext2_get_inode fs n)).getLast? = some r ∧
      r.1.block_offset = inode_table d.disk fs (group fs n) + inode_offset fs n / 1024 := by
  have hoff := inode_offset_lt hg.records n
  have hmod := inode_offset_mod hg.records n
  have hpos := hg.per_group_pos
  obtain ⟨hdesc, htable⟩ := located hg ht hN hn
  have hvalid : ¬ (n = 0 ∨ n > fs.sb.s_inodes_count) := by
    have := hn.1
    have := hn.2
    omega
  have hoffset : (n - 1) % fs.sb.s_inodes_per_group * fs.sb.s_inode_size = inode_offset fs n := rfl
  rw [ext2_get_inode, if_neg hvalid, hg.block_size, if_neg (by omega), kmalloc_eq (by decide)]
  simp only [Prog.ret_bind]
  rw [hoffset, Nat.mod_eq_of_lt (show inode_offset fs n < 4294967296 by omega), ← group]
  rw [← group] at hdesc htable
  have hans : ∀ d q, (answer d q).1.1 = 0 := fun _ _ => rfl
  simp only [read_block, Prog.ask_bind, Prog.asked, hans, ne_eq, not_true_eq_false, Prog.ret_bind,
    if_false, if_neg (show ¬ inode_offset fs n % 1024 + 128 > 1024 by omega)]
  -- what comes behind the second read reads nothing
  refine ⟨_, by split_ifs <;> rfl, ?_⟩
  rw [@load_descriptor d.disk fs]
  · exact Nat.mod_eq_of_lt (by omega)
  · intro i hi
    rw [(working_next ⟨hd, rfl⟩ _).1.2 i hi, block]
    apply congrArg d.disk
    show ((fs.sb.s_first_data_block + 1) % 4294967296 + group fs n / (1024 / 32)) % 4294967296 * 2 %
      4294967296 * 512 + i = _
    omega

/-- **The bytes that are copied are those of the record.** -/
theorem copied_from_eq (hg : Geometry fs) (hd : Working d) (ht : Tables d.disk fs N)
    (hN : N < 2147483648) (hn : Valid fs n) :
    copied_from d fs n = some (record_addr d.disk fs n) := by
  obtain ⟨r, hlast, hblock⟩ := asked_get_inode hg hd ht hN hn
  have hsplit : (inode_table d.disk fs (group fs n) + inode_offset fs n / 1024) * 1024 +
      inode_offset fs n % 1024 = inode_table d.disk fs (group fs n) * 1024 + inode_offset fs n := by
    omega
  rw [copied_from, hlast, notes_get_inode_last hg hn, Option.bind_some, hblock]
  exact congrArg some hsplit

/-- **`ext2_get_inode` on a disk whose inode tables do not overlap**: the inode is the record
that its number means, and a number out of range or a record without a mode are the only
errors. -/
theorem get_inode_record (hg : Geometry fs) (hd : Working d) (ht : Tables d.disk fs N)
    (hN : N < 2147483648) :
    (∀ n, (Prog.run answer d (ext2_get_inode fs n)).1 ≠ .error (.err (-3))) ∧
    (∀ n, Valid fs n → copied_from d fs n = some (record_addr d.disk fs n) ∧
      ((record d.disk fs n).i_mode ≠ 0 →
        (Prog.run answer d (ext2_get_inode fs n)).1 = .ok (record d.disk fs n)) ∧
      ((Prog.run answer d (ext2_get_inode fs n)).1 = .error (.err (-5)) ↔
        (record d.disk fs n).i_mode = 0)) ∧
    (∀ n m, Valid fs n → Valid fs m → n ≠ m →
      ∀ a b, copied_from d fs n = some a → copied_from d fs m = some b → Apart a b) ∧
    ∀ n, ¬ Valid fs n → (Prog.run answer d (ext2_get_inode fs n)).1 = .error (.err (-1)) := by
  have hrun := run_get_inode hg hd ht hN
  refine ⟨fun n => ?_, fun n hn => ⟨copied_from_eq hg hd ht hN hn, ?_, ?_⟩, ?_, fun n hn => ?_⟩
  · rw [hrun, load_inode]
    dsimp only
    split_ifs <;> simp [Except.mapError]
  · intro hmode
    rw [hrun, load_inode_valid hn, if_neg hmode]
    rfl
  · rw [hrun, load_inode_valid hn]
    split_ifs with hmode
    · simp [Except.mapError, hmode]
    · simp [Except.mapError, hmode]
  · intro n m hn hm hne a b ha hb
    rw [copied_from_eq hg hd ht hN hn] at ha
    rw [copied_from_eq hg hd ht hN hm] at hb
    rw [← Option.some.inj ha, ← Option.some.inj hb]
    exact record_apart hg ht hn hm hne
  · rw [hrun, load_inode, if_pos]
    · rfl
    · rw [Valid] at hn
      omega

/-- The root of the small disk is the record at 128 bytes of block 5. -/
theorem get_inode_small :
    copied_from (BlockReads.boot small) small_fs 2 = some (5 * 1024 + 128) ∧
      (Prog.run answer (BlockReads.boot small) (ext2_get_inode small_fs 9)).1 =
        .error (.err (-1)) := by
  have hg : Geometry small_fs :=
    ⟨rfl, by decide +kernel, by decide +kernel, by decide +kernel, ⟨0, by decide +kernel⟩,
      by decide +kernel⟩
  have hcount : small_fs.sb.s_inodes_count = 8 := by decide +kernel
  have hgroup : ∀ n, Valid small_fs n → group small_fs n = 0 := by
    intro n hn
    have hper : small_fs.sb.s_inodes_per_group = 8 := by decide +kernel
    have hle := hn.2
    rw [group, hper]
    omega
  have ht : Tables small small_fs 16 := by
    refine ⟨fun n hn => ?_, fun n m hn hm hne => ?_⟩
    · rw [hgroup n hn]
      decide +kernel
    · exact absurd ((hgroup n hn).trans (hgroup m hm).symm) hne
  obtain ⟨-, hvalid, -, hother⟩ :=
    get_inode_record (d := BlockReads.boot small) hg (fun _ => rfl) ht (by decide)
  have h2 : Valid small_fs 2 := by
    rw [Valid, hcount]
    decide
  refine ⟨?_, hother 9 ?_⟩
  · rw [(hvalid 2 h2).1]
    decide +kernel
  · rw [Valid, hcount]
    decide

end Loos.InodeTable
