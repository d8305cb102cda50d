/-
The bytes of a file, and the ones that `ext2_fread` brings.

Both come from one map from the logical blocks of a file to blocks of the disk, with
blocks of 1024 bytes. They differ in what a block and an index are: in the file an index
block 0 is a hole, and the driver reads block 0 for it; and the driver finds the block `n`
at a sector of 32 bits.

`ext2_fread` always starts at byte 0 of the file.
-/
import Loos.Ext2

set_option autoImplicit false

namespace Loos.FileContent

open SysLib Ahci Ext2

/-! ## The map of the blocks -/

/-- The block of the disk for a logical block; `word b k` is the entry `k` of the index
block `b`. -/
def mapped (word : ℕ → ℕ → ℕ) (inode : ext2_inode) (lb : ℕ) : ℕ :=
  if lb < 12 then inode.i_block lb
  else if lb - 12 < 256 then word (inode.i_block 12) (lb - 12)
  else if lb - 268 < 65536 then
    word (word (inode.i_block 13) ((lb - 268) / 256)) ((lb - 268) % 256)
  else
    word (word (word (inode.i_block 14) ((lb - 65804) / 65536)) ((lb - 65804) / 256 % 256))
      ((lb - 65804) % 256)

/-- The byte `k` of a file; a logical block without a block on the disk is all zero. -/
def fileByte (word : ℕ → ℕ → ℕ) (blk : ℕ → Mem) (inode : ext2_inode) (k : ℕ) : UInt8 :=
  if mapped word inode (k / 1024) = 0 then 0 else blk (mapped word inode (k / 1024)) (k % 1024)

/-- The block `b` of the disk. -/
def block (disk : Mem) (b : ℕ) : Mem := fun i => disk (b * 1024 + i)

/-- An entry of an index block; without the block there are no entries. -/
def indexWord (disk : Mem) (b k : ℕ) : ℕ := if b = 0 then 0 else (block disk b).load (4 * k) 4

/-- The content of a file. -/
def content (disk : Mem) (inode : ext2_inode) : List UInt8 :=
  (List.range inode.i_size).map (fileByte (indexWord disk) (block disk) inode)

/-- The block `b` as the driver finds it. -/
def driverBlock (disk : Mem) (b : ℕ) : Mem := fun i => disk (b * 2 % 4294967296 * 512 + i)

/-- An entry of an index block as the driver finds it. -/
def driverWord (disk : Mem) (b k : ℕ) : ℕ := (driverBlock disk b).load (4 * k) 4

/-- The byte `k` of a file as `ext2_fread` finds it. -/
def seenByte (disk : Mem) (inode : ext2_inode) (k : ℕ) : UInt8 :=
  fileByte (driverWord disk) (driverBlock disk) inode k

/-- The file as `ext2_fread` finds it. -/
def seen (disk : Mem) (inode : ext2_inode) : List UInt8 :=
  (List.range inode.i_size).map (seenByte disk inode)

variable {disk : Mem} {inode : ext2_inode} {lb b : ℕ}

@[simp] theorem length_content : (content disk inode).length = inode.i_size := by
  simp [content]

@[simp] theorem length_seen : (seen disk inode).length = inode.i_size := by
  simp [seen]

/-! ## Where the two agree -/

/-- The driver finds blocks below `2 ^ 31`. -/
theorem driverBlock_eq (hb : b < 2147483648) : driverBlock disk b = block disk b := by
  funext i
  rw [driverBlock, block]
  apply congrArg disk
  omega

/-- The index blocks on the way to a logical block. -/
def indexBlocks (word : ℕ → ℕ → ℕ) (inode : ext2_inode) (lb : ℕ) : List ℕ :=
  if lb < 12 then []
  else if lb - 12 < 256 then [inode.i_block 12]
  else if lb - 268 < 65536 then
    [inode.i_block 13, word (inode.i_block 13) ((lb - 268) / 256)]
  else
    [inode.i_block 14, word (inode.i_block 14) ((lb - 65804) / 65536),
      word (word (inode.i_block 14) ((lb - 65804) / 65536)) ((lb - 65804) / 256 % 256)]

/-- The blocks of the byte `k` are on the disk below `2 ^ 31`, and no index block is missing. -/
structure Present (disk : Mem) (inode : ext2_inode) (k : ℕ) : Prop where
  index : ∀ b ∈ indexBlocks (indexWord disk) inode (k / 1024), b ≠ 0 ∧ b < 2147483648
  block_lt : mapped (indexWord disk) inode (k / 1024) < 2147483648

theorem driverWord_eq (hb : b ≠ 0 ∧ b < 2147483648) (k : ℕ) :
    driverWord disk b k = indexWord disk b k := by
  rw [driverWord, indexWord, if_neg hb.1, driverBlock_eq hb.2]

/-- The entries on the way decide where it leads. -/
theorem mapped_congr {word word' : ℕ → ℕ → ℕ}
    (h : ∀ b ∈ indexBlocks word inode lb, ∀ k, word' b k = word b k) :
    mapped word' inode lb = mapped word inode lb := by
  unfold mapped
  unfold indexBlocks at h
  split_ifs at h ⊢
  · rfl
  · exact h _ (by simp) _
  · rw [h (inode.i_block 13) (by simp)]
    exact h _ (by simp) _
  · rw [h (inode.i_block 14) (by simp),
      h (word (inode.i_block 14) ((lb - 65804) / 65536)) (by simp)]
    exact h _ (by simp) _

theorem mapped_eq (h : ∀ b ∈ indexBlocks (indexWord disk) inode lb, b ≠ 0 ∧ b < 2147483648) :
    mapped (driverWord disk) inode lb = mapped (indexWord disk) inode lb :=
  mapped_congr fun b hb k => driverWord_eq (h b hb) k

/-- **A file whose blocks are present is seen as it is.** -/
theorem seen_eq_content (h : ∀ k < inode.i_size, Present disk inode k) :
    seen disk inode = content disk inode := by
  apply List.map_congr_left
  intro k hk
  obtain ⟨hindex, hlt⟩ := h k (List.mem_range.mp hk)
  rw [seenByte, fileByte, fileByte, mapped_eq hindex, driverBlock_eq hlt]

/-! ## `get_physical_block` -/

/-- Reading an index block. -/
theorem read_index_ends {α : Type} {f : Mem → DiskProg α} {r : Except Stop α}
    (h : ∀ buf, (∀ i < 1024, buf i = driverBlock disk b i) → (f buf).Ends (Delivers disk) r) :
    (read_index b >>= f).Ends (Delivers disk) r := by
  apply Prog.ends_ask
  intro a ha
  apply h
  exact ha.2

theorem load_index {buf : Mem} {k : ℕ} (hbuf : ∀ i < 1024, buf i = driverBlock disk b i)
    (hk : k < 256) : buf.load (4 * k) 4 = driverWord disk b k := by
  apply Mem.load_congr
  intro x _ hx
  apply hbuf
  omega

/-- The logical blocks of a file whose size has 32 bits. -/
theorem get_physical_block_ends (hlb : lb < 4194304) :
    (get_physical_block 1024 inode lb).Ends (Delivers disk)
      (.ok (mapped (driverWord disk) inode lb)) := by
  rw [get_physical_block, mapped]
  simp only [Nat.reduceDiv, Nat.reduceMul, Nat.reduceMod, Nat.sub_sub, Nat.reduceAdd]
  by_cases h12 : lb < 12
  · rw [if_pos h12, if_pos h12]
    exact Prog.ends_ret _
  rw [if_neg h12, if_neg h12]
  by_cases h268 : lb - 12 < 256
  · rw [if_pos h268, if_pos h268]
    apply read_index_ends
    intro buffer hbuffer
    rw [load_index hbuffer h268]
    exact Prog.ends_ret _
  rw [if_neg h268, if_neg h268]
  by_cases hdouble : lb - 268 < 65536
  · rw [if_pos hdouble, if_pos hdouble]
    apply read_index_ends
    intro first hfirst
    rw [load_index hfirst (by omega)]
    apply read_index_ends
    intro second hsecond
    rw [load_index hsecond (by omega)]
    exact Prog.ends_ret _
  -- the first index of three has room for larger files than there are
  rw [if_neg hdouble, if_neg hdouble]
  apply read_index_ends
  intro first hfirst
  rw [load_index hfirst (by omega)]
  apply read_index_ends
  intro second hsecond
  rw [load_index hsecond (by omega)]
  apply read_index_ends
  intro third hthird
  rw [load_index hthird (by omega)]
  exact Prog.ends_ret _

/-! ## `ext2_fread` -/

theorem seenByte_of_block {k k' : ℕ} (h : k / 1024 = k' / 1024) :
    seenByte disk inode k =
      if mapped (driverWord disk) inode (k' / 1024) = 0 then 0
      else driverBlock disk (mapped (driverWord disk) inode (k' / 1024)) (k % 1024) := by
  rw [seenByte, fileByte, h]

/-- The loop brings the bytes from `bytes_read` to `count`. -/
theorem fread_loop_ends {count bytes_read : ℕ} {buf : Mem} (hle : bytes_read ≤ count)
    (hcount : count < 4294967296) :
    (fread_loop 1024 inode count buf bytes_read).Ends (Delivers disk)
      (.ok (buf.put bytes_read (count - bytes_read)
        (fun i => seenByte disk inode (bytes_read + i)), count)) := by
  fun_induction fread_loop 1024 inode count buf bytes_read with
  | case1 buf bytes_read hlt h0 => exact absurd h0 (by decide)
  | case2 buf bytes_read hlt h0 current_block block_offset bytes_to_copy hdec ih_hole ih_data =>
    -- the bytes that are copied now are in one block
    have hfit : block_offset + bytes_to_copy ≤ 1024 := by
      have := Nat.mod_lt bytes_read (by decide : 0 < 1024)
      omega
    have hsame : ∀ i < bytes_to_copy, (bytes_read + i) / 1024 = bytes_read / 1024 := by
      intro i hi
      omega
    have hrest : count - bytes_read = bytes_to_copy + (count - (bytes_read + bytes_to_copy)) := by
      omega
    have hstep : ∀ src : Mem, (∀ i < bytes_to_copy, src i = seenByte disk inode (bytes_read + i)) →
        (buf.put bytes_read bytes_to_copy src).put (bytes_read + bytes_to_copy)
            (count - (bytes_read + bytes_to_copy))
            (fun i => seenByte disk inode (bytes_read + bytes_to_copy + i)) =
          buf.put bytes_read (count - bytes_read) (fun i => seenByte disk inode (bytes_read + i)) := by
      intro src hsrc
      rw [hrest]
      simp only [Nat.add_assoc]
      simpa only [Nat.add_assoc] using Mem.put_append hsrc
    apply Prog.ends_bind_ok (get_physical_block_ends (by omega))
    by_cases hhole : mapped (driverWord disk) inode current_block = 0
    · rw [if_pos hhole, ← hstep (fun _ => 0)]
      · exact ih_hole (by omega)
      · intro i hi
        rw [seenByte_of_block (hsame i hi), if_pos hhole]
    · rw [if_neg hhole]
      apply Prog.ends_ask
      intro r hr
      rw [← hstep fun i => r.2 (block_offset + i)]
      · exact ih_data r (by omega)
      · intro i hi
        have hmod : (bytes_read + i) % 1024 = block_offset + i := by
          have := hsame i hi
          omega
        rw [seenByte_of_block (hsame i hi), if_neg hhole, hr.2 _ (by omega), hmod]
        rfl
  | case3 buf bytes_read hlt =>
    obtain rfl : bytes_read = count := by omega
    rw [Nat.sub_self, Mem.put_zero]
    exact Prog.ends_ret _

theorem i_size_lt (inode : ext2_inode) : inode.i_size < 4294967296 := by
  have := Mem.load_lt inode.bytes 4 4
  rw [ext2_inode.i_size]
  omega

/-- **`ext2_fread` brings the first bytes of the file**, as many as there are. -/
theorem ext2_fread_ends (buf : Mem) (count : ℕ) :
    (ext2_fread 1024 inode buf count).Ends (Delivers disk)
      (.ok (buf.put 0 (min count inode.i_size) (seenByte disk inode), min count inode.i_size)) := by
  have hsize := i_size_lt inode
  have hloop : (fread_loop 1024 inode (min count inode.i_size) buf 0).Ends (Delivers disk) _ :=
    fread_loop_ends (Nat.zero_le _) (by omega)
  rw [ext2_fread]
  simpa using hloop

end Loos.FileContent
