/-
What `ext2_fread` stores, and the steps it does it in.

The function counts the bytes in 32 bits and copies one block after the other, or a part of
one, to where the count says. It is written here once more with a note before each
subtraction and sum and before each copy; without its notes it is the one of `Ext2`
([`erase_ext2_fread`]). The count goes up to the number of bytes that are wanted and no
further, so nothing wraps and nothing is stored behind them ([`steps_safe`]).
-/
import Loos.BlockMap
import Loos.FileReads
import Loos.SparseFiles

set_option autoImplicit false

namespace Loos.FreadSteps

open SysLib Ahci Ext2 FileContent SparseFiles
open BlockMap (Step NotedProg note read_block erase_note erase_read_block notes_note
  notes_read_block)

/-! ## The code -/

/-- Every turn of the loop copies something. -/
theorem less_left {block_size count bytes_read : ℕ} (hlt : bytes_read < count)
    (h0 : ¬ block_size = 0) :
    count - (bytes_read + min (block_size - bytes_read % block_size) (count - bytes_read)) <
      count - bytes_read := by
  have := Nat.mod_lt bytes_read (Nat.pos_of_ne_zero h0)
  omega

/-- The loop of `ext2_fread`: `buf` and the number of bytes read. -/
def fread_loop (block_size : ℕ) (inode : ext2_inode) (count : ℕ) (buf : Mem) (bytes_read : ℕ) :
    NotedProg (Mem × ℕ) :=
  if hlt : bytes_read < count then
    if h0 : block_size = 0 then .stop .stuck
    else
      let current_block := bytes_read / block_size
      let block_offset := bytes_read % block_size
      let bytes_to_copy := min (block_size - block_offset) (count - bytes_read)
      have : count - (bytes_read + bytes_to_copy) < count - bytes_read := less_left hlt h0
      do
        note (.sub block_size block_offset)
        note (.sub count bytes_read)
        let phys_block ← BlockMap.get_physical_block block_size inode current_block
        if phys_block = 0 then do
          note (.range bytes_read bytes_to_copy count)
          note (.add bytes_read bytes_to_copy)
          fread_loop block_size inode count (buf.fill bytes_read bytes_to_copy 0)
            (bytes_read + bytes_to_copy)
        else do
          let block_data ← read_block phys_block
          note (.range block_offset bytes_to_copy block_size)
          note (.range bytes_read bytes_to_copy count)
          note (.add bytes_read bytes_to_copy)
          fread_loop block_size inode count
            (buf.put bytes_read bytes_to_copy fun i => block_data (block_offset + i))
            (bytes_read + bytes_to_copy)
  else .ret (buf, bytes_read)
termination_by count - bytes_read

/-- `ext2_fread`: `buf` and `*size`. It reads from the start of the file. -/
def ext2_fread (block_size : ℕ) (inode : ext2_inode) (buf : Mem) (count : ℕ) :
    NotedProg (Mem × ℕ) :=
  fread_loop block_size inode (min count inode.i_size) buf 0

/-- The steps of a call. The sizes of the copies to `buf` are `*size`. -/
def steps (d : Dev) (bs : ℕ) (inode : ext2_inode) (buf : Mem) (count : ℕ) : List Step :=
  Prog.notes answer d (ext2_fread bs inode buf count)

/-- The entry `k` of the block `b`, if this is an index block. -/
def diskWord (disk : Mem) (b k : ℕ) : ℕ := (block disk b).load (4 * k) 4

/-- All blocks that are read for the file are on a disk of `n` blocks. -/
structure OnDisk (n : ℕ) (disk : Mem) (inode : ext2_inode) : Prop where
  index : ∀ lb, lb * 1024 < inode.i_size → ∀ b ∈ indexBlocks (diskWord disk) inode lb, b < n
  data : ∀ lb, lb * 1024 < inode.i_size → mapped (diskWord disk) inode lb < n

variable {d : Dev} {bs n count bytes_read lb : ℕ} {buf : Mem} {inode : ext2_inode}

/-! ## The function of `Ext2` -/

theorem erase_fread_loop : (fread_loop bs inode count buf bytes_read).erase =
    Ext2.fread_loop bs inode count buf bytes_read := by
  fun_induction Ext2.fread_loop bs inode count buf bytes_read with
  | case1 buf bytes_read hlt h0 =>
    rw [fread_loop, dif_pos hlt, dif_pos h0]
    rfl
  | case2 buf bytes_read hlt h0 current_block block_offset bytes_to_copy hdec ih_hole ih_data =>
    rw [fread_loop, dif_pos hlt, dif_neg h0, erase_note, erase_note, Prog.erase_bind,
      BlockMap.erase_get_physical_block]
    congr 1
    funext phys_block
    rw [Prog.erase_ite, erase_note, erase_note, ih_hole]
    exact congrArg (ite _ _) (congrArg (Prog.ask _) (funext fun r => ih_data r))
  | case3 buf bytes_read hlt =>
    rw [fread_loop, dif_neg hlt]
    rfl

theorem erase_ext2_fread : (ext2_fread bs inode buf count).erase =
    Ext2.ext2_fread bs inode buf count := erase_fread_loop

/-! ## The steps -/

/-- `get_physical_block` always returns. -/
theorem get_physical_block_stops : (get_physical_block bs inode lb).Stops fun _ => False := by
  rw [get_physical_block]
  dsimp only
  split_ifs
  · trivial
  · exact fun _ => trivial
  · exact fun _ _ => trivial
  · exact fun _ _ _ => trivial

theorem run_get_physical_block_ok (d : Dev) (bs : ℕ) (inode : ext2_inode) (lb : ℕ) :
    ∃ b d', Prog.run answer d (get_physical_block bs inode lb) = (.ok b, d') := by
  rcases h : Prog.run answer d (get_physical_block bs inode lb) with ⟨e | b, d'⟩
  · exact (Prog.run_stops get_physical_block_stops h).elim
  · exact ⟨b, d', rfl⟩

/-- In the loop the count does not get above the number of bytes that are wanted. -/
theorem loop_steps_safe (hcount : count < 4294967296) (hle : bytes_read ≤ count) :
    ∀ s ∈ Prog.notes answer d (fread_loop 1024 inode count buf bytes_read), s.Safe := by
  induction hk : count - bytes_read using Nat.strong_induction_on generalizing d buf bytes_read with
  | _ k ih =>
    rw [fread_loop]
    by_cases hlt : bytes_read < count
    · rw [dif_pos hlt, dif_neg (by decide)]
      have hoff := Nat.mod_lt bytes_read (show 0 < 1024 by decide)
      have hmap : ∀ s ∈ Prog.notes answer d
          (BlockMap.get_physical_block 1024 inode (bytes_read / 1024)), s.Safe :=
        (BlockMap.steps_path (by decide) (by decide) (by omega)).2
      obtain ⟨b, d', hrun⟩ := run_get_physical_block_ok d 1024 inode (bytes_read / 1024)
      rw [← BlockMap.erase_get_physical_block] at hrun
      rw [notes_note, notes_note, Prog.notes_bind hrun, Prog.notes_ite]
      -- what is copied ends in this block, and with the bytes that are wanted
      have hcopy : min (1024 - bytes_read % 1024) (count - bytes_read) ≤ 1024 - bytes_read % 1024 ∧
          min (1024 - bytes_read % 1024) (count - bytes_read) ≤ count - bytes_read ∧
          0 < min (1024 - bytes_read % 1024) (count - bytes_read) := by omega
      generalize min (1024 - bytes_read % 1024) (count - bytes_read) = n at hcopy ⊢
      simp only [List.forall_mem_cons, List.forall_mem_append, Step.Safe]
      refine ⟨by omega, by omega, hmap, ?_⟩
      split_ifs
      · rw [notes_note, notes_note]
        simp only [List.forall_mem_cons]
        exact ⟨by omega, by omega, ih _ (by omega) (by omega) rfl⟩
      · rw [notes_read_block, notes_note, notes_note, notes_note]
        simp only [List.forall_mem_cons]
        exact ⟨by omega, by omega, by omega, ih _ (by omega) (by omega) rfl⟩
    · rw [dif_neg hlt]
      simp [Prog.notes]

/-- Nothing wraps, and nothing is stored at `*size` or behind it. -/
theorem steps_safe : ∀ s ∈ steps d 1024 inode buf count, s.Safe := by
  have hsize := i_size_lt inode
  exact loop_steps_safe (by omega) (Nat.zero_le _)

/-! ## The bytes -/

/-- On a disk of less than `2 ^ 31` blocks the driver finds the entries. -/
theorem OnDisk.mapped_eq (h : OnDisk n d.disk inode) (hn : n < 2147483648)
    (hlb : lb * 1024 < inode.i_size) :
    mapped (driverWord d.disk) inode lb = mapped (diskWord d.disk) inode lb := by
  apply mapped_congr
  intro b hb k
  have := h.index lb hlb b hb
  rw [driverWord, diskWord, driverBlock_eq (by omega)]

/-- **`ext2_fread` stores the first bytes of the blocks of the file**, and nothing behind
them. -/
theorem ext2_fread_stores (hd : Working d) (hn : n < 2147483648) (hdisk : OnDisk n d.disk inode)
    (buf : Mem) (count : ℕ) :
    ∃ buf', (Prog.run answer d (Ext2.ext2_fread 1024 inode buf count)).1 =
        .ok (buf', min count inode.i_size) ∧
      (∀ k < min count inode.i_size, ∃ b,
        (Prog.run answer d (Ext2.get_physical_block 1024 inode (k / 1024))).1 = .ok b ∧ b < n ∧
          buf' k = if b = 0 then 0 else block d.disk b (k % 1024)) ∧
      (∀ k, min count inode.i_size ≤ k → buf' k = buf k) ∧
      ∀ s ∈ steps d 1024 inode buf count, s.Safe := by
  have hsize := i_size_lt inode
  refine ⟨_, run_ext2_fread hd buf count, fun k hk => ?_, fun k hk => ?_, steps_safe⟩
  · have hlb : k / 1024 * 1024 < inode.i_size := by omega
    have hmapped := hdisk.mapped_eq hn hlb
    have hlt := hdisk.data _ hlb
    refine ⟨_, run_get_physical_block hd (by omega), by rwa [hmapped], ?_⟩
    rw [Mem.put, if_pos (by omega), Nat.sub_zero, seenByte, fileByte,
      driverBlock_eq (by rw [hmapped]; omega)]
  · rw [Mem.put_apply_of_disjoint (by omega)]

/-- The file of one byte. -/
theorem ext2_fread_letter : ∃ buf',
    (Prog.run answer (BlockReads.boot FileReads.disk)
      (Ext2.ext2_fread 1024 FileReads.letter (fun _ => 1) 5)).1 = .ok (buf', 1) ∧
        buf' 0 = 97 ∧ buf' 1 = 1 := by
  have hone : ∀ lb, lb * 1024 < FileReads.letter.i_size → lb = 0 := by
    intro lb hlb
    have hsize : FileReads.letter.i_size = 1 := by decide
    omega
  have hdisk : OnDisk 7 FileReads.disk FileReads.letter := by
    refine ⟨fun lb hlb => ?_, fun lb hlb => ?_⟩
    · rw [hone lb hlb]
      decide
    · rw [hone lb hlb]
      decide
  have hd : Working (BlockReads.boot FileReads.disk) := fun _ => rfl
  obtain ⟨buf', hrun, hstored, hbehind, -⟩ :=
    ext2_fread_stores hd (show 7 < 2147483648 by decide) hdisk (fun _ => 1) 5
  obtain ⟨b, hb, -, hbyte⟩ := hstored 0 (by decide)
  rw [run_get_physical_block hd (by decide)] at hb
  obtain rfl := Except.ok.inj hb
  exact ⟨buf', hrun, hbyte.trans (by decide +kernel), hbehind 1 (by decide)⟩

end Loos.FreadSteps
