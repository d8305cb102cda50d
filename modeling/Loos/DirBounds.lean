/-
Which bytes of its buffer the search of a directory reads.

`find_dir_entry` asks of an entry only that it starts below the limit. Its fields can be
behind the limit, and its name can end there. The search is written here once more with a
note before each read of the buffer; without its notes it is the one of `Ext2`
([`erase_find_dir_entry`]). What lies behind the buffer is on the stack, and a name can be
found there ([`matched_outside`]).
-/
import Loos.DirScan
import Loos.InodeBounds

set_option autoImplicit false

namespace Loos.DirBounds

open SysLib Ahci Ext2 Cstring Resolution DirScan
open InodeBounds (Op NotedProg note notes_note erase_note)

/-! ## The code -/

/-- The test whether the entry at `de` has the name, with the reads it makes. A field that is
read again is not noted again. -/
def test_entry (block_size : ℕ) (buf : Mem) (name : List UInt8) (de : ℕ) : NotedProg Bool := do
  note (.load de 4 block_size)
  if buf.load de 4 = 0 then .ret false
  else do
    note (.load (de + 6) 1 block_size)
    if buf.load (de + 6) 1 = 0 then .ret false
    else do
      note (.load (de + 8) (buf.load (de + 6) 1) block_size)
      .ret (strcmp (de_name buf de) name = 0)

/-- The loop over the entries of a block from `de` on. -/
def scan_block (block_size : ℕ) (buf : Mem) (name : List UInt8) (de : ℕ) :
    NotedProg (Option ℕ) :=
  if de < block_size then do
    let found ← test_entry block_size buf name de
    if found then .ret (some (buf.load de 4))
    else do
      note (.load (de + 4) 2 block_size)
      if buf.load (de + 4) 2 = 0 then .stop .stuck
      else scan_block block_size buf name (de + buf.load (de + 4) 2)
  else .ret none
termination_by block_size - de

/-- The loop of `find_dir_entry` over the direct blocks. -/
def find_in_blocks (block_size : ℕ) (name : List UInt8) : List ℕ → Option Mem → NotedProg ℕ
  | [], _ => .stop (.err (-1))
  | b :: bs, block_buf =>
    if b = 0 then .stop (.err (-1))
    else .ask (.inr ⟨b, block_buf⟩) fun r => do
      let found ← scan_block block_size r.2 name 0
      match found with
      | some ino => .ret ino
      | none => find_in_blocks block_size name bs (some r.2)

/-- `find_dir_entry`. -/
def find_dir_entry (fs : ext2_fs) (dir : ext2_inode) (name : List UInt8) : NotedProg ℕ :=
  find_in_blocks fs.block_size name ((List.range 12).map dir.i_block) none

/-- The reads of a search of `dir`. -/
def reads (d : Dev) (fs : ext2_fs) (dir : ext2_inode) (name : List UInt8) : List Op :=
  Prog.notes answer d (find_dir_entry fs dir name)

variable {d : Dev} {fs : ext2_fs} {dir : ext2_inode} {bs de : ℕ} {buf : Mem} {name : List UInt8}

/-! ## The search of `Ext2` -/

theorem erase_test_entry :
    (test_entry bs buf name de).erase = .ret (decide (Matches buf name de)) := by
  rw [test_entry, erase_note, Prog.erase_ite]
  by_cases hi : buf.load de 4 = 0
  · simp [hi, Matches, Prog.erase]
  rw [if_neg hi, erase_note, Prog.erase_ite]
  by_cases hn : buf.load (de + 6) 1 = 0
  · simp [hn, Matches, Prog.erase]
  rw [if_neg hn, erase_note]
  simp [hi, hn, Matches, Prog.erase]

/-- What a search of one block comes to, as a program. -/
def ofExcept {α : Type} : Except Stop α → DiskProg α
  | .ok a => .ret a
  | .error e => .stop e

theorem erase_scan_block :
    (scan_block bs buf name de).erase = ofExcept (Ext2.scan_block bs buf name de) := by
  fun_induction scan_block bs buf name de with
  | case1 de hlt ih =>
    rw [scan_block_de, if_pos hlt, Prog.erase_bind, erase_test_entry, Prog.ret_bind, Prog.erase_ite]
    by_cases hm : Matches buf name de
    · simp [hm, Prog.erase, ofExcept]
    · rw [if_neg hm, if_neg (by simpa using hm), erase_note, Prog.erase_ite]
      split_ifs with h0
      · rfl
      · exact ih h0
  | case2 de hlt =>
    rw [scan_block_de, if_neg hlt]
    rfl

theorem erase_find_in_blocks (blocks : List ℕ) (block_buf : Option Mem) :
    (find_in_blocks bs name blocks block_buf).erase =
      Ext2.find_in_blocks bs name blocks block_buf := by
  induction blocks generalizing block_buf with
  | nil => rfl
  | cons b blocks ih =>
    rw [find_in_blocks, Ext2.find_in_blocks, Prog.erase_ite]
    split_ifs
    · rfl
    · rw [Prog.erase, read_block, Prog.ask_bind]
      congr 1
      funext r
      rw [Prog.erase_bind, erase_scan_block, Prog.ret_bind]
      rcases Ext2.scan_block bs r.2 name 0 with e | _ | ino
      · rfl
      · exact ih _
      · rfl

theorem erase_find_dir_entry :
    (find_dir_entry fs dir name).erase = Ext2.find_dir_entry fs dir name :=
  erase_find_in_blocks _ _

/-! ## The reads -/

/-- The reads of the test of one entry. -/
def test_reads (bs : ℕ) (buf : Mem) (de : ℕ) : List Op :=
  .load de 4 bs :: if buf.load de 4 = 0 then [] else
    .load (de + 6) 1 bs :: if buf.load (de + 6) 1 = 0 then [] else
      [.load (de + 8) (buf.load (de + 6) 1) bs]

/-- The reads of one entry: `rec_len` is read when the search goes on. -/
def entry_reads (bs : ℕ) (buf : Mem) (name : List UInt8) (de : ℕ) : List Op :=
  test_reads bs buf de ++ if Matches buf name de then [] else [.load (de + 4) 2 bs]

theorem notes_test_entry :
    Prog.notes answer d (test_entry bs buf name de) = test_reads bs buf de := by
  rw [test_entry, notes_note, test_reads]
  by_cases hi : buf.load de 4 = 0
  · simp [hi, Prog.notes]
  · rw [if_neg hi, if_neg hi, notes_note]
    by_cases hn : buf.load (de + 6) 1 = 0
    · simp [hn, Prog.notes]
    · rw [if_neg hn, if_neg hn, notes_note]
      rfl

/-- The reads behind the test of an entry. -/
theorem notes_test_bind (f : Bool → NotedProg (Option ℕ)) :
    Prog.notes answer d (test_entry bs buf name de >>= f) =
      test_reads bs buf de ++ Prog.notes answer d (f (decide (Matches buf name de))) := by
  have hrun : Prog.run answer d (test_entry bs buf name de).erase =
      (.ok (decide (Matches buf name de)), d) := by
    rw [erase_test_entry]
    rfl
  rw [Prog.notes_bind hrun, notes_test_entry]

theorem notes_scan_block (hlt : de < bs) : Prog.notes answer d (scan_block bs buf name de) =
    entry_reads bs buf name de ++
      if Matches buf name de ∨ buf.load (de + 4) 2 = 0 then []
      else Prog.notes answer d (scan_block bs buf name (de + buf.load (de + 4) 2)) := by
  rw [scan_block, if_pos hlt, notes_test_bind, entry_reads]
  by_cases hm : Matches buf name de
  · simp [hm, Prog.notes]
  · simp only [hm, decide_false, Bool.false_eq_true, if_false, false_or, notes_note]
    split_ifs
    · simp [Prog.notes]
    · simp

variable {P : Op → Prop}

theorem forall_notes_scan_iff (hlt : de < bs) :
    (∀ op ∈ Prog.notes answer d (scan_block bs buf name de), P op) ↔
      (∀ op ∈ entry_reads bs buf name de, P op) ∧
        (¬ Matches buf name de → buf.load (de + 4) 2 ≠ 0 →
          ∀ op ∈ Prog.notes answer d (scan_block bs buf name (de + buf.load (de + 4) 2)), P op) := by
  rw [notes_scan_block hlt, List.forall_mem_append]
  by_cases hm : Matches buf name de
  · simp [hm]
  · by_cases h0 : buf.load (de + 4) 2 = 0
    · simp [h0]
    · simp [hm, h0]

/-- What holds of the reads of a block: it holds of those of each entry on the chain. -/
theorem forall_notes_scan_block : (∀ op ∈ Prog.notes answer d (scan_block bs buf name 0), P op) ↔
    ∀ de, Comes bs buf name de → de < bs → ∀ op ∈ entry_reads bs buf name de, P op := by
  constructor
  · intro h de hde hlt
    have hall : ∀ op ∈ Prog.notes answer d (scan_block bs buf name de), P op := by
      clear hlt
      induction hde with
      | first => exact h
      | @next de hde hlt hm ih =>
        by_cases h0 : buf.load (de + 4) 2 = 0
        · rwa [h0]
        · exact ((forall_notes_scan_iff hlt).mp ih).2 hm h0
    exact ((forall_notes_scan_iff hlt).mp hall).1
  · intro h
    have hall : ∀ de, Comes bs buf name de →
        ∀ op ∈ Prog.notes answer d (scan_block bs buf name de), P op := by
      intro de hde
      induction hk : bs - de using Nat.strong_induction_on generalizing de with
      | _ k ih =>
        by_cases hlt : de < bs
        · rw [forall_notes_scan_iff hlt]
          refine ⟨h de hde hlt, fun hm h0 => ?_⟩
          exact ih _ (by omega) _ (hde.next hlt hm) rfl
        · rw [scan_block, if_neg hlt]
          simp [Prog.notes]
    exact hall 0 .first

theorem run_scan_block (d : Dev) (bs : ℕ) (buf : Mem) (name : List UInt8) :
    Prog.run answer d (scan_block bs buf name 0).erase = (Ext2.scan_block bs buf name 0, d) := by
  rw [erase_scan_block]
  cases Ext2.scan_block bs buf name 0 <;> rfl

/-- What holds of the reads of a search: it holds of those of each entry that it comes to. -/
theorem forall_notes_find (blocks : List ℕ) (block_buf : Option Mem) :
    (∀ op ∈ Prog.notes answer d (find_in_blocks bs name blocks block_buf), P op) ↔
      ∀ buf de, EntryMet bs name (buffers d blocks block_buf) buf de →
        ∀ op ∈ entry_reads bs buf name de, P op := by
  induction blocks generalizing d block_buf with
  | nil =>
    refine iff_of_true (by simp [find_in_blocks, Prog.notes]) ?_
    intro buf de h
    cases h
  | cons b blocks ih =>
    rw [find_in_blocks, buffers]
    split_ifs
    · refine iff_of_true (by simp [Prog.notes]) ?_
      intro buf de h
      cases h
    · rw [Prog.notes, forall_entryMet_cons]
      generalize answer d ⟨b, block_buf⟩ = a
      have hrun := run_scan_block a.2 bs a.1.2 name
      rw [← forall_notes_scan_block (d := a.2)]
      rcases hscan : Ext2.scan_block bs a.1.2 name 0 with e | _ | ino
      · rw [hscan] at hrun
        simp [Prog.notes_bind_error hrun]
      · rw [hscan] at hrun
        rw [Prog.notes_bind hrun, List.forall_mem_append, ← ih]
        simp
      · rw [hscan] at hrun
        simp [Prog.notes_bind hrun, Prog.notes]

/-! ## The entries that are read as they should -/

/-- What is read of the entry at `de` is in the first `size` bytes: the inode number and
`rec_len`, for an entry in use `name_len` too, and then the name. -/
def Inside (size : ℕ) (buf : Mem) (de : ℕ) : Prop :=
  de + 6 ≤ size ∧ (buf.load de 4 ≠ 0 →
    de + 7 ≤ size ∧ (buf.load (de + 6) 1 ≠ 0 → de + 8 + buf.load (de + 6) 1 ≤ size))

theorem entry_reads_iff : (∀ op ∈ entry_reads bs buf name de, op.Safe ∧ op.Filled) ↔
    Inside (min bs BLOCK_SIZE) buf de := by
  have hload : ∀ off len, (Op.load off len bs).Safe ∧ (Op.load off len bs).Filled ↔
      off + len ≤ min bs BLOCK_SIZE := by
    intro off len
    rw [le_min_iff]
    rfl
  generalize min bs BLOCK_SIZE = size at hload ⊢
  rw [entry_reads, test_reads, Inside, List.forall_mem_append, List.forall_mem_cons, hload]
  by_cases hi : buf.load de 4 = 0
  · have hm : ¬ Matches buf name de := fun h => h.1 hi
    simp [hi, hm, hload]
    omega
  by_cases hn : buf.load (de + 6) 1 = 0
  · have hm : ¬ Matches buf name de := fun h => h.2.1 hn
    simp [hi, hn, hm, hload]
    omega
  · by_cases hm : Matches buf name de
    · simp [hi, hn, hm, hload]
      omega
    · simp [hi, hn, hm, hload]
      omega

/-- **When all bytes that a search reads are those of the block**: when each entry that it comes
to has them in the block, and in the part of it that is read from the disk. -/
theorem reads_inside_iff : (∀ op ∈ reads d fs dir name, op.Safe ∧ op.Filled) ↔
    ∀ buf de, EntryMet fs.block_size name (dir_buffers d dir) buf de →
      Inside (min fs.block_size BLOCK_SIZE) buf de := by
  rw [reads, find_dir_entry, forall_notes_find]
  simp only [entry_reads_iff]
  rfl

/-! ## A name behind the block -/

/-- Block 6 has the entry `.` for inode 2, and in its last 8 bytes an entry for inode 3 whose
name has one character. -/
def edge : Mem := fun x =>
  if x = 6144 then 2
  else if x = 6144 + 4 then 0xF8
  else if x = 6144 + 5 then 3
  else if x = 6144 + 6 then 1
  else if x = 6144 + 8 then 46
  else if x = 6144 + 1016 then 3
  else if x = 6144 + 1016 + 4 then 8
  else if x = 6144 + 1016 + 6 then 1
  else 0

/-- On the stack there are letters. -/
def edge_dev : Dev := ⟨edge, fun _ => 0, fun _ => .done, fun _ _ => 97, 0⟩

/-- What is at `block_buf` after the read. -/
def edge_buf : Mem := (answer edge_dev ⟨6, none⟩).1.2

theorem edge_buffers : dir_buffers edge_dev one_block = [edge_buf] := by
  have hblocks : (List.range 12).map one_block.i_block = 6 :: 0 :: List.replicate 10 0 := by
    decide
  rw [dir_buffers, hblocks, buffers, if_neg (by decide), buffers, if_pos rfl]
  rfl

/-- The second entry is the one that is found. -/
theorem edge_comes : Comes 1024 edge_buf [97] 1016 := by
  have hrec : 0 + edge_buf.load (0 + 4) 2 = 1016 := by decide +kernel
  rw [← hrec]
  exact .next .first (by decide) (by decide +kernel)

/-- **A name is found that is not in the directory**: the letter is behind the block. -/
theorem matched_outside :
    (Prog.run answer edge_dev (Ext2.find_dir_entry (BlockReads.blank_fs 0) one_block [97])).1 =
        .ok 3 ∧
      (∀ i < 1024, block edge 6 i ≠ 97) ∧
      ¬ ∀ op ∈ reads edge_dev (BlockReads.blank_fs 0) one_block [97], op.Safe ∧ op.Filled := by
  refine ⟨?_, by decide +kernel, ?_⟩
  · have hscan : Ext2.scan_block 1024 edge_buf [97] 0 = .ok (some 3) := by
      have hrec : edge_buf.load (0 + 4) 2 = 1016 := by decide +kernel
      rw [scan_block_de, if_pos (by decide), if_neg (by decide +kernel), hrec, if_neg (by decide),
        scan_block_de, if_pos (by decide), if_pos (by decide +kernel)]
      decide +kernel
    rw [Ext2.find_dir_entry, run_find_in_blocks, ← dir_buffers, edge_buffers, search]
    show (Ext2.scan_block 1024 edge_buf [97] 0 >>= _) = _
    rw [hscan]
    rfl
  · rw [reads, find_dir_entry, forall_notes_find, ← dir_buffers, edge_buffers]
    intro h
    have hread := h edge_buf 1016 (.here edge_comes (by decide)) (.load (1016 + 8) 1 1024)
    exact absurd (hread (by decide +kernel)).1 (by decide)

end Loos.DirBounds
