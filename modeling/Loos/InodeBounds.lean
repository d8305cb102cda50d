/-
What `ext2_get_inode` divides by, asks for and reads, on a mounted disk.

`ext2_read_superblock` looks at the magic number and at nothing else, so the
divisors, the size of the buffers and the offsets in them are whatever the other
fields make of them. The two functions are written here once more with a note
before each step that could go wrong ([`Op`]); without its notes each is the function
of `Ext2` ([`erase_get_inode`]). None of the notes depends on what the disk holds
behind the superblock, and [`bounds_iff`] says which superblocks make all of them
safe.

A buffer has `block_size` bytes and `read_block` fills 1024 of them, so "inside the
buffer" and "inside what was read" are two conditions; both are stated.
-/
import Loos.BlockReads

set_option autoImplicit false

namespace Loos.InodeBounds

open SysLib Ahci Ext2

/-! ## Steps that can go wrong -/

/-- A shift of a 32-bit word, a division, a request for memory, and a read of `len` bytes
at `off` in a buffer of `size`. -/
inductive Op where
  | shift (n : ℕ)
  | div (b : ℕ)
  | kmalloc (size : ℕ)
  | load (off len size : ℕ)
deriving DecidableEq

/-- The step is in order. -/
def Op.Safe : Op → Prop
  | shift n => n < 32
  | div b => b ≠ 0
  | kmalloc size => size ≤ PGSIZE
  | load off len size => off + len ≤ size

instance : (op : Op) → Decidable op.Safe
  | .shift _ => inferInstanceAs (Decidable (_ < _))
  | .div _ => inferInstanceAs (Decidable (_ ≠ _))
  | .kmalloc _ => inferInstanceAs (Decidable (_ ≤ _))
  | .load _ _ _ => inferInstanceAs (Decidable (_ ≤ _))

/-- What is read is in the part of the buffer that `read_block` fills. -/
def Op.Filled : Op → Prop
  | load off len _ => off + len ≤ BLOCK_SIZE
  | _ => True

/-- A program that notes its steps. -/
abbrev NotedProg (α : Type) := Prog (Op ⊕ BlockRead) (ℤ × Mem) Stop α

def note (op : Op) : NotedProg Unit := .ask (.inl op) fun _ => .ret ()

def read_block (block_offset : ℕ) (buf : Mem) : NotedProg (ℤ × Mem) :=
  .ask (.inr ⟨block_offset, some buf⟩) .ret

/-- `a / b` -/
def div (a b : ℕ) : NotedProg ℕ := do
  note (.div b)
  if b = 0 then .stop .stuck else .ret (a / b)

/-- `a % b` -/
def mod (a b : ℕ) : NotedProg ℕ := do
  note (.div b)
  if b = 0 then .stop .stuck else .ret (a % b)

def kmalloc (size : ℕ) : NotedProg Mem := do
  note (.kmalloc size)
  if PGSIZE < size ∧ size < 2147483648 then .stop .stuck else .ret kmalloc_page

/-- The word at `off` of a buffer of `size` bytes. -/
def load (buf : Mem) (size off : ℕ) : NotedProg ℕ := do
  note (.load off 4 size)
  .ret (buf.load off 4)

/-- The copy of the inode at `off` of a buffer of `size` bytes. -/
def memcpy_inode (buf : Mem) (size off : ℕ) : NotedProg ext2_inode := do
  note (.load off 128 size)
  .ret (ext2_inode.ofBytes buf off)

/-! ## Translation -/

/-- `ext2_read_superblock`. -/
def ext2_read_superblock (block_offset : ℕ) : NotedProg ext2_fs := do
  let buf ← kmalloc BLOCK_SIZE
  let r ← read_block block_offset buf
  let sb := ext2_superblock.ofBytes r.2
  if sb.s_magic ≠ EXT2_SIGNATURE then .stop (.err (-1))
  else do
    note (.shift sb.s_log_block_size)
    .ret ⟨sb, 1024 * 2 ^ (sb.s_log_block_size % 32) % 4294967296⟩

/-- `ext2_get_inode`. -/
def ext2_get_inode (fs : ext2_fs) (inode_num : ℕ) : NotedProg ext2_inode :=
  if inode_num = 0 ∨ inode_num > fs.sb.s_inodes_count then .stop (.err (-1))
  else do
    let group ← div (inode_num - 1) fs.sb.s_inodes_per_group
    let index ← mod (inode_num - 1) fs.sb.s_inodes_per_group
    let bgdt_start_block := (fs.sb.s_first_data_block + 1) % 4294967296
    let desc_per_block := fs.block_size / 32
    let q ← div group desc_per_block
    let desc_block := (bgdt_start_block + q) % 4294967296
    let m ← mod group desc_per_block
    let desc_offset := m * 32
    let desc_buf ← kmalloc fs.block_size
    let r ← read_block desc_block desc_buf
    if r.1 ≠ 0 then .stop (.err (-2))
    else do
      let inode_table_block ← load r.2 fs.block_size (desc_offset + 8)
      let inode_offset := index * fs.sb.s_inode_size % 4294967296
      let q ← div inode_offset fs.block_size
      let block_offset := (inode_table_block + q) % 4294967296
      let intra_block_offset ← mod inode_offset fs.block_size
      if intra_block_offset + 128 > fs.block_size then .stop (.err (-3))
      else do
        let block_buf ← kmalloc fs.block_size
        let r ← read_block block_offset block_buf
        if r.1 ≠ 0 then .stop (.err (-4))
        else do
          let inode ← memcpy_inode r.2 fs.block_size intra_block_offset
          if inode.i_mode = 0 then .stop (.err (-5)) else .ret inode

variable {fs : ext2_fs} {d d' : Dev} {b n : ℕ} {sb : ext2_superblock}

variable {α : Type} {op : Op}

/-! ## The functions of `Ext2` -/

@[simp] theorem erase_note (f : Unit → NotedProg α) : (note op >>= f).erase = (f ()).erase := rfl

@[simp] theorem erase_read_block (buf : Mem) (f : ℤ × Mem → NotedProg α) :
    (read_block n buf >>= f).erase = Ext2.read_block n (some buf) >>= fun r => (f r).erase := rfl

@[simp] theorem erase_div (a : ℕ) (f : ℕ → NotedProg α) :
    (div a b >>= f).erase = if b = 0 then .stop .stuck else (f (a / b)).erase := by
  rw [div, Prog.bind_assoc, erase_note]
  split_ifs <;> rfl

@[simp] theorem erase_mod (a : ℕ) (f : ℕ → NotedProg α) :
    (mod a b >>= f).erase = if b = 0 then .stop .stuck else (f (a % b)).erase := by
  rw [mod, Prog.bind_assoc, erase_note]
  split_ifs <;> rfl

@[simp] theorem erase_kmalloc (f : Mem → NotedProg α) :
    (kmalloc n >>= f).erase = Ext2.kmalloc n >>= fun buf => (f buf).erase := by
  rw [kmalloc, Prog.bind_assoc, erase_note, Ext2.kmalloc]
  split_ifs <;> rfl

@[simp] theorem erase_load (buf : Mem) (off : ℕ) (f : ℕ → NotedProg α) :
    (load buf n off >>= f).erase = (f (buf.load off 4)).erase := rfl

@[simp] theorem erase_memcpy_inode (buf : Mem) (off : ℕ) (f : ext2_inode → NotedProg α) :
    (memcpy_inode buf n off >>= f).erase = (f (ext2_inode.ofBytes buf off)).erase := rfl

theorem erase_read_superblock : (ext2_read_superblock b).erase = Ext2.ext2_read_superblock b := by
  simp only [ext2_read_superblock, Ext2.ext2_read_superblock, erase_kmalloc, erase_read_block,
    Prog.erase_ite, erase_note, Prog.erase]

theorem erase_get_inode : (ext2_get_inode fs n).erase = Ext2.ext2_get_inode fs n := by
  rw [ext2_get_inode, Ext2.ext2_get_inode, Prog.erase_ite]
  by_cases hn : n = 0 ∨ n > fs.sb.s_inodes_count
  · rw [if_pos hn, if_pos hn, Prog.erase]
  rw [if_neg hn, if_neg hn, erase_div]
  by_cases hg : fs.sb.s_inodes_per_group = 0
  · rw [if_pos hg, if_pos (.inl hg)]
  rw [if_neg hg, erase_mod, if_neg hg]
  by_cases hb : fs.block_size / 32 = 0
  · rw [if_pos (.inr hb)]
    dsimp only
    rw [erase_div, if_pos hb]
  have hbs : fs.block_size ≠ 0 := by
    intro h
    simp [h] at hb
  rw [if_neg (not_or.mpr ⟨hg, hb⟩)]
  simp only [erase_div, erase_mod, erase_kmalloc, erase_read_block, erase_load, erase_memcpy_inode,
    Prog.erase_ite, hb, hbs, if_false, Prog.erase]

/-! ## The notes -/

/-- What `ext2_get_inode` notes for the inode `n`, after a mount from the block `b`. -/
def ops (d : Dev) (b n : ℕ) : List Op :=
  Prog.notes answer d (ext2_read_superblock b >>= fun fs => ext2_get_inode fs n)

theorem notes_note (f : Unit → NotedProg α) :
    Prog.notes answer d (note op >>= f) = op :: Prog.notes answer d (f ()) := rfl

theorem notes_read_block (buf : Mem) (f : ℤ × Mem → NotedProg α) :
    Prog.notes answer d (read_block n buf >>= f) =
      Prog.notes answer (answer d ⟨n, some buf⟩).2 (f (answer d ⟨n, some buf⟩).1) := rfl

theorem notes_div (a : ℕ) (f : ℕ → NotedProg α) : Prog.notes answer d (div a b >>= f) =
    .div b :: if b = 0 then [] else Prog.notes answer d (f (a / b)) := by
  rw [div, Prog.bind_assoc, notes_note]
  split_ifs <;> rfl

theorem notes_mod (a : ℕ) (f : ℕ → NotedProg α) : Prog.notes answer d (mod a b >>= f) =
    .div b :: if b = 0 then [] else Prog.notes answer d (f (a % b)) := by
  rw [mod, Prog.bind_assoc, notes_note]
  split_ifs <;> rfl

theorem notes_kmalloc (f : Mem → NotedProg α) : Prog.notes answer d (kmalloc n >>= f) =
    .kmalloc n :: if PGSIZE < n ∧ n < 2147483648 then []
      else Prog.notes answer d (f kmalloc_page) := by
  rw [kmalloc, Prog.bind_assoc, notes_note]
  split_ifs <;> rfl

theorem notes_load (buf : Mem) (off : ℕ) (f : ℕ → NotedProg α) :
    Prog.notes answer d (load buf n off >>= f) =
      .load off 4 n :: Prog.notes answer d (f (buf.load off 4)) := rfl

theorem notes_memcpy_inode (buf : Mem) (off : ℕ) (f : ext2_inode → NotedProg α) :
    Prog.notes answer d (memcpy_inode buf n off >>= f) =
      .load off 128 n :: Prog.notes answer d (f (ext2_inode.ofBytes buf off)) := rfl

/-- Where the group descriptor of the inode `n` is in its block. -/
def desc_offset (fs : ext2_fs) (n : ℕ) : ℕ :=
  (n - 1) / fs.sb.s_inodes_per_group % (fs.block_size / 32) * 32

/-- Where the inode `n` is in its block. -/
def intra_block_offset (fs : ext2_fs) (n : ℕ) : ℕ :=
  (n - 1) % fs.sb.s_inodes_per_group * fs.sb.s_inode_size % 4294967296 % fs.block_size

/-- The notes are the same for every disk with this superblock. -/
theorem notes_get_inode (hn : 0 < n) (hle : n ≤ fs.sb.s_inodes_count) :
    Prog.notes answer d (ext2_get_inode fs n) =
      let ipg := fs.sb.s_inodes_per_group
      let bs := fs.block_size
      .div ipg :: if ipg = 0 then [] else
        .div ipg :: .div (bs / 32) :: if bs / 32 = 0 then [] else
          .div (bs / 32) :: .kmalloc bs :: if PGSIZE < bs ∧ bs < 2147483648 then [] else
            .load (desc_offset fs n + 8) 4 bs :: .div bs :: if bs = 0 then [] else
              .div bs :: if intra_block_offset fs n + 128 > bs then [] else
                [.kmalloc bs, .load (intra_block_offset fs n) 128 bs] := by
  have hans : ∀ d q, (answer d q).1.1 = 0 := fun _ _ => rfl
  have hvalid : ¬ (n = 0 ∨ n > fs.sb.s_inodes_count) := by omega
  rw [ext2_get_inode, if_neg hvalid]
  simp only [notes_div, notes_mod, notes_kmalloc, notes_read_block, notes_load, notes_memcpy_inode,
    Prog.notes_ite, hans, Prog.notes, ne_eq, not_true_eq_false, if_false, ite_self]
  dsimp only [desc_offset, intra_block_offset]
  by_cases hg : fs.sb.s_inodes_per_group = 0
  · rw [if_pos hg, if_pos hg]
  by_cases hb : fs.block_size / 32 = 0
  · simp only [if_neg hg, if_pos hb]
  by_cases hk : PGSIZE < fs.block_size ∧ fs.block_size < 2147483648
  · simp only [if_neg hg, if_neg hb, if_pos hk]
  have hbs : fs.block_size ≠ 0 := fun h => hb (by rw [h])
  simp only [if_neg hg, if_neg hb, if_neg hk, if_neg hbs]
  rfl

/-! ## The superblocks -/

/-- The shift is one of a 32-bit word, and if there are inodes at all, there are some in
each group and a block fits into a page. -/
def Fits (sb : ext2_superblock) : Prop :=
  sb.s_log_block_size < 32 ∧
    (sb.s_inodes_count ≠ 0 → sb.s_inodes_per_group ≠ 0 ∧ sb.s_log_block_size ≤ 4)

instance (sb : ext2_superblock) : Decidable (Fits sb) := inferInstanceAs (Decidable (_ ∧ _))

/-- Blocks of 1 KiB; or there are at most 32 groups, and the records of a group that
leave room for an inode in their block leave room for it in the first KiB of the block. -/
def FirstKiB (sb : ext2_superblock) : Prop :=
  sb.s_log_block_size = 0 ∨ sb.s_inodes_count ≤ 32 * sb.s_inodes_per_group ∧
    ∀ i < min sb.s_inodes_per_group sb.s_inodes_count,
      i * sb.s_inode_size % (1024 * 2 ^ sb.s_log_block_size) ≤ 896 ∨
        1024 * 2 ^ sb.s_log_block_size < i * sb.s_inode_size % (1024 * 2 ^ sb.s_log_block_size) + 128

/-- `fs` is mounted with the superblock it holds. -/
def OfSuperblock (fs : ext2_fs) : Prop :=
  fs.block_size = 1024 * 2 ^ (fs.sb.s_log_block_size % 32) % 4294967296

/-- What a mount returns has the size of its superblock, and two notes come before those
of `ext2_get_inode`. -/
theorem mounted_spec (h : Prog.run answer d (Ext2.ext2_read_superblock b) = (.ok fs, d')) :
    OfSuperblock fs ∧ ∀ n, ops d b n =
      [.kmalloc BLOCK_SIZE, .shift fs.sb.s_log_block_size] ++
        Prog.notes answer d' (ext2_get_inode fs n) := by
  have hmounted : BlockReads.Mounted fs := ⟨d, b, by rw [h]⟩
  refine ⟨BlockReads.mounted_block_size hmounted, fun n => ?_⟩
  rw [← erase_read_superblock] at h
  rw [ops, Prog.notes_bind h]
  rw [erase_read_superblock, Ext2.ext2_read_superblock, kmalloc_eq (by decide)] at h
  simp only [Prog.ret_bind, Ext2.read_block, Prog.ask_bind, Prog.run] at h
  congr 1
  rw [ext2_read_superblock, notes_kmalloc, if_neg (by decide), notes_read_block]
  split at h
  · cases h
  · rename_i hmagic
    obtain rfl := Except.ok.inj (Prod.mk.inj h).1
    simp only [if_neg hmagic]
    rfl

/-- Small shifts give the size the superblock means. -/
theorem block_size_of_le (hbs : OfSuperblock fs) (hlog : fs.sb.s_log_block_size ≤ 4) :
    fs.block_size = 1024 * 2 ^ fs.sb.s_log_block_size := by
  have hpow : 2 ^ fs.sb.s_log_block_size ≤ 2 ^ 4 := Nat.pow_le_pow_right (by decide) hlog
  rw [hbs, Nat.mod_eq_of_lt (show fs.sb.s_log_block_size < 32 by omega)]
  apply Nat.mod_eq_of_lt
  omega

/-- A size of at most a page, and not 0, comes from a small shift. -/
theorem log_le_of_block_size (hbs : OfSuperblock fs) (hlog : fs.sb.s_log_block_size < 32)
    (hpos : fs.block_size ≠ 0) (hpage : fs.block_size ≤ PGSIZE) : fs.sb.s_log_block_size ≤ 4 := by
  have hsizes : ∀ k < 32, 1024 * 2 ^ (k % 32) % 4294967296 ≠ 0 →
      1024 * 2 ^ (k % 32) % 4294967296 ≤ PGSIZE → k ≤ 4 := by decide
  rw [hbs] at hpos hpage
  exact hsizes _ hlog hpos hpage

/-- The sizes of a superblock that fits, when there is an inode. -/
structure Sizes (fs : ext2_fs) : Prop where
  ipg : fs.sb.s_inodes_per_group ≠ 0
  block_size : fs.block_size = 1024 * 2 ^ fs.sb.s_log_block_size
  le : fs.block_size ≤ PGSIZE

theorem Fits.sizes (hf : Fits fs.sb) (hbs : OfSuperblock fs) (hc : fs.sb.s_inodes_count ≠ 0) :
    Sizes fs := by
  obtain ⟨hipg, hlog⟩ := hf.2 hc
  have hsize := block_size_of_le hbs hlog
  refine ⟨hipg, hsize, ?_⟩
  have hpow : 2 ^ fs.sb.s_log_block_size ≤ 2 ^ 4 := Nat.pow_le_pow_right (by decide) hlog
  rw [hsize]
  simp only [PGSIZE]
  omega

theorem Sizes.ge (hs : Sizes fs) : 1024 ≤ fs.block_size := by
  rw [hs.block_size]
  exact Nat.le_mul_of_pos_right _ (Nat.two_pow_pos _)

/-- With such sizes there is a note for each step of the function. -/
theorem Sizes.notes (hs : Sizes fs) (hn : 0 < n) (hle : n ≤ fs.sb.s_inodes_count) :
    Prog.notes answer d (ext2_get_inode fs n) =
      [.div fs.sb.s_inodes_per_group, .div fs.sb.s_inodes_per_group, .div (fs.block_size / 32),
        .div (fs.block_size / 32), .kmalloc fs.block_size,
        .load (desc_offset fs n + 8) 4 fs.block_size, .div fs.block_size, .div fs.block_size] ++
      if intra_block_offset fs n + 128 > fs.block_size then [] else
        [.kmalloc fs.block_size, .load (intra_block_offset fs n) 128 fs.block_size] := by
  have hge := hs.ge
  have hdesc : fs.block_size / 32 ≠ 0 := by omega
  have hbs : fs.block_size ≠ 0 := by omega
  have hk : ¬ (PGSIZE < fs.block_size ∧ fs.block_size < 2147483648) := fun h =>
    absurd h.1 (not_lt.mpr hs.le)
  rw [notes_get_inode hn hle]
  simp only [if_neg hs.ipg, if_neg hdesc, if_neg hk, if_neg hbs, List.cons_append, List.nil_append]

/-- The descriptor lies in its block. -/
theorem desc_offset_lt (hs : Sizes fs) : desc_offset fs n + 32 ≤ fs.block_size := by
  have hge := hs.ge
  have hlt := Nat.mod_lt ((n - 1) / fs.sb.s_inodes_per_group) (show 0 < fs.block_size / 32 by omega)
  unfold desc_offset
  omega

theorem Sizes.safe (hs : Sizes fs) (hn : 0 < n) (hle : n ≤ fs.sb.s_inodes_count) :
    ∀ op ∈ Prog.notes answer d (ext2_get_inode fs n), op.Safe := by
  have hge := hs.ge
  have hdesc := desc_offset_lt (n := n) hs
  rw [hs.notes hn hle]
  simp only [List.forall_mem_append, List.forall_mem_cons, Op.Safe]
  refine ⟨⟨hs.ipg, hs.ipg, by omega, by omega, hs.le, by omega, by omega, by omega, by simp⟩, ?_⟩
  split_ifs with hroom
  · simp
  · simp only [List.forall_mem_cons]
    exact ⟨hs.le, not_lt.mp hroom, by simp⟩

theorem notes_of_invalid (h : n = 0 ∨ n > fs.sb.s_inodes_count) :
    Prog.notes answer d (ext2_get_inode fs n) = [] := by
  rw [ext2_get_inode, if_pos h]
  rfl

/-- The first inode alone shows whether the sizes are right. -/
theorem sizes_of_safe (hbs : OfSuperblock fs) (hlog : fs.sb.s_log_block_size < 32)
    (hc : fs.sb.s_inodes_count ≠ 0)
    (h : ∀ op ∈ Prog.notes answer d (ext2_get_inode fs 1), op.Safe) :
    fs.sb.s_inodes_per_group ≠ 0 ∧ fs.sb.s_log_block_size ≤ 4 := by
  rw [notes_get_inode Nat.one_pos (Nat.one_le_iff_ne_zero.mpr hc)] at h
  dsimp only at h
  have hipg : fs.sb.s_inodes_per_group ≠ 0 := h (.div _) List.mem_cons_self
  rw [if_neg hipg] at h
  have hdesc : fs.block_size / 32 ≠ 0 := h (.div _) (by simp)
  rw [if_neg hdesc] at h
  have hpage : fs.block_size ≤ PGSIZE := h (.kmalloc _) (by simp)
  refine ⟨hipg, log_le_of_block_size hbs hlog ?_ hpage⟩
  intro h0
  exact hdesc (by rw [h0])

/-- Every access is safe, of every inode number, exactly with a superblock that fits. -/
theorem safe_iff (h : Prog.run answer d (Ext2.ext2_read_superblock b) = (.ok fs, d')) :
    (∀ n, ∀ op ∈ ops d b n, op.Safe) ↔ Fits fs.sb := by
  obtain ⟨hbs, hops⟩ := mounted_spec h
  simp only [hops, List.forall_mem_append]
  constructor
  · intro hsafe
    have hlog : fs.sb.s_log_block_size < 32 := (hsafe 0).1 (.shift _) (by simp)
    exact ⟨hlog, fun hc => sizes_of_safe hbs hlog hc (hsafe 1).2⟩
  · intro hf n
    constructor
    · simp only [List.forall_mem_cons, Op.Safe]
      exact ⟨by decide, hf.1, by simp⟩
    · by_cases hn : n = 0 ∨ n > fs.sb.s_inodes_count
      · simp [notes_of_invalid hn]
      · have hc : fs.sb.s_inodes_count ≠ 0 := by omega
        exact (hf.sizes hbs hc).safe (by omega) (by omega)

/-! ## The part that is read -/

theorem Sizes.filled (hs : Sizes fs) (hn : 0 < n) (hle : n ≤ fs.sb.s_inodes_count) :
    (∀ op ∈ Prog.notes answer d (ext2_get_inode fs n), op.Filled) ↔
      desc_offset fs n + 12 ≤ 1024 ∧
        (intra_block_offset fs n + 128 ≤ fs.block_size → intra_block_offset fs n + 128 ≤ 1024) := by
  rw [hs.notes hn hle]
  simp only [List.forall_mem_append, List.forall_mem_cons, Op.Filled, BLOCK_SIZE]
  split_ifs with hroom
  · simp [Nat.not_le.mpr hroom]
  · simp [Nat.not_lt.mp hroom]

/-- The inode number does not come into the offset, only its place in the group. -/
theorem Sizes.intra (hs : Sizes fs) (hlog : fs.sb.s_log_block_size ≤ 4) :
    intra_block_offset fs n = (n - 1) % fs.sb.s_inodes_per_group * fs.sb.s_inode_size %
      (1024 * 2 ^ fs.sb.s_log_block_size) := by
  have hdvd : fs.block_size ∣ 4294967296 := by
    rw [hs.block_size, show (4294967296 : ℕ) = 1024 * 2 ^ 22 by decide]
    exact Nat.mul_dvd_mul_left _ (Nat.pow_dvd_pow 2 (by omega))
  rw [intra_block_offset, Nat.mod_mod_of_dvd _ hdvd, hs.block_size]

/-- Up to 32 groups, and no more, have their descriptors in the first KiB of a larger block. -/
theorem Sizes.desc_iff (hs : Sizes fs) (hlog : fs.sb.s_log_block_size ≠ 0) :
    (∀ n, 0 < n → n ≤ fs.sb.s_inodes_count → desc_offset fs n + 12 ≤ 1024) ↔
      fs.sb.s_inodes_count ≤ 32 * fs.sb.s_inodes_per_group := by
  have hipg : 0 < fs.sb.s_inodes_per_group := Nat.pos_of_ne_zero hs.ipg
  constructor
  · intro h
    by_contra hlt
    -- the first inode of the group number 32
    have hfirst := h (32 * fs.sb.s_inodes_per_group + 1) (by omega) (by omega)
    have hpow : 2 ^ 1 ≤ 2 ^ fs.sb.s_log_block_size :=
      Nat.pow_le_pow_right (by decide) (Nat.one_le_iff_ne_zero.mpr hlog)
    have hper : 32 < fs.block_size / 32 := by
      have hsize := hs.block_size
      omega
    rw [desc_offset, Nat.add_sub_cancel, Nat.mul_div_cancel _ hipg, Nat.mod_eq_of_lt hper] at hfirst
    omega
  · intro hle n hn hcount
    have hgroup : (n - 1) / fs.sb.s_inodes_per_group < 32 := by
      apply Nat.div_lt_of_lt_mul
      rw [Nat.mul_comm]
      omega
    have hmod := Nat.mod_le ((n - 1) / fs.sb.s_inodes_per_group) (fs.block_size / 32)
    unfold desc_offset
    omega

/-- The places in a group that are used are those below both counts. -/
theorem Sizes.intra_iff (hs : Sizes fs) (hlog : fs.sb.s_log_block_size ≤ 4) :
    (∀ n, 0 < n → n ≤ fs.sb.s_inodes_count → intra_block_offset fs n + 128 ≤ fs.block_size →
        intra_block_offset fs n + 128 ≤ 1024) ↔
      ∀ i < min fs.sb.s_inodes_per_group fs.sb.s_inodes_count,
        i * fs.sb.s_inode_size % (1024 * 2 ^ fs.sb.s_log_block_size) ≤ 896 ∨
          1024 * 2 ^ fs.sb.s_log_block_size <
            i * fs.sb.s_inode_size % (1024 * 2 ^ fs.sb.s_log_block_size) + 128 := by
  rw [← hs.block_size]
  constructor
  · intro h i hi
    rw [lt_min_iff] at hi
    have hrecord := h (i + 1) (Nat.succ_pos i) hi.2
    rw [hs.intra hlog, Nat.add_sub_cancel, Nat.mod_eq_of_lt hi.1, ← hs.block_size] at hrecord
    omega
  · intro h n hn hcount hroom
    have hplace : (n - 1) % fs.sb.s_inodes_per_group <
        min fs.sb.s_inodes_per_group fs.sb.s_inodes_count := by
      apply lt_min
      · exact Nat.mod_lt _ (Nat.pos_of_ne_zero hs.ipg)
      · exact lt_of_le_of_lt (Nat.mod_le _ _) (by omega)
    have hrecord := h _ hplace
    rw [hs.intra hlog, ← hs.block_size] at hroom ⊢
    omega

/-- With blocks of 1 KiB the two conditions are one. -/
theorem Sizes.filled_of_log_zero (hs : Sizes fs) (hlog : fs.sb.s_log_block_size = 0)
    (hn : 0 < n) (hle : n ≤ fs.sb.s_inodes_count) :
    ∀ op ∈ Prog.notes answer d (ext2_get_inode fs n), op.Filled := by
  have hsize : fs.block_size = 1024 := by rw [hs.block_size, hlog, pow_zero, Nat.mul_one]
  have hdesc := desc_offset_lt (n := n) hs
  rw [hs.filled hn hle, hsize]
  exact ⟨by omega, id⟩

theorem Sizes.all_filled_iff (hs : Sizes fs) (hlog : fs.sb.s_log_block_size ≤ 4) :
    (∀ n, 0 < n → n ≤ fs.sb.s_inodes_count →
      ∀ op ∈ Prog.notes answer d (ext2_get_inode fs n), op.Filled) ↔ FirstKiB fs.sb := by
  by_cases h0 : fs.sb.s_log_block_size = 0
  · exact iff_of_true (fun n hn hle => hs.filled_of_log_zero h0 hn hle) (.inl h0)
  · rw [FirstKiB, or_iff_right h0, ← hs.desc_iff h0, ← hs.intra_iff hlog]
    constructor
    · intro h
      exact ⟨fun n hn hle => ((hs.filled hn hle).mp (h n hn hle)).1,
        fun n hn hle => ((hs.filled hn hle).mp (h n hn hle)).2⟩
    · rintro ⟨hdesc, hintra⟩ n hn hle
      exact (hs.filled hn hle).mpr ⟨hdesc n hn hle, hintra n hn hle⟩

/-- **Which superblocks are safe.** For a disk that mounts, all that `ext2_get_inode` does for
any inode number is safe exactly when the superblock fits; and it reads no byte of its
buffers that was not read from the disk exactly when, besides, all that it looks for is in
the first KiB of a block. -/
theorem bounds_iff (h : Prog.run answer d (Ext2.ext2_read_superblock b) = (.ok fs, d')) :
    ((∀ n, ∀ op ∈ ops d b n, op.Safe) ↔ Fits fs.sb) ∧
      ((∀ n, ∀ op ∈ ops d b n, op.Safe ∧ op.Filled) ↔
        Fits fs.sb ∧ (fs.sb.s_inodes_count ≠ 0 → FirstKiB fs.sb)) := by
  refine ⟨safe_iff h, ?_⟩
  have hboth : (∀ n, ∀ op ∈ ops d b n, op.Safe ∧ op.Filled) ↔
      (∀ n, ∀ op ∈ ops d b n, op.Safe) ∧ ∀ n, ∀ op ∈ ops d b n, op.Filled := by
    simp only [forall_and]
  rw [hboth, safe_iff h]
  apply and_congr_right
  intro hf
  obtain ⟨hbs, hops⟩ := mounted_spec h
  have hmount : ∀ op ∈ [Op.kmalloc BLOCK_SIZE, .shift fs.sb.s_log_block_size], op.Filled := by
    simp [Op.Filled]
  simp only [hops, List.forall_mem_append]
  constructor
  · intro hfilled hc
    exact ((hf.sizes hbs hc).all_filled_iff (hf.2 hc).2).mp fun n _ _ => (hfilled n).2
  · intro hfirst n
    refine ⟨hmount, ?_⟩
    by_cases hn : n = 0 ∨ n > fs.sb.s_inodes_count
    · simp [notes_of_invalid hn]
    · have hc : fs.sb.s_inodes_count ≠ 0 := by omega
      exact ((hf.sizes hbs hc).all_filled_iff (hf.2 hc).2).mpr (hfirst hc) n (by omega) (by omega)

/-- A disk with 16 inodes of 128 bytes in groups of `ipg`, in blocks of `2 ^ log` KiB. -/
def volume (log ipg : UInt8) : Mem := fun x =>
  if x = 1024 then 16
  else if x = 1024 + 24 then log
  else if x = 1024 + 40 then ipg
  else if x = 1024 + 56 then 0x53
  else if x = 1024 + 57 then 0xEF
  else if x = 1024 + 88 then 128
  else 0

/-- What it mounts as. -/
def volume_fs (log ipg : ℕ) : ext2_fs := ⟨⟨16, 0, 0, log, ipg, EXT2_SIGNATURE, 128⟩, 1024 * 2 ^ log⟩

theorem bounds_of_volume : ∃ d', Prog.run answer (BlockReads.boot (volume 1 8))
      (Ext2.ext2_read_superblock 1) = (.ok (volume_fs 1 8), d') ∧
    ∀ n, ∀ op ∈ ops (BlockReads.boot (volume 1 8)) 1 n, op.Safe ∧ op.Filled := by
  refine ⟨_, rfl, ?_⟩
  apply (bounds_iff rfl).2.mpr
  exact ⟨by decide, fun _ => .inr (by decide)⟩

/-- A superblock without inodes in a group is mounted, and the first inode divides by 0; so is
one with blocks of 32 KiB, more than `kmalloc` has. -/
theorem volume_unsafe :
    (∃ d', Prog.run answer (BlockReads.boot (volume 0 0)) (Ext2.ext2_read_superblock 1) =
      (.ok (volume_fs 0 0), d') ∧
        ∃ op ∈ ops (BlockReads.boot (volume 0 0)) 1 1, op = .div 0 ∧ ¬ op.Safe) ∧
    ∃ d', Prog.run answer (BlockReads.boot (volume 5 8)) (Ext2.ext2_read_superblock 1) =
      (.ok (volume_fs 5 8), d') ∧
        ∃ op ∈ ops (BlockReads.boot (volume 5 8)) 1 1, op = .kmalloc 32768 ∧ ¬ op.Safe := by
  constructor
  · refine ⟨_, rfl, .div 0, ?_, rfl, by decide⟩
    rw [(mounted_spec rfl).2, notes_get_inode (by decide) (by decide)]
    decide
  · refine ⟨_, rfl, .kmalloc 32768, ?_, rfl, by decide⟩
    rw [(mounted_spec rfl).2, notes_get_inode (by decide) (by decide)]
    decide

end Loos.InodeBounds
