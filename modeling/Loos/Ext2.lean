/-
`src/fs/ext2.c`: superblock, inodes, directories and files.

The functions are programs over `read_block`: how it answers is settled by the
environment they run in ([`answer`] is the driver). An error code of the source
stops a program, and so does what does not return: a `panic`, a division by zero, and
the scan of a directory that does not get ahead.

A number of type `uint32_t` is a natural number; where the source computes in 32
bits the remainder is written out. A path is the list of its characters without the
terminating 0.
-/
import Loos.Ahci
import Loos.Cstring
import Loos.Memlayout
import Loos.Lib.Prog

set_option autoImplicit false

namespace Loos.Ext2

open SysLib Ahci Cstring

/-! ## Programs over `read_block` -/

/-- Why a function does not return 0: an error code, or it does not return. -/
inductive Stop where
  | err (ret : ℤ)
  | stuck
deriving DecidableEq

/-- A call of `read_block`. An array on the stack that has not been written is `none`. -/
structure BlockRead where
  block_offset : ℕ
  buf : Option Mem

/-- A program that reads blocks; an answer is the returned value and the buffer. -/
abbrev DiskProg (α : Type) := Prog BlockRead (ℤ × Mem) Stop α

/-- The call of `read_block` in a program. -/
def read_block (block_offset : ℕ) (buf : Option Mem) : DiskProg (ℤ × Mem) :=
  .ask ⟨block_offset, buf⟩ .ret

/-- The driver as the environment of a program. -/
def answer (d : Dev) (q : BlockRead) : (ℤ × Mem) × Dev :=
  d.read_block q.block_offset (q.buf.getD (d.stack d.calls))

/-- A page of `kmalloc`: `kalloc_page_memblock` fills it with 5. -/
def kmalloc_page : Mem := fun _ => 5

/-- `kmalloc(size)`, which panics above a page; `size` becomes an `int`. -/
def kmalloc (size : ℕ) : DiskProg Mem :=
  if PGSIZE < size ∧ size < 2147483648 then .stop .stuck else .ret kmalloc_page

theorem kmalloc_eq {size : ℕ} (h : size ≤ PGSIZE) : kmalloc size = .ret kmalloc_page :=
  if_neg fun hlt => absurd hlt.1 (Nat.not_lt.mpr h)

/-! ## A disk that works -/

/-- No call of `do_ahci_read` fails. -/
def Working (d : Dev) : Prop := ∀ k, d.outcomes k = .done

/-- What a read may answer when the disk works: the block is in the first 1024 bytes. -/
def Delivers (disk : Mem) (q : BlockRead) (a : ℤ × Mem) : Prop :=
  a.1 = 0 ∧ ∀ i < 1024, a.2 i = disk (q.block_offset * 2 % 4294967296 * 512 + i)

variable {d : Dev} {disk : Mem}

theorem answer_working (hd : Working d) (q : BlockRead) :
    (answer d q).1.2 = (q.buf.getD (d.stack d.calls)).put 0 1024
      fun i => d.disk (q.block_offset * 2 % 4294967296 * 512 + i) := by
  rw [answer, Dev.read_block_fst, Dev.delivers, hd]

/-- A working disk delivers the blocks and goes on working, with the same bytes. -/
theorem working_next (h : Working d ∧ d.disk = disk) (q : BlockRead) :
    Delivers disk q (answer d q).1 ∧ Working (answer d q).2 ∧ (answer d q).2.disk = disk := by
  obtain ⟨hdisk, hout, -, -⟩ :=
    d.read_block_snd q.block_offset (q.buf.getD (d.stack d.calls))
  refine ⟨⟨rfl, fun i hi => ?_⟩, fun k => ?_, hdisk.trans h.2⟩
  · rw [answer_working h.1, Mem.put, if_pos (by omega), h.2]
    rfl
  · exact (congrFun hout k).trans (h.1 k)

/-- The end of a program on a disk that works. -/
theorem run_working {α : Type} {p : DiskProg α} {r : Except Stop α} (hd : Working d)
    (h : p.Ends (Delivers d.disk) r) : (Prog.run answer d p).1 = r :=
  Prog.run_ends (fun d' => Working d' ∧ d'.disk = d.disk) (fun _ q h => working_next h q)
    ⟨hd, rfl⟩ h

/-- A disk that works goes on working. -/
theorem run_stays {α : Type} (hd : Working d) (p : DiskProg α) :
    Working (Prog.run answer d p).2 ∧ (Prog.run answer d p).2.disk = d.disk :=
  Prog.run_inv (fun d' => Working d' ∧ d'.disk = d.disk) (fun _ q h => (working_next h q).2)
    ⟨hd, rfl⟩ p

/-! ## Superblock -/

def EXT2_SIGNATURE : ℕ := 0xEF53
def EXT2_ROOT_INO : ℕ := 2
def EXT2_S_IFDIR : ℕ := 0x4000
def EXT2_NAME_LEN : ℕ := 255
def ENOTDIR : ℤ := 20

/-- `struct ext2_superblock`, the fields that are used. -/
structure ext2_superblock where
  s_inodes_count : ℕ
  s_blocks_count : ℕ
  s_first_data_block : ℕ
  s_log_block_size : ℕ
  s_inodes_per_group : ℕ
  s_magic : ℕ
  s_inode_size : ℕ

/-- `struct ext2_fs`; the group descriptor in it is not used. -/
structure ext2_fs where
  sb : ext2_superblock
  block_size : ℕ

/-- The superblock in a buffer. -/
def ext2_superblock.ofBytes (buf : Mem) : ext2_superblock where
  s_inodes_count := buf.load 0 4
  s_blocks_count := buf.load 4 4
  s_first_data_block := buf.load 20 4
  s_log_block_size := buf.load 24 4
  s_inodes_per_group := buf.load 40 4
  s_magic := buf.load 56 2
  s_inode_size := buf.load 88 2

/-- `ext2_read_superblock`; the shift looks at five bits of `s_log_block_size`. -/
def ext2_read_superblock (block_offset : ℕ) : DiskProg ext2_fs := do
  let buf ← kmalloc BLOCK_SIZE
  let r ← read_block block_offset (some buf)
  let sb := ext2_superblock.ofBytes r.2
  if sb.s_magic ≠ EXT2_SIGNATURE then .stop (.err (-1))
  else .ret ⟨sb, 1024 * 2 ^ (sb.s_log_block_size % 32) % 4294967296⟩

/-! ## Inodes -/

/-- `struct ext2_inode`, its 128 bytes. -/
structure ext2_inode where
  bytes : Mem

namespace ext2_inode

/-- The inode at `off` of a buffer. -/
def ofBytes (buf : Mem) (off : ℕ) : ext2_inode :=
  ⟨fun i => if i < 128 then buf (off + i) else 0⟩

variable (inode : ext2_inode)

def i_mode : ℕ := inode.bytes.load 0 2
def i_size : ℕ := inode.bytes.load 4 4
def i_block (k : ℕ) : ℕ := inode.bytes.load (40 + 4 * k) 4

end ext2_inode

/-- `ext2_get_inode`. -/
def ext2_get_inode (fs : ext2_fs) (inode_num : ℕ) : DiskProg ext2_inode :=
  if inode_num = 0 ∨ inode_num > fs.sb.s_inodes_count then .stop (.err (-1))
  else if fs.sb.s_inodes_per_group = 0 ∨ fs.block_size / 32 = 0 then .stop .stuck
  else do
    let group := (inode_num - 1) / fs.sb.s_inodes_per_group
    let index := (inode_num - 1) % fs.sb.s_inodes_per_group
    let bgdt_start_block := (fs.sb.s_first_data_block + 1) % 4294967296
    let desc_per_block := fs.block_size / 32
    let desc_block := (bgdt_start_block + group / desc_per_block) % 4294967296
    let desc_offset := group % desc_per_block * 32
    let desc_buf ← kmalloc fs.block_size
    let r ← read_block desc_block (some desc_buf)
    if r.1 ≠ 0 then .stop (.err (-2))
    else
      let inode_table_block := r.2.load (desc_offset + 8) 4
      let inode_offset := index * fs.sb.s_inode_size % 4294967296
      let block_offset := (inode_table_block + inode_offset / fs.block_size) % 4294967296
      let intra_block_offset := inode_offset % fs.block_size
      if intra_block_offset + 128 > fs.block_size then .stop (.err (-3))
      else do
        let block_buf ← kmalloc fs.block_size
        let r ← read_block block_offset (some block_buf)
        if r.1 ≠ 0 then .stop (.err (-4))
        else
          let inode := ext2_inode.ofBytes r.2 intra_block_offset
          if inode.i_mode = 0 then .stop (.err (-5)) else .ret inode

/-! ## Paths -/

/-- The character `/`. -/
def slash : UInt8 := 47

/-- The loop of `parse_path_component` that copies a name, with `len` characters in it. -/
def copy_component : ℕ → List UInt8 → List UInt8 × List UInt8
  | _, [] => ([], [])
  | len, c :: p =>
    if c ≠ 0 ∧ c ≠ slash ∧ len < EXT2_NAME_LEN then
      let r := copy_component (len + 1) p
      (c :: r.1, r.2)
    else ([], c :: p)

/-- `parse_path_component`: the name, and the path behind it. -/
def parse_path_component (path : List UInt8) : List UInt8 × List UInt8 :=
  copy_component 0 (path.dropWhile (· = slash))

theorem copy_component_length (len : ℕ) (p : List UInt8) :
    (copy_component len p).1.length + (copy_component len p).2.length = p.length := by
  induction p generalizing len with
  | nil => rfl
  | cons c p ih =>
    have := ih (len + 1)
    rw [copy_component]
    split
    · simp only [List.length_cons]
      omega
    · simp

/-- The cursor gets ahead: over a slash, or over a character of the name. -/
theorem parse_path_component_lt {c : UInt8} {p : List UInt8} (hc : c ≠ 0) :
    (parse_path_component (c :: p)).2.length < (c :: p).length := by
  have hdrop := (List.dropWhile_suffix (fun c => c = slash) (l := p)).length_le
  by_cases hs : c = slash
  · have hlen := copy_component_length 0 (p.dropWhile (· = slash))
    rw [parse_path_component, List.dropWhile_cons_of_pos (by simpa using hs), List.length_cons]
    omega
  · have hlen := copy_component_length 1 p
    rw [parse_path_component, List.dropWhile_cons_of_neg (by simpa using hs), copy_component,
      if_pos ⟨hc, hs, by decide⟩, List.length_cons]
    show (copy_component 1 p).2.length < p.length + 1
    omega

/-! ## Directories -/

/-- The string `de_name`: the name of the entry at `de`, which ends at the first 0. -/
def de_name (buf : Mem) (de : ℕ) : List UInt8 :=
  (List.range (buf.load (de + 6) 1)).map fun i => buf (de + 8 + i)

/-- The scan of one block of a directory from `de` on: the inode of the entry `name`, or
`none` where the block has no such entry. -/
def scan_block (block_size : ℕ) (buf : Mem) (name : List UInt8) (de : ℕ) :
    Except Stop (Option ℕ) :=
  if de < block_size then
    if buf.load de 4 ≠ 0 ∧ buf.load (de + 6) 1 ≠ 0 ∧ strcmp (de_name buf de) name = 0 then
      .ok (some (buf.load de 4))
    else if buf.load (de + 4) 2 = 0 then
      -- `de` stays where it is
      .error .stuck
    else scan_block block_size buf name (de + buf.load (de + 4) 2)
  else .ok none
termination_by block_size - de

/-- The loop of `find_dir_entry` over the direct blocks. -/
def find_in_blocks (block_size : ℕ) (name : List UInt8) : List ℕ → Option Mem → DiskProg ℕ
  | [], _ => .stop (.err (-1))
  | b :: bs, block_buf =>
    if b = 0 then .stop (.err (-1))
    else do
      let r ← read_block b block_buf
      match scan_block block_size r.2 name 0 with
      | .error e => .stop e
      | .ok (some ino) => .ret ino
      | .ok none => find_in_blocks block_size name bs (some r.2)

/-- `find_dir_entry`. -/
def find_dir_entry (fs : ext2_fs) (dir : ext2_inode) (name : List UInt8) : DiskProg ℕ :=
  find_in_blocks fs.block_size name ((List.range 12).map dir.i_block) none

/-- The loop of `ext2_path_lookup`. -/
def lookup_loop (fs : ext2_fs) : List UInt8 → ext2_inode → DiskProg ext2_inode
  | [], current_inode => .ret current_inode
  | c :: p, current_inode =>
    if hc : c = 0 then .ret current_inode
    else
      let r := parse_path_component (c :: p)
      have : r.2.length < (c :: p).length := parse_path_component_lt hc
      if r.1.length = 0 then lookup_loop fs r.2 current_inode
      else if current_inode.i_mode &&& EXT2_S_IFDIR = 0 then .stop (.err (-ENOTDIR))
      else do
        let next_ino ← find_dir_entry fs current_inode r.1
        let next_inode ← ext2_get_inode fs next_ino
        lookup_loop fs r.2 next_inode
termination_by path => path.length
decreasing_by all_goals exact this

/-- `ext2_path_lookup`; it writes `result` right before it returns 0. -/
def ext2_path_lookup (fs : ext2_fs) (path : List UInt8) : DiskProg ext2_inode := do
  let current_inode ← ext2_get_inode fs EXT2_ROOT_INO
  if path.headD 0 = 0 then .ret current_inode
  else lookup_loop fs path current_inode

/-- What the caller of a function gets: the returned value, and what is in `result`. -/
def returns {α : Type} (result : α) : Except Stop α → Option (ℤ × α)
  | .ok a => some (0, a)
  | .error (.err ret) => some (ret, result)
  | .error .stuck => none

/-! ## Files -/

/-- An index array on the stack, filled from the block `b`. -/
def read_index (b : ℕ) : DiskProg Mem := do
  let r ← read_block b none
  .ret r.2

/-- `get_physical_block`. -/
def get_physical_block (block_size : ℕ) (inode : ext2_inode) (logical_block : ℕ) :
    DiskProg ℕ := do
  let ptrs_per_block := block_size / 4
  if logical_block < 12 then .ret (inode.i_block logical_block)
  else
    let logical_block := logical_block - 12
    if logical_block < ptrs_per_block then do
      let buffer ← read_index (inode.i_block 12)
      .ret (buffer.load (4 * logical_block) 4)
    else
      let logical_block := logical_block - ptrs_per_block
      if logical_block < ptrs_per_block * ptrs_per_block % 4294967296 then do
        let first_level ← read_index (inode.i_block 13)
        let second_level ← read_index (first_level.load (4 * (logical_block / ptrs_per_block)) 4)
        .ret (second_level.load (4 * (logical_block % ptrs_per_block)) 4)
      else
        let logical_block := logical_block - ptrs_per_block * ptrs_per_block % 4294967296
        let idx1 := logical_block / (ptrs_per_block * ptrs_per_block % 4294967296)
        let idx2 := logical_block / ptrs_per_block % ptrs_per_block
        let first_level ← read_index (inode.i_block 14)
        let second_level ← read_index (first_level.load (4 * idx1) 4)
        let third_level ← read_index (second_level.load (4 * idx2) 4)
        .ret (third_level.load (4 * (logical_block % ptrs_per_block)) 4)

/-- The loop of `ext2_fread`: `buf` and the number of bytes read. -/
def fread_loop (block_size : ℕ) (inode : ext2_inode) (count : ℕ) (buf : Mem) (bytes_read : ℕ) :
    DiskProg (Mem × ℕ) :=
  if hlt : bytes_read < count then
    if h0 : block_size = 0 then .stop .stuck
    else
      let current_block := bytes_read / block_size
      let block_offset := bytes_read % block_size
      let bytes_to_copy := min (block_size - block_offset) (count - bytes_read)
      have : count - (bytes_read + bytes_to_copy) < count - bytes_read := by
        have := Nat.mod_lt bytes_read (Nat.pos_of_ne_zero h0)
        omega
      do
        let phys_block ← get_physical_block block_size inode current_block
        if phys_block = 0 then
          fread_loop block_size inode count (buf.fill bytes_read bytes_to_copy 0)
            (bytes_read + bytes_to_copy)
        else do
          let r ← read_block phys_block none
          fread_loop block_size inode count
            (buf.put bytes_read bytes_to_copy fun i => r.2 (block_offset + i))
            (bytes_read + bytes_to_copy)
  else .ret (buf, bytes_read)
termination_by count - bytes_read

/-- `ext2_fread`: `buf` and `*size`. It reads from the start of the file. -/
def ext2_fread (block_size : ℕ) (inode : ext2_inode) (buf : Mem) (count : ℕ) :
    DiskProg (Mem × ℕ) :=
  fread_loop block_size inode (min count inode.i_size) buf 0

end Loos.Ext2
