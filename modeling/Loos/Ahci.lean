/-
The disk: the reads of `src/driver/ahci.c`, and `read_block` of `src/fs/ext2.c`.

What the controller does is a parameter. A call of `do_ahci_read` either brings the
sectors into the buffer, or it returns -1, and then there may be anything in the
buffer: what was there before, or a part of the sectors.

A read goes through `ahci_buf`. `ahci_read` copies it whatever `do_ahci_read`
returned; `read_block` does not look at what `ahci_read` returns. It counts in
blocks of `BLOCK_SIZE` bytes, and in 32 bits.
-/
import Loos.Lib.ByteMem

set_option autoImplicit false

namespace Loos.Ahci

open SysLib

def BLOCK_SIZE : ℕ := 1024

/-- What a call of `do_ahci_read` comes to; when it fails, `left` is in the buffer. -/
inductive Outcome where
  | done
  | failed (left : Mem)

/-- The disk and its driver. The calls of `do_ahci_read` are counted; `stack` is what an
array on the stack holds that has not been written yet. -/
structure Dev where
  disk : Mem
  ahci_buf : Mem
  outcomes : ℕ → Outcome
  stack : ℕ → Mem
  calls : ℕ

namespace Dev

/-- `do_ahci_read` with the buffer `ahci_buf`. -/
def do_ahci_read (d : Dev) (start count : ℕ) : ℤ × Dev :=
  match d.outcomes d.calls with
  | .done =>
    (0, { d with
          ahci_buf := d.ahci_buf.put 0 (count * 512) fun i => d.disk (start * 512 + i)
          calls := d.calls + 1 })
  | .failed left => (-1, { d with ahci_buf := left, calls := d.calls + 1 })

/-- `ahci_read`; its second result is `buf`. -/
def ahci_read (d : Dev) (start count : ℕ) (buf : Mem) : ℤ × Mem × Dev :=
  let r := d.do_ahci_read start count
  (r.1, buf.put 0 (count * 512) r.2.ahci_buf, r.2)

/-- `read_block`: the product is one of `uint32_t`. -/
def read_block (d : Dev) (block_offset : ℕ) (buf : Mem) : (ℤ × Mem) × Dev :=
  let r := d.ahci_read (block_offset * (BLOCK_SIZE / 512) % 4294967296) (BLOCK_SIZE / 512) buf
  ((0, r.2.1), r.2.2)

/-! ## What a read delivers -/

variable (d : Dev)

/-- The bytes that the next call leaves in `ahci_buf` for the block `n`. -/
def delivers (n : ℕ) : Mem :=
  match d.outcomes d.calls with
  | .done => fun i => d.disk (n * 2 % 4294967296 * 512 + i)
  | .failed left => left

/-- `read_block` returns 0, with the first 1024 bytes of its buffer written. -/
theorem read_block_fst (n : ℕ) (buf : Mem) :
    (d.read_block n buf).1 = (0, buf.put 0 1024 (d.delivers n)) := by
  refine Prod.ext rfl ?_
  funext x
  simp only [read_block, ahci_read, do_ahci_read, delivers, BLOCK_SIZE, Mem.put]
  cases d.outcomes d.calls with
  | done =>
    by_cases hx : x < 1024
    · simp [hx, Mem.put]
    · simp [hx]
  | failed left => rfl

/-- A read leaves the disk, the outcomes to come and the stack. -/
theorem read_block_snd (n : ℕ) (buf : Mem) :
    (d.read_block n buf).2.disk = d.disk ∧ (d.read_block n buf).2.outcomes = d.outcomes ∧
      (d.read_block n buf).2.stack = d.stack ∧ (d.read_block n buf).2.calls = d.calls + 1 := by
  simp only [read_block, ahci_read, do_ahci_read]
  cases d.outcomes d.calls with
  | done => exact ⟨rfl, rfl, rfl, rfl⟩
  | failed left => exact ⟨rfl, rfl, rfl, rfl⟩

end Dev

end Loos.Ahci
