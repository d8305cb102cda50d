/-
`lolibc/stdlib.c`: `malloc` and `free`.

A chunk is a header of two words, the link of its free list and the size of the
last request it served, followed by the data that `malloc` returns. Small
chunks go to one of eleven bins by `size / 15`, all others to one list that is
searched for a chunk that fits. New chunks are cut from pages of `kmalloc`.

`size_t` is 64 bits wide and wraps, and so do the two sums `malloc` makes with
it.
-/
import Loos.Mm

set_option autoImplicit false

namespace Loos.Stdlib

open SysLib Kern

/-! ## The code -/

/-- `PG_SIZE` -/
abbrev PG_SIZE : ℕ := PGSIZE

/-- The machine and the variables of the allocator. -/
structure Heap where
  kern : Kern
  fastbin : ℕ → ℕ
  unsorted_bin : ℕ
  p_start : ℕ
  p_end : ℕ

/-- The allocator before its first call. -/
def Heap.init (k : Kern) : Heap := ⟨k, fun _ => 0, 0, 0, 0⟩

/-- `chunk_info_size` -/
abbrev chunk_info_size : ℕ := 16

/-- `chunk->next` -/
def next (m : Mem) (chunk : ℕ) : ℕ := m.load64 chunk

/-- `chunk->size` -/
def chunkSize (m : Mem) (chunk : ℕ) : ℕ := m.load64 (chunk + 8)

/-- `apply_alloc`; `none` is `panic`. -/
def apply_alloc (h : Heap) (size : ℕ) : Option (ℕ × Heap) :=
  if size > PG_SIZE then none
  else if h.p_start + size ≥ h.p_end then
    (kmalloc h.kern PG_SIZE).map fun r =>
      (r.1, { h with kern := r.2, p_start := r.1 + size, p_end := r.1 + PG_SIZE })
  else some (h.p_start, { h with p_start := h.p_start + size })

/-- `chunk->size >= size && chunk->size < size + 128` -/
def fits (m : Mem) (size chunk : ℕ) : Prop :=
  size ≤ chunkSize m chunk ∧ chunkSize m chunk < (size + 128) % 2 ^ 64

instance (m : Mem) (size chunk : ℕ) : Decidable (fits m size chunk) :=
  inferInstanceAs (Decidable (_ ∧ _))

/-- The loop over the unsorted bin, `n` turns at most: the chunk it ends with,
and whether it left by `break`. -/
def search (m : Mem) (size : ℕ) : ℕ → ℕ → ℕ × Bool
  | 0, chunk => (chunk, false)
  | n + 1, chunk =>
    if chunk = 0 then (0, false)
    else if fits m size chunk then (chunk, true)
    else search m size n (next m chunk)

/-- The chunk for a request of at least `0xa0` bytes. -/
def large_chunk (h : Heap) (size : ℕ) : Option (ℕ × Heap) :=
  let found := search h.kern.mem size 100 h.unsorted_bin
  let h := if found.2 then { h with unsorted_bin := next h.kern.mem h.unsorted_bin } else h
  if found.1 = 0 ∨ ¬ fits h.kern.mem size found.1 then
    apply_alloc h ((size + chunk_info_size) % 2 ^ 64)
  else some (found.1, h)

/-- The chunk for a smaller request. -/
def small_chunk (h : Heap) (size : ℕ) : Option (ℕ × Heap) :=
  let index := size / 0xF
  let chunk := h.fastbin index
  if chunk ≠ 0 then
    some (chunk, { h with fastbin := Function.update h.fastbin index (next h.kern.mem chunk) })
  else
    let fix_size := size + 0xF &&& (2 ^ 64 - 0x10)
    apply_alloc h (fix_size + chunk_info_size)

/-- `malloc`; the pointer `0` is `NULL`. -/
def malloc (h : Heap) (size : ℕ) : Option (ℕ × Heap) :=
  (if size ≥ 0xa0 then large_chunk h size else small_chunk h size).map fun r =>
    if r.1 = 0 then (0, r.2)
    else (r.1 + chunk_info_size, { r.2 with kern := r.2.kern.write (r.1 + 8) size })

/-- `free` -/
def free (h : Heap) (ptr : ℕ) : Heap :=
  let chunk := (ptr + 2 ^ 64 - chunk_info_size) % 2 ^ 64
  let size := chunkSize h.kern.mem chunk
  if size ≥ 0xa0 then
    { h with kern := h.kern.write chunk h.unsorted_bin, unsorted_bin := chunk }
  else
    let index := size / 0xF
    { h with
      kern := h.kern.write chunk (h.fastbin index)
      fastbin := Function.update h.fastbin index chunk }

-- an address modulo `2^64` is nothing a unifier should compute
attribute [irreducible] free

theorem fix_size_eq {size : ℕ} (h : size < 0xa0) :
    size + 0xF &&& (2 ^ 64 - 0x10) = (size + 0xF) / 16 * 16 := by
  rw [show (2 : ℕ) ^ 64 - 0x10 = (2 ^ 60 - 1) * 2 ^ 4 by norm_num, and_field_mask]
  omega

/-! ## Room -/

/-- The data bytes of a chunk cut for a request of `r` bytes. -/
def room (r : ℕ) : ℕ := if r < 0xa0 then (r + 0xF) / 16 * 16 else r

theorem le_room (r : ℕ) : r ≤ room r := by
  unfold room
  split <;> omega

/-- **When a recycled small chunk has room.** A chunk cut for `r` bytes serves a
request of `size` bytes of the same bin if and only if the bin is one whose
sizes round alike up to `size`, or `r` itself rounds up that far. -/
theorem le_room_iff {r size : ℕ} (hs : size < 0xa0) (hr : r < 0xa0) (hbin : r / 0xF = size / 0xF) :
    size ≤ room r ↔ size ≤ 16 * (size / 0xF) ∨ 16 * (size / 0xF) < r := by
  rw [room, if_pos hr]
  omega

end Loos.Stdlib
