/-
`mm/mm.c`: `kmalloc` and `kfree`, over the list of free pages.

Everything above the page allocator uses it through these two functions, so
from here on the free list is a list: `pages` is what following the links from
`kmem.freelist` gives. [`kmalloc_refines`] and [`kfree_refines`] connect the
list to the links in memory of `Memblock`.

Running out of pages is `panic`, which halts the machine: `none`. `memset` and
`memmove` are their closed forms, which the loops compute ([`string_loops`]).
-/
import Loos.Memblock
import Loos.Cstring

set_option autoImplicit false

namespace Loos

open SysLib

/-- The memory and the free pages, in the order in which `kmalloc` returns them. -/
structure Kern where
  mem : Mem
  pages : List ℕ

namespace Kern

/-- `kmalloc`; every request gets a whole page. -/
def kmalloc (k : Kern) (size : ℤ) : Option (ℕ × Kern) :=
  if size > PGSIZE then none
  else match k.pages with
    | [] => none
    | r :: rest => some (r, { mem := k.mem.fill r PGSIZE 5, pages := rest })

/-- `kfree`; an unaligned address is `panic`. -/
def kfree (k : Kern) (paddr : ℕ) : Option Kern :=
  if paddr % PGSIZE = 0 then
    some { mem := (k.mem.fill paddr PGSIZE 1).store64 paddr (k.pages.headD 0),
           pages := paddr :: k.pages }
  else none

/-- `k.mem` after `memset(a, c, n)`. -/
def memset (k : Kern) (a : ℕ) (c : UInt8) (n : ℕ) : Kern := { k with mem := k.mem.fill a n c }

/-- `k.mem` after `memmove(dst, src, n)`. -/
def memmove (k : Kern) (dst src n : ℕ) : Kern := { k with mem := k.mem.copy dst src n }

/-- `*(uint64_t*)a = v` -/
def write (k : Kern) (a v : ℕ) : Kern := { k with mem := k.mem.store64 a v }

@[simp] theorem memset_pages (k : Kern) (a : ℕ) (c : UInt8) (n : ℕ) :
    (k.memset a c n).pages = k.pages := rfl

@[simp] theorem memset_mem (k : Kern) (a : ℕ) (c : UInt8) (n : ℕ) :
    (k.memset a c n).mem = k.mem.fill a n c := rfl

/-- The byte loops of `string.c` compute the two closed forms. -/
theorem string_loops (k : Kern) (a src n : ℕ) (c : UInt8) :
    (k.memset a c n).mem = Cstring.memset n k.mem a c ∧
      (k.memmove a src n).mem = Cstring.memmove k.mem a src n :=
  ⟨(Cstring.memset_eq n k.mem a c).symm, (Cstring.memmove_eq k.mem a src n).symm⟩

@[simp] theorem write_pages (k : Kern) (a v : ℕ) : (k.write a v).pages = k.pages := rfl

@[simp] theorem write_mem (k : Kern) (a v : ℕ) : (k.write a v).mem = k.mem.store64 a v := rfl

/-- The pages that left the free list between `k` and `k'`. -/
def taken (k k' : Kern) : List ℕ := k.pages.take (k.pages.length - k'.pages.length)

variable {k k' : Kern} {p : ℕ} {size : ℤ}

theorem taken_eq {N : List ℕ} (h : k.pages = N ++ k'.pages) : taken k k' = N := by
  rw [taken, h, List.length_append, Nat.add_sub_cancel, List.take_left]

/-- All that a successful `kmalloc` does. -/
theorem kmalloc_eq_some (h : kmalloc k size = some (p, k')) :
    k.pages = p :: k'.pages ∧ k'.mem = k.mem.fill p PGSIZE 5 := by
  unfold kmalloc at h
  split at h
  · cases h
  · split at h
    · cases h
    · next r rest heq =>
      obtain ⟨rfl, rfl⟩ : r = p ∧ _ = k' := by simpa using h
      exact ⟨heq, rfl⟩

theorem kmalloc_of_cons {rest : List ℕ} (hs : size ≤ PGSIZE) (h : k.pages = p :: rest) :
    kmalloc k size = some (p, { mem := k.mem.fill p PGSIZE 5, pages := rest }) := by
  rw [kmalloc, if_neg (by omega), h]

theorem kfree_of_aligned (h : p % PGSIZE = 0) :
    kfree k p = some { mem := (k.mem.fill p PGSIZE 1).store64 p (k.pages.headD 0),
                       pages := p :: k.pages } := by
  rw [kfree, if_pos h]

/-- The free pages are whole pages of the window, and neither repeated nor among `T`. -/
structure Fresh (k : Kern) (T : List ℕ) : Prop where
  nodup : (T ++ k.pages).Nodup
  kpage : ∀ p ∈ k.pages, KPage p

section Fresh

variable {T T' N : List ℕ}

/-- Pages from 2 GiB on, `d` bytes apart. -/
theorem fresh_row {m : Mem} {n d : ℕ} (hn : n ≤ 2 ^ 16) (hd : d % PGSIZE = 0) (hpos : 0 < d)
    (hle : d ≤ 2 ^ 15) :
    Fresh ⟨m, (List.range n).map fun i => MAIN_KERNEL_DMW ||| (0x80000000 + i * d)⟩ [] := by
  have hbound : ∀ i < n, i * d ≤ 2 ^ 31 := by
    intro i hi
    have := Nat.mul_le_mul (show i ≤ 2 ^ 16 by omega) hle
    omega
  have hpage : ∀ i < n, MAIN_KERNEL_DMW ||| (0x80000000 + i * d) =
      MAIN_KERNEL_DMW + (0x80000000 + i * d) := by
    intro i hi
    have := hbound i hi
    apply dmw_or
    omega
  refine ⟨?_, ?_⟩
  · apply List.Nodup.map_on _ List.nodup_range
    intro i hi j hj he
    rw [hpage i (List.mem_range.mp hi), hpage j (List.mem_range.mp hj)] at he
    apply Nat.eq_of_mul_eq_mul_right hpos
    omega
  · intro x hx
    obtain ⟨i, hi, rfl⟩ := List.mem_map.mp hx
    have hi := List.mem_range.mp hi
    have hlow := hbound i hi
    have hmod : i * d % PGSIZE = 0 := by
      rw [Nat.mul_mod, hd, Nat.mul_zero, Nat.zero_mod]
    unfold PGSIZE at hmod
    refine ⟨⟨_, by omega, by omega, rfl⟩, ?_⟩
    rw [hpage i hi]
    unfold MAIN_KERNEL_DMW PGSIZE
    omega

theorem Fresh.perm (h : Fresh k T) (hp : T.Perm T') : Fresh k T' :=
  ⟨(hp.append_right k.pages).nodup_iff.mp h.nodup, h.kpage⟩

theorem Fresh.of_pages (h : Fresh k T) (hp : k.pages = N ++ k'.pages) : Fresh k' (T ++ N) := by
  obtain ⟨hnd, hk⟩ := h
  rw [hp] at hnd hk
  exact ⟨by rwa [List.append_assoc], fun p hp => hk p (List.mem_append_right N hp)⟩

end Fresh

/-! ## Refinement of the list by the links in memory -/

/-- The allocator's memory state `b` represents `k`. -/
structure Refines (b : Memblock.Kmem) (k : Kern) : Prop where
  mem : b.mem = k.mem
  list : Memblock.FreeList b k.pages
  word : b.freelist < 2 ^ 64
  aligned : ∀ p ∈ k.pages, p % PGSIZE = 0

variable {b : Memblock.Kmem}

/-- The head of the list is the head of the links. -/
theorem Refines.freelist_eq (h : Refines b k) : b.freelist = k.pages.headD 0 := by
  have hl := h.list
  unfold Memblock.FreeList at hl
  cases hp : k.pages with
  | nil => simpa [hp] using hl
  | cons q rest =>
    rw [hp] at hl
    exact hl.1

/-- `kmalloc` on the list is `kalloc_page_memblock` on the links. -/
theorem kmalloc_refines (h : Refines b k) (hs : size ≤ PGSIZE) :
    (kmalloc k size = none ∧ Memblock.kalloc_page_memblock b = none) ∨
    ∃ p k' b', kmalloc k size = some (p, k') ∧
      Memblock.kalloc_page_memblock b = some (p, b') ∧ Refines b' k' := by
  obtain ⟨hmem, hl, hw, hal⟩ := h
  cases hp : k.pages with
  | nil =>
    rw [hp] at hl
    exact .inl ⟨by rw [kmalloc, if_neg (by omega), hp],
      by rw [Memblock.kalloc_page_memblock, if_pos (show b.freelist = 0 from hl)]⟩
  | cons p rest =>
    rw [hp] at hl hal
    obtain ⟨b', hb', hl', hw'⟩ := Memblock.kalloc_freeList hl hal
    refine .inr ⟨p, _, b', kmalloc_of_cons hs hp, hb', ?_, hl', hw',
      fun q hq => hal q (List.mem_cons_of_mem p hq)⟩
    have hfl : b.freelist = p := hl.1
    have hp0 : p ≠ 0 := hl.2.1
    rw [Memblock.kalloc_page_memblock, if_neg (by rw [hfl]; exact hp0)] at hb'
    rw [← (Prod.mk.inj (Option.some.inj hb')).2, hfl, hmem]

/-- `kfree` on the list is `kfree_page_memblock` on the links. -/
theorem kfree_refines (h : Refines b k) (hal : p % PGSIZE = 0) (hp0 : p ≠ 0) (hp : p ∉ k.pages)
    (hp64 : p < 2 ^ 64) :
    ∃ k', kfree k p = some k' ∧ Refines (Memblock.kfree_page_memblock b p) k' := by
  refine ⟨_, kfree_of_aligned hal, ?_, ?_, hp64, ?_⟩
  · simp only [Memblock.kfree_page_memblock, h.mem, h.freelist_eq]
  · exact Memblock.kfree_freeList h.list h.aligned hal hp0 hp h.word
  · intro q hq
    rcases List.mem_cons.mp hq with rfl | hq
    exacts [hal, h.aligned q hq]

end Kern

end Loos
