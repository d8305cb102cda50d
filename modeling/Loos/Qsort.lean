/-
`lolibc/string.c`: `qsort`.

The first element is the pivot. Two cursors move inwards from behind it and from the end, past
what is on its side, and exchange what is not. Where they cross, the pivot goes to the upper one's
place, and the parts on its two sides are sorted. An exchange goes through a buffer of `malloc`.
-/
import Loos.Lib.Loop
import Loos.Lib.Partition
import Loos.Memmove
import Loos.Stdlib

set_option autoImplicit false

namespace Loos.Qsort

open SysLib
open Memmove (memcpy)
open Stdlib (Heap malloc free small_chunk next chunkSize chunk_info_size)

/-! ## The code -/

/-- `int (*compar)(const void *, const void *)`, which reads the memory and changes nothing. -/
abbrev Compar := Mem → ℕ → ℕ → ℤ

/-- The sum of the machine. -/
def plus (a b : ℕ) : ℕ := (a + b) % 2 ^ 64

/-- The difference of the machine. -/
def minus (a b : ℕ) : ℕ := (a + 2 ^ 64 - b) % 2 ^ 64

/-- The heap with another memory. -/
def withMem (h : Heap) (m : Mem) : Heap := { h with kern := { h.kern with mem := m } }

/-- The exchange of two elements, which the code has twice. -/
def exchange (h : Heap) (size a b : ℕ) : Option Heap :=
  (malloc h size).map fun r =>
    let temp := r.1
    let m := memcpy size r.2.kern.mem temp a
    let m := memcpy size m a b
    let m := memcpy size m b temp
    free (withMem r.2 m) temp

/-- The first inner loop: to an element above the pivot. -/
def seek_left (compar : Compar) (m : Mem) (size pivot right : ℕ) : ℕ → ℕ → Option ℕ :=
  loop (fun left => decide (left ≤ right ∧ compar m left pivot ≤ 0))
    fun left => some (plus left size)

/-- The second inner loop: to an element that is not above it. -/
def seek_right (compar : Compar) (m : Mem) (size pivot left : ℕ) : ℕ → ℕ → Option ℕ :=
  loop (fun right => decide (left ≤ right ∧ compar m right pivot > 0))
    fun right => some (minus right size)

/-- The memory, and the two cursors. -/
structure Cursors where
  heap : Heap
  left : ℕ
  right : ℕ

/-- A turn of the outer loop. -/
def turn (compar : Compar) (size pivot n : ℕ) (s : Cursors) : Option Cursors :=
  (seek_left compar s.heap.kern.mem size pivot s.right n s.left).bind fun left =>
    (seek_right compar s.heap.kern.mem size pivot left n s.right).bind fun right =>
      if left < right then
        (exchange s.heap size left right).map fun h => ⟨h, plus left size, minus right size⟩
      else some ⟨s.heap, left, right⟩

/-- `qsort`, for `n` levels of calls and at most `n` turns of a loop. -/
def qsort (compar : Compar) : ℕ → ℕ → ℕ → ℕ → Heap → Option Heap
  | 0, _, _, _, _ => none
  | n + 1, base, num, size, h =>
    if num ≤ 1 then some h
    else
      (loop (fun s : Cursors => decide (s.left ≤ s.right)) (turn compar size base n) n
        ⟨h, plus base size, plus base ((num - 1) * size)⟩).bind fun s =>
        (exchange s.heap size base s.right).bind fun h =>
          let left_size := minus s.right base / size
          let right_size := minus num (left_size + 1)
          (qsort compar n base left_size size h).bind
            (qsort compar n (plus s.right size) right_size size)

/-! ## The array and what is assumed -/

/-- The bytes of an element. -/
def element (m : Mem) (a size : ℕ) : List UInt8 := (List.range size).map fun i => m (a + i)

/-- The elements of the array. -/
def elements (m : Mem) (base num size : ℕ) : List (List UInt8) :=
  (List.range num).map fun k => element m (base + k * size) size

/-- **`malloc` returns a private buffer of `size` bytes.** The bytes `own` are those of the
allocator: its buffers are among them, and it writes to no others. Whatever is stored in the buffer
and at the other addresses, it is so again when the buffer is free. -/
structure PrivateBuffers (own : ℕ → Prop) (ok : Heap → Prop) (size : ℕ) : Prop where
  malloc : ∀ h, ok h → ∃ p h', malloc h size = some (p, h') ∧ p + size ≤ 2 ^ 64 ∧
    (∀ i < size, own (p + i)) ∧ (∀ x, ¬ own x → h'.kern.mem x = h.kern.mem x) ∧
    ∀ m, (∀ x, own x → x < p ∨ p + size ≤ x → m x = h'.kern.mem x) →
      ok (free (withMem h' m) p) ∧ ∀ x, ¬ own x → (free (withMem h' m) p).kern.mem x = m x

/-- No byte is changed but those of the array and of the allocator. -/
def Elsewhere (own : ℕ → Prop) (base num size : ℕ) (m m' : Mem) : Prop :=
  ∀ x, x < base ∨ base + num * size ≤ x → ¬ own x → m' x = m x

/-- **`compar` is a total preorder of the elements**, however they are arranged. It may read
what else there is in memory. -/
structure Compares (compar : Compar) (le : List UInt8 → List UInt8 → Prop) (own : ℕ → Prop)
    (base num size : ℕ) (m₀ : Mem) : Prop where
  compar_iff : ∀ m, Elsewhere own base num size m₀ m → ∀ i < num, ∀ j < num,
    (compar m (base + i * size) (base + j * size) ≤ 0 ↔
      le (element m (base + i * size) size) (element m (base + j * size) size))
  preorder : PreorderOn (· ∈ elements m₀ base num size) le

/-- What `qsort` is called with. -/
structure Setting (compar : Compar) (le : List UInt8 → List UInt8 → Prop) (own : ℕ → Prop)
    (ok : Heap → Prop) (base num size : ℕ) (m₀ : Mem) : Prop where
  size_pos : 0 < size
  bound : base + num * size < 2 ^ 64
  buffers : PrivateBuffers own ok size
  not_own : ∀ x, base ≤ x → x < base + num * size → ¬ own x
  compares : Compares compar le own base num size m₀

variable {compar : Compar} {le : List UInt8 → List UInt8 → Prop} {own : ℕ → Prop}
  {ok : Heap → Prop} {base num size lo hi i j n a b : ℕ} {m m₀ : Mem} {h h₀ : Heap} {s : Cursors}

/-! ## A chunk in its bin -/

/-- `malloc` has private buffers as long as there is a chunk in the bin: it is taken for each
buffer, and `free` puts it back. -/
theorem bin_private {c : ℕ} (hc : c ≠ 0) (hsize : size < 0xa0)
    (hbound : c + chunk_info_size + size ≤ 2 ^ 64) :
    PrivateBuffers (fun x => c ≤ x ∧ x < c + chunk_info_size + size)
      (fun h => h.fastbin (size / 0xF) = c) size := by
  unfold chunk_info_size at *
  refine ⟨fun h hbin => ?_⟩
  have hsmall : small_chunk h size = some (c, { h with
      fastbin := Function.update h.fastbin (size / 0xF) (next h.kern.mem c) }) := by
    simp only [small_chunk, hbin, ne_eq, hc, not_false_eq_true, if_true]
  refine ⟨c + 16, _, by rw [malloc, if_neg (by omega), hsmall, Option.map_some, if_neg hc],
    hbound, fun i hi => ⟨by omega, by omega⟩, fun x hx => ?_, fun m hm => ?_⟩
  · exact Mem.store64_apply_of_disjoint (by omega)
  · have hchunk : (c + 16 + 2 ^ 64 - 16) % 2 ^ 64 = c := by omega
    have hhead : chunkSize m c = size := by
      have hload := Mem.load64_congr (m := m) (a := c + 8) fun x h1 h2 =>
        hm x (by omega) (by omega)
      rw [chunkSize, hload]
      exact Mem.load64_store64_same (by omega)
    have hlarge : ¬ chunkSize m c ≥ 0xa0 := by omega
    rw [Stdlib.free, chunk_info_size, hchunk, withMem, if_neg hlarge, hhead]
    exact ⟨Function.update_self .., fun x hx => Mem.store64_apply_of_disjoint (by omega)⟩

/-! ## Addresses -/

theorem plus_eq (h : a + b < 2 ^ 64) : plus a b = a + b := Nat.mod_eq_of_lt h

theorem minus_eq (hle : b ≤ a) (ha : a < 2 ^ 64) : minus a b = a - b := by
  rw [minus, show a + 2 ^ 64 - b = a - b + 2 ^ 64 by omega, Nat.add_mod_right]
  exact Nat.mod_eq_of_lt (by omega)

/-- An element ends before the next one. -/
theorem mul_add_le (size : ℕ) (hij : i < j) : i * size + size ≤ j * size := by
  rw [← Nat.succ_mul]
  exact Nat.mul_le_mul_right size hij

theorem addr_le_iff {base : ℕ} (hsize : 0 < size) : base + i * size ≤ base + j * size ↔ i ≤ j := by
  rw [Nat.add_le_add_iff_left, Nat.mul_le_mul_right_iff hsize]

theorem addr_lt_iff (hsize : 0 < size) : base + i * size < base + j * size ↔ i < j := by
  rw [Nat.add_lt_add_iff_left, Nat.mul_lt_mul_right hsize]

/-- The number of elements between two addresses. -/
theorem addr_sub_div (hsize : 0 < size) :
    (base + j * size - (base + i * size)) / size = j - i := by
  rw [Nat.add_sub_add_left, ← Nat.sub_mul, Nat.mul_div_cancel _ hsize]

/-! ## An exchange -/

/-- Three copies through a buffer exchange two ranges, which may be one. -/
theorem three_copies {p x : ℕ} (hpa : p + size ≤ a ∨ a + size ≤ p)
    (hpb : p + size ≤ b ∨ b + size ≤ p) (hab : a = b ∨ a + size ≤ b ∨ b + size ≤ a)
    (hxp : x < p ∨ p + size ≤ x) : (((m.copy p a size).copy a b size).copy b p size) x =
      if a ≤ x ∧ x < a + size then m (b + (x - a))
      else if b ≤ x ∧ x < b + size then m (a + (x - b)) else m x := by
  by_cases hxb : b ≤ x ∧ x < b + size
  · -- the range `b` has what the buffer holds, the first range
    obtain ⟨i, rfl⟩ := Nat.exists_eq_add_of_le hxb.1
    rw [Mem.copy_apply_of_mem (by omega), Mem.copy_apply_of_disjoint (by omega),
      Mem.copy_apply_of_mem (by omega), Nat.add_sub_cancel_left]
    by_cases hxa : a ≤ b + i ∧ b + i < a + size
    · obtain rfl : a = b := by omega
      rw [if_pos hxa, Nat.add_sub_cancel_left]
    · rw [if_neg hxa, if_pos hxb]
  · rw [Mem.copy_apply_of_disjoint (by omega), if_neg hxb]
    by_cases hxa : a ≤ x ∧ x < a + size
    · obtain ⟨i, rfl⟩ := Nat.exists_eq_add_of_le hxa.1
      rw [if_pos hxa, Mem.copy_apply_of_mem (by omega), Mem.copy_apply_of_disjoint (by omega),
        Nat.add_sub_cancel_left]
    · rw [if_neg hxa, Mem.copy_apply_of_disjoint (by omega), Mem.copy_apply_of_disjoint hxp]

/-- Two elements of the array are exchanged, and nothing else is but bytes of the allocator. -/
theorem exchange_spec (hbuf : PrivateBuffers own ok size) (hok : ok h) (hsize : 0 < size)
    (ha : a + size ≤ 2 ^ 64) (hb : b + size ≤ 2 ^ 64)
    (haown : ∀ x, a ≤ x → x < a + size → ¬ own x) (hbown : ∀ x, b ≤ x → x < b + size → ¬ own x)
    (hab : a = b ∨ a + size ≤ b ∨ b + size ≤ a) :
    ∃ h', exchange h size a b = some h' ∧ ok h' ∧ ∀ x, ¬ own x → h'.kern.mem x =
      if a ≤ x ∧ x < a + size then h.kern.mem (b + (x - a))
      else if b ≤ x ∧ x < b + size then h.kern.mem (a + (x - b)) else h.kern.mem x := by
  obtain ⟨p, h₁, hp, hpbound, hpown, hmem, hfree⟩ := hbuf.malloc h hok
  -- the buffer is off both elements
  have hoff : ∀ c, (∀ x, c ≤ x → x < c + size → ¬ own x) → p + size ≤ c ∨ c + size ≤ p := by
    intro c hc
    by_contra hmeet
    exact hc (p + (max p c - p)) (by omega) (by omega) (hpown _ (by omega))
  have hpa := hoff a haown
  have hpb := hoff b hbown
  have hcopies : memcpy size (memcpy size (memcpy size h₁.kern.mem p a) a b) b p =
      ((h₁.kern.mem.copy p a size).copy a b size).copy b p size := by
    rw [Memmove.memcpy_eq hpbound ha, Memmove.memcpy_eq ha hb, Memmove.memcpy_eq hb hpbound,
      Cstring.memcpy_eq (by omega), Cstring.memcpy_eq (by omega), Cstring.memcpy_eq (by omega)]
  obtain ⟨hok', hmem'⟩ := hfree (((h₁.kern.mem.copy p a size).copy a b size).copy b p size) (by
    intro x hx hxp
    rw [three_copies hpa hpb hab hxp, if_neg fun hin => haown x hin.1 hin.2 hx,
      if_neg fun hin => hbown x hin.1 hin.2 hx])
  refine ⟨_, by simp only [exchange, hp, Option.map_some, hcopies], hok', fun x hx => ?_⟩
  have hxp : x < p ∨ p + size ≤ x := by
    by_contra hin
    refine hx ?_
    rw [show x = p + (x - p) by omega]
    exact hpown _ (by omega)
  rw [hmem' x hx, three_copies hpa hpb hab hxp]
  -- what is read off the allocator's bytes is what was there before `malloc`
  split_ifs with hxa hxb
  · exact hmem _ (hbown _ (by omega) (by omega))
  · exact hmem _ (haown _ (by omega) (by omega))
  · exact hmem x hx

/-! ## The elements as an array -/

/-- The array of the elements; behind its end there is nothing. -/
def content (base num size : ℕ) (m : Mem) (k : ℕ) : List UInt8 :=
  if k < num then element m (base + k * size) size else []

theorem content_of_lt {k : ℕ} (hk : k < num) :
    content base num size m k = element m (base + k * size) size := if_pos hk

theorem elements_eq : elements m base num size = (List.range num).map (content base num size m) :=
  List.map_congr_left fun _ hk => (content_of_lt (List.mem_range.mp hk)).symm

theorem element_congr {m' : Mem} (hsame : ∀ i < size, m' (b + i) = m (a + i)) :
    element m' b size = element m a size :=
  List.map_congr_left fun i hi => hsame i (List.mem_range.mp hi)

/-- An element ends within the array. -/
theorem elem_le (base size : ℕ) {k : ℕ} (hk : k < num) :
    base + k * size + size ≤ base + num * size := by
  have := mul_add_le size hk
  omega

/-- Two elements are apart. -/
theorem elem_apart (base size : ℕ) (hij : i ≠ j) :
    base + i * size + size ≤ base + j * size ∨ base + j * size + size ≤ base + i * size := by
  rcases Nat.lt_or_gt_of_ne hij with hlt | hgt
  · have := mul_add_le size hlt
    omega
  · have := mul_add_le size hgt
    omega

/-- The address behind an element. -/
theorem addr_succ {k : ℕ} : base + k * size + size = base + (k + 1) * size := by
  rw [Nat.succ_mul, Nat.add_assoc]

theorem Elsewhere.trans {m' : Mem} (h : Elsewhere own base num size m₀ m)
    (h' : Elsewhere own base num size m m') : Elsewhere own base num size m₀ m' :=
  fun x hx hxown => (h' x hx hxown).trans (h x hx hxown)

section Sorting

variable (hset : Setting compar le own ok base num size m₀)
include hset

theorem Setting.addr_lt {k : ℕ} (hk : k ≤ num) : base + k * size < 2 ^ 64 := by
  exact lt_of_le_of_lt ((addr_le_iff hset.size_pos).mpr hk) hset.bound

theorem Setting.next {k : ℕ} (hk : k < num) :
    plus (base + k * size) size = base + (k + 1) * size := by
  have := hset.addr_lt (show k + 1 ≤ num by omega)
  rw [plus_eq (by rwa [addr_succ]), addr_succ]

theorem Setting.back {k : ℕ} (hk : k < num) :
    minus (base + (k + 1) * size) size = base + k * size := by
  rw [minus_eq (by rw [← addr_succ]; omega) (hset.addr_lt (by omega)), ← addr_succ,
    Nat.add_sub_cancel]

/-- The exchange of the elements `i` and `j`. -/
theorem Setting.exchange (hok : ok h) (hi : i < num) (hj : j < num) :
    ∃ h', exchange h size (base + i * size) (base + j * size) = some h' ∧ ok h' ∧
      Elsewhere own base num size h.kern.mem h'.kern.mem ∧
      content base num size h'.kern.mem = content base num size h.kern.mem ∘ Equiv.swap i j := by
  have hpos := hset.size_pos
  have hbound := hset.bound
  have hiend := elem_le base size hi
  have hjend := elem_le base size hj
  have hown : ∀ k < num, ∀ x, base + k * size ≤ x → x < base + k * size + size → ¬ own x := by
    intro k hk x hx hx'
    have hkend := elem_le base size hk
    exact hset.not_own x (by omega) (by omega)
  have hij : base + i * size = base + j * size ∨ base + i * size + size ≤ base + j * size ∨
      base + j * size + size ≤ base + i * size := by
    rcases eq_or_ne i j with rfl | hne
    · exact .inl rfl
    · exact .inr (elem_apart base size hne)
  obtain ⟨h', hh', hok', hmem⟩ := exchange_spec hset.buffers hok hpos (by omega) (by omega)
    (hown i hi) (hown j hj) hij
  refine ⟨h', hh', hok', fun x hx hxown => ?_, funext fun k => ?_⟩
  · rw [hmem x hxown, if_neg (by omega), if_neg (by omega)]
  rw [Function.comp_apply]
  by_cases hk : k < num
  · have hkown := hown k hk
    rw [content_of_lt hk]
    by_cases hki : k = i
    · subst hki
      rw [Equiv.swap_apply_left, content_of_lt hj]
      refine element_congr fun x hx => ?_
      rw [hmem _ (hkown _ (by omega) (by omega)), if_pos (by omega), Nat.add_sub_cancel_left]
    · by_cases hkj : k = j
      · subst hkj
        rw [Equiv.swap_apply_right, content_of_lt hi]
        refine element_congr fun x hx => ?_
        have hapart := elem_apart base size hki
        rw [hmem _ (hkown _ (by omega) (by omega)), if_neg (by omega), if_pos (by omega),
          Nat.add_sub_cancel_left]
      · rw [Equiv.swap_apply_of_ne_of_ne hki hkj, content_of_lt hk]
        refine element_congr fun x hx => ?_
        have hapart := elem_apart base size hki
        have hapart' := elem_apart base size hkj
        rw [hmem _ (hkown _ (by omega) (by omega)), if_neg (by omega), if_neg (by omega)]
  · rw [content, if_neg hk, Equiv.swap_apply_of_ne_of_ne (by omega) (by omega), content, if_neg hk]

theorem Setting.compar_iff (hsame : Elsewhere own base num size m₀ m) (hi : i < num)
    (hj : j < num) : compar m (base + i * size) (base + j * size) ≤ 0 ↔
      le (content base num size m i) (content base num size m j) := by
  rw [content_of_lt hi, content_of_lt hj]
  exact hset.compares.compar_iff m hsame i hi j hj

/-! ## The loops -/

variable {lo' : ℕ}

/-- The lower cursor stops at an element above the pivot, or behind the upper one. -/
theorem Setting.seek_left (hsame : Elsewhere own base num size m₀ m) (hlo : lo < num)
    (hj : j < num) (hij : i ≤ j + 1) (hn : j + 1 - i < n)
    (hpart : Parted le (content base num size m lo) lo' hi i j (content base num size m)) :
    ∃ i', seek_left compar m size (base + lo * size) (base + j * size) n (base + i * size) =
        some (base + i' * size) ∧ i ≤ i' ∧ i' ≤ j + 1 ∧
      Parted le (content base num size m lo) lo' hi i' j (content base num size m) ∧
      (i' ≤ j → ¬ le (content base num size m i') (content base num size m lo)) := by
  have hpos := hset.size_pos
  obtain ⟨left, hleft, ⟨i', rfl, hle, hle', hpart'⟩, hexit⟩ := loop_spec
    (c := fun left => decide (left ≤ base + j * size ∧ compar m left (base + lo * size) ≤ 0))
    (f := fun left => some (plus left size)) (s := base + i * size) (n := n)
    (fun left => ∃ i', left = base + i' * size ∧ i ≤ i' ∧ i' ≤ j + 1 ∧
      Parted le (content base num size m lo) lo' hi i' j (content base num size m))
    (fun left => (base + (j + 1) * size - left) / size)
    (by
      rintro _ ⟨i', rfl, hle, hle', hpart'⟩ hc
      obtain ⟨hlt, hcompar⟩ := of_decide_eq_true hc
      have hlt := (addr_le_iff hpos).mp hlt
      rw [hset.compar_iff hsame (by omega) hlo] at hcompar
      have hnext := hset.next (show i' < num by omega)
      refine ⟨_, rfl, ⟨i' + 1, hnext, by omega, by omega, hpart'.left hcompar⟩, ?_⟩
      rw [hnext, addr_sub_div hpos, addr_sub_div hpos]
      omega)
    ⟨i, rfl, le_refl i, hij, hpart⟩ (by rwa [addr_sub_div hpos])
  refine ⟨i', hleft, hle, hle', hpart', fun hlt habove => ?_⟩
  refine of_decide_eq_false hexit ⟨(addr_le_iff hpos).mpr hlt, ?_⟩
  rwa [hset.compar_iff hsame (by omega) hlo]

/-- The upper cursor stops at an element that is not above the pivot, or before the lower one. -/
theorem Setting.seek_right (hsame : Elsewhere own base num size m₀ m) (hlo : lo < num)
    (hj : j < num) (hi0 : 0 < i) (hij : i ≤ j + 1) (hn : j + 1 - i < n)
    (hpart : Parted le (content base num size m lo) lo' hi i j (content base num size m)) :
    ∃ j', seek_right compar m size (base + lo * size) (base + i * size) n (base + j * size) =
        some (base + j' * size) ∧ j' ≤ j ∧ i ≤ j' + 1 ∧
      Parted le (content base num size m lo) lo' hi i j' (content base num size m) ∧
      (i ≤ j' → le (content base num size m j') (content base num size m lo)) := by
  have hpos := hset.size_pos
  obtain ⟨right, hright, ⟨j', rfl, hle, hle', hpart'⟩, hexit⟩ := loop_spec
    (c := fun right => decide (base + i * size ≤ right ∧ compar m right (base + lo * size) > 0))
    (f := fun right => some (minus right size)) (s := base + j * size) (n := n)
    (fun right => ∃ j', right = base + j' * size ∧ j' ≤ j ∧ i ≤ j' + 1 ∧
      Parted le (content base num size m lo) lo' hi i j' (content base num size m))
    (fun right => (right + size - (base + i * size)) / size)
    (by
      rintro _ ⟨j', rfl, hle, hle', hpart'⟩ hc
      obtain ⟨hlt, hcompar⟩ := of_decide_eq_true hc
      have hlt := (addr_le_iff hpos).mp hlt
      rw [gt_iff_lt, ← not_le, hset.compar_iff hsame (by omega) hlo] at hcompar
      obtain ⟨k, rfl⟩ : ∃ k, j' = k + 1 := ⟨j' - 1, by omega⟩
      have hback := hset.back (show k < num by omega)
      refine ⟨_, rfl, ⟨k, hback, by omega, by omega, hpart'.right hcompar⟩, ?_⟩
      rw [hback, addr_succ, addr_succ, addr_sub_div hpos, addr_sub_div hpos]
      omega)
    ⟨j, rfl, le_refl j, hij, hpart⟩ (by rwa [addr_succ, addr_sub_div hpos])
  refine ⟨j', hright, hle, hle', hpart', fun hlt => ?_⟩
  by_contra habove
  refine of_decide_eq_false hexit ⟨(addr_le_iff hpos).mpr hlt, ?_⟩
  rwa [gt_iff_lt, ← not_le, hset.compar_iff hsame (by omega) hlo]

/-- The state of the outer loop: the cursors are at `i` and `j`, and part what is behind the
pivot. -/
structure Turns (le : List UInt8 → List UInt8 → Prop) (own : ℕ → Prop) (ok : Heap → Prop)
    (base num size lo hi : ℕ) (m : Mem) (s : Cursors) (i j : ℕ) : Prop where
  left : s.left = base + i * size
  right : s.right = base + j * size
  behind : lo < i
  meet : i ≤ j + 1
  inside : j < hi
  ok : ok s.heap
  elsewhere : Elsewhere own base num size m s.heap.kern.mem
  moved : Rearranged (lo + 1) hi (content base num size m) (content base num size s.heap.kern.mem)
  parted : Parted le (content base num size s.heap.kern.mem lo) (lo + 1) hi i j
    (content base num size s.heap.kern.mem)

/-- **One turn of the outer loop.** The cursors part more elements, and come closer or meet. -/
theorem Setting.turn (hsame : Elsewhere own base num size m₀ m) (hhi : hi ≤ num)
    (ht : Turns le own ok base num size lo hi m s i j) (hij : i ≤ j) (hn : j + 1 - i < n) :
    ∃ s' i' j', turn compar size (base + lo * size) n s = some s' ∧
      Turns le own ok base num size lo hi m s' i' j' ∧ j' + 1 - i' < j + 1 - i := by
  have hpos := hset.size_pos
  have hbehind := ht.behind
  have hinside := ht.inside
  have hsame' := hsame.trans ht.elsewhere
  obtain ⟨i₁, hleft, hi₁, hij₁, hpart, habove⟩ :=
    hset.seek_left hsame' (by omega) (by omega) ht.meet hn ht.parted
  obtain ⟨j₁, hright, hj₁, hij₂, hpart, hbelow⟩ :=
    hset.seek_right (n := n) hsame' (by omega) (by omega) (by omega) hij₁ (by omega) hpart
  rw [Qsort.turn, ht.left, ht.right, hleft, Option.bind_some, hright, Option.bind_some]
  by_cases hlt : i₁ < j₁
  · obtain ⟨k, rfl⟩ : ∃ k, j₁ = k + 1 := ⟨j₁ - 1, by omega⟩
    obtain ⟨h', hh', hok', hsame₁, hswap⟩ :=
      hset.exchange ht.ok (show i₁ < num by omega) (show k + 1 < num by omega)
    have hpivot : content base num size h'.kern.mem lo =
        content base num size s.heap.kern.mem lo := by
      rw [hswap, Function.comp_apply, Equiv.swap_apply_of_ne_of_ne (by omega) (by omega)]
    rw [if_pos ((addr_lt_iff hpos).mpr hlt), hh', Option.map_some, hset.next (by omega),
      hset.back (by omega)]
    refine ⟨_, i₁ + 1, k, rfl, ⟨rfl, rfl, by omega, by omega, by omega, hok',
      ht.elsewhere.trans hsame₁, ?_, ?_⟩, by omega⟩
    · rw [hswap]
      exact ht.moved.trans (rearranged_swap (by omega) (by omega) (by omega) (by omega))
    · rw [hpivot, hswap]
      exact hpart.swap (by omega) (habove (by omega)) (hbelow (by omega))
  · -- no element is above the pivot and not above it: the cursors have crossed
    have hcrossed : ¬ i₁ ≤ j₁ := by
      intro hle
      obtain rfl : i₁ = j₁ := by omega
      exact habove (by omega) (hbelow hle)
    rw [if_neg fun h => hlt ((addr_lt_iff hpos).mp h)]
    exact ⟨_, i₁, j₁, rfl, ⟨rfl, rfl, by omega, by omega, by omega, ht.ok, ht.elsewhere, ht.moved,
      hpart⟩, by omega⟩

/-- The outer loop ends when the cursors have crossed. -/
theorem Setting.turns (hsame : Elsewhere own base num size m₀ m) (hhi : hi ≤ num)
    (ht : Turns le own ok base num size lo hi m s i j) (hn : j + 1 - i < n) {t : ℕ}
    (hturns : j + 1 - i < t) :
    ∃ s' j', loop (fun s : Cursors => decide (s.left ≤ s.right))
        (Qsort.turn compar size (base + lo * size) n) t s = some s' ∧
      Turns le own ok base num size lo hi m s' (j' + 1) j' := by
  have hpos := hset.size_pos
  obtain ⟨s', hs', ⟨i', j', ht', -⟩, hexit⟩ := loop_spec
    (c := fun s : Cursors => decide (s.left ≤ s.right))
    (f := Qsort.turn compar size (base + lo * size) n) (s := s) (n := t)
    (fun s => ∃ i' j', Turns le own ok base num size lo hi m s i' j' ∧ j' + 1 - i' < n)
    (fun s => (s.right + size - s.left) / size)
    (by
      rintro s₁ ⟨i', j', ht', hlt⟩ hc
      have hle := of_decide_eq_true hc
      rw [ht'.left, ht'.right, addr_le_iff hpos] at hle
      obtain ⟨s₂, i₂, j₂, hs₂, ht₂, hdec⟩ := hset.turn hsame hhi ht' hle hlt
      refine ⟨s₂, hs₂, ⟨i₂, j₂, ht₂, by omega⟩, ?_⟩
      rwa [ht₂.left, ht₂.right, ht'.left, ht'.right, addr_succ, addr_succ, addr_sub_div hpos,
        addr_sub_div hpos])
    ⟨i, j, ht, hn⟩ (by rwa [ht.left, ht.right, addr_succ, addr_sub_div hpos])
  have hcrossed := of_decide_eq_false hexit
  rw [ht'.left, ht'.right, addr_le_iff hpos] at hcrossed
  obtain rfl : i' = j' + 1 := by
    have := ht'.meet
    omega
  exact ⟨s', j', hs', ht'⟩

/-- The state in which the outer loop begins. -/
theorem Setting.start (hok : ok h) {cnt : ℕ} (hcnt : 1 < cnt) (hlo : lo + cnt ≤ num) :
    Turns le own ok base num size lo (lo + cnt) h.kern.mem
      ⟨h, plus (base + lo * size) size, plus (base + lo * size) ((cnt - 1) * size)⟩
      (lo + 1) (lo + cnt - 1) := by
  have hlast : base + lo * size + (cnt - 1) * size = base + (lo + cnt - 1) * size := by
    rw [Nat.add_assoc, ← Nat.add_mul, show lo + (cnt - 1) = lo + cnt - 1 by omega]
  refine ⟨hset.next (by omega), ?_, by omega, by omega, by omega, hok, fun _ _ _ => rfl, .refl,
    .start⟩
  show plus (base + lo * size) ((cnt - 1) * size) = base + (lo + cnt - 1) * size
  rw [plus_eq (by rw [hlast]; exact hset.addr_lt (by omega)), hlast]

/-- **A call sorts its part of the array.** -/
theorem Setting.qsort (hsame : Elsewhere own base num size m₀ h.kern.mem) (hok : ok h) {cnt : ℕ}
    (hlo : lo + cnt ≤ num) (hn : cnt < n)
    (hS : ∀ k, lo ≤ k → k < lo + cnt →
      content base num size h.kern.mem k ∈ elements m₀ base num size) :
    ∃ h', qsort compar n (base + lo * size) cnt size h = some h' ∧ ok h' ∧
      Elsewhere own base num size h.kern.mem h'.kern.mem ∧
      Rearranged lo (lo + cnt) (content base num size h.kern.mem)
        (content base num size h'.kern.mem) ∧
      SortedOn le lo (lo + cnt) (content base num size h'.kern.mem) := by
  induction n generalizing lo cnt h with
  | zero => exact absurd hn (Nat.not_lt_zero cnt)
  | succ n ih =>
    rw [Qsort.qsort]
    by_cases hcnt : cnt ≤ 1
    · rw [if_pos hcnt]
      exact ⟨h, rfl, hok, fun _ _ _ => rfl, .refl, sortedOn_of_le (by omega)⟩
    have hpos := hset.size_pos
    obtain ⟨s, j, hs, ht⟩ := hset.turns (n := n) (t := n) hsame hlo
      (hset.start hok (by omega) hlo) (by omega) (by omega)
    have hbehind := ht.behind
    have hinside := ht.inside
    obtain ⟨h₁, hh₁, hok₁, hsame₁, hswap⟩ :=
      hset.exchange ht.ok (show lo < num by omega) (show j < num by omega)
    -- the pivot is between the parts
    have hpart : Parted le (content base num size h₁.kern.mem j) lo (lo + cnt) j j
        (content base num size h₁.kern.mem) := by
      have hpivot := ht.parted.pivot (by omega)
      rwa [hswap, Function.comp_apply, Equiv.swap_apply_right]
    have hmoved : Rearranged lo (lo + cnt) (content base num size h.kern.mem)
        (content base num size h₁.kern.mem) := by
      rw [hswap]
      exact (ht.moved.mono (by omega) (le_refl _)).trans
        (rearranged_swap (le_refl lo) (by omega) (by omega) (by omega))
    have helse₁ := ht.elsewhere.trans hsame₁
    have hS₁ := hmoved.forall hS
    obtain ⟨h₂, hh₂, hok₂, helse₂, hmoved₂, hsorted₂⟩ := ih (hsame.trans helse₁) hok₁
      (by omega) (by omega)
      fun k (hk : lo ≤ k) (hk' : k < lo + (j - lo)) => hS₁ k hk (by omega)
    rw [show lo + (j - lo) = j by omega] at hmoved₂ hsorted₂
    have hS₂ : ∀ k, j + 1 ≤ k → k < j + 1 + (cnt - (j - lo + 1)) →
        content base num size h₂.kern.mem k ∈ elements m₀ base num size := by
      intro k hk hk'
      rw [hmoved₂.outside (.inr (by omega))]
      exact hS₁ k (by omega) (by omega)
    obtain ⟨h₃, hh₃, hok₃, helse₃, hmoved₃, hsorted₃⟩ := ih
      ((hsame.trans helse₁).trans helse₂) hok₂ (by omega) (by omega) hS₂
    rw [show j + 1 + (cnt - (j - lo + 1)) = lo + cnt by omega] at hmoved₃ hsorted₃
    obtain ⟨hmoved', hsorted⟩ := sorted_of_parts hset.compares.preorder hS₁ (by omega) hinside
      hpart hmoved₂ hsorted₂ hmoved₃ hsorted₃
    refine ⟨h₃, ?_, hok₃, (helse₁.trans helse₂).trans helse₃, hmoved.trans hmoved', hsorted⟩
    have hleft : minus (base + j * size) (base + lo * size) / size = j - lo := by
      rw [minus_eq ((addr_le_iff hpos).mpr (by omega)) (hset.addr_lt (by omega)),
        addr_sub_div hpos]
    have hright : minus cnt (j - lo + 1) = cnt - (j - lo + 1) := by
      refine minus_eq (by omega) ?_
      have := Nat.le_mul_of_pos_right num hpos
      have := hset.bound
      omega
    rw [if_neg hcnt, hs, Option.bind_some, ht.right, hh₁, Option.bind_some]
    simp only [hleft, hright]
    rw [hh₂, Option.bind_some, hset.next (by omega), hh₃]

end Sorting

/-- **`qsort` sorts.** It comes to an end, and the array holds its elements in an order in which
none is above a later one for `compar`. No byte is changed but those of the array and those of the
allocator. -/
theorem qsort_sorts (hsize : 0 < size) (hbound : base + num * size < 2 ^ 64)
    (hbuf : PrivateBuffers own ok size)
    (hown : ∀ x, base ≤ x → x < base + num * size → ¬ own x) (hok : ok h)
    (hcompar : Compares compar le own base num size h.kern.mem) (hn : num < n) :
    ∃ h', qsort compar n base num size h = some h' ∧
      (elements h'.kern.mem base num size).Perm (elements h.kern.mem base num size) ∧
      (∀ i j, i < j → j < num →
        compar h'.kern.mem (base + i * size) (base + j * size) ≤ 0) ∧
      Elsewhere own base num size h.kern.mem h'.kern.mem := by
  have hset : Setting compar le own ok base num size h.kern.mem :=
    ⟨hsize, hbound, hbuf, hown, hcompar⟩
  have hS : ∀ k, 0 ≤ k → k < 0 + num →
      content base num size h.kern.mem k ∈ elements h.kern.mem base num size := by
    intro k _ hk
    rw [elements_eq]
    exact List.mem_map_of_mem (List.mem_range.mpr (by omega))
  obtain ⟨h', hh', -, helse, hmoved, hsorted⟩ :=
    hset.qsort (n := n) (fun _ _ _ => rfl) hok (by omega) hn hS
  rw [Nat.zero_add] at hmoved hsorted
  rw [Nat.zero_mul, Nat.add_zero] at hh'
  refine ⟨h', hh', ?_, fun i j hij hj => ?_, helse⟩
  · rw [elements_eq, elements_eq]
    exact hmoved.perm
  · rw [hset.compar_iff helse (by omega) hj]
    exact hsorted i j (Nat.zero_le i) hij hj

/-- The order of the first bytes. -/
def compare_bytes : Compar := fun m a b => ((m a).toNat : ℤ) - (m b).toNat

/-- The bytes 3, 1 and 2 at 8, and a chunk in the first bin. -/
def three_bytes : Heap :=
  ⟨⟨fun x => [3, 1, 2].getD (x - 8) 0, []⟩, fun i => if i = 0 then 64 else 0, 0, 0, 0⟩

theorem qsort_sorts_three : ∃ h', qsort compare_bytes 4 8 3 1 three_bytes = some h' ∧
    (elements h'.kern.mem 8 3 1).Perm [[3], [1], [2]] ∧
    (∀ i j, i < j → j < 3 → compare_bytes h'.kern.mem (8 + i * 1) (8 + j * 1) ≤ 0) ∧
    Elsewhere (fun x => 64 ≤ x ∧ x < 64 + chunk_info_size + 1) 8 3 1 three_bytes.kern.mem
      h'.kern.mem := by
  have hcompar : Compares compare_bytes (fun x y => (x.headD 0).toNat ≤ (y.headD 0).toNat)
      (fun x => 64 ≤ x ∧ x < 64 + chunk_info_size + 1) 8 3 1 three_bytes.kern.mem := by
    refine ⟨fun m _ i _ j _ => ?_, ⟨fun x y _ _ => le_total _ _, fun x y z _ _ _ => le_trans⟩⟩
    simp only [compare_bytes, element, List.range_one, List.map_singleton, List.headD_cons,
      Nat.add_zero]
    omega
  exact qsort_sorts (by decide) (by decide) (bin_private (by decide) (by decide) (by decide))
    (fun x _ hx => by omega) rfl hcompar (by decide)

end Loos.Qsort
