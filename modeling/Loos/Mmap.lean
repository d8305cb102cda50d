/-
`sys_mmap` over whole runs of the page allocator.

The length is 64 bits wide and `kmalloc` takes an `int`, so that of a length only the low
half is compared with a page. What passes gets one page, whatever its length; what does not
is `panic`, and so is a request when no page is free.

A process stores into all of the range that it was given. [`mmaps_served_iff`] is about the
runs with such stores: as long as no range is longer than a page they stay off the links
between the free pages ([`Inv`]).
-/
import Loos.UserMem

set_option autoImplicit false

namespace Loos.Mmap

open SysLib Memblock

/-! ## The code -/

/-- `kmalloc` over the links in memory. -/
def kmalloc (b : Kmem) (size : ℤ) : Option (ℕ × Kmem) :=
  if size > PGSIZE then none else kalloc_page_memblock b

/-- `sys_mmap`. -/
def sys_mmap (b : Kmem) (addr length : ℕ) : Option (ℕ × Kmem) :=
  if addr ≠ 0 then some (addr, b) else kmalloc b (BitVec.ofNat 32 length).toInt

/-- It is the `sys_mmap` of the list of free pages. -/
theorem sys_mmap_refines {b : Kmem} {k : Kern} {addr length : ℕ} (h : Kern.Refines b k) :
    (UserMem.sys_mmap k addr length = none ∧ sys_mmap b addr length = none) ∨
    ∃ a k' b', UserMem.sys_mmap k addr length = some (a, k') ∧
      sys_mmap b addr length = some (a, b') ∧ Kern.Refines b' k' := by
  by_cases haddr : addr ≠ 0
  · exact .inr ⟨addr, k, b, if_pos haddr, if_pos haddr, h⟩
  · rw [UserMem.sys_mmap, sys_mmap, if_neg haddr, if_neg haddr]
    by_cases hsize : (BitVec.ofNat 32 length).toInt > PGSIZE
    · exact .inl ⟨if_pos hsize, if_pos hsize⟩
    · rw [kmalloc, if_neg hsize]
      exact Kern.kmalloc_refines h (not_lt.mp hsize)

/-! ## Runs -/

/-- The allocator, and the addresses and lengths of the ranges that `sys_mmap` returned. -/
structure Sys where
  alloc : Memblock.Sys
  ranges : List (ℕ × ℕ)

/-- The kernel allocates, frees and writes, a process calls `sys_mmap` with `addr == 0`, or it
stores a byte into a range that it was given. -/
inductive Event where
  | kernel (e : Memblock.Event)
  | mmap (length : ℕ)
  | store (x : ℕ) (c : UInt8)

/-- The kernel has no call that frees the memory of `sys_mmap`. -/
def Allowed (s : Sys) : Memblock.Event → Prop
  | .free p => p ∉ s.ranges.map Prod.fst
  | _ => True

instance (s : Sys) (e : Memblock.Event) : Decidable (Allowed s e) :=
  match e with
  | .free p => inferInstanceAs (Decidable (p ∉ s.ranges.map Prod.fst))
  | .alloc => .isTrue trivial
  | .write _ _ => .isTrue trivial

/-- The step function; `none` is `panic`, or an event that is not enabled. -/
def step (s : Sys) : Event → Option Sys
  | .kernel e => if Allowed s e then (Memblock.step s.alloc e).map fun a => { s with alloc := a }
    else none
  | .mmap length => (sys_mmap s.alloc.kmem 0 length).map fun r =>
      ⟨⟨r.2, r.1 :: s.alloc.held⟩, (r.1, length) :: s.ranges⟩
  | .store x c =>
    if ∃ r ∈ s.ranges, r.1 ≤ x ∧ x < r.1 + r.2 then
      some { s with alloc.kmem.mem := s.alloc.kmem.mem.poke x c }
    else none

/-- Null, or -1 and the other error numbers. -/
def IsError (a : ℕ) : Prop := a = 0 ∨ 2 ^ 64 - PGSIZE ≤ a

/-- A call of `sys_mmap` returns an error, or a range inside a page that `kmalloc` took for it
and that no live allocation reaches. -/
def Served (kernel_end : ℕ) (s : Sys) : Event → Prop
  | .mmap length => ∃ a b, sys_mmap s.alloc.kmem 0 length = some (a, b) ∧ (IsError a ∨
      ∃ p, kalloc_page_memblock s.alloc.kmem = some (p, b) ∧ IsPage kernel_end p ∧
        ∀ x, a ≤ x → x < a + length → (p ≤ x ∧ x < p + PGSIZE) ∧
          ∀ q ∈ s.alloc.held, x < q ∨ q + PGSIZE ≤ x)
  | _ => True

/-- The length is at most a page, and a page is left. -/
def Fits (kernel_end : ℕ) (s : Sys) : Event → Prop
  | .mmap length => length ≤ PGSIZE ∧ ∃ p, IsPage kernel_end p ∧ p ∉ s.alloc.held
  | _ => True

/-- The allocator is intact, and every range lies in a page that is not free. -/
structure Inv (kernel_end : ℕ) (s : Sys) : Prop where
  alloc : Memblock.Inv kernel_end s.alloc
  ranges : ∀ r ∈ s.ranges, r.1 ∈ s.alloc.held ∧ r.2 ≤ PGSIZE

variable {kernel_end length : ℕ} {s s' : Sys} {b : Kmem} {r : ℕ × Kmem} {e : Event}
  {es : List Event}

/-! ## One call -/

theorem toInt_of_le (h : length ≤ PGSIZE) : (BitVec.ofNat 32 length).toInt = length := by
  have hlt : length < 2 ^ 31 := lt_of_le_of_lt h (by norm_num)
  rw [BitVec.toInt_eq_toNat_of_lt (by rw [BitVec.toNat_ofNat]; omega), BitVec.toNat_ofNat]
  omega

/-- Up to a page `kmalloc` sees the length itself. -/
theorem sys_mmap_of_le (h : length ≤ PGSIZE) : sys_mmap b 0 length = kalloc_page_memblock b := by
  rw [sys_mmap, if_neg (by simp), kmalloc, toInt_of_le h, if_neg (by omega)]

/-- Whatever the length is, what comes back is one page. -/
theorem kalloc_of_sys_mmap (h : sys_mmap b 0 length = some r) :
    kalloc_page_memblock b = some r := by
  rw [sys_mmap, if_neg (by simp), kmalloc] at h
  exact (Option.ite_none_left_eq_some.mp h).2

/-- No page is an error. -/
theorem not_isError {p : ℕ} (h0 : 0 < kernel_end) (h : IsPage kernel_end p) : ¬ IsError p := by
  have habove := h.above
  have hbelow := h.below
  unfold PHYSTOP PGSIZE at hbelow
  unfold IsError PGSIZE
  omega

/-- A range of at most a page, in a page that was not held. -/
theorem Inv.apart (h : Inv kernel_end s) {p x : ℕ} (hp : IsPage kernel_end p)
    (hfree : p ∉ s.alloc.held) (hfit : length ≤ PGSIZE) (hlo : p ≤ x) (hhi : x < p + length) :
    (p ≤ x ∧ x < p + PGSIZE) ∧ ∀ q ∈ s.alloc.held, x < q ∨ q + PGSIZE ≤ x := by
  obtain ⟨l, -, -, -, hpart⟩ := h.alloc.part.list
  refine ⟨⟨hlo, by omega⟩, fun q hq => ?_⟩
  have hqp : q ≠ p := fun he => hfree (he ▸ hq)
  have hapart := aligned_disjoint ((hpart q).mp (.inr hq)).aligned hp.aligned hqp
  omega

theorem Inv.served_iff (h : Inv kernel_end s) (h0 : 0 < kernel_end) :
    Served kernel_end s e ↔ Fits kernel_end s e := by
  cases e with
  | kernel e => exact Iff.rfl
  | store x c => exact Iff.rfl
  | mmap length =>
    constructor
    · rintro ⟨a, b, hcall, hret⟩
      obtain ⟨hfree, hpage, -⟩ := h.alloc.alloc (kalloc_of_sys_mmap hcall)
      refine ⟨?_, a, hpage, hfree⟩
      obtain ⟨p, hp, -, hin⟩ := hret.resolve_left (not_isError h0 hpage)
      -- the page is the one that the range begins at
      rw [kalloc_of_sys_mmap hcall] at hp
      obtain ⟨rfl, -⟩ := Prod.mk.inj (Option.some.inj hp)
      by_contra hlong
      have hend := (hin (a + PGSIZE) (by omega) (by omega)).1.2
      omega
    · rintro ⟨hfit, q, hq, hfree⟩
      obtain ⟨⟨p, b⟩, hcall⟩ : ∃ r, kalloc_page_memblock s.alloc.kmem = some r :=
        Option.ne_none_iff_exists'.mp fun hnone =>
          hfree (h.alloc.alloc_eq_none_iff.mp hnone q hq)
      obtain ⟨hpfree, hpage, -⟩ := h.alloc.alloc hcall
      refine ⟨p, b, (sys_mmap_of_le hfit).trans hcall, .inr ⟨p, hcall, hpage, ?_⟩⟩
      exact fun x hlo hhi => h.apart hpage hpfree hfit hlo hhi

/-! ## Whole runs -/

/-- What the kernel does leaves the pages of the ranges held. -/
theorem held_of_step {a : Memblock.Sys} {e : Memblock.Event} (hs : Memblock.step s.alloc e = some a)
    (hall : Allowed s e) {p : ℕ} (hp : p ∈ s.ranges.map Prod.fst) (hheld : p ∈ s.alloc.held) :
    p ∈ a.held := by
  cases e with
  | alloc =>
    obtain ⟨r, -, rfl⟩ := Option.map_eq_some_iff.mp hs
    exact List.mem_cons_of_mem _ hheld
  | free q =>
    obtain ⟨-, ha⟩ := Option.ite_none_right_eq_some.mp hs
    obtain rfl := Option.some.inj ha
    have hne : p ≠ q := fun he => hall (he ▸ hp)
    exact (List.mem_erase_of_ne hne).mpr hheld
  | write x c =>
    obtain ⟨-, ha⟩ := Option.ite_none_right_eq_some.mp hs
    obtain rfl := Option.some.inj ha
    exact hheld

/-- The step lemma. -/
theorem Inv.of_step (h : Inv kernel_end s) (h0 : 0 < kernel_end) (hfit : Fits kernel_end s e)
    (hs : step s e = some s') : Inv kernel_end s' := by
  obtain ⟨halloc, hranges⟩ := h
  cases e with
  | kernel e =>
    obtain ⟨hall, hs⟩ := Option.ite_none_right_eq_some.mp hs
    obtain ⟨a, ha, rfl⟩ := Option.map_eq_some_iff.mp hs
    refine ⟨halloc.of_step h0 e ha, fun r hr => ⟨?_, (hranges r hr).2⟩⟩
    exact held_of_step ha hall (List.mem_map_of_mem hr) (hranges r hr).1
  | mmap length =>
    obtain ⟨r, hr, rfl⟩ := Option.map_eq_some_iff.mp hs
    obtain ⟨-, -, halloc'⟩ := halloc.alloc (kalloc_of_sys_mmap hr)
    refine ⟨halloc', fun q hq => ?_⟩
    rcases List.mem_cons.mp hq with rfl | hq
    · exact ⟨List.mem_cons_self, hfit.1⟩
    · exact ⟨List.mem_cons_of_mem _ (hranges q hq).1, (hranges q hq).2⟩
  | store x c =>
    obtain ⟨⟨r, hr, hlo, hhi⟩, hs⟩ := Option.ite_none_right_eq_some.mp hs
    obtain rfl := Option.some.inj hs
    -- the range ends with its page
    obtain ⟨hheld, hle⟩ := hranges r hr
    exact ⟨halloc.write hheld ⟨hlo, by omega⟩, hranges⟩

/-- **`sys_mmap`** over whole runs: every call is served exactly if every call asks for at
most a page and comes while one is left, whatever the kernel does in its pages and the
processes in their ranges. -/
theorem mmaps_served_iff (mem : Mem) (h0 : 0 < kernel_end) (hk : kernel_end < PHYSTOP) :
    ∃ b, kinit_memblock ⟨mem, 0⟩ kernel_end = some b ∧ ∀ es,
      Meets step (Served kernel_end) ⟨⟨b, []⟩, []⟩ es ↔
        Meets step (Fits kernel_end) ⟨⟨b, []⟩, []⟩ es := by
  obtain ⟨b, hb, -⟩ := kinit_memblock_spec mem hk
  have hboot : Inv kernel_end ⟨⟨b, []⟩, []⟩ :=
    ⟨Memblock.Inv.reachable h0 hk hb ⟨[], rfl⟩, by simp⟩
  refine ⟨b, hb, fun es => ?_⟩
  exact meets_congr (Inv kernel_end) (fun s e s' h hok hs => h.of_step h0 hok hs)
    (fun s e h => h.served_iff h0) hboot

/-- A whole page and a byte, at the kernel's link address. -/
theorem mmaps_served_two : ∃ b, kinit_memblock ⟨fun _ => 0, 0⟩ 0x9000000090000000 = some b ∧
    Meets step (Served 0x9000000090000000) ⟨⟨b, []⟩, []⟩ [.mmap 16384, .mmap 1] := by
  have hpage : IsPage 0x9000000090000000 0x9000000090000000 :=
    ⟨by norm_num, by norm_num, by norm_num⟩
  have hpage' : IsPage 0x9000000090000000 0x9000000090004000 :=
    ⟨by norm_num, by norm_num, by norm_num⟩
  obtain ⟨b, hb, hserved⟩ := mmaps_served_iff (fun _ => 0) (show 0 < 0x9000000090000000 by norm_num)
    (by norm_num)
  refine ⟨b, hb, (hserved _).mpr ⟨⟨by norm_num, _, hpage, List.not_mem_nil⟩, ?_⟩⟩
  intro s hs
  obtain ⟨r, -, rfl⟩ := Option.map_eq_some_iff.mp hs
  refine ⟨⟨by norm_num, ?_⟩, fun _ _ => trivial⟩
  -- the first call took one of two pages
  by_cases hr : r.1 = 0x9000000090000000
  · exact ⟨_, hpage', by simp [hr]⟩
  · exact ⟨_, hpage, by simpa using Ne.symm hr⟩

/-- A length of `2^32` gets a page, and one byte more than a page stops the kernel. -/
theorem long_not_served : ∃ b, kinit_memblock ⟨fun _ => 0, 0⟩ 0x9000000090000000 = some b ∧
    (∃ r, sys_mmap b 0 (2 ^ 32) = some r) ∧ sys_mmap b 0 (PGSIZE + 1) = none ∧
    ¬ Served 0x9000000090000000 ⟨⟨b, []⟩, []⟩ (.mmap (2 ^ 32)) ∧
    ¬ Served 0x9000000090000000 ⟨⟨b, []⟩, []⟩ (.mmap (PGSIZE + 1)) := by
  have hk : 0x9000000090000000 < PHYSTOP := by norm_num
  obtain ⟨b, hb, -⟩ := kinit_memblock_spec (fun _ => 0) hk
  have hboot : Inv 0x9000000090000000 ⟨⟨b, []⟩, []⟩ :=
    ⟨Memblock.Inv.reachable (by norm_num) (by norm_num) hb ⟨[], rfl⟩, by simp⟩
  have hfree : kalloc_page_memblock b ≠ none := fun hnone =>
    List.not_mem_nil (hboot.alloc.alloc_eq_none_iff.mp hnone 0x9000000090000000
      ⟨by norm_num, by norm_num, by norm_num⟩)
  have hhalt : sys_mmap b 0 (PGSIZE + 1) = none := rfl
  refine ⟨b, hb, Option.ne_none_iff_exists'.mp hfree, hhalt, fun hserved => ?_, fun hserved => ?_⟩
  · have hfits := (hboot.served_iff (by norm_num)).mp hserved
    exact absurd hfits.1 (by norm_num)
  · obtain ⟨a, b', hcall, -⟩ := hserved
    rw [hhalt] at hcall
    cases hcall

end Loos.Mmap
