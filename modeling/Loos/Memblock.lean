/-
`mm/memblock.c`: the physical page allocator.

The free list is threaded through the free pages themselves: the first word of
a free page is `r->next`, and `kmem.freelist` is the first free page. Both
`kalloc_page_memblock` and `kfree_page_memblock` overwrite the whole page
around the link update, so the argument is about memory: which writes stay away
from the links of the pages that are still free.

The results are about runs. A run starts after `kinit_memblock` and mixes
allocations, frees of held pages and arbitrary client writes inside held pages;
[`Partition`] is what holds in every state of it.
-/
import Loos.Lib.ByteMem
import Loos.Lib.Chain
import Loos.Lib.Runs
import Loos.Lib.Loop
import Loos.Memlayout

set_option autoImplicit false

namespace Loos.Memblock

open SysLib

/-! ## The code -/

/-- `KERNBASE + KMEMSIZE`, the end of the managed memory. -/
abbrev PHYSTOP : ℕ := 0x9000000090000000 + 128 * 1024 * 1024

/-- The memory and `kmem.freelist`. -/
structure Kmem where
  mem : Mem
  freelist : ℕ

/-- `kfree_page_memblock`: junk over the page, then `r->next = kmem.freelist`. -/
def kfree_page_memblock (b : Kmem) (pa : ℕ) : Kmem :=
  { mem := (b.mem.fill pa PGSIZE 1).store64 pa b.freelist, freelist := pa }

/-- `kalloc_page_memblock`; `none` is `panic("kalloc")`. -/
def kalloc_page_memblock (b : Kmem) : Option (ℕ × Kmem) :=
  if b.freelist = 0 then none
  else some (b.freelist,
    { mem := b.mem.fill b.freelist PGSIZE 5, freelist := b.mem.load64 b.freelist })

/-- The loop of `freerange`; no pointer below `2^64` makes more than `2^51` turns. -/
def freerange (b : Kmem) (pa_start pa_end : ℕ) : Option Kmem :=
  (loop (fun s : ℕ × Kmem => decide (s.1 + PGSIZE ≤ pa_end))
    (fun s => some (s.1 + PGSIZE, kfree_page_memblock s.2 s.1))
    (2 ^ 51) (PGROUNDUP pa_start, b)).map Prod.snd

/-- `kinit_memblock` -/
def kinit_memblock (b : Kmem) (kernel_end : ℕ) : Option Kmem :=
  freerange b kernel_end PHYSTOP

/-! ## The free list in memory -/

/-- The free list of `b` is `l`: the chain of first words from `kmem.freelist`. -/
def FreeList (b : Kmem) (l : List ℕ) : Prop :=
  Chain b.mem.load64 b.freelist l

/-- A page-aligned address the allocator manages. -/
structure IsPage (kernel_end p : ℕ) : Prop where
  aligned : p % PGSIZE = 0
  above : kernel_end ≤ p
  below : p + PGSIZE ≤ PHYSTOP

/-- Two different pages share no byte. -/
theorem aligned_disjoint {p q : ℕ} (hp : p % PGSIZE = 0) (hq : q % PGSIZE = 0) (h : p ≠ q) :
    p + PGSIZE ≤ q ∨ q + PGSIZE ≤ p := by
  unfold PGSIZE at *
  omega

/-- A free page joins the list in front; the other links are outside it. -/
theorem kfree_freeList {b : Kmem} {l : List ℕ} {p : ℕ} (h : FreeList b l)
    (hal : ∀ q ∈ l, q % PGSIZE = 0) (hp : p % PGSIZE = 0) (hp0 : p ≠ 0) (hpl : p ∉ l)
    (hfl : b.freelist < 2 ^ 64) : FreeList (kfree_page_memblock b p) (p :: l) := by
  refine Chain.push h hp0 (Mem.load64_store64_same hfl) fun q hq => ?_
  have hne : q ≠ p := fun e => hpl (e ▸ hq)
  have hd := aligned_disjoint (hal q hq) hp hne
  unfold PGSIZE at hd
  simp only [kfree_page_memblock]
  rw [Mem.load64_store64_disjoint (by omega), Mem.load64_fill_disjoint (by unfold PGSIZE; omega)]

/-- The first free page leaves the list; the junk written over it stays inside it. -/
theorem kalloc_freeList {b : Kmem} {p : ℕ} {l : List ℕ} (h : FreeList b (p :: l))
    (hal : ∀ q ∈ p :: l, q % PGSIZE = 0) :
    ∃ b', kalloc_page_memblock b = some (p, b') ∧ FreeList b' l ∧ b'.freelist < 2 ^ 64 := by
  obtain ⟨hhead, hp0, htail⟩ := h
  refine ⟨{ mem := b.mem.fill p PGSIZE 5, freelist := b.mem.load64 p }, ?_, ?_, Mem.load64_lt _ _⟩
  · rw [kalloc_page_memblock, if_neg (by rw [hhead]; exact hp0), hhead]
  · refine htail.congr fun q hq => ?_
    have hnd : (p :: l).Nodup := Chain.nodup (a := p) ⟨rfl, hp0, htail⟩
    have hne : q ≠ p := fun e => (List.nodup_cons.mp hnd).1 (e ▸ hq)
    have hd := aligned_disjoint (hal q (List.mem_cons_of_mem p hq)) (hal p List.mem_cons_self) hne
    exact Mem.load64_fill_disjoint (by unfold PGSIZE at *; omega)

/-- A write outside the free pages leaves the free list alone. -/
theorem poke_freeList {b : Kmem} {l : List ℕ} {x : ℕ} {c : UInt8} (h : FreeList b l)
    (hx : ∀ q ∈ l, x < q ∨ q + PGSIZE ≤ x) : FreeList { b with mem := b.mem.poke x c } l :=
  Chain.congr h fun q hq => Mem.load64_poke_disjoint (by
    have := hx q hq
    unfold PGSIZE at this
    omega)

/-! ## Initialisation -/

/-- What `freerange` has done when the cursor stands at `p`: the free pages are
exactly the pages below the cursor. -/
structure FreedBelow (kernel_end p : ℕ) (b : Kmem) : Prop where
  aligned : p % PGSIZE = 0
  above : kernel_end ≤ p
  word : b.freelist < 2 ^ 64
  list : ∃ l, FreeList b l ∧ ∀ q, q ∈ l ↔ q ≠ 0 ∧ IsPage kernel_end q ∧ q < p

/-- One turn of the loop. Page `0`, which only `kernel_end = 0` can produce, is
the null pointer: linking it in front leaves an empty list. -/
theorem FreedBelow.step {kernel_end p : ℕ} {b : Kmem} (h : FreedBelow kernel_end p b)
    (hp : p + PGSIZE ≤ PHYSTOP) :
    FreedBelow kernel_end (p + PGSIZE) (kfree_page_memblock b p) := by
  obtain ⟨hal, hab, hw, l, hl, hmem⟩ := h
  have hp64 : p < 2 ^ 64 := by
    unfold PHYSTOP PGSIZE at hp
    omega
  refine ⟨by unfold PGSIZE at *; omega, by unfold PGSIZE; omega, hp64, ?_⟩
  -- a page below the next cursor is below this one or is the page just freed
  have hsplit : ∀ q, IsPage kernel_end q → (q < p + PGSIZE ↔ q < p ∨ q = p) := by
    intro q hq
    have := hq.aligned
    unfold PGSIZE at *
    omega
  by_cases hp0 : p = 0
  · subst hp0
    refine ⟨[], rfl, fun q => ⟨fun hq => absurd hq List.not_mem_nil, ?_⟩⟩
    rintro ⟨hq0, hq, hlt⟩
    rcases (hsplit q hq).mp hlt with h | h <;> omega
  · refine ⟨p :: l, kfree_freeList hl (fun q hq => ((hmem q).mp hq).2.1.aligned) hal hp0
      (fun hq => ((hmem p).mp hq).2.2.false) hw, fun q => ?_⟩
    rw [List.mem_cons, hmem]
    constructor
    · rintro (rfl | ⟨h0, hq, hlt⟩)
      · exact ⟨hp0, ⟨hal, hab, hp⟩, by unfold PGSIZE; omega⟩
      · exact ⟨h0, hq, by omega⟩
    · rintro ⟨h0, hq, hlt⟩
      rcases (hsplit q hq).mp hlt with h | h
      · exact .inr ⟨h0, hq, h⟩
      · exact .inl h

/-- Before the first turn nothing is free, and no page lies below the cursor. -/
theorem FreedBelow.init (mem : Mem) {kernel_end : ℕ} (hk : kernel_end < PHYSTOP) :
    FreedBelow kernel_end (PGROUNDUP kernel_end) ⟨mem, 0⟩ := by
  have hstart : PGROUNDUP kernel_end = (kernel_end + PGSIZE - 1) / PGSIZE * PGSIZE :=
    PGROUNDUP_eq (by unfold PHYSTOP at hk; unfold PGSIZE; omega)
  rw [hstart]
  refine ⟨by unfold PGSIZE; omega, by unfold PGSIZE; omega, by norm_num, [], rfl, fun q => ?_⟩
  refine ⟨fun hq => absurd hq List.not_mem_nil, ?_⟩
  rintro ⟨-, hq, hlt⟩
  have h1 := hq.aligned
  have h2 := hq.above
  unfold PGSIZE at *
  omega

/-- **`kinit_memblock`** returns, and the free pages are then all the pages
wholly between `kernel_end` and `PHYSTOP`, the null page excepted. -/
theorem kinit_memblock_spec (mem : Mem) {kernel_end : ℕ} (hk : kernel_end < PHYSTOP) :
    ∃ b, kinit_memblock ⟨mem, 0⟩ kernel_end = some b ∧ b.freelist < 2 ^ 64 ∧
      ∃ l, FreeList b l ∧ ∀ q, q ∈ l ↔ q ≠ 0 ∧ IsPage kernel_end q := by
  have hinit := FreedBelow.init mem hk
  obtain ⟨⟨p, b⟩, hloop, hinv, hdone⟩ :=
    loop_spec (c := fun s : ℕ × Kmem => decide (s.1 + PGSIZE ≤ PHYSTOP))
      (f := fun s => some (s.1 + PGSIZE, kfree_page_memblock s.2 s.1))
      (n := 2 ^ 51) (s := (PGROUNDUP kernel_end, ⟨mem, 0⟩))
      (fun s => FreedBelow kernel_end s.1 s.2) (fun s => (PHYSTOP - s.1) / PGSIZE)
      (fun s hs hc => by
        have hc : s.1 + PGSIZE ≤ PHYSTOP := by simpa using hc
        refine ⟨_, rfl, hs.step hc, ?_⟩
        unfold PHYSTOP PGSIZE at *
        omega)
      hinit (by unfold PHYSTOP PGSIZE; omega)
  have hend : ¬ p + PGSIZE ≤ PHYSTOP := by simpa using hdone
  obtain ⟨hal, hab, hw, l, hl, hmem⟩ := hinv
  refine ⟨b, by rw [kinit_memblock, freerange, hloop]; rfl, hw, l, hl, fun q => ?_⟩
  rw [hmem]
  refine ⟨fun h => ⟨h.1, h.2.1⟩, fun h => ⟨h.1, h.2, ?_⟩⟩
  have := h.2.below
  dsimp only at *
  omega

/-! ## Runs -/

/-- The allocator together with the pages its clients hold. -/
structure Sys where
  kmem : Kmem
  held : List ℕ

/-- What can happen after `kinit_memblock`: an allocation, a free of a held
page, a client writing a byte of a page it holds. -/
inductive Event where
  | alloc
  | free (p : ℕ)
  | write (x : ℕ) (c : UInt8)

/-- The step function; `none` where `kalloc` panics or the client breaks its contract. -/
def step (s : Sys) : Event → Option Sys
  | .alloc => (kalloc_page_memblock s.kmem).map fun r => ⟨r.2, r.1 :: s.held⟩
  | .free p =>
    if p ∈ s.held then some ⟨kfree_page_memblock s.kmem p, s.held.erase p⟩ else none
  | .write x c =>
    if ∃ p ∈ s.held, p ≤ x ∧ x < p + PGSIZE then
      some { s with kmem := { s.kmem with mem := s.kmem.mem.poke x c } }
    else none

/-- **What the allocator keeps.** The list in memory is finite and free of
duplicates, and the free and the held pages partition the managed pages. -/
structure Partition (kernel_end : ℕ) (s : Sys) : Prop where
  heldNodup : s.held.Nodup
  list : ∃ l, FreeList s.kmem l ∧ l.Nodup ∧ (∀ p ∈ l, p ∉ s.held) ∧
    ∀ p, (p ∈ l ∨ p ∈ s.held) ↔ IsPage kernel_end p

/-- [`Partition`] with the bound on the head that keeps the links intact. -/
structure Inv (kernel_end : ℕ) (s : Sys) : Prop where
  word : s.kmem.freelist < 2 ^ 64
  part : Partition kernel_end s

variable {kernel_end : ℕ} {s s' : Sys}

/-- Allocation hands out the first free page, which was not held. -/
theorem Inv.alloc (h : Inv kernel_end s) {p : ℕ} {b : Kmem}
    (ha : kalloc_page_memblock s.kmem = some (p, b)) :
    p ∉ s.held ∧ IsPage kernel_end p ∧ Inv kernel_end ⟨b, p :: s.held⟩ := by
  obtain ⟨hw, hheld, l, hl, hnd, hdisj, hpart⟩ := h
  have hfl : s.kmem.freelist ≠ 0 := by
    intro h0
    rw [kalloc_page_memblock, if_pos h0] at ha
    cases ha
  obtain ⟨t, rfl, ht⟩ := Chain.eq_cons hl hfl
  have hal : ∀ q ∈ s.kmem.freelist :: t, q % PGSIZE = 0 := fun q hq =>
    ((hpart q).mp (.inl hq)).aligned
  obtain ⟨b', hb', hlist, hw'⟩ := kalloc_freeList hl hal
  obtain ⟨rfl, rfl⟩ : s.kmem.freelist = p ∧ b' = b := by
    rw [hb'] at ha
    simpa using ha
  have hpnot := hdisj _ List.mem_cons_self
  obtain ⟨hpt, htnd⟩ := List.nodup_cons.mp hnd
  refine ⟨hpnot, (hpart _).mp (.inl List.mem_cons_self), hw',
    List.nodup_cons.mpr ⟨hpnot, hheld⟩, t, hlist, htnd, fun q hq => ?_, fun q => ?_⟩
  · rw [List.mem_cons, not_or]
    exact ⟨fun e => hpt (e ▸ hq), hdisj q (List.mem_cons_of_mem _ hq)⟩
  · rw [← hpart q, List.mem_cons, List.mem_cons]
    tauto

/-- A freed page joins the list; it was held, so it was in no list. -/
theorem Inv.free (h : Inv kernel_end s) (h0 : 0 < kernel_end) {p : ℕ} (hp : p ∈ s.held) :
    Inv kernel_end ⟨kfree_page_memblock s.kmem p, s.held.erase p⟩ := by
  obtain ⟨hw, hheld, l, hl, hnd, hdisj, hpart⟩ := h
  have hpage := (hpart p).mp (.inr hp)
  have hpl : p ∉ l := fun hq => hdisj p hq hp
  have hp0 : p ≠ 0 := by
    have := hpage.above
    omega
  have hp64 : p < 2 ^ 64 := by
    have := hpage.below
    unfold PHYSTOP PGSIZE at this
    omega
  refine ⟨hp64, hheld.erase p, p :: l,
    kfree_freeList hl (fun q hq => ((hpart q).mp (.inl hq)).aligned) hpage.aligned hp0 hpl hw,
    List.nodup_cons.mpr ⟨hpl, hnd⟩, fun q hq => ?_, fun q => ?_⟩
  · rw [hheld.mem_erase_iff]
    rcases List.mem_cons.mp hq with rfl | hq
    · exact fun hc => hc.1 rfl
    · exact fun hc => hdisj q hq hc.2
  · rw [← hpart q, List.mem_cons, hheld.mem_erase_iff]
    constructor
    · rintro ((rfl | hq) | hq)
      exacts [.inr hp, .inl hq, .inr hq.2]
    · rintro (hq | hq)
      · exact .inl (.inr hq)
      · by_cases hqp : q = p
        exacts [.inl (.inl hqp), .inr ⟨hqp, hq⟩]

/-- A client's write inside a held page is outside every free page. -/
theorem Inv.write (h : Inv kernel_end s) {x p : ℕ} {c : UInt8} (hp : p ∈ s.held)
    (hx : p ≤ x ∧ x < p + PGSIZE) :
    Inv kernel_end { s with kmem := { s.kmem with mem := s.kmem.mem.poke x c } } := by
  obtain ⟨hw, hheld, l, hl, hnd, hdisj, hpart⟩ := h
  refine ⟨hw, hheld, l, poke_freeList hl fun q hq => ?_, hnd, hdisj, hpart⟩
  have hne : q ≠ p := fun e => hdisj q hq (e ▸ hp)
  have := aligned_disjoint ((hpart q).mp (.inl hq)).aligned ((hpart p).mp (.inr hp)).aligned hne
  omega

/-- The step lemma. -/
theorem Inv.of_step (h0 : 0 < kernel_end) (h : Inv kernel_end s) (e : Event)
    (hs : step s e = some s') : Inv kernel_end s' := by
  cases e with
  | alloc =>
    obtain ⟨⟨p, b⟩, ha, rfl⟩ := Option.map_eq_some_iff.mp hs
    exact (h.alloc ha).2.2
  | free p =>
    simp only [step, Option.ite_none_right_eq_some, Option.some.injEq] at hs
    obtain ⟨hp, rfl⟩ := hs
    exact h.free h0 hp
  | write x c =>
    simp only [step, Option.ite_none_right_eq_some, Option.some.injEq] at hs
    obtain ⟨⟨p, hp, hx⟩, rfl⟩ := hs
    exact h.write hp hx

/-- The run lemma: every state reachable after initialisation. -/
theorem Inv.reachable {mem : Mem} {b : Kmem} (h0 : 0 < kernel_end) (hk : kernel_end < PHYSTOP)
    (hb : kinit_memblock ⟨mem, 0⟩ kernel_end = some b) (hr : Reachable step ⟨b, []⟩ s) :
    Inv kernel_end s := by
  refine hr.invariant (Inv kernel_end) ?_ fun s e s' hs => hs.of_step h0 e
  obtain ⟨b', hb', hw, l, hl, hmem⟩ := kinit_memblock_spec mem hk
  obtain rfl : b' = b := by
    rw [hb'] at hb
    simpa using hb
  refine ⟨hw, List.nodup_nil, l, hl, hl.nodup, fun p _ => List.not_mem_nil, fun p => ?_⟩
  rw [hmem, or_iff_left List.not_mem_nil]
  refine ⟨fun h => h.2, fun h => ⟨?_, h⟩⟩
  have := h.above
  omega

/-- Allocation fails exactly when every managed page is held. -/
theorem Inv.alloc_eq_none_iff (h : Inv kernel_end s) :
    kalloc_page_memblock s.kmem = none ↔ ∀ p, IsPage kernel_end p → p ∈ s.held := by
  obtain ⟨hw, hheld, l, hl, hnd, hdisj, hpart⟩ := h
  constructor
  · intro hn p hp
    by_cases hfl : s.kmem.freelist = 0
    · have hnil : l = [] := Chain.eq_nil (by simpa [FreeList, hfl] using hl)
      subst hnil
      exact ((hpart p).mpr hp).resolve_left List.not_mem_nil
    · rw [kalloc_page_memblock, if_neg hfl] at hn
      cases hn
  · intro hall
    rw [kalloc_page_memblock, if_pos]
    by_contra hfl
    obtain ⟨t, rfl, -⟩ := Chain.eq_cons hl hfl
    exact hdisj _ List.mem_cons_self (hall _ ((hpart _).mp (.inl List.mem_cons_self)))

/-! ## The main result -/

/-- **`memblock`** over whole runs: for every kernel image that ends above
address zero, whatever the clients do inside the pages they hold, the free and
the held pages partition the managed pages, no held page is handed out, and
allocation fails exactly when there is nothing left to hand out. -/
theorem memblock_partition (mem : Mem) (kernel_end : ℕ) (h0 : 0 < kernel_end)
    (hk : kernel_end < PHYSTOP) :
    ∃ b, kinit_memblock ⟨mem, 0⟩ kernel_end = some b ∧
      ∀ s, Reachable step ⟨b, []⟩ s →
        Partition kernel_end s ∧
        (∀ p b', kalloc_page_memblock s.kmem = some (p, b') →
          p ∉ s.held ∧ IsPage kernel_end p) ∧
        (kalloc_page_memblock s.kmem = none ↔ ∀ p, IsPage kernel_end p → p ∈ s.held) := by
  obtain ⟨b, hb, -⟩ := kinit_memblock_spec mem hk
  refine ⟨b, hb, fun s hs => ?_⟩
  have hinv := Inv.reachable h0 hk hb hs
  refine ⟨hinv.part, fun p b' ha => ?_, hinv.alloc_eq_none_iff⟩
  have := hinv.alloc ha
  exact ⟨this.1, this.2.1⟩

/-- The result at the kernel's link address. -/
theorem memblock_partition_link_address :
    ∃ b, kinit_memblock ⟨fun _ => 0, 0⟩ 0x9000000090000000 = some b ∧
      ∀ s, Reachable step ⟨b, []⟩ s →
        Partition 0x9000000090000000 s ∧
        (∀ p b', kalloc_page_memblock s.kmem = some (p, b') →
          p ∉ s.held ∧ IsPage 0x9000000090000000 p) ∧
        (kalloc_page_memblock s.kmem = none ↔
          ∀ p, IsPage 0x9000000090000000 p → p ∈ s.held) :=
  memblock_partition _ _ (by norm_num) (by norm_num)

/-- Were the image to end at address zero, page zero would be lost: it is a
managed page, but the list cannot contain it, since null ends the list. -/
theorem memblock_null_page_lost :
    ∃ b, kinit_memblock ⟨fun _ => 0, 0⟩ 0 = some b ∧ ¬ Partition 0 ⟨b, []⟩ := by
  obtain ⟨b, hb, -⟩ := kinit_memblock_spec (fun _ => 0) (show 0 < PHYSTOP by norm_num)
  refine ⟨b, hb, fun h => ?_⟩
  obtain ⟨l, hl, -, -, hpart⟩ := h.list
  have hzero : IsPage 0 0 := ⟨rfl, Nat.le_refl 0, by norm_num⟩
  rcases (hpart 0).mpr hzero with h0 | h0
  · exact Chain.ne_zero_of_mem hl h0 rfl
  · exact List.not_mem_nil h0

end Loos.Memblock
