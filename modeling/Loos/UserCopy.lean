/-
`copy_to_va` and `copy_from_va` over any page table.

Nothing is assumed about the tables here: they are whatever words the walker finds
from the root on. [`page`] is the place of each virtual page, and the copies are the
copies of `Lib.Paged` through it. What they need is that two mapped pages are never
one ([`Distinct`]) and that no word of the tables lies in a mapped page
([`Unshared`]): a page that is mapped and a table at once may be changed by the
first turn of the loop, and then the next turn walks through other tables
([`self_mapped`]).

The bytes of the source are read from memory by `memmove`, through a 64-bit pointer.
-/
import Loos.AddrSpace
import Loos.Lib.Paged

set_option autoImplicit false

namespace Loos.UserCopy

open SysLib Kern PageTable AddrSpace Paged

/-! ## The code -/

/-- The body of the loop of `copy_to_va`, with the source in the same memory. -/
def copy_to_va_body (pagetable : ℕ) (s : CopyToLoop) : Option CopyToLoop :=
  let va0 := PGROUNDDOWN s.dstva
  (va_to_pa s.kern pagetable va0).map fun pa0 =>
    if pa0 = 0 then { s with ret := some (-1) }
    else
      let n := if PGSIZE - (s.dstva - va0) > s.len then s.len else PGSIZE - (s.dstva - va0)
      { s with
        kern := { s.kern with
          mem := s.kern.mem.put (PA2VA (pa0 + (s.dstva - va0))) n fun i =>
            s.kern.mem ((s.src + i) % 2 ^ 64) }
        dstva := (va0 + PGSIZE) % 2 ^ 64
        src := (s.src + n) % 2 ^ 64
        len := s.len - n }

/-- `copy_to_va` -/
def copy_to_va (k : Kern) (pagetable dstva src len : ℕ) : Option (ℤ × Kern) :=
  (loop (fun s => decide (s.len > 0 ∧ s.ret = none)) (copy_to_va_body pagetable) (len + 1)
    ⟨k, dstva, src, len, none⟩).map fun s => (s.ret.getD 0, s.kern)

/-! ## The walk -/

/-- The entry of `va` that the walk from the table at `pt` comes to, zero if a table is missing. -/
def entry (m : Mem) (va : ℕ) : ℕ → ℕ → ℕ
  | 0, pt => m.load64 (pt + 8 * PX 0 va)
  | level + 1, pt =>
    let e := m.load64 (pt + 8 * PX (level + 1) va)
    if e = 0 then 0 else entry m va level (PA2VA (PTE2PA e))

/-- The words that this walk reads. -/
def slots (m : Mem) (va : ℕ) : ℕ → ℕ → List ℕ
  | 0, pt => [pt + 8 * PX 0 va]
  | level + 1, pt =>
    let slot := pt + 8 * PX (level + 1) va
    slot :: if m.load64 slot = 0 then [] else slots m va level (PA2VA (PTE2PA (m.load64 slot)))

/-- The leaf entry of `va`. -/
def leafOf (m : Mem) (root va : ℕ) : ℕ := entry m va 2 (PA2VA root)

/-- The page of `va` is mapped, below `2^47`. -/
def Mapped (m : Mem) (root va : ℕ) : Prop := va < MAXVA ∧ leafOf m root va &&& PTE_V ≠ 0

instance (m : Mem) (root va : ℕ) : Decidable (Mapped m root va) :=
  inferInstanceAs (Decidable (_ ∧ _))

/-- The physical page of `va`. -/
def phys (m : Mem) (root va : ℕ) : ℕ := PTE2PA (leafOf m root va)

/-- Where the virtual page number `n` is in memory. -/
def page (m : Mem) (root n : ℕ) : Option ℕ :=
  if Mapped m root (n * PGSIZE) then some (PA2VA (phys m root (n * PGSIZE))) else none

/-- Where the byte of the virtual address `va` is in memory. -/
def place (m : Mem) (root va : ℕ) : Option ℕ := at_ PGSIZE (page m root) va

/-- The byte at `x` is one of a mapped page. -/
def InPages (m : Mem) (root x : ℕ) : Prop :=
  ∃ va, Mapped m root va ∧ PA2VA (phys m root va) ≤ x ∧ x < PA2VA (phys m root va) + PGSIZE

/-- Mapped pages have different physical pages, and none is page 0. -/
structure Distinct (m : Mem) (root : ℕ) : Prop where
  nonzero : ∀ va, Mapped m root va → phys m root va ≠ 0
  inj : ∀ va va', Mapped m root va → Mapped m root va' → phys m root va = phys m root va' →
    va / PGSIZE = va' / PGSIZE

/-- No word that a walk reads is in a mapped page. -/
def Unshared (m : Mem) (root : ℕ) : Prop :=
  ∀ va < MAXVA, ∀ slot ∈ slots m va 2 (PA2VA root), ∀ j < 8, ¬ InPages m root (slot + j)

variable {k k' : Kern} {m m' : Mem} {root va va' n len src dst level pt x : ℕ}

theorem PA2VA_eq (h : x < 2 ^ 60) : PA2VA x = x + MAIN_KERNEL_DMW := by
  rw [PA2VA, show MAIN_KERNEL_DMW = 9 * 2 ^ 60 by norm_num, or_high_eq_add h, Nat.add_comm]

theorem PA2VA_ne_zero : PA2VA x ≠ 0 := by
  have : MAIN_KERNEL_DMW ≤ PA2VA x := Nat.right_le_or
  unfold MAIN_KERNEL_DMW at this
  omega

/-- A walk goes by the page. -/
theorem entry_page (h : va / PGSIZE = va' / PGSIZE) :
    entry m va level pt = entry m va' level pt := by
  induction level generalizing pt with
  | zero => rw [entry, entry, PX_congr _ h]
  | succ level ih => simp only [entry, PX_congr _ h, ih]

theorem leafOf_page (h : va / PGSIZE = va' / PGSIZE) : leafOf m root va = leafOf m root va' :=
  entry_page h

theorem mapped_page (h : va / PGSIZE = va' / PGSIZE) : Mapped m root va ↔ Mapped m root va' := by
  rw [Mapped, Mapped, leafOf_page h]
  apply and_congr_left'
  unfold MAXVA PGSIZE at *
  omega

/-- The same words give the same walk. -/
theorem entry_congr (h : ∀ slot ∈ slots m va level pt, m'.load64 slot = m.load64 slot) :
    entry m' va level pt = entry m va level pt := by
  induction level generalizing pt with
  | zero => exact h _ (by simp [slots])
  | succ level ih =>
    have hhere := h (pt + 8 * PX (level + 1) va) (by simp [slots])
    simp only [entry, hhere]
    split_ifs with h0
    · rfl
    · apply ih
      intro slot hslot
      apply h
      simp only [slots, if_neg h0]
      exact List.mem_cons_of_mem _ hslot

/-- And it reads the same words. -/
theorem slots_congr (h : ∀ slot ∈ slots m va level pt, m'.load64 slot = m.load64 slot) :
    slots m' va level pt = slots m va level pt := by
  induction level generalizing pt with
  | zero => rfl
  | succ level ih =>
    have hhere := h (pt + 8 * PX (level + 1) va) (by simp [slots])
    simp only [slots, hhere]
    split_ifs with h0
    · rfl
    · apply congrArg (List.cons _)
      apply ih
      intro slot hslot
      apply h
      simp only [slots, if_neg h0]
      exact List.mem_cons_of_mem _ hslot

/-- The walker stands on the word of the entry, or has found that there is none. -/
theorem va_to_pte_loop_eq (hpt : pt ≠ 0) : ∃ r, va_to_pte_loop va false level k pt = some (r, k) ∧
    entry k.mem va level pt = if r = 0 then 0 else k.mem.load64 r := by
  induction level generalizing pt with
  | zero =>
    refine ⟨_, rfl, ?_⟩
    rw [if_neg (by omega), entry]
  | succ level ih =>
    simp only [va_to_pte_loop, entry]
    by_cases h0 : k.mem.load64 (pt + 8 * PX (level + 1) va) = 0
    · exact ⟨0, by simp [h0]⟩
    · simp only [ne_eq, h0, not_false_eq_true, if_true, if_false]
      exact ih PA2VA_ne_zero

theorem va_to_pa_eq (hva : va % PGSIZE = 0) :
    va_to_pa k root va = some (if Mapped k.mem root va then phys k.mem root va else 0) := by
  rw [va_to_pa, hva, Nat.sub_zero]
  by_cases hlow : va < MAXVA
  · obtain ⟨r, hr, hentry⟩ : ∃ r, va_to_pte_loop va false 2 k (PA2VA root) = some (r, k) ∧
        entry k.mem va 2 (PA2VA root) = if r = 0 then 0 else k.mem.load64 r :=
      va_to_pte_loop_eq PA2VA_ne_zero
    rw [if_neg (Nat.not_le.mpr hlow), va_to_pte_pointer, if_neg (Nat.not_le.mpr hlow), hr]
    simp only [Option.map_some, Mapped, phys, leafOf, hlow, true_and, hentry, Nat.add_zero]
    split_ifs with h0 <;> simp_all
  · rw [if_pos (Nat.le_of_not_lt hlow), if_neg fun h => hlow h.1]

theorem page_eq_none : page m root (va / PGSIZE) = none ↔ ¬ Mapped m root va := by
  have hpage : va / PGSIZE * PGSIZE / PGSIZE = va / PGSIZE := Nat.mul_div_cancel _ (by norm_num)
  rw [← mapped_page hpage, page]
  split_ifs with h <;> simp [h]

theorem place_eq_none : place m root va = none ↔ ¬ Mapped m root va := by
  rw [place, at_eq_none, page_eq_none]

/-- What the copiers find for the address they have come to. -/
theorem va_to_pa_down (hva : va < 2 ^ 64) : va_to_pa k root (PGROUNDDOWN va) =
    some (if Mapped k.mem root va then phys k.mem root va else 0) := by
  have hpage : va / PGSIZE * PGSIZE / PGSIZE = va / PGSIZE := Nat.mul_div_cancel _ (by norm_num)
  rw [PGROUNDDOWN_eq hva, va_to_pa_eq (Nat.mul_mod_left _ _)]
  simp only [mapped_page hpage, phys, leafOf_page hpage]

theorem place_eq_some (h : Mapped m root va) :
    place m root va = some (PA2VA (phys m root va) + va % PGSIZE) := by
  have hpage : va / PGSIZE * PGSIZE / PGSIZE = va / PGSIZE := Nat.mul_div_cancel _ (by norm_num)
  have hphys : phys m root (va / PGSIZE * PGSIZE) = phys m root va := by
    rw [phys, leafOf_page hpage, phys]
  rw [place, at_, page, if_pos ((mapped_page hpage).mpr h), hphys, Option.map_some]

/-- The byte in the page, found from the physical address. -/
theorem PA2VA_phys_add : PA2VA (phys m root va + va % PGSIZE) =
    PA2VA (phys m root va) + va % PGSIZE := by
  have hlt : phys m root va < 2 ^ 50 := PA2PTE_lt _
  have hoff : va % PGSIZE < 2 ^ 14 := Nat.mod_lt _ (by norm_num)
  rw [PA2VA_eq (by omega), PA2VA_eq (by omega), Nat.add_right_comm]

theorem place_inPages (h : place m root va = some x) : InPages m root x := by
  have hmapped : Mapped m root va := by
    by_contra hno
    rw [place_eq_none.mpr hno] at h
    cases h
  have hoff : va % PGSIZE < PGSIZE := Nat.mod_lt _ (by norm_num)
  rw [place_eq_some hmapped, Option.some.injEq] at h
  exact ⟨va, hmapped, by omega, by omega⟩

/-- Two pages of physical memory are one or apart. -/
theorem Distinct.apart (h : Distinct m root) : Apart PGSIZE (page m root) := by
  intro p q a b ha hb hne
  rw [page, Option.ite_none_right_eq_some] at ha hb
  obtain ⟨hp, rfl⟩ := And.imp_right Option.some.inj ha
  obtain ⟨hq, rfl⟩ := And.imp_right Option.some.inj hb
  have hphys : phys m root (p * PGSIZE) ≠ phys m root (q * PGSIZE) := by
    intro he
    have hpage := h.inj _ _ hp hq he
    rw [Nat.mul_div_cancel _ (by norm_num), Nat.mul_div_cancel _ (by norm_num)] at hpage
    exact hne hpage
  have hplt : phys m root (p * PGSIZE) < 2 ^ 50 := PA2PTE_lt _
  have hqlt : phys m root (q * PGSIZE) < 2 ^ 50 := PA2PTE_lt _
  have hpal : phys m root (p * PGSIZE) % PGSIZE = 0 := by
    rw [phys, PTE2PA_eq, Nat.mul_mod_left]
  have hqal : phys m root (q * PGSIZE) % PGSIZE = 0 := by
    rw [phys, PTE2PA_eq, Nat.mul_mod_left]
  rw [PA2VA_eq (hplt.trans (by norm_num)), PA2VA_eq (hqlt.trans (by norm_num))]
  unfold PGSIZE at *
  omega

/-! ## Memories with the same tables -/

/-- The tables are in the same places, with the same entries. -/
structure SameTables (m m' : Mem) (root : ℕ) : Prop where
  slots : ∀ va < MAXVA, slots m' va 2 (PA2VA root) = slots m va 2 (PA2VA root)
  leafOf : ∀ va < MAXVA, leafOf m' root va = leafOf m root va

/-- Memories that agree on the words that the walks read. -/
theorem sameTables_of_words
    (h : ∀ va < MAXVA, ∀ slot ∈ slots m va 2 (PA2VA root), m'.load64 slot = m.load64 slot) :
    SameTables m m' root :=
  ⟨fun va hva => slots_congr (h va hva), fun va hva => entry_congr (h va hva)⟩

/-- A change inside the mapped pages leaves the tables alone, if they are not shared. -/
theorem Unshared.sameTables (h : Unshared m root) (hm : ∀ x, ¬ InPages m root x → m' x = m x) :
    SameTables m m' root := by
  apply sameTables_of_words
  intro va hva slot hslot
  apply Mem.load64_congr
  intro x hlo hhi
  apply hm
  obtain ⟨j, rfl⟩ := Nat.exists_eq_add_of_le hlo
  exact h va hva slot hslot j (by omega)

theorem SameTables.mapped (h : SameTables m m' root) : Mapped m' root va ↔ Mapped m root va := by
  rw [Mapped, Mapped]
  apply and_congr_right
  intro hva
  rw [h.leafOf va hva]

theorem SameTables.phys (h : SameTables m m' root) (hva : Mapped m root va) :
    phys m' root va = phys m root va := by
  rw [UserCopy.phys, h.leafOf va hva.1, UserCopy.phys]

theorem SameTables.page (h : SameTables m m' root) : page m' root = page m root := by
  funext n
  by_cases hn : Mapped m root (n * PGSIZE)
  · rw [UserCopy.page, UserCopy.page, if_pos hn, if_pos (h.mapped.mpr hn), h.phys hn]
  · rw [UserCopy.page, UserCopy.page, if_neg hn, if_neg fun hn' => hn (h.mapped.mp hn')]

theorem SameTables.inPages (h : SameTables m m' root) : InPages m' root x ↔ InPages m root x := by
  constructor
  · rintro ⟨va, hva, hx⟩
    have hva := h.mapped.mp hva
    rw [h.phys hva] at hx
    exact ⟨va, hva, hx⟩
  · rintro ⟨va, hva, hx⟩
    rw [← h.phys hva] at hx
    exact ⟨va, h.mapped.mpr hva, hx⟩

theorem SameTables.distinct (h : SameTables m m' root) (hd : Distinct m root) :
    Distinct m' root := by
  constructor
  · intro va hva
    have hva := h.mapped.mp hva
    rw [h.phys hva]
    exact hd.nonzero va hva
  · intro va va' hva hva' he
    have hva := h.mapped.mp hva
    have hva' := h.mapped.mp hva'
    rw [h.phys hva, h.phys hva'] at he
    exact hd.inj va va' hva hva' he

theorem SameTables.va_to_pa (h : SameTables m k.mem root) (hva : va < 2 ^ 64) :
    va_to_pa k root (PGROUNDDOWN va) =
      some (if Mapped m root va then UserCopy.phys m root va else 0) := by
  rw [va_to_pa_down hva]
  by_cases hmapped : Mapped m root va
  · rw [if_pos hmapped, if_pos (h.mapped.mpr hmapped), h.phys hmapped]
  · rw [if_neg hmapped, if_neg fun hm => hmapped (h.mapped.mp hm)]

/-! ## `copy_to_va` -/

/-- The bytes behind the pointer `src`. -/
def bytesAt (m : Mem) (src : ℕ) : Mem := fun i => m ((src + i) % 2 ^ 64)

/-- The loop after `n` bytes. -/
structure ToInv (k : Kern) (root dst src len n : ℕ) (s : CopyToLoop) : Prop where
  le : n ≤ len
  len_eq : s.len = len - n
  src_eq : s.src = (src + n) % 2 ^ 64
  dstva : s.len = 0 ∨ s.dstva = dst + n
  pages : s.kern.pages = k.pages
  mem : s.kern.mem = scatter PGSIZE (page k.mem root) k.mem dst (bytesAt k.mem src) n
  mapped : ∀ i < n, Mapped k.mem root (dst + i)
  hole : s.ret = none ∨ s.ret = some (-1) ∧ n < len ∧ ¬ Mapped k.mem root (dst + n)

theorem scatter_outside (hx : ¬ InPages m root x) (src : Mem) (n : ℕ) :
    scatter PGSIZE (page m root) m dst src n x = m x :=
  scatter_frame fun _ _ hplace => hx (place_inPages hplace)

/-- The cursor does not wrap: every byte so far was mapped, so it is below `2^47`. -/
theorem cursor_lt (hdst : dst < 2 ^ 64) (h : ∀ i < n, Mapped m root (dst + i)) :
    dst + n < 2 ^ 64 := by
  by_cases hn : n = 0
  · omega
  · have hlast := (h (n - 1) (by omega)).1
    unfold MAXVA at hlast
    omega

/-- The offset in the page and the bytes of a turn, as the loops compute them. -/
theorem turn_eq (hva : va < 2 ^ 64) (len : ℕ) : va - PGROUNDDOWN va = va % PGSIZE ∧
    (if PGSIZE - va % PGSIZE > len then len else PGSIZE - va % PGSIZE) = chunk PGSIZE va len := by
  refine ⟨?_, rfl⟩
  rw [PGROUNDDOWN_eq hva]
  unfold PGSIZE
  omega

/-- The next cursor: behind the bytes of the turn, if there is anything left. -/
theorem next_cursor (hva : va < MAXVA) (hlen : 0 < len) : len - chunk PGSIZE va len = 0 ∨
    (PGROUNDDOWN va + PGSIZE) % 2 ^ 64 = va + chunk PGSIZE va len := by
  obtain ⟨-, -, -, hend⟩ := chunk_spec (P := PGSIZE) (y := va) (by norm_num) hlen
  rcases hend with hall | hpage
  · left
    omega
  · right
    unfold MAXVA at hva
    rw [PGROUNDDOWN_eq (by omega), hpage]
    apply Nat.mod_eq_of_lt
    have := (chunk_spec (P := PGSIZE) (y := va) (by norm_num) hlen).1
    unfold PGSIZE at *
    omega

/-- The rest of a mapped page is mapped. -/
theorem mapped_rest {i : ℕ} (h : Mapped m root va) (hi : va % PGSIZE + i < PGSIZE) :
    Mapped m root (va + i) := by
  apply (mapped_page _).mp h
  unfold PGSIZE at *
  omega

/-- A turn at a byte that is not mapped ends the loop. -/
theorem ToInv.body_stop {s : CopyToLoop} (h : ToInv k root dst src len n s) (hlen : s.len > 0)
    (ht : SameTables k.mem s.kern.mem root) (hdst : dst + n < 2 ^ 64)
    (hno : ¬ Mapped k.mem root (dst + n)) :
    copy_to_va_body root s = some { s with ret := some (-1) } := by
  have hva : s.dstva = dst + n := h.dstva.resolve_left (by omega)
  have hpa := ht.va_to_pa hdst
  rw [if_neg hno] at hpa
  rw [copy_to_va_body, hva, hpa]
  rfl

theorem ToInv.stop {s : CopyToLoop} (h : ToInv k root dst src len n s) (hlen : s.len > 0)
    (hno : ¬ Mapped k.mem root (dst + n)) :
    ToInv k root dst src len n { s with ret := some (-1) } := by
  have hlt : n < len := by
    have := h.len_eq
    omega
  exact ⟨h.le, h.len_eq, h.src_eq, h.dstva, h.pages, h.mem, h.mapped, .inr ⟨rfl, hlt, hno⟩⟩

/-- The state after a turn that copies `c` bytes to the place `a`. -/
def copied_to (s : CopyToLoop) (a c : ℕ) : CopyToLoop :=
  { s with
    kern := { s.kern with mem := s.kern.mem.put a c fun i => s.kern.mem ((s.src + i) % 2 ^ 64) }
    dstva := (PGROUNDDOWN s.dstva + PGSIZE) % 2 ^ 64
    src := (s.src + c) % 2 ^ 64
    len := s.len - c }

/-- A turn at a byte that is mapped copies up to the end of its page. -/
theorem ToInv.body_step {s : CopyToLoop} (h : ToInv k root dst src len n s) (hlen : s.len > 0)
    (ht : SameTables k.mem s.kern.mem root) (hd : Distinct k.mem root)
    (hmapped : Mapped k.mem root (dst + n)) :
    copy_to_va_body root s = some (copied_to s
      (PA2VA (phys k.mem root (dst + n)) + (dst + n) % PGSIZE) (chunk PGSIZE (dst + n) s.len)) := by
  have hva : s.dstva = dst + n := h.dstva.resolve_left (by omega)
  have hlow : dst + n < 2 ^ 64 := lt_trans hmapped.1 (by norm_num)
  have hpa := ht.va_to_pa hlow
  rw [if_pos hmapped] at hpa
  obtain ⟨hoff, hturn⟩ := turn_eq hlow s.len
  rw [copy_to_va_body, hva, hpa, Option.map_some]
  simp only [hd.nonzero _ hmapped, if_false, hoff, hturn, PA2VA_phys_add, copied_to, hva]

/-- The source has not changed. -/
theorem ToInv.source {s : CopyToLoop} (h : ToInv k root dst src len n s)
    (hsrc : ∀ i < len, ¬ InPages k.mem root ((src + i) % 2 ^ 64)) {i : ℕ} (hi : i < s.len) :
    s.kern.mem ((s.src + i) % 2 ^ 64) = bytesAt k.mem src (n + i) := by
  obtain ⟨hle, hlen_eq, hsrc_eq, -, -, hmem, -, -⟩ := h
  have hptr : (s.src + i) % 2 ^ 64 = (src + (n + i)) % 2 ^ 64 := by omega
  rw [hptr, bytesAt, hmem]
  exact scatter_outside (hsrc _ (by omega)) _ _

theorem ToInv.step {s : CopyToLoop} (h : ToInv k root dst src len n s) (hlen : s.len > 0)
    (hret : s.ret = none) (hsrc : ∀ i < len, ¬ InPages k.mem root ((src + i) % 2 ^ 64))
    (hmapped : Mapped k.mem root (dst + n)) :
    ToInv k root dst src len (n + chunk PGSIZE (dst + n) s.len) (copied_to s
      (PA2VA (phys k.mem root (dst + n)) + (dst + n) % PGSIZE) (chunk PGSIZE (dst + n) s.len)) := by
  obtain ⟨hfit, hpos, hle, -⟩ := chunk_spec (P := PGSIZE) (y := dst + n) (by norm_num) hlen
  have hsource := fun i hi => h.source hsrc (i := i) hi
  have hva : s.dstva = dst + n := h.dstva.resolve_left (by omega)
  obtain ⟨hle', hlen_eq, hsrc_eq, -, hpages, hmem, hall, -⟩ := h
  refine ⟨by omega, ?_, ?_, ?_, hpages, ?_, ?_, .inl hret⟩
  · dsimp only [copied_to]
    omega
  · dsimp only [copied_to]
    omega
  · dsimp only [copied_to]
    rw [← Nat.add_assoc, hva]
    exact next_cursor hmapped.1 hlen
  · dsimp only [copied_to]
    rw [scatter_page (place_eq_some hmapped) hfit, ← hmem]
    apply Mem.put_congr
    intro i hi
    exact hsource i (by omega)
  · intro i hi
    by_cases hin : i < n
    · exact hall i hin
    · obtain ⟨j, rfl⟩ := Nat.exists_eq_add_of_le (Nat.le_of_not_lt hin)
      rw [← Nat.add_assoc]
      exact mapped_rest hmapped (by omega)

theorem ToInv.sameTables {s : CopyToLoop} (h : ToInv k root dst src len n s)
    (hu : Unshared k.mem root) : SameTables k.mem s.kern.mem root := by
  apply hu.sameTables
  intro x hx
  rw [h.mem]
  exact scatter_outside hx _ _

theorem ToInv.init (hsrc64 : src < 2 ^ 64) :
    ToInv k root dst src len 0 ⟨k, dst, src, len, none⟩ :=
  ⟨Nat.zero_le _, rfl, (Nat.mod_eq_of_lt hsrc64).symm, .inr rfl, rfl, rfl, by simp, .inl rfl⟩

/-- The number of bytes that can be copied: up to the first one that is not mapped. -/
structure Extent (m : Mem) (root dst len n : ℕ) : Prop where
  le : n ≤ len
  mapped : ∀ i < n, Mapped m root (dst + i)
  stop : n = len ∨ ¬ Mapped m root (dst + n)

/-- **`copy_to_va`** scatters the bytes up to the first one that is not mapped, and says
whether there was one. -/
theorem copy_to_va_spec (hd : Distinct k.mem root) (hu : Unshared k.mem root)
    (hsrc : ∀ i < len, ¬ InPages k.mem root ((src + i) % 2 ^ 64)) (hsrc64 : src < 2 ^ 64)
    (hdst : dst < 2 ^ 64) : ∃ n k', Extent k.mem root dst len n ∧ k'.pages = k.pages ∧
      k'.mem = scatter PGSIZE (page k.mem root) k.mem dst (bytesAt k.mem src) n ∧
      copy_to_va k root dst src len = some (if n = len then 0 else -1, k') := by
  obtain ⟨s, hs, ⟨n, hn⟩, hdone⟩ := loop_spec
    (c := fun s : CopyToLoop => decide (s.len > 0 ∧ s.ret = none))
    (f := copy_to_va_body root) (n := len + 1)
    (fun s => ∃ n, ToInv k root dst src len n s)
    (fun s => if s.ret = none then s.len else 0)
    (fun s hinv hc => by
      obtain ⟨n, hn⟩ := hinv
      obtain ⟨hlen, hret⟩ := of_decide_eq_true hc
      have ht := hn.sameTables hu
      by_cases hmapped : Mapped k.mem root (dst + n)
      · refine ⟨_, hn.body_step hlen ht hd hmapped, ⟨_, hn.step hlen hret hsrc hmapped⟩, ?_⟩
        have hpos := (chunk_spec (P := PGSIZE) (y := dst + n) (by norm_num) hlen).2.1
        have hret' : ∀ a c, (copied_to s a c).ret = none := fun _ _ => hret
        rw [if_pos (hret' _ _), if_pos hret]
        exact Nat.sub_lt hlen hpos
      · have hlow := cursor_lt hdst hn.mapped
        refine ⟨_, hn.body_stop hlen ht hlow hmapped, ⟨n, hn.stop hlen hmapped⟩, ?_⟩
        rw [if_pos hret, if_neg (by simp)]
        exact hlen)
    ⟨0, .init hsrc64⟩ (by simp)
  have hdone := of_decide_eq_false hdone
  have hlen_eq := hn.len_eq
  have hle := hn.le
  rcases hn.hole with hret | ⟨hret, hlt, hno⟩
  · -- all bytes have been copied
    have hall : n = len := by
      by_contra hne
      exact hdone ⟨by omega, hret⟩
    refine ⟨n, s.kern, ⟨hn.le, hn.mapped, .inl hall⟩, hn.pages, hn.mem, ?_⟩
    rw [copy_to_va, hs, Option.map_some, hret, if_pos hall]
    rfl
  · refine ⟨n, s.kern, ⟨hn.le, hn.mapped, .inr hno⟩, hn.pages, hn.mem, ?_⟩
    rw [copy_to_va, hs, Option.map_some, hret, if_neg (Nat.ne_of_lt hlt)]
    rfl

theorem Extent.eq_len_iff (h : Extent m root dst len n) :
    n = len ↔ ∀ va, dst ≤ va → va < dst + len → Mapped m root va := by
  constructor
  · rintro rfl va hlo hhi
    obtain ⟨i, rfl⟩ := Nat.exists_eq_add_of_le hlo
    exact h.mapped i (by omega)
  · intro hall
    by_contra hne
    have hle := h.le
    exact h.stop.resolve_left hne (hall (dst + n) (by omega) (by omega))

/-- The two loops side by side: the source is the memory, or its bytes at the start. -/
structure Beside (k : Kern) (root dst src len : ℕ) (s t : CopyToLoop) : Prop where
  inv : ∃ n, ToInv k root dst src len n s ∧ t.src = n
  kern : t.kern = s.kern
  dstva : t.dstva = s.dstva
  len : t.len = s.len
  ret : t.ret = s.ret

theorem Beside.results {r r' : Option CopyToLoop}
    (h : Option.Rel (Beside k root dst src len) r r') :
    r.map (fun s => (s.ret.getD 0, s.kern)) = r'.map fun s => (s.ret.getD 0, s.kern) := by
  cases h with
  | none => rfl
  | some h => rw [Option.map_some, Option.map_some, h.ret, h.kern]

/-- **A source outside the pages is a memory of its own**, as it is for the loader. -/
theorem copy_to_va_eq (hd : Distinct k.mem root) (hu : Unshared k.mem root)
    (hsrc : ∀ i < len, ¬ InPages k.mem root ((src + i) % 2 ^ 64)) (hsrc64 : src < 2 ^ 64)
    (hdst : dst < 2 ^ 64) :
    copy_to_va k root dst src len = AddrSpace.copy_to_va k root dst (bytesAt k.mem src) len := by
  have hsim : Option.Rel (Beside k root dst src len)
      (loop (fun s => decide (s.len > 0 ∧ s.ret = none)) (copy_to_va_body root) (len + 1)
        ⟨k, dst, src, len, none⟩)
      (loop (fun s => decide (s.len > 0 ∧ s.ret = none))
        (AddrSpace.copy_to_va_body root (bytesAt k.mem src)) (len + 1) ⟨k, dst, 0, len, none⟩) := by
    apply loop_sim
    · intro s t h
      rw [h.len, h.ret]
    · intro s t h hc
      obtain ⟨hlen, hret⟩ := of_decide_eq_true hc
      obtain ⟨n, hn, hptr⟩ := h.inv
      have ht := hn.sameTables hu
      have hlow := cursor_lt hdst hn.mapped
      have hpa := ht.va_to_pa hlow
      have hva : s.dstva = dst + n := hn.dstva.resolve_left (by omega)
      by_cases hmapped : Mapped k.mem root (dst + n)
      · obtain ⟨hoff, hturn⟩ := turn_eq hlow s.len
        rw [if_pos hmapped] at hpa
        rw [hn.body_step hlen ht hd hmapped, AddrSpace.copy_to_va_body, h.kern, h.dstva, hva, hpa,
          Option.map_some]
        simp only [hd.nonzero _ hmapped, if_false, hoff, h.len, hturn, PA2VA_phys_add]
        refine .some ⟨⟨_, hn.step hlen hret hsrc hmapped, ?_⟩, ?_, ?_, rfl, h.ret⟩
        · rw [hptr]
        · dsimp only [copied_to]
          congr 1
          apply Mem.put_congr
          intro i hi
          have hle := (chunk_spec (P := PGSIZE) (y := dst + n) (by norm_num) hlen).2.2.1
          rw [hptr]
          exact (hn.source hsrc (lt_of_lt_of_le hi hle)).symm
        · dsimp only [copied_to]
          rw [hva]
      · have hstop : AddrSpace.copy_to_va_body root (bytesAt k.mem src) t =
            some { t with ret := some (-1) } := by
          rw [if_neg hmapped] at hpa
          rw [AddrSpace.copy_to_va_body, h.kern, h.dstva, hva, hpa]
          rfl
        rw [hn.body_stop hlen ht hlow hmapped, hstop]
        exact .some ⟨⟨n, hn.stop hlen hmapped, hptr⟩, h.kern, h.dstva, h.len, rfl⟩
    · exact ⟨⟨0, .init hsrc64, rfl⟩, rfl, rfl, rfl, rfl⟩
  exact Beside.results hsim

/-! ## `copy_from_va` -/

/-- The loop after `n` bytes. -/
structure FromInv (k : Kern) (root dst va len n : ℕ) (s : CopyLoop) : Prop where
  le : n ≤ len
  len_eq : s.len = len - n
  dst_eq : s.dst = (dst + n) % 2 ^ 64
  srcva : s.len = 0 ∨ s.srcva = va + n
  ret : s.ret = none
  mem : s.kern.mem = k.mem.put dst n (gather PGSIZE (page k.mem root) k.mem va)

/-- The `len` bytes from `dst` on are memory of the kernel: not in a mapped page, and no
part of a table. -/
structure Buffer (m : Mem) (root dst len : ℕ) : Prop where
  le : dst + len ≤ 2 ^ 64
  outside : ∀ x, dst ≤ x → x < dst + len → ¬ InPages m root x
  tables : ∀ va < MAXVA, ∀ slot ∈ slots m va 2 (PA2VA root),
    slot + 8 ≤ dst ∨ dst + len ≤ slot

theorem Buffer.sameTables (h : Buffer m root dst len) (hn : n ≤ len) (src : Mem) :
    SameTables m (m.put dst n src) root := by
  apply sameTables_of_words
  intro va hva slot hslot
  apply Mem.load64_congr
  intro x hlo hhi
  have := h.tables va hva slot hslot
  exact Mem.put_apply_of_disjoint (by omega)

theorem SameTables.buffer (h : SameTables m m' root) (hb : Buffer m root dst len) :
    Buffer m' root dst len := by
  refine ⟨hb.le, fun x hlo hhi hin => hb.outside x hlo hhi (h.inPages.mp hin), ?_⟩
  intro va hva slot hslot
  rw [h.slots va hva] at hslot
  exact hb.tables va hva slot hslot

theorem FromInv.step {s : CopyLoop} (h : FromInv k root dst va len n s) (hlen : s.len > 0)
    (hb : Buffer k.mem root dst len) (hd : Distinct k.mem root)
    (hmapped : Mapped k.mem root (va + n)) :
    ∃ s' n', copy_from_va_body root s = some s' ∧ s'.len < s.len ∧
      FromInv k root dst va len n' s' := by
  have hva : s.srcva = va + n := h.srcva.resolve_left (by omega)
  have hlow : va + n < 2 ^ 64 := lt_trans hmapped.1 (by norm_num)
  have ht : SameTables k.mem s.kern.mem root := h.mem ▸ hb.sameTables h.le _
  have hpa := ht.va_to_pa hlow
  rw [if_pos hmapped] at hpa
  obtain ⟨hoff, hturn⟩ := turn_eq hlow s.len
  obtain ⟨hfit, hpos, hle, -⟩ := chunk_spec (P := PGSIZE) (y := va + n) (by norm_num) hlen
  have hbody : copy_from_va_body root s = some { s with
      kern := s.kern.memmove s.dst (PA2VA (phys k.mem root (va + n)) + (va + n) % PGSIZE)
        (chunk PGSIZE (va + n) s.len)
      dst := (s.dst + chunk PGSIZE (va + n) s.len) % 2 ^ 64
      srcva := (PGROUNDDOWN (va + n) + PGSIZE) % 2 ^ 64
      len := s.len - chunk PGSIZE (va + n) s.len } := by
    rw [copy_from_va_body, hva, hpa, Option.map_some]
    simp only [hd.nonzero _ hmapped, if_false, hoff, hturn, PA2VA_phys_add]
  refine ⟨_, n + chunk PGSIZE (va + n) s.len, hbody, by dsimp only; omega, ?_⟩
  obtain ⟨hle', hlen_eq, hdst_eq, -, hret, hmem⟩ := h
  refine ⟨by omega, by dsimp only; omega, by dsimp only; omega, ?_, hret, ?_⟩
  · dsimp only
    rw [← Nat.add_assoc]
    exact next_cursor hmapped.1 hlen
  · have hptr : s.dst = dst + n := by
      have := hb.le
      omega
    dsimp only [Kern.memmove]
    rw [hptr, ← Mem.put_append fun _ _ => rfl, ← hmem, Mem.copy_eq_put]
    apply Mem.put_congr
    intro i hi
    have hplace := at_add (place_eq_some hmapped) (k := i) (by omega)
    rw [Nat.add_assoc va n i] at hplace
    rw [gather_of_at hplace, hmem]
    -- the pages are read as they were
    apply Mem.put_apply_of_disjoint
    by_contra hin
    exact hb.outside _ (by omega) (by omega) (place_inPages hplace)

/-- **`copy_from_va`** gathers the bytes of a range that is mapped. -/
theorem copy_from_va_spec (hd : Distinct k.mem root) (hb : Buffer k.mem root dst len)
    (hdst : dst < 2 ^ 64) (hall : ∀ i < len, Mapped k.mem root (va + i)) :
    ∃ k', copy_from_va k root dst va len = some (0, k') ∧
      k'.mem = k.mem.put dst len (gather PGSIZE (page k.mem root) k.mem va) := by
  have hinit : FromInv k root dst va len 0 ⟨k, dst, va, len, none⟩ :=
    ⟨Nat.zero_le _, rfl, (Nat.mod_eq_of_lt hdst).symm, .inr rfl, rfl, Mem.put_zero.symm⟩
  obtain ⟨s, hs, ⟨n, hn⟩, hdone⟩ := loop_spec
    (c := fun s : CopyLoop => decide (s.len > 0 ∧ s.ret = none))
    (f := copy_from_va_body root) (n := len + 1)
    (fun s => ∃ n, FromInv k root dst va len n s) CopyLoop.len
    (fun s hinv hc => by
      obtain ⟨n, hn⟩ := hinv
      obtain ⟨hlen, -⟩ := of_decide_eq_true hc
      have hlt : n < len := by
        have := hn.len_eq
        omega
      obtain ⟨s', n', hs', hlt', hn'⟩ := hn.step hlen hb hd (hall n hlt)
      exact ⟨s', hs', ⟨n', hn'⟩, hlt'⟩)
    ⟨0, hinit⟩ (Nat.lt_succ_self _)
  have hdone := of_decide_eq_false hdone
  have hlen : n = len := by
    have hle := hn.le
    have hlen_eq := hn.len_eq
    by_contra hne
    exact hdone ⟨by omega, hn.ret⟩
  refine ⟨s.kern, ?_, hlen ▸ hn.mem⟩
  rw [copy_from_va, hs, Option.map_some, hn.ret]
  rfl

/-! ## Both -/

/-- **The two copiers.** Over a table whose mapped pages are distinct and are not tables
themselves, `copy_to_va` from a source outside the pages returns 0 exactly if the whole
range is mapped, and -1 otherwise; then `copy_from_va` of the range finds the bytes of the
source; and nothing but the range changes, whatever is returned. -/
theorem copy_to_va_copy_from_va (hd : Distinct k.mem root) (hu : Unshared k.mem root)
    (hsrc : ∀ i < len, ¬ InPages k.mem root ((src + i) % 2 ^ 64)) (hsrc64 : src < 2 ^ 64)
    (hdst : dst < 2 ^ 64) : ∃ ret k', copy_to_va k root dst src len = some (ret, k') ∧
      (ret = 0 ∧ (∀ va, dst ≤ va → va < dst + len → Mapped k.mem root va) ∨
        ret = -1 ∧ ¬ ∀ va, dst ≤ va → va < dst + len → Mapped k.mem root va) ∧
      (ret = 0 → ∀ buf < 2 ^ 64, Buffer k.mem root buf len →
        ∃ k'', copy_from_va k' root buf dst len = some (0, k'') ∧
          ∀ i < len, k''.mem (buf + i) = k.mem ((src + i) % 2 ^ 64)) ∧
      k'.pages = k.pages ∧
      ∀ x, k'.mem x ≠ k.mem x → ∃ va, dst ≤ va ∧ va < dst + len ∧ place k.mem root va = some x := by
  obtain ⟨n, k', hn, hpages, hmem, hret⟩ := copy_to_va_spec hd hu hsrc hsrc64 hdst
  have ht : SameTables k.mem k'.mem root := by
    apply hu.sameTables
    intro x hx
    rw [hmem]
    exact scatter_outside hx _ _
  refine ⟨_, k', hret, ?_, ?_, hpages, ?_⟩
  · by_cases hall : n = len
    · exact .inl ⟨if_pos hall, hn.eq_len_iff.mp hall⟩
    · exact .inr ⟨if_neg hall, hn.eq_len_iff.not.mp hall⟩
  · intro h0 buf hbuf hb
    have hall : n = len := by
      by_contra hne
      rw [if_neg hne] at h0
      cases h0
    subst hall
    obtain ⟨k'', hk'', hread⟩ := copy_from_va_spec (ht.distinct hd) (ht.buffer hb) hbuf
      fun i hi => ht.mapped.mpr (hn.mapped i hi)
    refine ⟨k'', hk'', fun i hi => ?_⟩
    have hplace : place k.mem root (dst + i) ≠ none := fun h0 =>
      place_eq_none.mp h0 (hn.mapped i hi)
    rw [hread, Mem.put_apply_of_mem hi, ht.page, hmem]
    exact gather_scatter hd.apart (by norm_num) hi hplace
  · intro x hx
    by_contra hno
    apply hx
    rw [hmem]
    apply scatter_frame
    intro i hi hplace
    have hle := hn.le
    exact hno ⟨dst + i, by omega, by omega, hplace⟩

/-! ## Two small tables -/

/-- A memory with these words, and 0 elsewhere. -/
def words : List (ℕ × ℕ) → Mem
  | [] => fun _ => 0
  | w :: ws => (words ws).store64 w.1 w.2

/-- The word at `x`. -/
def wordAt : List (ℕ × ℕ) → ℕ → ℕ
  | [], _ => 0
  | w :: ws, x => if x = w.1 then w.2 else wordAt ws x

theorem load64_words {ws : List (ℕ × ℕ)} (h : ∀ w ∈ ws, w.1 % 8 = 0 ∧ w.2 < 2 ^ 64)
    (hx : x % 8 = 0) : (words ws).load64 x = wordAt ws x := by
  induction ws with
  | nil => simp [words, wordAt, Mem.load64, Mem.load]
  | cons w ws ih =>
    obtain ⟨hw, hv⟩ := h w List.mem_cons_self
    rw [words, wordAt]
    split_ifs with he
    · rw [he, Mem.load64_store64_same hv]
    · rw [Mem.load64_store64_disjoint (by omega)]
      exact ih fun w' hw' => h w' (List.mem_cons_of_mem _ hw')

/-- The first two virtual pages are the physical pages `P` and `Q`, and no other is mapped. -/
structure TwoPages (m : Mem) (root P Q : ℕ) : Prop where
  leaf : ∀ va, leafOf m root va = if PX 2 va = 0 ∧ PX 1 va = 0 then
    if PX 0 va = 0 then P + 1 else if PX 0 va = 1 then Q + 1 else 0 else 0
  aligned : P % PGSIZE = 0 ∧ Q % PGSIZE = 0
  lt : P < 2 ^ 50 ∧ Q < 2 ^ 50
  nonzero : P ≠ 0 ∧ Q ≠ 0
  ne : P ≠ Q

section TwoPages

variable {P Q : ℕ}

theorem TwoPages.mapped (h : TwoPages m root P Q) : Mapped m root va ↔ va < 2 * PGSIZE := by
  obtain ⟨hP, hQ⟩ := h.aligned
  rw [Mapped, h.leaf]
  simp only [PX_eq, PTENTRIES, MAXVA, PGSIZE] at *
  norm_num
  constructor
  · rintro ⟨hva, hleaf⟩
    split_ifs at hleaf <;> omega
  · intro hva
    refine ⟨by omega, ?_⟩
    rw [if_pos (by omega)]
    split_ifs <;> omega

theorem TwoPages.phys (h : TwoPages m root P Q) (hva : va < 2 * PGSIZE) :
    phys m root va = if va < PGSIZE then P else Q := by
  obtain ⟨hP, hQ⟩ := h.aligned
  obtain ⟨hPlt, hQlt⟩ := h.lt
  have hpa : PTE2PA (P + 1) = P ∧ PTE2PA (Q + 1) = Q := by
    rw [PTE2PA_eq, PTE2PA_eq]
    unfold PGSIZE at *
    omega
  have htop : PX 2 va = 0 ∧ PX 1 va = 0 := by
    simp only [PX_eq, PTENTRIES]
    unfold PGSIZE at hva
    norm_num
    omega
  have hlow : PX 0 va = va / PGSIZE := by
    simp only [PX_eq, PTENTRIES]
    unfold PGSIZE at *
    omega
  rw [UserCopy.phys, h.leaf, if_pos htop, hlow]
  unfold PGSIZE at *
  by_cases hlo : va < 16384
  · rw [if_pos (by omega), if_pos hlo, hpa.1]
  · rw [if_neg (by omega), if_pos (by omega), if_neg hlo, hpa.2]

theorem TwoPages.distinct (h : TwoPages m root P Q) : Distinct m root := by
  obtain ⟨hP, hQ⟩ := h.nonzero
  have hne := h.ne
  constructor
  · intro va hva
    rw [h.phys (h.mapped.mp hva)]
    split_ifs
    · exact hP
    · exact hQ
  · intro va va' hva hva'
    have hlt := h.mapped.mp hva
    have hlt' := h.mapped.mp hva'
    rw [h.phys hlt, h.phys hlt']
    unfold PGSIZE at *
    split_ifs <;> omega

theorem TwoPages.inPages (h : TwoPages m root P Q) (hx : InPages m root x) :
    (P + MAIN_KERNEL_DMW ≤ x ∧ x < P + MAIN_KERNEL_DMW + PGSIZE) ∨
      (Q + MAIN_KERNEL_DMW ≤ x ∧ x < Q + MAIN_KERNEL_DMW + PGSIZE) := by
  obtain ⟨hP, hQ⟩ := h.lt
  obtain ⟨va, hva, hlo, hhi⟩ := hx
  rw [h.phys (h.mapped.mp hva)] at hlo hhi
  split_ifs at hlo hhi
  · rw [PA2VA_eq (hP.trans (by norm_num))] at hlo hhi
    exact .inl ⟨hlo, hhi⟩
  · rw [PA2VA_eq (hQ.trans (by norm_num))] at hlo hhi
    exact .inr ⟨hlo, hhi⟩

end TwoPages

/-- The tables in pages 1, 2 and 3, the virtual pages in 4 and 6, and a word in page 8. -/
def two_pages : Mem :=
  words [(MAIN_KERNEL_DMW + 0x4000, 0x8001), (MAIN_KERNEL_DMW + 0x8000, 0xc001),
    (MAIN_KERNEL_DMW + 0xc000, 0x10001), (MAIN_KERNEL_DMW + 0xc008, 0x18001),
    (MAIN_KERNEL_DMW + 0x20000, 0x1122334455667788)]

theorem two_pages_word (h : x % 8 = 0) : two_pages.load64 x =
    if x = MAIN_KERNEL_DMW + 0x4000 then 0x8001 else if x = MAIN_KERNEL_DMW + 0x8000 then 0xc001
    else if x = MAIN_KERNEL_DMW + 0xc000 then 0x10001 else if x = MAIN_KERNEL_DMW + 0xc008 then
      0x18001 else if x = MAIN_KERNEL_DMW + 0x20000 then 0x1122334455667788 else 0 := by
  rw [two_pages, load64_words (by decide) h]
  rfl

theorem two_pages_table (i : ℕ) (hi : i < PTENTRIES) :
    two_pages.load64 (PA2VA 0x4000 + 8 * i) = (if i = 0 then 0x8001 else 0) ∧
    two_pages.load64 (PA2VA 0x8000 + 8 * i) = (if i = 0 then 0xc001 else 0) ∧
    two_pages.load64 (PA2VA 0xc000 + 8 * i) =
      if i = 0 then 0x10001 else if i = 1 then 0x18001 else 0 := by
  unfold PTENTRIES at hi
  simp only [PA2VA_eq (x := 0x4000) (by norm_num), PA2VA_eq (x := 0x8000) (by norm_num),
    PA2VA_eq (x := 0xc000) (by norm_num), MAIN_KERNEL_DMW]
  refine ⟨?_, ?_, ?_⟩
  · rw [two_pages_word (by omega)]
    unfold MAIN_KERNEL_DMW
    split_ifs <;> omega
  · rw [two_pages_word (by omega)]
    unfold MAIN_KERNEL_DMW
    split_ifs <;> omega
  · rw [two_pages_word (by omega)]
    unfold MAIN_KERNEL_DMW
    split_ifs <;> omega

theorem two_pages_twoPages : TwoPages two_pages 0x4000 0x10000 0x18000 := by
  have hpa : PTE2PA 0x8001 = 0x8000 ∧ PTE2PA 0xc001 = 0xc000 := by decide
  refine ⟨fun va => ?_, by decide, by decide, by decide, by decide⟩
  simp only [leafOf, entry, (two_pages_table _ (PX_lt _ _)).1]
  by_cases h2 : PX 2 va = 0
  · simp only [h2, if_true, hpa.1, (two_pages_table _ (PX_lt _ _)).2.1]
    by_cases h1 : PX 1 va = 0
    · simp [h1, hpa.2, (two_pages_table _ (PX_lt 0 va)).2.2]
    · simp [h1]
  · simp [h2]

theorem two_pages_slots {slot : ℕ} (h : slot ∈ slots two_pages va 2 (PA2VA 0x4000)) :
    slot + 8 ≤ MAIN_KERNEL_DMW + 0x10000 := by
  have hpa : PTE2PA 0x8001 = 0x8000 ∧ PTE2PA 0xc001 = 0xc000 := by decide
  have h1 : PA2VA 0x4000 = MAIN_KERNEL_DMW + 0x4000 := by decide
  have h2 : PA2VA 0x8000 = MAIN_KERNEL_DMW + 0x8000 := by decide
  have h3 : PA2VA 0xc000 = MAIN_KERNEL_DMW + 0xc000 := by decide
  have hx2 := PX_lt 2 va
  have hx1 := PX_lt 1 va
  have hx0 := PX_lt 0 va
  unfold PTENTRIES at hx2 hx1 hx0
  have hroot : slot = PA2VA 0x4000 + 8 * PX 2 va ∨ slot = PA2VA 0x8000 + 8 * PX 1 va ∨
      slot = PA2VA 0xc000 + 8 * PX 0 va := by
    simp only [slots, (two_pages_table _ (PX_lt _ _)).1, List.mem_cons] at h
    refine h.imp_right fun h => ?_
    by_cases hroot : PX 2 va = 0
    · simp only [hroot, if_true, hpa.1, (two_pages_table _ (PX_lt _ _)).2.1] at h
      by_cases hmid : PX 1 va = 0
      · simpa [hmid, hpa.2] using h
      · simp_all
    · simp [hroot] at h
  rcases hroot with rfl | rfl | rfl <;> omega

theorem two_pages_unshared : Unshared two_pages 0x4000 := by
  intro va _ slot hslot j hj hin
  have hle := two_pages_slots hslot
  have hpages := two_pages_twoPages.inPages hin
  omega

/-- The word of page 8 copied across the end of a page, and back to page 9. -/
theorem copy_two_pages : ∃ k', copy_to_va ⟨two_pages, []⟩ 0x4000 16380
      (MAIN_KERNEL_DMW + 0x20000) 8 = some (0, k') ∧
    ∃ k'', copy_from_va k' 0x4000 (MAIN_KERNEL_DMW + 0x24000) 16380 8 = some (0, k'') ∧
      ∀ i < 8, k''.mem (MAIN_KERNEL_DMW + 0x24000 + i) =
        two_pages ((MAIN_KERNEL_DMW + 0x20000 + i) % 2 ^ 64) := by
  have hsrc : ∀ i < 8, ¬ InPages two_pages 0x4000 ((MAIN_KERNEL_DMW + 0x20000 + i) % 2 ^ 64) := by
    intro i hi hin
    have hpages := two_pages_twoPages.inPages hin
    unfold MAIN_KERNEL_DMW PGSIZE at *
    omega
  have hbuf : Buffer two_pages 0x4000 (MAIN_KERNEL_DMW + 0x24000) 8 := by
    refine ⟨by decide, fun x hlo hhi hin => ?_, fun va _ slot hslot => .inl ?_⟩
    · have hpages := two_pages_twoPages.inPages hin
      unfold PGSIZE at *
      omega
    · have hle := two_pages_slots hslot
      omega
  obtain ⟨ret, k', hk', hret, hback, -⟩ := copy_to_va_copy_from_va (k := ⟨two_pages, []⟩)
    two_pages_twoPages.distinct two_pages_unshared hsrc (by decide)
    (show 16380 < 2 ^ 64 by decide)
  have hall : ∀ va, 16380 ≤ va → va < 16380 + 8 → Mapped two_pages 0x4000 va := by
    intro va _ hhi
    apply two_pages_twoPages.mapped.mpr
    unfold PGSIZE
    omega
  obtain rfl : ret = 0 := (hret.resolve_right fun h => h.2 hall).1
  exact ⟨k', hk', hback rfl _ (by decide) hbuf⟩

/-- A root that is a table of all three levels, and the first virtual page. -/
def self_mapped : Mem :=
  words [(MAIN_KERNEL_DMW + 0x4000, 0x4001), (MAIN_KERNEL_DMW + 0x4008, 0x8001)]

theorem self_mapped_table (i : ℕ) (hi : i < PTENTRIES) :
    self_mapped.load64 (PA2VA 0x4000 + 8 * i) =
      (if i = 0 then 0x4001 else if i = 1 then 0x8001 else 0) ∧
    self_mapped.load64 (PA2VA 0x8000 + 8 * i) = 0 := by
  have hword : ∀ {x}, x % 8 = 0 → self_mapped.load64 x = if x = MAIN_KERNEL_DMW + 0x4000 then 0x4001
      else if x = MAIN_KERNEL_DMW + 0x4008 then 0x8001 else 0 := by
    intro x hx
    rw [self_mapped, load64_words (by decide) hx]
    rfl
  unfold PTENTRIES at hi
  simp only [PA2VA_eq (x := 0x4000) (by norm_num), PA2VA_eq (x := 0x8000) (by norm_num),
    MAIN_KERNEL_DMW]
  constructor
  · rw [hword (by omega)]
    unfold MAIN_KERNEL_DMW
    split_ifs <;> omega
  · rw [hword (by omega)]
    unfold MAIN_KERNEL_DMW
    split_ifs <;> omega

theorem self_mapped_twoPages : TwoPages self_mapped 0x4000 0x4000 0x8000 := by
  have hpa : PTE2PA 0x4001 = 0x4000 ∧ PTE2PA 0x8001 = 0x8000 := by decide
  refine ⟨fun va => ?_, by decide, by decide, by decide, by decide⟩
  have hroot := fun level => (self_mapped_table _ (PX_lt level va)).1
  have hleaf := fun level => (self_mapped_table _ (PX_lt level va)).2
  simp only [leafOf, entry, hroot]
  by_cases h2 : PX 2 va = 0
  · simp only [h2, if_true, hpa.1, hroot]
    by_cases h1 : PX 1 va = 0
    · simp only [h1, if_true, hpa.1, hroot]
      simp
    · by_cases h1' : PX 1 va = 1
      · simp [h1', hpa.2, hleaf]
      · simp [h1, h1']
  · by_cases h2' : PX 2 va = 1
    · simp [h2', hpa.2, hleaf]
    · simp [h2, h2']

/-- The first page of zeros is copied over the tables: -1 is returned, though all of the
range was mapped. -/
theorem copy_over_tables : Distinct self_mapped 0x4000 ∧
    (∀ i < PGSIZE + 1, ¬ InPages self_mapped 0x4000 ((MAIN_KERNEL_DMW + 0x10000 + i) % 2 ^ 64)) ∧
    (∀ va, 0 ≤ va → va < 0 + (PGSIZE + 1) → Mapped self_mapped 0x4000 va) ∧
    ∃ k', copy_to_va ⟨self_mapped, []⟩ 0x4000 0 (MAIN_KERNEL_DMW + 0x10000) (PGSIZE + 1) =
      some (-1, k') := by
  refine ⟨self_mapped_twoPages.distinct, fun i hi hin => ?_, fun va _ hhi => ?_, ?_⟩
  · have hpages := self_mapped_twoPages.inPages hin
    unfold MAIN_KERNEL_DMW PGSIZE at *
    omega
  · apply self_mapped_twoPages.mapped.mpr
    unfold PGSIZE at *
    omega
  · have heval : (copy_to_va ⟨self_mapped, []⟩ 0x4000 0 (MAIN_KERNEL_DMW + 0x10000)
        (PGSIZE + 1)).map Prod.fst = some (-1) := by decide +kernel
    obtain ⟨⟨ret, k'⟩, hr, he⟩ := Option.map_eq_some_iff.mp heval
    obtain rfl : ret = -1 := he
    exact ⟨k', hr⟩

end Loos.UserCopy
