/-
`include/memlayout.h` and `include/asm/mmu.h`: the constants and the address
macros.

A `uint64_t` is a natural number below `2^64`. The macros are written with the
masks of the headers; the lemmas beside them turn each mask into division and
remainder, and no file above this one looks at a bit.

Note on precedence: the headers leave their shifts unparenthesised
(`PAMASK` is `0xFFFFFFFFFUL << PGSHIFT`, `MAXVA` is `1L << 47`). Every use in
the code is an operand of `&`, `|` or `>=`, which bind weaker than `<<`.
-/
import Loos.Lib.Bits

set_option autoImplicit false

namespace Loos

open SysLib

/-! ## Constants -/

/-- A page is 16 KiB; `PG_SIZE` in `klib.h` is the same number. -/
abbrev PGSIZE : ℕ := 16384

/-- `#define MAXVA 1L << 47` -/
abbrev MAXVA : ℕ := 2 ^ 47

/-- `MAIN_KERNEL_DMW`, the direct-mapped window the kernel runs in. -/
abbrev MAIN_KERNEL_DMW : ℕ := 0x9000000000000000

/-- `PAMASK`, `0xFFFFFFFFFUL << PGSHIFT`: bits 14 to 49. -/
abbrev PAMASK : ℕ := 0xFFFFFFFFF * 2 ^ 14

/-- The mask of `PTE_FLAGS`. -/
abbrev FLAGMASK : ℕ := 0xE0000000000001FF

/-- `PTE_V`, the valid bit. -/
abbrev PTE_V : ℕ := 1

/-- `1 << PTWIDTH`, the number of entries of a table page. -/
abbrev PTENTRIES : ℕ := 2048

/-! ## Macros -/

/-- `((a)) & ~(PGSIZE-1)`, the `int` mask sign-extended to 64 bits. -/
def PGROUNDDOWN (a : ℕ) : ℕ := a &&& (2 ^ 64 - PGSIZE)

/-- `((sz)+PGSIZE-1) & ~(PGSIZE-1)` -/
def PGROUNDUP (sz : ℕ) : ℕ := (sz + PGSIZE - 1) % 2 ^ 64 &&& (2 ^ 64 - PGSIZE)

/-- `((va) >> PXSHIFT(level)) & PXMASK` with `PXSHIFT(level) = PGSHIFT + 11*level`. -/
def PX (level va : ℕ) : ℕ := va >>> (14 + 11 * level) &&& 0x7ff

/-- `pte & PAMASK` -/
def PTE2PA (pte : ℕ) : ℕ := pte &&& PAMASK

/-- `((uint64_t)pa) & PAMASK` -/
def PA2PTE (pa : ℕ) : ℕ := pa &&& PAMASK

/-- `((pte) & 0xE0000000000001FFUL)` -/
def PTE_FLAGS (pte : ℕ) : ℕ := pte &&& FLAGMASK

/-- `((uint64_t)pa) | MAIN_KERNEL_DMW` -/
def PA2VA (pa : ℕ) : ℕ := pa ||| MAIN_KERNEL_DMW

/-! ## Rounding -/

theorem and_page_mask (a : ℕ) : a &&& (2 ^ 64 - PGSIZE) = a / 2 ^ 14 % 2 ^ 50 * 2 ^ 14 := by
  rw [show (2 : ℕ) ^ 64 - PGSIZE = (2 ^ 50 - 1) * 2 ^ 14 by norm_num, and_field_mask]

theorem PGROUNDDOWN_eq {a : ℕ} (ha : a < 2 ^ 64) : PGROUNDDOWN a = a / PGSIZE * PGSIZE := by
  rw [PGROUNDDOWN, and_page_mask]
  unfold PGSIZE
  omega

theorem PGROUNDDOWN_of_aligned {a : ℕ} (ha : a < 2 ^ 64) (h : a % PGSIZE = 0) :
    PGROUNDDOWN a = a := by
  rw [PGROUNDDOWN_eq ha]
  unfold PGSIZE at *
  omega

theorem PGROUNDUP_eq {a : ℕ} (ha : a + PGSIZE ≤ 2 ^ 64) :
    PGROUNDUP a = (a + PGSIZE - 1) / PGSIZE * PGSIZE := by
  unfold PGSIZE at ha
  rw [PGROUNDUP, and_page_mask]
  unfold PGSIZE
  rw [Nat.mod_eq_of_lt (by omega)]
  omega

/-! ## Table indices -/

theorem PX_eq (level va : ℕ) : PX level va = va / 2 ^ (14 + 11 * level) % PTENTRIES := by
  rw [PX, show (0x7ff : ℕ) = 2 ^ 11 - 1 by norm_num, shiftRight_and_mask,
    show (2 : ℕ) ^ 11 = PTENTRIES by norm_num]

theorem PX_lt (level va : ℕ) : PX level va < PTENTRIES := by
  rw [PX_eq]
  exact Nat.mod_lt _ (by norm_num)

/-- **The three indices determine the page.** Below `2^47` they are the whole
page number, eleven bits each. -/
theorem PX_inj {va va' : ℕ} (h : va < MAXVA) (h' : va' < MAXVA) (h2 : PX 2 va = PX 2 va')
    (h1 : PX 1 va = PX 1 va') (h0 : PX 0 va = PX 0 va') : va / PGSIZE = va' / PGSIZE := by
  simp only [PX_eq, PTENTRIES, Nat.reduceMul, Nat.reduceAdd, Nat.reducePow] at h2 h1 h0
  unfold MAXVA PGSIZE at *
  omega

theorem PX_congr {va va' : ℕ} (level : ℕ) (h : va / PGSIZE = va' / PGSIZE) :
    PX level va = PX level va' := by
  simp only [PX_eq, pow_add, ← Nat.div_div_eq_div_mul]
  rw [show (2 : ℕ) ^ 14 = PGSIZE by norm_num, h]

/-! ## Page addresses and entries -/

/-- An address `kmalloc` may return: a whole page of the direct-mapped window,
`MAIN_KERNEL_DMW | phys` with `0 < phys < 2^48`. -/
structure KPage (p : ℕ) : Prop where
  exists_phys : ∃ phys, 0 < phys ∧ phys < 2 ^ 48 ∧ p = MAIN_KERNEL_DMW ||| phys
  aligned : p % PGSIZE = 0

theorem dmw_or {phys : ℕ} (h : phys < 2 ^ 48) : MAIN_KERNEL_DMW ||| phys = MAIN_KERNEL_DMW + phys := by
  rw [Nat.or_comm, show MAIN_KERNEL_DMW = 9 * 2 ^ 60 by norm_num, or_high_eq_add (by omega)]

theorem KPage.bounds {p : ℕ} (h : KPage p) :
    MAIN_KERNEL_DMW < p ∧ p + PGSIZE ≤ MAIN_KERNEL_DMW + 2 ^ 48 := by
  obtain ⟨phys, h0, h1, rfl⟩ := h.exists_phys
  have := h.aligned
  rw [dmw_or h1] at *
  unfold MAIN_KERNEL_DMW PGSIZE at *
  omega

theorem KPage.ne_zero {p : ℕ} (h : KPage p) : p ≠ 0 := by
  have := h.bounds
  unfold MAIN_KERNEL_DMW at this
  omega

theorem PAMASK_eq (x : ℕ) : x &&& PAMASK = x / 2 ^ 14 % 2 ^ 36 * 2 ^ 14 := by
  rw [show PAMASK = (2 ^ 36 - 1) * 2 ^ 14 by norm_num, and_field_mask]

theorem PTE2PA_eq (x : ℕ) : PTE2PA x = x / PGSIZE % 2 ^ 36 * PGSIZE := PAMASK_eq x

theorem PA2PTE_eq (x : ℕ) : PA2PTE x = x / PGSIZE % 2 ^ 36 * PGSIZE := PAMASK_eq x

theorem PA2PTE_lt (x : ℕ) : PA2PTE x < 2 ^ 50 := by
  rw [PA2PTE_eq]
  unfold PGSIZE
  omega

/-- The masked pointer of a kernel page, re-based, is the pointer itself: this
is why one walker may follow raw pointers and the other masked ones. -/
theorem KPage.PA2VA_PTE2PA {p : ℕ} (h : KPage p) : PA2VA (PTE2PA p) = p := by
  obtain ⟨phys, h0, h1, rfl⟩ := h.exists_phys
  have ha := h.aligned
  rw [dmw_or h1] at *
  have hm : PTE2PA (MAIN_KERNEL_DMW + phys) = phys := by
    rw [PTE2PA_eq]
    unfold MAIN_KERNEL_DMW PGSIZE at *
    omega
  rw [hm, PA2VA, Nat.or_comm, dmw_or h1]

theorem KPage.PTE2PA_ne_zero {p : ℕ} (h : KPage p) : PTE2PA p ≠ 0 := by
  obtain ⟨phys, h0, h1, rfl⟩ := h.exists_phys
  have ha := h.aligned
  rw [dmw_or h1] at *
  rw [PTE2PA_eq]
  unfold MAIN_KERNEL_DMW PGSIZE at *
  omega

/-- Re-basing an address that is already in the window changes nothing. -/
theorem KPage.PA2VA_self {p : ℕ} (h : KPage p) : PA2VA p = p := by
  obtain ⟨phys, -, h1, rfl⟩ := h.exists_phys
  rw [PA2VA, Nat.or_comm, ← Nat.or_assoc, Nat.or_self]

/-- A byte of a kernel page, found again from its physical address. -/
theorem PA2VA_add {P off : ℕ} (h : KPage P) (hoff : off < PGSIZE) :
    PA2VA (PTE2PA P + off) = P + off := by
  obtain ⟨phys, h0, h1, rfl⟩ := h.exists_phys
  have hal := h.aligned
  rw [dmw_or h1] at *
  have hphys : PTE2PA (MAIN_KERNEL_DMW + phys) = phys := by
    rw [PTE2PA_eq]
    unfold MAIN_KERNEL_DMW PGSIZE at *
    omega
  have hlt : phys + off < 2 ^ 48 := by
    unfold MAIN_KERNEL_DMW PGSIZE at *
    omega
  rw [hphys, PA2VA, Nat.or_comm, dmw_or hlt, Nat.add_assoc]

/-- Address arithmetic modulo `2^64` does not reach the masked bits. -/
theorem PA2PTE_mod (x : ℕ) : PA2PTE (x % 2 ^ 64) = PA2PTE x := by
  rw [PA2PTE_eq, PA2PTE_eq]
  unfold PGSIZE
  omega

/-- What a mapping relies on: `perm` has the valid bit and no bit of the address field. -/
structure PermOk (perm : ℕ) : Prop where
  lt : perm < 2 ^ 64
  valid : perm &&& PTE_V = PTE_V
  noAddr : perm &&& PAMASK = 0

/-- `perm` is made of PTE flag bits, the valid bit among them. -/
structure FlagPerm (perm : ℕ) : Prop where
  flags : perm &&& FLAGMASK = perm
  valid : perm &&& PTE_V = PTE_V

/-- Flag bits and address bits are different bits. -/
theorem FlagPerm.permOk {perm : ℕ} (h : FlagPerm perm) : PermOk perm := by
  refine ⟨?_, h.valid, ?_⟩
  · rw [← h.flags]
    exact lt_of_le_of_lt Nat.and_le_right (by norm_num)
  · rw [← h.flags, Nat.and_assoc, show FLAGMASK &&& PAMASK = 0 by decide, Nat.and_zero]

theorem PTE_FLAGS_and_PAMASK (e : ℕ) : PTE_FLAGS e &&& PAMASK = 0 := by
  rw [PTE_FLAGS, Nat.and_assoc, show FLAGMASK &&& PAMASK = 0 by decide, Nat.and_zero]

theorem PA2PTE_and_FLAGMASK (pa : ℕ) : PA2PTE pa &&& FLAGMASK = 0 := by
  rw [PA2PTE, Nat.and_assoc, show PAMASK &&& FLAGMASK = 0 by decide, Nat.and_zero]

end Loos
