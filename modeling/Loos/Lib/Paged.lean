/-
Copies through a translation by pages.

`base` gives the place of each page, if it has one; [`at_`] carries it over to
addresses. [`scatter`] writes bytes one after the other to the places of
consecutive addresses, [`gather`] reads them. A copier that goes page by page
writes the same memory ([`scatter_page`]), and where pages have places of their own
what was scattered is gathered again ([`gather_scatter`]).
-/
import Loos.Lib.ByteMem

set_option autoImplicit false

namespace SysLib.Paged

variable {P : ℕ} {base : ℕ → Option ℕ} {m m' src : Mem} {va n k a x y z : ℕ}

/-- The place of the address `y`. -/
def at_ (P : ℕ) (base : ℕ → Option ℕ) (y : ℕ) : Option ℕ := (base (y / P)).map (· + y % P)

/-- No two pages share a byte. -/
def Apart (P : ℕ) (base : ℕ → Option ℕ) : Prop :=
  ∀ p q a b, base p = some a → base q = some b → p ≠ q → a + P ≤ b ∨ b + P ≤ a

/-- The first `n` bytes of `src` at the places of `va`, `va + 1`, ... -/
def scatter (P : ℕ) (base : ℕ → Option ℕ) (m : Mem) (va : ℕ) (src : Mem) : ℕ → Mem
  | 0 => m
  | n + 1 =>
    match at_ P base (va + n) with
    | some a => (scatter P base m va src n).poke a (src n)
    | none => scatter P base m va src n

/-- The bytes at the places of `va`, `va + 1`, ... -/
def gather (P : ℕ) (base : ℕ → Option ℕ) (m : Mem) (va : ℕ) : Mem :=
  fun i => (at_ P base (va + i)).elim 0 m

/-! ## Places -/

theorem at_eq_none : at_ P base y = none ↔ base (y / P) = none := by
  rw [at_, Option.map_eq_none_iff]

theorem at_eq_some : at_ P base y = some x ↔ ∃ a, base (y / P) = some a ∧ a + y % P = x := by
  rw [at_, Option.map_eq_some_iff]

/-- Behind an address the places go on to the end of its page. -/
theorem at_add (h : at_ P base y = some a) (hk : y % P + k < P) :
    at_ P base (y + k) = some (a + k) := by
  obtain ⟨b, hb, rfl⟩ := at_eq_some.mp h
  have hP : 0 < P := by omega
  have hsum : y + k = P * (y / P) + (y % P + k) := by
    have := Nat.div_add_mod y P
    omega
  have hdiv : (y + k) / P = y / P := by
    rw [hsum, Nat.mul_add_div hP, Nat.div_eq_of_lt hk, Nat.add_zero]
  have hmod : (y + k) % P = y % P + k := by
    rw [hsum, Nat.mul_add_mod, Nat.mod_eq_of_lt hk]
  apply at_eq_some.mpr
  exact ⟨b, by rw [hdiv]; exact hb, by rw [hmod]; omega⟩

theorem Apart.inj (h : Apart P base) (hP : 0 < P) (hy : at_ P base y = some x)
    (hz : at_ P base z = some x) : y = z := by
  obtain ⟨a, ha, hax⟩ := at_eq_some.mp hy
  obtain ⟨b, hb, hbx⟩ := at_eq_some.mp hz
  have hylt := Nat.mod_lt y hP
  have hzlt := Nat.mod_lt z hP
  have hpage : y / P = z / P := by
    by_contra hne
    have := h _ _ _ _ ha hb hne
    omega
  rw [hpage, hb] at ha
  obtain rfl := Option.some.inj ha
  rw [← Nat.div_add_mod y P, ← Nat.div_add_mod z P, hpage]
  omega

/-! ## Scattered bytes -/

theorem scatter_succ_some (h : at_ P base (va + n) = some a) :
    scatter P base m va src (n + 1) = (scatter P base m va src n).poke a (src n) := by
  rw [scatter, h]

theorem scatter_succ_none (h : at_ P base (va + n) = none) :
    scatter P base m va src (n + 1) = scatter P base m va src n := by
  rw [scatter, h]

/-- Only the places are written. -/
theorem scatter_frame (h : ∀ i < n, at_ P base (va + i) ≠ some x) :
    scatter P base m va src n x = m x := by
  induction n with
  | zero => rfl
  | succ n ih =>
    have hrest := ih fun i hi => h i (by omega)
    cases hn : at_ P base (va + n) with
    | none => rw [scatter_succ_none hn, hrest]
    | some a =>
      have hne : x ≠ a := fun he => h n (by omega) (he ▸ hn)
      rw [scatter_succ_some hn, Mem.poke, if_neg hne, hrest]

/-- Each place has its byte. -/
theorem scatter_apply (h : Apart P base) (hP : 0 < P) {i : ℕ} (hi : i < n)
    (hx : at_ P base (va + i) = some x) : scatter P base m va src n x = src i := by
  induction n with
  | zero => omega
  | succ n ih =>
    by_cases hin : i = n
    · subst hin
      rw [scatter_succ_some hx, Mem.poke, if_pos rfl]
    · have hrest := ih (by omega)
      cases hn : at_ P base (va + n) with
      | none => rw [scatter_succ_none hn, hrest]
      | some a =>
        have hne : x ≠ a := by
          intro he
          have := h.inj hP hx (he ▸ hn)
          omega
        rw [scatter_succ_some hn, Mem.poke, if_neg hne, hrest]

/-- Up to the end of a page the bytes go to one range. -/
theorem scatter_page (h : at_ P base (va + n) = some a) (hk : (va + n) % P + k ≤ P) :
    scatter P base m va src (n + k) =
      (scatter P base m va src n).put a k fun i => src (n + i) := by
  induction k with
  | zero => exact Mem.put_zero.symm
  | succ k ih =>
    have hplace : at_ P base (va + (n + k)) = some (a + k) := by
      rw [← Nat.add_assoc]
      exact at_add h (by omega)
    rw [← Nat.add_assoc n k 1, scatter_succ_some hplace, ih (by omega)]
    funext x
    simp only [Mem.poke, Mem.put]
    by_cases hx : x = a + k
    · rw [if_pos hx, if_pos (by omega), hx, Nat.add_sub_cancel_left]
    · rw [if_neg hx]
      exact if_congr (by omega) rfl rfl

/-! ## Gathered bytes -/

theorem gather_of_at (h : at_ P base (va + n) = some a) : gather P base m va n = m a := by
  rw [gather, h]
  rfl

/-- What was scattered is gathered. -/
theorem gather_scatter (h : Apart P base) (hP : 0 < P) {i : ℕ} (hi : i < n)
    (hx : at_ P base (va + i) ≠ none) :
    gather P base (scatter P base m va src n) va i = src i := by
  obtain ⟨x, hx⟩ := Option.ne_none_iff_exists'.mp hx
  rw [gather_of_at hx, scatter_apply h hP hi hx]

/-! ## The turns of a copier -/

/-- Bytes of a turn at `y`, with `len` bytes to come: the rest of the page, or all of them. -/
def chunk (P y len : ℕ) : ℕ := if P - y % P > len then len else P - y % P

theorem chunk_spec (hP : 0 < P) (hlen : 0 < n) :
    y % P + chunk P y n ≤ P ∧ 0 < chunk P y n ∧ chunk P y n ≤ n ∧
      (chunk P y n = n ∨ y / P * P + P = y + chunk P y n) := by
  have hlt := Nat.mod_lt y hP
  have hy := Nat.div_add_mod y P
  rw [Nat.mul_comm] at hy
  unfold chunk
  split_ifs <;> omega

end SysLib.Paged
