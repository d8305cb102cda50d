/-
`lolibc/string.c`: `memset`, `memcpy`, `memmove`, `memcmp` and `strcmp`.

The code moves one byte at a time. The closed forms of `Lib.ByteMem` say what
the whole call does, and [`memset_eq`] and [`memmove_eq`] say that the loops
compute them, overlapping ranges included: `memmove` copies backwards exactly
when the destination starts inside or right behind the source.

A string is the list of its characters without the terminating 0, which is what
`headD` finds behind the last one.
-/
import Loos.Lib.ByteMem

set_option autoImplicit false

namespace Loos.Cstring

open SysLib

/-! ## The code -/

/-- `memset`: `n` bytes from `s` on. -/
def memset : ℕ → Mem → ℕ → UInt8 → Mem
  | 0, m, _, _ => m
  | n + 1, m, s, c => memset n (m.poke s c) (s + 1) c

/-- `memcpy`: the bytes in ascending order. -/
def memcpy : ℕ → Mem → ℕ → ℕ → Mem
  | 0, m, _, _ => m
  | n + 1, m, out, inp => memcpy n (m.poke out (m inp)) (out + 1) (inp + 1)

/-- The first branch of `memmove`: the bytes in descending order, `out` and
`inp` the last ones. -/
def memmove_back : ℕ → Mem → ℕ → ℕ → Mem
  | 0, m, _, _ => m
  | n + 1, m, out, inp => memmove_back n (m.poke out (m inp)) (out - 1) (inp - 1)

/-- `memmove` -/
def memmove (m : Mem) (dst src n : ℕ) : Mem :=
  if src < dst ∧ dst ≤ src + n then memmove_back n m (dst + n - 1) (src + n - 1)
  else memcpy n m dst src

/-- `memcmp`, for the `n` bytes from the start of both; the last of them is compared even
when `n` is 0. -/
def memcmp : ℕ → Mem → Mem → ℤ
  | 0, m1, m2 => ((m1 0).toNat : ℤ) - (m2 0).toNat
  | n + 1, m1, m2 =>
    if m1 0 = m2 0 ∧ n + 1 > 1 then memcmp n (fun i => m1 (i + 1)) (fun i => m2 (i + 1))
    else ((m1 0).toNat : ℤ) - (m2 0).toNat

/-- A byte as a `char`, which is signed. -/
def schar (c : UInt8) : ℤ := if c.toNat < 128 then c.toNat else c.toNat - 256

/-- `strncmp`. -/
def strncmp : List UInt8 → List UInt8 → ℕ → ℤ
  | [], s2, _ => schar 0 - schar (s2.headD 0)
  | c :: s1, s2, n =>
    if c ≠ 0 ∧ c = s2.headD 0 ∧ n > 1 then strncmp s1 s2.tail (n - 1)
    else schar c - schar (s2.headD 0)

def MAX_STR_LEN : ℕ := 1024

/-- `strcmp`. -/
def strcmp (s1 s2 : List UInt8) : ℤ := strncmp s1 s2 MAX_STR_LEN

/-! ## The loops and their closed forms -/

theorem memset_eq (n : ℕ) (m : Mem) (s : ℕ) (c : UInt8) : memset n m s c = m.fill s n c := by
  induction n generalizing m s with
  | zero =>
    funext x
    rw [memset, Mem.fill, if_neg (by omega)]
  | succ n ih =>
    rw [memset, ih]
    funext x
    simp only [Mem.fill, Mem.poke]
    split_ifs <;> first | rfl | omega

/-- Ascending order is right when the destination is not behind the start of
the source, or behind all of it: no byte is overwritten before it is read. -/
theorem memcpy_eq {n : ℕ} {m : Mem} {out inp : ℕ} (h : out ≤ inp ∨ inp + n ≤ out) :
    memcpy n m out inp = m.copy out inp n := by
  induction n generalizing m out inp with
  | zero =>
    funext x
    rw [memcpy, Mem.copy, if_neg (by omega)]
  | succ n ih =>
    rw [memcpy, ih (by omega)]
    funext x
    simp only [Mem.copy, Mem.poke]
    by_cases hx : out ≤ x ∧ x < out + (n + 1)
    · rw [if_pos hx]
      by_cases h0 : x = out
      · subst h0
        rw [if_neg (by omega), if_pos rfl, Nat.sub_self, Nat.add_zero]
      · rw [if_pos (by omega), if_neg (by omega)]
        exact congrArg m (by omega)
    · rw [if_neg (by omega), if_neg (by omega), if_neg hx]

/-- Descending order is right when the destination is not before the source. -/
theorem memmove_back_eq {n : ℕ} {m : Mem} {dst src : ℕ} (h : src ≤ dst) :
    memmove_back n m (dst + n - 1) (src + n - 1) = m.copy dst src n := by
  induction n generalizing m with
  | zero =>
    funext x
    rw [memmove_back, Mem.copy, if_neg (by omega)]
  | succ n ih =>
    rw [memmove_back, show dst + (n + 1) - 1 - 1 = dst + n - 1 by omega,
      show src + (n + 1) - 1 - 1 = src + n - 1 by omega, ih]
    funext x
    simp only [Mem.copy, Mem.poke]
    by_cases hx : dst ≤ x ∧ x < dst + (n + 1)
    · rw [if_pos hx]
      by_cases hn : x = dst + n
      · rw [if_neg (by omega), if_pos (by omega)]
        exact congrArg m (by omega)
      · rw [if_pos (by omega), if_neg (by omega)]
    · rw [if_neg (by omega), if_neg (by omega), if_neg hx]

/-- **`memmove`** copies the source as it was before the call. -/
theorem memmove_eq (m : Mem) (dst src n : ℕ) : memmove m dst src n = m.copy dst src n := by
  rw [memmove]
  split
  · next h => exact memmove_back_eq (Nat.le_of_lt h.1)
  · next h => exact memcpy_eq (by omega)

theorem byte_sub_eq_zero {a b : UInt8} : (a.toNat : ℤ) - b.toNat = 0 ↔ a = b := by
  rw [Int.sub_eq_zero, Nat.cast_inj, UInt8.toNat_inj]

theorem memcmp_eq_zero {n : ℕ} {m1 m2 : Mem} :
    memcmp (n + 1) m1 m2 = 0 ↔ ∀ i < n + 1, m1 i = m2 i := by
  induction n generalizing m1 m2 with
  | zero =>
    rw [memcmp, if_neg (by simp), byte_sub_eq_zero]
    constructor
    · intro h i hi
      obtain rfl : i = 0 := by omega
      exact h
    · intro h
      exact h 0 (by omega)
  | succ n ih =>
    rw [memcmp]
    by_cases h0 : m1 0 = m2 0
    · rw [if_pos ⟨h0, by omega⟩, ih]
      constructor
      · intro h i hi
        cases i with
        | zero => exact h0
        | succ i => exact h i (by omega)
      · intro h i hi
        exact h (i + 1) (by omega)
    · rw [if_neg (fun h => h0 h.1), byte_sub_eq_zero]
      constructor
      · intro h
        exact absurd h h0
      · intro h
        exact absurd (h 0 (by omega)) h0

theorem schar_inj {a b : UInt8} : schar a = schar b ↔ a = b := by
  have ha := a.toNat_lt
  have hb := b.toNat_lt
  constructor
  · intro h
    unfold schar at h
    exact UInt8.toNat_inj.mp (by split_ifs at h <;> omega)
  · intro h
    rw [h]

theorem schar_sub_eq_zero {a b : UInt8} : schar a - schar b = 0 ↔ a = b := by
  rw [Int.sub_eq_zero, schar_inj]

/-- Strings shorter than the bound: `s1` ends at its first 0. -/
theorem strncmp_eq_zero {s1 s2 : List UInt8} {n : ℕ} (h0 : 0 ∉ s2) (hn : s2.length < n) :
    strncmp s1 s2 n = 0 ↔ s1.takeWhile (· ≠ 0) = s2 := by
  induction s1 generalizing s2 n with
  | nil =>
    cases s2 with
    | nil => simp [strncmp]
    | cons d s2 =>
      have hd : ¬ (0 = d) := fun hd => h0 (by simp [hd])
      rw [strncmp, schar_sub_eq_zero]
      simp [hd]
  | cons c s1 ih =>
    rw [strncmp]
    by_cases hc : c = 0
    · -- `s1` ends here
      subst hc
      rw [if_neg (by simp), schar_sub_eq_zero]
      cases s2 with
      | nil => simp
      | cons d s2 =>
        have hd : ¬ (0 = d) := fun hd => h0 (by simp [hd])
        simp [hd]
    · cases s2 with
      | nil =>
        rw [if_neg (by simp [hc]), schar_sub_eq_zero]
        simp [hc]
      | cons d s2 =>
        simp only [List.mem_cons, not_or] at h0
        simp only [List.length_cons] at hn
        by_cases hcd : c = d
        · subst hcd
          rw [if_pos ⟨hc, rfl, by omega⟩, List.tail_cons, ih h0.2 (by omega)]
          simp [hc]
        · rw [if_neg fun h => hcd h.2.1, schar_sub_eq_zero]
          simp [hc, hcd]

/-- **`strcmp`** finds short strings equal. -/
theorem strcmp_eq_zero {s1 s2 : List UInt8} (h0 : 0 ∉ s2) (hn : s2.length < MAX_STR_LEN) :
    strcmp s1 s2 = 0 ↔ s1.takeWhile (· ≠ 0) = s2 := strncmp_eq_zero h0 hn

end Loos.Cstring
