/-
`memmove` with the pointers of the machine.

[`Cstring`] has it on natural numbers. Here pointers and the sum `src+n` of the guard are taken
modulo 2⁶⁴. A range may end with the address space: the pointer behind it is 0 then, and so may
be the one before a range that begins at 0. Neither is followed, and the guard is right in every
overlap ([`memmove_bytes`]).
-/
import Loos.Cstring

set_option autoImplicit false

namespace Loos.Memmove

open SysLib

/-! ## The code -/

/-- `memcpy` -/
def memcpy : ℕ → Mem → ℕ → ℕ → Mem
  | 0, m, _, _ => m
  | n + 1, m, out, inp =>
    memcpy n (m.poke out (m inp)) ((out + 1) % 2 ^ 64) ((inp + 1) % 2 ^ 64)

/-- The pointer before `p`. -/
def before (p : ℕ) : ℕ := if p = 0 then 2 ^ 64 - 1 else p - 1

/-- The loop of the first branch, with `out--` and `in--`. -/
def memmove_back : ℕ → Mem → ℕ → ℕ → Mem
  | 0, m, _, _ => m
  | n + 1, m, out, inp => memmove_back n (m.poke out (m inp)) (before out) (before inp)

/-- `memmove` -/
def memmove (m : Mem) (dst src n : ℕ) : Mem :=
  if src < dst ∧ dst ≤ (src + n) % 2 ^ 64 then
    memmove_back n m (before ((dst + n) % 2 ^ 64)) (before ((src + n) % 2 ^ 64))
  else memcpy n m dst src

variable {m : Mem} {dst src n out inp : ℕ}

/-! ## Ranges that do not wrap -/

theorem memcpy_eq (hout : out + n ≤ 2 ^ 64) (hinp : inp + n ≤ 2 ^ 64) :
    memcpy n m out inp = Cstring.memcpy n m out inp := by
  induction n generalizing m out inp with
  | zero => rfl
  | succ n ih =>
    rw [memcpy, Cstring.memcpy]
    cases n with
    | zero => rfl
    | succ n =>
      rw [Nat.mod_eq_of_lt (show out + 1 < 2 ^ 64 by omega),
        Nat.mod_eq_of_lt (show inp + 1 < 2 ^ 64 by omega)]
      exact ih (by omega) (by omega)

/-- The last byte of a range, which may end with the address space. -/
theorem before_end (h : dst + (n + 1) ≤ 2 ^ 64) : before ((dst + (n + 1)) % 2 ^ 64) = dst + n := by
  rw [before]
  rcases Nat.eq_or_lt_of_le h with he | hlt
  · rw [he, Nat.mod_self, if_pos rfl]
    omega
  · rw [Nat.mod_eq_of_lt hlt, if_neg (by omega)]
    omega

theorem memmove_back_eq (hdst : dst + n ≤ 2 ^ 64) (hsrc : src + n ≤ 2 ^ 64) :
    memmove_back n m (before ((dst + n) % 2 ^ 64)) (before ((src + n) % 2 ^ 64)) =
      Cstring.memmove_back n m (dst + n - 1) (src + n - 1) := by
  induction n generalizing m with
  | zero => rfl
  | succ n ih =>
    have hrest := ih (m := m.poke (dst + n) (m (src + n))) (by omega) (by omega)
    rw [Nat.mod_eq_of_lt (show dst + n < 2 ^ 64 by omega),
      Nat.mod_eq_of_lt (show src + n < 2 ^ 64 by omega)] at hrest
    rw [before_end hdst, before_end hsrc, memmove_back, hrest, Cstring.memmove_back,
      show dst + (n + 1) - 1 = dst + n by omega, show src + (n + 1) - 1 = src + n by omega]

/-- It is the `memmove` of the natural numbers. -/
theorem memmove_eq (hsrc : src + n ≤ 2 ^ 64) (hdst : dst + n ≤ 2 ^ 64) :
    memmove m dst src n = Cstring.memmove m dst src n := by
  -- behind `src`, the sum `src+n` of the guard is below the end of the destination
  have hguard : src < dst ∧ dst ≤ (src + n) % 2 ^ 64 ↔ src < dst ∧ dst ≤ src + n := by
    refine and_congr_right fun hlt => ?_
    rw [Nat.mod_eq_of_lt (by omega)]
  rw [memmove, Cstring.memmove]
  by_cases hback : src < dst ∧ dst ≤ src + n
  · rw [if_pos (hguard.mpr hback), if_pos hback, memmove_back_eq hdst hsrc]
  · rw [if_neg fun h => hback (hguard.mp h), if_neg hback, memcpy_eq hdst hsrc]

/-- **`memmove` moves.** Whatever the overlap, the destination has the bytes that the source had,
and no other byte has changed. -/
theorem memmove_bytes (m : Mem) (hsrc : src + n ≤ 2 ^ 64) (hdst : dst + n ≤ 2 ^ 64) :
    (∀ i < n, memmove m dst src n (dst + i) = m (src + i)) ∧
      ∀ x, x < dst ∨ dst + n ≤ x → memmove m dst src n x = m x := by
  rw [memmove_eq hsrc hdst, Cstring.memmove_eq]
  exact ⟨fun i hi => Mem.copy_apply_of_mem hi, fun x hx => Mem.copy_apply_of_disjoint hx⟩

/-- To the end of the address space, from two bytes before. -/
theorem memmove_bytes_at_end :
    (∀ i < 8, memmove UInt8.ofNat (2 ^ 64 - 8) (2 ^ 64 - 10) 8 (2 ^ 64 - 8 + i) =
      UInt8.ofNat (2 ^ 64 - 10 + i)) ∧
    ∀ x, x < 2 ^ 64 - 8 ∨ 2 ^ 64 - 8 + 8 ≤ x →
      memmove UInt8.ofNat (2 ^ 64 - 8) (2 ^ 64 - 10) 8 x = UInt8.ofNat x :=
  memmove_bytes UInt8.ofNat (by omega) (by omega)

end Loos.Memmove
