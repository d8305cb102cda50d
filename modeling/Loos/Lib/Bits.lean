/-
Masks and bit fields of natural numbers as division and remainder.

A field is the `w` bits from position `k` on; [`and_field_mask`] reads it with
a mask, which is how C code writes a page mask, an address mask or an index.
Once masks are gone the goals are linear and `omega` closes them.
-/
import Mathlib.Data.Nat.Bitwise
import Mathlib.Tactic.Ring
import Mathlib.Tactic.NormNum

set_option autoImplicit false

namespace SysLib

/-- **A field mask.** Masking with `w` ones at position `k` keeps exactly that field. -/
theorem and_field_mask (x w k : ℕ) : x &&& (2 ^ w - 1) * 2 ^ k = x / 2 ^ k % 2 ^ w * 2 ^ k := by
  apply Nat.eq_of_testBit_eq
  intro i
  rw [Nat.testBit_and, Nat.testBit_mul_two_pow, Nat.testBit_mul_two_pow, Nat.testBit_two_pow_sub_one,
    Nat.testBit_mod_two_pow, Nat.testBit_div_two_pow]
  by_cases hi : k ≤ i
  · simp only [hi, decide_true, Bool.true_and, Nat.sub_add_cancel hi]
    exact Bool.and_comm _ _
  · simp [hi]

/-- A shift followed by a low mask reads a field as a number. -/
theorem shiftRight_and_mask (x w k : ℕ) : x >>> k &&& (2 ^ w - 1) = x / 2 ^ k % 2 ^ w := by
  rw [Nat.and_two_pow_sub_one_eq_mod, Nat.shiftRight_eq_div_pow]

/-- Setting bits above everything a number uses adds them. -/
theorem or_high_eq_add {x hi k : ℕ} (hx : x < 2 ^ k) : x ||| hi * 2 ^ k = hi * 2 ^ k + x := by
  rw [Nat.or_comm, ← Nat.shiftLeft_eq, Nat.shiftLeft_add_eq_or_of_lt hx]

end SysLib
