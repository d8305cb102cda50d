/-
The order of `strcmp`, `strncmp` and `memcmp`.

All three return the difference of two bytes. `memcmp` takes it of unsigned bytes, `strncmp` of
`char`s, which are signed; so the sign of its result is wrong where one of the two bytes is below
0x80 and the other is not. A byte is compared before `n` is looked at, and `strcmp` is `strncmp`
with `n` 1024. [`compare_iff`] puts the conditions together.
-/
import Loos.Cstring
import Mathlib.Data.List.GetD
import Mathlib.Order.Basic

set_option autoImplicit false

namespace Loos.StringOrder

open SysLib Cstring

/-! ## The order -/

/-- A string without the NUL that ends it. -/
structure Str where
  chars : List UInt8
  no_nul : 0 ∉ chars

/-- The sign of `r` is the lexicographic order of the texts, as unsigned bytes. -/
structure SignOf (r : ℤ) (s1 s2 : List UInt8) : Prop where
  neg : r < 0 ↔ s1 < s2
  zero : r = 0 ↔ s1 = s2
  pos : 0 < r ↔ s2 < s1

/-- The first `n` bytes of a buffer. -/
def bytes (m : Mem) (n : ℕ) : List UInt8 := (List.range n).map m

/-- The number of bytes that `memcmp` reads of each buffer. -/
def memcmp_reads : ℕ → Mem → Mem → ℕ
  | 0, _, _ => 1
  | n + 1, m1, m2 =>
    if m1 0 = m2 0 ∧ n + 1 > 1 then memcmp_reads n (fun i => m1 (i + 1)) (fun i => m2 (i + 1)) + 1
    else 1

/-- The index `k` is the first at which the texts differ, a NUL behind them included. -/
structure FirstDiff (s1 s2 : List UInt8) (k : ℕ) : Prop where
  same : s1.take k = s2.take k
  differ : s1.getD k 0 ≠ s2.getD k 0

/-- The two bytes are on the same side of 0x80. -/
def SameSide (a b : UInt8) : Prop := a.toNat < 128 ↔ b.toNat < 128

/-- The texts differ first at an index below `n`, in two bytes on the same side of 0x80. -/
def DifferPlainly (s1 s2 : List UInt8) (n : ℕ) : Prop :=
  ∃ k < n, FirstDiff s1 s2 k ∧ SameSide (s1.getD k 0) (s2.getD k 0)

instance (a b : UInt8) : Decidable (SameSide a b) := inferInstanceAs (Decidable (_ ↔ _))

variable {s1 s2 s t : List UInt8} {n k : ℕ} {c : UInt8} {r : ℤ}

/-! ## The first difference decides -/

theorem FirstDiff.cons (h : FirstDiff s t k) : FirstDiff (c :: s) (c :: t) (k + 1) :=
  ⟨by rw [List.take_succ_cons, List.take_succ_cons, h.same],
    by rw [List.getD_cons_succ, List.getD_cons_succ]; exact h.differ⟩

theorem FirstDiff.lt_iff (h : FirstDiff s t k) : s < t ↔ s.getD k 0 < t.getD k 0 := by
  induction k generalizing s t with
  | zero =>
    have hne := h.differ
    have hnil : ∀ c : UInt8, ¬ c < 0 := fun c => UInt8.not_lt_zero
    cases s with
    | nil =>
      cases t with
      | nil => exact absurd rfl hne
      | cons d t =>
        refine iff_of_true (List.nil_lt_cons d t) ?_
        exact UInt8.pos_iff_ne_zero.mpr (Ne.symm hne)
    | cons c s =>
      cases t with
      | nil => exact iff_of_false (List.not_lt_nil _) (hnil c)
      | cons d t =>
        rw [List.cons_lt_cons_iff, or_iff_left fun hboth => hne hboth.1]
        rfl
  | succ k ih =>
    obtain ⟨hsame, hne⟩ := h
    cases s with
    | nil =>
      cases t with
      | nil => exact absurd rfl hne
      | cons d t => simp at hsame
    | cons c s =>
      cases t with
      | nil => simp at hsame
      | cons d t =>
        rw [List.take_succ_cons, List.take_succ_cons, List.cons.injEq] at hsame
        obtain ⟨rfl, hsame⟩ := hsame
        rw [List.cons_lt_cons_self, ih ⟨hsame, hne⟩]
        rfl

theorem FirstDiff.symm (h : FirstDiff s t k) : FirstDiff t s k := ⟨h.same.symm, h.differ.symm⟩

theorem FirstDiff.ne (h : FirstDiff s t k) : s ≠ t := by
  rintro rfl
  exact h.differ rfl

theorem FirstDiff.take (h : FirstDiff s t k) (hk : k < n) : FirstDiff (s.take n) (t.take n) k := by
  have hget : ∀ l : List UInt8, (l.take n).getD k 0 = l.getD k 0 := fun l => by
    rw [List.getD_eq_getElem?_getD, List.getElem?_take_of_lt hk, List.getD_eq_getElem?_getD]
  refine ⟨?_, by rw [hget, hget]; exact h.differ⟩
  rw [List.take_take, List.take_take, Nat.min_eq_left hk.le, h.same]

theorem SignOf.refl : SignOf 0 s s :=
  ⟨iff_of_false (Int.lt_irrefl 0) (List.lt_irrefl s), iff_of_true rfl rfl,
    iff_of_false (Int.lt_irrefl 0) (List.lt_irrefl s)⟩

/-- The order is that of the first two bytes that differ. -/
theorem FirstDiff.signOf_iff (h : FirstDiff s t k) : SignOf r s t ↔
    (r < 0 ↔ s.getD k 0 < t.getD k 0) ∧ r ≠ 0 ∧ (0 < r ↔ t.getD k 0 < s.getD k 0) := by
  rw [← h.lt_iff, ← h.symm.lt_iff]
  constructor
  · rintro ⟨hneg, hzero, hpos⟩
    exact ⟨hneg, fun he => h.ne (hzero.mp he), hpos⟩
  · rintro ⟨hneg, hzero, hpos⟩
    exact ⟨hneg, iff_of_false hzero h.ne, hpos⟩

/-- The difference of unsigned bytes has the right sign. -/
theorem signOf_byte_sub (h : FirstDiff s t k) :
    SignOf ((s.getD k 0).toNat - (t.getD k 0).toNat) s t := by
  rw [h.signOf_iff, UInt8.lt_iff_toNat_lt, UInt8.lt_iff_toNat_lt]
  have hne : (s.getD k 0).toNat ≠ (t.getD k 0).toNat := fun he => h.differ (UInt8.toNat_inj.mp he)
  omega

/-- The difference of `char`s has, if the bytes are on one side of 0x80. -/
theorem signOf_schar_sub (h : FirstDiff s t k) :
    SignOf (schar (s.getD k 0) - schar (t.getD k 0)) s t ↔
      SameSide (s.getD k 0) (t.getD k 0) := by
  rw [h.signOf_iff, UInt8.lt_iff_toNat_lt, UInt8.lt_iff_toNat_lt, SameSide]
  have hne : (s.getD k 0).toNat ≠ (t.getD k 0).toNat := fun he => h.differ (UInt8.toNat_inj.mp he)
  have hs := (s.getD k 0).toNat_lt
  have ht := (t.getD k 0).toNat_lt
  unfold schar
  split_ifs <;> omega

/-! ## What the loops return -/

/-- `strncmp` returns the difference at the first of `n` indices that has one. -/
theorem strncmp_cases (h1 : 0 ∉ s1) (h2 : 0 ∉ s2) (hn : 0 < n) :
    (s1.take n = s2.take n ∧ strncmp s1 s2 n = 0) ∨
    ∃ k < n, FirstDiff s1 s2 k ∧ strncmp s1 s2 n = schar (s1.getD k 0) - schar (s2.getD k 0) := by
  induction s1 generalizing s2 n with
  | nil =>
    cases s2 with
    | nil => exact .inl ⟨rfl, rfl⟩
    | cons d t =>
      have hd : 0 ≠ d := fun he => h2 (by simp [he])
      exact .inr ⟨0, hn, ⟨rfl, hd⟩, rfl⟩
  | cons c s ih =>
    have hc : c ≠ 0 := fun he => h1 (by simp [he])
    rw [strncmp]
    cases s2 with
    | nil =>
      rw [if_neg fun h => hc h.2.1]
      exact .inr ⟨0, hn, ⟨rfl, hc⟩, rfl⟩
    | cons d t =>
      by_cases hcd : c = d
      · subst hcd
        by_cases hlast : n > 1
        · rw [if_pos ⟨hc, rfl, hlast⟩]
          obtain ⟨n, rfl⟩ : ∃ j, n = j + 1 := ⟨n - 1, by omega⟩
          rw [List.take_succ_cons, List.take_succ_cons, List.cons.injEq, Nat.add_sub_cancel]
          have h1' : 0 ∉ s := fun h => h1 (List.mem_cons_of_mem c h)
          have h2' : 0 ∉ t := fun h => h2 (List.mem_cons_of_mem c h)
          rcases ih h1' h2' (show 0 < n by omega) with ⟨hsame, hret⟩ | ⟨k, hk, hdiff, hret⟩
          · exact .inl ⟨⟨rfl, hsame⟩, hret⟩
          · exact .inr ⟨k + 1, by omega, hdiff.cons, hret⟩
        · obtain rfl : n = 1 := by omega
          rw [if_neg fun h => hlast h.2.2]
          exact .inl ⟨rfl, Int.sub_self _⟩
      · rw [if_neg fun h => hcd h.2.1]
        exact .inr ⟨0, hn, ⟨rfl, hcd⟩, rfl⟩

theorem bytes_succ (m : Mem) (n : ℕ) :
    bytes m (n + 1) = m 0 :: bytes (fun i => m (i + 1)) n := by
  rw [bytes, List.range_succ_eq_map, List.map_cons, List.map_map]
  rfl

/-- `memcmp` does so with unsigned bytes, and reads no byte behind the `n`-th. -/
theorem memcmp_cases (n : ℕ) (m1 m2 : Mem) : memcmp_reads (n + 1) m1 m2 ≤ n + 1 ∧
    ((bytes m1 (n + 1) = bytes m2 (n + 1) ∧ memcmp (n + 1) m1 m2 = 0) ∨
    ∃ k, FirstDiff (bytes m1 (n + 1)) (bytes m2 (n + 1)) k ∧
      memcmp (n + 1) m1 m2 =
        ((bytes m1 (n + 1)).getD k 0).toNat - ((bytes m2 (n + 1)).getD k 0).toNat) := by
  induction n generalizing m1 m2 with
  | zero =>
    rw [memcmp_reads, memcmp, if_neg (by omega), if_neg (by omega), bytes_succ m1, bytes_succ m2]
    refine ⟨le_refl _, ?_⟩
    by_cases h0 : m1 0 = m2 0
    · rw [h0]
      exact .inl ⟨rfl, Int.sub_self _⟩
    · exact .inr ⟨0, ⟨rfl, h0⟩, rfl⟩
  | succ n ih =>
    rw [memcmp_reads, memcmp, bytes_succ m1, bytes_succ m2]
    by_cases h0 : m1 0 = m2 0
    · rw [if_pos ⟨h0, by omega⟩, if_pos ⟨h0, by omega⟩, h0]
      obtain ⟨hreads, hcases⟩ := ih (fun i => m1 (i + 1)) (fun i => m2 (i + 1))
      refine ⟨Nat.succ_le_succ hreads, ?_⟩
      rcases hcases with ⟨hsame, hret⟩ | ⟨k, hdiff, hret⟩
      · exact .inl ⟨by rw [hsame], hret⟩
      · exact .inr ⟨k + 1, hdiff.cons, hret⟩
    · rw [if_neg fun h => h0 h.1, if_neg fun h => h0 h.1]
      exact ⟨Nat.succ_le_succ (Nat.zero_le _), .inr ⟨0, ⟨rfl, h0⟩, rfl⟩⟩

/-! ## When they are right -/

/-- There is one first difference only. -/
theorem FirstDiff.unique {j : ℕ} (h : FirstDiff s t k) (h' : FirstDiff s t j) : k = j := by
  have hsame : ∀ {i j : ℕ}, FirstDiff s t j → i < j → s.getD i 0 = t.getD i 0 := by
    intro i j hj hi
    rw [List.getD_eq_getElem?_getD, List.getD_eq_getElem?_getD, ← List.getElem?_take_of_lt hi,
      hj.same, List.getElem?_take_of_lt hi]
  rcases Nat.lt_trichotomy k j with hlt | he | hgt
  · exact absurd (hsame h' hlt) h.differ
  · exact he
  · exact absurd (hsame h hgt) h'.differ

/-- Texts with a difference below `n` compare as the difference says. -/
theorem FirstDiff.differPlainly_iff (h : FirstDiff s t k) (hk : k < n) :
    DifferPlainly s t n ↔ SameSide (s.getD k 0) (t.getD k 0) := by
  constructor
  · rintro ⟨j, -, hj, hside⟩
    obtain rfl := h.unique hj
    exact hside
  · intro hside
    exact ⟨k, hk, h, hside⟩

theorem strcmp_right_iff (h1 : 0 ∉ s1) (h2 : 0 ∉ s2) :
    SignOf (strcmp s1 s2) s1 s2 ↔ s1 = s2 ∨ DifferPlainly s1 s2 MAX_STR_LEN := by
  rcases strncmp_cases h1 h2 (by decide : 0 < MAX_STR_LEN) with ⟨hsame, hret⟩ | ⟨k, hk, hdiff, hret⟩
  · -- nothing in the first 1024 bytes
    have hnone : ¬ DifferPlainly s1 s2 MAX_STR_LEN := by
      rintro ⟨k, hk, hdiff, -⟩
      exact (hdiff.take hk).ne hsame
    rw [strcmp, hret, or_iff_left hnone]
    constructor
    · intro h
      exact h.zero.mp rfl
    · rintro rfl
      exact .refl
  · rw [strcmp, hret, signOf_schar_sub hdiff, or_iff_right hdiff.ne, hdiff.differPlainly_iff hk]

theorem strncmp_right_iff (h1 : 0 ∉ s1) (h2 : 0 ∉ s2) (n : ℕ) :
    SignOf (strncmp s1 s2 n) (s1.take n) (s2.take n) ↔
      if n = 0 then s1.getD 0 0 = s2.getD 0 0
      else s1.take n = s2.take n ∨ DifferPlainly s1 s2 n := by
  by_cases h0 : n = 0
  · subst h0
    have hfirst : strncmp s1 s2 0 = schar (s1.getD 0 0) - schar (s2.getD 0 0) := by
      cases s1 with
      | nil => cases s2 <;> rfl
      | cons c s =>
        rw [strncmp, if_neg (by omega)]
        cases s2 <;> rfl
    rw [if_pos rfl, hfirst, ← schar_sub_eq_zero]
    constructor
    · intro h
      exact h.zero.mpr rfl
    · intro h
      rw [h]
      exact .refl
  · rw [if_neg h0]
    rcases strncmp_cases h1 h2 (Nat.pos_of_ne_zero h0) with ⟨hsame, hret⟩ | ⟨k, hk, hdiff, hret⟩
    · rw [hret, hsame]
      exact iff_of_true .refl (.inl rfl)
    · have hget : ∀ l : List UInt8, (l.take n).getD k 0 = l.getD k 0 := fun l => by
        rw [List.getD_eq_getElem?_getD, List.getElem?_take_of_lt hk, List.getD_eq_getElem?_getD]
      have hsub := signOf_schar_sub (hdiff.take hk)
      rw [hget, hget] at hsub
      rw [hret, hsub, or_iff_right (hdiff.take hk).ne, hdiff.differPlainly_iff hk]

theorem memcmp_right_iff (n : ℕ) (m1 m2 : Mem) :
    (SignOf (memcmp n m1 m2) (bytes m1 n) (bytes m2 n) ∧ memcmp_reads n m1 m2 ≤ n) ↔ 0 < n := by
  cases n with
  | zero => exact iff_of_false (fun h => Nat.not_succ_le_zero 0 h.2) (Nat.lt_irrefl 0)
  | succ n =>
    refine iff_of_true ?_ (Nat.succ_pos n)
    obtain ⟨hreads, ⟨hsame, hret⟩ | ⟨k, hdiff, hret⟩⟩ := memcmp_cases n m1 m2
    · rw [hret, hsame]
      exact ⟨.refl, hreads⟩
    · rw [hret]
      exact ⟨signOf_byte_sub hdiff, hreads⟩

/-- **When the comparisons are right.** `strcmp`: the strings are equal, or differ first in the
first 1024 bytes, in two bytes on one side of 0x80. `strncmp`: the same of the first `n` bytes,
and for `n = 0` the first bytes are equal. `memcmp`: `n` is not 0. -/
theorem compare_iff (s1 s2 : Str) (n : ℕ) (m1 m2 : Mem) :
    (SignOf (strcmp s1.chars s2.chars) s1.chars s2.chars ↔
      s1.chars = s2.chars ∨ DifferPlainly s1.chars s2.chars MAX_STR_LEN) ∧
    (SignOf (strncmp s1.chars s2.chars n) (s1.chars.take n) (s2.chars.take n) ↔
      if n = 0 then s1.chars.getD 0 0 = s2.chars.getD 0 0
      else s1.chars.take n = s2.chars.take n ∨ DifferPlainly s1.chars s2.chars n) ∧
    ((SignOf (memcmp n m1 m2) (bytes m1 n) (bytes m2 n) ∧ memcmp_reads n m1 m2 ≤ n) ↔ 0 < n) :=
  ⟨strcmp_right_iff s1.no_nul s2.no_nul, strncmp_right_iff s1.no_nul s2.no_nul n,
    memcmp_right_iff n m1 m2⟩

/-- The byte 0x80 compares below "a"; strings that differ behind 1024 bytes are equal; and with
`n` 0 a byte is compared all the same. -/
theorem compare_wrong :
    (strcmp [0x80] [97] < 0 ∧ ¬ SignOf (strcmp [0x80] [97]) [0x80] [97]) ∧
    (strcmp (List.replicate 1024 97) (List.replicate 1025 97) = 0 ∧
      ¬ SignOf (strcmp (List.replicate 1024 97) (List.replicate 1025 97))
        (List.replicate 1024 97) (List.replicate 1025 97)) ∧
    (strncmp [97] [98] 0 = -1 ∧ ¬ SignOf (strncmp [97] [98] 0) [] []) ∧
    memcmp 0 (fun _ => 97) (fun _ => 98) = -1 ∧ memcmp_reads 0 (fun _ => 97) (fun _ => 98) = 1 := by
  have hlong : strcmp (List.replicate 1024 97) (List.replicate 1025 97) = 0 := by decide +kernel
  refine ⟨⟨by decide, fun h => ?_⟩, ⟨hlong, fun h => ?_⟩, ⟨by decide, fun h => ?_⟩, by decide,
    by decide⟩
  · exact absurd (h.neg.mp (by decide)) (by decide)
  · have hlen := congrArg List.length (h.zero.mp hlong)
    rw [List.length_replicate, List.length_replicate] at hlen
    omega
  · exact absurd (h.zero.mpr rfl) (by decide)

end Loos.StringOrder
