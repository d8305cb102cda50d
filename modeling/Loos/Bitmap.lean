/-
`lolibc/struct/bitmap.c`: the bitmap allocator.

`bitmap_alloc` looks for `cnt` clear bits in a row. It probes bit after bit behind a clear one,
and it is an assertion of `bitmap_is_in_use`, not the loop, that stops it at the end of the map
and, since the index is an `int`, at the bit 2³¹. So it comes back only where the search ends
before ([`bitmap_alloc_iff`]).
-/
import Loos.Lib.Bits
import Mathlib.Data.List.Basic
import Mathlib.Tactic.Common

set_option autoImplicit false

namespace Loos.Bitmap

/-! ## The code -/

/-- A `size_t` passed as an `int`. -/
def int (n : ℕ) : ℤ := (BitVec.ofNat 32 n).toInt

/-- `get_bit` of `lolibc/bits.h` -/
def get_bit (x l : ℕ) : Bool := x >>> l &&& 1 = 1

/-- `set_bit`; the complement is that of a 32-bit number. -/
def set_bit (x l : ℕ) (status : Bool) : ℕ :=
  if status then x ||| 1 <<< l else x &&& (2 ^ 32 - 1 - 1 <<< l)

/-- The bytes of the map, the bits that were looked at, and the bytes that were read. -/
structure State where
  page_map : ℕ → UInt8
  looked : List ℕ
  read : List ℕ

/-- `bitmap_is_in_use`; `none` is a failed assertion. It compares the index as a `size_t`, so
that a negative one could pass for a map of almost 2⁶⁴ bits; that would be a read before the map,
which is `none` too. -/
def bitmap_is_in_use (map_max : ℕ) (index : ℤ) (s : State) : Option (Bool × State) :=
  if 0 ≤ index ∧ index < map_max then
    let k := index.toNat
    some (get_bit (s.page_map (k / 8)).toNat (k % 8),
      { s with looked := k :: s.looked, read := k / 8 :: s.read })
  else none

/-- `bitmap_set_status`; `none` as in `bitmap_is_in_use`. -/
def bitmap_set_status (map_max : ℕ) (index : ℤ) (status : Bool) (s : State) : Option State :=
  if 0 ≤ index ∧ index < map_max then
    let k := index.toNat
    let byte := UInt8.ofNat (set_bit (s.page_map (k / 8)).toNat (k % 8) status)
    some { s with page_map := Function.update s.page_map (k / 8) byte, read := k / 8 :: s.read }
  else none

/-- The loop over `j`, with the turns to come: the `j` it ends with. -/
def probe (map_max i : ℕ) : ℕ → ℕ → State → Option (ℕ × State)
  | 0, j, s => some (j, s)
  | n + 1, j, s => (bitmap_is_in_use map_max (int (i + j)) s).bind fun r =>
      if r.1 then some (j, r.2) else probe map_max i n (j + 1) r.2

/-- The loop over `k`, with the turns to come. -/
def mark (map_max i : ℕ) : ℕ → ℕ → State → Option State
  | 0, _, s => some s
  | n + 1, k, s =>
    (bitmap_set_status map_max (int (i + k)) true s).bind (mark map_max i n (k + 1))

/-- The loop over `i`. -/
def scan (map_max cnt : ℕ) : ℕ → ℕ → State → Option (ℤ × State)
  | 0, _, _ => none
  | fuel + 1, i, s =>
    if i < map_max then
      (bitmap_is_in_use map_max (int i) s).bind fun r =>
        if r.1 then scan map_max cnt fuel (i + 1) r.2
        else (probe map_max i cnt 0 r.2).bind fun p =>
          if p.1 ≥ cnt then (mark map_max i p.1 0 p.2).map fun s => ((i : ℤ), s)
          else scan map_max cnt fuel (i + p.1 + 1) p.2
    else some (-1, s)

/-- `bitmap_alloc`; -1 stands for `(size_t)-1`. -/
def bitmap_alloc (map_max cnt : ℕ) (s : State) : Option (ℤ × State) :=
  scan map_max cnt (map_max + 1) 0 s

/-- The loop of `bitmap_free`, with the turns to come. -/
def unmark (map_max index : ℕ) : ℕ → ℕ → State → Option State
  | 0, _, s => some s
  | n + 1, i, s => (bitmap_is_in_use map_max (int (index + i)) s).bind fun r =>
      if r.1 then
        (bitmap_set_status map_max (int (index + i)) false r.2).bind
          (unmark map_max index n (i + 1))
      else none

def bitmap_free (map_max index cnt : ℕ) (s : State) : Option State :=
  unmark map_max index cnt 0 s

/-! ## Bits -/

/-- The bit `k` of the map. -/
def bit (page_map : ℕ → UInt8) (k : ℕ) : Bool := (page_map (k / 8)).toNat.testBit (k % 8)

variable {pm pm' : ℕ → UInt8} {s s' : State} {map_max cnt i j k n x l : ℕ} {status : Bool}

/-- The bits make up the bytes. -/
theorem bit_ext (h : ∀ k, bit pm k = bit pm' k) : pm = pm' := by
  funext b
  refine UInt8.toNat_inj.mp (Nat.eq_of_testBit_eq fun l => ?_)
  rcases Nat.lt_or_ge l 8 with hl | hl
  · have hbit := h (8 * b + l)
    rwa [bit, bit, show (8 * b + l) / 8 = b by omega, show (8 * b + l) % 8 = l by omega] at hbit
  · have hbyte : ∀ c : UInt8, c.toNat.testBit l = false := fun c =>
      Nat.testBit_lt_two_pow (c.toNat_lt.trans_le (Nat.pow_le_pow_right (by decide) hl))
    rw [hbyte, hbyte]

theorem get_bit_eq : get_bit x l = x.testBit l := by
  rw [get_bit, Nat.and_one_is_mod, Nat.testBit_eq_decide_div_mod_eq, Nat.shiftRight_eq_div_pow]

theorem testBit_set_bit (hl : l < 8) (hk : k < 8) :
    (set_bit x l status).testBit k = if k = l then status else x.testBit k := by
  have hone : (1 <<< l).testBit k = decide (k = l) := by
    rw [Nat.one_shiftLeft, Nat.testBit_two_pow]
    exact decide_eq_decide.mpr eq_comm
  rw [set_bit]
  cases status with
  | true =>
    rw [if_pos rfl, Nat.testBit_or, hone]
    split_ifs with he <;> simp [he]
  | false =>
    have hmask : 2 ^ 32 - 1 - 1 <<< l = 2 ^ 32 - (1 <<< l + 1) := by omega
    have hlt : 1 <<< l < 2 ^ 32 := by
      rw [Nat.one_shiftLeft]
      exact Nat.pow_lt_pow_right (by decide) (by omega)
    rw [if_neg (by decide), Nat.testBit_and, hmask, Nat.testBit_two_pow_sub_succ hlt, hone]
    split_ifs with he <;> simp [he]
    omega

theorem int_of_lt (h : n < 2 ^ 31) : int n = n := by
  rw [int, BitVec.toInt_eq_toNat_of_lt] <;>
    rw [BitVec.toNat_ofNat, Nat.mod_eq_of_lt (by omega)]
  omega

theorem int_end : int (2 ^ 31) = -2 ^ 31 := by decide

/-! ## What one access does -/

/-- All accesses were to the map. -/
structure Inside (map_max : ℕ) (s : State) : Prop where
  looked : ∀ k ∈ s.looked, k < map_max
  read : ∀ b ∈ s.read, 8 * b < map_max

/-- The bits from `a` up to `b` are clear. -/
def Clear (pm : ℕ → UInt8) (a b : ℕ) : Prop := ∀ k, a ≤ k → k < b → bit pm k = false

/-- A bit below 2³¹ can be looked at. -/
theorem in_use_some (h : k < map_max) (hint : k < 2 ^ 31) (hin : Inside map_max s) :
    ∃ s', bitmap_is_in_use map_max (int k) s = some (bit s.page_map k, s') ∧
      s'.page_map = s.page_map ∧ Inside map_max s' := by
  have hindex : (int k).toNat = k := by rw [int_of_lt hint, Int.toNat_natCast]
  rw [bitmap_is_in_use, if_pos (by rw [int_of_lt hint]; omega)]
  simp only [hindex, get_bit_eq]
  refine ⟨_, rfl, rfl, fun i hi => ?_, fun b hb => ?_⟩
  · rcases List.mem_cons.mp hi with rfl | hi
    · exact h
    · exact hin.looked i hi
  · rcases List.mem_cons.mp hb with rfl | hb
    · omega
    · exact hin.read b hb

/-- The end of the map and the bit 2³¹ cannot. -/
theorem in_use_none (h : k = map_max ∧ k ≤ 2 ^ 31 ∨ k = 2 ^ 31) :
    bitmap_is_in_use map_max (int k) s = none := by
  rw [bitmap_is_in_use, if_neg]
  by_cases hend : k = 2 ^ 31
  · rw [hend, int_end]
    omega
  · rw [int_of_lt (by omega)]
    omega

theorem set_status_some (status : Bool) (h : k < map_max) (hint : k < 2 ^ 31)
    (hin : Inside map_max s) :
    ∃ s', bitmap_set_status map_max (int k) status s = some s' ∧
      (∀ j, bit s'.page_map j = if j = k then status else bit s.page_map j) ∧
      Inside map_max s' := by
  have hindex : (int k).toNat = k := by rw [int_of_lt hint, Int.toNat_natCast]
  rw [bitmap_set_status, if_pos (by rw [int_of_lt hint]; omega)]
  simp only [hindex]
  refine ⟨_, rfl, fun j => ?_, hin.looked, fun b hb => ?_⟩
  · simp only [bit]
    by_cases hbyte : j / 8 = k / 8
    · have hj : j % 8 < 8 := Nat.mod_lt j (by decide)
      have hlow : ∀ v : ℕ, (UInt8.ofNat v).toNat.testBit (j % 8) = v.testBit (j % 8) := by
        intro v
        rw [UInt8.toNat_ofNat', Nat.testBit_mod_two_pow, decide_eq_true hj, Bool.true_and]
      rw [hbyte, Function.update_self, hlow, testBit_set_bit (Nat.mod_lt k (by decide)) hj]
      exact if_congr (by omega) rfl rfl
    · rw [Function.update_of_ne hbyte, if_neg (by omega)]
  · rcases List.mem_cons.mp hb with rfl | hb
    · omega
    · exact hin.read b hb

/-! ## The loops of `bitmap_alloc` and `bitmap_free` -/

/-- How the loop over `j` ends: with `cnt` clear bits, at a set bit, or at an index that the
assertion refuses. -/
theorem probe_cases (hin : Inside map_max s) (hend : i + j ≤ map_max ∧ i + j ≤ 2 ^ 31)
    (hclear : Clear s.page_map i (i + j)) :
    (∃ s', probe map_max i n j s = some (j + n, s') ∧ s'.page_map = s.page_map ∧
      Inside map_max s' ∧ Clear s.page_map i (i + (j + n)) ∧
      i + (j + n) ≤ map_max ∧ i + (j + n) ≤ 2 ^ 31) ∨
    (∃ l s', probe map_max i n j s = some (l, s') ∧ s'.page_map = s.page_map ∧
      Inside map_max s' ∧ l < j + n ∧ Clear s.page_map i (i + l) ∧
      bit s.page_map (i + l) = true ∧ i + l < map_max ∧ i + l < 2 ^ 31) ∨
    (probe map_max i n j s = none ∧ ∃ l < j + n, Clear s.page_map i (i + l) ∧
      i + l ≤ map_max ∧ (i + l = map_max ∨ i + l = 2 ^ 31)) := by
  induction n generalizing j s with
  | zero => exact .inl ⟨s, rfl, rfl, hin, hclear, hend⟩
  | succ n ih =>
    rw [probe]
    by_cases hstop : i + j = map_max ∨ i + j = 2 ^ 31
    · rw [in_use_none (by omega)]
      exact .inr (.inr ⟨rfl, j, by omega, hclear, hend.1, hstop⟩)
    · obtain ⟨s₁, hs₁, hpm, hin₁⟩ := in_use_some (k := i + j) (by omega) (by omega) hin
      rw [hs₁, Option.bind_some]
      cases hbit : bit s.page_map (i + j) with
      | true =>
        exact .inr (.inl ⟨j, s₁, rfl, hpm, hin₁, by omega, hclear, hbit, by omega, by omega⟩)
      | false =>
        have hmore : Clear s₁.page_map i (i + (j + 1)) := by
          intro k hk hk'
          rw [hpm]
          rcases Nat.lt_succ_iff_lt_or_eq.mp hk' with hlt | rfl
          · exact hclear k hk hlt
          · exact hbit
        have hrest := ih hin₁ (by omega) hmore
        rw [hpm, show j + 1 + n = j + (n + 1) by omega] at hrest
        exact hrest

theorem mark_some (hin : Inside map_max s) (h : i + (k + n) ≤ map_max ∧ i + (k + n) ≤ 2 ^ 31) :
    ∃ s', mark map_max i n k s = some s' ∧ Inside map_max s' ∧ ∀ j, bit s'.page_map j =
      if i + k ≤ j ∧ j < i + (k + n) then true else bit s.page_map j := by
  induction n generalizing k s with
  | zero => exact ⟨s, rfl, hin, fun j => (if_neg (by omega)).symm⟩
  | succ n ih =>
    obtain ⟨s₁, hs₁, hbits, hin₁⟩ :=
      set_status_some (k := i + k) true (by omega) (by omega) hin
    obtain ⟨s₂, hs₂, hin₂, hbits₂⟩ := ih (k := k + 1) hin₁ (by omega)
    refine ⟨s₂, by rw [mark, hs₁, Option.bind_some, hs₂], hin₂, fun j => ?_⟩
    rw [hbits₂, hbits]
    split_ifs <;> first | rfl | omega

/-- `bitmap_free` clears a run of set bits. -/
theorem unmark_some (hin : Inside map_max s) (h : i + (k + n) ≤ map_max ∧ i + (k + n) ≤ 2 ^ 31)
    (hset : ∀ j, i + k ≤ j → j < i + (k + n) → bit s.page_map j = true) :
    ∃ s', unmark map_max i n k s = some s' ∧ Inside map_max s' ∧ ∀ j, bit s'.page_map j =
      if i + k ≤ j ∧ j < i + (k + n) then false else bit s.page_map j := by
  induction n generalizing k s with
  | zero => exact ⟨s, rfl, hin, fun j => (if_neg (by omega)).symm⟩
  | succ n ih =>
    obtain ⟨s₁, hs₁, hpm, hin₁⟩ := in_use_some (k := i + k) (by omega) (by omega) hin
    obtain ⟨s₂, hs₂, hbits, hin₂⟩ :=
      set_status_some (k := i + k) false (by omega) (by omega) hin₁
    rw [hpm] at hbits
    obtain ⟨s₃, hs₃, hin₃, hbits₃⟩ := ih (k := k + 1) hin₂ (by omega) fun j hj hj' => by
      rw [hbits, if_neg (by omega)]
      exact hset j (by omega) (by omega)
    refine ⟨s₃, ?_, hin₃, fun j => ?_⟩
    · rw [unmark, hs₁, Option.bind_some, if_pos (hset _ (by omega) (by omega)), hs₂,
        Option.bind_some, hs₃]
    · rw [hbits₃, hbits]
      split_ifs <;> first | rfl | omega

/-! ## `bitmap_alloc` -/

/-- `cnt` clear bits of the map in a row, from `i` on. -/
structure IsRun (pm : ℕ → UInt8) (map_max cnt i : ℕ) : Prop where
  inside : i + cnt ≤ map_max
  clear : Clear pm i (i + cnt)

/-- The search ends before an assertion: a run ends at or below the bit 2³¹, or there is none,
and the map has at most 2³¹ bits, the last of which is set. -/
def Ends (pm : ℕ → UInt8) (map_max cnt : ℕ) : Prop :=
  (∃ i, IsRun pm map_max cnt i ∧ i + cnt ≤ 2 ^ 31) ∨
    (∀ i, ¬ IsRun pm map_max cnt i) ∧ map_max ≤ 2 ^ 31 ∧
      (map_max = 0 ∨ bit pm (map_max - 1) = true)

/-- What `bitmap_alloc` should do: it looks only at bits of the map, takes the first run, all of
which `bitmap_free` gives back, or returns -1 if there is none. -/
def Allocates (pm : ℕ → UInt8) (map_max cnt : ℕ) (ret : ℤ) (s : State) : Prop :=
  Inside map_max s ∧
    ((∃ i : ℕ, ret = i ∧ IsRun pm map_max cnt i ∧ (∀ j < i, ¬ IsRun pm map_max cnt j) ∧
      (∀ k, bit s.page_map k = if i ≤ k ∧ k < i + cnt then true else bit pm k) ∧
      (bitmap_free map_max i cnt s).map State.page_map = some pm) ∨
    (ret = -1 ∧ s.page_map = pm ∧ ∀ i, ¬ IsRun pm map_max cnt i))

/-- A run that begins before a set bit ends before it. -/
theorem not_isRun_of_set (hset : bit pm k = true) (hle : i ≤ k) (hlt : k < i + cnt) :
    ¬ IsRun pm map_max cnt i := fun h => by
  rw [h.clear k hle hlt] at hset
  cases hset

/-- An assertion fails where the clear bits end there and are fewer than `cnt`. -/
theorem not_ends (hnone : ∀ j < i, ¬ IsRun pm map_max cnt j) (hl : l < cnt)
    (hclear : Clear pm i (i + l)) (hi : i < map_max) (hstop : i + l = map_max ∨ i + l = 2 ^ 31)
    (hle : i + l ≤ map_max) : ¬ Ends pm map_max cnt := by
  rintro (⟨a, hrun, ha⟩ | ⟨-, hsmall, hlast⟩)
  · have hai : i ≤ a := Nat.le_of_not_lt fun hlt => hnone a hlt hrun
    have := hrun.inside
    omega
  · have hbit := hclear (map_max - 1) (by omega) (by omega)
    rcases hlast with rfl | hset
    · omega
    · rw [hbit] at hset
      cases hset

/-- The first run is marked, and `bitmap_free` gives it back. -/
theorem mark_allocates (hin : Inside map_max s) (hrun : IsRun s.page_map map_max cnt i)
    (hint : i + cnt ≤ 2 ^ 31) (hnone : ∀ j < i, ¬ IsRun s.page_map map_max cnt j) :
    ∃ s', mark map_max i cnt 0 s = some s' ∧ Allocates s.page_map map_max cnt i s' := by
  have hinside := hrun.inside
  obtain ⟨s₁, hs₁, hin₁, hbits⟩ := mark_some (i := i) (k := 0) (n := cnt) hin (by omega)
  rw [Nat.add_zero, Nat.zero_add] at hbits
  refine ⟨s₁, hs₁, hin₁, .inl ⟨i, rfl, hrun, hnone, hbits, ?_⟩⟩
  obtain ⟨s₂, hs₂, -, hfreed⟩ := unmark_some (i := i) (k := 0) (n := cnt) hin₁ (by omega)
    fun j hj hj' => by rw [hbits, if_pos (by omega)]
  rw [bitmap_free, hs₂, Option.map_some]
  refine congrArg some (bit_ext fun j => ?_)
  rw [hfreed, hbits]
  by_cases hj : i ≤ j ∧ j < i + cnt
  · rw [if_pos (by omega), hrun.clear j hj.1 hj.2]
  · rw [if_neg (by omega), if_neg hj]

/-- **The search**, from a bit behind which no run has begun. -/
theorem scan_cases {fuel : ℕ} (hcnt : 1 ≤ cnt) (hin : Inside map_max s)
    (hend : i ≤ map_max ∧ i ≤ 2 ^ 31) (hnone : ∀ j < i, ¬ IsRun s.page_map map_max cnt j)
    (hlast : i = 0 ∨ bit s.page_map (i - 1) = true) (hfuel : map_max < fuel + i) :
    (Ends s.page_map map_max cnt ∧ ∃ ret s', scan map_max cnt fuel i s = some (ret, s') ∧
      Allocates s.page_map map_max cnt ret s') ∨
    (¬ Ends s.page_map map_max cnt ∧ scan map_max cnt fuel i s = none) := by
  induction fuel generalizing i s with
  | zero => omega
  | succ fuel ih =>
    rw [scan]
    by_cases hi : i < map_max
    swap
    · -- the end of the map, and no run
      have hno : ∀ j, ¬ IsRun s.page_map map_max cnt j := fun j hrun =>
        hnone j (by have := hrun.inside; omega) hrun
      obtain rfl : i = map_max := by omega
      rw [if_neg hi]
      exact .inl ⟨.inr ⟨hno, hend.2, hlast⟩, -1, s, rfl, hin, .inr ⟨rfl, rfl, hno⟩⟩
    rw [if_pos hi]
    by_cases hint : i < 2 ^ 31
    swap
    · have hempty : Clear s.page_map i (i + 0) := fun k _ _ => by omega
      rw [in_use_none (.inr (by omega))]
      exact .inr ⟨not_ends hnone (by omega) hempty hi (.inr (by omega)) (by omega), rfl⟩
    obtain ⟨s₁, hs₁, hpm₁, hin₁⟩ := in_use_some hi hint hin
    rw [hs₁, Option.bind_some, ← hpm₁]
    rw [← hpm₁] at hnone hlast
    cases hbit : bit s₁.page_map i with
    | true =>
      refine ih hin₁ (by omega) (fun j hj => ?_) (.inr hbit) (by omega)
      rcases Nat.lt_succ_iff_lt_or_eq.mp hj with hlt | rfl
      · exact hnone j hlt
      · exact not_isRun_of_set hbit (le_refl _) (by omega)
    | false =>
      rw [if_neg Bool.false_ne_true]
      rcases probe_cases (i := i) (j := 0) (n := cnt) hin₁ (by omega) (fun k _ _ => by omega) with
        ⟨s₂, hs₂, hpm₂, hin₂, hclear, hle, hle'⟩ |
        ⟨l, s₂, hs₂, hpm₂, hin₂, hl, hclear, hset, hlt, hlt'⟩ | ⟨hs₂, l, hl, hclear, hle, hstop⟩
      · -- the run begins here
        rw [Nat.zero_add] at hs₂ hclear hle hle'
        have hrun : IsRun s₁.page_map map_max cnt i := ⟨hle, hclear⟩
        rw [← hpm₂] at hrun hnone ⊢
        obtain ⟨s₃, hs₃, hall⟩ := mark_allocates hin₂ hrun hle' hnone
        refine .inl ⟨.inl ⟨i, hrun, hle'⟩, i, s₃, ?_, hall⟩
        rw [hs₂, Option.bind_some, if_pos (le_refl _), hs₃, Option.map_some]
      · -- a set bit ends it
        rw [Nat.zero_add] at hl
        rw [hs₂, Option.bind_some, if_neg (by omega), ← hpm₂]
        rw [← hpm₂] at hnone hset
        refine ih hin₂ (by omega) (fun j hj => ?_) (.inr ?_) (by omega)
        · rcases Nat.lt_or_ge j i with hlt | hge
          · exact hnone j hlt
          · exact not_isRun_of_set hset (by omega) (by omega)
        · rwa [Nat.add_sub_cancel]
      · rw [Nat.zero_add] at hl
        rw [hs₂]
        exact .inr ⟨not_ends hnone hl hclear hi hstop hle, rfl⟩

theorem bitmap_alloc_cases (pm : ℕ → UInt8) (map_max : ℕ) (hcnt : 1 ≤ cnt) :
    (Ends pm map_max cnt ∧ ∃ ret s, bitmap_alloc map_max cnt ⟨pm, [], []⟩ = some (ret, s) ∧
      Allocates pm map_max cnt ret s) ∨
    (¬ Ends pm map_max cnt ∧ bitmap_alloc map_max cnt ⟨pm, [], []⟩ = none) := by
  have hstart : Inside map_max ⟨pm, [], []⟩ := ⟨by simp, by simp⟩
  exact scan_cases hcnt hstart ⟨Nat.zero_le _, Nat.zero_le _⟩
    (fun j hj => absurd hj (Nat.not_lt_zero j)) (.inl rfl) (Nat.lt_succ_self map_max)

/-- **When `bitmap_alloc` is right**: exactly if the search ends before an assertion. -/
theorem bitmap_alloc_iff (pm : ℕ → UInt8) (map_max cnt : ℕ) (hcnt : 1 ≤ cnt) :
    (∃ ret s, bitmap_alloc map_max cnt ⟨pm, [], []⟩ = some (ret, s) ∧
      Allocates pm map_max cnt ret s) ↔ Ends pm map_max cnt := by
  rcases bitmap_alloc_cases pm map_max hcnt with ⟨hends, hex⟩ | ⟨hnot, hnone⟩
  · exact iff_of_true hex hends
  · refine iff_of_false ?_ hnot
    rintro ⟨ret, s, hs, -⟩
    rw [hnone] at hs
    cases hs

/-- Two bits in the byte `0x81`. -/
theorem bitmap_alloc_two_bits : ∃ ret s, bitmap_alloc 8 2 ⟨fun _ => 0x81, [], []⟩ = some (ret, s) ∧
    Allocates (fun _ => 0x81) 8 2 ret s := by
  refine (bitmap_alloc_iff (fun _ => 0x81) 8 2 (by decide)).mpr
    (.inl ⟨1, ⟨by decide, ?_⟩, by decide⟩)
  intro k hk hk'
  obtain rfl | rfl : k = 1 ∨ k = 2 := by omega
  all_goals decide

/-- With only the last bit clear there is no run of two, but the search goes on behind it. -/
theorem bitmap_alloc_past_end : bitmap_alloc 8 2 ⟨fun _ => 0x7F, [], []⟩ = none ∧
    (∀ i, ¬ IsRun (fun _ => 0x7F) 8 2 i) ∧
    ¬ ∃ ret s, bitmap_alloc 8 2 ⟨fun _ => 0x7F, [], []⟩ = some (ret, s) ∧
      Allocates (fun _ => 0x7F) 8 2 ret s := by
  have hnone : bitmap_alloc 8 2 ⟨fun _ => 0x7F, [], []⟩ = none := by decide +kernel
  refine ⟨hnone, fun i hrun => ?_, ?_⟩
  · have hi := hrun.inside
    have hbit := hrun.clear i (le_refl _) (by omega)
    have hset : ∀ k < 7, bit (fun _ => 0x7F) k = true := by decide
    rw [hset i (by omega)] at hbit
    cases hbit
  · rintro ⟨ret, s, hs, -⟩
    rw [hnone] at hs
    cases hs

end Loos.Bitmap
