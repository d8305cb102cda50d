/-
`bitmap_alloc_one`, which takes one bit and looks for it byte by byte.

Its `map_max` is the number of bits, as for `bitmap_alloc`, but its loop counts bytes with it.
Where no bit is clear it therefore goes on behind the map; where one is, it is the one that
`bitmap_alloc` takes ([`bitmap_alloc_one_iff`]).
-/
import Loos.Bitmap

set_option autoImplicit false

namespace Loos.BitmapOne

open Bitmap

/-! ## The code -/

/-- The loop that shifts the low ones out of a byte, with the turns to come. -/
def low_ones : ℕ → ℕ → ℕ → ℕ
  | 0, _, bit => bit
  | n + 1, data, bit => if data &&& 1 = 1 then low_ones n (data >>> 1) (bit + 1) else bit

/-- The loop over the bytes, with the turns to come. -/
def scan_bytes (map_max : ℕ) : ℕ → ℕ → State → Option (ℤ × State)
  | 0, _, s => some (-1, s)
  | n + 1, i, s =>
    let data := s.page_map i
    let s := { s with read := i :: s.read }
    if data ≠ 0xFF then
      let index := 8 * i + low_ones 8 data.toNat 0
      (bitmap_set_status map_max (int index) true s).map fun s => ((index : ℤ), s)
    else scan_bytes map_max n (i + 1) s

/-- `bitmap_alloc_one`; -1 stands for `(size_t)-1`. -/
def bitmap_alloc_one (map_max : ℕ) (s : State) : Option (ℤ × State) :=
  scan_bytes map_max map_max 0 s

/-! ## What it should do -/

/-- It comes back as `bitmap_alloc` for one bit does, with the same map; takes the first clear
bit or returns -1 if there is none; and reads bytes of the map only. -/
def TakesOne (pm : ℕ → UInt8) (map_max : ℕ) (ret : ℤ) (s : State) : Prop :=
  (∃ s', bitmap_alloc map_max 1 ⟨pm, [], []⟩ = some (ret, s') ∧ s'.page_map = s.page_map) ∧
    ((∃ k : ℕ, ret = k ∧ k < map_max ∧ bit pm k = false ∧ ∀ j < k, bit pm j = true) ∨
      ret = -1 ∧ ∀ k < map_max, bit pm k = true) ∧
    ∀ b ∈ s.read, b < map_max / 8

/-- The map is empty, or one of its bits below the bit 2³¹ is clear. -/
def HasClear (pm : ℕ → UInt8) (map_max : ℕ) : Prop :=
  map_max = 0 ∨ ∃ k < map_max, k < 2 ^ 31 ∧ bit pm k = false

variable {pm : ℕ → UInt8} {s s' : State} {map_max i k n data b : ℕ} {ret : ℤ}

/-! ## Bytes -/

/-- The lowest zero of a byte. -/
theorem low_ones_spec (hdata : data % 2 ^ n ≠ 2 ^ n - 1) : ∃ l < n, low_ones n data b = b + l ∧
    data.testBit l = false ∧ ∀ j < l, data.testBit j = true := by
  induction n generalizing data b with
  | zero => simp [Nat.mod_one] at hdata
  | succ n ih =>
    have hlow : data &&& 1 = data % 2 := Nat.and_one_is_mod data
    rw [low_ones, hlow]
    by_cases hone : data % 2 = 1
    · rw [if_pos hone, Nat.shiftRight_one]
      have hpow : 2 ^ (n + 1) = 2 * 2 ^ n := Nat.pow_succ'
      have hpos := Nat.two_pow_pos n
      have hhigh : data / 2 % 2 ^ n ≠ 2 ^ n - 1 := by
        intro he
        apply hdata
        rw [hpow, Nat.mod_mul, hone, he]
        omega
      obtain ⟨l, hl, hret, hzero, hones⟩ := ih (b := b + 1) hhigh
      refine ⟨l + 1, by omega, by rw [hret]; omega, ?_, fun j hj => ?_⟩
      · rw [Nat.testBit_succ, hzero]
      · cases j with
        | zero => rw [Nat.testBit_zero, decide_eq_true hone]
        | succ j =>
          rw [Nat.testBit_succ]
          exact hones j (by omega)
    · rw [if_neg hone]
      refine ⟨0, by omega, rfl, ?_, fun j hj => absurd hj (Nat.not_lt_zero j)⟩
      rw [Nat.testBit_zero, decide_eq_false hone]

/-- Either all bits of a byte are set, or one is the first that is clear. -/
theorem byte_cases (pm : ℕ → UInt8) (i : ℕ) :
    (pm i = 0xFF ∧ ∀ k, 8 * i ≤ k → k < 8 * i + 8 → bit pm k = true) ∨
    (pm i ≠ 0xFF ∧ ∃ l < 8, low_ones 8 (pm i).toNat 0 = l ∧ bit pm (8 * i + l) = false ∧
      ∀ k, 8 * i ≤ k → k < 8 * i + l → bit pm k = true) := by
  have hbit : ∀ l < 8, bit pm (8 * i + l) = (pm i).toNat.testBit l := by
    intro l hl
    rw [bit, show (8 * i + l) / 8 = i by omega, show (8 * i + l) % 8 = l by omega]
  by_cases hfull : pm i = 0xFF
  · refine .inl ⟨hfull, fun k hk hk' => ?_⟩
    obtain ⟨l, rfl⟩ := Nat.exists_eq_add_of_le hk
    have hones : ∀ l < 8, (0xFF : UInt8).toNat.testBit l = true := by decide
    rw [hbit l (by omega), hfull]
    exact hones l (by omega)
  · have hdata : (pm i).toNat % 2 ^ 8 ≠ 2 ^ 8 - 1 := by
      have hlt := (pm i).toNat_lt
      rw [Nat.mod_eq_of_lt hlt]
      exact fun he => hfull (UInt8.toNat_inj.mp he)
    obtain ⟨l, hl, hret, hzero, hones⟩ := low_ones_spec (b := 0) hdata
    refine .inr ⟨hfull, l, hl, by rw [hret, Nat.zero_add], by rw [hbit l hl, hzero], ?_⟩
    intro k hk hk'
    obtain ⟨j, rfl⟩ := Nat.exists_eq_add_of_le hk
    rw [hbit j (by omega)]
    exact hones j (by omega)

/-! ## The scan -/

/-- What was read stays read. -/
theorem scan_bytes_read (h : scan_bytes map_max n i s = some (ret, s')) (hb : b ∈ s.read) :
    b ∈ s'.read := by
  induction n generalizing i s with
  | zero =>
    obtain ⟨-, rfl⟩ := Prod.mk.inj (Option.some.inj h)
    exact hb
  | succ n ih =>
    rw [scan_bytes] at h
    dsimp only at h
    split_ifs at h with hdata
    · obtain ⟨s₁, hs₁, he⟩ := Option.map_eq_some_iff.mp h
      obtain ⟨-, rfl⟩ := Prod.mk.inj he
      rw [bitmap_set_status] at hs₁
      split_ifs at hs₁
      obtain rfl := Option.some.inj hs₁
      exact List.mem_cons_of_mem _ (List.mem_cons_of_mem _ hb)
    · exact ih h (List.mem_cons_of_mem _ hb)

/-- With all bits of the map set, the byte behind it is read. -/
theorem scan_bytes_past (hmul : map_max % 8 = 0) (hpos : 0 < map_max)
    (hall : ∀ k < map_max, bit s.page_map k = true) (hi : 8 * i ≤ map_max) (hn : i + n = map_max)
    (h : scan_bytes map_max n i s = some (ret, s')) : map_max / 8 ∈ s'.read := by
  induction n generalizing i s with
  | zero => omega
  | succ n ih =>
    by_cases hlast : 8 * i = map_max
    · have hstep := h
      rw [scan_bytes] at hstep
      dsimp only at hstep
      rw [show map_max / 8 = i by omega]
      split_ifs at hstep with hdata
      · obtain ⟨s₁, hs₁, he⟩ := Option.map_eq_some_iff.mp hstep
        obtain ⟨-, rfl⟩ := Prod.mk.inj he
        rw [bitmap_set_status] at hs₁
        split_ifs at hs₁
        obtain rfl := Option.some.inj hs₁
        exact List.mem_cons_of_mem _ List.mem_cons_self
      · exact scan_bytes_read hstep List.mem_cons_self
    · rcases byte_cases s.page_map i with ⟨hfull, -⟩ | ⟨-, l, hl, -, hzero, -⟩
      · rw [scan_bytes] at h
        dsimp only at h
        rw [if_neg (not_not.mpr hfull)] at h
        exact ih (s := { s with read := i :: s.read }) hall (by omega) (by omega) h
      · rw [hall _ (by omega)] at hzero
        cases hzero

/-- The first clear bit is taken. -/
theorem scan_bytes_takes (hk : k < map_max) (hint : k < 2 ^ 31)
    (hclear : bit s.page_map k = false) (hset : ∀ j < k, bit s.page_map j = true)
    (hi : 8 * i ≤ k) (hn : i + n = map_max) (hin : Inside map_max s) :
    ∃ s', scan_bytes map_max n i s = some ((k : ℤ), s') ∧
      (∀ j, bit s'.page_map j = if j = k then true else bit s.page_map j) ∧ Inside map_max s' := by
  induction n generalizing i s with
  | zero => omega
  | succ n ih =>
    have hin' : Inside map_max { s with read := i :: s.read } := by
      refine ⟨hin.looked, fun b hb => ?_⟩
      rcases List.mem_cons.mp hb with rfl | hb
      · omega
      · exact hin.read b hb
    rw [scan_bytes]
    dsimp only
    rcases byte_cases s.page_map i with ⟨hfull, hones⟩ | ⟨hdata, l, hl, hret, hzero, hones⟩
    · have hbehind : 8 * (i + 1) ≤ k := by
        by_contra hlt
        rw [hones k hi (by omega)] at hclear
        cases hclear
      rw [if_neg (not_not.mpr hfull)]
      exact ih (s := { s with read := i :: s.read }) hclear hset hbehind (by omega) hin'
    · obtain rfl : k = 8 * i + l := by
        rcases Nat.lt_trichotomy k (8 * i + l) with hlt | he | hgt
        · rw [hones k hi hlt] at hclear
          cases hclear
        · exact he
        · rw [hset _ hgt] at hzero
          cases hzero
      obtain ⟨s₁, hs₁, hbits, hin₁⟩ := set_status_some true hk hint hin'
      rw [if_pos hdata, hret, hs₁, Option.map_some]
      exact ⟨s₁, rfl, hbits, hin₁⟩

/-! ## The two allocators -/

/-- A run of one bit is a clear bit. -/
theorem isRun_one : IsRun pm map_max 1 k ↔ k < map_max ∧ bit pm k = false := by
  constructor
  · intro h
    exact ⟨h.inside, h.clear k (le_refl k) (Nat.lt_succ_self k)⟩
  · rintro ⟨hk, hclear⟩
    refine ⟨hk, fun j hj hj' => ?_⟩
    obtain rfl : j = k := by omega
    exact hclear

/-- One of the first 2³¹ bits is clear. -/
theorem takesOne_of_clear (hk : k < map_max) (hint : k < 2 ^ 31) (hclear : bit pm k = false)
    (hset : ∀ j < k, bit pm j = true) (hmul : map_max % 8 = 0) :
    ∃ ret s, bitmap_alloc_one map_max ⟨pm, [], []⟩ = some (ret, s) ∧ TakesOne pm map_max ret s := by
  obtain ⟨s, hs, hbits, hin⟩ := scan_bytes_takes (s := ⟨pm, [], []⟩) hk hint hclear hset
    (Nat.zero_le _) (Nat.zero_add _) ⟨by simp, by simp⟩
  refine ⟨k, s, hs, ?_, .inl ⟨k, rfl, hk, hclear, hset⟩, fun b hb => ?_⟩
  · have hends : Ends pm map_max 1 := .inl ⟨k, isRun_one.mpr ⟨hk, hclear⟩, hint⟩
    obtain ⟨-, ret, s', hs', -, ⟨i, rfl, hrun, hfirst, hbits', -⟩ | ⟨-, -, hnone⟩⟩ :=
      (bitmap_alloc_cases pm map_max (le_refl 1)).resolve_right fun h => h.1 hends
    · obtain rfl : i = k := by
        rcases Nat.lt_trichotomy i k with hlt | he | hgt
        · have hzero := (isRun_one.mp hrun).2
          rw [hset i hlt] at hzero
          cases hzero
        · exact he
        · exact absurd (isRun_one.mpr ⟨hk, hclear⟩) (hfirst k hgt)
      refine ⟨s', hs', bit_ext fun j => ?_⟩
      rw [hbits', hbits]
      exact if_congr (by omega) rfl rfl
    · exact absurd (isRun_one.mpr ⟨hk, hclear⟩) (hnone k)
  · have := hin.read b hb
    omega

/-- **When `bitmap_alloc_one` is right**: exactly if the map is empty or one of its first 2³¹
bits is clear. -/
theorem bitmap_alloc_one_iff (pm : ℕ → UInt8) (map_max : ℕ) (hmul : map_max % 8 = 0) :
    (∃ ret s, bitmap_alloc_one map_max ⟨pm, [], []⟩ = some (ret, s) ∧
      TakesOne pm map_max ret s) ↔ HasClear pm map_max := by
  constructor
  · rintro ⟨ret, s, hs, ⟨s', hs', -⟩, -, hread⟩
    rcases bitmap_alloc_cases pm map_max (le_refl 1) with ⟨hends, -⟩ | ⟨-, hnone⟩
    · rcases hends with ⟨k, hrun, hint⟩ | ⟨hno, -⟩
      · obtain ⟨hk, hclear⟩ := isRun_one.mp hrun
        exact .inr ⟨k, hk, hint, hclear⟩
      · by_contra hcond
        rw [HasClear, not_or] at hcond
        have hall : ∀ k < map_max, bit pm k = true := fun k hk =>
          Bool.eq_true_of_not_eq_false fun hclear => hno k (isRun_one.mpr ⟨hk, hclear⟩)
        have hpast := scan_bytes_past hmul (Nat.pos_of_ne_zero hcond.1) hall (Nat.zero_le _)
          (Nat.zero_add _) hs
        exact absurd (hread _ hpast) (Nat.lt_irrefl _)
    · rw [hnone] at hs'
      cases hs'
  · rintro (rfl | ⟨k, hk, hint, hclear⟩)
    · refine ⟨-1, ⟨pm, [], []⟩, rfl, ⟨⟨pm, [], []⟩, rfl, rfl⟩, .inr ⟨rfl, ?_⟩, by simp⟩
      exact fun k hk => absurd hk (Nat.not_lt_zero k)
    · -- the first of the clear bits
      have hex : ∃ k, bit pm k = false := ⟨k, hclear⟩
      have hle : Nat.find hex ≤ k := Nat.find_min' hex hclear
      refine takesOne_of_clear (hle.trans_lt hk) (hle.trans_lt hint) (Nat.find_spec hex) ?_ hmul
      exact fun j hj => Bool.eq_true_of_not_eq_false (Nat.find_min hex hj)

/-- One byte with a clear bit. -/
theorem bitmap_alloc_one_byte : ∃ ret s,
    bitmap_alloc_one 8 ⟨fun _ => 0x81, [], []⟩ = some (ret, s) ∧
      TakesOne (fun _ => 0x81) 8 ret s :=
  (bitmap_alloc_one_iff (fun _ => 0x81) 8 (by decide)).mpr
    (.inr ⟨1, by decide, by decide, by decide⟩)

/-- A full map of one byte, and a byte with room behind it: an assertion fails, where
`bitmap_alloc` returns -1. If the bytes behind it are full, they are read. -/
theorem full_map_past_end :
    bitmap_alloc_one 8 ⟨fun i => if i = 0 then 0xFF else 0, [], []⟩ = none ∧
    (bitmap_alloc 8 1 ⟨fun i => if i = 0 then 0xFF else 0, [], []⟩).map Prod.fst = some (-1) ∧
    (bitmap_alloc_one 8 ⟨fun _ => 0xFF, [], []⟩).map (fun r => (r.1, r.2.read))
      = some (-1, [7, 6, 5, 4, 3, 2, 1, 0]) ∧
    ¬ ∃ ret s, bitmap_alloc_one 8 ⟨fun i => if i = 0 then 0xFF else 0, [], []⟩ = some (ret, s) ∧
      TakesOne (fun i => if i = 0 then 0xFF else 0) 8 ret s := by
  have hnone : bitmap_alloc_one 8 ⟨fun i => if i = 0 then 0xFF else 0, [], []⟩ = none := by
    decide +kernel
  refine ⟨hnone, by decide +kernel, by decide +kernel, ?_⟩
  rintro ⟨ret, s, hs, -⟩
  rw [hnone] at hs
  cases hs

end Loos.BitmapOne
