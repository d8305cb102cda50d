/-
Byte-addressed memory and the little-endian words in it.

The memory is total: an address is a natural number and every address holds a
byte. What a program may touch is a matter of the invariants above this file,
not of the type. Three writes are enough for the C code modelled here: a word
store, `memset` and `memcpy` of a range. Each is given by its closed form, so
that the frame facts are one case split on an interval.
-/
import Mathlib.Data.Nat.Basic
import Mathlib.Tactic.Ring
import Mathlib.Tactic.Common

set_option autoImplicit false

namespace SysLib

/-- A memory: one byte at every address. -/
abbrev Mem := ℕ → UInt8

namespace Mem

/-! ## The operations -/

/-- `n` bytes from `a` on, read as a little-endian number. -/
def load (m : Mem) (a : ℕ) : ℕ → ℕ
  | 0 => 0
  | n + 1 => (m a).toNat + 256 * load m (a + 1) n

/-- `n` bytes from `a` on set to the low `n` bytes of `v`, little-endian. -/
def store (m : Mem) (a n v : ℕ) : Mem :=
  fun x => if a ≤ x ∧ x < a + n then UInt8.ofNat (v / 256 ^ (x - a)) else m x

/-- A 64-bit word. -/
def load64 (m : Mem) (a : ℕ) : ℕ := m.load a 8

/-- A 64-bit word written. -/
def store64 (m : Mem) (a v : ℕ) : Mem := m.store a 8 v

/-- `memset(a, c, n)`. -/
def fill (m : Mem) (a n : ℕ) (c : UInt8) : Mem :=
  fun x => if a ≤ x ∧ x < a + n then c else m x

/-- `memcpy(dst, src, n)` on ranges that do not overlap. -/
def copy (m : Mem) (dst src n : ℕ) : Mem :=
  fun x => if dst ≤ x ∧ x < dst + n then m (src + (x - dst)) else m x

/-- `memcpy(m + dst, src, n)` from another memory. -/
def put (m : Mem) (dst n : ℕ) (src : Mem) : Mem :=
  fun x => if dst ≤ x ∧ x < dst + n then src (x - dst) else m x

/-- One byte written. -/
def poke (m : Mem) (a : ℕ) (c : UInt8) : Mem :=
  fun x => if x = a then c else m x

/-! ## Loads -/

theorem load_lt (m : Mem) (a n : ℕ) : m.load a n < 256 ^ n := by
  induction n generalizing a with
  | zero => simp [load]
  | succ n ih =>
    have hb : (m a).toNat < 256 := (m a).toNat_lt
    have := ih (a + 1)
    simp only [load, pow_succ]
    omega

/-- The last byte is the highest. -/
theorem load_succ (m : Mem) (a n : ℕ) :
    m.load a (n + 1) = m.load a n + 256 ^ n * (m (a + n)).toNat := by
  induction n generalizing a with
  | zero => simp [load]
  | succ n ih =>
    rw [load, ih, load, Nat.add_right_comm a 1 n, Nat.add_assoc a n 1, pow_succ]
    ring

/-- The same bytes at two places. -/
theorem load_eq {m m' : Mem} {a a' n : ℕ} (h : ∀ i < n, m (a + i) = m' (a' + i)) :
    m.load a n = m'.load a' n := by
  induction n generalizing a a' with
  | zero => rfl
  | succ n ih =>
    have htail : m.load (a + 1) n = m'.load (a' + 1) n := by
      refine ih fun i hi => ?_
      have := h (i + 1) (by omega)
      rwa [Nat.add_comm i 1, ← Nat.add_assoc, ← Nat.add_assoc] at this
    have hhead := h 0 (by omega)
    rw [Nat.add_zero, Nat.add_zero] at hhead
    rw [load, load, hhead, htail]

/-- A load reads only its own range. -/
theorem load_congr {m m' : Mem} {a n : ℕ} (h : ∀ x, a ≤ x → x < a + n → m x = m' x) :
    m.load a n = m'.load a n := by
  induction n generalizing a with
  | zero => rfl
  | succ n ih =>
    simp only [load]
    rw [h a (by omega) (by omega), ih (fun x h1 h2 => h x (by omega) (by omega))]

/-- Equal loads come from equal bytes. -/
theorem load_inj {m m' : Mem} {a n : ℕ} (h : m.load a n = m'.load a n) :
    ∀ x, a ≤ x → x < a + n → m x = m' x := by
  induction n generalizing a with
  | zero =>
    intro x h1 h2
    omega
  | succ n ih =>
    rw [load, load] at h
    have hb := (m a).toNat_lt
    have hb' := (m' a).toNat_lt
    have hhead : m a = m' a := UInt8.toNat_inj.mp (by omega)
    intro x h1 h2
    rcases Nat.eq_or_lt_of_le h1 with rfl | hlt
    · exact hhead
    · exact ih (a := a + 1) (by omega) x hlt (by omega)

theorem load64_lt (m : Mem) (a : ℕ) : m.load64 a < 2 ^ 64 := by
  have := load_lt m a 8
  rwa [show (256 : ℕ) ^ 8 = 2 ^ 64 by norm_num] at this

theorem load64_congr {m m' : Mem} {a : ℕ} (h : ∀ x, a ≤ x → x < a + 8 → m x = m' x) :
    m.load64 a = m'.load64 a :=
  load_congr h

/-! ## Stores read back -/

/-- A load inside a stored range reads the matching digits of the stored value. -/
theorem load_store_sub (m : Mem) (a v : ℕ) {k n w : ℕ} (h : k + n ≤ w) :
    (m.store a w v).load (a + k) n = v / 256 ^ k % 256 ^ n := by
  induction n generalizing k with
  | zero => simp [load, Nat.mod_one]
  | succ n ih =>
    have htail := ih (k := k + 1) (by omega)
    rw [show a + (k + 1) = a + k + 1 by omega] at htail
    have hhead : m.store a w v (a + k) = UInt8.ofNat (v / 256 ^ k) := by
      rw [store, if_pos ⟨by omega, by omega⟩, Nat.add_sub_cancel_left]
    rw [load, hhead, htail, UInt8.toNat_ofNat', pow_succ 256 k, ← Nat.div_div_eq_div_mul,
      pow_succ' 256 n, Nat.mod_mul]

theorem load_store_same (m : Mem) (a n v : ℕ) : (m.store a n v).load a n = v % 256 ^ n := by
  simpa using load_store_sub m a v (k := 0) (n := n) (w := n) (by omega)

theorem store_apply_of_disjoint {m : Mem} {a n v x : ℕ} (h : x < a ∨ a + n ≤ x) :
    m.store a n v x = m x := by
  rw [store, if_neg (by omega)]

theorem load_store_disjoint {m : Mem} {a n v b k : ℕ} (h : b + k ≤ a ∨ a + n ≤ b) :
    (m.store a n v).load b k = m.load b k :=
  load_congr fun x h1 h2 => store_apply_of_disjoint (by omega)

/-- A word read where it was written. -/
theorem load64_store64_same {m : Mem} {a v : ℕ} (hv : v < 2 ^ 64) :
    (m.store64 a v).load64 a = v := by
  rw [load64, store64, load_store_same, show (256 : ℕ) ^ 8 = 2 ^ 64 by norm_num,
    Nat.mod_eq_of_lt hv]

/-- A word read apart from the one that was written. -/
theorem load64_store64_disjoint {m : Mem} {a v b : ℕ} (h : b + 8 ≤ a ∨ a + 8 ≤ b) :
    (m.store64 a v).load64 b = m.load64 b :=
  load_store_disjoint h

theorem store64_apply_of_disjoint {m : Mem} {a v x : ℕ} (h : x < a ∨ a + 8 ≤ x) :
    m.store64 a v x = m x :=
  store_apply_of_disjoint h

/-! ## Ranges -/

theorem fill_apply_of_disjoint {m : Mem} {a n x : ℕ} {c : UInt8} (h : x < a ∨ a + n ≤ x) :
    m.fill a n c x = m x := by
  rw [fill, if_neg (by omega)]

theorem load64_fill_disjoint {m : Mem} {a n b : ℕ} {c : UInt8} (h : b + 8 ≤ a ∨ a + n ≤ b) :
    (m.fill a n c).load64 b = m.load64 b :=
  load64_congr fun x h1 h2 => fill_apply_of_disjoint (by omega)

/-- Inside a zero-filled range every word is zero. -/
theorem load_fill_zero {m : Mem} {a n b k : ℕ} (h1 : a ≤ b) (h2 : b + k ≤ a + n) :
    (m.fill a n 0).load b k = 0 := by
  induction k generalizing b with
  | zero => rfl
  | succ k ih =>
    have hb : m.fill a n 0 b = 0 := by rw [fill, if_pos ⟨h1, by omega⟩]
    rw [load, hb, ih (by omega) (by omega)]
    rfl

theorem load64_fill_zero {m : Mem} {a n b : ℕ} (h1 : a ≤ b) (h2 : b + 8 ≤ a + n) :
    (m.fill a n 0).load64 b = 0 :=
  load_fill_zero h1 h2

theorem copy_apply_of_disjoint {m : Mem} {dst src n x : ℕ} (h : x < dst ∨ dst + n ≤ x) :
    m.copy dst src n x = m x := by
  rw [copy, if_neg (by omega)]

theorem copy_apply_of_mem {m : Mem} {dst src n i : ℕ} (h : i < n) :
    m.copy dst src n (dst + i) = m (src + i) := by
  rw [copy, if_pos ⟨by omega, by omega⟩, Nat.add_sub_cancel_left]

theorem put_apply_of_disjoint {m src : Mem} {dst n x : ℕ} (h : x < dst ∨ dst + n ≤ x) :
    m.put dst n src x = m x := by
  rw [put, if_neg (by omega)]

theorem put_apply_of_mem {m src : Mem} {dst n i : ℕ} (h : i < n) :
    m.put dst n src (dst + i) = src i := by
  rw [put, if_pos (by omega), Nat.add_sub_cancel_left]

theorem put_congr {m src src' : Mem} {a n : ℕ} (h : ∀ i < n, src i = src' i) :
    m.put a n src = m.put a n src' := by
  funext x
  simp only [put]
  split_ifs with hx
  · exact h _ (by omega)
  · rfl

/-- A range of the memory itself. -/
theorem copy_eq_put {m : Mem} {dst src n : ℕ} :
    m.copy dst src n = m.put dst n fun i => m (src + i) := rfl

/-- Two pieces put next to each other. -/
theorem put_append {m src whole : Mem} {a n k : ℕ} (h : ∀ i < n, src i = whole i) :
    (m.put a n src).put (a + n) k (fun i => whole (n + i)) = m.put a (n + k) whole := by
  funext x
  simp only [put]
  by_cases hfirst : a ≤ x ∧ x < a + n
  · rw [if_neg (by omega), if_pos hfirst, if_pos (by omega), h _ (by omega)]
  · by_cases hsecond : a + n ≤ x ∧ x < a + n + k
    · rw [if_pos hsecond, if_pos (by omega), show n + (x - (a + n)) = x - a by omega]
    · rw [if_neg hsecond, if_neg hfirst, if_neg (by omega)]

theorem put_zero {m src : Mem} {a : ℕ} : m.put a 0 src = m := by
  funext x
  rw [put, if_neg (by omega)]

/-- One more byte. -/
theorem put_poke {m src : Mem} {a n : ℕ} : (m.put a n src).poke (a + n) (src n) =
    m.put a (n + 1) src := by
  funext x
  simp only [put, poke]
  by_cases hx : x = a + n
  · rw [if_pos hx, if_pos (by omega), hx, Nat.add_sub_cancel_left]
  · rw [if_neg hx]
    exact if_congr (by omega) rfl rfl

theorem load64_poke_disjoint {m : Mem} {a b : ℕ} {c : UInt8} (h : a < b ∨ b + 8 ≤ a) :
    (m.poke a c).load64 b = m.load64 b :=
  load64_congr fun x h1 h2 => by rw [poke, if_neg (by omega)]

end Mem

end SysLib
