/-
`_uitoa` and `_uatoi` on memory.

[`Stdio`] has them on lists. Here `_uitoa` stores its digits behind a moving pointer and turns
them round in place, and `_uatoi` reads bytes until one is no digit. Each undoes the other
([`uitoa_uatoi`]).
-/
import Loos.Vsprintf

set_option autoImplicit false

namespace Loos.Itoa

open SysLib SysLib.Text
open Stdio (_itoa_table to_upper get_itoa_table_index store_digits swap_digits)
open Vsprintf (digit)

/-! ## `_uitoa` -/

/-- The variables of the loop that stores the digits. -/
structure Digits where
  mem : Mem
  dst : ℕ
  value : ℕ

def store_body (radix : ℕ) (s : Digits) : Option Digits :=
  some
    { mem := s.mem.poke s.dst (_itoa_table.getD (s.value % radix) 0)
      dst := s.dst + 1
      value := s.value / radix }

/-- The variables of the loop that turns them round. -/
structure Ends where
  mem : Mem
  pre : ℕ
  last : ℕ

def swap_body (s : Ends) : Option Ends :=
  let tmp := s.mem s.pre
  some
    { mem := (s.mem.poke s.pre (s.mem s.last)).poke s.last tmp
      pre := s.pre + 1
      last := s.last - 1 }

/-- `_uitoa`: the returned value and the memory; `none` is `panic_on`. A `uint_t` has at most 64
digits. -/
def _uitoa (m : Mem) (value string radix : ℕ) : Option (ℕ × Mem) :=
  if radix ≠ 10 ∧ radix ≠ 16 then none
  else if value = 0 then some (2, (m.poke string 48).poke (string + 1) 0)
  else
    (loop (fun s => s.value ≠ 0) (store_body radix) 65 ⟨m, string, value⟩).bind fun s =>
      (loop (fun t => decide (t.last > t.pre)) swap_body 65 ⟨s.mem, string, s.dst - 1⟩).map
        fun t => (s.dst + 1 - string, t.mem.poke s.dst 0)

/-! ## `_uatoi` -/

/-- The pointer and the value so far. -/
structure Cursor where
  s : ℕ
  value : ℕ

def atoi_body (m : Mem) (radix : ℕ) (c : Cursor) : Option Cursor :=
  (get_itoa_table_index (to_upper (m c.s)) radix).map fun bit_value =>
    { s := c.s + 1, value := (c.value * radix + bit_value) % 2 ^ 64 }

/-- `_uatoi`: the returned value and `*result`; `none` is `panic_on`, or a memory full of
digits. -/
def _uatoi (m : Mem) (string radix : ℕ) : Option (ℕ × ℕ) :=
  if radix ≠ 10 ∧ radix ≠ 16 then none
  else
    (loop (fun c => (get_itoa_table_index (to_upper (m c.s)) radix).isSome) (atoi_body m radix)
      (2 ^ 64) ⟨string, 0⟩).map fun c => (c.s - string, c.value)

/-! ## Digits -/

/-- A digit in lower case. -/
def lower (i : ℕ) : UInt8 := UInt8.ofNat (if i < 10 then 48 + i else 87 + i)

/-- The byte is a digit of the radix, in upper or lower case. -/
def IsDigit (radix : ℕ) (c : UInt8) : Prop := ∃ i < radix, c = digit i ∨ c = lower i

instance (radix : ℕ) (c : UInt8) : Decidable (IsDigit radix c) :=
  inferInstanceAs (Decidable (∃ i < radix, _))

variable {m : Mem} {radix value a fuel n : ℕ} {t : List UInt8} {c : UInt8}

/-- The table search knows the digits and no other byte. -/
theorem index_digit (hradix : radix = 10 ∨ radix = 16) {i : ℕ} (hi : i < radix) :
    get_itoa_table_index (to_upper (digit i)) radix = some i := by
  rcases hradix with rfl | rfl
  · revert i
    decide
  · revert i
    decide

theorem index_none (hradix : radix = 10 ∨ radix = 16) (h : ¬ IsDigit radix c) :
    get_itoa_table_index (to_upper c) radix = none := by
  have hten : ∀ n < 256, get_itoa_table_index (to_upper (UInt8.ofNat n)) 10 = none ∨
      IsDigit 10 (UInt8.ofNat n) := by decide +kernel
  have hsixteen : ∀ n < 256, get_itoa_table_index (to_upper (UInt8.ofNat n)) 16 = none ∨
      IsDigit 16 (UInt8.ofNat n) := by decide +kernel
  have hc : UInt8.ofNat c.toNat = c := UInt8.ofNat_toNat
  rcases hradix with rfl | rfl
  · have := hten c.toNat c.toNat_lt
    rw [hc] at this
    exact this.resolve_right h
  · have := hsixteen c.toNat c.toNat_lt
    rw [hc] at this
    exact this.resolve_right h

/-! ## What `_uitoa` writes -/

/-- The stored digits follow each other in memory. -/
theorem store_loop (hv : value < 2 ^ fuel) (hlo : 1 < radix) :
    loop (fun s => s.value ≠ 0) (store_body radix) (fuel + 1) ⟨puts m a t, a + t.length, value⟩ =
      some ⟨puts m a (t ++ store_digits radix fuel value),
        a + (t ++ store_digits radix fuel value).length, 0⟩ := by
  induction fuel generalizing value t with
  | zero =>
    obtain rfl : value = 0 := by omega
    rw [loop_succ, store_digits, List.append_nil]
    rfl
  | succ fuel ih =>
    rw [loop_succ, store_digits]
    by_cases h0 : value = 0
    · subst h0
      rw [if_neg (by simp), if_pos rfl, List.append_nil]
    · have hhalf : value / radix ≤ value / 2 := Nat.div_le_div_left hlo (by omega)
      have hrest : value / radix < 2 ^ fuel := by
        rw [pow_succ] at hv
        exact hhalf.trans_lt (by omega)
      have hturn := ih (t := t ++ [_itoa_table.getD (value % radix) 0]) hrest
      rw [List.length_append, List.length_singleton, ← Nat.add_assoc, List.append_assoc,
        List.singleton_append] at hturn
      rw [if_pos (by simpa using h0), if_neg h0, store_body, Option.bind_some]
      dsimp only
      rw [puts_snoc, hturn]

/-- The bytes change places as in the list. -/
theorem swap_loop (fuel pre last : ℕ) (hlast : last < t.length) (hfuel : last ≤ pre + fuel) :
    ∃ s, loop (fun t => decide (t.last > t.pre)) swap_body (fuel + 1)
        ⟨puts m a t, a + pre, a + last⟩ = some s ∧
      s.mem = puts m a (swap_digits fuel pre last t) := by
  induction fuel generalizing pre last t with
  | zero =>
    rw [loop_succ, if_neg (by simp; omega)]
    exact ⟨_, rfl, rfl⟩
  | succ fuel ih =>
    rw [loop_succ, swap_digits]
    by_cases hlt : pre < last
    · have hbody : swap_body ⟨puts m a t, a + pre, a + last⟩ =
          some ⟨puts m a ((t.set pre (t.getD last 0)).set last (t.getD pre 0)), a + (pre + 1),
            a + (last - 1)⟩ := by
        rw [swap_body]
        dsimp only
        rw [puts_add hlast, puts_add (by omega), puts_set (by omega),
          puts_set (by rwa [List.length_set]), Nat.add_assoc, Nat.add_sub_assoc (by omega)]
      rw [if_pos (by simpa using hlt), if_pos hlt, hbody, Option.bind_some]
      refine ih _ _ ?_ (by omega)
      rw [List.length_set, List.length_set]
      omega
    · rw [if_neg (by simpa using Nat.le_of_not_lt hlt), if_neg hlt]
      exact ⟨_, rfl, rfl⟩

theorem store_digits_length : (store_digits radix fuel value).length ≤ fuel := by
  induction fuel generalizing value with
  | zero => exact Nat.zero_le _
  | succ fuel ih =>
    rw [store_digits]
    split_ifs
    · exact Nat.zero_le _
    · exact Nat.succ_le_succ ih

/-- **`_uitoa`** writes the numeral and a 0. -/
theorem _uitoa_eq (m : Mem) (a : ℕ) (hradix : radix = 10 ∨ radix = 16) (hv : value < 2 ^ 64) :
    _uitoa m value a radix = some ((numeral digit radix value).length + 1,
      puts m a (numeral digit radix value ++ [0])) := by
  have hnil : puts m a [] = m := Mem.put_zero
  rw [_uitoa, if_neg (by omega)]
  by_cases h0 : value = 0
  · subst h0
    have hfirst : m.poke a 48 = puts m a [48] := by
      rw [← List.nil_append [(48 : UInt8)], ← puts_snoc, hnil]
      rfl
    have hsecond : (puts m a [48]).poke (a + 1) 0 = puts m a [48, 0] := puts_snoc
    rw [if_pos rfl, hfirst, hsecond]
    rfl
  · have hlo : 1 < radix := by omega
    have hhi : radix ≤ 16 := by omega
    have hstore := store_loop (m := m) (a := a) (t := []) hv hlo
    rw [hnil, List.length_nil, List.nil_append] at hstore
    change loop (fun s => s.value ≠ 0) (store_body radix) 65 ⟨m, a, value⟩ = _ at hstore
    rw [if_neg h0, hstore, Option.bind_some]
    dsimp only
    have hshort : (store_digits radix 64 value).length ≤ 64 := store_digits_length
    have hstored := Vsprintf.store_digits_eq hlo hhi hv
    generalize store_digits radix 64 value = ds at hstored hshort ⊢
    have hpos : 0 < ds.length := by
      rw [hstored, List.length_map]
      exact List.length_pos_iff.mpr (Nat.digits_ne_nil_iff_ne_zero.mpr h0)
    have hnumeral : ds.reverse = numeral digit radix value := by
      rw [hstored, numeral_of_ne_zero h0, List.map_reverse]
    obtain ⟨s, hs, hmem⟩ := swap_loop (m := m) (a := a) (t := ds) 64 0 (ds.length - 1)
      (by omega) (by omega)
    have hswap := Vsprintf.swap_digits_eq [] ds [] hshort
    simp only [List.nil_append, List.append_nil, List.length_nil, Nat.zero_add] at hswap
    change loop (fun t => decide (t.last > t.pre)) swap_body 65 ⟨puts m a ds, a, _⟩ = some s at hs
    rw [show a + ds.length - 1 = a + (ds.length - 1) by omega, hs, Option.map_some, hmem, hswap,
      hnumeral]
    have hlen : (numeral digit radix value).length = ds.length := by
      rw [← hnumeral, List.length_reverse]
    rw [← hlen, puts_snoc, hlen]
    congr 2
    omega

/-- In memory it is what [`Stdio`] has on lists, and a 0 behind it. -/
theorem _uitoa_stores (m : Mem) (a : ℕ) (hradix : radix = 10 ∨ radix = 16)
    (hv : value < 2 ^ 64) : _uitoa m value a radix =
      some ((Stdio._uitoa value radix).length + 1, puts m a (Stdio._uitoa value radix ++ [0])) := by
  rw [Vsprintf._uitoa_eq (by omega) (by omega) hv, _uitoa_eq m a hradix hv]

/-! ## What `_uatoi` reads -/

/-- The bytes from `a` on. -/
def Reads (m : Mem) (a : ℕ) (t : List UInt8) : Prop := ∀ i < t.length, m (a + i) = t.getD i 0

theorem Reads.tail (h : Reads m a (c :: t)) : Reads m (a + 1) t := by
  intro i hi
  have hnext := h (i + 1) (Nat.succ_lt_succ hi)
  rwa [List.getD_cons_succ, show a + (i + 1) = a + 1 + i by omega] at hnext

/-- The loop reads the digits and stops behind them. -/
theorem atoi_loop {ds : List ℕ} (hradix : radix = 10 ∨ radix = 16) (hds : ∀ i ∈ ds, i < radix)
    (hreads : Reads m a (ds.map digit)) (hend : ¬ IsDigit radix (m (a + ds.length)))
    (hfuel : ds.length < fuel) (hv : value < 2 ^ 64) :
    loop (fun c => (get_itoa_table_index (to_upper (m c.s)) radix).isSome) (atoi_body m radix)
        fuel ⟨a, value⟩ =
      some ⟨a + ds.length,
        (value * radix ^ ds.length + Nat.ofDigits radix ds.reverse) % 2 ^ 64⟩ := by
  induction ds generalizing a value fuel with
  | nil =>
    obtain ⟨fuel, rfl⟩ : ∃ n, fuel = n + 1 := ⟨fuel - 1, by omega⟩
    rw [List.length_nil, Nat.add_zero] at hend
    rw [loop_succ, index_none hradix hend, if_neg (by decide)]
    rw [List.length_nil, pow_zero, Nat.mul_one, List.reverse_nil, Nat.ofDigits_nil, Nat.add_zero,
      Nat.add_zero, Nat.mod_eq_of_lt hv]
  | cons i ds ih =>
    obtain ⟨fuel, rfl⟩ : ∃ n, fuel = n + 1 := ⟨fuel - 1, by omega⟩
    rw [List.length_cons] at hend hfuel
    have hfirst : m a = digit i := hreads 0 (Nat.succ_pos _)
    have hindex : get_itoa_table_index (to_upper (m a)) radix = some i := by
      rw [hfirst]
      exact index_digit hradix (hds i List.mem_cons_self)
    have hlt : ds.length < fuel := by omega
    have hrest := ih (a := a + 1) (fun j hj => hds j (List.mem_cons_of_mem i hj)) hreads.tail
      (by rwa [Nat.add_right_comm]) hlt (Nat.mod_lt (value * radix + i) (Nat.two_pow_pos 64))
    rw [loop_succ, if_pos (by rw [hindex]; rfl), atoi_body, hindex, Option.map_some,
      Option.bind_some, hrest, List.length_cons]
    have hvalue : ((value * radix + i) % 2 ^ 64 * radix ^ ds.length + Nat.ofDigits radix ds.reverse)
        % 2 ^ 64 = (value * radix ^ (ds.length + 1) + Nat.ofDigits radix (i :: ds).reverse)
          % 2 ^ 64 := by
      rw [List.reverse_cons, Nat.ofDigits_append, Nat.ofDigits_singleton, List.length_reverse,
        Nat.add_mod, Nat.mod_mul_mod, ← Nat.add_mod]
      congr 1
      ring
    rw [hvalue, show a + 1 + ds.length = a + (ds.length + 1) by omega]

/-- **`_uatoi`** reads a canonical digit string with a byte behind it that is no digit. -/
theorem _uatoi_eq (hradix : radix = 10 ∨ radix = 16) (ht : Canonical digit radix t n)
    (hn : n < 2 ^ 64) (hreads : Reads m a t) (hend : ¬ IsDigit radix (m (a + t.length))) :
    _uatoi m a radix = some (t.length, n) := by
  have hlo : 1 < radix := by omega
  -- a number below `2 ^ 64` has at most 64 digits
  have hshort : t.length ≤ 64 := by
    rw [ht.eq_numeral hlo, numeral]
    split_ifs with h0
    · decide
    · rw [List.length_map, List.length_reverse]
      exact (Nat.digits_length_le_iff hlo n).mpr (hn.trans_le (Nat.pow_le_pow_left hlo 64))
  obtain ⟨ds, rfl, hlt, hvalue, -, -⟩ := ht.digits
  rw [List.length_map] at hend hshort ⊢
  have hloop := atoi_loop hradix hlt hreads hend
    (show ds.length < 2 ^ 64 from lt_of_le_of_lt hshort (by norm_num)) (Nat.two_pow_pos 64)
  rw [Nat.zero_mul, Nat.zero_add, hvalue, Nat.mod_eq_of_lt hn] at hloop
  rw [_uatoi, if_neg (by omega), hloop, Option.map_some, Nat.add_sub_cancel_left]

/-- **`_uitoa` and `_uatoi` undo each other.** What `_uitoa` writes for a number is its canonical
digit string with a 0 behind it, and `_uatoi` reads it back wherever the next byte is no digit;
and from every canonical digit string of a 64-bit number `_uatoi` makes a number for which
`_uitoa` writes that string. -/
theorem uitoa_uatoi (hradix : radix = 10 ∨ radix = 16) :
    (∀ (m : Mem) (v : BitVec 64) (string : ℕ), ∃ t, Canonical digit radix t v.toNat ∧
      _uitoa m v.toNat string radix = some (t.length + 1, puts m string (t ++ [0])) ∧
      ∀ (m' : Mem) (s : ℕ), Reads m' s t → ¬ IsDigit radix (m' (s + t.length)) →
        _uatoi m' s radix = some (t.length, v.toNat)) ∧
    ∀ (m' : Mem) (s : ℕ) (t : List UInt8) (v : ℕ), Canonical digit radix t v → v < 2 ^ 64 →
      Reads m' s t → ¬ IsDigit radix (m' (s + t.length)) → ∃ n result,
        _uatoi m' s radix = some (n, result) ∧ ∀ (m : Mem) (string : ℕ),
          _uitoa m result string radix = some (t.length + 1, puts m string (t ++ [0])) := by
  have hlo : 1 < radix := by omega
  constructor
  · intro m v string
    refine ⟨numeral digit radix v.toNat, .numeral hlo, _uitoa_eq m string hradix v.isLt, ?_⟩
    intro m' s hreads hend
    exact _uatoi_eq hradix (.numeral hlo) v.isLt hreads hend
  · intro m' s t v ht hv hreads hend
    refine ⟨_, _, _uatoi_eq hradix ht hv hreads hend, fun m string => ?_⟩
    rw [_uitoa_eq m string hradix hv, ← ht.eq_numeral hlo]

/-- "FF" in base 16. -/
theorem uitoa_uatoi_hex :
    (∃ t, Canonical digit 16 t 255 ∧
      _uitoa (fun _ => 0) 255 0 16 = some (t.length + 1, puts (fun _ => 0) 0 (t ++ [0]))) ∧
    ∃ n result, _uatoi (puts (fun _ => 0) 0 [70, 70]) 0 16 = some (n, result) ∧
      _uitoa (fun _ => 0) result 0 16 = some (3, puts (fun _ => 0) 0 [70, 70, 0]) := by
  have hboth := uitoa_uatoi (.inr rfl : 16 = 10 ∨ 16 = 16)
  constructor
  · obtain ⟨t, ht, hprint, -⟩ := hboth.1 (fun _ => 0) 255 0
    exact ⟨t, ht, hprint⟩
  · have hreads : Reads (puts (fun _ => 0) 0 [70, 70]) 0 [70, 70] := fun i hi => puts_add hi
    have hend : ¬ IsDigit 16 (puts (fun _ => 0) 0 [70, 70] (0 + [(70 : UInt8), 70].length)) := by
      rw [puts_apart _ (.inr (le_refl _))]
      decide
    obtain ⟨n, result, hparse, hprint⟩ := hboth.2 _ 0 [70, 70] 255
      ⟨[15, 15], rfl, by decide, by decide, by decide, by decide⟩ (by norm_num) hreads hend
    exact ⟨n, result, hparse, hprint _ 0⟩

end Loos.Itoa
