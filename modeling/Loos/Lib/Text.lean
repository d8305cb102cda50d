/-
Numerals and padding.

A numeral is the text of a number in a base, most significant digit first, with the
digits of a given alphabet. A larger base never needs more digits
([`numeral_length_anti`]), and the texts of a number in two bases are the same only
below the smaller base ([`numeral_eq_iff`]). Padding can be undone where the text does
not itself begin, or end, with the fill ([`leftpad_inj`], [`rightpad_inj`]).

A program that writes a text behind a moving pointer may leave anything at the pointer
itself, the 0 of a string for one ([`Written`]).
-/
import Loos.Lib.ByteMem
import Mathlib.Data.Nat.Digits.Lemmas
import Mathlib.Data.List.GetD
import Mathlib.Data.List.TakeWhile

set_option autoImplicit false

namespace SysLib.Text

variable {α : Type*} {digit : ℕ → α} {b c n w : ℕ} {x : α} {s t : List α}

/-! ## Numerals -/

/-- `n` in base `b`. -/
def numeral (digit : ℕ → α) (b n : ℕ) : List α :=
  if n = 0 then [digit 0] else (Nat.digits b n).reverse.map digit

theorem numeral_of_ne_zero (h : n ≠ 0) :
    numeral digit b n = (Nat.digits b n).reverse.map digit := if_neg h

/-- One digit is enough below the base. -/
theorem numeral_of_lt (h : n < b) : numeral digit b n = [digit n] := by
  rw [numeral]
  split_ifs with h0
  · rw [h0]
  · rw [Nat.digits_of_lt b n h0 h]
    rfl

theorem mem_numeral (hb : 1 < b) (h : x ∈ numeral digit b n) : ∃ i < b, x = digit i := by
  rw [numeral] at h
  split_ifs at h with h0
  · exact ⟨0, by omega, List.mem_singleton.mp h⟩
  · obtain ⟨i, hi, rfl⟩ := List.mem_map.mp h
    exact ⟨i, Nat.digits_lt_base hb (List.mem_reverse.mp hi), rfl⟩

theorem numeral_length_anti (hb : 1 < b) (hbc : b ≤ c) :
    (numeral digit c n).length ≤ (numeral digit b n).length := by
  rw [numeral, numeral]
  split_ifs with h0
  · exact le_refl _
  · simp only [List.length_map, List.length_reverse]
    rw [Nat.length_digits c n (by omega) h0, Nat.length_digits b n hb h0]
    exact Nat.succ_le_succ (Nat.log_anti_left hb hbc)

/-- The digits can be read back. -/
theorem numeral_values {value : α → ℕ} (hb : 1 < b) (hn : n ≠ 0)
    (hvalue : ∀ i < b, value (digit i) = i) :
    (numeral digit b n).map value = (Nat.digits b n).reverse := by
  rw [numeral_of_ne_zero hn, List.map_map]
  conv_rhs => rw [← List.map_id (Nat.digits b n).reverse]
  apply List.map_congr_left
  intro i hi
  exact hvalue i (Nat.digits_lt_base hb (List.mem_reverse.mp hi))

/-- The same digits are more in a larger base, unless there is only one. -/
theorem numeral_eq_iff {value : α → ℕ} (hb : 1 < b) (hbc : b < c)
    (hvalue : ∀ i < c, value (digit i) = i) :
    numeral digit c n = numeral digit b n ↔ n < b := by
  constructor
  · intro he
    by_contra hge
    have hn : n ≠ 0 := by omega
    have hdigits : Nat.digits c n = Nat.digits b n := by
      apply List.reverse_injective
      rw [← numeral_values (by omega) hn hvalue,
        ← numeral_values hb hn fun i hi => hvalue i (by omega), he]
    -- behind the last digit there is as much in both bases
    have hlow : Nat.digits b n = n % b :: Nat.digits b (n / b) :=
      Nat.digits_def' hb (by omega)
    have hvalue_b : n = n % b + b * (n / b) := (Nat.mod_add_div n b).symm
    have hvalue_c : n = n % b + c * Nat.ofDigits c (Nat.digits b (n / b)) := by
      conv_lhs => rw [← Nat.ofDigits_digits c n, hdigits, hlow, Nat.ofDigits_cons]
    have hle : n / b ≤ Nat.ofDigits c (Nat.digits b (n / b)) := by
      conv_lhs => rw [← Nat.ofDigits_digits b (n / b)]
      exact Nat.ofDigits_monotone _ hbc.le
    have hpos : 0 < n / b := Nat.div_pos (by omega) (by omega)
    have hlt : b * (n / b) < c * Nat.ofDigits c (Nat.digits b (n / b)) :=
      calc b * (n / b) < c * (n / b) := Nat.mul_lt_mul_of_pos_right hbc hpos
        _ ≤ c * Nat.ofDigits c (Nat.digits b (n / b)) := Nat.mul_le_mul_left c hle
    omega
  · intro hlt
    rw [numeral_of_lt hlt, numeral_of_lt (by omega)]

/-- A numeral does not begin with a zero. -/
theorem head_numeral {value : α → ℕ} (hb : 1 < b) (hn : n ≠ 0)
    (hvalue : ∀ i < b, value (digit i) = i) : (numeral digit b n).head? ≠ some (digit 0) := by
  intro h
  have hhead : ((numeral digit b n).map value).head? = some 0 := by
    rw [List.head?_map, h, Option.map_some, hvalue 0 (by omega)]
  rw [numeral_values hb hn hvalue, List.head?_reverse,
    List.getLast?_eq_some_getLast (Nat.digits_ne_nil_iff_ne_zero.mpr hn)] at hhead
  exact Nat.getLast_digit_ne_zero b hn (Option.some.inj hhead)

/-- `t` is the text of `n` in base `b` without a leading zero, most significant digit first. -/
structure Canonical (digit : ℕ → α) (b : ℕ) (t : List α) (n : ℕ) : Prop where
  digits : ∃ ds : List ℕ, t = ds.map digit ∧ (∀ i ∈ ds, i < b) ∧ Nat.ofDigits b ds.reverse = n ∧
    ds ≠ [] ∧ (ds.head? = some 0 → ds = [0])

theorem Canonical.numeral (hb : 1 < b) : Canonical digit b (numeral digit b n) n := by
  refine ⟨?_⟩
  by_cases h0 : n = 0
  · subst h0
    exact ⟨[0], rfl, by simp; omega, by simp, by simp, fun _ => rfl⟩
  · have hne : Nat.digits b n ≠ [] := Nat.digits_ne_nil_iff_ne_zero.mpr h0
    refine ⟨(Nat.digits b n).reverse, numeral_of_ne_zero h0, fun i hi => ?_, ?_, by simpa using hne,
      fun hhead => ?_⟩
    · exact Nat.digits_lt_base hb (List.mem_reverse.mp hi)
    · rw [List.reverse_reverse, Nat.ofDigits_digits]
    · rw [List.head?_reverse, List.getLast?_eq_some_getLast hne] at hhead
      exact absurd (Option.some.inj hhead) (Nat.getLast_digit_ne_zero b h0)

/-- There is only one. -/
theorem Canonical.eq_numeral (hb : 1 < b) (h : Canonical digit b t n) :
    t = Text.numeral digit b n := by
  obtain ⟨ds, rfl, hlt, hvalue, hne, hhead⟩ := h.digits
  by_cases h0 : ds.head? = some 0
  · rw [hhead h0] at hvalue ⊢
    have hn : n = 0 := by simpa using hvalue.symm
    rw [hn]
    rfl
  · have hlast : ∀ hne' : ds.reverse ≠ [], ds.reverse.getLast hne' ≠ 0 := by
      intro hne' hz
      rw [List.getLast_reverse] at hz
      rw [List.head?_eq_some_head hne, hz] at h0
      exact h0 rfl
    have hdigits : Nat.digits b n = ds.reverse := by
      rw [← hvalue]
      refine Nat.digits_ofDigits b hb _ (fun i hi => hlt i (List.mem_reverse.mp hi)) hlast
    have hn : n ≠ 0 := by
      rintro rfl
      rw [Nat.digits_zero, eq_comm, List.reverse_eq_nil_iff] at hdigits
      exact hne hdigits
    rw [numeral_of_ne_zero hn, hdigits, List.reverse_reverse]

/-! ## Padding -/

/-- A fill can be taken off a text that does not begin with it. -/
theorem replicate_append_inj {k j : ℕ} (hs : s.head? ≠ some x) (ht : t.head? ≠ some x)
    (h : List.replicate k x ++ s = List.replicate j x ++ t) : s = t := by
  induction k generalizing j with
  | zero =>
    cases j with
    | zero => exact h
    | succ j =>
      apply absurd _ hs
      rw [show s = x :: (List.replicate j x ++ t) from h, List.head?_cons]
  | succ k ih =>
    cases j with
    | zero =>
      apply absurd _ ht
      rw [show t = x :: (List.replicate k x ++ s) from h.symm, List.head?_cons]
    | succ j => exact ih (List.cons.inj h).2

theorem leftpad_inj (hs : s.head? ≠ some x) (ht : t.head? ≠ some x)
    (h : s.leftpad w x = t.leftpad w x) : s = t :=
  replicate_append_inj hs ht h

theorem rightpad_inj (hs : s.getLast? ≠ some x) (ht : t.getLast? ≠ some x)
    (h : s.rightpad w x = t.rightpad w x) : s = t := by
  apply List.reverse_injective
  have hrev := congrArg List.reverse h
  rw [List.rightpad, List.rightpad, List.reverse_append, List.reverse_append,
    List.reverse_replicate, List.reverse_replicate] at hrev
  refine replicate_append_inj ?_ ?_ hrev
  · rwa [List.head?_reverse]
  · rwa [List.head?_reverse]

/-! ## Texts made of pieces -/

/-- Each piece is no longer than the one beside it. -/
abbrev Shorter (ss ts : List (List α)) : Prop :=
  List.Forall₂ (fun s t => s.length ≤ t.length) ss ts

variable {ss ts : List (List α)}

theorem Shorter.length_le (h : Shorter ss ts) : ss.flatten.length ≤ ts.flatten.length := by
  induction h with
  | nil => exact le_refl _
  | cons hst _ ih =>
    rw [List.flatten_cons, List.flatten_cons, List.length_append, List.length_append]
    exact Nat.add_le_add hst ih

/-- Such pieces make the same text only if they are the same pieces. -/
theorem Shorter.flatten_eq_iff (h : Shorter ss ts) : ss.flatten = ts.flatten ↔ ss = ts := by
  constructor
  · intro he
    induction h with
    | nil => rfl
    | @cons s t ss ts hst hrest ih =>
      have hle := Shorter.length_le hrest
      rw [List.flatten_cons, List.flatten_cons] at he
      have hlen := congrArg List.length he
      rw [List.length_append, List.length_append] at hlen
      obtain ⟨hhead, htail⟩ := List.append_inj he (by omega)
      rw [hhead, ih htail]
  · rintro rfl
    rfl

/-! ## Texts in memory -/

/-- The text `t` at the address `a`. -/
def puts (m : Mem) (a : ℕ) (t : List UInt8) : Mem := m.put a t.length fun i => t.getD i 0

/-- The memory `m'` is `m` with the text `t` at `a`, up to the byte at `p` behind it. -/
structure Written (m : Mem) (a : ℕ) (t : List UInt8) (m' : Mem) (p : ℕ) : Prop where
  pos : p = a + t.length
  mem : ∀ x ≠ p, m' x = puts m a t x

variable {m m' m'' : Mem} {a p q : ℕ} {l l' : List UInt8}

theorem puts_apart (x : ℕ) (h : x < a ∨ a + l.length ≤ x) : puts m a l x = m x :=
  Mem.put_apply_of_disjoint h

theorem puts_add {i : ℕ} (h : i < l.length) : puts m a l (a + i) = l.getD i 0 :=
  Mem.put_apply_of_mem h

theorem puts_inj (hlen : l.length = l'.length) (h : puts m a l = puts m a l') : l = l' := by
  apply List.ext_getElem hlen
  intro i hi hi'
  have hbyte := congrFun h (a + i)
  rw [puts_add hi, puts_add hi', List.getD_eq_getElem _ _ hi,
    List.getD_eq_getElem _ _ hi'] at hbyte
  exact hbyte

/-- One more character. -/
theorem puts_snoc {c : UInt8} : (puts m a l).poke (a + l.length) c = puts m a (l ++ [c]) := by
  have hsame : ∀ i < l.length, l.getD i 0 = (l ++ [c]).getD i 0 := fun i hi =>
    (List.getD_append _ _ _ _ hi).symm
  have hlast : (l ++ [c]).getD l.length 0 = c := by
    rw [List.getD_append_right _ _ _ _ (le_refl _), Nat.sub_self]
    rfl
  rw [puts, Mem.put_congr hsame, puts, List.length_append, List.length_singleton,
    ← Mem.put_poke, hlast]

/-- A character of the text replaced. -/
theorem puts_set {c : UInt8} {i : ℕ} (h : i < l.length) :
    (puts m a l).poke (a + i) c = puts m a (l.set i c) := by
  funext x
  by_cases hx : a ≤ x ∧ x < a + l.length
  · obtain ⟨j, rfl⟩ := Nat.exists_eq_add_of_le hx.1
    have hj : j < l.length := by omega
    rw [puts_add (by rwa [List.length_set]), List.getD_eq_getElem?_getD]
    by_cases he : j = i
    · subst he
      rw [Mem.poke, if_pos rfl, List.getElem?_set_self hj]
      rfl
    · rw [Mem.poke, if_neg (by omega), List.getElem?_set_ne (fun h => he h.symm), puts_add hj,
        List.getD_eq_getElem?_getD]
  · rw [puts_apart x (by rw [List.length_set]; omega), Mem.poke, if_neg (by omega),
      puts_apart x (by omega)]

/-- A string in memory is known by its bytes. -/
theorem puts_string_inj {z : UInt8} (hz : z ∉ l) (hz' : z ∉ l')
    (h : puts m a (l ++ [z]) = puts m a (l' ++ [z])) : l = l' := by
  have hbyte : ∀ l : List UInt8, ∀ i ≤ l.length,
      puts m a (l ++ [z]) (a + i) = (l ++ [z]).getD i 0 := fun l i hi =>
    puts_add (by rw [List.length_append, List.length_singleton]; omega)
  have hend : ∀ l : List UInt8, (l ++ [z]).getD l.length 0 = z := by
    intro l
    rw [List.getD_append_right _ _ _ _ (le_refl _), Nat.sub_self]
    rfl
  have hmem : ∀ (l : List UInt8) (i : ℕ), i < l.length → (l ++ [z]).getD i 0 ∈ l := by
    intro l i hi
    rw [List.getD_append _ _ _ _ hi, List.getD_eq_getElem _ _ hi]
    exact List.getElem_mem hi
  have hlen : l.length = l'.length := by
    rcases Nat.lt_trichotomy l.length l'.length with hlt | he | hgt
    · have hthere := hmem l' l.length hlt
      rw [← hbyte l' _ hlt.le, ← h, hbyte l _ (le_refl _), hend] at hthere
      exact absurd hthere hz'
    · exact he
    · have hthere := hmem l l'.length hgt
      rw [← hbyte l _ hgt.le, h, hbyte l' _ (le_refl _), hend] at hthere
      exact absurd hthere hz
  refine List.append_cancel_right (puts_inj ?_ h)
  rw [List.length_append, List.length_append, hlen]

theorem Written.nil : Written m a [] m a :=
  ⟨rfl, fun x _ => (puts_apart x (by simp only [List.length_nil]; omega)).symm⟩

/-- What is behind the pointer does not matter for what is written from there on. -/
theorem Written.append (h : Written m a l m' p) (h' : Written m' p l' m'' q) :
    Written m a (l ++ l') m'' q := by
  have hp := h.pos
  have hq := h'.pos
  refine ⟨by rw [List.length_append]; omega, fun x hx => ?_⟩
  rw [h'.mem x hx]
  by_cases hsecond : p ≤ x ∧ x < p + l'.length
  · obtain ⟨i, rfl⟩ := Nat.exists_eq_add_of_le hsecond.1
    rw [puts_add (by omega), show p + i = a + (l.length + i) by omega,
      puts_add (by rw [List.length_append]; omega), List.getD_append_right _ _ _ _ (by omega),
      Nat.add_sub_cancel_left]
  · rw [puts_apart x (by omega), h.mem x (by omega)]
    by_cases hfirst : a ≤ x ∧ x < p
    · obtain ⟨i, rfl⟩ := Nat.exists_eq_add_of_le hfirst.1
      rw [puts_add (by omega), puts_add (by rw [List.length_append]; omega),
        List.getD_append _ _ _ _ (by omega)]
    · rw [puts_apart x (by omega), puts_apart x (by rw [List.length_append]; omega)]

theorem Written.poke {c : UInt8} : Written m a [c] (m.poke a c) (a + 1) := by
  refine ⟨rfl, fun x hx => ?_⟩
  by_cases h : x = a
  · subst h
    rw [Mem.poke, if_pos rfl]
    exact (puts_add (l := [c]) (i := 0) Nat.one_pos).symm
  · rw [Mem.poke, if_neg h, puts_apart x (by simp only [List.length_singleton]; omega)]

theorem Written.fill {n : ℕ} {c : UInt8} :
    Written m a (List.replicate n c) (m.fill a n c) (a + n) := by
  refine ⟨by rw [List.length_replicate], fun x hx => ?_⟩
  by_cases h : a ≤ x ∧ x < a + n
  · obtain ⟨i, rfl⟩ := Nat.exists_eq_add_of_le h.1
    rw [Mem.fill, if_pos h, puts_add (by rw [List.length_replicate]; omega),
      List.getD_replicate _ (by omega)]
  · rw [Mem.fill, if_neg h, puts_apart x (by rw [List.length_replicate]; omega)]

/-- The byte at the pointer is the last one to be written. -/
theorem Written.close {c : UInt8} (h : Written m a l m' p) :
    m'.poke p c = puts m a (l ++ [c]) := by
  funext x
  have hall := h.append (Written.poke (c := c))
  by_cases hx : x = p + 1
  · subst hx
    have hp := h.pos
    rw [Mem.poke, if_neg (by omega), h.mem _ (by omega), puts_apart _ (by omega),
      puts_apart _ (by rw [List.length_append, List.length_singleton]; omega)]
  · exact hall.mem x hx

end SysLib.Text
