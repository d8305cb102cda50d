/-
`%wd` and `%0wd`.

`_itoa` puts the sign before the digits, and `copy_fmt_str` the zeros before the sign: "-5" in
the width 4 becomes "00-5". So a negative number is printed right with the flag 0 only where
there is nothing to fill; and a width from 2³¹ on is not the width that is used
([`signed_width_iff`]).
-/
import Loos.Vsprintf

set_option autoImplicit false

namespace Loos.SignedWidth

open SysLib SysLib.Text Stdio Vsprintf

/-! ## The directive and its text -/

/-- "%wd", or "%0wd" with the flag. -/
def directive_bytes (zero : Bool) (w : ℕ) : List UInt8 :=
  37 :: ((if zero then [48] else []) ++ numeral digit 10 w ++ [100])

/-- The sign of a number. -/
def sign (d : ℤ) : List UInt8 := if d < 0 then [45] else []

/-- **What should be printed**: the sign and the digits of `d`, with zeros between them, or
spaces before them, up to the width. -/
def denoted (zero : Bool) (w : ℕ) (d : ℤ) : List UInt8 :=
  let digits := numeral digit 10 d.natAbs
  let fill := w - ((sign d).length + digits.length)
  if zero then sign d ++ List.replicate fill 48 ++ digits
  else List.replicate fill 32 ++ sign d ++ digits

variable {zero : Bool} {w out : ℕ} {d : ℤ} {m : Mem} {x : UInt8}

theorem signed_eq : signed d = sign d ++ numeral digit 10 d.natAbs := by
  rw [signed, sign]
  split_ifs <;> rfl

theorem denoted_length : (denoted zero w d).length = max w (signed d).length := by
  rw [signed_eq, List.length_append, denoted]
  cases zero <;> simp only [if_true, if_false, Bool.false_eq_true, List.length_append,
    List.length_replicate] <;> omega

/-- There is no 0 in a number, or in what it is filled with. -/
theorem zero_notMem_signed : (0 : UInt8) ∉ signed d := by
  have hdigit : ∀ i < 10, digit i ≠ 0 := by decide
  have hnumeral : (0 : UInt8) ∉ numeral digit 10 d.natAbs := by
    intro h
    obtain ⟨i, hi, he⟩ := mem_numeral (by omega) h
    exact hdigit i hi he.symm
  rw [signed_eq, sign, List.mem_append, not_or]
  refine ⟨?_, hnumeral⟩
  split_ifs <;> decide

theorem zero_notMem_denoted : (0 : UInt8) ∉ denoted zero w d := by
  have h := zero_notMem_signed (d := d)
  rw [signed_eq, List.mem_append, not_or] at h
  rw [denoted]
  cases zero <;> simp [h.1, h.2]

theorem zero_notMem_pad {flag : Flag} (h : (0 : UInt8) ∉ signed d) :
    (0 : UInt8) ∉ pad flag w (signed d) := by
  intro hmem
  rcases mem_pad hmem with hmem | hmem | hmem
  · exact h hmem
  · exact absurd hmem (by decide)
  · exact absurd hmem (by decide)

/-! ## What the code prints -/

/-- The digits of the width. -/
def width_digits (w : ℕ) : List (Fin 10) :=
  if w = 0 then [⟨0, by decide⟩]
  else (Nat.digits 10 w).reverse.map fun i => ⟨i % 10, Nat.mod_lt i (by decide)⟩

theorem val_width_digits (h0 : w ≠ 0) :
    (width_digits w).map Fin.val = (Nat.digits 10 w).reverse := by
  rw [width_digits, if_neg h0, List.map_map]
  conv_rhs => rw [← List.map_id (Nat.digits 10 w).reverse]
  apply List.map_congr_left
  intro i hi
  exact Nat.mod_eq_of_lt (Nat.digits_lt_base (by omega) (List.mem_reverse.mp hi))

theorem width_bytes_digits : width_bytes (width_digits w) = numeral digit 10 w := by
  by_cases h0 : w = 0
  · subst h0
    rfl
  · rw [numeral_of_ne_zero h0, ← val_width_digits h0, List.map_map]
    rfl

theorem ofDigits_width_digits : Nat.ofDigits 10 ((width_digits w).map Fin.val).reverse = w := by
  by_cases h0 : w = 0
  · subst h0
    rfl
  · rw [val_width_digits h0, List.reverse_reverse, Nat.ofDigits_digits]

theorem head_width_digits (h0 : w ≠ 0) : (width_digits w).head? ≠ some 0 := by
  intro h
  have hne : Nat.digits 10 w ≠ [] := Nat.digits_ne_nil_iff_ne_zero.mpr h0
  have hval : ((width_digits w).map Fin.val).head? = some 0 := by
    rw [List.head?_map, h]
    rfl
  rw [val_width_digits h0, List.head?_reverse, List.getLast?_eq_some_getLast hne] at hval
  exact Nat.getLast_digit_ne_zero 10 h0 (Option.some.inj hval)

/-- Without the flag a width does not begin with 0. -/
theorem flag_or_width_digits (zero : Bool) (w : ℕ)
    (hflag : (if zero ∨ w = 0 then Flag.FLAG_ZERO else .FLAG_NOP) = .FLAG_NOP) :
    (if zero ∨ w ≠ 0 then width_digits w else []).head? ≠ some 0 := by
  have hpart : ¬ (zero ∨ w = 0) := fun h => by rw [if_pos h] at hflag; cases hflag
  rw [not_or] at hpart
  rw [if_pos (.inr hpart.2)]
  exact head_width_digits hpart.2

/-- The directive; "%0d" is read as the flag without a width. -/
def directive_of (zero : Bool) (w : ℕ) (d : BitVec 64) : Directive where
  flag := if zero ∨ w = 0 then .FLAG_ZERO else .FLAG_NOP
  width := if zero ∨ w ≠ 0 then width_digits w else []
  conv := .d
  arg := .word d
  flag_or_width := flag_or_width_digits zero w
  takes := trivial

theorem bytes_directive_of (d : BitVec 64) :
    format [.dir (directive_of zero w d)] = directive_bytes zero w := by
  rw [format, List.flatMap_singleton, Item.bytes, directive_bytes, directive_of]
  cases zero with
  | true =>
    simp only [true_or, if_true, width_bytes_digits]
    rfl
  | false =>
    by_cases h0 : w = 0
    · subst h0
      rfl
    · simp only [Bool.false_eq_true, false_or, if_neg h0, if_pos h0, if_false, width_bytes_digits]
      rfl

theorem minWidth_directive_of (d : BitVec 64) : (directive_of zero w d).minWidth = w := by
  rw [Directive.minWidth, directive_of]
  dsimp only
  split_ifs with h
  · exact ofDigits_width_digits
  · rw [not_or, not_not] at h
    rw [h.2]
    rfl

/-- The width as `copy_fmt_str` gets it. -/
def used_width (w : ℕ) : ℕ := (toInt (w % 2 ^ 64)).toNat

/-- The text that is printed. -/
def text (zero : Bool) (w : ℕ) (d : ℤ) : List UInt8 :=
  pad (if zero then .FLAG_ZERO else .FLAG_NOP) (used_width w) (signed d)

theorem printed_directive_of (d : BitVec 64) :
    printed [.dir (directive_of zero w d)] = text zero w d.toInt := by
  rw [printed, List.map_singleton, List.flatten_singleton, Item.printed, Directive.printed,
    Directive.num, minWidth_directive_of, text, used_width]
  have hbuf : (directive_of zero w d).buf = signed d.toInt := rfl
  have hmark : (directive_of zero w d).conv.mark = [] := rfl
  rw [hbuf, hmark, List.nil_append, directive_of]
  dsimp only
  cases zero with
  | true => rw [if_pos (.inl rfl), if_pos rfl]
  | false =>
    by_cases h0 : w = 0
    · -- without a width there is nothing to fill
      subst h0
      rw [if_pos (.inr rfl), if_neg Bool.false_ne_true]
      simp [pad, List.leftpad, toInt]
    · rw [if_neg (by simp [h0]), if_neg Bool.false_ne_true]

/-- **`vsprintf`** prints this text and a 0. -/
theorem vsprintf_signed (m : Mem) (out : ℕ) (zero : Bool) (w : ℕ) (d : BitVec 64) :
    vsprintf m out (directive_bytes zero w) [.word d] =
      some (toInt ((text zero w d.toInt).length + 1), puts m out (text zero w d.toInt ++ [0])) := by
  have hall := vsprintf_eq m out [.dir (directive_of zero w d)]
  rw [bytes_directive_of, printed_directive_of] at hall
  exact hall

/-! ## When it is right -/

/-- A 64-bit number is much shorter than any width that is too large. -/
theorem signed_length_lt (d : BitVec 64) : (signed d.toInt).length < 2 ^ 31 := by
  have habs : d.toInt.natAbs < 2 ^ 64 := by
    have hlo := BitVec.le_toInt d
    have hhi := BitVec.toInt_lt (x := d)
    norm_num at hlo hhi ⊢
    omega
  have hdigits : (Nat.digits 10 d.toInt.natAbs).length ≤ 64 :=
    (Nat.digits_length_le_iff (by omega) _).mpr
      (habs.trans_le (Nat.pow_le_pow_left (by omega) 64))
  have hsign : (sign d.toInt).length ≤ 1 := by
    rw [sign]
    split_ifs <;> decide
  rw [signed_eq, List.length_append, numeral]
  split_ifs
  · rw [List.length_singleton]
    omega
  · rw [List.length_map, List.length_reverse]
    omega

theorem used_width_eq (h : w < 2 ^ 31) : used_width w = w := by
  rw [used_width, Nat.mod_eq_of_lt (h.trans (by norm_num)), toInt_of_lt h, Int.toNat_natCast]

theorem used_width_lt : used_width w < 2 ^ 31 := by
  have := toInt_lt (w % 2 ^ 64)
  rw [used_width]
  omega

/-- Nothing is filled in. -/
theorem text_of_le (h : used_width w ≤ (signed d).length) : text zero w d = signed d := by
  rw [text]
  cases zero <;> simp [pad, List.leftpad, Nat.sub_eq_zero_of_le h]

theorem denoted_of_le (h : w ≤ (signed d).length) : denoted zero w d = signed d := by
  rw [signed_eq, List.length_append] at h
  rw [denoted, signed_eq]
  cases zero <;> simp [Nat.sub_eq_zero_of_le h]

/-- **The texts**, for a 64-bit number. -/
theorem text_eq_denoted_iff (hd : (signed d).length < 2 ^ 31) :
    text zero w d = denoted zero w d ↔
      w ≤ (signed d).length ∨ w < 2 ^ 31 ∧ (zero = true → 0 ≤ d) := by
  constructor
  · intro he
    by_contra hcond
    rw [not_or, not_le] at hcond
    obtain ⟨hfill, hcond⟩ := hcond
    have hlen := congrArg List.length he
    rw [denoted_length, text, pad_length] at hlen
    have hused := used_width_lt (w := w)
    have hw : used_width w = w := by omega
    rw [hw] at hused
    -- the first character is a 0, and should be the sign
    have hzero : zero = true ∧ d < 0 := by
      by_contra h
      exact hcond ⟨hused, fun hz => not_lt.mp fun hneg => h ⟨hz, hneg⟩⟩
    obtain ⟨rfl, hneg⟩ := hzero
    have hhead := congrArg List.head? he
    have hpos : w - (signed d).length ≠ 0 := by omega
    rw [text, if_pos rfl, hw, pad, List.leftpad, denoted, sign, if_pos hneg] at hhead
    obtain ⟨k, hk⟩ := Nat.exists_eq_succ_of_ne_zero hpos
    rw [hk, List.replicate_succ] at hhead
    simp at hhead
  · rintro (hle | ⟨hw, hsign⟩)
    · rw [denoted_of_le hle, text_of_le]
      rwa [used_width_eq (lt_of_le_of_lt hle hd)]
    · rw [text, used_width_eq hw, denoted, signed_eq]
      cases zero with
      | false => simp [pad, List.leftpad]
      | true =>
        have hpos : ¬ d < 0 := not_lt.mpr (hsign rfl)
        simp [pad, List.leftpad, sign, hpos]

/-- **When `%wd` and `%0wd` are right**: exactly if the number is not shorter than the width, or
the width is below 2³¹ and, with the flag 0, the number is not negative. -/
theorem signed_width_iff (m : Mem) (out : ℕ) (zero : Bool) (w : ℕ) (d : BitVec 64) :
    (∃ ret, vsprintf m out (directive_bytes zero w) [.word d] =
      some (ret, puts m out (denoted zero w d.toInt ++ [0]))) ↔
    w ≤ (signed d.toInt).length ∨ w < 2 ^ 31 ∧ (zero = true → 0 ≤ d.toInt) := by
  rw [← text_eq_denoted_iff (signed_length_lt d), vsprintf_signed]
  constructor
  · rintro ⟨ret, he⟩
    have hmem := (Prod.mk.inj (Option.some.inj he)).2
    exact puts_string_inj (zero_notMem_pad zero_notMem_signed) zero_notMem_denoted hmem
  · intro he
    exact ⟨_, by rw [he]⟩

/-- "%04d" with -5 is "00-5", and should be "-005". -/
theorem zeros_before_sign :
    directive_bytes true 4 = [37, 48, 52, 100] ∧ denoted true 4 (-5) = [45, 48, 48, 53] ∧
    vsprintf (fun _ => 0) 0 (directive_bytes true 4) [.word (-5)] =
      some (5, puts (fun _ => 0) 0 [48, 48, 45, 53, 0]) ∧
    ¬ ∃ ret, vsprintf (fun _ => 0) 0 (directive_bytes true 4) [.word (-5)] =
      some (ret, puts (fun _ => 0) 0 (denoted true 4 (-5) ++ [0])) := by
  have htext : text true 4 (-5 : BitVec 64).toInt = [48, 48, 45, 53] := by decide +kernel
  have hdenoted : denoted true 4 (-5) = [45, 48, 48, 53] := by decide +kernel
  refine ⟨by decide +kernel, hdenoted, ?_, ?_⟩
  · rw [vsprintf_signed, htext]
    rfl
  · rintro ⟨ret, he⟩
    rw [vsprintf_signed, htext, hdenoted] at he
    have hmem := (Prod.mk.inj (Option.some.inj he)).2
    exact absurd (puts_string_inj (by decide) (by decide) hmem) (by decide)

end Loos.SignedWidth
