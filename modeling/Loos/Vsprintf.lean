/-
What `vsprintf` writes.

A format is a list of literal bytes and directives, each directive with its argument
([`Item`]). `render` is the reference rendering. `printed` is what the code writes: the
text in `buf` is a string, so it loses a character 0, `%u` is in base 16, and the width is
an `int`. [`vsprintf_eq`] follows the code through any format, and
[`vsprintf_eq_render_iff`] says when the two are the same.
-/
import Loos.Lib.Text
import Loos.Stdio
import Mathlib.Tactic.FinCases

set_option autoImplicit false

namespace Loos.Vsprintf

open SysLib SysLib.Text Cstring Stdio

/-! ## Formats and their rendering -/

inductive Conv where
  | c | s | d | u | x | p
deriving DecidableEq

def Conv.letter : Conv → UInt8
  | .c => 99
  | .s => 115
  | .d => 100
  | .u => 117
  | .x => 120
  | .p => 112

/-- The byte of a flag in the format. -/
def flag_bytes : Flag → List UInt8
  | .FLAG_NOP => []
  | .FLAG_ZERO => [48]
  | .FLAG_LEFT => [45]

/-- "0" to "9" and "A" to "F". -/
def digit (i : ℕ) : UInt8 := UInt8.ofNat (if i < 10 then 48 + i else 55 + i)

/-- "(null)" -/
def null_text : List UInt8 := [40, 110, 117, 108, 108, 41]

/-- The arguments of a conversion: for `s` a string that fits `buf` with its 0, for the others
a word. -/
def Conv.Takes : Conv → Arg → Prop
  | .s, .str t => 0 ∉ t.getD null_text ∧ (t.getD null_text).length < 512
  | .s, .word _ => False
  | _, .word _ => True
  | _, .str _ => False

/-- A number with its sign, in base 10. -/
def signed (z : ℤ) : List UInt8 :=
  if z < 0 then 45 :: numeral digit 10 z.natAbs else numeral digit 10 z.natAbs

/-- The converted text. -/
def Conv.text : Conv → Arg → List UInt8
  | .c, .word w => [UInt8.ofNat w.toNat]
  | .s, .str t => t.getD null_text
  | .d, .word w => signed w.toInt
  | .u, .word w => numeral digit 10 w.toNat
  | .x, .word w => numeral digit 16 w.toNat
  | .p, .word w => numeral digit 16 w.toNat
  | _, _ => []

/-- What stands before the padded text: "0x" for a pointer. -/
def Conv.mark : Conv → List UInt8
  | .p => [48, 120]
  | _ => []

/-- A directive and its argument. A width behind no flag does not begin with a 0, which would
be the flag. -/
structure Directive where
  flag : Flag
  width : List (Fin 10)
  conv : Conv
  arg : Arg
  flag_or_width : flag = .FLAG_NOP → width.head? ≠ some 0
  takes : conv.Takes arg

/-- The width as a number; 0 when there is none. -/
def Directive.minWidth (d : Directive) : ℕ := Nat.ofDigits 10 (d.width.map Fin.val).reverse

/-- The digits of a width in the format. -/
def width_bytes (width : List (Fin 10)) : List UInt8 := width.map fun i => digit i.val

/-- The padded text. -/
def pad : Flag → ℕ → List UInt8 → List UInt8
  | .FLAG_NOP, w, t => t.leftpad w 32
  | .FLAG_ZERO, w, t => t.leftpad w 48
  | .FLAG_LEFT, w, t => t.rightpad w 32

def Directive.render (d : Directive) : List UInt8 :=
  d.conv.mark ++ pad d.flag d.minWidth (d.conv.text d.arg)

/-- A part of a format: a byte that is written as it is, or a directive. -/
inductive Item where
  | lit (c : UInt8) (hc : c ≠ 0 ∧ c ≠ 37)
  | dir (d : Directive)

def Item.bytes : Item → List UInt8
  | .lit c _ => [c]
  | .dir d => 37 :: (flag_bytes d.flag ++ width_bytes d.width ++ [d.conv.letter])

def Item.args : Item → List Arg
  | .lit _ _ => []
  | .dir d => [d.arg]

def Item.render : Item → List UInt8
  | .lit c _ => [c]
  | .dir d => d.render

/-- The format string. -/
def format (items : List Item) : List UInt8 := items.flatMap Item.bytes

/-- One argument for each directive, in order. -/
def arguments (items : List Item) : List Arg := items.flatMap Item.args

/-- **The reference rendering.** -/
def render (items : List Item) : List UInt8 := (items.map Item.render).flatten

/-! ## What the code writes -/

/-- The string in `buf`. -/
def Directive.buf (d : Directive) : List UInt8 :=
  match d.conv, d.arg with
  | .c, .word w => if UInt8.ofNat w.toNat = 0 then [] else [UInt8.ofNat w.toNat]
  | .u, .word w => numeral digit 16 w.toNat
  | conv, arg => conv.text arg

/-- The width as `copy_fmt_str` gets it. -/
def Directive.num (d : Directive) : ℤ := toInt (d.minWidth % 2 ^ 64)

def Directive.printed (d : Directive) : List UInt8 :=
  d.conv.mark ++ pad d.flag d.num.toNat d.buf

def Item.printed : Item → List UInt8
  | .lit c _ => [c]
  | .dir d => d.printed

def printed (items : List Item) : List UInt8 := (items.map Item.printed).flatten

/-! ## Numbers -/

theorem _itoa_table_getD : ∀ i < 16, _itoa_table.getD i 0 = digit i := by decide

/-- The value of a digit. -/
def value (c : UInt8) : ℕ := if c.toNat < 58 then c.toNat - 48 else c.toNat - 55

theorem value_digit : ∀ i < 16, value (digit i) = i := by decide

theorem digit_ne_space : ∀ i < 16, digit i ≠ 32 := by decide

theorem store_digits_eq {radix : ℕ} (hlo : 1 < radix) (hhi : radix ≤ 16) {fuel value : ℕ}
    (hv : value < 2 ^ fuel) :
    store_digits radix fuel value = (Nat.digits radix value).map digit := by
  induction fuel generalizing value with
  | zero =>
    obtain rfl : value = 0 := by omega
    simp [store_digits]
  | succ fuel ih =>
    rw [store_digits]
    split_ifs with h0
    · simp [h0]
    · have hhalf : value / radix ≤ value / 2 := Nat.div_le_div_left hlo (by omega)
      have hrest : value / radix < 2 ^ fuel := by
        rw [pow_succ] at hv
        exact hhalf.trans_lt (by omega)
      rw [ih hrest, Nat.digits_def' (b := radix) hlo (by omega : 0 < value), List.map_cons,
        _itoa_table_getD _ ((Nat.mod_lt _ (by omega)).trans_le hhi)]

/-- The bytes between the two indices change places, first with last. -/
theorem swap_digits_eq {fuel : ℕ} (front mid back : List UInt8) (hfuel : mid.length ≤ fuel) :
    swap_digits fuel front.length (front.length + mid.length - 1) (front ++ mid ++ back)
      = front ++ mid.reverse ++ back := by
  induction fuel generalizing front mid back with
  | zero =>
    obtain rfl : mid = [] := List.eq_nil_of_length_eq_zero (by omega)
    rfl
  | succ fuel ih =>
    rw [swap_digits]
    match mid, hfuel with
    | [], _ => rw [if_neg (by simp)]; rfl
    | [y], _ => rw [if_neg (by simp)]; rfl
    | y :: z :: mid, hfuel =>
      obtain ⟨mid, z, hmid⟩ : ∃ inner last, z :: mid = inner ++ [last] :=
        ⟨_, _, (List.dropLast_append_getLast (List.cons_ne_nil z mid)).symm⟩
      rw [hmid] at hfuel ⊢
      simp only [List.length_cons, List.length_append, List.length_nil] at hfuel ⊢
      rw [if_pos (by omega)]
      -- the two ends are `y` and `z`
      have hlast : front.length + (mid.length + (0 + 1) + 1) - 1 = (front ++ y :: mid).length := by
        simp only [List.length_append, List.length_cons]
        omega
      have hsplit : front ++ y :: (mid ++ [z]) ++ back = front ++ y :: mid ++ z :: back := by simp
      have hswapped : ((front ++ y :: mid ++ z :: back).set front.length z).set
          (front ++ y :: mid).length y = (front ++ [z]) ++ mid ++ y :: back := by
        simp
      have hget : (front ++ y :: mid ++ z :: back).getD (front ++ y :: mid).length 0 = z := by
        rw [List.getD_append_right _ _ _ _ (le_refl _)]
        simp
      have hget' : (front ++ y :: mid ++ z :: back).getD front.length 0 = y := by simp
      rw [hlast, hsplit, hget, hget', hswapped]
      have hturn := ih (front ++ [z]) mid (y :: back) (by omega)
      rw [List.length_append, List.length_singleton] at hturn
      rw [show (front ++ y :: mid).length - 1 = front.length + 1 + mid.length - 1 by
        simp only [List.length_append, List.length_cons]; omega, hturn]
      simp

/-- **`_uitoa`** writes the numeral. -/
theorem _uitoa_eq {radix : ℕ} (hlo : 1 < radix) (hhi : radix ≤ 16) {n : ℕ} (hn : n < 2 ^ 64) :
    _uitoa n radix = numeral digit radix n := by
  rw [_uitoa, numeral]
  split_ifs with h0
  · rfl
  · have hrev := swap_digits_eq [] (store_digits radix 64 n) [] (le_refl _)
    rw [List.length_nil, Nat.zero_add, List.nil_append, List.append_nil, List.nil_append,
      List.append_nil] at hrev
    simp only
    rw [hrev, store_digits_eq hlo hhi hn, List.map_reverse]

/-- **`_itoa`** writes the number with its sign, the smallest one included. -/
theorem _itoa_eq (w : BitVec 64) : _itoa w = signed w.toInt := by
  have hw := w.isLt
  rw [_itoa, signed]
  split_ifs with hneg
  · rw [_uitoa_eq (by omega) (by omega) (-w).isLt]
    have habs : (-w).toNat = w.toInt.natAbs := by
      rw [BitVec.toInt_eq_toNat_cond] at hneg ⊢
      rw [BitVec.toNat_neg]
      split_ifs at hneg ⊢ <;> omega
    rw [habs]
  · rw [_uitoa_eq (by omega) (by omega) hw]
    have habs : w.toNat = w.toInt.natAbs := by
      rw [BitVec.toInt_eq_toNat_cond] at hneg ⊢
      split_ifs at hneg ⊢ <;> omega
    rw [habs]

/-! ## The parts of a directive -/

theorem get_fmt_flag_eq {flag : Flag} {width : List (Fin 10)} (conv : Conv) (rest : List UInt8)
    (h : flag = .FLAG_NOP → width.head? ≠ some 0) :
    get_fmt_flag (flag_bytes flag ++ width_bytes width ++ conv.letter :: rest)
      = some (flag, width_bytes width ++ conv.letter :: rest) := by
  cases flag with
  | FLAG_ZERO => rfl
  | FLAG_LEFT => rfl
  | FLAG_NOP =>
    cases width with
    | nil => cases conv <;> rfl
    | cons i width =>
      have hi : i ≠ 0 := by
        rintro rfl
        exact h rfl rfl
      fin_cases i
      · exact absurd rfl hi
      all_goals rfl

/-- The digits of the width are read, and the letter behind them is none. -/
theorem _uatoi_eq (width : List (Fin 10)) (conv : Conv) (rest : List UInt8) {v : ℕ}
    (hv : v < 2 ^ 64) :
    _uatoi 10 (width_bytes width ++ conv.letter :: rest) v
      = ((v * 10 ^ width.length + Nat.ofDigits 10 (width.map Fin.val).reverse) % 2 ^ 64,
        conv.letter :: rest) := by
  induction width generalizing v with
  | nil =>
    have hletter : get_itoa_table_index (to_upper conv.letter) 10 = none := by
      cases conv <;> decide
    rw [width_bytes, List.map_nil, List.nil_append, _uatoi, hletter]
    simp only [List.length_nil, pow_zero, Nat.mul_one, List.map_nil, List.reverse_nil,
      Nat.ofDigits_nil, Nat.add_zero, Nat.mod_eq_of_lt hv]
  | cons i width ih =>
    have hdigit : get_itoa_table_index (to_upper (digit i)) 10 = some i.val := by
      revert i
      decide
    rw [width_bytes, List.map_cons, List.cons_append, _uatoi, hdigit]
    simp only
    rw [← width_bytes]
    rw [ih (Nat.mod_lt _ (by norm_num))]
    simp only [List.map_cons, List.reverse_cons, Nat.ofDigits_append, Nat.ofDigits_singleton,
      List.length_reverse, List.length_map, List.length_cons, Prod.mk.injEq, and_true]
    rw [Nat.add_mod, Nat.mod_mul_mod, ← Nat.add_mod]
    congr 1
    ring

/-- The `switch` chooses what is in `buf`. -/
theorem convert_eq (d : Directive) :
    convert 37 d.conv.letter d.arg = some (d.conv.mark, d.buf) := by
  obtain ⟨flag, width, conv, arg, hflag, htakes⟩ := d
  cases arg with
  | str t =>
    cases conv with
    | s => exact if_pos htakes.2
    | _ => exact absurd htakes not_false
  | word w =>
    have h16 : _uitoa w.toNat 16 = _ := _uitoa_eq (by omega) (by omega) w.isLt
    cases conv with
    | s => exact absurd htakes not_false
    | c => rfl
    | d => exact congrArg (fun t => some ([], t)) (_itoa_eq w)
    | u => exact congrArg (fun t => some ([], t)) h16
    | x => exact congrArg (fun t => some ([], t)) h16
    | p => exact congrArg (fun t => some ([48, 120], t)) h16

/-! ## What is written -/

variable {m : Mem} {out : ℕ}

theorem strcpy_written (t : List UInt8) (m : Mem) (a : ℕ) :
    Written m a t (strcpy m a t) (a + t.length) := by
  induction t generalizing m a with
  | nil =>
    refine ⟨rfl, fun x hx => ?_⟩
    rw [List.length_nil, Nat.add_zero] at hx
    rw [strcpy, Mem.poke, if_neg hx, puts_apart x (by simp only [List.length_nil]; omega)]
  | cons c t ih =>
    have hrest := Written.poke.append (ih (m.poke a c) (a + 1))
    rwa [List.length_cons, show a + (t.length + 1) = a + 1 + t.length by omega]

theorem memset_written (n : ℕ) (m : Mem) (a : ℕ) (c : UInt8) :
    Written m a (List.replicate n c) (memset n m a c) (a + n) := by
  rw [memset_eq]
  exact Written.fill

/-- `copy_fmt_str` pads as its flag says. -/
theorem copy_fmt_str_written (m : Mem) (a : ℕ) (buf : List UInt8) (flag : Flag) (num : ℤ) :
    Written m a (pad flag num.toNat buf) (copy_fmt_str m a buf flag num).1
      (a + (copy_fmt_str m a buf flag num).2) := by
  have hremain : (max (buf.length : ℤ) num).toNat - buf.length = num.toNat - buf.length := by
    omega
  have hlen : a + (max (buf.length : ℤ) num).toNat
      = a + (num.toNat - buf.length) + buf.length := by
    omega
  cases flag with
  | FLAG_NOP =>
    simp only [copy_fmt_str, pad, hremain, hlen]
    exact (memset_written _ m a 32).append (strcpy_written buf _ _)
  | FLAG_ZERO =>
    simp only [copy_fmt_str, pad, hremain, hlen]
    exact (memset_written _ m a 48).append (strcpy_written buf _ _)
  | FLAG_LEFT =>
    simp only [copy_fmt_str, pad, hremain, hlen, Nat.add_right_comm a]
    exact (strcpy_written buf m a).append (memset_written _ _ _ 32)

/-- The characters stored one by one before the padded text. -/
theorem mark_written (t : List UInt8) (m : Mem) (a : ℕ) :
    let r := t.foldl (fun (d : Mem × ℕ) x => (d.1.poke d.2 x, d.2 + 1)) (m, a)
    Written m a t r.1 r.2 := by
  induction t generalizing m a with
  | nil => exact Written.nil
  | cons c t ih => exact Written.poke.append (ih (m.poke a c) (a + 1))

/-- **One turn** of the loop reads one item and writes it. -/
theorem vsprintf_body_item (i : Item) (fmt : List UInt8) (ap : List Arg) (m : Mem) (dst : ℕ) :
    ∃ m' dst', vsprintf_body ⟨i.bytes ++ fmt, i.args ++ ap, m, dst⟩ = some ⟨fmt, ap, m', dst'⟩
      ∧ Written m dst i.printed m' dst' := by
  cases i with
  | lit c hc =>
    refine ⟨m.poke dst c, dst + 1, ?_, Written.poke⟩
    simp only [Item.bytes, Item.args, List.cons_append, List.nil_append, vsprintf_body,
      if_neg hc.2]
  | dir d =>
    have hflag := get_fmt_flag_eq d.conv fmt d.flag_or_width
    have hwidth := _uatoi_eq d.width d.conv fmt (v := 0) (by norm_num)
    rw [Nat.zero_mul, Nat.zero_add] at hwidth
    refine ⟨_, _, ?_, (mark_written d.conv.mark m dst).append
      (copy_fmt_str_written _ _ d.buf d.flag d.num)⟩
    have hbytes : (Item.dir d).bytes ++ fmt
        = 37 :: (flag_bytes d.flag ++ width_bytes d.width ++ d.conv.letter :: fmt) := by
      simp [Item.bytes]
    rw [hbytes, show (Item.dir d).args ++ ap = d.arg :: ap from rfl]
    simp only [vsprintf_body, if_true, directive]
    rw [hflag, Option.bind_some]
    simp only [hwidth, convert_eq, Option.map_some]
    rfl

theorem Item.bytes_ne_nil (i : Item) : i.bytes ≠ [] := by
  cases i <;> simp [Item.bytes]

/-- **The whole loop** writes every item. -/
theorem loop_items (items : List Item) (m : Mem) (dst n : ℕ) (hn : items.length < n) :
    ∃ m' dst', loop (fun s => s.fmt ≠ []) vsprintf_body n
        ⟨format items, arguments items, m, dst⟩ = some ⟨[], [], m', dst'⟩
      ∧ Written m dst (printed items) m' dst' := by
  induction items generalizing m dst n with
  | nil =>
    obtain ⟨n, rfl⟩ : ∃ k, n = k + 1 := ⟨n - 1, by omega⟩
    refine ⟨m, dst, ?_, Written.nil⟩
    rw [loop_succ]
    rfl
  | cons i items ih =>
    obtain ⟨n, rfl⟩ : ∃ k, n = k + 1 := ⟨n - 1, by omega⟩
    rw [List.length_cons] at hn
    obtain ⟨m₁, dst₁, hturn, hwritten⟩ :=
      vsprintf_body_item i (format items) (arguments items) m dst
    obtain ⟨m₂, dst₂, hrest, hwritten'⟩ := ih m₁ dst₁ n (by omega)
    refine ⟨m₂, dst₂, ?_, hwritten.append hwritten'⟩
    rw [loop_succ, if_pos (by simp [format, i.bytes_ne_nil]),
      show format (i :: items) = i.bytes ++ format items from rfl,
      show arguments (i :: items) = i.args ++ arguments items from rfl, hturn, Option.bind_some]
    exact hrest

theorem length_le_format (items : List Item) : items.length ≤ (format items).length := by
  induction items with
  | nil => exact le_refl _
  | cons i items ih =>
    have := List.length_pos_of_ne_nil i.bytes_ne_nil
    rw [show format (i :: items) = i.bytes ++ format items from rfl, List.length_append,
      List.length_cons]
    omega

/-- **`vsprintf`** writes `printed` and a 0, and nothing else. -/
theorem vsprintf_eq (m : Mem) (out : ℕ) (items : List Item) :
    vsprintf m out (format items) (arguments items)
      = some (toInt ((printed items).length + 1), puts m out (printed items ++ [0])) := by
  obtain ⟨m', dst', hloop, hwritten⟩ := loop_items items m out ((format items).length + 1)
    (Nat.lt_succ_of_le (length_le_format items))
  rw [vsprintf, hloop, Option.map_some]
  have hpos := hwritten.pos
  rw [show dst' + 1 - out = (printed items).length + 1 by omega, hwritten.close]

/-! ## The two renderings -/

/-- The directive is rendered right: no `%u` of more than one digit, no `%c` of the
character 0. -/
def Directive.Faithful (d : Directive) : Prop :=
  match d.conv, d.arg with
  | .c, .word w => UInt8.ofNat w.toNat ≠ 0
  | .u, .word w => w.toNat < 10
  | _, _ => True

variable {flag : Flag} {w : ℕ} {t t' : List UInt8} {x : UInt8}

@[simp] theorem pad_length : (pad flag w t).length = max w t.length := by
  cases flag <;> simp only [pad, List.leftpad, List.rightpad, List.length_append,
    List.length_replicate] <;> omega

theorem mem_pad : x ∈ pad flag w t → x ∈ t ∨ x = 32 ∨ x = 48 := by
  cases flag <;> simp only [pad, List.leftpad, List.rightpad, List.mem_append,
    List.mem_replicate] <;> tauto

theorem mem_pad_of_mem (h : x ∈ t) : x ∈ pad flag w t := by
  cases flag <;> simp [pad, List.leftpad, List.rightpad, h]

/-- A padded text is known when it neither has a space nor begins with a zero. -/
theorem pad_inj (hs : 32 ∉ t) (hs' : 32 ∉ t') (hz : t.head? ≠ some 48) (hz' : t'.head? ≠ some 48)
    (h : pad flag w t = pad flag w t') : t = t' := by
  cases flag with
  | FLAG_NOP =>
    exact leftpad_inj (fun hx => hs (List.mem_of_mem_head? hx))
      (fun hx => hs' (List.mem_of_mem_head? hx)) h
  | FLAG_ZERO => exact leftpad_inj hz hz' h
  | FLAG_LEFT =>
    exact rightpad_inj (fun hx => hs (List.mem_of_getLast? hx))
      (fun hx => hs' (List.mem_of_getLast? hx)) h

theorem space_notMem_numeral {b n : ℕ} (hb : 1 < b) (hb' : b ≤ 16) : 32 ∉ numeral digit b n := by
  intro h
  obtain ⟨i, hi, heq⟩ := mem_numeral hb h
  exact digit_ne_space i (by omega) heq.symm

/-- The two bases show where there is more than one digit, padded or not. -/
theorem pad_numeral_eq_iff {n : ℕ} :
    pad flag w (numeral digit 16 n) = pad flag w (numeral digit 10 n) ↔ n < 10 := by
  rw [← numeral_eq_iff (by omega : 1 < 10) (by omega : 10 < 16) value_digit]
  constructor
  · intro h
    by_cases h0 : n = 0
    · rw [h0, numeral_of_lt (by omega), numeral_of_lt (by omega)]
    · exact pad_inj (space_notMem_numeral (by omega) (by omega))
        (space_notMem_numeral (by omega) (by omega))
        (head_numeral (by omega) h0 value_digit)
        (head_numeral (by omega) h0 fun i hi => value_digit i (by omega)) h
  · intro h
    rw [h]

theorem Directive.buf_length_le (d : Directive) : d.buf.length ≤ (d.conv.text d.arg).length := by
  obtain ⟨flag, width, conv, arg, _, _⟩ := d
  cases conv <;> cases arg <;> simp only [Directive.buf, Conv.text, le_refl]
  · split_ifs <;> simp
  · exact numeral_length_anti (by omega) (by omega)

theorem Directive.pad_buf_eq_iff (d : Directive) :
    pad d.flag w d.buf = pad d.flag w (d.conv.text d.arg) ↔ d.Faithful := by
  obtain ⟨flag, width, conv, arg, _, _⟩ := d
  cases conv <;> cases arg <;> simp only [Directive.buf, Conv.text, Directive.Faithful]
  · next w' =>
    split_ifs with h0
    · -- the 0 is in the reference rendering only
      simp only [h0, ne_eq, not_true_eq_false, iff_false]
      intro h
      have hmem : (0 : UInt8) ∈ pad flag w [] := by
        rw [h]
        exact mem_pad_of_mem (List.mem_singleton.mpr rfl)
      have := mem_pad hmem
      simp at this
    · simp [h0]
  · exact pad_numeral_eq_iff

/-- Below 2³¹ the width is the width. -/
theorem Directive.num_eq {d : Directive} (h : d.minWidth < 2 ^ 31) : d.num.toNat = d.minWidth := by
  rw [Directive.num, Nat.mod_eq_of_lt (by omega), toInt, BitVec.toInt_eq_toNat_of_lt]
  all_goals rw [BitVec.toNat_ofNat, Nat.mod_eq_of_lt (by omega)]
  · rfl
  · omega

theorem Directive.minWidth_le (d : Directive) : d.minWidth ≤ d.render.length := by
  rw [Directive.render, List.length_append, pad_length]
  omega

theorem Directive.printed_length_le {d : Directive} (h : d.minWidth < 2 ^ 31) :
    d.printed.length ≤ d.render.length := by
  have hbuf := d.buf_length_le
  rw [Directive.printed, Directive.render, List.length_append, List.length_append, pad_length,
    pad_length, Directive.num_eq h]
  omega

theorem Directive.printed_eq_iff {d : Directive} (h : d.minWidth < 2 ^ 31) :
    d.printed = d.render ↔ d.Faithful := by
  rw [Directive.printed, Directive.render, Directive.num_eq h, List.append_cancel_left_eq,
    d.pad_buf_eq_iff]

variable {items : List Item}

/-- No width of a rendering that an `int` can count is too large for one. -/
theorem minWidth_lt (h : (render items).length < 2 ^ 31) :
    ∀ d, .dir d ∈ items → d.minWidth < 2 ^ 31 := by
  intro d hd
  have hmem : d.render ∈ items.map Item.render := List.mem_map.mpr ⟨.dir d, hd, rfl⟩
  have hpart : d.render.length ≤ (render items).length :=
    (List.sublist_flatten_of_mem hmem).length_le
  have := d.minWidth_le
  omega

theorem shorter_items (h : ∀ d, .dir d ∈ items → d.minWidth < 2 ^ 31) :
    Shorter (items.map Item.printed) (items.map Item.render) := by
  rw [Shorter, List.forall₂_map_left_iff, List.forall₂_map_right_iff, List.forall₂_same]
  intro i hi
  cases i with
  | lit c hc => exact le_refl _
  | dir d => exact Directive.printed_length_le (h d hi)

/-- The code's rendering is the reference where each directive's is. -/
theorem printed_eq_render_iff (h : ∀ d, .dir d ∈ items → d.minWidth < 2 ^ 31) :
    printed items = render items ↔ ∀ d, .dir d ∈ items → d.Faithful := by
  rw [printed, render, (shorter_items h).flatten_eq_iff, List.map_inj_left]
  constructor
  · intro hall d hd
    exact (Directive.printed_eq_iff (h d hd)).mp (hall _ hd)
  · intro hall i hi
    cases i with
    | lit c hc => rfl
    | dir d => exact (Directive.printed_eq_iff (h d hi)).mpr (hall d hi)

theorem toInt_lt (n : ℕ) : toInt n < 2 ^ 31 := BitVec.toInt_lt

theorem toInt_of_lt {n : ℕ} (h : n < 2 ^ 31) : toInt n = n := by
  rw [toInt, BitVec.toInt_eq_toNat_of_lt] <;>
    rw [BitVec.toNat_ofNat, Nat.mod_eq_of_lt (by omega)]
  omega

/-- **When `vsprintf` is right**: it writes the reference rendering and a 0, and returns the
length and 1, exactly when no `%u` gets a number above 9, no `%c` gets the character 0, and the
returned length is an `int`. -/
theorem vsprintf_eq_render_iff (m : Mem) (out : ℕ) (items : List Item) :
    vsprintf m out (format items) (arguments items)
        = some (((render items).length : ℤ) + 1, puts m out (render items ++ [0]))
      ↔ (∀ d, .dir d ∈ items → d.Faithful) ∧ (render items).length + 1 < 2 ^ 31 := by
  rw [vsprintf_eq, Option.some_inj, Prod.mk.injEq]
  constructor
  · rintro ⟨hlen, hmem⟩
    have hint := toInt_lt ((printed items).length + 1)
    have hsmall : (render items).length + 1 < 2 ^ 31 := by omega
    have hwidth : ∀ d, .dir d ∈ items → d.minWidth < 2 ^ 31 := minWidth_lt (by omega)
    -- what is written is no longer than the reference, so its length is an `int` too
    have hle := (shorter_items hwidth).length_le
    rw [← printed, ← render] at hle
    rw [toInt_of_lt (by omega)] at hlen
    have htext : printed items ++ [0] = render items ++ [0] := by
      apply puts_inj _ hmem
      rw [List.length_append, List.length_append]
      omega
    exact ⟨(printed_eq_render_iff hwidth).mp (List.append_cancel_right htext), hsmall⟩
  · rintro ⟨hall, hsmall⟩
    have htext := (printed_eq_render_iff (minWidth_lt (by omega))).mpr hall
    rw [htext, toInt_of_lt hsmall]
    exact ⟨Nat.cast_succ _, rfl⟩

/-- `%u` -/
def unsigned (w : BitVec 64) : Directive where
  flag := .FLAG_NOP
  width := []
  conv := .u
  arg := .word w
  flag_or_width := by simp
  takes := trivial

/-- `sprintf(out, "%u", 10)` writes "A" and returns 2. -/
theorem vsprintf_u_ten :
    let items := [Item.dir (unsigned 10)]
    format items = [37, 117] ∧ arguments items = [.word 10] ∧ render items = [49, 48]
      ∧ vsprintf (fun _ => 0) 0 (format items) (arguments items)
        = some (2, puts (fun _ => 0) 0 [65, 0])
      ∧ vsprintf (fun _ => 0) 0 (format items) (arguments items)
        ≠ some (((render items).length : ℤ) + 1, puts (fun _ => 0) 0 (render items ++ [0])) := by
  refine ⟨rfl, rfl, by decide +kernel, ?_, ?_⟩
  · rw [vsprintf_eq, show printed [.dir (unsigned 10)] = [65] by decide +kernel]
    rfl
  · rw [vsprintf_eq, show printed [.dir (unsigned 10)] = [65] by decide +kernel,
      show render [.dir (unsigned 10)] = [49, 48] by decide +kernel]
    intro h
    exact absurd (congrArg Prod.fst (Option.some.inj h)) (by decide)

end Loos.Vsprintf
