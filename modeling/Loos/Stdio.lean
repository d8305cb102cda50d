/-
`lolibc/stdio.c`: numbers, the parts of a directive, and `vsprintf`.

A string is the list of its characters without the terminating 0, and a pointer into
the format is what is left of it. `out` is memory; `buf`, which each directive fills
anew, is the string in it, and a string that does not fit is `none`, as a `panic` is.
An argument is a 64-bit word or a pointer to a string.

`vsprintf` asks whether `c` is the letter of `%u`, but `c` is the `%` it has begun
with, so the base is 16 for every unsigned number.
-/
import Loos.Cstring
import Loos.Lib.Loop
import Mathlib.Data.Int.Init

set_option autoImplicit false

namespace Loos.Stdio

open SysLib Cstring

/-! ## Characters -/

/-- `_itoa_table`, "0123456789ABCDEF" -/
def _itoa_table : List UInt8 :=
  [48, 49, 50, 51, 52, 53, 54, 55, 56, 57, 65, 66, 67, 68, 69, 70]

/-- `to_upper` -/
def to_upper (c : UInt8) : UInt8 := if 97 ≤ c ∧ c ≤ 122 then c - 97 + 65 else c

/-- `get_itoa_table_index`; `none` is -1. -/
def get_itoa_table_index (ch : UInt8) (len : ℕ) : Option ℕ :=
  (_itoa_table.take len).findIdx? (· = ch)

/-! ## Numbers -/

/-- The loop of `_uitoa` that stores the digits, the last one first. A `uint_t` has at most
64 digits. -/
def store_digits (radix : ℕ) : ℕ → ℕ → List UInt8
  | 0, _ => []
  | fuel + 1, value =>
    if value = 0 then []
    else _itoa_table.getD (value % radix) 0 :: store_digits radix fuel (value / radix)

/-- The loop of `_uitoa` that turns the digits round, from the indices `pre` and `last`. -/
def swap_digits : ℕ → ℕ → ℕ → List UInt8 → List UInt8
  | 0, _, _, s => s
  | fuel + 1, pre, last, s =>
    if pre < last then
      swap_digits fuel (pre + 1) (last - 1)
        ((s.set pre (s.getD last 0)).set last (s.getD pre 0))
    else s

/-- `_uitoa`: the string; the returned value is its length and 1. -/
def _uitoa (value radix : ℕ) : List UInt8 :=
  if value = 0 then [48]
  else
    let digits := store_digits radix 64 value
    swap_digits digits.length 0 (digits.length - 1) digits

/-- `_itoa`, with the base 10; the negated value is converted to a `uint_t`. -/
def _itoa (value : BitVec 64) : List UInt8 :=
  if value.toInt < 0 then 45 :: _uitoa (-value).toNat 10 else _uitoa value.toNat 10

/-- The loop of `_uatoi`: the value so far, and the rest of the string. -/
def _uatoi (radix : ℕ) : List UInt8 → ℕ → ℕ × List UInt8
  | [], value => (value, [])
  | c :: s, value =>
    match get_itoa_table_index (to_upper c) radix with
    | none => (value, c :: s)
    | some bit_value => _uatoi radix s ((value * radix + bit_value) % 2 ^ 64)

/-! ## Directives -/

inductive Flag where
  | FLAG_NOP
  | FLAG_ZERO
  | FLAG_LEFT
deriving DecidableEq

/-- `get_fmt_flag`: the flag and the rest of the format; `+`, a space and `#` panic. -/
def get_fmt_flag (fmt : List UInt8) : Option (Flag × List UInt8) :=
  match fmt.headD 0 with
  | 43 | 32 | 35 => none
  | 48 => some (.FLAG_ZERO, fmt.tail)
  | 45 => some (.FLAG_LEFT, fmt.tail)
  | _ => some (.FLAG_NOP, fmt)

/-- `strcpy` of a string into memory. -/
def strcpy (m : Mem) (dst : ℕ) : List UInt8 → Mem
  | [] => m.poke dst 0
  | c :: s => strcpy (m.poke dst c) (dst + 1) s

/-- A 64-bit number as an `int`. -/
def toInt (n : ℕ) : ℤ := (BitVec.ofNat 32 n).toInt

/-- `copy_fmt_str`: the memory and the length. Its loops store one character again and
again, as `memset` does. -/
def copy_fmt_str (m : Mem) (dst : ℕ) (buf : List UInt8) (flag : Flag) (num : ℤ) : Mem × ℕ :=
  let len := (max (buf.length : ℤ) num).toNat
  let remain := len - buf.length
  match flag with
  | .FLAG_NOP => (strcpy (memset remain m dst 32) (dst + remain) buf, len)
  | .FLAG_ZERO => (strcpy (memset remain m dst 48) (dst + remain) buf, len)
  | .FLAG_LEFT => (memset remain (strcpy m dst buf) (dst + buf.length) 32, len)

/-! ## `vsprintf` -/

/-- An argument: a word, or a pointer to a string, which may be `NULL`. -/
inductive Arg where
  | word (w : BitVec 64)
  | str (s : Option (List UInt8))
deriving DecidableEq

/-- The `switch` of `vsprintf`, for the letter and the next argument: what is stored at `dst`
first, and the string in `buf`. -/
def convert (c letter : UInt8) : Arg → Option (List UInt8 × List UInt8)
  | .word w =>
    if letter = 99 then
      -- a character 0 ends the string in `buf`
      some ([], if UInt8.ofNat w.toNat = 0 then [] else [UInt8.ofNat w.toNat])
    else if letter = 100 then some ([], _itoa w)
    else if letter = 112 then some ([48, 120], _uitoa w.toNat (if c = 117 then 10 else 16))
    else if letter = 117 ∨ letter = 120 then
      some ([], _uitoa w.toNat (if c = 117 then 10 else 16))
    else none
  | .str s =>
    if letter = 115 then
      -- "(null)"
      let s := s.getD [40, 110, 117, 108, 108, 41]
      if s.length < 512 then some ([], s) else none
    else none

/-- The loop state of `vsprintf`. -/
structure Cursor where
  fmt : List UInt8
  ap : List Arg
  mem : Mem
  dst : ℕ

/-- What follows the `%` of a directive. -/
def directive (c : UInt8) (s : Cursor) : Option Cursor :=
  (get_fmt_flag s.fmt).bind fun f =>
    let w := _uatoi 10 f.2 0
    match w.2, s.ap with
    | letter :: fmt, arg :: ap =>
      (convert c letter arg).map fun r =>
        let m := r.1.foldl (fun (d : Mem × ℕ) x => (d.1.poke d.2 x, d.2 + 1)) (s.mem, s.dst)
        let t := copy_fmt_str m.1 m.2 r.2 f.1 (toInt w.1)
        ⟨fmt, ap, t.1, m.2 + t.2⟩
    | _, _ => none

/-- The body of the loop of `vsprintf`. -/
def vsprintf_body (s : Cursor) : Option Cursor :=
  match s.fmt with
  | [] => none
  | c :: fmt =>
    if c = 37 then directive c { s with fmt := fmt }
    else some { s with fmt := fmt, mem := s.mem.poke s.dst c, dst := s.dst + 1 }

/-- `vsprintf`: the returned `int` and the memory. -/
def vsprintf (m : Mem) (out : ℕ) (fmt : List UInt8) (ap : List Arg) : Option (ℤ × Mem) :=
  (loop (fun s => s.fmt ≠ []) vsprintf_body (fmt.length + 1) ⟨fmt, ap, m, out⟩).map fun s =>
    (toInt (s.dst + 1 - out), s.mem.poke s.dst 0)

end Loos.Stdio
