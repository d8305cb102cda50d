/-
`driver/uart.c`, `getstr`, and what `read` makes of it.

What the console shows is a list, with an entry for each call of `getch`; a call of `getstr`
that comes to the end of the list is waiting. Interrupts are let in while there is no data, and
they are taken to leave the buffer alone.

`getstr` takes at most 128 characters, as many as `getstr_buf` has room for, and the NUL comes
behind them. So the NUL is stored outside where the line fills the buffer ([`getstr_iff`]).
-/
import Loos.FileReads
import Loos.Lib.Loop

set_option autoImplicit false

namespace Loos.Uart

open SysLib

/-! ## The code -/

/-- `sizeof(getstr_buf)` -/
def BUF_SIZE : ℕ := 128

/-- `'\n'` -/
def newline : ℤ := 10

/-- `getch`, where the receive register has data, or has none. -/
def getch : Option UInt8 → ℤ
  | none => -1
  | some key => if key.toNat = 13 then newline else key.toNat

/-- The cast to `char`. -/
def char (c : ℤ) : UInt8 := UInt8.ofNat c.toNat

/-- The variables of `getstr`: the memory from `getstr_buf` on, with `p` as an index, and
`count`; the indices stored to, and the characters sent back. -/
structure Line where
  mem : Mem
  p : ℕ
  count : ℕ
  stores : List ℕ
  echo : List UInt8

/-- `*p++ = c` -/
def Line.store (s : Line) (c : UInt8) : Line :=
  { s with mem := s.mem.poke s.p c, p := s.p + 1, stores := s.p :: s.stores }

/-- `putch(c)` -/
def Line.putch (s : Line) (c : UInt8) : Line := { s with echo := s.echo ++ [c] }

/-- The body of the loop, after `c = getch()`. -/
def getstr_body (c : ℤ) (s : Line) : Line :=
  if c = -1 then s
  else
    let s := s.store (char c)
    let s := if s.count > 1 then s.putch (char c) else s
    { s with count := s.count - 1 }

/-- What a call has done, and what it has left of the list if it has returned. -/
structure Outcome where
  line : Line
  rest : Option (List (Option UInt8))

/-- What follows the loop. -/
def getstr_end (c : ℤ) (s : Line) (rest : List (Option UInt8)) : Outcome :=
  let s :=
    if c = newline then
      let s := s.store 10
      if s.count > 1 then s.putch 10 else s
    else s
  { line := { s with mem := s.mem.poke s.p 0, stores := s.p :: s.stores }, rest := some rest }

/-- The loop, and what follows. -/
def getstr_loop : ℤ → Line → List (Option UInt8) → Outcome
  | c, s, [] => if s.count = 0 then getstr_end c s [] else ⟨s, none⟩
  | c, s, key :: keys =>
    if s.count = 0 then getstr_end c s (key :: keys)
    else if getch key = newline then getstr_end (getch key) s keys
    else getstr_loop (getch key) (getstr_body (getch key) s) keys

def getstr (mem : Mem) (count : ℕ) (keys : List (Option UInt8)) : Outcome :=
  getstr_loop 0 ⟨mem, 0, min count BUF_SIZE, [], []⟩ keys

/-- `strlen` -/
def strlen (m : Mem) : Option ℕ :=
  loop (fun n => decide (m n ≠ 0)) (fun n => some (n + 1)) (2 ^ 64) 0

/-- `read` on the standard input: the returned value and `buf`; `none` while it is waiting. -/
def read_stdin (mem buf : Mem) (count : ℕ) (keys : List (Option UInt8)) : Option (ℕ × Mem) :=
  let str := getstr mem count keys
  if str.rest = none then none
  else (strlen str.line.mem).map fun n => (n, buf.put 0 n str.line.mem)

/-! ## What a line is -/

/-- The characters that were typed; the return key is a newline. -/
def typed (keys : List (Option UInt8)) : List UInt8 :=
  keys.filterMap fun key => key.map fun k => if k = 13 then 10 else k

/-- The characters up to the first newline, and it, at most `n` in all. -/
def lineOf : ℕ → List UInt8 → List UInt8
  | 0, _ => []
  | _, [] => []
  | n + 1, c :: cs => if c = 10 then [c] else c :: lineOf n cs

/-- The string and its NUL are in the memory. -/
def Holds (m : Mem) (str : List UInt8) : Prop :=
  (∀ i < str.length, m i = str.getD i 0) ∧ m str.length = 0

/-- What should hold of a call for `count` characters: it stores into the buffer only, which
holds the line when it returns; and `read` returns at most `count` bytes, and writes to no
others. -/
structure Sound (mem : Mem) (count : ℕ) (keys : List (Option UInt8)) : Prop where
  inside : ∀ i ∈ (getstr mem count keys).line.stores, i < BUF_SIZE
  holds : (getstr mem count keys).rest ≠ none →
    Holds (getstr mem count keys).line.mem (lineOf count (typed keys))
  read : (getstr mem count keys).rest ≠ none → ∀ buf, ∃ n buf',
    read_stdin mem buf count keys = some (n, buf') ∧ n ≤ count ∧ ∀ x, count ≤ x → buf' x = buf x

variable {mem : Mem} {n m count : ℕ} {w cs str : List UInt8} {c : ℤ} {s : Line}
  {next : Option UInt8} {keys : List (Option UInt8)} {o : Outcome}

/-! ## Words and lines -/

/-- The characters before the first newline, at most `n` in all. -/
def word : ℕ → List UInt8 → List UInt8
  | 0, _ => []
  | _, [] => []
  | n + 1, c :: cs => if c = 10 then [] else c :: word n cs

@[simp] theorem word_zero : word 0 cs = [] := by
  cases cs <;> rfl

@[simp] theorem word_nil : word n [] = [] := by
  cases n <;> rfl

theorem le_word_length :
    m ≤ (word n cs).length ↔ m ≤ n ∧ m ≤ cs.length ∧ 10 ∉ cs.take m := by
  induction n generalizing cs m with
  | zero =>
    rw [word_zero, List.length_nil, Nat.le_zero]
    refine ⟨?_, And.left⟩
    rintro rfl
    simp
  | succ n ih =>
    cases cs with
    | nil =>
      rw [word_nil]
      refine ⟨fun h => ⟨by simp at h; omega, h, by simp⟩, fun h => h.2.1⟩
    | cons c cs =>
      cases m with
      | zero => simp
      | succ m =>
        rw [word]
        by_cases h10 : c = 10
        · simp [h10]
        · rw [if_neg h10]
          simp only [List.length_cons, Nat.succ_le_succ_iff, List.take_succ_cons, List.mem_cons,
            not_or, ih]
          have hne : ¬ (10 : UInt8) = c := fun he => h10 he.symm
          simp [hne]

theorem lineOf_full (h : (word n cs).length = n) : lineOf n cs = word n cs := by
  induction n generalizing cs with
  | zero => cases cs <;> rfl
  | succ n ih =>
    cases cs with
    | nil => rfl
    | cons c cs =>
      rw [word] at h
      rw [lineOf, word]
      by_cases h10 : c = 10
      · simp [h10] at h
      · rw [if_neg h10] at h
        rw [if_neg h10, if_neg h10, ih (by simpa using h)]

/-- A newline behind the word ends the line, whatever room is left. -/
theorem lineOf_newline (h : cs[(word n cs).length]? = some 10) (hm : (word n cs).length < m)
    (hn : (word n cs).length < n) : lineOf m cs = word n cs ++ [10] := by
  induction n generalizing cs m with
  | zero => omega
  | succ n ih =>
    cases cs with
    | nil => simp at h
    | cons c cs =>
      obtain ⟨m, rfl⟩ := Nat.exists_eq_add_of_lt (Nat.zero_lt_of_lt hm)
      rw [Nat.zero_add] at hm ⊢
      rw [word] at h hm hn ⊢
      rw [lineOf]
      by_cases h10 : c = 10
      · rw [if_pos h10, if_pos h10, h10]
        rfl
      · rw [if_neg h10] at h hm hn ⊢
        rw [if_neg h10, List.cons_append, List.cons_inj_right]
        simp only [List.length_cons] at hm hn
        exact ih (by simpa using h) (by omega) (by omega)

/-! ## The loop -/

/-- The loop after the characters `w`, none of them a newline. -/
structure Typed (mem : Mem) (n : ℕ) (w : List UInt8) (s : Line) : Prop where
  le : w.length ≤ n
  p_eq : s.p = w.length
  count_eq : s.count = n - w.length
  mem_eq : s.mem = mem.put 0 w.length fun i => w.getD i 0
  stores : ∀ i ∈ s.stores, i < w.length

/-- How the loop ends behind the word `w`, when `next` is what was typed next: there is no room
for more, or a newline, or nothing yet. -/
inductive Ends (mem : Mem) (n : ℕ) (w : List UInt8) (next : Option UInt8) : Outcome → Prop where
  | full {s : Line} {c : ℤ} (rest : List (Option UInt8)) (h : Typed mem n w s)
      (hw : w.length = n) (hc : c ≠ newline) : Ends mem n w next (getstr_end c s rest)
  | newline {s : Line} (rest : List (Option UInt8)) (h : Typed mem n w s) (hw : w.length < n)
      (hnext : next = some 10) : Ends mem n w next (getstr_end newline s rest)
  | waiting {s : Line} (h : Typed mem n w s) (hw : w.length < n) (hnext : next = none) :
      Ends mem n w next ⟨s, none⟩

/-- One more character behind a string. -/
theorem put_snoc (k : UInt8) : (mem.put 0 w.length fun i => w.getD i 0).poke w.length k =
    mem.put 0 (w.length + 1) fun i => (w ++ [k]).getD i 0 := by
  have hsame : (mem.put 0 w.length fun i => w.getD i 0) =
      mem.put 0 w.length fun i => (w ++ [k]).getD i 0 :=
    Mem.put_congr fun i hi => (List.getD_append w [k] 0 i hi).symm
  have hlast : (w ++ [k]).getD w.length 0 = k := by
    rw [List.getD_append_right w [k] 0 w.length (le_refl _), Nat.sub_self]
    rfl
  have hpoke : ((mem.put 0 w.length fun i => (w ++ [k]).getD i 0).poke (0 + w.length)
      ((w ++ [k]).getD w.length 0)) = mem.put 0 (w.length + 1) fun i => (w ++ [k]).getD i 0 :=
    Mem.put_poke
  rw [Nat.zero_add, hlast] at hpoke
  rw [hsame, hpoke]

/-- A character that is stored. -/
theorem Typed.store (h : Typed mem n w s) (hn : s.count ≠ 0) (k : UInt8) :
    Typed mem n (w ++ [k]) (getstr_body k.toNat s) := by
  obtain ⟨hle, hp, hcount, hmem, hstores⟩ := h
  have hchar : char k.toNat = k := by simp [char]
  have hbody : ∃ echo, getstr_body k.toNat s =
      ⟨s.mem.poke s.p k, s.p + 1, s.count - 1, s.p :: s.stores, echo⟩ := by
    rw [getstr_body, if_neg (by omega), hchar]
    dsimp only
    split_ifs <;> exact ⟨_, rfl⟩
  obtain ⟨echo, hbody⟩ := hbody
  rw [hbody]
  refine ⟨?_, ?_, ?_, ?_, fun i hi => ?_⟩
  · rw [List.length_append, List.length_singleton]
    omega
  · rw [List.length_append, List.length_singleton, hp]
  · rw [List.length_append, List.length_singleton]
    dsimp only
    omega
  · dsimp only
    rw [hmem, hp, put_snoc, List.length_append, List.length_singleton]
  · rw [List.length_append, List.length_singleton]
    rcases List.mem_cons.mp hi with rfl | hi
    · omega
    · exact (hstores i hi).trans (Nat.lt_succ_self _)

theorem getch_some (k : UInt8) :
    getch (some k) = ((if k = 13 then 10 else k : UInt8).toNat : ℤ) := by
  have hk : k.toNat = 13 ↔ k = 13 := by
    rw [← UInt8.toNat_inj]
    rfl
  rw [getch]
  by_cases h13 : k = 13
  · rw [if_pos (hk.mpr h13), if_pos h13]
    rfl
  · rw [if_neg (hk.not.mpr h13), if_neg h13]

/-- No room for a character. -/
theorem Typed.ends_full (h : Typed mem n w s) (hc : c ≠ newline) (h0 : s.count = 0)
    (rest : List (Option UInt8)) :
    Ends mem n (w ++ word (n - w.length) cs) next (getstr_end c s rest) := by
  have hcount := h.count_eq
  have hle := h.le
  rw [← hcount, h0, word_zero, List.append_nil]
  exact .full rest h (by omega) hc

/-- The loop from any state of it, by the list of what is to come. -/
theorem getstr_loop_ends (h : Typed mem n w s) (hc : c ≠ newline) :
    Ends mem n (w ++ word (n - w.length) (typed keys))
      (typed keys)[(word (n - w.length) (typed keys)).length]? (getstr_loop c s keys) := by
  induction keys generalizing w s c with
  | nil =>
    have hcount := h.count_eq
    rw [getstr_loop]
    split_ifs with h0
    · exact h.ends_full hc h0 []
    · rw [typed, List.filterMap_nil, word_nil, List.append_nil]
      exact .waiting h (by omega) rfl
  | cons key keys ih =>
    have hcount := h.count_eq
    rw [getstr_loop]
    split_ifs with h0 hnl
    · exact h.ends_full hc h0 _
    · cases key with
      | none => exact absurd hnl (by decide)
      | some k =>
        -- a newline: nothing is added to the word
        rw [getch_some] at hnl
        have hk : (if k = 13 then 10 else k : UInt8) = 10 := by
          rw [← UInt8.toNat_inj]
          exact Int.ofNat_inj.mp hnl
        have htyped : typed (some k :: keys) = 10 :: typed keys := by
          rw [typed, List.filterMap_cons, Option.map_some, hk]
          rfl
        have hword : word (n - w.length) (10 :: typed keys) = [] := by
          obtain ⟨room, hroom⟩ := Nat.exists_eq_succ_of_ne_zero (hcount ▸ h0)
          rw [hroom]
          rfl
        rw [htyped, hword, List.append_nil, getch_some, hnl]
        exact .newline keys h (by omega) rfl
    · cases key with
      | none =>
        -- no data: the turn changes nothing
        exact ih h (by decide)
      | some k =>
        set k' : UInt8 := if k = 13 then 10 else k with hk'
        rw [getch_some] at hnl ⊢
        have hne : k' ≠ 10 := fun he => hnl (by rw [← hk', he]; rfl)
        have htyped : typed (some k :: keys) = k' :: typed keys := rfl
        have hword : word (n - w.length) (k' :: typed keys) =
            k' :: word (n - (w ++ [k']).length) (typed keys) := by
          obtain ⟨room, hroom⟩ := Nat.exists_eq_succ_of_ne_zero (hcount ▸ h0)
          have hless : n - (w ++ [k']).length = room := by
            rw [List.length_append, List.length_singleton]
            omega
          rw [hroom, hless, word, if_neg hne]
        have hrest := ih (h.store h0 k') (c := k'.toNat) hnl
        rw [List.append_assoc, List.singleton_append, ← hword] at hrest
        rw [htyped, hword, List.length_cons, List.getElem?_cons_succ]
        rw [hword] at hrest
        exact hrest

/-- How a call ends. -/
theorem getstr_ends (mem : Mem) (count : ℕ) (keys : List (Option UInt8)) :
    Ends mem (min count BUF_SIZE) (word (min count BUF_SIZE) (typed keys))
    (typed keys)[(word (min count BUF_SIZE) (typed keys)).length]? (getstr mem count keys) := by
  have hinit : Typed mem (min count BUF_SIZE) [] ⟨mem, 0, min count BUF_SIZE, [], []⟩ :=
    ⟨Nat.zero_le _, rfl, rfl, Mem.put_zero.symm, by simp⟩
  exact getstr_loop_ends hinit (by decide)

/-! ## What a call has stored -/

/-- A call that has returned with the string `str`. -/
structure Returned (mem : Mem) (str : List UInt8) (o : Outcome) : Prop where
  rest : o.rest ≠ none
  mem_eq : o.line.mem = (mem.put 0 str.length fun i => str.getD i 0).poke str.length 0
  nul : str.length ∈ o.line.stores
  stores : ∀ i ∈ o.line.stores, i ≤ str.length

theorem Typed.returned (h : Typed mem n w s) (hc : c ≠ newline) (rest : List (Option UInt8)) :
    Returned mem w (getstr_end c s rest) := by
  obtain ⟨-, hp, -, hmem, hstores⟩ := h
  rw [getstr_end, if_neg hc]
  refine ⟨by simp, ?_, ?_, fun i hi => ?_⟩
  · dsimp only
    rw [hmem, hp]
  · rw [← hp]
    exact List.mem_cons_self
  · rcases List.mem_cons.mp hi with rfl | hi
    · omega
    · exact Nat.le_of_lt (hstores i hi)

theorem Typed.returned_newline (h : Typed mem n w s) (rest : List (Option UInt8)) :
    Returned mem (w ++ [10]) (getstr_end newline s rest) := by
  obtain ⟨-, hp, -, hmem, hstores⟩ := h
  have hend : ∃ echo, getstr_end newline s rest = ⟨⟨(s.mem.poke s.p 10).poke (s.p + 1) 0, s.p + 1,
      s.count, (s.p + 1) :: s.p :: s.stores, echo⟩, some rest⟩ := by
    rw [getstr_end, if_pos rfl]
    dsimp only
    split_ifs <;> exact ⟨_, rfl⟩
  obtain ⟨echo, hend⟩ := hend
  rw [hend]
  refine ⟨by simp, ?_, ?_, fun i hi => ?_⟩
  · rw [hmem, hp, put_snoc, List.length_append, List.length_singleton]
  · rw [List.length_append, List.length_singleton, ← hp]
    exact List.mem_cons_self
  · rw [List.length_append, List.length_singleton]
    rcases List.mem_cons.mp hi with rfl | hi
    · omega
    · rcases List.mem_cons.mp hi with rfl | hi
      · omega
      · exact Nat.le_of_lt ((hstores i hi).trans (Nat.lt_succ_self _))

theorem Returned.holds (h : Returned mem str o) : Holds o.line.mem str := by
  rw [Holds, h.mem_eq]
  refine ⟨fun i hi => ?_, if_pos rfl⟩
  have hput : (mem.put 0 str.length fun i => str.getD i 0) (0 + i) = str.getD i 0 :=
    Mem.put_apply_of_mem hi
  rw [Mem.poke, if_neg (by omega), ← hput, Nat.zero_add]

/-- `strlen` ends at the first NUL. -/
theorem strlen_le {z : ℕ} (hz : mem z = 0) (hlt : z < 2 ^ 64) : ∃ n ≤ z, strlen mem = some n := by
  obtain ⟨n, hn, hle, -⟩ := loop_spec (c := fun n => decide (mem n ≠ 0))
    (f := fun n => some (n + 1)) (n := 2 ^ 64) (fun n => n ≤ z) (fun n => z - n)
    (fun n hle hc => by
      have hne : n ≠ z := fun he => of_decide_eq_true hc (he ▸ hz)
      exact ⟨n + 1, rfl, by omega, by omega⟩)
    (Nat.zero_le z) (by omega)
  exact ⟨n, hle, hn⟩

/-- `read` copies no more than the string. -/
theorem Returned.read (h : Returned mem str (getstr mem count keys)) (hlt : str.length < 2 ^ 64)
    (buf : Mem) : ∃ n buf', read_stdin mem buf count keys = some (n, buf') ∧ n ≤ str.length ∧
      ∀ x, str.length ≤ x → buf' x = buf x := by
  obtain ⟨n, hle, hn⟩ := strlen_le h.holds.2 hlt
  refine ⟨n, buf.put 0 n (getstr mem count keys).line.mem, ?_, hle,
    fun x hx => Mem.put_apply_of_disjoint (.inr ?_)⟩
  · rw [read_stdin, if_neg h.rest, hn, Option.map_some]
  · omega

/-- It is what `read` does on the standard input, when the console gives the string that
`getstr` left. -/
theorem read_eq_read_stdin {s : FileReads.Sys} {fd : ℤ} {inode : Ext2.ext2_inode} {buf buf' : Mem}
    (h : FileReads.Bound s fd Ext2Fs.STDIN inode)
    (hread : read_stdin mem buf count keys = some (n, buf'))
    (hstr : s.console s.lines count = FileReads.bytes (getstr mem count keys).line.mem n) :
    FileReads.read s fd buf count = some (n, buf', { s with lines := s.lines + 1 }) := by
  rw [read_stdin] at hread
  obtain ⟨-, hread⟩ := Option.ite_none_left_eq_some.mp hread
  obtain ⟨n', -, he⟩ := Option.map_eq_some_iff.mp hread
  obtain ⟨rfl, rfl⟩ := Prod.mk.inj he
  have hlen : (s.console s.lines count).length = n' := by
    rw [hstr, FileReads.bytes, List.length_map, List.length_range]
  have hput : (buf.put 0 n' fun i => (s.console s.lines count).getD i 0) =
      buf.put 0 n' (getstr mem count keys).line.mem := by
    apply Mem.put_congr
    intro i hi
    rw [hstr]
    simp [FileReads.bytes, hi]
  rw [FileReads.read, if_neg (by simp [h.valid]), h.slot_eq, Option.bind_some, if_pos rfl]
  dsimp only
  rw [hlen, hput]

/-! ## The main result -/

/-- Fewer characters than `getstr_buf` has are asked for, or have been typed yet, or there is a
newline in front of the last of them. -/
def Room (count : ℕ) (cs : List UInt8) : Prop :=
  count < BUF_SIZE ∨ cs.length < BUF_SIZE ∨ 10 ∈ cs.take (BUF_SIZE - 1)

/-- How a call ends: with a string, which does not fill the buffer if there is room and is the
line then, or it is waiting. -/
theorem getstr_cases (mem : Mem) (count : ℕ) (keys : List (Option UInt8)) :
    (∃ str, Returned mem str (getstr mem count keys) ∧ str.length ≤ min count BUF_SIZE ∧
      (str.length < BUF_SIZE ↔ Room count (typed keys)) ∧
      (str.length < BUF_SIZE → str = lineOf count (typed keys))) ∨
    (getstr mem count keys).rest = none ∧
      (∀ i ∈ (getstr mem count keys).line.stores, i < BUF_SIZE) ∧ Room count (typed keys) := by
  have hends := getstr_ends mem count keys
  generalize getstr mem count keys = o at hends ⊢
  generalize hn : min count BUF_SIZE = n at hends ⊢
  generalize hw : word n (typed keys) = w at hends
  have hle_iff : ∀ m, m ≤ w.length ↔
      m ≤ n ∧ m ≤ (typed keys).length ∧ 10 ∉ (typed keys).take m := by
    intro m
    rw [← hw]
    exact le_word_length
  obtain ⟨hwn, hwlen, -⟩ := (hle_iff _).mp (le_refl w.length)
  -- whether the word leaves room for a newline
  have hshort : w.length < BUF_SIZE - 1 → Room count (typed keys) := by
    intro hlt
    by_contra hno
    obtain ⟨hcount, hno⟩ := not_or.mp hno
    obtain ⟨hmany, hnl⟩ := not_or.mp hno
    have hle : BUF_SIZE - 1 ≤ w.length := (hle_iff _).mpr ⟨by omega, by omega, hnl⟩
    omega
  have hlong : BUF_SIZE - 1 ≤ w.length → n = BUF_SIZE → BUF_SIZE ≤ (typed keys).length →
      ¬ Room count (typed keys) := by
    rintro hle hall hmany (hcount | hfew | hnl)
    · omega
    · omega
    · exact ((hle_iff _).mp hle).2.2 hnl
  cases hends with
  | full rest h hfull hc =>
    refine .inl ⟨w, h.returned hc rest, hwn, ⟨fun hlt => .inl (by omega), fun hroom => ?_⟩,
      fun hlt => ?_⟩
    · by_contra hge
      exact hlong (by omega) (by omega) (by omega) hroom
    · have hcount : n = count := by omega
      rw [← hcount, ← hw]
      exact (lineOf_full (by rw [hw]; exact hfull)).symm
  | newline rest h hlt hnext =>
    have hlen : (w ++ [10]).length = w.length + 1 := by
      rw [List.length_append, List.length_singleton]
    have hin : w.length < (typed keys).length := by
      by_contra hge
      rw [List.getElem?_eq_none (by omega)] at hnext
      cases hnext
    refine .inl ⟨w ++ [10], h.returned_newline rest, by omega,
      ⟨fun hfits => hshort (by omega), fun hroom => ?_⟩, fun _ => ?_⟩
    · by_contra hge
      exact hlong (by omega) (by omega) (by omega) hroom
    · subst hw
      exact (lineOf_newline hnext (by omega) hlt).symm
  | waiting h hlt hnext =>
    have hall := List.getElem?_eq_none_iff.mp hnext
    refine .inr ⟨rfl, fun i hi => ?_, .inr (.inl (by omega))⟩
    have := h.stores i hi
    omega

/-- **`getstr`** stores into its buffer only, and holds the line, exactly if fewer than 128
characters are asked for, or have been typed yet, or there is a newline before the 128th. What
`read` returns and where it writes is right in every case. -/
theorem getstr_iff : Sound mem count keys ↔ Room count (typed keys) := by
  rcases getstr_cases mem count keys with
    ⟨str, hret, hlen, hroom, hline⟩ | ⟨hrest, hstores, hroom⟩
  · refine ⟨fun h => hroom.mp (h.inside _ hret.nul), fun h => ?_⟩
    have hlt := hroom.mpr h
    refine ⟨fun i hi => lt_of_le_of_lt (hret.stores i hi) hlt, fun _ => ?_, fun _ buf => ?_⟩
    · rw [← hline hlt]
      exact hret.holds
    · obtain ⟨m, buf', hread, hle, hkept⟩ := hret.read (by unfold BUF_SIZE at hlt; omega) buf
      exact ⟨m, buf', hread, by omega, fun x hx => hkept x (by omega)⟩
  · exact ⟨fun _ => hroom, fun _ =>
      ⟨hstores, fun h => absurd hrest h, fun h => absurd hrest h⟩⟩

/-- 128 characters, or 127 and the return key: the NUL is stored behind the buffer. -/
theorem nul_outside :
    BUF_SIZE ∈ (getstr (fun _ => 0) 128 (List.replicate 128 (some 97))).line.stores ∧
      ¬ Sound (fun _ => 0) 128 (List.replicate 128 (some 97)) ∧
    BUF_SIZE ∈ (getstr (fun _ => 0) 4096 (List.replicate 127 (some 97) ++ [some 13])).line.stores ∧
      ¬ Sound (fun _ => 0) 4096 (List.replicate 127 (some 97) ++ [some 13]) := by
  have hfull : BUF_SIZE ∈ (getstr (fun _ => 0) 128 (List.replicate 128 (some 97))).line.stores := by
    decide +kernel
  have hline : BUF_SIZE ∈
      (getstr (fun _ => 0) 4096 (List.replicate 127 (some 97) ++ [some 13])).line.stores := by
    decide +kernel
  exact ⟨hfull, fun h => absurd (h.inside _ hfull) (by decide), hline,
    fun h => absurd (h.inside _ hline) (by decide)⟩

end Loos.Uart
