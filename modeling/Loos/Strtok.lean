/-
`lolibc/string.c`: `strtok`, `strspn` and `strcspn`.

`strtok` takes one word of a string after the other, and keeps in a static variable where it is.
It cuts the string up behind the words, but only ahead of what it has returned. So the words stay
as they were returned, as long as the set of delimiters does ([`strtok_words`]).
-/
import Loos.Lib.ByteMem
import Loos.Lib.Words

set_option autoImplicit false

namespace Loos.Strtok

open SysLib

/-! ## The code -/

/-- The inner loop of `strspn` and `strcspn`, from the pointer `a` on: it ends at the character
`c`, or at the end of the set. -/
def seek (m : Mem) (c : UInt8) : ℕ → ℕ → Option ℕ
  | 0, _ => none
  | n + 1, a => if m a ≠ 0 then if c = m a then some a else seek m c n (a + 1) else some a

/-- The outer loop of `strspn`. -/
def strspn_from (m : Mem) (accept : ℕ) : ℕ → ℕ → ℕ → Option ℕ
  | 0, _, _ => none
  | n + 1, p, count =>
    if m p ≠ 0 then
      (seek m (m p) (2 ^ 64) accept).bind fun a =>
        if m a = 0 then some count else strspn_from m accept n (p + 1) (count + 1)
    else some count

/-- The outer loop of `strcspn`. -/
def strcspn_from (m : Mem) (reject : ℕ) : ℕ → ℕ → ℕ → Option ℕ
  | 0, _, _ => none
  | n + 1, p, count =>
    if m p ≠ 0 then
      (seek m (m p) (2 ^ 64) reject).bind fun r =>
        if m r = 0 then strcspn_from m reject n (p + 1) (count + 1) else some count
    else some count

/-- `strspn`; no string has more than 2⁶⁴ characters. -/
def strspn (m : Mem) (s accept : ℕ) : Option ℕ := strspn_from m accept (2 ^ 64) s 0

def strcspn (m : Mem) (s reject : ℕ) : Option ℕ := strcspn_from m reject (2 ^ 64) s 0

/-- The memory, and the static variable `lasts`. -/
structure State where
  mem : Mem
  lasts : ℕ

/-- `strtok`: the returned pointer, where 0 is `NULL`. -/
def strtok (str delim : ℕ) (s : State) : Option (ℕ × State) :=
  let sbegin := if str ≠ 0 then str else s.lasts
  if sbegin = 0 then some (0, s)
  else
    (strspn s.mem sbegin delim).bind fun n =>
      let sbegin := sbegin + n
      if s.mem sbegin = 0 then some (0, { s with lasts := 0 })
      else
        (strcspn s.mem sbegin delim).map fun n =>
          let send := sbegin + n
          if s.mem send ≠ 0 then
            (sbegin, { mem := s.mem.poke send 0, lasts := send + 1 })
          else (sbegin, { s with lasts := send })

/-- `n` calls of `strtok(NULL, delim)`: the pointers that are returned. -/
def strtok_next (delim : ℕ) : ℕ → State → Option (List ℕ × State)
  | 0, s => some ([], s)
  | n + 1, s => (strtok 0 delim s).bind fun r =>
      (strtok_next delim n r.2).map fun q => (r.1 :: q.1, q.2)

/-- `strtok(str, delim)` and then `n` calls of `strtok(NULL, delim)`. -/
def strtok_calls (str delim n : ℕ) (s : State) : Option (List ℕ × State) :=
  (strtok str delim s).bind fun r =>
    (strtok_next delim n r.2).map fun q => (r.1 :: q.1, q.2)

/-! ## Strings -/

/-- The string `l` is at the address `a`, with its NUL. -/
structure StrAt (m : Mem) (a : ℕ) (l : List UInt8) : Prop where
  chars : ∀ i < l.length, l[i]? = some (m (a + i))
  nul : m (a + l.length) = 0
  no_nul : 0 ∉ l
  bound : a + l.length < 2 ^ 64

/-- A character of the set is a separator. -/
def isDelim (ds : List UInt8) (c : UInt8) : Bool := decide (c ∈ ds)

variable {m m' : Mem} {a b d n p count : ℕ} {c : UInt8} {l pre w rest ds : List UInt8} {s : State}

theorem StrAt.congr (h : StrAt m a l) (hsame : ∀ x, a ≤ x → x ≤ a + l.length → m' x = m x) :
    StrAt m' a l := by
  refine ⟨fun i hi => ?_, ?_, h.no_nul, h.bound⟩
  · rw [hsame _ (by omega) (by omega)]
    exact h.chars i hi
  · rw [hsame _ (by omega) (le_refl _)]
    exact h.nul

theorem StrAt.head (h : StrAt m a (c :: l)) : m a = c :=
  (Option.some.inj (h.chars 0 (Nat.succ_pos _))).symm

theorem StrAt.head_ne_zero (h : StrAt m a (c :: l)) : m a ≠ 0 := by
  rw [h.head]
  exact fun he => h.no_nul (by simp [he])

/-- What is left behind the first characters. -/
theorem StrAt.drop (h : StrAt m a (pre ++ l)) : StrAt m (a + pre.length) l := by
  refine ⟨fun i hi => ?_, ?_, fun h0 => h.no_nul (List.mem_append_right pre h0), ?_⟩
  · have hchar := h.chars (pre.length + i) (by rw [List.length_append]; omega)
    rwa [List.getElem?_append_right (Nat.le_add_right _ _), Nat.add_sub_cancel_left,
      ← Nat.add_assoc] at hchar
  · have hnul := h.nul
    rwa [List.length_append, ← Nat.add_assoc] at hnul
  · have hbound := h.bound
    rw [List.length_append] at hbound
    omega

theorem StrAt.tail (h : StrAt m a (c :: l)) : StrAt m (a + 1) l := by
  have hdrop : StrAt m (a + [c].length) l := StrAt.drop h
  exact hdrop

/-- The first characters, once a NUL is stored behind them. -/
theorem StrAt.cut (h : StrAt m a (w ++ rest)) (hnul : m' (a + w.length) = 0)
    (hsame : ∀ x, a ≤ x → x < a + w.length → m' x = m x) : StrAt m' a w := by
  refine ⟨fun i hi => ?_, hnul, fun h0 => h.no_nul (List.mem_append_left rest h0), ?_⟩
  · have hchar := h.chars i (by rw [List.length_append]; omega)
    rwa [List.getElem?_append_left hi, ← hsame _ (by omega) (by omega)] at hchar
  · have hbound := h.bound
    rw [List.length_append] at hbound
    omega

/-! ## The scans -/

/-- The inner loop finds the end of the set exactly if the character is not in it. -/
theorem seek_spec (hds : StrAt m a ds) (hn : ds.length < n) :
    ∃ r, seek m c n a = some r ∧ (m r = 0 ↔ c ∉ ds) := by
  induction ds generalizing a n with
  | nil =>
    obtain ⟨n, rfl⟩ : ∃ k, n = k + 1 := ⟨n - 1, by omega⟩
    have hnul : m a = 0 := hds.nul
    refine ⟨a, ?_, iff_of_true hnul List.not_mem_nil⟩
    rw [seek, if_neg (not_not.mpr hnul)]
  | cons e ds ih =>
    obtain ⟨n, rfl⟩ : ∃ k, n = k + 1 := ⟨n - 1, by omega⟩
    rw [seek, if_pos hds.head_ne_zero, hds.head]
    by_cases hce : c = e
    · refine ⟨a, if_pos hce, iff_of_false hds.head_ne_zero ?_⟩
      rw [hce]
      exact not_not.mpr List.mem_cons_self
    · obtain ⟨r, hr, hiff⟩ := ih hds.tail (Nat.lt_of_succ_lt_succ hn)
      refine ⟨r, by rw [if_neg hce, hr], ?_⟩
      rw [hiff, List.mem_cons, not_or]
      exact (and_iff_right hce).symm

/-- It is run for the first character of what is left of the string. -/
theorem seek_head (hl : StrAt m p (c :: l)) (hds : StrAt m d ds) :
    ∃ r, seek m (m p) (2 ^ 64) d = some r ∧ (m r = 0 ↔ c ∉ ds) := by
  have hbound := hds.bound
  rw [hl.head]
  exact seek_spec hds (by omega)

theorem strspn_from_eq (hl : StrAt m p l) (hds : StrAt m d ds) (hn : l.length < n) :
    strspn_from m d n p count = some (count + (l.takeWhile (isDelim ds)).length) := by
  induction l generalizing p n count with
  | nil =>
    obtain ⟨n, rfl⟩ : ∃ k, n = k + 1 := ⟨n - 1, by omega⟩
    have hnul : m p = 0 := hl.nul
    rw [strspn_from, if_neg (not_not.mpr hnul)]
    rfl
  | cons c l ih =>
    obtain ⟨n, rfl⟩ : ∃ k, n = k + 1 := ⟨n - 1, by omega⟩
    obtain ⟨r, hr, hiff⟩ := seek_head hl hds
    rw [strspn_from, if_pos hl.head_ne_zero, hr, Option.bind_some]
    by_cases hmem : c ∈ ds
    · rw [if_neg fun h0 => hiff.mp h0 hmem, ih hl.tail (Nat.lt_of_succ_lt_succ hn),
        List.takeWhile_cons_of_pos (by simpa [isDelim] using hmem), List.length_cons]
      congr 1
      omega
    · rw [if_pos (hiff.mpr hmem), List.takeWhile_cons_of_neg (by simpa [isDelim] using hmem)]
      rfl

theorem strcspn_from_eq (hl : StrAt m p l) (hds : StrAt m d ds) (hn : l.length < n) :
    strcspn_from m d n p count = some (count + (l.takeWhile fun c => !isDelim ds c).length) := by
  induction l generalizing p n count with
  | nil =>
    obtain ⟨n, rfl⟩ : ∃ k, n = k + 1 := ⟨n - 1, by omega⟩
    have hnul : m p = 0 := hl.nul
    rw [strcspn_from, if_neg (not_not.mpr hnul)]
    rfl
  | cons c l ih =>
    obtain ⟨n, rfl⟩ : ∃ k, n = k + 1 := ⟨n - 1, by omega⟩
    obtain ⟨r, hr, hiff⟩ := seek_head hl hds
    rw [strcspn_from, if_pos hl.head_ne_zero, hr, Option.bind_some]
    by_cases hmem : c ∈ ds
    · rw [if_neg fun h0 => hiff.mp h0 hmem, List.takeWhile_cons_of_neg (by simp [isDelim, hmem])]
      rfl
    · rw [if_pos (hiff.mpr hmem), ih hl.tail (Nat.lt_of_succ_lt_succ hn),
        List.takeWhile_cons_of_pos (by simp [isDelim, hmem]), List.length_cons]
      congr 1
      omega

theorem strspn_eq (hl : StrAt m a (pre ++ l)) (hds : StrAt m d ds)
    (hpre : ∀ c ∈ pre, isDelim ds c = true) (hstop : ∀ c, l.head? = some c → isDelim ds c = false) :
    strspn m a d = some pre.length := by
  have hbound := hl.bound
  rw [strspn, strspn_from_eq hl hds (by omega), takeWhile_front hpre hstop, Nat.zero_add]

theorem strcspn_eq (hl : StrAt m a (w ++ rest)) (hds : StrAt m d ds)
    (hword : ∀ c ∈ w, isDelim ds c = false)
    (hrest : ∀ c, rest.head? = some c → isDelim ds c = true) :
    strcspn m a d = some w.length := by
  have hbound := hl.bound
  have hfront : (w ++ rest).takeWhile (fun c => !isDelim ds c) = w :=
    takeWhile_front (fun c hc => by rw [hword c hc]; rfl) fun c hc => by rw [hrest c hc]; rfl
  rw [strcspn, strcspn_from_eq hl hds (by omega), hfront, Nat.zero_add]

/-! ## One call -/

/-- A call with a string begins at it. -/
theorem strtok_start (ha : a ≠ 0) : strtok a d s = strtok 0 d { s with lasts := a } := by
  simp only [strtok, if_pos ha, if_neg ha, ne_eq, not_true_eq_false, if_false]

theorem strtok_null (h0 : s.lasts = 0) : strtok 0 d s = some (0, s) := by
  simp [strtok, h0]

theorem strtok_empty (h0 : s.lasts ≠ 0) (hl : StrAt s.mem s.lasts l) (hds : StrAt s.mem d ds)
    (hall : ∀ c ∈ l, isDelim ds c = true) : strtok 0 d s = some (0, { s with lasts := 0 }) := by
  have hall' : StrAt s.mem s.lasts (l ++ []) := by rwa [List.append_nil]
  have hspn := strspn_eq hall' hds hall fun c hc => by cases hc
  simp only [strtok, ne_eq, not_true_eq_false, if_false, if_neg h0, hspn, Option.bind_some]
  rw [if_pos hl.nul]

/-- **A word is taken.** It is cut off behind, and the next call goes on behind the cut. -/
theorem strtok_word (h0 : s.lasts ≠ 0) (hl : StrAt s.mem s.lasts (pre ++ (w ++ rest)))
    (hds : StrAt s.mem d ds) (hpre : ∀ c ∈ pre, isDelim ds c = true) (hw : w ≠ [])
    (hword : ∀ c ∈ w, isDelim ds c = false)
    (hrest : ∀ c, rest.head? = some c → isDelim ds c = true) :
    ∃ s', strtok 0 d s = some (s.lasts + pre.length, s') ∧
      s'.lasts + rest.tail.length = s.lasts + pre.length + w.length + rest.length ∧
      StrAt s'.mem (s.lasts + pre.length) w ∧ StrAt s'.mem s'.lasts rest.tail ∧
      ∀ x, (x = s.lasts + pre.length + w.length → rest = []) → s'.mem x = s.mem x := by
  obtain ⟨c, t, hct⟩ := List.exists_cons_of_ne_nil hw
  have hspn := strspn_eq hl hds hpre fun e he => by
    rw [hct, List.cons_append, List.head?_cons, Option.some.injEq] at he
    rw [← he]
    exact hword c (by rw [hct]; exact List.mem_cons_self)
  have hl' := hl.drop
  have hcspn := strcspn_eq hl' hds hword hrest
  have hfirst : s.mem (s.lasts + pre.length) ≠ 0 := by
    rw [hct] at hl'
    exact hl'.head_ne_zero
  have hbehind := hl'.drop
  simp only [strtok, ne_eq, not_true_eq_false, if_false, if_neg h0, hspn, hcspn, Option.bind_some,
    if_neg hfirst, Option.map_some]
  cases rest with
  | nil =>
    have hnul : s.mem (s.lasts + pre.length + w.length) = 0 := hbehind.nul
    rw [List.append_nil] at hl'
    refine ⟨{ s with lasts := s.lasts + pre.length + w.length }, ?_, rfl, hl', hbehind,
      fun x _ => rfl⟩
    rw [if_neg (not_not.mpr hnul)]
  | cons c rest =>
    refine ⟨⟨s.mem.poke (s.lasts + pre.length + w.length) 0,
      s.lasts + pre.length + w.length + 1⟩, ?_, ?_, hl'.cut ?_ ?_, ?_, ?_⟩
    · rw [if_pos hbehind.head_ne_zero]
    · simp only [List.length_cons, List.tail_cons]
      omega
    · simp [Mem.poke]
    · intro x _ hx
      simp [Mem.poke, Nat.ne_of_lt hx]
    · refine hbehind.tail.congr fun x hx _ => ?_
      have hne : x ≠ s.lasts + pre.length + w.length := by omega
      simp [Mem.poke, hne]
    · intro x hx
      have hne : x ≠ s.lasts + pre.length + w.length := fun he => List.cons_ne_nil _ _ (hx he)
      simp [Mem.poke, hne]

/-! ## Call after call -/

/-- What is left: the words `ws`, at their addresses, of a string that ends at `e`. -/
def Left (ds : List UInt8) (e : ℕ) (ws : List (ℕ × List UInt8)) (s : State) : Prop :=
  (s.lasts = 0 ∧ ws = []) ∨ ∃ l, s.lasts ≠ 0 ∧ s.lasts + l.length = e ∧ StrAt s.mem s.lasts l ∧
    ws = (words (isDelim ds) l).map (shift s.lasts)

theorem Left.lasts_le {e : ℕ} {ws : List (ℕ × List UInt8)} {r : ℕ × List UInt8}
    (h : Left ds e ws s) (hr : r ∈ ws) : s.lasts ≤ r.1 := by
  obtain ⟨-, rfl⟩ | ⟨l, -, -, -, rfl⟩ := h
  · cases hr
  · obtain ⟨q, -, rfl⟩ := List.mem_map.mp hr
    exact Nat.le_add_right _ _

/-- With no word left, the next call returns `NULL`, and so does the one after it. -/
theorem strtok_left_nil {e : ℕ} (h : Left ds e [] s) (hds : StrAt s.mem d ds) :
    strtok 0 d s = some (0, { s with lasts := 0 }) := by
  obtain ⟨h0, -⟩ | ⟨l, h0, -, hl, hnone⟩ := h
  · rw [strtok_null h0, ← h0]
  · refine strtok_empty h0 hl hds fun c hc => ?_
    by_contra hword
    obtain ⟨pre, w, rest, rfl, hpre, hw, hword, hrest⟩ :=
      exists_word ⟨c, hc, eq_false_of_ne_true hword⟩
    rw [words_append_sep hpre, words_append_word hw hword hrest] at hnone
    cases hnone

/-- The next call returns the first of the words that are left. -/
theorem strtok_left_cons {e : ℕ} {ws : List (ℕ × List UInt8)} {r : ℕ × List UInt8}
    (h : Left ds e (r :: ws) s) (hds : StrAt s.mem d ds) :
    ∃ s', strtok 0 d s = some (r.1, s') ∧ Left ds e ws s' ∧ StrAt s'.mem r.1 r.2 ∧
      (∀ q ∈ ws, r.1 + r.2.length < q.1) ∧
      ∀ x, (x = r.1 + r.2.length → e ≤ x) → s'.mem x = s.mem x := by
  obtain ⟨-, hnil⟩ | ⟨l, h0, he, hl, hws⟩ := h
  · cases hnil
  have hsome : ∃ c ∈ l, isDelim ds c = false := by
    by_contra hall
    push Not at hall
    rw [words_of_sep fun c hc => eq_true_of_ne_false (hall c hc)] at hws
    cases hws
  obtain ⟨pre, w, rest, rfl, hpre, hw, hword, hrest⟩ := exists_word hsome
  obtain ⟨s', hs', hlasts, hwat, hat, hmem⟩ := strtok_word h0 hl hds hpre hw hword hrest
  rw [map_shift_words _ hpre hw hword hrest] at hws
  obtain ⟨rfl, rfl⟩ := List.cons.inj hws
  have hlen : e = s.lasts + pre.length + w.length + rest.length := by
    rw [← he, List.length_append, List.length_append]
    omega
  have hnonzero : s'.lasts ≠ 0 := by
    rw [List.length_tail] at hlasts
    omega
  cases rest with
  | nil =>
    refine ⟨s', hs', .inr ⟨[], hnonzero, ?_, hat, rfl⟩, hwat, ?_, fun x hx => hmem x fun _ => rfl⟩
    · exact hlasts.trans hlen.symm
    · intro q hq
      cases hq
  | cons c rest =>
    have hlasts' : s'.lasts = s.lasts + pre.length + w.length + 1 := by
      rw [List.length_cons, List.tail_cons] at hlasts
      omega
    have hleft : Left ds e ((words (isDelim ds) (c :: rest)).map
        (shift (s.lasts + pre.length + w.length))) s' := by
      refine .inr ⟨rest, hnonzero, ?_, hat, ?_⟩
      · rw [List.length_cons] at hlen
        omega
      · rw [hlasts', map_shift_words_cons _ (hrest c rfl)]
    refine ⟨s', hs', hleft, hwat, fun q hq => ?_, fun x hx => hmem x fun hcut => ?_⟩
    · have := hleft.lasts_le hq
      simp only
      omega
    · have := hx hcut
      rw [List.length_cons] at hlen
      omega

/-- The pointer that the call `k` returns: the word `k`, or `NULL`. -/
def pointer (ws : List (ℕ × List UInt8)) (k : ℕ) : ℕ := (ws[k]?).elim 0 Prod.fst

theorem range_pointer {r : ℕ × List UInt8} {ws : List (ℕ × List UInt8)} :
    (List.range (n + 1)).map (pointer (r :: ws)) = r.1 :: (List.range n).map (pointer ws) := by
  rw [List.range_succ_eq_map, List.map_cons, List.map_map]
  rfl

theorem range_pointer_nil : (List.range (n + 1)).map (pointer []) =
    0 :: (List.range n).map (pointer []) := by
  rw [List.range_succ_eq_map, List.map_cons, List.map_map]
  rfl

/-- No cut is made in the set of delimiters. -/
def Keeps (d len e : ℕ) (ws : List (ℕ × List UInt8)) : Prop :=
  ∀ r ∈ ws, r.1 + r.2.length < e → r.1 + r.2.length < d ∨ d + len < r.1 + r.2.length

theorem StrAt.keep {e : ℕ} {r : ℕ × List UInt8} (hds : StrAt m d ds)
    (hkeep : r.1 + r.2.length < e → r.1 + r.2.length < d ∨ d + ds.length < r.1 + r.2.length)
    (hmem : ∀ x, (x = r.1 + r.2.length → e ≤ x) → m' x = m x) : StrAt m' d ds := by
  refine hds.congr fun x hx hx' => hmem x fun hcut => ?_
  by_contra hlt
  have := hkeep (by omega)
  omega

/-- **Call after call.** The pointers are those of the words that are left, and then `NULL`; no
byte changes but those behind the words; the words that were returned are strings at the end. -/
theorem strtok_next_spec {e : ℕ} {ws : List (ℕ × List UInt8)} (h : Left ds e ws s)
    (hds : StrAt s.mem d ds) (hkeep : Keeps d ds.length e ws) :
    ∃ s', strtok_next d n s = some ((List.range n).map (pointer ws), s') ∧
      (∀ x, (∀ r ∈ ws, x = r.1 + r.2.length → e ≤ x) → s'.mem x = s.mem x) ∧
      ∀ k < n, ∀ r, ws[k]? = some r → StrAt s'.mem r.1 r.2 := by
  induction n generalizing s ws with
  | zero => exact ⟨s, rfl, fun _ _ => rfl, fun k hk => absurd hk (Nat.not_lt_zero k)⟩
  | succ n ih =>
    cases ws with
    | nil =>
      have hleft : Left ds e [] { s with lasts := 0 } := .inl ⟨rfl, rfl⟩
      obtain ⟨s', hs', hmem, -⟩ := ih hleft hds hkeep
      refine ⟨s', ?_, hmem, fun k _ r hr => by cases hr⟩
      rw [strtok_next, strtok_left_nil h hds, Option.bind_some, hs', range_pointer_nil]
      rfl
    | cons r ws =>
      obtain ⟨s₁, hs₁, hleft, hat, hbehind, hmem₁⟩ := strtok_left_cons h hds
      obtain ⟨s', hs', hmem, hwords⟩ := ih hleft (hds.keep (hkeep r List.mem_cons_self) hmem₁)
        fun q hq => hkeep q (List.mem_cons_of_mem r hq)
      refine ⟨s', ?_, ?_, ?_⟩
      · rw [strtok_next, hs₁, Option.bind_some, hs', range_pointer]
        rfl
      · intro x hx
        rw [hmem x fun q hq => hx q (List.mem_cons_of_mem r hq), hmem₁ x (hx r List.mem_cons_self)]
      · intro k hk q hq
        cases k with
        | zero =>
          -- the cuts of the later calls are behind the word
          obtain rfl := Option.some.inj hq
          refine hat.congr fun x _ hx => hmem x fun q hq hcut => ?_
          have := hbehind q hq
          omega
        | succ k => exact hwords k (by omega) q hq

/-- **`strtok` takes the words of a string.** The calls `strtok(s, d)`, `strtok(NULL, d)`, …
return, in order, the maximal runs of characters that are not in the set, each with a NUL behind
it, and then `NULL`, as often as they are made. A word is the same string after all calls. The set
of delimiters has to stay: no cut is made in it. -/
theorem strtok_words (ha : a ≠ 0) (hl : StrAt s.mem a l) (hds : StrAt s.mem d ds)
    (hkeep : Keeps d ds.length (a + l.length) ((words (isDelim ds) l).map (shift a))) (n : ℕ) :
    ∃ s', strtok_calls a d n s =
        some ((List.range (n + 1)).map (pointer ((words (isDelim ds) l).map (shift a))), s') ∧
      ∀ k ≤ n, ∀ r, (words (isDelim ds) l)[k]? = some r → StrAt s'.mem (a + r.1) r.2 := by
  have hleft : Left ds (a + l.length) ((words (isDelim ds) l).map (shift a))
      { s with lasts := a } := .inr ⟨l, ha, rfl, hl, rfl⟩
  obtain ⟨s', hs', -, hwords⟩ := strtok_next_spec (n := n + 1) hleft hds hkeep
  refine ⟨s', ?_, fun k hk r hr => ?_⟩
  · rw [strtok_calls, strtok_start ha]
    exact hs'
  · refine hwords k (by omega) (shift a r) ?_
    rw [List.getElem?_map, hr]
    rfl

/-- The set `", "` at 1, and the string `",ab  c,"` at 4. -/
def two_words : Mem := fun x => [0, 44, 32, 0, 44, 97, 98, 32, 32, 99, 44, 0].getD x 0

theorem strtok_words_two : ∃ s', strtok_calls 4 1 3 ⟨two_words, 0⟩ = some ([5, 9, 0, 0], s') ∧
    StrAt s'.mem 5 [97, 98] ∧ StrAt s'.mem 9 [99] := by
  have hl : StrAt two_words 4 [44, 97, 98, 32, 32, 99, 44] :=
    ⟨by decide, by decide, by decide, by decide⟩
  have hds : StrAt two_words 1 [44, 32] := ⟨by decide, by decide, by decide, by decide⟩
  obtain ⟨s', hs', hwords⟩ := strtok_words (s := ⟨two_words, 0⟩) (by decide) hl hds
    (by unfold Keeps; decide) 3
  exact ⟨s', hs', hwords 0 (by decide) (1, [97, 98]) (by decide),
    hwords 1 (by decide) (5, [99]) (by decide)⟩

end Loos.Strtok
