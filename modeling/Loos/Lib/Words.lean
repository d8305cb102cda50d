/-
The words of a list: its maximal runs of elements that are no separators.

A word is given by its position and its elements. Separators in front move the words
([`words_append_sep`]), and a word in front is one of them ([`words_append_word`]), so a program
that skips the separators, takes a word and goes on behind it finds them in order.
-/
import Mathlib.Data.List.Basic
import Mathlib.Data.List.TakeWhile
import Mathlib.Tactic.Common

set_option autoImplicit false

namespace SysLib

variable {α : Type*} {sep : α → Bool} {l pre w rest : List α} {j : ℕ}

/-- A word begins at the index `i`: no separator is there, and none but a separator before. -/
def begins (sep : α → Bool) (l : List α) (i : ℕ) : Bool :=
  l[i]?.any (fun c => !sep c) && (i = 0 || l[i - 1]?.any sep)

/-- The words, in order, each with its position. -/
def words (sep : α → Bool) (l : List α) : List (ℕ × List α) :=
  ((List.range l.length).filter (begins sep l)).map fun i =>
    (i, (l.drop i).takeWhile fun c => !sep c)

/-- A word that is moved. -/
def shift (k : ℕ) (r : ℕ × List α) : ℕ × List α := (k + r.1, r.2)

@[simp] theorem words_nil : words sep [] = [] := rfl

theorem shift_shift (j k : ℕ) (r : ℕ × List α) : shift j (shift k r) = shift (j + k) r := by
  simp only [shift, Nat.add_assoc]

/-- The front part of a list ends where the condition does. -/
theorem takeWhile_front {p : α → Bool} (hpre : ∀ c ∈ pre, p c = true)
    (hstop : ∀ c, l.head? = some c → p c = false) : (pre ++ l).takeWhile p = pre := by
  rw [List.takeWhile_append_of_pos hpre]
  cases l with
  | nil => rw [List.takeWhile_nil, List.append_nil]
  | cons c l =>
    have hc : ¬ p c = true := by
      rw [hstop c rfl]
      exact Bool.false_ne_true
    rw [List.takeWhile_cons_of_neg hc, List.append_nil]

/-- Words of the front part, and behind it those of the rest, moved. -/
theorem words_append (hl : ∀ j, begins sep (pre ++ l) (pre.length + j) = begins sep l j) :
    words sep (pre ++ l) = (((List.range pre.length).filter (begins sep (pre ++ l))).map fun i =>
      (i, ((pre ++ l).drop i).takeWhile fun c => !sep c)) ++
        (words sep l).map (shift pre.length) := by
  rw [words, List.length_append, List.range_add, List.filter_append, List.map_append]
  congr 1
  have hfilter : begins sep (pre ++ l) ∘ (pre.length + ·) = begins sep l := funext hl
  rw [List.filter_map, hfilter, List.map_map, words, List.map_map]
  apply List.map_congr_left
  intro j _
  simp only [Function.comp_apply, shift]
  rw [List.drop_append, List.drop_eq_nil_of_le (Nat.le_add_right _ _), List.nil_append,
    Nat.add_sub_cancel_left]

/-- Where a word begins does not depend on a front part that ends as a list may begin. -/
theorem begins_append (hfirst : begins sep (pre ++ l) pre.length = begins sep l 0) :
    begins sep (pre ++ l) (pre.length + j) = begins sep l j := by
  cases j with
  | zero => exact hfirst
  | succ j =>
    rw [begins, begins, List.getElem?_append_right (by omega),
      List.getElem?_append_right (by omega), Nat.add_sub_cancel_left,
      show pre.length + (j + 1) - 1 - pre.length = j by omega]
    simp

theorem words_append_sep (hpre : ∀ c ∈ pre, sep c = true) :
    words sep (pre ++ l) = (words sep l).map (shift pre.length) := by
  have hnone : (List.range pre.length).filter (begins sep (pre ++ l)) = [] := by
    rw [List.filter_eq_nil_iff]
    intro i hi
    have hi := List.mem_range.mp hi
    rw [begins, List.getElem?_append_left hi, List.getElem?_eq_getElem hi, Option.any_some,
      hpre _ (List.getElem_mem hi)]
    simp
  rw [words_append fun j => begins_append ?_, hnone, List.map_nil, List.nil_append]
  rw [begins, begins, List.getElem?_append_right (le_refl _), Nat.sub_self]
  congr 1
  -- what is before the first element is nothing, or a separator
  by_cases h0 : pre.length = 0
  · simp [h0]
  · have hlast : pre.length - 1 < pre.length := by omega
    rw [List.getElem?_append_left hlast, List.getElem?_eq_getElem hlast, Option.any_some,
      hpre _ (List.getElem_mem hlast)]
    simp

/-- There is no word in separators. -/
theorem words_of_sep (hall : ∀ c ∈ l, sep c = true) : words sep l = [] := by
  have hnone : words sep (l ++ []) = _ := words_append_sep hall
  rwa [List.append_nil, words_nil, List.map_nil] at hnone

/-- A list that is not all separators is separators, a word, and what begins with a separator or
is empty. -/
theorem exists_word (hl : ∃ c ∈ l, sep c = false) : ∃ pre w rest, l = pre ++ (w ++ rest) ∧
    (∀ c ∈ pre, sep c = true) ∧ w ≠ [] ∧ (∀ c ∈ w, sep c = false) ∧
    ∀ c, rest.head? = some c → sep c = true := by
  obtain ⟨c, t, hdrop⟩ : ∃ c t, l.dropWhile sep = c :: t := by
    refine List.exists_cons_of_ne_nil fun hnil => ?_
    obtain ⟨c, hc, hfalse⟩ := hl
    rw [List.dropWhile_eq_nil_iff.mp hnil c hc] at hfalse
    cases hfalse
  have hc : sep c = false := by
    have hhead := List.head?_dropWhile_not sep l
    rwa [hdrop] at hhead
  refine ⟨l.takeWhile sep, (c :: t).takeWhile fun c => !sep c,
    (c :: t).dropWhile fun c => !sep c, ?_, ?_, ?_, ?_, ?_⟩
  · rw [List.takeWhile_append_dropWhile, ← hdrop, List.takeWhile_append_dropWhile]
  · exact fun e he => List.mem_takeWhile_imp he
  · rw [List.takeWhile_cons_of_pos (by rw [hc]; rfl)]
    exact List.cons_ne_nil _ _
  · intro e he
    simpa using List.mem_takeWhile_imp he
  · intro e he
    have hhead := List.head?_dropWhile_not (fun c => !sep c) (c :: t)
    rw [he] at hhead
    simpa using hhead

theorem words_append_word (hw : w ≠ []) (hword : ∀ c ∈ w, sep c = false)
    (hrest : ∀ c, rest.head? = some c → sep c = true) :
    words sep (w ++ rest) = (0, w) :: (words sep rest).map (shift w.length) := by
  have hpos := List.length_pos_iff.mpr hw
  have hin : ∀ i < w.length, (w ++ rest)[i]?.any sep = false := by
    intro i hi
    rw [List.getElem?_append_left hi, List.getElem?_eq_getElem hi, Option.any_some,
      hword _ (List.getElem_mem hi)]
  have hfirst : begins sep (w ++ rest) 0 = true := by
    rw [begins, List.getElem?_append_left hpos, List.getElem?_eq_getElem hpos, Option.any_some,
      hword _ (List.getElem_mem hpos)]
    rfl
  have hothers : ∀ i < w.length, i ≠ 0 → begins sep (w ++ rest) i = false := by
    intro i hi h0
    rw [begins, hin (i - 1) (by omega)]
    simp [h0]
  have hone : (List.range w.length).filter (begins sep (w ++ rest)) = [0] := by
    obtain ⟨k, hk⟩ := Nat.exists_eq_succ_of_ne_zero (Nat.ne_of_gt hpos)
    rw [hk, List.range_succ_eq_map, List.filter_cons, if_pos hfirst, List.filter_eq_nil_iff.mpr]
    intro i hi
    obtain ⟨j, hj, rfl⟩ := List.mem_map.mp hi
    rw [hothers (j + 1) (by have := List.mem_range.mp hj; omega) (Nat.succ_ne_zero j)]
    decide
  have htake : (w ++ rest).takeWhile (fun c => !sep c) = w :=
    takeWhile_front (fun c hc => by rw [hword c hc]; rfl) fun c hc => by rw [hrest c hc]; rfl
  rw [words_append fun j => begins_append ?_, hone, List.map_singleton, List.drop_zero, htake]
  · rfl
  · -- no word begins with a separator
    rw [begins, begins, hin (w.length - 1) (by omega),
      List.getElem?_append_right (le_refl _), Nat.sub_self]
    cases rest with
    | nil => rfl
    | cons c rest => simp [hrest c rfl]

/-- The first word behind separators, and the words behind it. -/
theorem map_shift_words (k : ℕ) (hpre : ∀ c ∈ pre, sep c = true) (hw : w ≠ [])
    (hword : ∀ c ∈ w, sep c = false) (hrest : ∀ c, rest.head? = some c → sep c = true) :
    (words sep (pre ++ (w ++ rest))).map (shift k) = (k + pre.length, w) ::
      (words sep rest).map (shift (k + pre.length + w.length)) := by
  rw [words_append_sep hpre, words_append_word hw hword hrest, List.map_map, List.map_cons,
    List.map_map]
  congr 1
  refine List.map_congr_left fun q _ => ?_
  rw [Function.comp_apply, Function.comp_apply, shift_shift, shift_shift, Nat.add_assoc]

/-- The words behind a separator. -/
theorem map_shift_words_cons (k : ℕ) {c : α} (hc : sep c = true) :
    (words sep (c :: rest)).map (shift k) = (words sep rest).map (shift (k + 1)) := by
  have hsep : ∀ b ∈ [c], sep b = true := fun b hb => by rwa [List.mem_singleton.mp hb]
  have hwords : words sep ([c] ++ rest) = _ := words_append_sep hsep
  rw [List.singleton_append] at hwords
  rw [hwords, List.map_map]
  exact List.map_congr_left fun q _ => shift_shift k 1 q

end SysLib
