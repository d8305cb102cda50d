/-
Lists that are cut after every `k` elements.

When each list of a row is cut like this, the pieces of all of them are again a row. It is the
row that was cut as long as no list was longer than `k` ([`flatMap_pieces_eq_iff`]). Which row
it was can be told from the pieces exactly if none of them, except the last, is full
([`exists_merged`], [`length_le_of_flatMap`]): a full piece may as well be the beginning of a
longer list.
-/
import Mathlib.Data.List.Basic
import Mathlib.Tactic.Common

set_option autoImplicit false

namespace SysLib

variable {α : Type*} {k : ℕ} {l m : List α} {ls ls' : List (List α)}

/-- The pieces of a list: all but the last have `k` elements. -/
def pieces (k : ℕ) (l : List α) : List (List α) :=
  if h : l = [] ∨ k = 0 then []
  else
    have : (l.drop k).length < l.length := by
      have := List.length_pos_iff.mpr (not_or.mp h).1
      rw [List.length_drop]
      omega
    l.take k :: pieces k (l.drop k)
termination_by l.length

@[simp] theorem pieces_nil : pieces k ([] : List α) = [] := by
  rw [pieces, dif_pos (.inl rfl)]

theorem pieces_of_ne_nil (hk : 0 < k) (hl : l ≠ []) :
    pieces k l = l.take k :: pieces k (l.drop k) := by
  rw [pieces, dif_neg (not_or.mpr ⟨hl, Nat.ne_of_gt hk⟩)]

/-- What fits into one piece is one. -/
theorem pieces_of_length_le (hl : l ≠ []) (hle : l.length ≤ k) : pieces k l = [l] := by
  have hk : 0 < k := Nat.lt_of_lt_of_le (List.length_pos_iff.mpr hl) hle
  rw [pieces_of_ne_nil hk hl, List.take_of_length_le hle, List.drop_of_length_le hle, pieces_nil]

/-- A full piece in front. -/
theorem pieces_append (hk : 0 < k) (hl : l.length = k) : pieces k (l ++ m) = l :: pieces k m := by
  have hne : l ++ m ≠ [] := by
    intro h
    rw [(List.append_eq_nil_iff.mp h).1] at hl
    exact Nat.ne_of_lt hk hl
  rw [pieces_of_ne_nil hk hne, List.take_left' hl, List.drop_left' hl]

theorem length_le_of_mem_pieces (h : m ∈ pieces k l) : m.length ≤ k := by
  fun_induction pieces k l with
  | case1 l hl => cases h
  | case2 l hl this ih =>
    rcases List.mem_cons.mp h with rfl | h
    · exact List.length_take_le k l
    · exact ih h

/-- **Nothing is cut** as long as every list fits into one piece. -/
theorem flatMap_pieces_eq_iff (hne : ∀ l ∈ ls, l ≠ []) :
    ls.flatMap (pieces k) = ls ↔ ∀ l ∈ ls, l.length ≤ k := by
  constructor
  · intro h l hl
    rw [← h] at hl
    obtain ⟨l', -, hmem⟩ := List.mem_flatMap.mp hl
    exact length_le_of_mem_pieces hmem
  · intro h
    induction ls with
    | nil => rfl
    | cons l ls ih =>
      rw [List.forall_mem_cons] at hne h
      rw [List.flatMap_cons, pieces_of_length_le hne.1 h.1, ih hne.2 h.2]
      rfl

/-- A long list leaves a full piece with another one behind it. -/
theorem length_le_of_flatMap (hk : 0 < k)
    (hls : ∀ l ∈ (ls'.flatMap (pieces k)).dropLast, l.length < k) (hl : l ∈ ls') :
    l.length ≤ k := by
  by_contra hlt
  obtain ⟨pre, post, rfl⟩ := List.append_of_mem hl
  have hne : l ≠ [] := by
    rintro rfl
    exact hlt (Nat.zero_le k)
  -- the first piece is full, and as something is left it is not the last
  have hrest : l.drop k ≠ [] := by
    rw [ne_eq, List.drop_eq_nil_iff]
    exact hlt
  have hfull : (l.take k).length = k := by
    rw [List.length_take]
    omega
  have hmem : l.take k ∈ ((pre ++ l :: post).flatMap (pieces k)).dropLast := by
    rw [List.flatMap_append, List.flatMap_cons, pieces_of_ne_nil hk hne, pieces_of_ne_nil hk hrest]
    rw [List.dropLast_append_of_ne_nil (by simp)]
    simp
  exact absurd hfull (Nat.ne_of_lt (hls _ hmem))

/-- A full list and the one behind it have the pieces of a single list. -/
theorem exists_merged (hk : 0 < k) (hne : ∀ l ∈ ls, l ≠ []) (hle : ∀ l ∈ ls, l.length ≤ k)
    (hl : l ∈ ls.dropLast) (hfull : l.length = k) :
    ∃ pre m post, ls = pre ++ l :: m :: post ∧
      (pre ++ (l ++ m) :: post).flatMap (pieces k) = ls := by
  obtain ⟨pre, post, hcut⟩ := List.append_of_mem hl
  have hnil : ls ≠ [] := by
    rintro rfl
    cases hl
  have hls : ls = pre ++ l :: (post ++ [ls.getLast hnil]) := by
    conv_lhs => rw [← List.dropLast_append_getLast hnil, hcut]
    simp
  obtain ⟨m, post', hpost⟩ := List.exists_cons_of_ne_nil
    (List.append_ne_nil_of_right_ne_nil post (List.cons_ne_nil (ls.getLast hnil) []))
  rw [hpost] at hls
  refine ⟨pre, m, post', hls, ?_⟩
  have hpieces := (flatMap_pieces_eq_iff hne).mpr hle
  rw [hls] at hpieces hne hle ⊢
  rw [← hpieces]
  simp only [List.flatMap_append, List.flatMap_cons, pieces_append hk hfull]
  rw [pieces_of_length_le (hne l (by simp)) (hle l (by simp))]
  simp

end SysLib
