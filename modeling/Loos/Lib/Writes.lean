/-
Sequences of writes to a row of cells.

A write puts a list of values from an address on. Writes to ranges that are apart do not
disturb each other, so each of them can be read back when all have been made
([`holds_overwrites`]). A cell may be empty: what is written is there in any case.
-/
import Mathlib.Data.List.Basic
import Mathlib.Tactic.Common

set_option autoImplicit false

namespace SysLib.Cells

variable {β : Type*}

/-- A write: where, and what. -/
abbrev Write (β : Type*) := ℕ × List β

/-- The cells after a write. -/
def overwrite (v : ℕ → Option β) (w : Write β) : ℕ → Option β := fun y =>
  if w.1 ≤ y ∧ y < w.1 + w.2.length then w.2[y - w.1]? else v y

/-- The cells after several writes. -/
def overwrites (v : ℕ → Option β) (ws : List (Write β)) : ℕ → Option β := ws.foldl overwrite v

/-- The values `l` are in the cells from `a` on. -/
def Holds (v : ℕ → Option β) (a : ℕ) (l : List β) : Prop := ∀ i < l.length, v (a + i) = l[i]?

/-- Two ranges, given by their beginnings and lengths, have no cell in common. -/
def Separate (r r' : ℕ × ℕ) : Prop := r.1 + r.2 ≤ r'.1 ∨ r'.1 + r'.2 ≤ r.1

/-- The range of a write. -/
def Write.range (w : Write β) : ℕ × ℕ := (w.1, w.2.length)

variable {v : ℕ → Option β} {w w' : Write β} {ws ws' : List (Write β)} {a y : ℕ} {l : List β}

theorem overwrites_cons : overwrites v (w :: ws) = overwrites (overwrite v w) ws := rfl

theorem overwrites_append : overwrites v (ws ++ ws') = overwrites (overwrites v ws) ws' :=
  List.foldl_append

/-- A write leaves no cell empty that was not. -/
theorem overwrite_ne_none (h : v y ≠ none) : overwrite v w y ≠ none := by
  unfold overwrite
  split_ifs with hin
  · rw [List.getElem?_eq_getElem (by omega)]
    exact Option.some_ne_none _
  · exact h

theorem overwrites_ne_none (h : v y ≠ none) : overwrites v ws y ≠ none := by
  induction ws generalizing v with
  | nil => exact h
  | cons w ws ih => exact ih (overwrite_ne_none h)

theorem holds_overwrite : Holds (overwrite v w) w.1 w.2 := by
  intro i hi
  rw [overwrite, if_pos (by omega), Nat.add_sub_cancel_left]

/-- What was written before is kept by a write that is apart from it. -/
theorem Holds.overwrite (h : Holds v a l) (hap : Separate (a, l.length) w.range) :
    Holds (Cells.overwrite v w) a l := by
  intro i hi
  rw [Cells.overwrite, if_neg, h i hi]
  unfold Separate Write.range at hap
  dsimp only at hap
  omega

theorem Holds.overwrites (h : Holds v a l) (hap : ∀ w ∈ ws, Separate (a, l.length) w.range) :
    Holds (Cells.overwrites v ws) a l := by
  induction ws generalizing v with
  | nil => exact h
  | cons w ws ih =>
    refine ih (h.overwrite (hap w List.mem_cons_self)) ?_
    intro w' hw'
    exact hap w' (List.mem_cons_of_mem _ hw')

/-- **Writes that are apart are all there at the end.** -/
theorem holds_overwrites (hp : ws.Pairwise fun w w' => Separate w.range w'.range) (hw : w ∈ ws) :
    Holds (Cells.overwrites v ws) w.1 w.2 := by
  induction ws generalizing v with
  | nil => cases hw
  | cons w₀ ws ih =>
    obtain ⟨hhead, htail⟩ := List.pairwise_cons.mp hp
    rw [overwrites_cons]
    rcases List.mem_cons.mp hw with rfl | hw
    · exact holds_overwrite.overwrites hhead
    · exact ih htail hw

end SysLib.Cells
