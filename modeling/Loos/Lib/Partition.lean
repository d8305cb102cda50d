/-
Sorting by partition.

An array is a function on its indices, and a program that sorts a part of it only exchanges
elements ([`Rearranged`]). Two cursors that move inwards part the array by a pivot ([`Parted`]):
what is before the lower one is not above the pivot, and what is behind the upper one is. Once the
two parts around the pivot are sorted, the whole is ([`sorted_of_parts`]). The order is a total
preorder, of the elements of the array only.
-/
import Mathlib.Data.List.Nodup
import Mathlib.Logic.Equiv.Basic
import Mathlib.Order.Nat
import Mathlib.Tactic.Common

set_option autoImplicit false

namespace SysLib

variable {α : Type*} {le : α → α → Prop} {S P : α → Prop} {p : α} {f g g₁ g₂ : ℕ → α}
  {lo mid hi lo' hi' i j n : ℕ}

/-! ## Rearrangements -/

/-- The elements from `lo` up to `hi` in another order, and the others where they were. -/
def Rearranged (lo hi : ℕ) (f g : ℕ → α) : Prop :=
  ∃ σ : Equiv.Perm ℕ, (∀ k, k < lo ∨ hi ≤ k → σ k = k) ∧ g = f ∘ σ

theorem Rearranged.refl : Rearranged lo hi f f := ⟨Equiv.refl ℕ, fun _ _ => rfl, rfl⟩

theorem Rearranged.trans (h : Rearranged lo hi f g) (h' : Rearranged lo hi g g₁) :
    Rearranged lo hi f g₁ := by
  obtain ⟨σ, hσ, rfl⟩ := h
  obtain ⟨τ, hτ, rfl⟩ := h'
  refine ⟨τ.trans σ, fun k hk => ?_, rfl⟩
  rw [Equiv.trans_apply, hτ k hk, hσ k hk]

theorem Rearranged.mono (h : Rearranged lo hi f g) (hlo : lo' ≤ lo) (hhi : hi ≤ hi') :
    Rearranged lo' hi' f g := by
  obtain ⟨σ, hσ, rfl⟩ := h
  exact ⟨σ, fun k hk => hσ k (by omega), rfl⟩

theorem rearranged_swap (hi₁ : lo ≤ i) (hi₂ : i < hi) (hj₁ : lo ≤ j) (hj₂ : j < hi) :
    Rearranged lo hi f (f ∘ Equiv.swap i j) :=
  ⟨Equiv.swap i j, fun k hk => Equiv.swap_apply_of_ne_of_ne (by omega) (by omega), rfl⟩

theorem Rearranged.outside (h : Rearranged lo hi f g) {k : ℕ} (hk : k < lo ∨ hi ≤ k) :
    g k = f k := by
  obtain ⟨σ, hσ, rfl⟩ := h
  rw [Function.comp_apply, hσ k hk]

/-- A permutation that leaves the indices outside keeps those inside there. -/
theorem inside_iff {σ : Equiv.Perm ℕ} (hσ : ∀ k, k < lo ∨ hi ≤ k → σ k = k) {k : ℕ} :
    (lo ≤ σ k ∧ σ k < hi) ↔ lo ≤ k ∧ k < hi := by
  constructor
  · intro hin
    by_contra hout
    have := hσ k (by omega)
    omega
  · intro hin
    by_contra hout
    have := σ.injective (hσ (σ k) (by omega))
    omega

/-- What holds of all elements of the part holds of them in another order. -/
theorem Rearranged.forall (h : Rearranged lo hi f g) (hf : ∀ k, lo ≤ k → k < hi → P (f k)) :
    ∀ k, lo ≤ k → k < hi → P (g k) := by
  obtain ⟨σ, hσ, rfl⟩ := h
  intro k hlo hhi
  obtain ⟨hlo', hhi'⟩ := (inside_iff hσ).mpr ⟨hlo, hhi⟩
  exact hf _ hlo' hhi'

theorem Rearranged.perm (h : Rearranged 0 n f g) :
    ((List.range n).map g).Perm ((List.range n).map f) := by
  obtain ⟨σ, hσ, rfl⟩ := h
  have hmap : ∀ k, σ k < n ↔ k < n := fun k => by simpa using inside_iff hσ (k := k)
  have hrange : ((List.range n).map σ).Perm (List.range n) := by
    refine (List.perm_ext_iff_of_nodup (List.nodup_range.map σ.injective) List.nodup_range).mpr ?_
    intro k
    rw [List.mem_map, List.mem_range]
    constructor
    · rintro ⟨k, hk, rfl⟩
      exact (hmap k).mpr (List.mem_range.mp hk)
    · intro hk
      refine ⟨σ.symm k, List.mem_range.mpr ?_, σ.apply_symm_apply k⟩
      rwa [← hmap, σ.apply_symm_apply]
  rw [← List.map_map]
  exact hrange.map f

/-! ## Two cursors and a pivot -/

/-- The cursors are at `i` and `j`: before `i` no element is above the pivot, and behind `j` every
element is. -/
structure Parted (le : α → α → Prop) (p : α) (lo hi i j : ℕ) (f : ℕ → α) : Prop where
  low : ∀ k, lo ≤ k → k < i → le (f k) p
  high : ∀ k, j < k → k < hi → ¬ le (f k) p

theorem Parted.start : Parted le p lo hi lo (hi - 1) f :=
  ⟨fun k hlo hk => by omega, fun k hk hhi => by omega⟩

theorem Parted.left (h : Parted le p lo hi i j f) (hle : le (f i) p) :
    Parted le p lo hi (i + 1) j f := by
  refine ⟨fun k hlo hk => ?_, h.high⟩
  rcases Nat.lt_succ_iff_lt_or_eq.mp hk with hlt | rfl
  · exact h.low k hlo hlt
  · exact hle

theorem Parted.right (h : Parted le p lo hi i (j + 1) f) (hle : ¬ le (f (j + 1)) p) :
    Parted le p lo hi i j f := by
  refine ⟨h.low, fun k hk hhi => ?_⟩
  rcases Nat.lt_or_eq_of_le (Nat.succ_le_of_lt hk) with hlt | rfl
  · exact h.high k hlt hhi
  · exact hle

/-- The elements at the cursors are exchanged, and both cursors move. -/
theorem Parted.swap (h : Parted le p lo hi i (j + 1) f) (hij : i ≤ j) (habove : ¬ le (f i) p)
    (hbelow : le (f (j + 1)) p) : Parted le p lo hi (i + 1) j (f ∘ Equiv.swap i (j + 1)) := by
  refine ⟨fun k hlo hk => ?_, fun k hk hhi => ?_⟩
  · rcases Nat.lt_succ_iff_lt_or_eq.mp hk with hlt | rfl
    · rw [Function.comp_apply, Equiv.swap_apply_of_ne_of_ne (by omega) (by omega)]
      exact h.low k hlo hlt
    · rwa [Function.comp_apply, Equiv.swap_apply_left]
  · rcases Nat.lt_or_eq_of_le (Nat.succ_le_of_lt hk) with hlt | rfl
    · rw [Function.comp_apply, Equiv.swap_apply_of_ne_of_ne (by omega) (by omega)]
      exact h.high k hlt hhi
    · rwa [Function.comp_apply, Equiv.swap_apply_right]

/-- The cursors have met, and the pivot, the first element, takes the place between the parts. -/
theorem Parted.pivot (hlo : lo ≤ j) (h : Parted le (f lo) (lo + 1) hi (j + 1) j f) :
    Parted le (f lo) lo hi j j (f ∘ Equiv.swap lo j) := by
  refine ⟨fun k hlo hk => ?_, fun k hk hhi => ?_⟩
  · rcases Nat.eq_or_lt_of_le hlo with rfl | hlt
    · rw [Function.comp_apply, Equiv.swap_apply_left]
      exact h.low j hk (Nat.lt_succ_self j)
    · rw [Function.comp_apply, Equiv.swap_apply_of_ne_of_ne (by omega) (by omega)]
      exact h.low k hlt (by omega)
  · rw [Function.comp_apply, Equiv.swap_apply_of_ne_of_ne (by omega) (by omega)]
    exact h.high k hk hhi

/-! ## Sorted parts -/

/-- A total preorder of the elements that satisfy `S`. -/
structure PreorderOn (S : α → Prop) (le : α → α → Prop) : Prop where
  total : ∀ x y, S x → S y → le x y ∨ le y x
  trans : ∀ x y z, S x → S y → S z → le x y → le y z → le x z

/-- The elements from `lo` up to `hi` are sorted. -/
def SortedOn (le : α → α → Prop) (lo hi : ℕ) (f : ℕ → α) : Prop :=
  ∀ i j, lo ≤ i → i < j → j < hi → le (f i) (f j)

theorem sortedOn_of_le (h : hi ≤ lo + 1) : SortedOn le lo hi f := by
  intro i j hi hij hj
  omega

/-- A part is sorted if its front, with nothing above the pivot, and its back, with nothing below
it, are. -/
theorem SortedOn.glue (hle : PreorderOn S le) (hS : ∀ k, lo ≤ k → k < hi → S (f k))
    (hmid : lo ≤ mid) (hmid' : mid < hi) (hlow : ∀ k, lo ≤ k → k < mid → le (f k) (f mid))
    (hhigh : ∀ k, mid < k → k < hi → le (f mid) (f k)) (hfront : SortedOn le lo mid f)
    (hback : SortedOn le (mid + 1) hi f) : SortedOn le lo hi f := by
  intro i j hi hij hj
  rcases Nat.lt_trichotomy j mid with hlt | rfl | hgt
  · exact hfront i j hi hij hlt
  · exact hlow i hi hij
  · rcases Nat.lt_trichotomy i mid with hlt' | rfl | hgt'
    · exact hle.trans _ _ _ (hS i hi (by omega)) (hS mid hmid hmid') (hS j (by omega) hj)
        (hlow i hi hlt') (hhigh j hgt hj)
    · exact hhigh j hgt hj
    · exact hback i j hgt' hij hj

/-- **The two parts of a partition are sorted one after the other.** -/
theorem sorted_of_parts (hle : PreorderOn S le) (hS : ∀ k, lo ≤ k → k < hi → S (f k))
    (hmid : lo ≤ mid) (hmid' : mid < hi) (hpart : Parted le (f mid) lo hi mid mid f)
    (hfront : Rearranged lo mid f g₁) (hsorted₁ : SortedOn le lo mid g₁)
    (hback : Rearranged (mid + 1) hi g₁ g₂) (hsorted₂ : SortedOn le (mid + 1) hi g₂) :
    Rearranged lo hi f g₂ ∧ SortedOn le lo hi g₂ := by
  have hmove : Rearranged lo hi f g₂ :=
    (hfront.mono (le_refl lo) hmid'.le).trans (hback.mono (by omega) (le_refl hi))
  have hpivot : g₂ mid = f mid := by
    rw [hback.outside (.inl (Nat.lt_succ_self mid)), hfront.outside (.inr (le_refl mid))]
  refine ⟨hmove, .glue hle (hmove.forall hS) hmid hmid' ?_ ?_ ?_ hsorted₂⟩
  · intro k hlo hk
    rw [hpivot, hback.outside (.inl (by omega))]
    exact hfront.forall (P := fun x => le x (f mid)) hpart.low k hlo hk
  · rw [hpivot]
    refine fun k hk => hback.forall (P := fun x => le (f mid) x) (fun k hk hhi => ?_) k hk
    rw [hfront.outside (.inr (by omega))]
    exact (hle.total _ _ (hS k (by omega) hhi) (hS mid hmid hmid')).resolve_left
      (hpart.high k hk hhi)
  · intro i j hi hij hj
    rw [hback.outside (.inl (by omega)), hback.outside (.inl (by omega))]
    exact hsorted₁ i j hi hij hj

end SysLib
