/-
Radix trees in memory: tables of pointers, followed one index at a time.

`rd a i` is entry `i` of the table at `a`; zero is the null pointer. A node is
named by the *path* of indices that leads to it, so what a write does to the
tree is a statement about paths: it changes the nodes whose paths extend the
written slot's path and no others ([`walk_write`]). That needs the tables to be
distinct ([`Sep`]): a table shared by two paths would change under both.

Addresses, indices and the depth are parameters.
-/
import Mathlib.Data.List.Infix
import Mathlib.Tactic.Common

set_option autoImplicit false

namespace SysLib.Radix

variable {α ι : Type*} [Zero α] [DecidableEq α]

/-- The pointer found by following `path` from the table `a`; null as soon as a
pointer on the way is null. -/
def walk (rd : α → ι → α) (a : α) (path : List ι) : α :=
  path.foldl (fun a i => if a = 0 then 0 else rd a i) a

variable {rd rd' : α → ι → α} {a : α} {p q : List ι} {i j : ι}

@[simp] theorem walk_nil : walk rd a [] = a := rfl

theorem walk_append : walk rd a (p ++ q) = walk rd (walk rd a p) q :=
  List.foldl_append

theorem walk_snoc : walk rd a (p ++ [i]) = if walk rd a p = 0 then 0 else rd (walk rd a p) i := by
  rw [walk_append]
  rfl

@[simp] theorem walk_zero : walk rd 0 p = 0 := by
  induction p with
  | nil => rfl
  | cons i p ih =>
    rw [show i :: p = [i] ++ p from rfl, walk_append, show walk rd 0 [i] = 0 by simp [walk]]
    exact ih

/-! ## Distinct tables -/

/-- The tables at depth at most `d` below the root `a`: different paths lead to
different tables. -/
structure Sep (rd : α → ι → α) (a : α) (d : ℕ) : Prop where
  root : a ≠ 0
  inj : ∀ p q, p.length ≤ d → q.length ≤ d → walk rd a p ≠ 0 → walk rd a p = walk rd a q → p = q

/-- `x` is one of the tables at depth at most `d`. -/
def Node (rd : α → ι → α) (a : α) (d : ℕ) (x : α) : Prop :=
  x ≠ 0 ∧ ∃ p : List ι, p.length ≤ d ∧ walk rd a p = x

variable {d : ℕ}

/-- **A write seen from the paths.** If `rd'` differs from `rd` on the tables of
the tree at most in slot `i` of the table at `p`, then only the nodes below
that slot can change. -/
theorem walk_write
    (hframe : ∀ r j, r.length ≤ d → walk rd a r ≠ 0 → (r ≠ p ∨ j ≠ i) →
      rd' (walk rd a r) j = rd (walk rd a r) j)
    (hq : q.length ≤ d + 1) (hqp : ¬ (p ++ [i]) <+: q) : walk rd' a q = walk rd a q := by
  induction q using List.reverseRecOn with
  | nil => rfl
  | append_singleton r j ih =>
    have hr : walk rd' a r = walk rd a r :=
      ih (by simp at hq; omega) fun h => hqp (h.trans (List.prefix_append r [j]))
    rw [walk_snoc, walk_snoc, hr]
    by_cases h0 : walk rd a r = 0
    · rw [if_pos h0, if_pos h0]
    · rw [if_neg h0, if_neg h0]
      refine hframe r j (by simpa using hq) h0 ?_
      by_contra hne
      push Not at hne
      obtain ⟨rfl, rfl⟩ := hne
      exact hqp (List.prefix_refl _)

/-- If nothing in the tables changes, no node does. -/
theorem walk_congr (hframe : ∀ r j, r.length ≤ d → walk rd a r ≠ 0 →
      rd' (walk rd a r) j = rd (walk rd a r) j)
    (hq : q.length ≤ d + 1) : walk rd' a q = walk rd a q := by
  induction q using List.reverseRecOn with
  | nil => rfl
  | append_singleton r j ih =>
    have hr : walk rd' a r = walk rd a r := ih (by simp at hq; omega)
    rw [walk_snoc, walk_snoc, hr]
    by_cases h0 : walk rd a r = 0
    · rw [if_pos h0, if_pos h0]
    · rw [if_neg h0, if_neg h0, hframe r j (by simpa using hq) h0]

/-- A write below the last level of tables keeps the tables distinct. -/
theorem Sep.congr (h : Sep rd a d) (hw : ∀ p : List ι, p.length ≤ d → walk rd' a p = walk rd a p) :
    Sep rd' a d := by
  refine ⟨h.root, fun p q hp hq h0 he => ?_⟩
  rw [hw p hp] at h0
  rw [hw p hp, hw q hq] at he
  exact h.inj p q hp hq h0 he

/-! ## Inserting an empty table -/

section Insert

variable {n : α}

/-- `rd'` is `rd` with the empty table `n` entered in the free slot `i` of the
table at `p`. -/
structure Inserts (rd rd' : α → ι → α) (a : α) (d : ℕ) (p : List ι) (i : ι) (n : α) : Prop where
  depth : p.length < d
  table : walk rd a p ≠ 0
  free : rd (walk rd a p) i = 0
  fresh : n ≠ 0 ∧ ∀ r : List ι, r.length ≤ d → walk rd a r ≠ n
  empty : ∀ j, rd' n j = 0
  slot : rd' (walk rd a p) i = n
  frame : ∀ r j, r.length ≤ d → walk rd a r ≠ 0 → (r ≠ p ∨ j ≠ i) →
    rd' (walk rd a r) j = rd (walk rd a r) j

variable (h : Inserts rd rd' a d p i n)
include h

theorem Inserts.walk_slot : walk rd' a (p ++ [i]) = n := by
  have hp : walk rd' a p = walk rd a p := by
    refine walk_write h.frame (by have := h.depth; omega) fun hpre => ?_
    have := hpre.length_le
    simp only [List.length_append, List.length_singleton] at this
    omega
  rw [walk_snoc, hp, if_neg h.table, h.slot]

/-- Below the slot there was nothing, and there is nothing now. -/
theorem Inserts.walk_below (hq : (p ++ [i]) <+: q) (hne : q ≠ p ++ [i]) :
    walk rd a q = 0 ∧ walk rd' a q = 0 := by
  obtain ⟨t, rfl⟩ := hq
  cases t with
  | nil => simp at hne
  | cons j t =>
    constructor
    · rw [walk_append, walk_snoc, if_neg h.table, h.free, walk_zero]
    · rw [walk_append, h.walk_slot, show j :: t = [j] ++ t from rfl, walk_append]
      have : walk rd' n [j] = 0 := by simp [walk, h.empty]
      rw [this, walk_zero]

/-- Apart from the slot itself no path leads elsewhere than before. -/
theorem Inserts.walk_ne (hq : q.length ≤ d + 1) (hne : q ≠ p ++ [i]) :
    walk rd' a q = walk rd a q := by
  by_cases hpre : (p ++ [i]) <+: q
  · rw [(h.walk_below hpre hne).1, (h.walk_below hpre hne).2]
  · exact walk_write h.frame hq hpre

/-- The tables stay distinct. -/
theorem Inserts.sep (hs : Sep rd a d) : Sep rd' a d := by
  refine ⟨hs.root, fun q r hq hr h0 he => ?_⟩
  by_cases hqs : q = p ++ [i] <;> by_cases hrs : r = p ++ [i]
  · rw [hqs, hrs]
  · rw [hqs, h.walk_slot, h.walk_ne (by omega) hrs] at he
    exact absurd he.symm (h.fresh.2 r hr)
  · rw [hrs, h.walk_slot, h.walk_ne (by omega) hqs] at he
    exact absurd he (h.fresh.2 q hq)
  · rw [h.walk_ne (by omega) hqs] at h0 he
    rw [h.walk_ne (by omega) hrs] at he
    exact hs.inj q r hq hr h0 he

/-- The new table is the only new node. -/
theorem Inserts.node_iff (x : α) : Node rd' a d x ↔ x = n ∨ Node rd a d x := by
  constructor
  · rintro ⟨hx, q, hq, rfl⟩
    by_cases hqs : q = p ++ [i]
    · exact .inl (by rw [hqs, h.walk_slot])
    · rw [h.walk_ne (by omega) hqs] at hx ⊢
      exact .inr ⟨hx, q, hq, rfl⟩
  · rintro (rfl | ⟨hx, q, hq, rfl⟩)
    · refine ⟨h.fresh.1, p ++ [i], ?_, h.walk_slot⟩
      have := h.depth
      simp only [List.length_append, List.length_singleton]
      omega
    · refine ⟨hx, q, hq, h.walk_ne (by omega) fun hqs => hx ?_⟩
      rw [hqs, walk_snoc, if_neg h.table, h.free]

end Insert

/-! ## Subtrees -/

theorem walk_cons (ha : a ≠ 0) : walk rd a (i :: p) = walk rd (rd a i) p := by
  rw [show i :: p = [i] ++ p from rfl, walk_append,
    show walk rd a [i] = if a = 0 then 0 else rd a i from rfl, if_neg ha]

theorem Sep.below (h : Sep rd a (d + 1)) (hi : rd a i ≠ 0) : Sep rd (rd a i) d := by
  refine ⟨hi, fun p q hp hq h0 he => ?_⟩
  have := h.inj (i :: p) (i :: q) (by simpa using hp) (by simpa using hq)
    (by rwa [walk_cons h.root]) (by rwa [walk_cons h.root, walk_cons h.root])
  exact (List.cons.inj this).2

/-- The nodes of a tree are its root and the nodes of its subtrees. -/
theorem node_succ (ha : a ≠ 0) {x : α} :
    Node rd a (d + 1) x ↔ x = a ∨ ∃ i, rd a i ≠ 0 ∧ Node rd (rd a i) d x := by
  constructor
  · rintro ⟨hx, p, hp, rfl⟩
    cases p with
    | nil => exact .inl rfl
    | cons i p =>
      rw [walk_cons ha] at hx ⊢
      refine .inr ⟨i, fun h0 => hx (by rw [h0, walk_zero]), hx, p, by simpa using hp, rfl⟩
  · rintro (rfl | ⟨i, -, hx, p, hp, rfl⟩)
    · exact ⟨ha, [], by simp, rfl⟩
    · exact ⟨hx, i :: p, by simpa using hp, walk_cons ha⟩

theorem Node.above (ha : a ≠ 0) {x : α} (h : Node rd (rd a i) d x) : Node rd a (d + 1) x := by
  rw [node_succ ha]
  refine .inr ⟨i, fun hz => ?_, h⟩
  obtain ⟨hx, p, -, rfl⟩ := h
  rw [hz, walk_zero] at hx
  exact hx rfl

/-- The root is in none of its subtrees. -/
theorem Sep.root_not_below (h : Sep rd a (d + 1)) : ¬ Node rd (rd a i) d a := by
  rintro ⟨-, p, hp, he⟩
  have := h.inj [] (i :: p) (by simp) (by simpa using hp) h.root
    (by rw [walk_cons h.root, he, walk_nil])
  exact absurd this (by simp)

/-- Two subtrees have no node in common. -/
theorem Sep.below_disjoint (h : Sep rd a (d + 1)) {x : α} (hi : Node rd (rd a i) d x)
    (hj : Node rd (rd a j) d x) : i = j := by
  obtain ⟨hx, p, hp, hpx⟩ := hi
  obtain ⟨-, q, hq, hqx⟩ := hj
  have := h.inj (i :: p) (j :: q) (by simpa using hp) (by simpa using hq)
    (by rwa [walk_cons h.root, hpx]) (by rw [walk_cons h.root, walk_cons h.root, hpx, hqx])
  exact (List.cons.inj this).1

end SysLib.Radix
