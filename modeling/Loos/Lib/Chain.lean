/-
Null-terminated singly linked lists, over an arbitrary successor function.

`Chain nxt a l` says that following `nxt` from `a` visits exactly the nodes of
`l`, in order, and then reaches null. The successor function is a parameter, so
the same lemmas serve a list threaded through headers, through the free pages
of an allocator or through an array of records; a program state supplies
`nxt` by reading its own memory.

A chain is a property of a *finite* list, so it says that the structure is
acyclic: [`Chain.nodup`] makes that explicit.
-/
import Mathlib.Algebra.GroupWithZero.Nat
import Mathlib.Data.List.Nodup
import Mathlib.Data.List.Perm.Subperm
import Mathlib.Tactic.Common

set_option autoImplicit false

namespace SysLib

variable {α : Type*} [Zero α]

/-- The list from `a` on: its nodes are `l`, and it ends in null. -/
def Chain (nxt : α → α) (a : α) : List α → Prop
  | [] => a = 0
  | x :: l => a = x ∧ x ≠ 0 ∧ Chain nxt (nxt x) l

namespace Chain

variable {nxt nxt' : α → α} {a x : α} {l l' : List α}

@[simp] theorem nil_iff : Chain nxt a [] ↔ a = 0 := Iff.rfl

@[simp] theorem cons_iff : Chain nxt a (x :: l) ↔ a = x ∧ x ≠ 0 ∧ Chain nxt (nxt x) l := Iff.rfl

/-- Null is the empty chain. -/
theorem eq_nil (h : Chain nxt 0 l) : l = [] := by
  cases l with
  | nil => rfl
  | cons x l => exact absurd h.1.symm h.2.1

/-- A non-null head is the first node. -/
theorem eq_cons (h : Chain nxt a l) (ha : a ≠ 0) :
    ∃ t, l = a :: t ∧ Chain nxt (nxt a) t := by
  cases l with
  | nil => exact absurd h ha
  | cons x t =>
    obtain ⟨rfl, -, ht⟩ := h
    exact ⟨t, rfl, ht⟩

theorem ne_zero_of_mem (h : Chain nxt a l) (hx : x ∈ l) : x ≠ 0 := by
  induction l generalizing a with
  | nil => simp at hx
  | cons y l ih =>
    rcases List.mem_cons.mp hx with rfl | hx
    · exact h.2.1
    · exact ih h.2.2 hx

/-- Following the links is deterministic, so there is at most one chain from a head. -/
theorem unique (h : Chain nxt a l) (h' : Chain nxt a l') : l = l' := by
  induction l generalizing a l' with
  | nil =>
    obtain rfl : a = 0 := h
    exact (eq_nil h').symm
  | cons x l ih =>
    obtain ⟨rfl, hx, ht⟩ := h
    obtain ⟨t, rfl, ht'⟩ := eq_cons h' hx
    rw [ih ht ht']

/-- From any node of a chain the rest of the list is a chain too. -/
theorem suffix {l₁ l₂ : List α} (h : Chain nxt a (l₁ ++ x :: l₂)) : Chain nxt x (x :: l₂) := by
  induction l₁ generalizing a with
  | nil =>
    obtain ⟨rfl, hx, ht⟩ := h
    exact ⟨rfl, hx, ht⟩
  | cons y l₁ ih => exact ih h.2.2

/-- **A chain is acyclic.** A node met twice would give two different chains
from one head. -/
theorem nodup (h : Chain nxt a l) : l.Nodup := by
  induction l generalizing a with
  | nil => exact List.nodup_nil
  | cons x l ih =>
    refine List.nodup_cons.mpr ⟨fun hx => ?_, ih h.2.2⟩
    obtain ⟨l₁, l₂, rfl⟩ := List.append_of_mem hx
    have hlong : Chain nxt x (x :: (l₁ ++ x :: l₂)) := ⟨rfl, h.2.1, h.2.2⟩
    have hlen := congrArg List.length (unique hlong h.2.2.suffix)
    simp only [List.length_cons, List.length_append] at hlen
    omega

/-- A chain only depends on the links of its own nodes. -/
theorem congr (h : Chain nxt a l) (hn : ∀ y ∈ l, nxt' y = nxt y) : Chain nxt' a l := by
  induction l generalizing a with
  | nil => exact h
  | cons x l ih =>
    refine ⟨h.1, h.2.1, ?_⟩
    rw [hn x List.mem_cons_self]
    exact ih h.2.2 fun y hy => hn y (List.mem_cons_of_mem x hy)

/-- Linking a new node in front. -/
theorem push (h : Chain nxt a l) (hx : x ≠ 0) (hl : nxt' x = a)
    (hn : ∀ y ∈ l, nxt' y = nxt y) : Chain nxt' x (x :: l) :=
  ⟨rfl, hx, by rw [hl]; exact h.congr hn⟩

/-- The last node links to null. -/
theorem last (h : Chain nxt a (l ++ [x])) : nxt x = 0 := by
  induction l generalizing a with
  | nil => exact h.2.2
  | cons y l ih => exact ih h.2.2

/-- Linking a new node behind the last one. -/
theorem snoc {y : α} (h : Chain nxt a (l ++ [x])) (hy : y ≠ 0) (hx : nxt' x = y)
    (hlast : nxt' y = 0) (hn : ∀ z ∈ l, nxt' z = nxt z) : Chain nxt' a (l ++ [x, y]) := by
  induction l generalizing a with
  | nil =>
    obtain ⟨rfl, ha, -⟩ := h
    exact ⟨rfl, ha, hx, hy, hlast⟩
  | cons z l ih =>
    obtain ⟨rfl, ha, hrest⟩ := h
    refine ⟨rfl, ha, ?_⟩
    rw [hn a List.mem_cons_self]
    exact ih hrest fun w hw => hn w (List.mem_cons_of_mem a hw)

/-- **Two-way chains.** A new node `e` at the front of a chain of `nxt` whose
reverse is a chain of `prv`, which starts at `z`. -/
theorem extend {prv prv' : α → α} {z e : α} [DecidableEq α] (h : Chain nxt a l)
    (hback : Chain prv z l.reverse) (he : e ≠ 0) (hnew : nxt' e = a)
    (hn : ∀ y ∈ l, nxt' y = nxt y) (hlast : prv' e = 0)
    (hp : ∀ y ∈ l, prv' y = if y = a then e else prv y) :
    Chain nxt' e (e :: l) ∧ Chain prv' (if a = 0 then e else z) (e :: l).reverse := by
  refine ⟨h.push he hnew hn, ?_⟩
  cases l with
  | nil =>
    obtain rfl : a = 0 := h
    rw [if_pos rfl]
    exact ⟨rfl, he, hlast⟩
  | cons b t =>
    obtain ⟨rfl, ha, -⟩ := h
    have hnd : a ∉ t := (List.nodup_reverse.mp hback.nodup |> List.nodup_cons.mp).1
    rw [List.reverse_cons] at hback
    rw [if_neg ha, List.reverse_cons, List.reverse_cons, List.append_assoc]
    apply hback.snoc he
    · rw [hp a List.mem_cons_self, if_pos rfl]
    · exact hlast
    · intro y hy
      have hyt : y ∈ t := List.mem_reverse.mp hy
      have hya : y ≠ a := by
        rintro rfl
        exact hnd hyt
      rw [hp y (List.mem_cons_of_mem a hyt), if_neg hya]

/-- Nothing on the way is out of bounds if no link is. -/
theorem lt_of_mem [LT α] {N : α} (h : Chain nxt a l) (ha : a < N) (hn : ∀ y, nxt y < N)
    (hx : x ∈ l) : x < N := by
  induction l generalizing a with
  | nil => cases hx
  | cons y l ih =>
    obtain ⟨rfl, -, hrest⟩ := h
    rcases List.mem_cons.mp hx with rfl | hx
    · exact ha
    · exact ih hrest (hn a) hx

end Chain

/-- A chain of numbers below `N` is shorter than `N`. -/
theorem Chain.length_lt {nxt : ℕ → ℕ} {a N : ℕ} {l : List ℕ} (h : Chain nxt a l) (ha : a < N)
    (hn : ∀ y, nxt y < N) : l.length < N := by
  have hnd : (0 :: l).Nodup := List.nodup_cons.mpr ⟨fun h0 => h.ne_zero_of_mem h0 rfl, h.nodup⟩
  have hsub : (0 :: l) ⊆ List.range N := by
    intro x hx
    apply List.mem_range.mpr
    rcases List.mem_cons.mp hx with hx | hx
    · exact hx ▸ Nat.zero_lt_of_lt ha
    · exact h.lt_of_mem ha hn hx
  have hle := (List.subperm_of_subset hnd hsub).length_le
  rw [List.length_range] at hle
  exact hle

end SysLib
