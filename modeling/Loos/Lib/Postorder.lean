/-
Taking a radix tree down.

A recursive traversal reads the entries of a table in order, takes down the
subtree below every non-null entry and drops the table last. [`postorder`] is
the order in which tables are dropped, [`trace`] the whole sequence of reads
and drops. In a tree whose tables are distinct the traversal drops every node
once ([`Sep.nodup_postorder`], [`mem_postorder`]) and never reads a table that
it has dropped ([`Sep.trace_safe`]).
-/
import Loos.Lib.Radix
import Mathlib.Data.List.Nodup

set_option autoImplicit false

namespace SysLib.Radix

/-! ## Accesses -/

/-- One access of a traversal: an entry is read, or a table is dropped. -/
inductive Visit (α ι : Type*) where
  | read (a : α) (i : ι)
  | drop (a : α)

section Visits

variable {α ι : Type*} {a x : α} {i : ι} {e e' : Visit α ι} {l l' : List (Visit α ι)}

/-- `e'` does not read the table that `e` has dropped. -/
def Visit.Safe (e e' : Visit α ι) : Prop := ∀ x i, e = .drop x → e' ≠ .read x i

/-- The table dropped by an access, if it is a drop. -/
def Visit.dropped : Visit α ι → Option α
  | .read _ _ => none
  | .drop a => some a

/-- The tables dropped, in order. -/
def drops (l : List (Visit α ι)) : List α := l.filterMap Visit.dropped

@[simp] theorem drops_nil : drops ([] : List (Visit α ι)) = [] := rfl

@[simp] theorem drops_read : drops (.read a i :: l) = drops l := rfl

@[simp] theorem drops_drop : drops (.drop a :: l) = a :: drops l := rfl

@[simp] theorem drops_append : drops (l ++ l') = drops l ++ drops l' := List.filterMap_append

theorem drops_flatMap (is : List ι) (f : ι → List (Visit α ι)) :
    drops (is.flatMap f) = is.flatMap fun i => drops (f i) := by
  induction is with
  | nil => rfl
  | cons i is ih => rw [List.flatMap_cons, drops_append, ih, List.flatMap_cons]

theorem mem_drops : x ∈ drops l ↔ Visit.drop x ∈ l := by
  simp only [drops, List.mem_filterMap]
  constructor
  · rintro ⟨_ | y, he, hx⟩
    · cases hx
    · obtain rfl : y = x := by simpa [Visit.dropped] using hx
      exact he
  · exact fun h => ⟨_, h, rfl⟩

end Visits

/-! ## The traversal -/

variable {α ι : Type*} [Zero α] [DecidableEq α]

/-- The tables at most `d` levels below `a`, every table after those below it;
`idxs` are the indices of a table's entries. -/
def postorder (rd : α → ι → α) (idxs : List ι) : ℕ → α → List α
  | 0, a => [a]
  | d + 1, a =>
    (idxs.flatMap fun i => if rd a i = 0 then [] else postorder rd idxs d (rd a i)) ++ [a]

/-- The accesses of the traversal that drops the tables in that order. -/
def trace (rd : α → ι → α) (idxs : List ι) : ℕ → α → List (Visit α ι)
  | 0, a => [.drop a]
  | d + 1, a =>
    (idxs.flatMap fun i => .read a i :: if rd a i = 0 then [] else trace rd idxs d (rd a i))
      ++ [.drop a]

variable {rd : α → ι → α} {idxs : List ι} {a x : α} {d : ℕ} {i : ι}

theorem drops_trace : drops (trace rd idxs d a) = postorder rd idxs d a := by
  induction d generalizing a with
  | zero => rfl
  | succ d ih =>
    rw [trace, postorder, drops_append, drops_flatMap]
    refine congrArg (· ++ [a]) (List.flatMap_congr fun i _ => ?_)
    rw [drops_read]
    split
    · rfl
    · exact ih

/-- Everything below an entry that the traversal visits. -/
theorem mem_postorder_succ :
    x ∈ postorder rd idxs (d + 1) a ↔
      (∃ i ∈ idxs, rd a i ≠ 0 ∧ x ∈ postorder rd idxs d (rd a i)) ∨ x = a := by
  rw [postorder, List.mem_append, List.mem_singleton, List.mem_flatMap]
  refine or_congr (exists_congr fun i => and_congr_right fun _ => ?_) Iff.rfl
  split
  · next h => simp [h]
  · next h => simp [h]

/-- The traversal reads only tables it is going to drop. -/
theorem read_mem_postorder (h : Visit.read x i ∈ trace rd idxs d a) :
    x ∈ postorder rd idxs d a := by
  induction d generalizing a with
  | zero => simp [trace] at h
  | succ d ih =>
    rw [mem_postorder_succ]
    rw [trace, List.mem_append, List.mem_flatMap] at h
    rcases h with ⟨j, hj, h⟩ | h
    · rcases List.mem_cons.mp h with h | h
      · exact .inr (Visit.read.inj h).1
      · split at h
        · simp at h
        · next hne => exact .inl ⟨j, hj, hne, ih h⟩
    · simp at h

/-- Over all indices, the tables dropped are the nodes of the tree. -/
theorem mem_postorder (hall : ∀ i, i ∈ idxs) (ha : a ≠ 0) :
    x ∈ postorder rd idxs d a ↔ Node rd a d x := by
  induction d generalizing a with
  | zero =>
    rw [postorder, List.mem_singleton]
    constructor
    · rintro rfl
      exact ⟨ha, [], by simp, rfl⟩
    · rintro ⟨-, p, hp, rfl⟩
      rw [List.eq_nil_of_length_eq_zero (Nat.le_zero.mp hp), walk_nil]
  | succ d ih =>
    rw [mem_postorder_succ, node_succ ha, or_comm]
    refine or_congr Iff.rfl (exists_congr fun i => ?_)
    constructor
    · rintro ⟨-, h0, h⟩
      exact ⟨h0, (ih h0).mp h⟩
    · rintro ⟨h0, h⟩
      exact ⟨hall i, h0, (ih h0).mpr h⟩

/-- **Every table is dropped once.** -/
theorem Sep.nodup_postorder (h : Sep rd a d) (hall : ∀ i, i ∈ idxs) (hnd : idxs.Nodup) :
    (postorder rd idxs d a).Nodup := by
  induction d generalizing a with
  | zero => simp [postorder]
  | succ d ih =>
    rw [postorder, List.nodup_append]
    refine ⟨?_, by simp, fun x hx y hy => ?_⟩
    · refine List.nodup_flatMap.mpr ⟨fun i _ => ?_, hnd.imp fun {i j} hij => ?_⟩
      · split
        · exact List.nodup_nil
        · next h0 => exact ih (h.below h0)
      · -- two subtrees have no table in common
        intro x hi hj
        dsimp only at hi hj
        split at hi
        · simp at hi
        · next h0 =>
          split at hj
          · simp at hj
          · next h1 =>
            exact hij (h.below_disjoint ((mem_postorder hall h0).mp hi)
              ((mem_postorder hall h1).mp hj))
    · rw [List.mem_singleton.mp hy]
      obtain ⟨i, -, hi⟩ := List.mem_flatMap.mp hx
      split at hi
      · simp at hi
      · next h0 =>
        rintro rfl
        exact h.root_not_below ((mem_postorder hall h0).mp hi)

/-- **No table is read after it was dropped.** -/
theorem Sep.trace_safe (h : Sep rd a d) (hall : ∀ i, i ∈ idxs) (hnd : idxs.Nodup) :
    (trace rd idxs d a).Pairwise Visit.Safe := by
  induction d generalizing a with
  | zero => simp [trace]
  | succ d ih =>
    -- what the part below entry `i` drops and reads is below entry `i`
    have hdrop : ∀ i x, Visit.drop x ∈ (.read a i ::
        if rd a i = 0 then [] else trace rd idxs d (rd a i) : List (Visit α ι)) →
        Node rd (rd a i) d x := by
      intro i x hx
      rcases List.mem_cons.mp hx with hx | hx
      · cases hx
      · split at hx
        · simp at hx
        · next h0 =>
          rw [← mem_postorder hall h0, ← drops_trace]
          exact mem_drops.mpr hx
    have hread : ∀ i j x, Visit.read x j ∈ (.read a i ::
        if rd a i = 0 then [] else trace rd idxs d (rd a i) : List (Visit α ι)) →
        x = a ∨ Node rd (rd a i) d x := by
      intro i j x hx
      rcases List.mem_cons.mp hx with hx | hx
      · exact .inl (Visit.read.inj hx).1
      · split at hx
        · simp at hx
        · next h0 => exact .inr ((mem_postorder hall h0).mp (read_mem_postorder hx))
    rw [trace, List.pairwise_append]
    refine ⟨List.pairwise_flatMap.mpr ⟨fun i _ => ?_, hnd.imp fun {i j} hij => ?_⟩,
      List.pairwise_singleton _ _, fun e _ e' he' y k _ => ?_⟩
    · refine List.pairwise_cons.mpr ⟨(fun e _ y k he => nomatch he), ?_⟩
      split
      · exact List.Pairwise.nil
      · next h0 => exact ih (h.below h0)
    · rintro e he e' he' y k rfl rfl
      have hy := hdrop i y he
      rcases hread j k y he' with rfl | hy'
      · exact h.root_not_below hy
      · exact hij (h.below_disjoint hy hy')
    · rw [List.mem_singleton.mp he']
      exact fun he => by cases he

end SysLib.Radix
