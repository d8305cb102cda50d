/-
Circular doubly linked lists, over an arbitrary type of nodes.

A program state supplies two successor functions, `next` and `prev`. [`Links.Path`]
says that a list of nodes is linked in both directions, and [`Links.IsRing`] that
it closes to a circle. A ring is a `Cycle`, so it does not matter at which node the
list that names it starts, and an edit can always be looked at from the node it
happens at.

The four edits ([`Links.IsRing.insert`], [`Links.IsRing.erase`],
[`Links.IsRing.subst`], [`Links.IsRing.splice`]) are stated as what is true of the
links after them, so that it does not matter in which order a program writes.

A program has many rings at a time. [`Rings`] names each by one of its nodes, its
head, and [`Links.Holds`] says that the links are made of these rings and that no
two of them share a node.
-/
import Mathlib.Data.List.Cycle
import Mathlib.Logic.Function.Basic
import Mathlib.Tactic.Common

set_option autoImplicit false

namespace SysLib

/-- The two links of every node. -/
structure Links (α : Type*) where
  next : α → α
  prev : α → α

variable {α : Type*} {k k' : Links α} {a b x new : α} {l m : List α}

namespace Links

/-- `b` follows `a`, in both directions. -/
def Adj (k : Links α) (a b : α) : Prop := k.next a = b ∧ k.prev b = a

/-- The nodes of `l` are linked in this order. -/
def Path (k : Links α) (l : List α) : Prop := l.IsChain k.Adj

/-- The nodes of `l` are linked to a ring in this order. -/
def IsRing (k : Links α) (l : List α) : Prop := l.Nodup ∧ (l : Cycle α).Chain k.Adj

section Writes

variable [DecidableEq α]

/-- `x->next = y`. -/
def setNext (k : Links α) (x y : α) : Links α := { k with next := Function.update k.next x y }

/-- `x->prev = y`. -/
def setPrev (k : Links α) (x y : α) : Links α := { k with prev := Function.update k.prev x y }

@[simp] theorem next_setNext (k : Links α) (x y z : α) :
    (k.setNext x y).next z = if z = x then y else k.next z := Function.update_apply ..

@[simp] theorem prev_setNext (k : Links α) (x y : α) : (k.setNext x y).prev = k.prev := rfl

@[simp] theorem prev_setPrev (k : Links α) (x y z : α) :
    (k.setPrev x y).prev z = if z = x then y else k.prev z := Function.update_apply ..

@[simp] theorem next_setPrev (k : Links α) (x y : α) : (k.setPrev x y).next = k.next := rfl

end Writes

/-! ## Paths -/

/-- A path only depends on the links between its nodes. -/
theorem Path.frame (h : k.Path l) (hd : l.Nodup) (hl : l ≠ [])
    (hnext : ∀ y ∈ l, y ≠ l.getLast hl → k'.next y = k.next y)
    (hprev : ∀ y ∈ l, y ≠ l.head hl → k'.prev y = k.prev y) : k'.Path l := by
  induction l with
  | nil => exact absurd rfl hl
  | cons a l ih =>
    cases l with
    | nil => exact List.isChain_singleton a
    | cons b l =>
      obtain ⟨hab, hrest⟩ := List.isChain_cons_cons.mp h
      obtain ⟨ha, hd'⟩ := List.nodup_cons.mp hd
      have hne : ∀ y ∈ b :: l, y ≠ a := fun y hy he => ha (he ▸ hy)
      have hlast : (a :: b :: l).getLast hl = (b :: l).getLast (List.cons_ne_nil b l) :=
        List.getLast_cons _
      refine List.isChain_cons_cons.mpr ⟨⟨?_, ?_⟩, ih hrest hd' (List.cons_ne_nil b l) ?_ ?_⟩
      · rw [hnext a List.mem_cons_self]
        · exact hab.1
        · rw [hlast]
          exact (hne _ (List.getLast_mem _)).symm
      · rw [hprev b (by simp)]
        · exact hab.2
        · exact hne b List.mem_cons_self
      · intro y hy hy'
        exact hnext y (List.mem_cons_of_mem a hy) (hlast ▸ hy')
      · intro y hy _
        exact hprev y (List.mem_cons_of_mem a hy) (hne y hy)

theorem Path.append (h : k.Path l) (h' : k.Path m) (hl : l ≠ []) (hm : m ≠ [])
    (hadj : k.Adj (l.getLast hl) (m.head hm)) : k.Path (l ++ m) := by
  apply List.IsChain.append h h'
  intro x hx y hy
  rw [List.getLast?_eq_some_getLast hl] at hx
  rw [List.head?_eq_some_head hm] at hy
  obtain rfl := Option.some.inj hx
  obtain rfl := Option.some.inj hy
  exact hadj

/-! ## Rings -/

/-- A ring can be named from any of its nodes. -/
theorem isRing_rotate : k.IsRing (l ++ m) ↔ k.IsRing (m ++ l) := by
  have hrot : (l ++ m : List α) ~r (m ++ l) := ⟨l.length, List.rotate_append_length_eq l m⟩
  unfold IsRing
  rw [Cycle.coe_eq_coe.mpr hrot, List.nodup_append_comm]

/-- The ring of `a`, from another node of it on. -/
theorem isRing_member {l₁ l₂ : List α} :
    k.IsRing (a :: (l₁ ++ x :: l₂)) ↔ k.IsRing (x :: (l₂ ++ a :: l₁)) :=
  isRing_rotate (l := a :: l₁) (m := x :: l₂)

/-- A ring is a path whose end is linked to its start. -/
theorem isRing_iff (hl : l ≠ []) :
    k.IsRing l ↔ l.Nodup ∧ k.Path l ∧ k.Adj (l.getLast hl) (l.head hl) := by
  unfold IsRing Path
  rw [Cycle.chain_ne_nil _ hl]
  cases l with
  | nil => exact absurd rfl hl
  | cons b l =>
    rw [List.isChain_cons_cons, and_comm (a := k.Adj _ _)]
    rfl

/-- A ring, from the node behind `a` on. -/
theorem isRing_cons : k.IsRing (a :: l) ↔ (l ++ [a]).Nodup ∧ k.Path (l ++ [a]) ∧
    k.Adj a ((l ++ [a]).head (by simp)) := by
  have hrot : k.IsRing (a :: l) ↔ k.IsRing (l ++ [a]) := isRing_rotate (l := [a])
  rw [hrot, isRing_iff (by simp)]
  simp

/-- A ring of more than one node, cut at `x`. -/
theorem isRing_cut (hl : l ≠ []) : k.IsRing (x :: l) ↔ x ∉ l ∧ l.Nodup ∧ k.Path l ∧
    k.Adj x (l.head hl) ∧ k.Adj (l.getLast hl) x := by
  rw [isRing_iff (List.cons_ne_nil x l), List.nodup_cons]
  unfold Path
  cases l with
  | nil => exact absurd rfl hl
  | cons b l =>
    rw [List.isChain_cons_cons, List.getLast_cons hl]
    simp only [List.head_cons]
    tauto

theorem isRing_singleton : k.IsRing [a] ↔ k.next a = a ∧ k.prev a = a := by
  rw [isRing_cons]
  simp [Path, Adj]

/-- A ring only depends on the links of its own nodes. -/
theorem IsRing.congr (h : k.IsRing l) (hnext : ∀ y ∈ l, k'.next y = k.next y)
    (hprev : ∀ y ∈ l, k'.prev y = k.prev y) : k'.IsRing l := by
  refine ⟨h.1, ?_⟩
  rcases eq_or_ne l [] with rfl | hl
  · exact Cycle.Chain.nil _
  · obtain ⟨hd, hpath, hclose⟩ := (isRing_iff hl).mp h
    refine ((isRing_iff hl).mpr ⟨hd, ?_, ?_⟩).2
    · exact hpath.frame hd hl (fun y hy _ => hnext y hy) fun y hy _ => hprev y hy
    · unfold Adj
      rw [hnext _ (List.getLast_mem hl), hprev _ (List.head_mem hl)]
      exact hclose

theorem IsRing.next_mem (h : k.IsRing (a :: l)) : k.next a ∈ a :: l := by
  have hmem : k.next a ∈ l ++ [a] := by
    rw [(isRing_cons.mp h).2.2.1]
    exact List.head_mem _
  simpa [or_comm] using hmem

theorem IsRing.prev_mem (h : k.IsRing (a :: l)) : k.prev a ∈ a :: l := by
  obtain ⟨-, -, -, hprev⟩ := (isRing_iff (List.cons_ne_nil a l)).mp h
  rw [List.head_cons] at hprev
  rw [hprev]
  exact List.getLast_mem _

/-- In a ring of more than one node nobody is his own neighbour. -/
theorem IsRing.next_mem_tail (h : k.IsRing (x :: l)) (hl : l ≠ []) : k.next x ∈ l := by
  rw [((isRing_cut hl).mp h).2.2.2.1.1]
  exact List.head_mem hl

theorem IsRing.prev_mem_tail (h : k.IsRing (x :: l)) (hl : l ≠ []) : k.prev x ∈ l := by
  rw [((isRing_cut hl).mp h).2.2.2.2.2]
  exact List.getLast_mem hl

/-- Every node of a ring can come first. -/
theorem IsRing.split (h : k.IsRing l) (hx : x ∈ l) :
    ∃ l₁ l₂, l = l₁ ++ x :: l₂ ∧ k.IsRing (x :: (l₂ ++ l₁)) := by
  obtain ⟨l₁, l₂, rfl⟩ := List.append_of_mem hx
  exact ⟨l₁, l₂, rfl, isRing_rotate.mp h⟩

/-- The last node of a ring can come first. -/
theorem IsRing.split_last (h : k.IsRing (a :: l)) :
    ∃ s, a :: l = s ++ [k.prev a] ∧ k.IsRing (k.prev a :: s) := by
  have hlast := ((isRing_iff (List.cons_ne_nil a l)).mp h).2.2.2
  rw [List.head_cons] at hlast
  have hsplit : a :: l = (a :: l).dropLast ++ [k.prev a] := by
    rw [hlast]
    exact (List.dropLast_append_getLast _).symm
  refine ⟨_, hsplit, ?_⟩
  rw [hsplit] at h
  exact isRing_rotate.mp h

/-- The first node behind `a`, and the last one. -/
theorem IsRing.next_eq (h : k.IsRing (a :: b :: l)) : k.next a = b :=
  (isRing_cons.mp h).2.2.1

theorem IsRing.prev_eq (h : k.IsRing (a :: (l ++ [b]))) : k.prev a = b := by
  obtain ⟨s, hs, -⟩ := h.split_last
  have hlast := congrArg List.getLast? hs
  rw [← List.cons_append, List.getLast?_concat, List.getLast?_concat] at hlast
  exact (Option.some.inj hlast).symm

/-- The links of a ring are inverse to each other. -/
theorem IsRing.inverse (h : k.IsRing l) (hx : x ∈ l) :
    k.prev (k.next x) = x ∧ k.next (k.prev x) = x := by
  obtain ⟨l₁, l₂, -, hring⟩ := h.split hx
  refine ⟨?_, ?_⟩
  · obtain ⟨-, -, hnext, hprev⟩ := isRing_cons.mp hring
    rw [hnext, hprev]
  · obtain ⟨-, -, hnext, hprev⟩ := (isRing_iff (List.cons_ne_nil _ _)).mp hring
    rw [List.head_cons] at hnext hprev
    rw [hprev, hnext]

/-- The nodes of a ring have the same links wherever it is the same ring. -/
theorem IsRing.same_links (h : k.IsRing l) (h' : k'.IsRing l) (hx : x ∈ l) :
    k'.next x = k.next x ∧ k'.prev x = k.prev x := by
  obtain ⟨l₁, l₂, rfl⟩ := List.append_of_mem hx
  have hring : k.IsRing (x :: (l₂ ++ l₁)) := isRing_rotate.mp h
  have hring' : k'.IsRing (x :: (l₂ ++ l₁)) := isRing_rotate.mp h'
  refine ⟨?_, ?_⟩
  · rw [(isRing_cons.mp hring).2.2.1, (isRing_cons.mp hring').2.2.1]
  · have hclose := ((isRing_iff (List.cons_ne_nil _ _)).mp hring).2.2.2
    have hclose' := ((isRing_iff (List.cons_ne_nil _ _)).mp hring').2.2.2
    rw [List.head_cons] at hclose hclose'
    rw [hclose, hclose']

/-! ## Edits -/

/-- A new node behind `a`. -/
theorem IsRing.insert (h : k.IsRing (a :: l)) (hnew : new ∉ a :: l)
    (ha : k'.next a = new) (hna : k'.prev new = a) (hnb : k'.next new = k.next a)
    (hb : k'.prev (k.next a) = new)
    (hnext : ∀ y ∈ l, y ≠ a → k'.next y = k.next y)
    (hprev : ∀ y ∈ a :: l, y ≠ k.next a → k'.prev y = k.prev y) :
    k'.IsRing (a :: new :: l) := by
  obtain ⟨hd, hpath, hab, -⟩ := isRing_cons.mp h
  rw [hab] at hnb hb hprev
  have hpath' : k'.Path (l ++ [a]) := by
    refine hpath.frame hd (by simp) (fun y hy hya => ?_) fun y hy hyb => ?_
    · rw [List.getLast_append_singleton] at hya
      have hyl : y ∈ l := by simpa [hya] using hy
      exact hnext y hyl hya
    · exact hprev y (by simpa [or_comm] using hy) hyb
  refine ⟨?_, ?_⟩
  · have hdup := h.1
    simp only [List.nodup_cons, List.mem_cons, not_or] at hdup hnew ⊢
    exact ⟨⟨Ne.symm hnew.1, hdup.1⟩, hnew.2, hdup.2⟩
  · rw [Cycle.chain_coe_cons, List.cons_append]
    refine List.isChain_cons_cons.mpr ⟨⟨ha, hna⟩, ?_⟩
    refine List.IsChain.cons hpath' fun y hy => ?_
    rw [List.head?_eq_some_head (by simp)] at hy
    obtain rfl := Option.some.inj hy
    exact ⟨hnb, hb⟩

/-- The node `x` is taken out. -/
theorem IsRing.erase (h : k.IsRing (x :: l)) (hl : l ≠ [])
    (hq : k'.next (k.prev x) = k.next x) (hb : k'.prev (k.next x) = k.prev x)
    (hnext : ∀ y ∈ l, y ≠ k.prev x → k'.next y = k.next y)
    (hprev : ∀ y ∈ l, y ≠ k.next x → k'.prev y = k.prev y) : k'.IsRing l := by
  obtain ⟨-, hd, hpath, hfirst, hlast⟩ := (isRing_cut hl).mp h
  rw [hlast.2, hfirst.1] at hq hb
  rw [hlast.2] at hnext
  rw [hfirst.1] at hprev
  exact (isRing_iff hl).mpr ⟨hd, hpath.frame hd hl hnext hprev, hq, hb⟩

/-- The node `new` takes the place of `x`. -/
theorem IsRing.subst (h : k.IsRing (x :: l)) (hl : l ≠ []) (hnew : new ∉ l)
    (hnb : k'.next new = k.next x) (hb : k'.prev (k.next x) = new)
    (hnq : k'.prev new = k.prev x) (hq : k'.next (k.prev x) = new)
    (hnext : ∀ y ∈ l, y ≠ k.prev x → k'.next y = k.next y)
    (hprev : ∀ y ∈ l, y ≠ k.next x → k'.prev y = k.prev y) : k'.IsRing (new :: l) := by
  obtain ⟨-, hd, hpath, hfirst, hlast⟩ := (isRing_cut hl).mp h
  rw [hlast.2] at hnext hq hnq
  rw [hfirst.1] at hprev hb hnb
  exact (isRing_cut hl).mpr ⟨hnew, hd, hpath.frame hd hl hnext hprev, ⟨hnb, hb⟩, hq, hnq⟩

/-- The nodes behind `b` are moved in front of `a`, that is, to the end of the
list that starts behind `a`. -/
theorem IsRing.splice (h : k.IsRing (a :: l)) (h' : k.IsRing (b :: m)) (hm : m ≠ [])
    (hdisj : (a :: l).Disjoint m) (hq : k'.next (k.prev a) = k.next b)
    (hb : k'.prev (k.next b) = k.prev a) (hr : k'.next (k.prev b) = a) (ha : k'.prev a = k.prev b)
    (hnext : ∀ y ∈ a :: l ++ m, y ≠ k.prev a → y ≠ k.prev b → k'.next y = k.next y)
    (hprev : ∀ y ∈ a :: l ++ m, y ≠ a → y ≠ k.next b → k'.prev y = k.prev y) :
    k'.IsRing (a :: l ++ m) := by
  have hne : a :: l ≠ [] := List.cons_ne_nil a l
  obtain ⟨hd, hpath, hclose⟩ := (isRing_iff hne).mp h
  obtain ⟨-, hd', hpath', hfirst, hlast⟩ := (isRing_cut hm).mp h'
  rw [List.head_cons] at hclose
  rw [hclose.2, hfirst.1] at hq hb
  rw [hlast.2] at hr ha hnext
  rw [hfirst.1] at hprev
  rw [hclose.2] at hnext
  -- neither half has an end of the other one
  have hfront : k'.Path (a :: l) := by
    refine hpath.frame hd hne (fun y hy hyq => hnext y (List.mem_append_left m hy) hyq ?_)
      fun y hy hya => hprev y (List.mem_append_left m hy) hya ?_
    · rintro rfl
      exact hdisj hy (List.getLast_mem hm)
    · rintro rfl
      exact hdisj hy (List.head_mem hm)
  have hback : k'.Path m := by
    refine hpath'.frame hd' hm (fun y hy hyr => hnext y (List.mem_append_right _ hy) ?_ hyr)
      fun y hy hyb => hprev y (List.mem_append_right _ hy) ?_ hyb
    · rintro rfl
      exact hdisj (List.getLast_mem hne) hy
    · rintro rfl
      exact hdisj List.mem_cons_self hy
  refine (isRing_iff (by simp)).mpr ⟨hd.append hd' hdisj, ?_, ?_⟩
  · exact hfront.append hback hne hm ⟨hq, hb⟩
  · rw [List.getLast_append_of_ne_nil _ hm]
    exact ⟨hr, ha⟩

end Links

/-! ## Many rings -/

/-- Rings by their heads. The list of a head are the other nodes of its ring. -/
abbrev Rings (α : Type*) := α → Option (List α)

variable {R : Rings α} {h g : α}

/-- `x` is in the ring of `h`. -/
def Rings.Owns (R : Rings α) (h x : α) : Prop := ∃ l, R h = some l ∧ x ∈ h :: l

/-- `x` is in no ring. -/
def Rings.Fresh (R : Rings α) (x : α) : Prop := ∀ h, ¬ R.Owns h x

/-- The links are made of the rings `R`, which share no node. -/
structure Links.Holds (k : Links α) (R : Rings α) : Prop where
  ring : ∀ h l, R h = some l → k.IsRing (h :: l)
  apart : ∀ h g x, R.Owns h x → R.Owns g x → h = g

namespace Rings

theorem owns_head (hR : R h = some l) : R.Owns h h := ⟨l, hR, List.mem_cons_self⟩

theorem owns_mem (hR : R h = some l) (hx : x ∈ l) : R.Owns h x :=
  ⟨l, hR, List.mem_cons_of_mem h hx⟩

theorem owns_iff (hR : R h = some l) : R.Owns h x ↔ x ∈ h :: l := by
  refine ⟨?_, fun hx => ⟨l, hR, hx⟩⟩
  rintro ⟨l', hR', hx⟩
  obtain rfl := Option.some.inj (hR.symm.trans hR')
  exact hx

theorem Fresh.eq_none (hx : R.Fresh x) : R x = none := by
  cases hR : R x with
  | none => rfl
  | some l => exact absurd (owns_head hR) (hx x)

variable [DecidableEq α]

theorem owns_update_ne {o : Option (List α)} (hne : g ≠ h) :
    Owns (Function.update R h o) g x ↔ R.Owns g x := by
  unfold Owns
  rw [Function.update_of_ne hne]

theorem owns_update_self : Owns (Function.update R h (some l)) h x ↔ x ∈ h :: l :=
  owns_iff (Function.update_self ..)

theorem not_owns_drop : ¬ Owns (Function.update R h none) h x := by
  rintro ⟨l, hl, -⟩
  rw [Function.update_self] at hl
  cases hl

end Rings

namespace Links.Holds

theorem nodup (hk : k.Holds R) (hR : R h = some l) : (h :: l).Nodup := (hk.ring h l hR).1

variable [DecidableEq α]

open Rings

/-- A ring is given new contents: nodes of its own, and nodes that were in no
ring. Nothing but these has been written. -/
theorem set (hk : k.Holds R) (hring : k'.IsRing (h :: l))
    (hmem : ∀ y ∈ h :: l, R.Owns h y ∨ R.Fresh y)
    (hframe : ∀ y, ¬ R.Owns h y → ¬ R.Fresh y → k'.next y = k.next y ∧ k'.prev y = k.prev y) :
    k'.Holds (Function.update R h (some l)) := by
  have hnew : ∀ y, Owns (Function.update R h (some l)) h y → R.Owns h y ∨ R.Fresh y :=
    fun y hy => hmem y (owns_update_self.mp hy)
  -- a node of another ring is neither a node of this one nor new
  have hother : ∀ g y, g ≠ h → R.Owns g y → ¬ R.Owns h y ∧ ¬ R.Fresh y := fun g y hg hy =>
    ⟨fun hh => hg (hk.apart g h y hy hh), fun hf => hf g hy⟩
  refine ⟨fun g l' hg => ?_, fun g₁ g₂ x h₁ h₂ => ?_⟩
  · by_cases hgh : g = h
    · subst hgh
      rw [Function.update_self] at hg
      exact Option.some.inj hg ▸ hring
    · rw [Function.update_of_ne hgh] at hg
      have hsame : ∀ y ∈ g :: l', k'.next y = k.next y ∧ k'.prev y = k.prev y := by
        intro y hy
        have hy' := hother g y hgh ⟨l', hg, hy⟩
        exact hframe y hy'.1 hy'.2
      exact (hk.ring g l' hg).congr (fun y hy => (hsame y hy).1) fun y hy => (hsame y hy).2
  · by_contra hne
    by_cases h₁h : g₁ = h
    · subst h₁h
      rw [owns_update_ne (Ne.symm hne)] at h₂
      have hx := hother g₂ x (Ne.symm hne) h₂
      exact (hnew x h₁).elim hx.1 hx.2
    · rw [owns_update_ne h₁h] at h₁
      by_cases h₂h : g₂ = h
      · subst h₂h
        have hx := hother g₁ x h₁h h₁
        exact (hnew x h₂).elim hx.1 hx.2
      · rw [owns_update_ne h₂h] at h₂
        exact hne (hk.apart g₁ g₂ x h₁ h₂)

/-- A ring may be forgotten. -/
theorem drop (hk : k.Holds R) (h : α) : k.Holds (Function.update R h none) := by
  have hold : ∀ g y, Owns (Function.update R h none) g y → R.Owns g y := by
    intro g y hy
    by_cases hgh : g = h
    · subst hgh
      exact absurd hy not_owns_drop
    · exact (owns_update_ne hgh).mp hy
  refine ⟨fun g l hg => ?_, fun g₁ g₂ x h₁ h₂ => hk.apart g₁ g₂ x (hold _ _ h₁) (hold _ _ h₂)⟩
  by_cases hgh : g = h
  · subst hgh
    rw [Function.update_self] at hg
    cases hg
  · rw [Function.update_of_ne hgh] at hg
    exact hk.ring g l hg

/-- The nodes of a ring that has been forgotten are free. -/
theorem fresh_drop (hk : k.Holds R) (hx : R.Owns h x) :
    Fresh (Function.update R h none) x := by
  intro g hg
  by_cases hgh : g = h
  · subst hgh
    exact not_owns_drop hg
  · exact hgh (hk.apart g h x ((owns_update_ne hgh).mp hg) hx)

/-- A node that a ring does not get is free afterwards, if it was its own or free. -/
theorem fresh_set (hk : k.Holds R) (hx : R.Owns h x ∨ R.Fresh x) (hxl : x ∉ h :: l) :
    Fresh (Function.update R h (some l)) x := by
  intro g hg
  by_cases hgh : g = h
  · subst hgh
    exact hxl (owns_update_self.mp hg)
  · rw [owns_update_ne hgh] at hg
    rcases hx with hx | hx
    · exact hgh (hk.apart g h x hg hx)
    · exact hx g hg

end Links.Holds

end SysLib
