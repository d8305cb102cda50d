/-
The intrusive lists of `src/lolibc/kstruct/list.h`.

A `struct list_head` is a node of a type `α`, and the memory its two fields. The
functions below write the fields one after the other, as the source does, and read
what they have written: `list_replace` of a node that is alone and `list_splice`
of an empty list depend on it.

Here each function is looked at on the one or two rings it is called on;
[`Loos.KstructRuns`] says what it means for the sequences.
-/
import Loos.Lib.Ring

set_option autoImplicit false

namespace Loos.Kstruct

open SysLib

variable {α : Type*} [DecidableEq α]

/-! ## Translation -/

section Functions

variable (k : Links α)

def init_list_head (list : α) : Links α := (k.setNext list list).setPrev list list

def _list_add (next prev new : α) : Links α :=
  let k := k.setPrev next new
  let k := k.setNext new next
  let k := k.setPrev new prev
  k.setNext prev new

def list_add (head new : α) : Links α := _list_add k (k.next head) head new

def list_add_tail (head new : α) : Links α := _list_add k head (k.prev head) new

def _list_del (prev next : α) : Links α := (k.setPrev next prev).setNext prev next

def list_del (entry : α) : Links α :=
  let k := _list_del k (k.prev entry) (k.next entry)
  let k := k.setNext entry entry
  k.setPrev entry entry

def list_replace (old new : α) : Links α :=
  let k := k.setNext new (k.next old)
  let k := k.setPrev (k.next new) new
  let k := k.setPrev new (k.prev old)
  k.setNext (k.prev new) new

def list_replace_init (old new : α) : Links α := init_list_head (list_replace k old new) old

def list_move (list head : α) : Links α :=
  list_add (_list_del k (k.prev list) (k.next list)) head list

def list_move_tail (list head : α) : Links α :=
  list_add_tail (_list_del k (k.prev list) (k.next list)) head list

def list_is_empty (head : α) : Bool := k.next head == head

def list_splice (list head : α) : Links α :=
  let k := k.setNext (k.prev head) (k.next list)
  let k := k.setPrev (k.next list) (k.prev head)
  let k := k.setNext (k.prev list) head
  k.setPrev head (k.prev list)

def list_splice_init (list head : α) : Links α := init_list_head (list_splice k list head) list

/-- `NULL` is `none`. -/
def list_pop (head : α) : Option α × Links α :=
  if list_is_empty k head then (none, k)
  else (some (k.next head), list_del k (k.next head))

def list_pop_tail (head : α) : Option α × Links α :=
  if list_is_empty k head then (none, k)
  else (some (k.prev head), list_del k (k.prev head))

end Functions

/-! ## One ring

Each function on the ring it is called on, and the nodes it does not write. -/

variable {k k' : Links α} {a b x y head list new old : α} {l l₁ l₂ m : List α}

theorem init_ring : (init_list_head k x).IsRing [x] := by
  rw [Links.isRing_singleton]
  simp [init_list_head]

theorem init_frame (hy : y ≠ x) :
    (init_list_head k x).next y = k.next y ∧ (init_list_head k x).prev y = k.prev y := by
  simp [init_list_head, hy]

theorem _list_add_ring (h : k.IsRing (a :: l)) (hnew : new ∉ a :: l) :
    (_list_add k (k.next a) a new).IsRing (a :: new :: l) := by
  have hna : new ≠ a := fun he => hnew (he ▸ List.mem_cons_self)
  have hnb : k.next a ≠ new := fun he => hnew (he ▸ h.next_mem)
  have hmem : ∀ y ∈ a :: l, y ≠ new := fun y hy he => hnew (he ▸ hy)
  apply h.insert hnew
  · simp [_list_add]
  · simp [_list_add]
  · simp [_list_add, hna]
  · simp [_list_add, hnb]
  · intro y hy hya
    simp [_list_add, hya, hmem y (List.mem_cons_of_mem a hy)]
  · intro y hy hyb
    simp [_list_add, hyb, hmem y hy]

theorem _list_add_frame (hb : y ≠ b) (ha : y ≠ a) (hnew : y ≠ new) :
    (_list_add k b a new).next y = k.next y ∧ (_list_add k b a new).prev y = k.prev y := by
  simp [_list_add, hb, ha, hnew]

theorem list_add_ring (h : k.IsRing (head :: l)) (hnew : new ∉ head :: l) :
    (list_add k head new).IsRing (head :: new :: l) := _list_add_ring h hnew

/-- `list_add_tail` adds behind the last node, which is in front of the head. -/
theorem list_add_tail_ring (h : k.IsRing (head :: l)) (hnew : new ∉ head :: l) :
    (list_add_tail k head new).IsRing (head :: (l ++ [new])) := by
  obtain ⟨s, hs, hring⟩ := h.split_last
  have hnext : k.next (k.prev head) = head := (h.inverse List.mem_cons_self).2
  have hnew' : new ∉ k.prev head :: s := by
    rw [hs] at hnew
    simpa [or_comm] using hnew
  have hadd := _list_add_ring hring hnew'
  rw [hnext] at hadd
  have hrot : (list_add_tail k head new).IsRing (s ++ [k.prev head, new]) :=
    Links.isRing_rotate.mpr hadd
  have heq : s ++ [k.prev head, new] = head :: (l ++ [new]) := by
    rw [← List.cons_append, hs]
    simp
  exact heq ▸ hrot

theorem _list_del_ring (h : k.IsRing (x :: l)) (hl : l ≠ []) :
    (_list_del k (k.prev x) (k.next x)).IsRing l := by
  apply h.erase hl
  · simp [_list_del]
  · simp [_list_del]
  · intro y _ hy
    simp [_list_del, hy]
  · intro y _ hy
    simp [_list_del, hy]

/-- A node that is alone is not changed by its removal. -/
theorem _list_del_lone (h : k.IsRing [x]) : _list_del k (k.prev x) (k.next x) = k := by
  obtain ⟨hnext, hprev⟩ := Links.isRing_singleton.mp h
  unfold _list_del Links.setNext Links.setPrev
  rw [hnext, hprev]
  dsimp only
  rw [Function.update_eq_self_iff.mpr hnext.symm, Function.update_eq_self_iff.mpr hprev.symm]

theorem _list_del_frame (ha : y ≠ a) (hb : y ≠ b) :
    (_list_del k a b).next y = k.next y ∧ (_list_del k a b).prev y = k.prev y := by
  simp [_list_del, ha, hb]

/-- `list_replace`; a node that is alone hands its ring over, too, as its own
link is read after it has been turned to the new node. -/
theorem list_replace_ring (h : k.IsRing (old :: l)) (hnew : new ∉ old :: l) :
    (list_replace k old new).IsRing (new :: l) := by
  by_cases hl : l = []
  · subst hl
    obtain ⟨hnext, hprev⟩ := Links.isRing_singleton.mp h
    rw [Links.isRing_singleton]
    simp [list_replace, hnext]
  · have hbnew : k.next old ≠ new := fun he => hnew (he ▸ h.next_mem)
    have hqnew : k.prev old ≠ new := fun he => hnew (he ▸ h.prev_mem)
    have hbold : k.next old ≠ old := fun he =>
      (List.nodup_cons.mp h.1).1 (he ▸ h.next_mem_tail hl)
    have hmem : ∀ y ∈ l, y ≠ new := fun y hy he => hnew (he ▸ List.mem_cons_of_mem old hy)
    -- `old` is not its own successor, so its `prev` is still there to be read
    have hread : (list_replace k old new) =
        (((k.setNext new (k.next old)).setPrev (k.next old) new).setPrev new (k.prev old)).setNext
          (k.prev old) new := by
      simp [list_replace, hbold.symm]
    rw [hread]
    apply h.subst hl (fun hmemnew => hnew (List.mem_cons_of_mem old hmemnew))
    · simp [hqnew.symm]
    · simp [hbnew]
    · simp
    · simp
    · intro y hy hyq
      simp [hyq, hmem y hy]
    · intro y hy hyb
      simp [hyb, hmem y hy]

theorem list_replace_frame (h : k.IsRing (old :: l)) (hy : y ∉ old :: l) (hnew : y ≠ new) :
    (list_replace k old new).next y = k.next y ∧ (list_replace k old new).prev y = k.prev y := by
  have hb : y ≠ k.next old := fun he => hy (he ▸ h.next_mem)
  have hq : y ≠ k.prev old := fun he => hy (he ▸ h.prev_mem)
  unfold list_replace
  simp only [Links.next_setNext, Links.prev_setNext, Links.next_setPrev, Links.prev_setPrev,
    if_pos, if_neg hnew, if_neg hb]
  refine ⟨if_neg ?_, trivial⟩
  split_ifs
  · exact hnew
  · exact hq

/-- `list_splice` with the links it reads, where they are still those of the start. -/
theorem list_splice_read (hq : list ≠ k.prev head) (hb : k.next list ≠ list) :
    list_splice k list head = (((k.setNext (k.prev head) (k.next list)).setPrev (k.next list)
      (k.prev head)).setNext (k.prev list) head).setPrev head (k.prev list) := by
  simp [list_splice, hq, hb.symm]

/-- `list_splice` of an empty list writes only its own links anew. -/
theorem list_splice_empty (h : k.IsRing (head :: l)) (h' : k.IsRing [list]) (hq : list ≠ k.prev head)
    (hy : y ≠ list) : (list_splice k list head).next y = k.next y ∧
      (list_splice k list head).prev y = k.prev y := by
  obtain ⟨hnext, -⟩ := Links.isRing_singleton.mp h'
  have hback : k.next (k.prev head) = head := (h.inverse List.mem_cons_self).2
  unfold list_splice
  simp only [Links.next_setNext, Links.prev_setNext, Links.next_setPrev, Links.prev_setPrev,
    if_pos, if_neg hq, if_neg hy, hnext]
  refine ⟨?_, ?_⟩
  · split_ifs with hyq
    · rw [hyq, hback]
    · rfl
  · split_ifs with hyh
    · rw [hyh]
    · rfl

theorem list_splice_ring (h : k.IsRing (head :: l)) (h' : k.IsRing (list :: m))
    (hdisj : (head :: l).Disjoint (list :: m)) :
    (list_splice k list head).IsRing (head :: (l ++ m)) := by
  have hlist : ∀ y ∈ head :: l, y ≠ list := fun y hy he => hdisj hy (he ▸ List.mem_cons_self)
  have hq : list ≠ k.prev head := (hlist _ h.prev_mem).symm
  by_cases hm : m = []
  · subst hm
    have hsame : ∀ y ∈ head :: l, _ := fun y hy => list_splice_empty h h' hq (hlist y hy)
    rw [List.append_nil]
    exact h.congr (fun y hy => (hsame y hy).1) fun y hy => (hsame y hy).2
  · have hbm : k.next list ∈ m := h'.next_mem_tail hm
    have hrm : k.prev list ∈ m := h'.prev_mem_tail hm
    have hout : ∀ y ∈ head :: l, ∀ z ∈ m, y ≠ z := fun y hy z hz he =>
      hdisj hy (he ▸ List.mem_cons_of_mem list hz)
    have hb : k.next list ≠ list := fun he => (List.nodup_cons.mp h'.1).1 (he ▸ hbm)
    rw [list_splice_read hq hb, ← List.cons_append]
    apply h.splice h' hm fun y hy hym => hdisj hy (List.mem_cons_of_mem list hym)
    · simp [hout _ h.prev_mem _ hrm]
    · simp [(hout _ List.mem_cons_self _ hbm).symm]
    · simp
    · simp
    · intro y _ hyq hyr
      simp [hyq, hyr]
    · intro y _ hya hyb
      simp [hya, hyb]

theorem list_splice_frame (h : k.IsRing (head :: l)) (h' : k.IsRing (list :: m))
    (hdisj : (head :: l).Disjoint (list :: m)) (hy : y ∉ head :: l) (hy' : y ∉ list :: m) :
    (list_splice k list head).next y = k.next y ∧ (list_splice k list head).prev y = k.prev y := by
  have hne : ∀ z ∈ head :: l, y ≠ z := fun z hz he => hy (he ▸ hz)
  have hne' : ∀ z ∈ list :: m, y ≠ z := fun z hz he => hy' (he ▸ hz)
  have hq : list ≠ k.prev head := fun he => hdisj h.prev_mem (he ▸ List.mem_cons_self)
  by_cases hm : m = []
  · subst hm
    exact list_splice_empty h h' hq (hne' list List.mem_cons_self)
  · have hb : k.next list ≠ list := fun he =>
      (List.nodup_cons.mp h'.1).1 (he ▸ h'.next_mem_tail hm)
    rw [list_splice_read hq hb]
    simp [hne _ h.prev_mem, hne _ List.mem_cons_self, hne' _ h'.prev_mem, hne' _ h'.next_mem]

/-- `list_is_empty` is right about the sequence. -/
theorem list_is_empty_iff (h : k.IsRing (head :: l)) : list_is_empty k head = true ↔ l = [] := by
  unfold list_is_empty
  rw [beq_iff_eq]
  refine ⟨fun he => ?_, fun hl => ?_⟩
  · by_contra hl
    exact (List.nodup_cons.mp h.1).1 (he ▸ h.next_mem_tail hl)
  · subst hl
    exact (Links.isRing_singleton.mp h).1

end Loos.Kstruct
