/-
The lists of `list.h` as finite sequences, over whole runs.

The abstract state is a family of rings, each a head with its sequence. A node that
is not in a list is alone in a ring of its own, as `list_del` leaves it, and then a
head with an empty sequence; or it is in no ring, like memory that has not been
initialised. [`Step`] says what each function does to the sequences. It is
possible where the arguments are what the function is for: a head, a member of a
list, a node that is free to be added.
-/
import Loos.Kstruct

set_option autoImplicit false

namespace Loos.Kstruct

open SysLib

variable {α : Type*} [DecidableEq α]

/-- A call. -/
inductive Op (α : Type*) where
  | init_list_head (list : α)
  | list_add (head new : α)
  | list_add_tail (head new : α)
  | list_del (entry : α)
  | list_replace_init (old new : α)
  | list_move (list head : α)
  | list_move_tail (list head : α)
  | list_splice_init (list head : α)
  | list_pop (head : α)
  | list_pop_tail (head : α)

/-- What a call returns, if that is a pointer, and the links after it. -/
def exec (k : Links α) : Op α → Option α × Links α
  | .init_list_head list => (none, init_list_head k list)
  | .list_add head new => (none, list_add k head new)
  | .list_add_tail head new => (none, list_add_tail k head new)
  | .list_del entry => (none, list_del k entry)
  | .list_replace_init old new => (none, list_replace_init k old new)
  | .list_move list head => (none, list_move k list head)
  | .list_move_tail list head => (none, list_move_tail k list head)
  | .list_splice_init list head => (none, list_splice_init k list head)
  | .list_pop head => list_pop k head
  | .list_pop_tail head => list_pop_tail k head

/-- What the calls return, and the links after them. -/
def execs (k : Links α) : List (Op α) → List (Option α) × Links α
  | [] => ([], k)
  | op :: ops => ((exec k op).1 :: (execs (exec k op).2 ops).1, (execs (exec k op).2 ops).2)

/-! ## Sequences -/

/-- `x` can be added to a list: it is in no ring, or alone in its own. -/
def Spare (R : Rings α) (x : α) : Prop := R.Fresh x ∨ R x = some []

/-- The head `h` gets the sequence `l`. -/
def Rings.put (R : Rings α) (h : α) (l : List α) : Rings α := Function.update R h (some l)

/-- The ring of `h` is no more. -/
def Rings.del (R : Rings α) (h : α) : Rings α := Function.update R h none

/-- `x` is taken out of the sequence it is in, or is alone. -/
inductive Detach (R : Rings α) (x : α) : Rings α → Prop where
  | member (h : α) (l₁ l₂ : List α) (hR : R h = some (l₁ ++ x :: l₂)) :
      Detach R x (Rings.put R h (l₁ ++ l₂))
  | lone (hR : R x = some []) : Detach R x (Rings.del R x)

/-- What each call does to the sequences, and what it returns. -/
inductive Step (R : Rings α) : Op α → Option α → Rings α → Prop where
  | init_list_head (list : α) (hlist : Spare R list) :
      Step R (.init_list_head list) none (Rings.put R list [])
  | list_add (head new : α) (l : List α) (hR : R head = some l) (hnew : Spare R new)
      (hne : new ≠ head) :
      Step R (.list_add head new) none (Rings.put (Rings.del R new) head (new :: l))
  | list_add_tail (head new : α) (l : List α) (hR : R head = some l) (hnew : Spare R new)
      (hne : new ≠ head) :
      Step R (.list_add_tail head new) none (Rings.put (Rings.del R new) head (l ++ [new]))
  | list_del (entry : α) (R₁ : Rings α) (hdet : Detach R entry R₁) :
      Step R (.list_del entry) none (Rings.put R₁ entry [])
  | replace_member (old new h : α) (l₁ l₂ : List α) (hR : R h = some (l₁ ++ old :: l₂))
      (hnew : Spare R new) (hne : new ≠ h) :
      Step R (.list_replace_init old new) none
        (Rings.put (Rings.put (Rings.del R new) h (l₁ ++ new :: l₂)) old [])
  | replace_head (old new : α) (l : List α) (hR : R old = some l) (hnew : Spare R new)
      (hne : new ≠ old) :
      Step R (.list_replace_init old new) none (Rings.put (Rings.put R new l) old [])
  | list_move (list head : α) (l : List α) (R₁ : Rings α) (hdet : Detach R list R₁)
      (hR : R₁ head = some l) :
      Step R (.list_move list head) none (Rings.put R₁ head (list :: l))
  | list_move_tail (list head : α) (l : List α) (R₁ : Rings α) (hdet : Detach R list R₁)
      (hR : R₁ head = some l) :
      Step R (.list_move_tail list head) none (Rings.put R₁ head (l ++ [list]))
  | list_splice_init (list head : α) (l m : List α) (hR : R head = some l) (hlist : R list = some m)
      (hne : list ≠ head) :
      Step R (.list_splice_init list head) none (Rings.put (Rings.put R head (l ++ m)) list [])
  | list_pop (head x : α) (l : List α) (hR : R head = some (x :: l)) :
      Step R (.list_pop head) (some x) (Rings.put (Rings.put R head l) x [])
  | list_pop_empty (head : α) (hR : R head = some []) : Step R (.list_pop head) none R
  | list_pop_tail (head x : α) (l : List α) (hR : R head = some (l ++ [x])) :
      Step R (.list_pop_tail head) (some x) (Rings.put (Rings.put R head l) x [])
  | list_pop_tail_empty (head : α) (hR : R head = some []) : Step R (.list_pop_tail head) none R

/-- The calls `ops` return `rs` and take the sequences from `R` to `R'`. -/
inductive Steps : Rings α → List (Op α) → List (Option α) → Rings α → Prop where
  | nil (R : Rings α) : Steps R [] [] R
  | cons {R R₁ R' : Rings α} {op : Op α} {ops : List (Op α)} {r : Option α} {rs : List (Option α)}
      (hstep : Step R op r R₁) (hrest : Steps R₁ ops rs R') : Steps R (op :: ops) (r :: rs) R'

/-! ## The links of all rings -/

variable {k : Links α} {R R' R₁ : Rings α} {h x y head list new old entry : α}
  {l l₁ l₂ m : List α} {op : Op α} {ops : List (Op α)} {r : Option α} {rs : List (Option α)}

@[simp] theorem put_self : Rings.put R h l h = some l := Function.update_self ..

theorem del_ne (hne : y ≠ h) : Rings.del R h y = R y := Function.update_of_ne hne ..

/-- A node that can be added is made free; nothing has to be written for that. -/
theorem Spare.free (hk : k.Holds R) (hnew : Spare R new) :
    k.Holds (Rings.del R new) ∧ Rings.Fresh (Rings.del R new) new := by
  refine ⟨hk.drop new, ?_⟩
  rcases hnew with hfresh | hlone
  · have hsame : Rings.del R new = R := Function.update_eq_self_iff.mpr hfresh.eq_none.symm
    rwa [hsame]
  · exact hk.fresh_drop (Rings.owns_head hlone)

theorem holds_init (hk : k.Holds R) (hx : R.Fresh x) :
    (init_list_head k x).Holds (Rings.put R x []) := by
  apply hk.set init_ring
  · intro y hy
    rw [List.mem_singleton.mp hy]
    exact .inr hx
  · intro y _ hy
    apply init_frame
    rintro rfl
    exact hy hx

/-- `_list_add` in either of its two uses. -/
theorem holds_add {k' : Links α} (hk : k.Holds R) (hR : R head = some l) (hnew : R.Fresh new)
    (hring : k'.IsRing (head :: m)) (hm : ∀ y ∈ m, y = new ∨ y ∈ l)
    (hframe : ∀ y, y ∉ head :: l → y ≠ new → k'.next y = k.next y ∧ k'.prev y = k.prev y) :
    k'.Holds (Rings.put R head m) := by
  apply hk.set hring
  · intro y hy
    rcases List.mem_cons.mp hy with rfl | hy
    · exact .inl (Rings.owns_head hR)
    · rcases hm y hy with rfl | hyl
      · exact .inr hnew
      · exact .inl (Rings.owns_mem hR hyl)
  · intro y hy hyf
    apply hframe y
    · rwa [Rings.owns_iff hR] at hy
    · rintro rfl
      exact hyf hnew

theorem holds_list_add (hk : k.Holds R) (hR : R head = some l) (hnew : R.Fresh new) :
    (list_add k head new).Holds (Rings.put R head (new :: l)) := by
  have hring := hk.ring head l hR
  have hout : new ∉ head :: l := fun hmem => hnew head ((Rings.owns_iff hR).mpr hmem)
  refine holds_add hk hR hnew (list_add_ring hring hout) (fun y hy => List.mem_cons.mp hy) ?_
  intro y hy hyn
  apply _list_add_frame _ _ hyn
  · exact fun he => hy (he ▸ hring.next_mem)
  · exact fun he => hy (he ▸ List.mem_cons_self)

theorem holds_list_add_tail (hk : k.Holds R) (hR : R head = some l) (hnew : R.Fresh new) :
    (list_add_tail k head new).Holds (Rings.put R head (l ++ [new])) := by
  have hring := hk.ring head l hR
  have hout : new ∉ head :: l := fun hmem => hnew head ((Rings.owns_iff hR).mpr hmem)
  refine holds_add hk hR hnew (list_add_tail_ring hring hout) (fun y hy => ?_) ?_
  · simpa [or_comm] using hy
  · intro y hy hyn
    apply _list_add_frame _ _ hyn
    · exact fun he => hy (he ▸ List.mem_cons_self)
    · exact fun he => hy (he ▸ hring.prev_mem)

/-- `_list_del`, on a member or on a node that is alone. -/
theorem holds_detach (hk : k.Holds R) (hdet : Detach R x R₁) :
    (_list_del k (k.prev x) (k.next x)).Holds R₁ ∧ R₁.Fresh x := by
  cases hdet with
  | lone hR =>
    rw [_list_del_lone (hk.ring x [] hR)]
    exact ⟨hk.drop x, hk.fresh_drop (Rings.owns_head hR)⟩
  | member h l₁ l₂ hR =>
    have hring := hk.ring h _ hR
    have hcut : k.IsRing (x :: (l₂ ++ h :: l₁)) := Links.isRing_member.mp hring
    have hout := hk.nodup hR
    have hx : R.Owns h x := Rings.owns_mem hR (by simp)
    refine ⟨hk.set ?_ (fun y hy => .inl ?_) fun y hy _ => ?_, hk.fresh_set (.inl hx) ?_⟩
    · exact Links.isRing_rotate.mp (_list_del_ring hcut (by simp))
    · apply (Rings.owns_iff hR).mpr
      simp only [List.mem_cons, List.mem_append] at hy ⊢
      tauto
    · rw [Rings.owns_iff hR] at hy
      have hmem : ∀ z ∈ x :: (l₂ ++ h :: l₁), y ≠ z := by
        rintro z hz rfl
        apply hy
        simp only [List.mem_cons, List.mem_append] at hz ⊢
        tauto
      exact _list_del_frame (hmem _ hcut.prev_mem) (hmem _ hcut.next_mem)
    · simp only [List.nodup_cons, List.nodup_append, List.mem_append, List.mem_cons] at hout ⊢
      tauto

theorem holds_list_del (hk : k.Holds R) (hdet : Detach R x R₁) :
    (list_del k x).Holds (Rings.put R₁ x []) := by
  obtain ⟨hk₁, hfresh⟩ := holds_detach hk hdet
  exact holds_init hk₁ hfresh

/-- `list_replace` of any node of a ring. -/
theorem holds_replace_member (hk : k.Holds R) (hR : R h = some (l₁ ++ old :: l₂))
    (hnew : R.Fresh new) :
    (list_replace k old new).Holds (Rings.put R h (l₁ ++ new :: l₂)) ∧
      Rings.Fresh (Rings.put R h (l₁ ++ new :: l₂)) old := by
  have hring := hk.ring h _ hR
  have hcut : k.IsRing (old :: (l₂ ++ h :: l₁)) := Links.isRing_member.mp hring
  have hdup := hk.nodup hR
  have hold : R.Owns h old := Rings.owns_mem hR (by simp)
  have hmem : ∀ y, y ∈ old :: (l₂ ++ h :: l₁) ↔ R.Owns h y := by
    intro y
    rw [Rings.owns_iff hR]
    simp only [List.mem_cons, List.mem_append]
    tauto
  have hout : new ∉ old :: (l₂ ++ h :: l₁) := fun hn => hnew h ((hmem new).mp hn)
  refine ⟨hk.set ?_ (fun y hy => ?_) fun y hy hyf => ?_, hk.fresh_set (.inl hold) ?_⟩
  · have hrep := list_replace_ring hcut hout
    exact Links.isRing_member.mpr hrep
  · by_cases hyn : y = new
    · exact .inr (hyn ▸ hnew)
    · left
      rw [← hmem]
      simp only [List.mem_cons, List.mem_append] at hy ⊢
      tauto
  · apply list_replace_frame hcut
    · exact fun hy' => hy ((hmem y).mp hy')
    · rintro rfl
      exact hyf hnew
  · have hon : old ≠ new := by
      rintro rfl
      exact hnew h hold
    simp only [List.nodup_cons, List.nodup_append, List.mem_append, List.mem_cons] at hdup ⊢
    tauto

/-- `list_replace` of a head: the members are handed over with it. -/
theorem holds_replace_head (hk : k.Holds R) (hR : R old = some l) (hnew : R.Fresh new)
    (hne : new ≠ old) :
    (list_replace k old new).Holds (Rings.put (Rings.del R old) new l) ∧
      Rings.Fresh (Rings.put (Rings.del R old) new l) old := by
  have hring := hk.ring old l hR
  have hout : new ∉ old :: l := fun hn => hnew old ((Rings.owns_iff hR).mpr hn)
  have hdrop : k.Holds (Rings.del R old) := hk.drop old
  have hfree : ∀ y ∈ old :: l, Rings.Fresh (Rings.del R old) y := fun y hy =>
    hk.fresh_drop ⟨l, hR, hy⟩
  have hfreshnew : Rings.Fresh (Rings.del R old) new := by
    intro g hg
    by_cases hgo : g = old
    · subst hgo
      exact Rings.not_owns_drop hg
    · exact hnew g ((Rings.owns_update_ne hgo).mp hg)
  refine ⟨hdrop.set (list_replace_ring hring hout) (fun y hy => .inr ?_) fun y hy hyf => ?_,
    hdrop.fresh_set (.inr (hfree old List.mem_cons_self)) ?_⟩
  · rcases List.mem_cons.mp hy with rfl | hyl
    · exact hfreshnew
    · exact hfree y (List.mem_cons_of_mem old hyl)
  · apply list_replace_frame hring
    · exact fun hyo => hyf (hfree y hyo)
    · rintro rfl
      exact hyf hfreshnew
  · have hdup : old ∉ l := (List.nodup_cons.mp (hk.nodup hR)).1
    simp [hne.symm, hdup]

theorem holds_list_pop (hk : k.Holds R) (hR : R head = some (x :: l)) :
    (list_pop k head).1 = some x ∧
      (list_pop k head).2.Holds (Rings.put (Rings.put R head l) x []) := by
  have hring := hk.ring head _ hR
  have hdet : Detach R x (Rings.put R head l) := .member head [] l hR
  unfold list_pop
  rw [if_neg (by simp [list_is_empty_iff hring]), hring.next_eq]
  exact ⟨rfl, holds_list_del hk hdet⟩

theorem holds_list_pop_tail (hk : k.Holds R) (hR : R head = some (l ++ [x])) :
    (list_pop_tail k head).1 = some x ∧
      (list_pop_tail k head).2.Holds (Rings.put (Rings.put R head l) x []) := by
  have hring := hk.ring head _ hR
  have hdet : Detach R x (Rings.put R head (l ++ [])) := .member head l [] hR
  rw [List.append_nil] at hdet
  unfold list_pop_tail
  rw [if_neg (by simp [list_is_empty_iff hring]), hring.prev_eq]
  exact ⟨rfl, holds_list_del hk hdet⟩

/-- An empty list is not changed by a pop, from either side. -/
theorem list_pop_empty (hk : k.Holds R) (hR : R head = some []) :
    list_pop k head = (none, k) ∧ list_pop_tail k head = (none, k) := by
  have hempty : list_is_empty k head = true := (list_is_empty_iff (hk.ring head _ hR)).mpr rfl
  exact ⟨if_pos hempty, if_pos hempty⟩

theorem holds_list_splice (hk : k.Holds R) (hR : R head = some l) (hlist : R list = some m)
    (hne : list ≠ head) :
    (list_splice k list head).Holds (Rings.put (Rings.del R list) head (l ++ m)) ∧
      Rings.Fresh (Rings.put (Rings.del R list) head (l ++ m)) list := by
  have hring := hk.ring head l hR
  have hring' := hk.ring list m hlist
  have hdisj : (head :: l).Disjoint (list :: m) := fun y hy hy' =>
    hne (hk.apart list head y ⟨m, hlist, hy'⟩ ⟨l, hR, hy⟩)
  -- first the ring of `list` is given up, then its members go to `head`
  have hR' : Rings.del R list head = some l := (del_ne hne.symm).trans hR
  have hfree : ∀ y ∈ list :: m, Rings.Fresh (Rings.del R list) y := fun y hy =>
    hk.fresh_drop ⟨m, hlist, hy⟩
  have hdrop : k.Holds (Rings.del R list) := hk.drop list
  have hdup : list ∉ m := (List.nodup_cons.mp (hk.nodup hlist)).1
  have hout : list ∉ head :: l := fun hy => hdisj hy List.mem_cons_self
  refine ⟨hdrop.set (list_splice_ring hring hring' hdisj) (fun y hy => ?_) fun y hy hyf => ?_,
    hdrop.fresh_set (.inr (hfree list List.mem_cons_self)) ?_⟩
  · rw [Rings.owns_iff hR']
    rw [← List.cons_append, List.mem_append] at hy
    exact hy.imp_right fun hym => hfree y (List.mem_cons_of_mem list hym)
  · rw [Rings.owns_iff hR'] at hy
    exact list_splice_frame hring hring' hdisj hy fun hym => hyf (hfree y hym)
  · rw [← List.cons_append, List.mem_append]
    exact fun hy => hy.elim hout hdup

/-- **One call.** It returns what its sequence effect returns, and the links are
made of the rings with this effect. -/
theorem holds_exec (hk : k.Holds R) (hstep : Step R op r R') :
    (exec k op).1 = r ∧ (exec k op).2.Holds R' := by
  cases hstep with
  | init_list_head list hlist =>
    obtain ⟨hfree, hfresh⟩ := hlist.free hk
    have hinit := holds_init hfree hfresh
    have hidem : Rings.put (Rings.del R list) list [] = Rings.put R list [] :=
      Function.update_idem ..
    exact ⟨rfl, hidem ▸ hinit⟩
  | list_add head new l hR hnew hne =>
    obtain ⟨hfree, hfresh⟩ := hnew.free hk
    exact ⟨rfl, holds_list_add hfree ((del_ne hne.symm).trans hR) hfresh⟩
  | list_add_tail head new l hR hnew hne =>
    obtain ⟨hfree, hfresh⟩ := hnew.free hk
    exact ⟨rfl, holds_list_add_tail hfree ((del_ne hne.symm).trans hR) hfresh⟩
  | list_del entry R₁ hdet => exact ⟨rfl, holds_list_del hk hdet⟩
  | replace_member old new h l₁ l₂ hR hnew hne =>
    obtain ⟨hfree, hfresh⟩ := hnew.free hk
    obtain ⟨hrep, hold⟩ := holds_replace_member hfree ((del_ne hne.symm).trans hR) hfresh
    exact ⟨rfl, holds_init hrep hold⟩
  | replace_head old new l hR hnew hne =>
    obtain ⟨hfree, hfresh⟩ := hnew.free hk
    obtain ⟨hrep, hold⟩ := holds_replace_head hfree ((del_ne hne.symm).trans hR) hfresh hne
    have hinit := holds_init hrep hold
    refine ⟨rfl, ?_⟩
    have hcomm : Rings.put (Rings.put (Rings.del (Rings.del R new) old) new l) old [] =
        Rings.put (Rings.put R new l) old [] := by
      unfold Rings.put Rings.del
      rw [Function.update_comm hne.symm, Function.update_idem, Function.update_idem]
    exact hcomm ▸ hinit
  | list_move list head l R₁ hdet hR =>
    obtain ⟨hk₁, hfresh⟩ := holds_detach hk hdet
    exact ⟨rfl, holds_list_add hk₁ hR hfresh⟩
  | list_move_tail list head l R₁ hdet hR =>
    obtain ⟨hk₁, hfresh⟩ := holds_detach hk hdet
    exact ⟨rfl, holds_list_add_tail hk₁ hR hfresh⟩
  | list_splice_init list head l m hR hlist hne =>
    obtain ⟨hsplice, hfresh⟩ := holds_list_splice hk hR hlist hne
    have hinit := holds_init hsplice hfresh
    refine ⟨rfl, ?_⟩
    have hcomm : Rings.put (Rings.put (Rings.del R list) head (l ++ m)) list [] =
        Rings.put (Rings.put R head (l ++ m)) list [] := by
      unfold Rings.put Rings.del
      rw [Function.update_comm hne, Function.update_idem]
    exact hcomm ▸ hinit
  | list_pop head x l hR => exact holds_list_pop hk hR
  | list_pop_empty head hR =>
    rw [exec, (list_pop_empty hk hR).1]
    exact ⟨rfl, hk⟩
  | list_pop_tail head x l hR => exact holds_list_pop_tail hk hR
  | list_pop_tail_empty head hR =>
    rw [exec, (list_pop_empty hk hR).2]
    exact ⟨rfl, hk⟩

theorem holds_execs (hk : k.Holds R) (hsteps : Steps R ops rs R') :
    (execs k ops).1 = rs ∧ (execs k ops).2.Holds R' := by
  induction hsteps generalizing k with
  | nil R => exact ⟨rfl, hk⟩
  | cons hstep hrest ih =>
    obtain ⟨hr, hk₁⟩ := holds_exec hk hstep
    obtain ⟨hrs, hk'⟩ := ih hk₁
    exact ⟨by rw [execs, hr, hrs], hk'⟩

/-- **The lists are sequences.** Where the links are made of rings that share no
node, any calls with the arguments they are meant for return what their
sequence effects return, and the links after them are made of the rings with these
effects, which share no node either. `next` and `prev` are inverse to each other on
every ring, and a ring that is the same at the end has the same links. -/
theorem list_refines (hk : k.Holds R) (hsteps : Steps R ops rs R') :
    (execs k ops).1 = rs ∧ (execs k ops).2.Holds R' ∧
      (∀ h l x, R' h = some l → x ∈ h :: l →
        (execs k ops).2.prev ((execs k ops).2.next x) = x ∧
        (execs k ops).2.next ((execs k ops).2.prev x) = x) ∧
      ∀ h l x, R h = some l → R' h = some l → x ∈ h :: l →
        (execs k ops).2.next x = k.next x ∧ (execs k ops).2.prev x = k.prev x := by
  obtain ⟨hrs, hk'⟩ := holds_execs hk hsteps
  refine ⟨hrs, hk', fun h l x hR' hx => ?_, fun h l x hR hR' hx => ?_⟩
  · exact (hk'.ring h l hR').inverse hx
  · exact (hk.ring h l hR).same_links (hk'.ring h l hR') hx

/-- Nodes that are all alone. -/
def alone : Links ℕ := ⟨id, id⟩

def aloneRings : Rings ℕ := fun x => if x < 7 then some [] else none

theorem alone_holds : alone.Holds aloneRings := by
  refine ⟨fun h l hR => ?_, fun h g x hh hg => ?_⟩
  · unfold aloneRings at hR
    split_ifs at hR
    obtain rfl := Option.some.inj hR
    exact Links.isRing_singleton.mpr ⟨rfl, rfl⟩
  · have hown : ∀ y, Rings.Owns aloneRings y x → x = y := by
      rintro y ⟨l, hR, hx⟩
      unfold aloneRings at hR
      split_ifs at hR
      obtain rfl := Option.some.inj hR
      simpa using hx
    rw [← hown h hh, hown g hg]

/-- Two lists are filled, one is spliced to the other, and a node is replaced. -/
def fill_and_splice : List (Op ℕ) :=
  [.list_add 0 2, .list_add_tail 0 3, .list_add 1 4, .list_move 3 1, .list_replace_init 4 5,
    .list_splice_init 1 0, .list_move_tail 2 0, .list_pop 0, .list_pop 1, .list_del 5]

theorem list_refines_fill_and_splice :
    (execs alone fill_and_splice).1 =
        [none, none, none, none, none, none, none, some 3, none, none] ∧
      (execs alone fill_and_splice).2.IsRing [0, 2] := by
  have hsteps : Steps aloneRings fill_and_splice
      [none, none, none, none, none, none, none, some 3, none, none] _ :=
    (.cons (.list_add 0 2 [] rfl (.inr rfl) (by decide))
    (.cons (.list_add_tail 0 3 [2] rfl (.inr rfl) (by decide))
    (.cons (.list_add 1 4 [] rfl (.inr rfl) (by decide))
    (.cons (.list_move 3 1 [4] _ (.member 0 [2] [] rfl) rfl)
    (.cons (.replace_member 4 5 1 [3] [] rfl (.inr rfl) (by decide))
    (.cons (.list_splice_init 1 0 [2] [3, 5] rfl rfl (by decide))
    (.cons (.list_move_tail 2 0 [3, 5] _ (.member 0 [] [3, 5] rfl) rfl)
    (.cons (.list_pop 0 3 [5, 2] rfl)
    (.cons (.list_pop_empty 1 rfl)
    (.cons (.list_del 5 _ (.member 0 [] [2] rfl)) (.nil _)))))))))))
  have h := list_refines alone_holds hsteps
  exact ⟨h.1, h.2.1.ring 0 [2] rfl⟩

end Loos.Kstruct
