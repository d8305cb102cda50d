/-
The two-way list of `src/lolibc/struct/mlist.c`.

A list is a header of two words, `head` and `tail`, an element three: `prev`,
`next` and the datum. Both come from `malloc`, and an element that is taken out
goes back to `free`. Two functions forget a link: `mlist_pop` leaves the new first
element with a `prev` to the freed one, and `mlist_remove` moves `head` and `tail`
but never links the neighbours of the element to each other.

The `while` loops of `mlist_remove` and `mlist_find` end on `NULL`. They are given
as many turns as there are addresses; a list that is not circular is shorter. The
`assert(0)` behind them is `none`, and so is a `panic` of `malloc`. `list` is not
`NULL`.
-/
import Loos.HeapBlocks
import Loos.Exec

set_option autoImplicit false

namespace Loos.Mlist

open SysLib Kern Stdlib HeapRuns

/-! ## Words of the heap -/

/-- The word `i` of the structure at `p`. -/
def word (h : Heap) (p i : ℕ) : ℕ := h.kern.mem.load64 (p + 8 * i)

/-- The word `i` of the structure at `p` is set to `v`. -/
def set (h : Heap) (p i v : ℕ) : Heap := { h with kern := h.kern.write (p + 8 * i) v }

/-! ## Translation -/

section Functions

variable (h : Heap) (list elem : ℕ)

/-- `sizeof(struct mlist_element)` -/
def mlist_element_size : ℕ := 24

/-- `list->head` -/
abbrev head : ℕ := word h list 0
/-- `list->tail` -/
abbrev tail : ℕ := word h list 1
/-- `elem->prev` -/
abbrev prev : ℕ := word h elem 0
/-- `elem->next` -/
abbrev next : ℕ := word h elem 1
/-- `elem->data` -/
abbrev data : ℕ := word h elem 2

def new_mlist_elem (data : ℕ) : Option (ℕ × Heap) :=
  (malloc h mlist_element_size).map fun r =>
    (r.1, set (set (set r.2 r.1 0 0) r.1 1 0) r.1 2 data)

def mlist_is_empty : Bool := head h list == 0

def mlist_push (data : ℕ) : Option Heap :=
  (new_mlist_elem h data).map fun (elem, h) =>
    if mlist_is_empty h list then set (set h list 1 elem) list 0 elem
    else
      let h := set h elem 1 (head h list)
      let h := set h (next h elem) 0 elem
      set h list 0 elem

/-- `mlist_pop`: the datum, or `NULL`. -/
def mlist_pop : ℕ × Heap :=
  if mlist_is_empty h list then (0, h)
  else
    let elem := head h list
    let h' :=
      if head h list = tail h list then set (set h list 1 0) list 0 0
      else set h list 0 (next h (head h list))
    (data h elem, free h' elem)

def mlist_append (data : ℕ) : Option Heap :=
  (new_mlist_elem h data).map fun (elem, h) =>
    if mlist_is_empty h list then set (set h list 1 elem) list 0 elem
    else
      let h := set h elem 0 (tail h list)
      let h := set h (prev h elem) 1 elem
      set h list 1 elem

/-- The loops of `mlist_remove` and `mlist_find`: the first element from `elem` on
whose datum `p` accepts, or `NULL`. -/
def seek (p : ℕ → Bool) : ℕ → ℕ → Option ℕ
  | 0, _ => none
  | fuel + 1, elem =>
    if elem = 0 then some 0
    else if p (data h elem) then some elem
    else seek p fuel (next h elem)

/-- More turns than there are elements. -/
def seek_max : ℕ := 2 ^ 64

def mlist_remove (data : ℕ) : Option Heap :=
  if mlist_is_empty h list then none
  else
    (seek h (fun d => d == data) seek_max (head h list)).bind fun elem =>
      if elem = 0 then none
      else
        let h := if elem = head h list then set h list 0 (next h elem) else h
        let h := if elem = tail h list then set h list 1 (prev h elem) else h
        some (free h elem)

/-- `mlist_find`: the datum, or `NULL`. -/
def mlist_find (func : ℕ → Bool) : Option ℕ :=
  if mlist_is_empty h list then some 0
  else (seek h func seek_max (head h list)).map fun elem => if elem = 0 then 0 else data h elem

end Functions

/-- `mlist_init` sets both words of the header. -/
theorem mlist_init_eq (h : Heap) : Exec.mlist_init h =
    (malloc h Exec.mlist_size).map fun r => (r.1, set (set r.2 r.1 0 0) r.1 1 0) := by
  unfold Exec.mlist_init set
  simp only [Nat.mul_zero, Nat.add_zero, Nat.mul_one]

/-! ## The cells of a list -/

variable {g : HeapRuns.Sys} {h h' : Heap} {list elem e x p n i v d fuel : ℕ} {es : List ℕ}

/-- The block at `p` is in use and has `n` bytes. -/
def Owns (g : HeapRuns.Sys) (p n : ℕ) : Prop := ∃ b ∈ g.live, b.ptr = p ∧ b.size = n

/-- The block at `p` is in use. -/
def Live (g : HeapRuns.Sys) (p : ℕ) : Prop := ∃ b ∈ g.live, b.ptr = p

/-- The header of the list and its elements `es` are blocks of their own, and
every chunk but the header's was cut for an element. -/
structure Cells (g : HeapRuns.Sys) (list : ℕ) (es : List ℕ) : Prop where
  sound : Sound g
  header : Owns g list Exec.mlist_size
  elems : ∀ e ∈ es, Owns g e mlist_element_size
  cut : ∀ r ∈ g.cut, r.size = mlist_element_size ∨ r.ptr = list

theorem word_lt (h : Heap) (p i : ℕ) : word h p i < 2 ^ 64 := Mem.load64_lt ..

/-- Live blocks have different addresses. -/
theorem Cells.ne_list (hc : Cells g list es) (he : Owns g e mlist_element_size) : e ≠ list := by
  rintro rfl
  obtain ⟨b, hb, hptr, hsize⟩ := he
  obtain ⟨b', hb', hptr', hsize'⟩ := hc.header
  have hne : b ≠ b' := by
    rintro rfl
    exact absurd (hsize.symm.trans hsize') (by decide)
  have : Std.Symm Block.Apart := ⟨fun _ _ => Block.Apart.symm⟩
  have hap := (hc.sound.inv.blocksOk hc.sound.room).apart.forall hb hb' hne
  unfold Block.Apart Block.ptr chunk_info_size at *
  omega

/-- **A word is set** in a block of the list. -/
theorem Cells.written (hc : Cells g list es) (hp : Owns g p n) (hi : 8 * i + 8 ≤ n) (hv : v < 2 ^ 64) :
    Cells { g with heap := set g.heap p i v } list es ∧
      ∀ q m j, Owns g q m → 8 * j + 8 ≤ m →
        word (set g.heap p i v) q j = if q = p ∧ j = i then v else word g.heap q j := by
  obtain ⟨b, hb, rfl, rfl⟩ := hp
  refine ⟨⟨hc.sound.write hb (by omega) (by omega) v, hc.header, hc.elems, hc.cut⟩, ?_⟩
  rintro q m j ⟨b', hb', rfl, rfl⟩ hj
  exact hc.sound.load_store hb hb' hi hj hv

/-- An element's chunk always serves an element again. -/
theorem Cells.roundsAlike (hc : Cells g list es) : RoundsAlike g mlist_element_size := by
  intro _ r hr he
  right
  rcases hc.cut r hr with hsize | hlist
  · rw [hsize]
    decide
  · -- the header is never freed, so it is in no bin
    exfalso
    obtain ⟨ha, L, hl, -⟩ := hc.sound.inv
    have h0 : g.heap.head (binOf mlist_element_size) ≠ 0 := by
      rw [head_small g.heap (by decide), ← he]
      have := (ha.chunk_pos hr).1
      omega
    obtain ⟨t, hL, -⟩ := hl.head_mem (binOf_le _) h0
    obtain ⟨b, hb, hptr, -⟩ := hc.header
    refine (hl.listed _ (binOf_le mlist_element_size) _ (by rw [hL]; exact List.mem_cons_self)).2.2 b
      hb ?_
    rw [head_small g.heap (by decide), ← he]
    unfold Block.ptr at *
    omega

/-- Blocks keep their words where their data stays. -/
theorem word_same (hsame : SameData g.live g.heap.kern.mem h'.kern.mem) (hp : Owns g p n)
    (hi : 8 * i + 8 ≤ n) : word h' p i = word g.heap p i := by
  obtain ⟨b, hb, rfl, rfl⟩ := hp
  apply Mem.load64_congr
  intro x h1 h2
  exact hsame b hb x (by omega) (by omega)

-- from here on a word is what the lemmas say, and no sum of bytes for a unifier
attribute [irreducible] word

theorem Owns.live (hp : Owns g p n) : Live g p := by
  obtain ⟨b, hb, hptr, -⟩ := hp
  exact ⟨b, hb, hptr⟩

theorem Owns.ne_zero (hp : Owns g p n) : p ≠ 0 := by
  obtain ⟨b, -, rfl, -⟩ := hp
  unfold Block.ptr chunk_info_size
  omega

theorem Cells.ptr_lt (hc : Cells g list es) (hp : Owns g p n) : p < 2 ^ 64 := by
  obtain ⟨b, hb, rfl, -⟩ := hp
  obtain ⟨ha, L, hl, -⟩ := hc.sound.inv
  obtain ⟨⟨r, hr, he⟩, -⟩ := hl.live_cut b hb
  have hlt := (ha.chunk_pos hr).2
  unfold Block.full Block.ptr at *
  dsimp only at hlt
  omega

/-- **A new element** is linked to nothing yet. -/
theorem Cells.new_mlist_elem (hc : Cells g list es) (hd : d < 2 ^ 64)
    (hm : new_mlist_elem g.heap d = some (e, h')) :
    ∃ g', g'.heap = h' ∧ Cells g' list (e :: es) ∧ ¬ Live g e ∧ (∀ p, Live g' p → p = e ∨ Live g p) ∧
      (prev h' e = 0 ∧ next h' e = 0 ∧ data h' e = d) ∧
      ∀ p n i, Owns g p n → 8 * i + 8 ≤ n → Owns g' p n ∧ word h' p i = word g.heap p i := by
  obtain ⟨⟨p, h₁⟩, hmalloc, he⟩ := Option.map_eq_some_iff.mp hm
  obtain ⟨rfl, rfl⟩ := Prod.mk.inj he
  have hfits : HeadFits g.heap mlist_element_size := fun h => absurd h (by decide)
  obtain ⟨c, rfl, hsound, hnew, hsame⟩ :=
    hc.sound.malloc (by decide) hfits hc.roundsAlike hmalloc
  have hold : ∀ q m, Owns g q m → Owns (g.allocated h₁ c mlist_element_size) q m :=
    fun q m ⟨b, hb, hq⟩ => ⟨b, List.mem_cons_of_mem _ hb, hq⟩
  have hown : Owns (g.allocated h₁ c mlist_element_size) (c + chunk_info_size) mlist_element_size :=
    ⟨_, List.mem_cons_self, rfl, rfl⟩
  have hcells : Cells (g.allocated h₁ c mlist_element_size) list ((c + chunk_info_size) :: es) := by
    refine ⟨hsound, hold _ _ hc.header, fun x hx => ?_, fun r hr => ?_⟩
    · rcases List.mem_cons.mp hx with rfl | hx
      · exact hown
      · exact hold x _ (hc.elems x hx)
    · rw [Sys.allocated] at hr
      dsimp only at hr
      split_ifs at hr
      · exact hc.cut r hr
      · rcases List.mem_cons.mp hr with rfl | hr
        · exact .inl rfl
        · exact hc.cut r hr
  have hfresh : ¬ Live g (c + chunk_info_size) := by
    rintro ⟨b, hb, hptr⟩
    exact hnew b hb (Nat.add_right_cancel hptr)
  -- the three fields are set one after the other
  obtain ⟨hc₁, hw₁⟩ := hcells.written hown (i := 0) (v := 0) (by decide) (by decide)
  obtain ⟨hc₂, hw₂⟩ := hc₁.written hown (i := 1) (v := 0) (by decide) (by decide)
  obtain ⟨hc₃, hw₃⟩ := hc₂.written hown (i := 2) (v := d) (by decide) hd
  refine ⟨_, rfl, hc₃, hfresh, fun q hq => ?_, ⟨?_, ?_, ?_⟩, fun q m j hq hj => ⟨hold q m hq, ?_⟩⟩
  · obtain ⟨b, hb, rfl⟩ := hq
    rcases List.mem_cons.mp hb with rfl | hb
    · exact .inl rfl
    · exact .inr ⟨b, hb, rfl⟩
  · exact (hw₃ _ _ 0 hown (by decide)).trans
      ((if_neg (by simp)).trans ((hw₂ _ _ 0 hown (by decide)).trans
        ((if_neg (by simp)).trans ((hw₁ _ _ 0 hown (by decide)).trans (if_pos ⟨rfl, rfl⟩)))))
  · exact (hw₃ _ _ 1 hown (by decide)).trans
      ((if_neg (by simp)).trans ((hw₂ _ _ 1 hown (by decide)).trans (if_pos ⟨rfl, rfl⟩)))
  · exact (hw₃ _ _ 2 hown (by decide)).trans (if_pos ⟨rfl, rfl⟩)
  · have hne : q ≠ c + chunk_info_size := by
      rintro rfl
      exact hfresh hq.live
    have hq' := hold q m hq
    rw [← word_same hsame hq hj]
    exact (hw₃ q m j hq' hj).trans ((if_neg fun h => hne h.1).trans ((hw₂ q m j hq' hj).trans
      ((if_neg fun h => hne h.1).trans ((hw₁ q m j hq' hj).trans (if_neg fun h => hne h.1)))))

/-- **An element is freed.** No word of a block changes, not even of its own. -/
theorem Cells.free {es' : List ℕ} (hc : Cells g list es) (he : Owns g e mlist_element_size)
    (hes : ∀ x ∈ es', x ∈ es ∧ x ≠ e) :
    ∃ g', g'.heap = Stdlib.free g.heap e ∧ Cells g' list es' ∧ (∀ p, Live g' p ↔ Live g p ∧ p ≠ e) ∧
      ∀ p n i, Owns g p n → 8 * i + 8 ≤ n → word g'.heap p i = word g.heap p i := by
  have hlist := hc.ne_list he
  obtain ⟨b, hb, rfl, -⟩ := he
  obtain ⟨hsound, hsame⟩ := hc.sound.free hb
  have hkeep : ∀ q m, Owns g q m → q ≠ b.ptr → ∃ b' ∈ g.live.filter fun b' => decide (b'.ptr ≠ b.ptr),
      b'.ptr = q ∧ b'.size = m := by
    rintro q m ⟨b', hb', rfl, rfl⟩ hne
    exact ⟨b', List.mem_filter.mpr ⟨hb', decide_eq_true hne⟩, rfl, rfl⟩
  refine ⟨_, rfl, ⟨hsound, hkeep _ _ hc.header hlist.symm, fun x hx => ?_, hc.cut⟩, fun q => ?_,
    fun q m i hq hi => word_same hsame hq hi⟩
  · exact hkeep x _ (hc.elems x (hes x hx).1) (hes x hx).2
  · constructor
    · rintro ⟨b', hb', rfl⟩
      obtain ⟨hb', hne⟩ := List.mem_filter.mp hb'
      exact ⟨⟨b', hb', rfl⟩, of_decide_eq_true hne⟩
    · rintro ⟨⟨b', hb', rfl⟩, hne⟩
      exact ⟨b', List.mem_filter.mpr ⟨hb', decide_eq_true hne⟩, rfl⟩

/-! ## A new first or last element

`mlist_push` and `mlist_append` are one function with the two directions exchanged:
`i` is the end of the list and the link that points away from the other elements,
`j` the opposite one. -/

/-- A new element at the end `i`. -/
def add_elem (i j : ℕ) (h : Heap) (list data : ℕ) : Option Heap :=
  (new_mlist_elem h data).map fun (elem, h) =>
    if mlist_is_empty h list then set (set h list 1 elem) list 0 elem
    else
      let h := set h elem j (word h list i)
      let h := set h (word h elem j) i elem
      set h list i elem

theorem mlist_push_eq : mlist_push h list d = add_elem 0 1 h list d := rfl

theorem mlist_append_eq : mlist_append h list d = add_elem 1 0 h list d := rfl

/-- The state after a new element `e` has been added at the end `i`, in front of `a`. -/
structure Added (g g' : HeapRuns.Sys) (list i j a e d : ℕ) (es : List ℕ) : Prop where
  cells : Cells g' list (e :: es)
  fresh : ¬ Live g e
  live : ∀ p, Live g' p → p = e ∨ Live g p
  near : word g'.heap list i = e
  far : word g'.heap list j = if a = 0 then e else word g.heap list j
  new : word g'.heap e j = a ∧ word g'.heap e i = 0 ∧ word g'.heap e 2 = d
  old : ∀ x, Owns g x mlist_element_size → word g'.heap x j = word g.heap x j ∧
    (word g'.heap x i = if x = a then e else word g.heap x i) ∧ word g'.heap x 2 = word g.heap x 2

theorem Cells.add_elem {i j a : ℕ} (hc : Cells g list es) (hd : d < 2 ^ 64)
    (hij : i ≤ 1 ∧ j ≤ 1 ∧ i ≠ j) (ha : word g.heap list i = a)
    (hempty : head g.heap list = 0 ↔ a = 0) (hown : a ≠ 0 → Owns g a mlist_element_size)
    (hm : add_elem i j g.heap list d = some h') :
    ∃ g' e, g'.heap = h' ∧ Added g g' list i j a e d es := by
  obtain ⟨⟨e, h₁⟩, hnew, rfl⟩ := Option.map_eq_some_iff.mp hm
  obtain ⟨g₁, rfl, hc₁, hfresh, hlive, hfields, hold⟩ := hc.new_mlist_elem hd hnew
  obtain ⟨hi, hj, hne⟩ := hij
  have hi2 : 8 * i + 8 ≤ Exec.mlist_size ∧ 8 * i + 8 ≤ mlist_element_size := by
    unfold Exec.mlist_size mlist_element_size
    omega
  have hj2 : 8 * j + 8 ≤ Exec.mlist_size ∧ 8 * j + 8 ≤ mlist_element_size := by
    unfold Exec.mlist_size mlist_element_size
    omega
  have h2i : 2 ≠ i := by omega
  have h2j : 2 ≠ j := by omega
  have he : Owns g₁ e mlist_element_size := hc₁.elems e List.mem_cons_self
  have hel : e ≠ list := hc₁.ne_list he
  have hnot : ∀ x n, Owns g x n → x ≠ e := by
    rintro x n hx rfl
    exact hfresh hx.live
  have hlist : ∀ k, 8 * k + 8 ≤ Exec.mlist_size → word g₁.heap list k = word g.heap list k :=
    fun k hk => (hold list _ k hc.header hk).2
  have hzero : word g₁.heap e i = 0 := by
    have hor : i = 0 ∨ i = 1 := by omega
    rcases hor with rfl | rfl
    · exact hfields.1
    · exact hfields.2.1
  have hhead : mlist_is_empty g₁.heap list = decide (a = 0) := by
    have hsame : head g₁.heap list = head g.heap list := hlist 0 (by decide)
    rw [mlist_is_empty, hsame]
    by_cases h0 : a = 0
    · simp [h0, hempty.mpr h0]
    · have hne0 : head g.heap list ≠ 0 := fun hh => h0 (hempty.mp hh)
      simp [h0, hne0]
  by_cases h0 : a = 0
  · -- the list was empty: only the header is written
    obtain ⟨hc₂, hw₂⟩ := hc₁.written hc₁.header (i := 1) (by decide) (hc₁.ptr_lt he)
    obtain ⟨hc₃, hw₃⟩ := hc₂.written hc₂.header (i := 0) (by decide) (hc₁.ptr_lt he)
    have hw : ∀ q m k, Owns g₁ q m → 8 * k + 8 ≤ m → word (set (set g₁.heap list 1 e) list 0 e) q k =
        if q = list ∧ k ≤ 1 then e else word g₁.heap q k := by
      intro q m k hq hk
      rw [hw₃ q m k hq hk, hw₂ q m k hq hk]
      have hor : k ≤ 1 ↔ k = 0 ∨ k = 1 := by omega
      by_cases hql : q = list <;> by_cases hk0 : k = 0 <;> by_cases hk1 : k = 1 <;>
        simp [hql, hk0, hk1, hor]
    dsimp only
    rw [if_pos (hhead.trans (decide_eq_true h0))]
    refine ⟨_, e, rfl, hc₃, hfresh, hlive, ?_, ?_, ⟨?_, ?_, ?_⟩, fun x hx => ?_⟩
    · exact (hw _ _ _ hc₁.header hi2.1).trans (if_pos ⟨rfl, hi⟩)
    · exact ((hw _ _ _ hc₁.header hj2.1).trans (if_pos ⟨rfl, hj⟩)).trans (if_pos h0).symm
    · refine (hw _ _ _ he hj2.2).trans ((if_neg fun h => hel h.1).trans ?_)
      have hor : j = 0 ∨ j = 1 := by omega
      rcases hor with rfl | rfl
      · exact hfields.1.trans h0.symm
      · exact hfields.2.1.trans h0.symm
    · exact (hw _ _ _ he hi2.2).trans ((if_neg fun h => hel h.1).trans hzero)
    · exact (hw _ _ _ he (by decide)).trans ((if_neg fun h => hel h.1).trans hfields.2.2)
    · have hx₁ := (hold x _ 0 hx (by decide)).1
      have hxl : x ≠ list := hc₁.ne_list hx₁
      have hxa : x ≠ a := h0 ▸ hx.ne_zero
      have hsame : ∀ k, 8 * k + 8 ≤ mlist_element_size →
          word (set (set g₁.heap list 1 e) list 0 e) x k = word g.heap x k := fun k hk =>
        (hw _ _ _ hx₁ hk).trans ((if_neg fun h => hxl h.1).trans (hold x _ k hx hk).2)
      exact ⟨hsame j hj2.2, (hsame i hi2.2).trans (if_neg hxa).symm, hsame 2 (by decide)⟩
  · have hoa : Owns g₁ a mlist_element_size := (hold a _ 0 (hown h0) (by decide)).1
    have hae : a ≠ e := hnot a _ (hown h0)
    have hal : a ≠ list := hc₁.ne_list hoa
    obtain ⟨hc₂, hw₂⟩ := hc₁.written he (i := j) (v := a) hj2.2 (hc₁.ptr_lt hoa)
    obtain ⟨hc₃, hw₃⟩ := hc₂.written hoa (i := i) hi2.2 (hc₁.ptr_lt he)
    obtain ⟨hc₄, hw₄⟩ := hc₃.written hc₃.header (i := i) hi2.1 (hc₁.ptr_lt he)
    have hw : ∀ q m k, Owns g₁ q m → 8 * k + 8 ≤ m →
        word (set (set (set g₁.heap e j a) a i e) list i e) q k =
          if q = list ∧ k = i then e else if q = a ∧ k = i then e
            else if q = e ∧ k = j then a else word g₁.heap q k :=
      fun q m k hq hk => by rw [hw₄ q m k hq hk, hw₃ q m k hq hk, hw₂ q m k hq hk]
    -- the neighbour is read back from the new element
    have hread : word (set g₁.heap e j a) e j = a :=
      (hw₂ _ _ _ he hj2.2).trans (if_pos ⟨rfl, rfl⟩)
    dsimp only
    rw [if_neg (by simp [hhead, h0]), hlist i hi2.1, ha, hread]
    refine ⟨_, e, rfl, hc₄, hfresh, hlive, ?_, ?_, ⟨?_, ?_, ?_⟩, fun x hx => ?_⟩
    · exact (hw _ _ _ hc₁.header hi2.1).trans (if_pos ⟨rfl, rfl⟩)
    · refine (hw _ _ _ hc₁.header hj2.1).trans ?_
      simpa [h0, hne.symm, hel.symm] using hlist j hj2.1
    · refine (hw _ _ _ he hj2.2).trans ?_
      simp [hel, hae.symm]
    · refine (hw _ _ _ he hi2.2).trans ?_
      simpa [hel, hae.symm, hne] using hzero
    · refine (hw _ _ _ he (by decide)).trans ?_
      simpa [hel, hae.symm, h2j] using hfields.2.2
    · have hx₁ := (hold x _ 0 hx (by decide)).1
      have hxl : x ≠ list := hc₁.ne_list hx₁
      have hxe : x ≠ e := hnot x _ hx
      refine ⟨(hw _ _ _ hx₁ hj2.2).trans ?_, (hw _ _ _ hx₁ hi2.2).trans ?_,
        (hw _ _ _ hx₁ (by decide)).trans ?_⟩
      · simpa [hxl, hxe, hne.symm] using (hold x _ j hx hj2.2).2
      · simp only [hxl, hxe, false_and, if_false, and_true]
        exact congrArg (fun v => if x = a then e else v) (hold x _ i hx hi2.2).2
      · simpa [hxl, hxe, h2i] using (hold x _ 2 hx (by decide)).2

/-! ## The list and its sequence -/

/-- The list at `list` has the elements `es` with the data `l`, linked in both
directions; no element in use is one of `freed`. -/
structure Repr (h : Heap) (list : ℕ) (freed es l : List ℕ) : Prop where
  cells : ∃ g, g.heap = h ∧ Cells g list es ∧ ∀ x ∈ freed, ¬ Live g x
  fwd : Chain (next h) (head h list) es
  bwd : Chain (prev h) (tail h list) es.reverse
  vals : es.map (data h) = l

variable {freed l : List ℕ}

theorem Chain.head_eq_zero {nxt : ℕ → ℕ} {a : ℕ} (hc : Chain nxt a es) : a = 0 ↔ es = [] := by
  constructor
  · rintro rfl
    exact hc.eq_nil
  · rintro rfl
    exact hc

/-- `mlist_push` puts the datum in front. -/
theorem Repr.push (hr : Repr h list freed es l) (hd : d < 2 ^ 64)
    (hm : mlist_push h list d = some h') :
    ∃ e, head h' list = e ∧ Repr h' list (freed.filter fun x => decide (x ≠ e)) (e :: es) (d :: l) := by
  obtain ⟨g, rfl, hc, hfreed⟩ := hr.cells
  have hown : head g.heap list ≠ 0 → Owns g (head g.heap list) mlist_element_size := by
    intro h0
    obtain ⟨t, ht, -⟩ := hr.fwd.eq_cons h0
    exact hc.elems _ (by rw [ht]; exact List.mem_cons_self)
  rw [mlist_push_eq] at hm
  obtain ⟨g', e, rfl, hadd⟩ := hc.add_elem hd (by decide) rfl Iff.rfl hown hm
  have hold : ∀ x ∈ es, _ := fun x hx => hadd.old x (hc.elems x hx)
  have he : e ≠ 0 := (hadd.cells.elems e List.mem_cons_self).ne_zero
  have hchains : Chain (next g'.heap) e (e :: es) ∧ Chain (prev g'.heap)
      (if head g.heap list = 0 then e else tail g.heap list) (e :: es).reverse :=
    hr.fwd.extend hr.bwd he hadd.new.1 (fun x hx => (hold x hx).1) hadd.new.2.1
      fun x hx => (hold x hx).2.1
  refine ⟨e, hadd.near, ⟨g', rfl, hadd.cells, fun x hx hl => ?_⟩, ?_, ?_, ?_⟩
  · obtain ⟨hx, hne⟩ := List.mem_filter.mp hx
    rcases hadd.live x hl with rfl | hl
    · exact of_decide_eq_true hne rfl
    · exact hfreed x hx hl
  · rw [show head g'.heap list = e from hadd.near]
    exact hchains.1
  · rw [show tail g'.heap list = _ from hadd.far]
    exact hchains.2
  · rw [List.map_cons, ← hr.vals]
    refine congrArg₂ List.cons hadd.new.2.2 ?_
    exact List.map_congr_left fun x hx => (hold x hx).2.2

/-- `mlist_append` puts it behind. -/
theorem Repr.append (hr : Repr h list freed es l) (hd : d < 2 ^ 64)
    (hm : mlist_append h list d = some h') :
    ∃ e, tail h' list = e ∧
      Repr h' list (freed.filter fun x => decide (x ≠ e)) (es ++ [e]) (l ++ [d]) := by
  obtain ⟨g, rfl, hc, hfreed⟩ := hr.cells
  have hempty : head g.heap list = 0 ↔ tail g.heap list = 0 := by
    rw [Chain.head_eq_zero hr.fwd, Chain.head_eq_zero hr.bwd, List.reverse_eq_nil_iff]
  have hown : tail g.heap list ≠ 0 → Owns g (tail g.heap list) mlist_element_size := by
    intro h0
    obtain ⟨t, ht, -⟩ := hr.bwd.eq_cons h0
    have hmem : tail g.heap list ∈ es.reverse := by
      rw [ht]
      exact List.mem_cons_self
    exact hc.elems _ (List.mem_reverse.mp hmem)
  rw [mlist_append_eq] at hm
  obtain ⟨g', e, rfl, hadd⟩ := hc.add_elem hd (by decide) rfl hempty hown hm
  have hold : ∀ x ∈ es.reverse, _ := fun x hx => hadd.old x (hc.elems x (List.mem_reverse.mp hx))
  -- the same as in front, seen from the other end
  have hback : Chain (next g.heap) (head g.heap list) es.reverse.reverse := by
    rw [List.reverse_reverse]
    exact hr.fwd
  have he : e ≠ 0 := (hadd.cells.elems e List.mem_cons_self).ne_zero
  have hchains : Chain (prev g'.heap) e (e :: es.reverse) ∧ Chain (next g'.heap)
      (if tail g.heap list = 0 then e else head g.heap list) (e :: es.reverse).reverse :=
    hr.bwd.extend hback he hadd.new.1 (fun x hx => (hold x hx).1) hadd.new.2.1
      fun x hx => (hold x hx).2.1
  refine ⟨e, hadd.near, ⟨g', rfl, ⟨hadd.cells.sound, hadd.cells.header, fun x hx => ?_,
    hadd.cells.cut⟩, fun x hx hl => ?_⟩, ?_, ?_, ?_⟩
  · exact hadd.cells.elems x (by simpa [or_comm] using hx)
  · obtain ⟨hx, hne⟩ := List.mem_filter.mp hx
    rcases hadd.live x hl with rfl | hl
    · exact of_decide_eq_true hne rfl
    · exact hfreed x hx hl
  · rw [show head g'.heap list = _ from hadd.far]
    simpa using hchains.2
  · rw [show tail g'.heap list = e from hadd.near]
    simpa using hchains.1
  · rw [List.map_append, ← hr.vals]
    refine congrArg₂ (· ++ ·) ?_ (congrArg (fun v => [v]) hadd.new.2.2)
    exact List.map_congr_left fun x hx => (hold x (List.mem_reverse.mpr hx)).2.2

/-! ## An element is taken out -/

/-- The header has been given the words `u` and `w`, and the element `e` freed.
The links of the other elements have not been touched. -/
structure Taken (h h' : Heap) (list e u w : ℕ) (freed es : List ℕ) : Prop where
  cells : ∃ g, g.heap = h' ∧ Cells g list (es.filter fun x => decide (x ≠ e)) ∧
    ∀ x ∈ e :: freed, ¬ Live g x
  first : head h' list = u
  last : tail h' list = w
  old : ∀ x ∈ es, ∀ k ≤ 2, word h' x k = word h x k

theorem Cells.taken {u w : ℕ} (hc : Cells g list es) (he : e ∈ es)
    (hfreed : ∀ x ∈ freed, ¬ Live g x) (hu : head g.heap list = u) (hw : tail g.heap list = w)
    (hold : ∀ x ∈ es, ∀ k ≤ 2, word g.heap x k = word h x k) :
    Taken h (Stdlib.free g.heap e) list e u w freed es := by
  have hsub : ∀ x ∈ es.filter (fun x => decide (x ≠ e)), x ∈ es ∧ x ≠ e := fun x hx =>
    ⟨(List.mem_filter.mp hx).1, of_decide_eq_true (List.mem_filter.mp hx).2⟩
  obtain ⟨g', hg', hc', hlive, hwords⟩ := hc.free (hc.elems e he) hsub
  rw [← hg']
  refine ⟨⟨g', rfl, hc', fun x hx hl => ?_⟩, ?_, ?_, fun x hx k hk => ?_⟩
  · rcases List.mem_cons.mp hx with rfl | hx
    · exact ((hlive x).mp hl).2 rfl
    · exact hfreed x hx ((hlive x).mp hl).1
  · exact (hwords list _ 0 hc.header (by decide)).trans hu
  · exact (hwords list _ 1 hc.header (by decide)).trans hw
  · rw [hwords x _ k (hc.elems x hx) (by unfold mlist_element_size; omega)]
    exact hold x hx k hk

/-- A word of the header is set. -/
theorem Cells.header_written (hc : Cells g list es) (hi : i ≤ 1) (hv : v < 2 ^ 64) :
    Cells { g with heap := set g.heap list i v } list es ∧
      (∀ j ≤ 1, word (set g.heap list i v) list j = if j = i then v else word g.heap list j) ∧
      ∀ x ∈ es, ∀ k ≤ 2, word (set g.heap list i v) x k = word g.heap x k := by
  obtain ⟨hc', hw⟩ := hc.written hc.header (i := i) (by unfold Exec.mlist_size; omega) hv
  refine ⟨hc', fun j hj => ?_, fun x hx k hk => ?_⟩
  · rw [hw list _ j hc.header (by unfold Exec.mlist_size; omega)]
    simp
  · have hx := hc.elems x hx
    rw [hw x _ k hx (by unfold mlist_element_size; omega), if_neg fun h => hc.ne_list hx h.1]

/-- The first element is the last one if and only if it is the only one. -/
theorem Repr.first_eq_last (hr : Repr h list freed (e :: es) l) : e = tail h list ↔ es = [] := by
  have hback := hr.bwd
  rw [List.reverse_cons] at hback
  constructor
  · intro he
    by_contra hes
    have hlast : e ∈ es.reverse := by
      cases hrev : es.reverse with
      | nil => exact absurd (List.reverse_eq_nil_iff.mp hrev) hes
      | cons y ys =>
        rw [hrev] at hback
        rw [he, hback.1]
        exact List.mem_cons_self
    exact (List.nodup_cons.mp hr.fwd.nodup).1 (List.mem_reverse.mp hlast)
  · rintro rfl
    exact hback.1.symm

/-- What `mlist_pop` does to a list that is not empty. -/
theorem Repr.pop_cons (hr : Repr h list freed (e :: es) l) :
    (mlist_pop h list).1 = data h e ∧
      Taken h (mlist_pop h list).2 list e (if es = [] then 0 else next h e)
        (if es = [] then 0 else tail h list) freed (e :: es) := by
  have hone := hr.first_eq_last
  obtain ⟨g, rfl, hc, hfreed⟩ := hr.cells
  have hhead : head g.heap list = e := hr.fwd.1
  have hne : ¬ mlist_is_empty g.heap list = true := by
    rw [mlist_is_empty, hhead]
    simpa using hr.fwd.2.1
  unfold mlist_pop
  rw [if_neg hne, hhead]
  refine ⟨rfl, ?_⟩
  dsimp only
  by_cases hes : es = []
  · rw [if_pos (hone.mpr hes), if_pos hes, if_pos hes]
    obtain ⟨hc₁, hl₁, hx₁⟩ := hc.header_written (i := 1) (v := 0) (by decide) (by decide)
    obtain ⟨hc₂, hl₂, hx₂⟩ := hc₁.header_written (i := 0) (v := 0) (by decide) (by decide)
    apply hc₂.taken List.mem_cons_self hfreed
    · exact hl₂ 0 (by decide)
    · exact (hl₂ 1 (by decide)).trans (hl₁ 1 (by decide))
    · intro x hx k hk
      exact (hx₂ x hx k hk).trans (hx₁ x hx k hk)
  · rw [if_neg fun h => hes (hone.mp h), if_neg hes, if_neg hes]
    obtain ⟨hc₁, hl₁, hx₁⟩ :=
      hc.header_written (i := 0) (v := next g.heap e) (by decide) (word_lt ..)
    apply hc₁.taken List.mem_cons_self hfreed
    · exact hl₁ 0 (by decide)
    · exact hl₁ 1 (by decide)
    · exact hx₁

/-- `seek` on a list. -/
theorem seek_chain {q : ℕ → Bool} {a : ℕ} (hc : Chain (next h) a es) (hfuel : es.length < fuel) :
    seek h q fuel a = some ((es.find? fun e => q (data h e)).getD 0) := by
  induction es generalizing a fuel with
  | nil =>
    obtain rfl : a = 0 := hc
    cases fuel with
    | zero => exact absurd hfuel (Nat.not_lt_zero _)
    | succ fuel => rfl
  | cons e es ih =>
    obtain ⟨rfl, ha, hrest⟩ := hc
    cases fuel with
    | zero => exact absurd hfuel (Nat.not_lt_zero _)
    | succ fuel =>
      rw [seek, if_neg ha, List.find?_cons]
      rw [List.length_cons] at hfuel
      by_cases hq : q (data h a) = true
      · rw [if_pos hq, hq]
        rfl
      · rw [if_neg hq, Bool.eq_false_iff.mpr hq]
        exact ih hrest (by omega)

/-- A list has fewer elements than `seek` has turns. -/
theorem Repr.length_lt (hr : Repr h list freed es l) : es.length < seek_max :=
  hr.fwd.length_lt (word_lt ..) fun _ => word_lt ..

/-- What `mlist_remove` does where the datum is found at the element `e`. -/
theorem Repr.remove_at (hr : Repr h list freed es l)
    (hfind : es.find? (fun x => data h x == d) = some e) :
    ∃ h', mlist_remove h list d = some h' ∧
      Taken h h' list e (if e = head h list then next h e else head h list)
        (if e = tail h list then prev h e else tail h list) freed es := by
  obtain ⟨g, rfl, hc, hfreed⟩ := hr.cells
  have he : e ∈ es := List.mem_of_find?_eq_some hfind
  have he0 : e ≠ 0 := (hc.elems e he).ne_zero
  have hne : ¬ mlist_is_empty g.heap list = true := by
    rw [mlist_is_empty, beq_iff_eq, Chain.head_eq_zero hr.fwd]
    rintro rfl
    cases he
  unfold mlist_remove
  rw [if_neg hne, seek_chain hr.fwd hr.length_lt, hfind, Option.getD_some, Option.bind_some,
    if_neg he0]
  refine ⟨_, rfl, ?_⟩
  -- the header after the test for the first element, then after that for the last one
  have hfirst : ∃ g₁, g₁.heap = (if e = head g.heap list then set g.heap list 0 (next g.heap e)
      else g.heap) ∧ g₁.live = g.live ∧ Cells g₁ list es ∧
      (head g₁.heap list = if e = head g.heap list then next g.heap e else head g.heap list) ∧
      tail g₁.heap list = tail g.heap list ∧
      ∀ x ∈ es, ∀ k ≤ 2, word g₁.heap x k = word g.heap x k := by
    by_cases hh : e = head g.heap list
    · obtain ⟨hc₁, hl₁, hx₁⟩ :=
        hc.header_written (i := 0) (v := next g.heap e) (by decide) (word_lt ..)
      have hhead₁ := hl₁ 0 (by decide)
      have htail₁ := hl₁ 1 (by decide)
      rw [if_pos rfl] at hhead₁
      rw [if_neg (by decide)] at htail₁
      rw [if_pos hh, if_pos hh]
      exact ⟨{ g with heap := set g.heap list 0 (next g.heap e) }, rfl, rfl, hc₁, hhead₁, htail₁, hx₁⟩
    · rw [if_neg hh, if_neg hh]
      exact ⟨g, rfl, rfl, hc, rfl, rfl, fun _ _ _ _ => rfl⟩
  obtain ⟨g₁, hg₁, hlive₁, hc₁, hhead₁, htail₁, hx₁⟩ := hfirst
  rw [← hg₁, ← hhead₁, htail₁]
  have hfreed₁ : ∀ x ∈ freed, ¬ Live g₁ x := by
    unfold Live
    rw [hlive₁]
    exact hfreed
  have hprev : prev g₁.heap e = prev g.heap e := hx₁ e he 0 (by decide)
  by_cases ht : e = tail g.heap list
  · rw [if_pos ht, if_pos ht, hprev]
    obtain ⟨hc₂, hl₂, hx₂⟩ :=
      hc₁.header_written (i := 1) (v := prev g.heap e) (by decide) (word_lt ..)
    apply hc₂.taken he hfreed₁
    · exact hl₂ 0 (by decide)
    · exact hl₂ 1 (by decide)
    · intro x hx k hk
      exact (hx₂ x hx k hk).trans (hx₁ x hx k hk)
  · rw [if_neg ht, if_neg ht]
    exact hc₁.taken he hfreed₁ rfl htail₁ hx₁

end Loos.Mlist
