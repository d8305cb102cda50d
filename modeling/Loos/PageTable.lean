/-
`mm/n_vm.c`, the page tables: the two walkers and `__map_pages`.

A page table is a radix tree of three levels, each table one page of 2048
words. `__map_single_page` follows and stores raw `kmalloc` pointers,
`va_to_pte_pointer` masks every entry and re-bases it; on pages of the
direct-mapped window the two agree (`KPage.PA2VA_PTE2PA`), so both are read
here as [`Radix.walk`] of the same tree. What a mapping does is then a statement
about the leaf entries: one entry changes ([`map_single_page_spec`]).

The invariant is separation: the tables are distinct pages, none of them is
free, and every one is a page `kmalloc` may return.
-/
import Loos.Mm
import Loos.Lib.Radix

set_option autoImplicit false

namespace Loos.PageTable

open SysLib Kern

/-! ## The code -/

/-- The body of the loop of `__map_single_page`: the table below entry
`PX(level, va)`, allocated and entered if the entry is zero. -/
def map_level (k : Kern) (iter_pagetable va level : ℕ) : Option (ℕ × Kern) :=
  let slot := iter_pagetable + 8 * PX level va
  if k.mem.load64 slot = 0 then
    (kmalloc k PGSIZE).map fun r =>
      let k' := (r.2.memset r.1 0 PGSIZE).write slot r.1
      (k'.mem.load64 slot, k')
  else some (k.mem.load64 slot, k)

/-- `__map_single_page` -/
def map_single_page (k : Kern) (pagetable va pa perm : ℕ) : Option Kern :=
  ([2, 1].foldlM (fun (s : ℕ × Kern) level => map_level s.2 s.1 va level) (pagetable, k)).map
    fun s =>
      let slot := s.1 + 8 * PX 0 va
      s.2.write slot (PA2PTE pa ||| PTE_FLAGS (s.2.mem.load64 slot) ||| perm)

/-- `&iter_pagetable[PX(0, va)]` where `__map_single_page` assigns to it, and the machine then. -/
def map_single_page_slot (k : Kern) (pagetable va : ℕ) : Option (ℕ × Kern) :=
  ([2, 1].foldlM (fun (s : ℕ × Kern) level => map_level s.2 s.1 va level) (pagetable, k)).map
    fun s => (s.1 + 8 * PX 0 va, s.2)

/-- The loop of `va_to_pte_pointer`, from `level` down; the result `0` is `return 0`. -/
def va_to_pte_loop (va : ℕ) (alloc : Bool) : ℕ → Kern → ℕ → Option (ℕ × Kern)
  | 0, k, pagetable => some (pagetable + 8 * PX 0 va, k)
  | level + 1, k, pagetable =>
    let pte := pagetable + 8 * PX (level + 1) va
    if k.mem.load64 pte ≠ 0 then
      va_to_pte_loop va alloc level k (PA2VA (PTE2PA (k.mem.load64 pte)))
    else if alloc then
      match kmalloc k PGSIZE with
      | none => none
      | some (new, k') =>
        if new = 0 then some (0, k')
        else va_to_pte_loop va alloc level
          ((k'.memset new 0 PGSIZE).write pte (PA2PTE new ||| PTE_V)) new
    else some (0, k)

/-- `va_to_pte_pointer`; `none` is `panic("walk")`. -/
def va_to_pte_pointer (k : Kern) (pagetable va : ℕ) (alloc : Bool) : Option (ℕ × Kern) :=
  if va ≥ MAXVA then none else va_to_pte_loop va alloc 2 k (PA2VA pagetable)

/-- `va_to_pa` -/
def va_to_pa (k : Kern) (pagetable va : ℕ) : Option ℕ :=
  let offset := va % PGSIZE
  let va := va - offset
  if va ≥ MAXVA then some 0
  else (va_to_pte_pointer k pagetable va false).map fun r =>
    if r.1 = 0 then 0
    else if k.mem.load64 r.1 &&& PTE_V = 0 then 0
    else PTE2PA (k.mem.load64 r.1) + offset

/-- The loop state of `__map_pages`: `vac`, `pa_map` and the machine. -/
structure MapLoop where
  vac : ℕ
  pa_map : ℕ
  kern : Kern

/-- The body of the loop of `__map_pages`. -/
def map_pages_body (pagetable perm : ℕ) (s : MapLoop) : Option MapLoop :=
  (map_single_page s.kern pagetable s.vac s.pa_map perm).map fun k =>
    ⟨(s.vac + PGSIZE) % 2 ^ 64, (s.pa_map + PGSIZE) % 2 ^ 64, k⟩

/-- The loop of `__map_pages`. There are `2^50` page addresses, so a loop that
makes more turns than that never ends. -/
def map_pages_loop (pagetable perm va_end : ℕ) : MapLoop → Option MapLoop :=
  loop (fun s => decide (s.vac ≤ va_end)) (map_pages_body pagetable perm) (2 ^ 50 + 1)

/-- `__map_pages` -/
def map_pages (k : Kern) (pagetable va size pa perm : ℕ) : Option Kern :=
  (map_pages_loop pagetable perm (PGROUNDDOWN ((va + size + 2 ^ 64 - 1) % 2 ^ 64))
    ⟨PGROUNDDOWN va, PGROUNDDOWN pa, k⟩).map MapLoop.kern

/-- `pgtbl_create` -/
def pgtbl_create (k : Kern) : Option (ℕ × Kern) :=
  (kmalloc k PGSIZE).map fun r =>
    if r.1 ≠ 0 then (r.1, r.2.memset r.1 0 PGSIZE) else (0, r.2)

/-! ## The tree in memory -/

/-- Entry `i` of the table at `pt`. -/
def rd (m : Mem) (pt : ℕ) (i : Fin PTENTRIES) : ℕ := m.load64 (pt + 8 * i)

/-- `PX(level, va)` as an index. -/
def idx (level va : ℕ) : Fin PTENTRIES := ⟨PX level va, PX_lt level va⟩

/-- The way from the root to the leaf entry of `va`. -/
def path (va : ℕ) : List (Fin PTENTRIES) := [idx 2 va, idx 1 va, idx 0 va]

/-- The leaf entry of `va`, zero if a table on the way is missing. -/
def leaf (m : Mem) (root va : ℕ) : ℕ := Radix.walk (rd m) root (path va)

@[simp] theorem path_length (va : ℕ) : (path va).length = 3 := rfl

@[simp] theorem idx_val (level va : ℕ) : (idx level va : ℕ) = PX level va := rfl

theorem leaf_page {m : Mem} {root y z : ℕ} (h : y / PGSIZE = z / PGSIZE) :
    leaf m root y = leaf m root z := by
  simp only [leaf, path, idx, PX_congr _ h]

/-- The walkers do not look at the bits from 47 on. -/
theorem path_mod (va : ℕ) : path (va % MAXVA) = path va := by
  have hbits : ∀ level ≤ 2, idx level (va % MAXVA) = idx level va := by
    intro level hlevel
    apply Fin.ext
    obtain rfl | rfl | rfl : level = 0 ∨ level = 1 ∨ level = 2 := by omega
    all_goals
      simp only [idx_val, PX_eq, PTENTRIES, MAXVA, Nat.reduceMul, Nat.reduceAdd, Nat.reducePow]
      omega
  rw [path, hbits 2 (by omega), hbits 1 (by omega), hbits 0 (by omega), path]

/-- Below `2^47` a path belongs to one page. -/
theorem path_inj {va va' : ℕ} (h : va < MAXVA) (h' : va' < MAXVA) :
    path va = path va' ↔ va / PGSIZE = va' / PGSIZE := by
  constructor
  · intro he
    simp only [path, List.cons.injEq, idx, Fin.mk.injEq, and_true] at he
    exact PX_inj h h' he.1 he.2.1 he.2.2
  · intro he
    simp only [path, idx, PX_congr _ he]

/-- The bytes of page `P` are the same in both memories. -/
def SamePage (m m' : Mem) (P : ℕ) : Prop := ∀ x, P ≤ x → x < P + PGSIZE → m' x = m x

theorem SamePage.refl (m : Mem) (P : ℕ) : SamePage m m P := fun _ _ _ => rfl

theorem SamePage.trans {m₁ m₂ m₃ : Mem} {P : ℕ} (h : SamePage m₁ m₂ P) (h' : SamePage m₂ m₃ P) :
    SamePage m₁ m₃ P :=
  fun x h1 h2 => (h' x h1 h2).trans (h x h1 h2)

theorem SamePage.rd {m m' : Mem} {P : ℕ} (h : SamePage m m' P) (i : Fin PTENTRIES) :
    rd m' P i = rd m P i :=
  Mem.load64_congr fun x h1 h2 => h x (by omega) (by
    have := i.isLt
    unfold PTENTRIES PGSIZE at *
    omega)

/-- Writing a word inside page `Q` leaves the other pages alone. -/
theorem samePage_write {m : Mem} {P Q v : ℕ} (hP : P % PGSIZE = 0) (hQ : Q % PGSIZE = 0)
    (hne : P ≠ Q) (i : Fin PTENTRIES) : SamePage m (m.store64 (Q + 8 * i) v) P := by
  intro x h1 h2
  have hd := Memblock.aligned_disjoint hP hQ hne
  have hi := i.isLt
  unfold PTENTRIES at hi
  unfold PGSIZE at hd h2
  exact Mem.store64_apply_of_disjoint (by omega)

theorem samePage_fill {m : Mem} {P Q : ℕ} {c : UInt8} (hP : P % PGSIZE = 0) (hQ : Q % PGSIZE = 0)
    (hne : P ≠ Q) : SamePage m (m.fill Q PGSIZE c) P := by
  intro x h1 h2
  have hd := Memblock.aligned_disjoint hP hQ hne
  exact Mem.fill_apply_of_disjoint (by omega)

/-- `kmalloc` writes to the page that it returns, and to no other. -/
theorem samePage_kmalloc {k k' : Kern} {P Q : ℕ} {size : ℤ} (hk : kmalloc k size = some (Q, k'))
    (hQ : Q % PGSIZE = 0) (hP : P % PGSIZE = 0) (hne : P ≠ Q) : SamePage k.mem k'.mem P := by
  rw [(kmalloc_eq_some hk).2]
  exact samePage_fill hP hQ hne

/-- `kfree` writes to the page that it receives, and to no other. -/
theorem kfree_spec {k k' : Kern} {Q : ℕ} (hk : kfree k Q = some k') :
    k'.pages = Q :: k.pages ∧ ∀ P, P % PGSIZE = 0 → P ≠ Q → SamePage k.mem k'.mem P := by
  have hQ : Q % PGSIZE = 0 := by
    by_contra hal
    rw [kfree, if_neg hal] at hk
    cases hk
  rw [kfree_of_aligned hQ] at hk
  obtain rfl := Option.some.inj hk
  refine ⟨rfl, fun P hP hne => ?_⟩
  exact (samePage_fill hP hQ hne).trans (samePage_write hP hQ hne 0)

/-- Reading back the entry that was written. -/
theorem rd_write_same {m : Mem} {P v : ℕ} {i : Fin PTENTRIES} (hv : v < 2 ^ 64) :
    rd (m.store64 (P + 8 * i) v) P i = v :=
  Mem.load64_store64_same hv

/-- Every other entry of the same table is unchanged. -/
theorem rd_write_ne {m : Mem} {P v : ℕ} {i j : Fin PTENTRIES} (h : j ≠ i) :
    rd (m.store64 (P + 8 * i) v) P j = rd m P j :=
  Mem.load64_store64_disjoint (by
    have : (j : ℕ) ≠ i := fun e => h (Fin.ext e)
    omega)

/-- Every entry of a zeroed page is zero. -/
theorem rd_zeroed (m : Mem) (P : ℕ) (i : Fin PTENTRIES) : rd (m.fill P PGSIZE 0) P i = 0 :=
  Mem.load64_fill_zero (by omega) (by
    have := i.isLt
    unfold PTENTRIES at this
    unfold PGSIZE
    omega)

/-! ## The invariant -/

/-- **A well-formed page table.** The tables reached from `root` are distinct
and are exactly the pages of `T`, all of them pages of the direct-mapped window. -/
structure PtOk (m : Mem) (root : ℕ) (T : List ℕ) : Prop where
  sep : Radix.Sep (rd m) root 2
  node : ∀ x, x ∈ T ↔ Radix.Node (rd m) root 2 x
  kpage : ∀ x ∈ T, KPage x

/-- From `k` to `k'` the tables `T` below `root` grew by the pages `N`, taken
from the front of the free list; no other page changed. -/
structure Grows (k k' : Kern) (root : ℕ) (T N : List ℕ) : Prop where
  pages : k.pages = N ++ k'.pages
  ok : PtOk k'.mem root (T ++ N)
  frame : ∀ P, KPage P → P ∉ T → P ∉ N → SamePage k.mem k'.mem P

variable {k k' k₁ k₂ : Kern} {root : ℕ} {T N N₁ N₂ : List ℕ}

theorem PtOk.walk_mem {m : Mem} (h : PtOk m root T) {p : List (Fin PTENTRIES)}
    (hp : p.length ≤ 2) (h0 : Radix.walk (rd m) root p ≠ 0) : Radix.walk (rd m) root p ∈ T :=
  (h.node _).mpr ⟨h0, p, hp, rfl⟩

/-- A table whose pages are untouched is the same table. -/
theorem PtOk.walk_congr {m m' : Mem} (h : PtOk m root T) (hs : ∀ P ∈ T, SamePage m m' P)
    {p : List (Fin PTENTRIES)} (hp : p.length ≤ 3) :
    Radix.walk (rd m') root p = Radix.walk (rd m) root p :=
  Radix.walk_congr (d := 2) (fun _ j hr h0 => (hs _ (h.walk_mem hr h0)).rd j) hp

theorem PtOk.congr {m m' : Mem} (h : PtOk m root T) (hs : ∀ P ∈ T, SamePage m m' P) :
    PtOk m' root T := by
  have hw : ∀ p : List (Fin PTENTRIES), p.length ≤ 2 →
      Radix.walk (rd m') root p = Radix.walk (rd m) root p :=
    fun p hp => h.walk_congr hs (by omega)
  refine ⟨h.sep.congr hw, fun x => ?_, h.kpage⟩
  rw [h.node]
  constructor
  · rintro ⟨hx, p, hp, rfl⟩
    exact ⟨hx, p, hp, hw p hp⟩
  · rintro ⟨hx, p, hp, rfl⟩
    exact ⟨hx, p, hp, (hw p hp).symm⟩

theorem Grows.fresh (h : Grows k k' root T N) (hf : Fresh k T) : Fresh k' (T ++ N) :=
  hf.of_pages h.pages

theorem Grows.refl (h : PtOk k.mem root T) : Grows k k root T [] :=
  ⟨rfl, by rwa [List.append_nil], fun _ _ _ _ => SamePage.refl _ _⟩

theorem Grows.trans (h : Grows k k₁ root T N₁) (h' : Grows k₁ k₂ root (T ++ N₁) N₂) :
    Grows k k₂ root T (N₁ ++ N₂) := by
  refine ⟨by rw [h.pages, h'.pages, List.append_assoc], by rw [← List.append_assoc]; exact h'.ok,
    fun P hP hT hN => ?_⟩
  rw [List.mem_append, not_or] at hN
  exact (h.frame P hP hT hN.1).trans
    (h'.frame P hP (by rw [List.mem_append, not_or]; exact ⟨hT, hN.1⟩) hN.2)

/-! ## `pgtbl_create` -/

/-- **`pgtbl_create`** returns an empty table in a page of its own. -/
theorem pgtbl_create_spec (hf : Fresh k []) (h : pgtbl_create k = some (root, k')) :
    k.pages = root :: k'.pages ∧ PtOk k'.mem root [root] ∧ (∀ q, q ≠ [] →
      Radix.walk (rd k'.mem) root q = 0) ∧
      ∀ P, KPage P → P ≠ root → SamePage k.mem k'.mem P := by
  obtain ⟨⟨r, k₁⟩, hk, hr⟩ := Option.map_eq_some_iff.mp h
  obtain ⟨hpages, hmem⟩ := kmalloc_eq_some hk
  have hkp : KPage r := hf.kpage r (by rw [hpages]; exact List.mem_cons_self)
  obtain ⟨rfl, rfl⟩ : r = root ∧ k₁.memset r 0 PGSIZE = k' := by
    simpa [hkp.ne_zero] using hr
  have hzero : ∀ q : List (Fin PTENTRIES), q ≠ [] →
      Radix.walk (rd (k₁.memset r 0 PGSIZE).mem) r q = 0 := by
    intro q hq
    obtain ⟨i, q, rfl⟩ := List.exists_cons_of_ne_nil hq
    rw [show i :: q = [i] ++ q from rfl, Radix.walk_append,
      show Radix.walk (rd (k₁.memset r 0 PGSIZE).mem) r [i] = 0 by
        rw [show [i] = [] ++ [i] from rfl, Radix.walk_snoc, Radix.walk_nil, if_neg hkp.ne_zero]
        exact rd_zeroed _ _ _, Radix.walk_zero]
  refine ⟨hpages, ⟨⟨hkp.ne_zero, fun p q hp hq h0 he => ?_⟩, fun x => ?_, ?_⟩, hzero, ?_⟩
  · have hp' : p = [] := by
      by_contra hne
      exact h0 (hzero p hne)
    have hq' : q = [] := by
      by_contra hne
      rw [he, hzero q hne] at h0
      exact h0 rfl
    rw [hp', hq']
  · rw [List.mem_singleton]
    constructor
    · rintro rfl
      exact ⟨hkp.ne_zero, [], by simp, rfl⟩
    · rintro ⟨hx, p, -, rfl⟩
      by_contra hne
      refine hx (hzero p fun hp => hne ?_)
      rw [hp, Radix.walk_nil]
  · intro x hx
    rw [List.mem_singleton.mp hx]
    exact hkp
  · intro P hP hne
    exact (samePage_kmalloc hk hkp.aligned hP.aligned hne).trans
      (samePage_fill hP.aligned hkp.aligned hne)

theorem pgtbl_create_isSome (h : 0 < k.pages.length) : ∃ r, pgtbl_create k = some r := by
  obtain ⟨root, rest, hpages⟩ := List.exists_cons_of_length_pos h
  rw [pgtbl_create, kmalloc_of_cons (le_refl (PGSIZE : ℤ)) hpages]
  exact ⟨_, rfl⟩

/-! ## `__map_single_page` -/

/-- Entering a fresh zeroed page `n` in a free slot of the table at `p`. -/
theorem grows_insert {n : ℕ} {p : List (Fin PTENTRIES)} {i : Fin PTENTRIES} {c : UInt8}
    (h : PtOk k.mem root T) (hf : Fresh k T) (hpages : k.pages = n :: k'.pages)
    (hp : p.length ≤ 1) (h0 : Radix.walk (rd k.mem) root p ≠ 0)
    (hfree : rd k.mem (Radix.walk (rd k.mem) root p) i = 0)
    (hmem : k'.mem = (((k.mem.fill n PGSIZE c).fill n PGSIZE 0).store64
      (Radix.walk (rd k.mem) root p + 8 * i) n)) :
    Grows k k' root T [n] ∧ Radix.Inserts (rd k.mem) (rd k'.mem) root 2 p i n := by
  have hn : KPage n := hf.kpage n (by rw [hpages]; exact List.mem_cons_self)
  have hnT : n ∉ T := by
    have := hf.nodup
    rw [hpages] at this
    exact fun hT => (List.nodup_append.mp this).2.2 n hT n List.mem_cons_self rfl
  have hmemT := h.walk_mem (by omega) h0
  have hP := h.kpage _ hmemT
  have hPn : Radix.walk (rd k.mem) root p ≠ n := fun e => hnT (e ▸ hmemT)
  have hn64 : n < 2 ^ 64 := by
    have := hn.bounds
    unfold MAIN_KERNEL_DMW PGSIZE at this
    omega
  -- pages other than the table written and the new page
  have hother : ∀ P, KPage P → P ≠ n → P ≠ Radix.walk (rd k.mem) root p →
      SamePage k.mem k'.mem P := by
    intro P hkP hPn hPp
    rw [hmem]
    exact ((samePage_fill hkP.aligned hn.aligned hPn).trans
      (samePage_fill hkP.aligned hn.aligned hPn)).trans
      (samePage_write hkP.aligned hP.aligned hPp i)
  have hfills : ∀ j, rd ((k.mem.fill n PGSIZE c).fill n PGSIZE 0)
      (Radix.walk (rd k.mem) root p) j = rd k.mem (Radix.walk (rd k.mem) root p) j := fun j =>
    ((samePage_fill hP.aligned hn.aligned hPn).trans
      (samePage_fill hP.aligned hn.aligned hPn)).rd j
  have hins : Radix.Inserts (rd k.mem) (rd k'.mem) root 2 p i n := by
    refine ⟨by omega, h0, hfree, ⟨hn.ne_zero, fun r hr he => hnT ?_⟩, fun j => ?_, ?_, ?_⟩
    · rw [← he]
      exact h.walk_mem hr (by rw [he]; exact hn.ne_zero)
    · rw [hmem, (samePage_write hn.aligned hP.aligned (Ne.symm hPn) i).rd j]
      exact rd_zeroed _ _ _
    · rw [hmem]
      exact rd_write_same hn64
    · intro r j hr hr0 hne
      by_cases hrp : r = p
      · subst hrp
        rw [hmem, rd_write_ne (hne.resolve_left fun h => h rfl), hfills]
      · have hrT := h.walk_mem hr hr0
        refine (hother _ (h.kpage _ hrT) (fun e => hnT (e ▸ hrT)) fun e => hrp ?_).rd j
        exact h.sep.inj r p hr (by omega) hr0 e
  refine ⟨⟨hpages, ⟨hins.sep h.sep, fun x => ?_, fun x hx => ?_⟩, fun P hkP hPT hPN => ?_⟩, hins⟩
  · rw [hins.node_iff, List.mem_append, List.mem_singleton, h.node]
    exact Or.comm
  · rcases List.mem_append.mp hx with hx | hx
    · exact h.kpage x hx
    · rw [List.mem_singleton.mp hx]
      exact hn
  · rw [List.mem_singleton] at hPN
    exact hother P hkP hPN fun e => hPT (e ▸ hmemT)

/-- **One level.** The table below the entry exists afterwards, and no leaf
entry has changed. -/
theorem map_level_spec {va level q : ℕ} {p : List (Fin PTENTRIES)}
    (h : PtOk k.mem root T) (hf : Fresh k T) (hp : p.length ≤ 1)
    (h0 : Radix.walk (rd k.mem) root p ≠ 0)
    (hk : map_level k (Radix.walk (rd k.mem) root p) va level = some (q, k')) :
    ∃ N, N.length ≤ 1 ∧ Grows k k' root T N ∧ q ≠ 0 ∧
      Radix.walk (rd k'.mem) root (p ++ [idx level va]) = q ∧
      ∀ r, r.length = 3 → Radix.walk (rd k'.mem) root r = Radix.walk (rd k.mem) root r := by
  have hslot : k.mem.load64 (Radix.walk (rd k.mem) root p + 8 * PX level va)
      = rd k.mem (Radix.walk (rd k.mem) root p) (idx level va) := rfl
  simp only [map_level] at hk
  rw [hslot] at hk
  split at hk
  · next hfree =>
    obtain ⟨⟨n, k₁⟩, hkm, hr⟩ := Option.map_eq_some_iff.mp hk
    obtain ⟨hpages, hmem₁⟩ := kmalloc_eq_some hkm
    obtain ⟨rfl, rfl⟩ := Prod.mk.inj hr
    have hpages' : k.pages = n :: ((k₁.memset n 0 PGSIZE).write
        (Radix.walk (rd k.mem) root p + 8 * PX level va) n).pages := hpages
    have hgrow := grows_insert (c := 5) h hf hpages' hp h0 hfree
      (by simp only [write_mem, memset_mem, hmem₁, idx_val])
    obtain ⟨hgrow, hins⟩ := hgrow
    refine ⟨[n], by simp, hgrow, ?_, ?_, fun r hr => hins.walk_ne (by omega) fun he => ?_⟩
    · exact (hins.slot.symm ▸ hins.fresh.1 : rd _ _ (idx level va) ≠ 0)
    · rw [hins.walk_slot]
      exact hins.slot.symm
    · rw [he, List.length_append, List.length_singleton] at hr
      omega
  · next hne =>
    obtain ⟨rfl, rfl⟩ := Prod.mk.inj (Option.some.inj hk)
    exact ⟨[], by simp, Grows.refl h, hne, by rw [Radix.walk_snoc, if_neg h0],
      fun _ _ => rfl⟩

theorem map_level_isSome (va level pt : ℕ) (h : 1 ≤ k.pages.length) :
    ∃ q, map_level k pt va level = some q := by
  obtain ⟨n, rest, hpages⟩ := List.exists_cons_of_length_pos h
  unfold map_level
  dsimp only
  split
  · rw [kmalloc_of_cons (by simp) hpages]
    exact ⟨_, rfl⟩
  · exact ⟨_, rfl⟩

/-- The leaf entry that `__map_single_page` writes over the old entry `e`. -/
def newEntry (e pa perm : ℕ) : ℕ := PA2PTE pa ||| PTE_FLAGS e ||| perm

theorem newEntry_lt {e pa perm : ℕ} (he : e < 2 ^ 64) (hperm : perm < 2 ^ 64) :
    newEntry e pa perm < 2 ^ 64 := by
  have hpa := PA2PTE_lt pa
  refine Nat.or_lt_two_pow (Nat.or_lt_two_pow (by omega) ?_) hperm
  exact lt_of_le_of_lt Nat.and_le_left he

theorem map_single_page_eq {va pa perm : ℕ} :
    map_single_page k root va pa perm = (map_single_page_slot k root va).map fun s =>
      s.2.write s.1 (PA2PTE pa ||| PTE_FLAGS (s.2.mem.load64 s.1) ||| perm) := by
  rw [map_single_page, map_single_page_slot, Option.map_map]
  rfl

/-- The way to the leaf slot: the tables on it exist afterwards, and no leaf entry has changed. -/
theorem map_single_page_slot_spec {va slot : ℕ} (h : PtOk k.mem root T) (hf : Fresh k T)
    (hk : map_single_page_slot k root va = some (slot, k')) :
    ∃ N t, N.length ≤ 2 ∧ Grows k k' root T N ∧ t ≠ 0 ∧ slot = t + 8 * PX 0 va ∧
      Radix.walk (rd k'.mem) root [idx 2 va, idx 1 va] = t ∧
      ∀ r, r.length = 3 → Radix.walk (rd k'.mem) root r = Radix.walk (rd k.mem) root r := by
  obtain ⟨⟨t, k₂⟩, hfold, he⟩ := Option.map_eq_some_iff.mp hk
  obtain ⟨rfl, rfl⟩ := Prod.mk.inj he
  simp only [List.foldlM_cons, List.foldlM_nil, Option.bind_eq_bind, Option.bind_eq_some_iff,
    Option.pure_def, Option.some.injEq] at hfold
  obtain ⟨⟨t₁, k₁⟩, h₁, ⟨t₂, k₂'⟩, h₂, he⟩ := hfold
  obtain ⟨rfl, rfl⟩ := Prod.mk.inj he
  dsimp only at h₁ h₂
  -- level 2, from the root
  obtain ⟨N₁, hN₁, hg₁, hq₁, hw₁, hl₁⟩ := map_level_spec (p := []) h hf (by simp) h.sep.root h₁
  -- level 1, from the table just reached
  rw [List.nil_append] at hw₁
  have h₂' : map_level k₁ (Radix.walk (rd k₁.mem) root [idx 2 va]) va 1 = some (t₂, k₂') := by
    rw [hw₁]
    exact h₂
  obtain ⟨N₂, hN₂, hg₂, hq₂, hw₂, hl₂⟩ :=
    map_level_spec (p := [idx 2 va]) hg₁.ok (hg₁.fresh hf) (by simp) (by rw [hw₁]; exact hq₁) h₂'
  exact ⟨N₁ ++ N₂, t₂, by rw [List.length_append]; omega, hg₁.trans hg₂, hq₂, rfl, hw₂,
    fun r hr => (hl₂ r hr).trans (hl₁ r hr)⟩

/-- **`__map_single_page`** changes one leaf entry and nothing else a reader of
the table can see. -/
theorem map_single_page_spec {va pa perm : ℕ} (h : PtOk k.mem root T) (hf : Fresh k T)
    (hperm : perm < 2 ^ 64) (hk : map_single_page k root va pa perm = some k') :
    ∃ N, N.length ≤ 2 ∧ Grows k k' root T N ∧
      ∀ r, r.length = 3 → Radix.walk (rd k'.mem) root r =
        if r = path va then newEntry (leaf k.mem root va) pa perm
        else Radix.walk (rd k.mem) root r := by
  rw [map_single_page_eq] at hk
  obtain ⟨⟨slot, k₂'⟩, hslot, rfl⟩ := Option.map_eq_some_iff.mp hk
  obtain ⟨N, t₂, hN, hg, hq₂, rfl, hw₂, hleaves⟩ := map_single_page_slot_spec h hf hslot
  dsimp only
  -- the leaf store
  have hT : t₂ ∈ T ++ N := by
    rw [← hw₂] at hq₂ ⊢
    exact hg.ok.walk_mem (by simp) hq₂
  have hkt := hg.ok.kpage _ hT
  set v := PA2PTE pa ||| PTE_FLAGS (k₂'.mem.load64 (t₂ + 8 * PX 0 va)) ||| perm with hv
  have hold : k₂'.mem.load64 (t₂ + 8 * PX 0 va) = leaf k.mem root va := by
    rw [leaf, ← hleaves _ (path_length va), path,
      show [idx 2 va, idx 1 va, idx 0 va] = [idx 2 va, idx 1 va] ++ [idx 0 va] from rfl,
      Radix.walk_snoc, hw₂, if_neg hq₂]
    rfl
  rw [hold] at hv
  have hv64 : v < 2 ^ 64 := by
    rw [hv]
    exact newEntry_lt (hold ▸ Mem.load64_lt _ _) hperm
  have hframe : ∀ r j, r.length ≤ 2 → Radix.walk (rd k₂'.mem) root r ≠ 0 →
      (r ≠ [idx 2 va, idx 1 va] ∨ j ≠ idx 0 va) →
      rd (k₂'.mem.store64 (t₂ + 8 * PX 0 va) v) (Radix.walk (rd k₂'.mem) root r) j
        = rd k₂'.mem (Radix.walk (rd k₂'.mem) root r) j := by
    intro r j hr h0 hne
    by_cases hrp : r = [idx 2 va, idx 1 va]
    · subst hrp
      rw [hw₂]
      exact rd_write_ne (i := idx 0 va) (hne.resolve_left fun h => h rfl)
    · have hrT := hg.ok.walk_mem hr h0
      refine (samePage_write (hg.ok.kpage _ hrT).aligned hkt.aligned (fun e => hrp ?_)
        (idx 0 va)).rd j
      rw [← hw₂] at e
      exact hg.ok.sep.inj r _ hr (by simp) h0 e
  have hnodes : ∀ r : List (Fin PTENTRIES), r.length ≤ 2 →
      Radix.walk (rd (k₂'.mem.store64 (t₂ + 8 * PX 0 va) v)) root r
        = Radix.walk (rd k₂'.mem) root r := by
    refine fun r hr => Radix.walk_write hframe (by omega) fun hpre => ?_
    have := hpre.length_le
    simp only [List.length_append, List.length_cons, List.length_nil] at this
    omega
  refine ⟨N, hN,
    ⟨hg.pages, ⟨hg.ok.sep.congr hnodes, fun x => ?_, hg.ok.kpage⟩, fun P hP hPT hPN => ?_⟩,
    fun r hr => ?_⟩
  · rw [hg.ok.node]
    constructor
    · rintro ⟨hx, p, hp, rfl⟩
      exact ⟨hx, p, hp, hnodes p hp⟩
    · rintro ⟨hx, p, hp, rfl⟩
      exact ⟨hx, p, hp, (hnodes p hp).symm⟩
  · refine (hg.frame P hP hPT hPN).trans (samePage_write hP.aligned hkt.aligned (fun e => ?_)
      (idx 0 va))
    rw [← e, List.mem_append] at hT
    exact hT.elim hPT hPN
  · by_cases hrp : r = path va
    · rw [if_pos hrp, hrp, path,
        show [idx 2 va, idx 1 va, idx 0 va] = [idx 2 va, idx 1 va] ++ [idx 0 va] from rfl,
        Radix.walk_snoc]
      have hw₂' : Radix.walk (rd (k₂'.mem.store64 (t₂ + 8 * PX 0 va) v)) root
          [idx 2 va, idx 1 va] = t₂ := by
        rw [hnodes _ (by simp)]
        exact hw₂
      rw [show ((k₂'.write (t₂ + 8 * PX 0 va) v).mem) = k₂'.mem.store64 (t₂ + 8 * PX 0 va) v
        from rfl, hw₂', if_neg hq₂]
      exact (rd_write_same (i := idx 0 va) hv64).trans hv
    · rw [if_neg hrp, ← hleaves r hr]
      refine Radix.walk_write hframe (by omega) fun hpre => hrp ?_
      exact (hpre.eq_of_length (by simp [hr])).symm

/-- The leaf entries of the addresses below `2^47` after one mapping. -/
theorem leaf_map_single_page {va pa perm : ℕ} (hva : va < MAXVA) (hwalk : ∀ r, r.length = 3 →
      Radix.walk (rd k'.mem) root r =
        if r = path va then newEntry (leaf k.mem root va) pa perm
        else Radix.walk (rd k.mem) root r) {y : ℕ} (hy : y < MAXVA) :
    leaf k'.mem root y =
      if y / PGSIZE = va / PGSIZE then newEntry (leaf k.mem root y) pa perm
      else leaf k.mem root y := by
  rw [leaf, hwalk _ (path_length y)]
  by_cases h : y / PGSIZE = va / PGSIZE
  · have hp := (path_inj hy hva).mpr h
    rw [if_pos hp, if_pos h, leaf, leaf, hp]
  · rw [if_neg (fun hp => h ((path_inj hy hva).mp hp)), if_neg h]
    rfl

theorem map_single_page_isSome (root va pa perm : ℕ) (h : 2 ≤ k.pages.length) :
    ∃ k', map_single_page k root va pa perm = some k' := by
  obtain ⟨⟨t₁, k₁⟩, h₁⟩ := map_level_isSome va 2 root
    (show 1 ≤ k.pages.length by omega)
  -- the first level took one page at most
  have hlen : 1 ≤ k₁.pages.length := by
    unfold map_level at h₁
    dsimp only at h₁
    split at h₁
    · obtain ⟨⟨n, k₀⟩, hk, hr⟩ := Option.map_eq_some_iff.mp h₁
      have hp := congrArg List.length (kmalloc_eq_some hk).1
      obtain ⟨-, rfl⟩ := Prod.mk.inj hr
      simp only [List.length_cons, write_pages, memset_pages] at hp ⊢
      omega
    · obtain ⟨-, rfl⟩ := Prod.mk.inj (Option.some.inj h₁)
      omega
  obtain ⟨⟨t₂, k₂⟩, h₂⟩ := map_level_isSome va 1 t₁ hlen
  have hfold : [2, 1].foldlM (fun (s : ℕ × Kern) level => map_level s.2 s.1 va level) (root, k)
      = some (t₂, k₂) := by
    simp only [List.foldlM_cons, List.foldlM_nil, h₁, h₂, Option.bind_eq_bind, Option.bind_some,
      Option.pure_def]
  rw [map_single_page, hfold]
  exact ⟨_, rfl⟩

/-! ## The reading walker -/

/-- What an entry translates to. -/
def translate (e va : ℕ) : ℕ :=
  if e &&& PTE_V = 0 then 0 else PTE2PA e + va % PGSIZE

theorem path_page {va : ℕ} : path (va - va % PGSIZE) = path va := by
  have h : (va - va % PGSIZE) / PGSIZE = va / PGSIZE := by
    unfold PGSIZE
    omega
  simp only [path, idx, PX_congr _ h]

/-- Without allocation the second walker stops where the tree stops, and
otherwise finds the slot that `__map_single_page` writes. -/
theorem va_to_pte_pointer_spec {va : ℕ} (h : PtOk k.mem root T) (hva : va < MAXVA) :
    va_to_pte_pointer k root va false =
      some (if Radix.walk (rd k.mem) root [idx 2 va, idx 1 va] = 0 then 0
        else Radix.walk (rd k.mem) root [idx 2 va, idx 1 va] + 8 * PX 0 va, k) := by
  have hroot := h.kpage root (h.walk_mem (p := []) (by simp) h.sep.root)
  have h1 : Radix.walk (rd k.mem) root [idx 2 va] = k.mem.load64 (root + 8 * PX 2 va) := by
    rw [show [idx 2 va] = [] ++ [idx 2 va] from rfl, Radix.walk_snoc, Radix.walk_nil,
      if_neg h.sep.root]
    rfl
  have h2 : Radix.walk (rd k.mem) root ([idx 2 va] ++ [idx 1 va]) = _ := Radix.walk_snoc
  rw [h1, List.singleton_append] at h2
  rw [va_to_pte_pointer, if_neg (by omega), hroot.PA2VA_self, va_to_pte_loop]
  -- the walk stops where an entry is zero, at either level
  by_cases hz : k.mem.load64 (root + 8 * PX 2 va) = 0
  · rw [if_pos hz] at h2
    simp only [hz, h2, ne_eq, not_true_eq_false, if_false, if_true, Bool.false_eq_true]
  · rw [if_neg hz] at h2
    have hk1 := h.kpage _ (h.walk_mem (p := [idx 2 va]) (by simp) (by rw [h1]; exact hz))
    rw [h1] at hk1
    have h2' : Radix.walk (rd k.mem) root [idx 2 va, idx 1 va]
        = k.mem.load64 (k.mem.load64 (root + 8 * PX 2 va) + 8 * PX 1 va) := h2
    simp only [ne_eq, hz, not_false_eq_true, if_true, hk1.PA2VA_PTE2PA, va_to_pte_loop, h2']
    by_cases hz2 : k.mem.load64 (k.mem.load64 (root + 8 * PX 2 va) + 8 * PX 1 va) = 0
    · simp only [hz2, not_true_eq_false, if_false, if_true, Bool.false_eq_true]
    · have hk2 := h.kpage _ (h.walk_mem (p := [idx 2 va, idx 1 va]) (by simp)
        (by rw [h2']; exact hz2))
      rw [h2'] at hk2
      simp only [hz2, not_false_eq_true, if_true, if_false, hk2.PA2VA_PTE2PA]

/-- **`va_to_pa`** reads the leaf entry. -/
theorem va_to_pa_spec {va : ℕ} (h : PtOk k.mem root T) (hva : va < MAXVA) :
    va_to_pa k root va = some (translate (leaf k.mem root va) va) := by
  have hpage : va - va % PGSIZE < MAXVA := by omega
  have hleaf : leaf k.mem root va =
      if Radix.walk (rd k.mem) root [idx 2 (va - va % PGSIZE), idx 1 (va - va % PGSIZE)] = 0 then 0
      else k.mem.load64 (Radix.walk (rd k.mem) root
        [idx 2 (va - va % PGSIZE), idx 1 (va - va % PGSIZE)] + 8 * PX 0 (va - va % PGSIZE)) := by
    rw [leaf, ← path_page, path,
      show [idx 2 (va - va % PGSIZE), idx 1 (va - va % PGSIZE), idx 0 (va - va % PGSIZE)]
        = [idx 2 (va - va % PGSIZE), idx 1 (va - va % PGSIZE)] ++ [idx 0 (va - va % PGSIZE)]
        from rfl, Radix.walk_snoc]
    rfl
  rw [va_to_pa, if_neg (by omega), va_to_pte_pointer_spec h hpage, Option.map_some, hleaf]
  by_cases hz : Radix.walk (rd k.mem) root
      [idx 2 (va - va % PGSIZE), idx 1 (va - va % PGSIZE)] = 0
  · simp only [hz, if_true, translate, Nat.zero_and]
  · simp only [hz, if_false, translate]
    rw [if_neg (by omega)]

/-! ## Entries written by a mapping -/

theorem newEntry_pa {e pa perm : ℕ} (hperm : PermOk perm) :
    PTE2PA (newEntry e pa perm) = PA2PTE pa := by
  rw [PTE2PA, newEntry, Nat.and_or_distrib_right, Nat.and_or_distrib_right,
    PTE_FLAGS_and_PAMASK, hperm.noAddr, Nat.or_zero, Nat.or_zero, PA2PTE, Nat.and_assoc,
    Nat.and_self]

/-- Mapping again adds rights to the ones the entry had. -/
theorem newEntry_flags (e pa perm : ℕ) :
    PTE_FLAGS (newEntry e pa perm) = PTE_FLAGS e ||| PTE_FLAGS perm := by
  rw [PTE_FLAGS, newEntry, Nat.and_or_distrib_right, Nat.and_or_distrib_right,
    PA2PTE_and_FLAGMASK, Nat.zero_or, PTE_FLAGS, PTE_FLAGS, Nat.and_assoc, Nat.and_self]

theorem newEntry_valid {e pa perm : ℕ} (hperm : perm &&& PTE_V = PTE_V) :
    newEntry e pa perm &&& PTE_V ≠ 0 := by
  rw [newEntry, Nat.and_or_distrib_right, hperm]
  intro h
  exact absurd (Nat.or_eq_zero_iff.mp h).2 (by norm_num)

theorem translate_newEntry {e pa perm va : ℕ} (hperm : PermOk perm) :
    translate (newEntry e pa perm) va = PA2PTE pa + va % PGSIZE := by
  rw [translate, if_neg (newEntry_valid hperm.valid), newEntry_pa hperm]

/-! ## `__map_pages` -/

/-- The state of the loop of `__map_pages` after `n` turns from page number `a`:
the `n` first pages of the range have their new entries. -/
structure MapInv (k : Kern) (root : ℕ) (T : List ℕ) (a pa perm n : ℕ) (s : MapLoop) : Prop where
  vac : s.vac = (a + n) * PGSIZE
  pa_map : s.pa_map = (pa + n * PGSIZE) % 2 ^ 64
  grows : ∃ N, N.length ≤ 2 * n ∧ Grows k s.kern root T N
  leaves : ∀ y < MAXVA, leaf s.kern.mem root y =
    if a ≤ y / PGSIZE ∧ y / PGSIZE < a + n then
      newEntry (leaf k.mem root y) (pa + (y / PGSIZE - a) * PGSIZE) perm
    else leaf k.mem root y

theorem newEntry_congr {e pa pa' perm : ℕ} (h : PA2PTE pa = PA2PTE pa') :
    newEntry e pa perm = newEntry e pa' perm := by
  rw [newEntry, newEntry, h]

variable {a b pa perm n : ℕ} {s s' : MapLoop}

theorem MapInv.init (hok : PtOk k.mem root T) (hpa : pa < 2 ^ 64) :
    MapInv k root T a pa perm 0 ⟨a * PGSIZE, pa, k⟩ := by
  refine ⟨rfl, ?_, ⟨[], Nat.zero_le _, Grows.refl hok⟩, fun y _ => ?_⟩
  · rw [Nat.zero_mul, Nat.add_zero]
    exact (Nat.mod_eq_of_lt hpa).symm
  · rw [if_neg (by omega)]

/-- One turn: the page at the cursor gets its entry. -/
theorem MapInv.step (hf : Fresh k T) (hperm : perm < 2 ^ 64) (hva : (a + n) * PGSIZE < MAXVA)
    (h : MapInv k root T a pa perm n s) (hb : map_pages_body root perm s = some s') :
    MapInv k root T a pa perm (n + 1) s' := by
  obtain ⟨hvac, hpa, ⟨N, hN, hg⟩, hl⟩ := h
  obtain ⟨k₁, hk₁, rfl⟩ := Option.map_eq_some_iff.mp hb
  rw [hvac] at hk₁
  obtain ⟨N₁, hN₁, hg₁, hw⟩ := map_single_page_spec hg.ok (hg.fresh hf) hperm hk₁
  have hmul : (n + 1) * PGSIZE = n * PGSIZE + PGSIZE := Nat.succ_mul n PGSIZE
  have hmul' : (a + (n + 1)) * PGSIZE = (a + n) * PGSIZE + PGSIZE := Nat.succ_mul (a + n) PGSIZE
  refine ⟨?_, ?_, ⟨N ++ N₁, ?_, hg.trans hg₁⟩, fun y hy => ?_⟩
  · dsimp only
    rw [hvac, hmul']
    unfold MAXVA PGSIZE at *
    omega
  · dsimp only
    rw [hpa, hmul]
    omega
  · rw [List.length_append]
    omega
  · dsimp only
    rw [leaf_map_single_page hva hw hy, hl y hy, hpa, Nat.mul_div_cancel _ (by norm_num)]
    -- a page before the cursor, at it, or behind it
    rcases Nat.lt_trichotomy (y / PGSIZE) (a + n) with hlt | heq | hgt
    · rw [if_neg (by omega)]
      exact if_congr (by omega) rfl rfl
    · rw [if_pos heq, if_neg (by omega), if_pos (by omega)]
      refine newEntry_congr ?_
      rw [PA2PTE_mod, heq, Nat.add_sub_cancel_left]
    · rw [if_neg (by omega), if_neg (by omega), if_neg (by omega)]

/-- While the cursor is in the range, another turn is due and stays in it. -/
theorem MapInv.cursor (h : MapInv k root T a pa perm n s) (hb : b * PGSIZE < MAXVA)
    (hc : decide (s.vac ≤ b * PGSIZE) = true) : a + n ≤ b ∧ (a + n) * PGSIZE < MAXVA := by
  have hc : s.vac ≤ b * PGSIZE := of_decide_eq_true hc
  rw [h.vac] at hc
  exact ⟨Nat.le_of_mul_le_mul_right hc (by norm_num), lt_of_le_of_lt hc hb⟩

/-- The loop of `__map_pages` over the pages `a` to `b`. -/
theorem map_pages_loop_spec (hok : PtOk k.mem root T) (hf : Fresh k T) (hperm : perm < 2 ^ 64)
    (hb : b * PGSIZE < MAXVA) (hpa : pa < 2 ^ 64)
    (hk : map_pages_loop root perm (b * PGSIZE) ⟨a * PGSIZE, pa, k⟩ = some s) :
    MapInv k root T a pa perm (b + 1 - a) s := by
  obtain ⟨⟨n, hn, hinv⟩, hdone⟩ := loop_inv
    (fun s => ∃ n, n ≤ b + 1 - a ∧ MapInv k root T a pa perm n s)
    (fun s s' hs hc hbody => by
      obtain ⟨n, hn, hinv⟩ := hs
      obtain ⟨hle, hva⟩ := hinv.cursor hb hc
      exact ⟨n + 1, by omega, hinv.step hf hperm hva hbody⟩)
    ⟨0, Nat.zero_le _, MapInv.init hok hpa⟩ hk
  have hdone : b * PGSIZE < s.vac := Nat.lt_of_not_le (of_decide_eq_false hdone)
  rw [hinv.vac] at hdone
  have hpage : b < a + n := Nat.lt_of_mul_lt_mul_right hdone
  rwa [show b + 1 - a = n by omega]

/-- With two free pages for every page of the range the loop ends. -/
theorem map_pages_loop_isSome (hok : PtOk k.mem root T) (hf : Fresh k T) (hperm : perm < 2 ^ 64)
    (hb : b * PGSIZE < MAXVA) (hpa : pa < 2 ^ 64) (hlen : 2 * (b + 1 - a) ≤ k.pages.length) :
    ∃ s, map_pages_loop root perm (b * PGSIZE) ⟨a * PGSIZE, pa, k⟩ = some s := by
  -- every turn takes two pages at most, and the cursor comes closer to `b`
  obtain ⟨s, hs, -, -⟩ := loop_spec (c := fun s : MapLoop => decide (s.vac ≤ b * PGSIZE))
    (f := map_pages_body root perm) (n := 2 ^ 50 + 1) (s := ⟨a * PGSIZE, pa, k⟩)
    (fun s => ∃ n, n ≤ b + 1 - a ∧ MapInv k root T a pa perm n s)
    (fun s => b + 1 - s.vac / PGSIZE)
    (fun s hs hc => by
      obtain ⟨n, hn, hinv⟩ := hs
      obtain ⟨hle, hva⟩ := hinv.cursor hb hc
      obtain ⟨N, hN, hg⟩ := hinv.grows
      have hpages := congrArg List.length hg.pages
      rw [List.length_append] at hpages
      obtain ⟨k₁, hk₁⟩ := map_single_page_isSome root s.vac s.pa_map perm
        (show 2 ≤ s.kern.pages.length by omega)
      have hbody : map_pages_body root perm s
          = some ⟨(s.vac + PGSIZE) % 2 ^ 64, (s.pa_map + PGSIZE) % 2 ^ 64, k₁⟩ := by
        rw [map_pages_body, hk₁, Option.map_some]
      have hinv' := hinv.step hf hperm hva hbody
      refine ⟨_, hbody, ⟨n + 1, by omega, hinv'⟩, ?_⟩
      rw [hinv'.vac, hinv.vac, Nat.mul_div_cancel _ (by norm_num),
        Nat.mul_div_cancel _ (by norm_num)]
      omega)
    ⟨0, Nat.zero_le _, MapInv.init hok hpa⟩
    (by
      unfold MAXVA PGSIZE at *
      dsimp only
      omega)
  exact ⟨s, hs⟩

/-- The number of the last page that `__map_pages(va, size)` visits. -/
def lastPage (va size : ℕ) : ℕ := (va + size + 2 ^ 64 - 1) % 2 ^ 64 / PGSIZE

/-- The range `__map_pages` is called with is a range of addresses below `2^47`. -/
structure UserRange (va size : ℕ) : Prop where
  start : va < MAXVA
  last : (va + size + 2 ^ 64 - 1) % 2 ^ 64 < MAXVA

/-- The range of a call with `size > 0` and `va + size ≤ 2^47`, without wrap-around. -/
theorem userRange_of_le {va size : ℕ} (hsize : 0 < size) (hend : va + size ≤ MAXVA) :
    UserRange va size ∧ lastPage va size = (va + size - 1) / PGSIZE := by
  have hmod : (va + size + 2 ^ 64 - 1) % 2 ^ 64 = va + size - 1 := by
    unfold MAXVA at hend
    omega
  exact ⟨⟨by omega, by rw [hmod]; omega⟩, by rw [lastPage, hmod]⟩

/-- The range of one whole page. -/
theorem userRange_page {va : ℕ} (hva : va < MAXVA) (hal : va % PGSIZE = 0) :
    UserRange va PGSIZE ∧ lastPage va PGSIZE = va / PGSIZE := by
  obtain ⟨hrange, hlast⟩ := userRange_of_le (show 0 < PGSIZE by unfold PGSIZE; omega)
    (show va + PGSIZE ≤ MAXVA by unfold MAXVA PGSIZE at *; omega)
  refine ⟨hrange, ?_⟩
  rw [hlast]
  unfold PGSIZE at *
  omega

theorem PGROUNDDOWN_lt (pa : ℕ) : PGROUNDDOWN pa < 2 ^ 64 := by
  rw [PGROUNDDOWN, and_page_mask]
  omega

theorem map_pages_eq {va size : ℕ} (h : UserRange va size) :
    map_pages k root va size pa perm =
      (map_pages_loop root perm (lastPage va size * PGSIZE)
        ⟨va / PGSIZE * PGSIZE, PGROUNDDOWN pa, k⟩).map MapLoop.kern := by
  obtain ⟨hva, hlast⟩ := h
  rw [map_pages, PGROUNDDOWN_eq (a := va) (by unfold MAXVA at hva; omega),
    PGROUNDDOWN_eq (a := (va + size + 2 ^ 64 - 1) % 2 ^ 64) (by unfold MAXVA at hlast; omega)]
  rfl

theorem UserRange.lastPage_lt {va size : ℕ} (h : UserRange va size) :
    lastPage va size * PGSIZE < MAXVA :=
  lt_of_le_of_lt (Nat.div_mul_le_self _ _) h.last

/-- **`__map_pages`**: every page of the range has its new entry, every other
leaf entry is as before. -/
theorem map_pages_spec {va size : ℕ} (hok : PtOk k.mem root T) (hf : Fresh k T)
    (hperm : perm < 2 ^ 64) (hr : UserRange va size)
    (hk : map_pages k root va size pa perm = some k') :
    ∃ N, N.length ≤ 2 * (lastPage va size + 1 - va / PGSIZE) ∧ Grows k k' root T N ∧
      ∀ y < MAXVA, leaf k'.mem root y =
        if va / PGSIZE ≤ y / PGSIZE ∧ y / PGSIZE ≤ lastPage va size then
          newEntry (leaf k.mem root y)
            (PGROUNDDOWN pa + (y / PGSIZE - va / PGSIZE) * PGSIZE) perm
        else leaf k.mem root y := by
  rw [map_pages_eq hr] at hk
  obtain ⟨s, hs, rfl⟩ := Option.map_eq_some_iff.mp hk
  have hinv := map_pages_loop_spec hok hf hperm hr.lastPage_lt (PGROUNDDOWN_lt pa) hs
  obtain ⟨N, hN, hg⟩ := hinv.grows
  refine ⟨N, hN, hg, fun y hy => ?_⟩
  rw [hinv.leaves y hy]
  exact if_congr (by omega) rfl rfl

/-- With two free pages for every page of the range, `__map_pages` returns. -/
theorem map_pages_isSome {va size : ℕ} (pa : ℕ) (hok : PtOk k.mem root T) (hf : Fresh k T)
    (hperm : perm < 2 ^ 64) (hr : UserRange va size)
    (hlen : 2 * (lastPage va size + 1 - va / PGSIZE) ≤ k.pages.length) :
    ∃ k', map_pages k root va size pa perm = some k' := by
  obtain ⟨s, hs⟩ := map_pages_loop_isSome hok hf hperm hr.lastPage_lt (PGROUNDDOWN_lt pa) hlen
  exact ⟨s.kern, by rw [map_pages_eq hr, hs, Option.map_some]⟩

end Loos.PageTable
