/-
What a process finds at its addresses, and what `alloc_vm` and `copy_to_va` do to it.

[`view`] reads a byte through the page table. [`Held`] is what keeps the pages behind it
apart: a page belongs to one virtual page only. That is less than `SpaceOk`, since the
records are not looked at, and so a range may start inside a page or run past `2^47`, where
the walkers see the low bits of an address and enter the pages at the bottom again.

`alloc_vm` replaces whatever was mapped by pages of zeros ([`alloc_vm_view`]), and
`copy_to_va` gets as far as the pages are mapped ([`copy_to_va_view`]).
-/
import Loos.AddrSpace

set_option autoImplicit false

namespace Loos.Image

open SysLib Kern PageTable AddrSpace

/-! ## The bytes of an address space -/

/-- The bytes of an address space; `none` where nothing is mapped. -/
abbrev View := ℕ → Option UInt8

/-- The bytes behind the page table at `root`. -/
def view (m : Mem) (root : ℕ) : View := fun y =>
  if y < MAXVA ∧ leaf m root y &&& PTE_V ≠ 0 then some (m (backing m root y + y % PGSIZE))
  else none

/-- **A page table whose pages are its own.** The tables `T` and the data pages `D` are
distinct and not free, and every data page is behind one virtual page at most. -/
structure Held (k : Kern) (root : ℕ) (T D : List ℕ) : Prop where
  table : PtOk k.mem root T
  fresh : Fresh k (T ++ D)
  data : ∀ P ∈ D, KPage P
  leaves : ∀ y < MAXVA, leaf k.mem root y ≠ 0 →
    leaf k.mem root y &&& PTE_V ≠ 0 ∧ ∃ P ∈ D, PTE2PA (leaf k.mem root y) = PTE2PA P
  own : ∀ y < MAXVA, ∀ z < MAXVA, leaf k.mem root y ≠ 0 → leaf k.mem root z ≠ 0 →
    PTE2PA (leaf k.mem root y) = PTE2PA (leaf k.mem root z) → y / PGSIZE = z / PGSIZE

/-- Two kernel pages with the same physical address are one. -/
theorem kpage_inj {P Q : ℕ} (hP : KPage P) (hQ : KPage Q) (h : PTE2PA P = PTE2PA Q) : P = Q := by
  rw [← hP.PA2VA_PTE2PA, h, hQ.PA2VA_PTE2PA]

variable {k k' : Kern} {root : ℕ} {T D : List ℕ} {m : Mem} {y z : ℕ}

theorem view_of_high (hy : MAXVA ≤ y) : view m root y = none := by
  apply if_neg
  omega

/-- Where there is no entry nothing is mapped. -/
theorem view_of_leaf_zero (h : leaf m root y = 0) : view m root y = none := by
  apply if_neg
  rw [h]
  simp

namespace Held

/-- The page behind an address. -/
theorem page (h : Held k root T D) (hy : y < MAXVA) (h0 : leaf k.mem root y ≠ 0) :
    ∃ P ∈ D, KPage P ∧ backing k.mem root y = P ∧ PTE2PA (leaf k.mem root y) = PTE2PA P ∧
      view k.mem root y = some (k.mem (P + y % PGSIZE)) := by
  obtain ⟨hvalid, P, hP, hpa⟩ := h.leaves y hy h0
  have hback : backing k.mem root y = P := by
    rw [backing, hpa, (h.data P hP).PA2VA_PTE2PA]
  refine ⟨P, hP, h.data P hP, hback, hpa, ?_⟩
  rw [view, if_pos ⟨hy, hvalid⟩, hback]

theorem view_eq_none_iff (h : Held k root T D) (hy : y < MAXVA) :
    view k.mem root y = none ↔ leaf k.mem root y = 0 := by
  constructor
  · intro hnone
    by_contra h0
    obtain ⟨P, -, -, -, -, hview⟩ := h.page hy h0
    rw [hnone] at hview
    cases hview
  · intro h0
    exact view_of_leaf_zero h0

/-- `va_to_pa` finds nothing exactly where nothing is mapped. -/
theorem va_to_pa (h : Held k root T D) (y : ℕ) :
    ∃ pa, PageTable.va_to_pa k root y = some pa ∧ (pa = 0 ↔ view k.mem root y = none) := by
  by_cases hy : y < MAXVA
  · refine ⟨_, va_to_pa_spec h.table hy, ?_⟩
    rw [h.view_eq_none_iff hy]
    constructor
    · intro hpa
      by_contra h0
      obtain ⟨hvalid, P, hP, hpage⟩ := h.leaves y hy h0
      have hne := (h.data P hP).PTE2PA_ne_zero
      rw [PageTable.translate, if_neg hvalid, hpage] at hpa
      omega
    · intro h0
      rw [h0]
      simp [PageTable.translate]
  · refine ⟨0, ?_, by simp [view_of_high (Nat.le_of_not_lt hy)]⟩
    have hpage : MAXVA ≤ y - y % PGSIZE := by
      unfold MAXVA PGSIZE at *
      omega
    rw [PageTable.va_to_pa, if_pos hpage]

/-- The pages of a kernel with the free pages `pa :: rest` that `pa` is not. -/
theorem free_ne (h : Held k root T D) {P pa : ℕ} (hpa : pa ∈ k.pages) (hP : P ∈ T ++ D) :
    P ≠ pa := by
  apply (List.nodup_append.mp h.fresh.nodup).2.2 P hP pa hpa

theorem data_not_mem (h : Held k root T D) {P : ℕ} (hP : P ∈ D) : P ∉ T := by
  have hnd := (List.nodup_append.mp h.fresh.nodup).1
  intro hT
  exact (List.nodup_append.mp hnd).2.2 P hT P hP rfl

/-- A well-formed space has its own pages behind it: those of its records. -/
theorem of_spaceOk {p : Space} (h : SpaceOk k.mem p T) (hf : Fresh k (p.owned T)) :
    Held k p.pgtbl T (p.mapping_list.map Mapping.pa) := by
  have hrecord : ∀ y < MAXVA, leaf k.mem p.pgtbl y ≠ 0 →
      leaf k.mem p.pgtbl y &&& PTE_V ≠ 0 ∧ ∃ r ∈ p.mapping_list, y / PGSIZE = r.va / PGSIZE ∧
        PTE2PA (leaf k.mem p.pgtbl y) = PTE2PA r.pa := by
    intro y hy h0
    have hne : recordsAt p.mapping_list y ≠ [] := fun hnil => h0 ((h.leaves y hy).unmapped hnil)
    obtain ⟨hvalid, r, hr, hpa⟩ := (h.leaves y hy).mapped hne
    obtain ⟨hr, hpage⟩ := mem_recordsAt.mp hr
    exact ⟨hvalid, r, hr, hpage, hpa⟩
  refine ⟨h.table, hf, ?_, ?_, ?_⟩
  · intro P hP
    exact h.kpage (List.mem_append_right _ hP)
  · intro y hy h0
    obtain ⟨hvalid, r, hr, -, hpa⟩ := hrecord y hy h0
    exact ⟨hvalid, r.pa, List.mem_map_of_mem hr, hpa⟩
  · -- no page has two records
    intro y hy z hz hy0 hz0 hsame
    obtain ⟨-, r, hr, hpage, hpa⟩ := hrecord y hy hy0
    obtain ⟨-, r', hr', hpage', hpa'⟩ := hrecord z hz hz0
    have heq : r = r' := by
      apply List.inj_on_of_nodup_map (List.nodup_append.mp h.nodup).2.1 hr hr'
      apply kpage_inj (h.recs r hr).page (h.recs r' hr').page
      rw [← hpa, hsame, hpa']
    rw [hpage, hpage', heq]

/-- A space without mappings. -/
theorem of_empty {p : Space} (h : SpaceOk k.mem p T) (hf : Fresh k T) (hl : p.mapping_list = []) :
    Held k p.pgtbl T [] ∧ view k.mem p.pgtbl = fun _ => none := by
  have hheld := of_spaceOk h (by simpa [Space.owned, hl] using hf)
  rw [hl] at hheld
  refine ⟨hheld, ?_⟩
  funext y
  by_cases hy : y < MAXVA
  · apply view_of_leaf_zero
    apply (h.leaves y hy).unmapped
    rw [hl]
    rfl
  · exact view_of_high (Nat.le_of_not_lt hy)

end Held

/-! ## `alloc_vm` -/

/-- The entries after one page was entered at `va`, which may be beyond `2^47`. -/
theorem leaf_enter {va pa perm : ℕ} (hw : ∀ r, r.length = 3 →
      Radix.walk (rd k'.mem) root r =
        if r = path va then newEntry (leaf k.mem root va) pa perm
        else Radix.walk (rd k.mem) root r) (hy : y < MAXVA) :
    leaf k'.mem root y =
      if y / PGSIZE = va % MAXVA / PGSIZE then newEntry (leaf k.mem root y) pa perm
      else leaf k.mem root y := by
  have hlow : va % MAXVA < MAXVA := Nat.mod_lt _ (by norm_num)
  apply leaf_map_single_page hlow _ hy
  intro r hr
  rw [hw r hr, path_mod, leaf, leaf, path_mod]

section Enter

variable {pa va perm : ℕ} {k₀ : Kern} {N : List ℕ}

/-- From `k` to `k'` the free page `pa` was entered at `va`, whatever is in it, and the new
tables `N` were taken. -/
structure Maps (k k' : Kern) (root : ℕ) (T : List ℕ) (pa va perm : ℕ) (N : List ℕ) : Prop where
  pages : k.pages = pa :: (N ++ k'.pages)
  table : PtOk k'.mem root (T ++ N)
  hit : ∀ y < MAXVA, y / PGSIZE = va % MAXVA / PGSIZE →
    leaf k'.mem root y = newEntry (leaf k.mem root y) pa perm
  miss : ∀ y < MAXVA, ¬ y / PGSIZE = va % MAXVA / PGSIZE →
    leaf k'.mem root y = leaf k.mem root y

/-- From `k` to `k'` the free page `pa`, filled with zeros, was entered at `va`, and the new
tables `N` were taken. -/
structure Enters (k k' : Kern) (root : ℕ) (T D : List ℕ) (pa va perm : ℕ) (N : List ℕ) : Prop where
  pages : k.pages = pa :: (N ++ k'.pages)
  table : PtOk k'.mem root (T ++ N)
  same : ∀ P ∈ D, SamePage k.mem k'.mem P
  zero : ∀ i < PGSIZE, k'.mem (pa + i) = 0
  hit : ∀ y < MAXVA, y / PGSIZE = va % MAXVA / PGSIZE →
    leaf k'.mem root y = newEntry (leaf k.mem root y) pa perm
  miss : ∀ y < MAXVA, ¬ y / PGSIZE = va % MAXVA / PGSIZE →
    leaf k'.mem root y = leaf k.mem root y

theorem Maps.free (hm : Maps k k' root T pa va perm N) : pa ∈ k.pages := by
  rw [hm.pages]
  exact List.mem_cons_self

/-- The new pages were free, so they are none of those that are held. -/
theorem Maps.not_new (hm : Maps k k' root T pa va perm N) (h : Held k root T D) :
    (∀ P ∈ T ++ D, P ≠ pa ∧ P ∉ N) ∧ pa ∉ N := by
  have hnd := h.fresh.nodup
  rw [hm.pages] at hnd
  refine ⟨fun P hP => ⟨h.free_ne hm.free hP, fun hPN => ?_⟩, fun hpaN => ?_⟩
  · exact (List.nodup_append.mp hnd).2.2 P hP P (by simp [hPN]) rfl
  · exact (List.nodup_cons.mp (List.nodup_append.mp hnd).2.1).1 (List.mem_append_left _ hpaN)

/-- `__map_single_page` enters a page off the free list, which may be written to before. -/
theorem Held.maps (h : Held k root T D) (hpages : k.pages = pa :: k₀.pages)
    (hother : ∀ P, KPage P → P ≠ pa → SamePage k.mem k₀.mem P) (hperm : PermOk perm)
    (hk : map_single_page k₀ root va pa perm = some k') :
    ∃ N, N.length ≤ 2 ∧ Maps k k' root T pa va perm N ∧ SamePage k₀.mem k'.mem pa ∧
      ∀ P, KPage P → P ∉ T → P ≠ pa → P ∉ N → SamePage k.mem k'.mem P := by
  have hfree : pa ∈ k.pages := by
    rw [hpages]
    exact List.mem_cons_self
  have htables : ∀ P ∈ T, SamePage k.mem k₀.mem P := by
    intro P hP
    exact hother P (h.table.kpage P hP) (h.free_ne hfree (List.mem_append_left _ hP))
  have hfresh : Fresh k₀ T := by
    have hnd := h.fresh.nodup
    rw [hpages] at hnd
    refine ⟨hnd.sublist ?_, ?_⟩
    · exact (List.sublist_append_left T D).append (List.sublist_cons_self pa _)
    · intro P hP
      apply h.fresh.kpage
      rw [hpages]
      exact List.mem_cons_of_mem _ hP
  obtain ⟨N, hN, hg, hw⟩ := map_single_page_spec (h.table.congr htables) hfresh hperm.lt hk
  have hleaf₀ : ∀ y, leaf k₀.mem root y = leaf k.mem root y := by
    intro y
    exact h.table.walk_congr htables (by simp)
  have hm : Maps k k' root T pa va perm N := by
    refine ⟨by rw [hpages, hg.pages], hg.ok, ?_, ?_⟩
    · intro y hy he
      rw [leaf_enter hw hy, if_pos he, hleaf₀]
    · intro y hy he
      rw [leaf_enter hw hy, if_neg he, hleaf₀]
  refine ⟨N, hN, hm, hg.frame pa (h.fresh.kpage pa hfree) (fun hT => ?_) (hm.not_new h).2, ?_⟩
  · exact h.free_ne hfree (List.mem_append_left _ hT) rfl
  · intro P hP hT hpa hN
    exact (hother P hP hpa).trans (hg.frame P hP hT hN)

/-- `__map_single_page` enters a page that `kmalloc` and `memset` prepared. -/
theorem Held.enters (h : Held k root T D) (hpages : k.pages = pa :: k₀.pages)
    (hother : ∀ P, KPage P → P ≠ pa → SamePage k.mem k₀.mem P)
    (hzero : ∀ i < PGSIZE, k₀.mem (pa + i) = 0) (hperm : PermOk perm)
    (hk : map_single_page k₀ root va pa perm = some k') :
    ∃ N, Enters k k' root T D pa va perm N := by
  obtain ⟨N, -, hm, hsame, hframe⟩ := h.maps hpages hother hperm hk
  refine ⟨N, hm.pages, hm.table, ?_, ?_, hm.hit, hm.miss⟩
  · intro P hP
    obtain ⟨hne, hN⟩ := (hm.not_new h).1 P (List.mem_append_right _ hP)
    exact hframe P (h.data P hP) (h.data_not_mem hP) hne hN
  · intro i hi
    rw [hsame _ (by omega) (by omega), hzero i hi]

/-- No entry has the address of a page that is free. -/
theorem Held.leaf_ne (h : Held k root T D) (hfree : pa ∈ k.pages) (hy : y < MAXVA)
    (h0 : leaf k.mem root y ≠ 0) : PTE2PA (leaf k.mem root y) ≠ PA2PTE pa := by
  intro he
  obtain ⟨-, P, hP, hpage⟩ := h.leaves y hy h0
  apply h.free_ne hfree (List.mem_append_right _ hP)
  exact kpage_inj (h.data P hP) (h.fresh.kpage pa hfree) (hpage.symm.trans he)

theorem Maps.held (he : Maps k k' root T pa va perm N) (h : Held k root T D)
    (hperm : PermOk perm) : Held k' root (T ++ N) (pa :: D) := by
  have hfree := he.free
  have hnd := h.fresh.nodup
  rw [he.pages] at hnd
  -- what was taken off the free list is in the table now, or behind it
  have hcount : (T ++ N ++ pa :: D ++ k'.pages).Perm (T ++ D ++ pa :: (N ++ k'.pages)) := by
    rw [List.perm_iff_count]
    intro x
    simp only [List.count_append, List.count_cons]
    omega
  refine ⟨he.table, ⟨hcount.nodup_iff.mpr hnd, ?_⟩, ?_, ?_, ?_⟩
  · intro P hP
    apply h.fresh.kpage
    rw [he.pages]
    simp [hP]
  · intro P hP
    rcases List.mem_cons.mp hP with rfl | hP
    · exact h.fresh.kpage P hfree
    · exact h.data P hP
  · intro y hy h0
    by_cases hpage : y / PGSIZE = va % MAXVA / PGSIZE
    · rw [he.hit y hy hpage]
      exact ⟨newEntry_valid hperm.valid, pa, List.mem_cons_self, newEntry_pa hperm⟩
    · rw [he.miss y hy hpage] at h0 ⊢
      obtain ⟨hvalid, P, hP, hP'⟩ := h.leaves y hy h0
      exact ⟨hvalid, P, List.mem_cons_of_mem _ hP, hP'⟩
  · intro y hy z hz hy0 hz0 hsame
    -- the new page was free, so it is behind no other entry
    by_cases hyp : y / PGSIZE = va % MAXVA / PGSIZE
    · by_cases hzp : z / PGSIZE = va % MAXVA / PGSIZE
      · rw [hyp, hzp]
      · rw [he.hit y hy hyp, newEntry_pa hperm, he.miss z hz hzp] at hsame
        rw [he.miss z hz hzp] at hz0
        exact absurd hsame.symm (h.leaf_ne hfree hz hz0)
    · by_cases hzp : z / PGSIZE = va % MAXVA / PGSIZE
      · rw [he.hit z hz hzp, newEntry_pa hperm, he.miss y hy hyp] at hsame
        rw [he.miss y hy hyp] at hy0
        exact absurd hsame (h.leaf_ne hfree hy hy0)
      · rw [he.miss y hy hyp] at hy0 hsame
        rw [he.miss z hz hzp] at hz0 hsame
        exact h.own y hy z hz hy0 hz0 hsame

theorem Enters.maps (he : Enters k k' root T D pa va perm N) : Maps k k' root T pa va perm N :=
  ⟨he.pages, he.table, he.hit, he.miss⟩

theorem Enters.held (he : Enters k k' root T D pa va perm N) (h : Held k root T D)
    (hperm : PermOk perm) : Held k' root (T ++ N) (pa :: D) := he.maps.held h hperm

/-- The virtual page holds zeros now, and the others what they held. -/
theorem Enters.view_eq (he : Enters k k' root T D pa va perm N) (h : Held k root T D)
    (hperm : PermOk perm) (y : ℕ) :
    view k'.mem root y =
      if y < MAXVA ∧ y / PGSIZE = va % MAXVA / PGSIZE then some 0 else view k.mem root y := by
  have hoff : y % PGSIZE < PGSIZE := Nat.mod_lt _ (by norm_num)
  by_cases hy : y < MAXVA
  · by_cases hpage : y / PGSIZE = va % MAXVA / PGSIZE
    · have hpa : KPage pa := h.fresh.kpage pa (by rw [he.pages]; exact List.mem_cons_self)
      have hback : backing k'.mem root y = pa := by
        rw [backing, he.hit y hy hpage, newEntry_pa hperm]
        exact hpa.PA2VA_PTE2PA
      rw [if_pos ⟨hy, hpage⟩, view, hback, he.hit y hy hpage,
        if_pos ⟨hy, newEntry_valid hperm.valid⟩, he.zero _ hoff]
    · rw [if_neg fun hc => hpage hc.2]
      by_cases h0 : leaf k.mem root y = 0
      · rw [view_of_leaf_zero h0, view_of_leaf_zero ((he.miss y hy hpage).trans h0)]
      · obtain ⟨P, hP, -, hback, -, hview⟩ := h.page hy h0
        rw [hview, view, backing, he.miss y hy hpage, if_pos ⟨hy, (h.leaves y hy h0).1⟩,
          ← backing, hback, he.same P hP _ (by omega) (by omega)]
  · rw [if_neg fun hc => hy hc.1, view_of_high (Nat.le_of_not_lt hy),
      view_of_high (Nat.le_of_not_lt hy)]

end Enter

/-- One turn of `alloc_vm`: a free page is entered at the cursor. -/
theorem Held.alloc_vm_body_enters {perm : ℕ} {s s' : AllocLoop} (h : Held s.kern s.proc.pgtbl T D)
    (hperm : PermOk perm) (hb : alloc_vm_body perm s = some s') :
    s'.caddr = (s.caddr + PGSIZE) % 2 ^ 64 ∧ s'.proc.pgtbl = s.proc.pgtbl ∧
      ∃ pa N, Enters s.kern s'.kern s.proc.pgtbl T D pa s.caddr perm N := by
  obtain ⟨pa, k₁, k', hk, hpages, hmap, rfl⟩ := alloc_vm_body_cases hb
  have hzero : ∀ i < PGSIZE, (k₁.memset pa 0 PGSIZE).mem (pa + i) = 0 := by
    intro i hi
    rw [memset_mem, Mem.fill, if_pos (by omega)]
  exact ⟨rfl, rfl, pa, h.enters hpages (fun P hP hne => zeroed_other h.fresh hk hP hne) hzero
    hperm hmap⟩

/-- So the page at the cursor holds zeros now, and nothing else has changed. -/
theorem Held.alloc_vm_body {perm : ℕ} {s s' : AllocLoop} (h : Held s.kern s.proc.pgtbl T D)
    (hperm : PermOk perm) (hb : AddrSpace.alloc_vm_body perm s = some s') :
    s'.caddr = (s.caddr + PGSIZE) % 2 ^ 64 ∧ s'.proc.pgtbl = s.proc.pgtbl ∧
      ∃ T' D', Held s'.kern s.proc.pgtbl T' D' ∧ ∀ y, view s'.kern.mem s.proc.pgtbl y =
        if y < MAXVA ∧ y / PGSIZE = s.caddr % MAXVA / PGSIZE then some 0
        else view s.kern.mem s.proc.pgtbl y := by
  obtain ⟨hnext, hroot, pa, N, hN⟩ := h.alloc_vm_body_enters hperm hb
  exact ⟨hnext, hroot, _, _, hN.held h hperm, hN.view_eq h hperm⟩

/-- The loop of `alloc_vm` comes to the page of `y`; the walkers see the cursor modulo `2^47`. -/
def Visits (start end_ y : ℕ) : Prop :=
  ∃ i, start + i * PGSIZE < PGROUNDUP end_ ∧ y / PGSIZE = (start + i * PGSIZE) % MAXVA / PGSIZE

open Classical in
/-- The bytes after `alloc_vm(start, end)`. -/
noncomputable def zeroed (start end_ : ℕ) (v : View) : View := fun y =>
  if y < MAXVA ∧ Visits start end_ y then some 0 else v y

theorem PGROUNDUP_le (a : ℕ) : PGROUNDUP a + PGSIZE ≤ 2 ^ 64 := by
  rw [PGROUNDUP, and_page_mask]
  unfold PGSIZE
  omega

/-- The loop of `alloc_vm` after `n` turns. -/
structure Allocated (k : Kern) (root start end_ n : ℕ) (s : AllocLoop) : Prop where
  caddr : s.caddr = start + n * PGSIZE
  root_eq : s.proc.pgtbl = root
  visited : ∀ i < n, start + i * PGSIZE < PGROUNDUP end_
  held : ∃ T D, Held s.kern root T D
  bytes : ∀ y, view s.kern.mem root y =
    open Classical in
    if y < MAXVA ∧ ∃ i < n, y / PGSIZE = (start + i * PGSIZE) % MAXVA / PGSIZE then some 0
    else view k.mem root y

theorem Allocated.step {start end_ perm n : ℕ} {s s' : AllocLoop} (hperm : PermOk perm)
    (h : Allocated k root start end_ n s) (hc : s.caddr < PGROUNDUP end_)
    (hb : AddrSpace.alloc_vm_body perm s = some s') : Allocated k root start end_ (n + 1) s' := by
  obtain ⟨hcaddr, hroot, hvisited, ⟨T, D, hheld⟩, hbytes⟩ := h
  have hup := PGROUNDUP_le end_
  rw [← hroot] at hheld
  obtain ⟨hnext, hroot', T', D', hheld', hview⟩ := hheld.alloc_vm_body hperm hb
  rw [hroot] at hheld' hview
  refine ⟨?_, hroot'.trans hroot, ?_, ⟨T', D', hheld'⟩, ?_⟩
  · rw [hnext, hcaddr, Nat.succ_mul]
    unfold PGSIZE at *
    omega
  · intro i hi
    by_cases hin : i < n
    · exact hvisited i hin
    · obtain rfl : i = n := by omega
      rwa [← hcaddr]
  · intro y
    rw [hview, hbytes, hcaddr]
    -- the page of this turn, or one of an earlier turn
    by_cases hlast : y < MAXVA ∧ y / PGSIZE = (start + n * PGSIZE) % MAXVA / PGSIZE
    · rw [if_pos hlast, if_pos ⟨hlast.1, n, by omega, hlast.2⟩]
    · rw [if_neg hlast]
      apply if_congr _ rfl rfl
      constructor
      · rintro ⟨hy, i, hi, he⟩
        exact ⟨hy, i, by omega, he⟩
      · rintro ⟨hy, i, hi, he⟩
        refine ⟨hy, i, ?_, he⟩
        by_contra hin
        obtain rfl : i = n := by omega
        exact hlast ⟨hy, he⟩

/-- **`alloc_vm`** puts zeros into the pages that it visits. -/
theorem alloc_vm_view {p : Space} {start end_ perm : ℕ} {s : AllocLoop}
    (h : Held k p.pgtbl T D) (hperm : PermOk perm)
    (hs : alloc_vm k p start end_ perm = some s) :
    s.proc.pgtbl = p.pgtbl ∧ (∃ T' D', Held s.kern p.pgtbl T' D') ∧
      view s.kern.mem p.pgtbl = zeroed start end_ (view k.mem p.pgtbl) := by
  have hinit : Allocated k p.pgtbl start end_ 0 ⟨start, k, p⟩ := by
    refine ⟨by simp, rfl, by simp, ⟨T, D, h⟩, ?_⟩
    intro y
    rw [if_neg (by simp)]
  obtain ⟨⟨n, hn⟩, hdone⟩ := loop_inv (fun s => ∃ n, Allocated k p.pgtbl start end_ n s)
    (fun s s' hinv hc hb => by
      obtain ⟨n, hn⟩ := hinv
      exact ⟨n + 1, hn.step hperm (of_decide_eq_true hc) hb⟩)
    ⟨0, hinit⟩ hs
  have hend : ¬ s.caddr < PGROUNDUP end_ := of_decide_eq_false hdone
  refine ⟨hn.root_eq, hn.held, ?_⟩
  funext y
  classical
  rw [hn.bytes, zeroed]
  apply if_congr _ rfl rfl
  constructor
  · rintro ⟨hy, i, hi, he⟩
    exact ⟨hy, i, hn.visited i hi, he⟩
  · rintro ⟨hy, i, hi, he⟩
    refine ⟨hy, i, ?_, he⟩
    -- a cursor below the end belongs to a turn that was made
    by_contra hin
    rw [hn.caddr] at hend
    have : n * PGSIZE ≤ i * PGSIZE := Nat.mul_le_mul_right _ (Nat.le_of_not_lt hin)
    omega

/-! ## `copy_to_va` -/

section Put

variable {n : ℕ}

/-- Writing inside a data page. -/
theorem Held.put {P off : ℕ} (h : Held k root T D) (src : Mem) (hP : P ∈ D)
    (hfit : off + n ≤ PGSIZE) :
    Held { k with mem := k.mem.put (P + off) n src } root T D ∧
      ∀ y, leaf (k.mem.put (P + off) n src) root y = leaf k.mem root y := by
  have htables : ∀ Q ∈ T, SamePage k.mem (k.mem.put (P + off) n src) Q := by
    intro Q hQ x hx1 hx2
    have hne : Q ≠ P := fun he => h.data_not_mem hP (he ▸ hQ)
    have := Memblock.aligned_disjoint (h.table.kpage Q hQ).aligned (h.data P hP).aligned hne
    apply Mem.put_apply_of_disjoint
    omega
  have hleaf : ∀ y, leaf (k.mem.put (P + off) n src) root y = leaf k.mem root y := by
    intro y
    exact h.table.walk_congr htables (by simp)
  refine ⟨⟨h.table.congr htables, ⟨h.fresh.nodup, h.fresh.kpage⟩, h.data, ?_, ?_⟩, hleaf⟩
  · intro y hy
    rw [hleaf]
    exact h.leaves y hy
  · intro y hy z hz
    rw [hleaf, hleaf]
    exact h.own y hy z hz

/-- The bytes after a write at `y` that stays in the page. -/
theorem Held.put_view {P : ℕ} (h : Held k root T D) (src : Mem) (hy : y < MAXVA)
    (h0 : leaf k.mem root y ≠ 0) (hP : backing k.mem root y = P) (hfit : y % PGSIZE + n ≤ PGSIZE)
    (z : ℕ) : view (k.mem.put (P + y % PGSIZE) n src) root z =
      if y ≤ z ∧ z < y + n then some (src (z - y)) else view k.mem root z := by
  obtain ⟨Q, hQ, hkp, hback, hpa, -⟩ := h.page hy h0
  obtain rfl : Q = P := hback.symm.trans hP
  obtain ⟨hheld, hleaf⟩ := h.put src hQ hfit
  by_cases hz : z < MAXVA
  · by_cases hz0 : leaf k.mem root z = 0
    · -- the page of `y` is mapped, so `z` is not in it
      have hpage : ¬ (y ≤ z ∧ z < y + n) := by
        intro hin
        have hdiv : z / PGSIZE = y / PGSIZE := by
          unfold PGSIZE at *
          omega
        exact h0 ((leaf_page hdiv).symm.trans hz0)
      rw [if_neg hpage, view_of_leaf_zero hz0, view_of_leaf_zero ((hleaf z).trans hz0)]
    · obtain ⟨R, hR, hkR, hbackR, hpaR, hview⟩ := h.page hz hz0
      have hvalid := (h.leaves z hz hz0).1
      rw [hview, view, backing, hleaf, if_pos ⟨hz, hvalid⟩, ← backing, hbackR]
      by_cases hpage : z / PGSIZE = y / PGSIZE
      · obtain rfl : R = Q := by
          rw [← hbackR, ← hback, backing, backing, leaf_page hpage]
        by_cases hin : y ≤ z ∧ z < y + n
        · rw [if_pos hin, show R + z % PGSIZE = R + y % PGSIZE + (z - y) by
            unfold PGSIZE at *
            omega, Mem.put_apply_of_mem (by omega)]
        · rw [if_neg hin, Mem.put_apply_of_disjoint]
          unfold PGSIZE at *
          omega
      · -- different virtual pages have different pages behind them
        have hne : R ≠ Q := by
          intro he
          apply hpage
          apply h.own z hz y hy hz0 h0
          rw [hpaR, hpa, he]
        have := Memblock.aligned_disjoint hkR.aligned hkp.aligned hne
        have hout : ¬ (y ≤ z ∧ z < y + n) := by
          unfold PGSIZE at *
          omega
        rw [if_neg hout, Mem.put_apply_of_disjoint]
        unfold PGSIZE at *
        omega
  · have hout : ¬ (y ≤ z ∧ z < y + n) := by
      unfold MAXVA PGSIZE at *
      omega
    rw [if_neg hout, view_of_high (Nat.le_of_not_lt hz), view_of_high (Nat.le_of_not_lt hz)]

end Put

/-- How far `copy_to_va` gets: to the first byte that is not mapped. -/
def reach (v : View) (dst len : ℕ) : ℕ :=
  ((List.range len).find? fun i => (v (dst + i)).isNone).getD len

/-- The bytes after `copy_to_va`. -/
def copied (dst len : ℕ) (src : Mem) (v : View) : View := fun y =>
  if dst ≤ y ∧ y < dst + reach v dst len then some (src (y - dst)) else v y

/-- Where the first bytes are mapped, and then there is an end or a hole. -/
theorem reach_eq {v : View} {dst len n : ℕ} (hn : n ≤ len) (hmapped : ∀ i < n, v (dst + i) ≠ none)
    (hend : n = len ∨ v (dst + n) = none) : reach v dst len = n := by
  rw [reach]
  -- the search ends at the hole, or finds none
  by_cases hlen : n < len
  · have hhole : v (dst + n) = none := hend.resolve_left (by omega)
    have hfind : (List.range len).find? (fun i => (v (dst + i)).isNone) = some n := by
      rw [List.find?_range_eq_some]
      refine ⟨by simp [hhole], List.mem_range.mpr hlen, ?_⟩
      intro i hi
      have := hmapped i hi
      cases hv : v (dst + i) with
      | none => exact absurd hv this
      | some b => rfl
    rw [hfind]
    rfl
  · obtain rfl : n = len := by omega
    have hfind : (List.range n).find? (fun i => (v (dst + i)).isNone) = none := by
      rw [List.find?_range_eq_none]
      intro i hi
      have := hmapped i hi
      cases hv : v (dst + i) with
      | none => exact absurd hv this
      | some b => rfl
    rw [hfind]
    rfl

/-- A byte is reached when it and all before it are mapped. -/
theorem lt_reach_iff {v : View} {dst len i : ℕ} :
    i < reach v dst len ↔ i < len ∧ ∀ j ≤ i, v (dst + j) ≠ none := by
  rw [reach]
  cases hfind : (List.range len).find? fun i => (v (dst + i)).isNone with
  | none =>
    rw [List.find?_range_eq_none] at hfind
    rw [Option.getD_none, iff_self_and]
    intro hi j hj hnone
    simpa [hnone] using hfind j (by omega)
  | some n =>
    obtain ⟨hn, hlen, hbefore⟩ := List.find?_range_eq_some.mp hfind
    have hlt := List.mem_range.mp hlen
    rw [Option.getD_some]
    constructor
    · intro hi
      refine ⟨by omega, ?_⟩
      intro j hj hnone
      simpa [hnone] using hbefore j (by omega)
    · rintro ⟨-, hmapped⟩
      -- the hole at `n` is not before the byte
      by_contra hle
      exact hmapped n (by omega) (Option.isNone_iff_eq_none.mp hn)

/-- The page that `copy_to_va` finds for the byte at `y`. -/
theorem Held.va_to_pa_page (h : Held k root T D) (hy : y < MAXVA) (h0 : leaf k.mem root y ≠ 0) :
    PageTable.va_to_pa k root (PGROUNDDOWN y) = some (PTE2PA (leaf k.mem root y)) := by
  have hdown : PGROUNDDOWN y = y / PGSIZE * PGSIZE := by
    apply PGROUNDDOWN_eq
    unfold MAXVA at hy
    omega
  have hpage : y / PGSIZE * PGSIZE / PGSIZE = y / PGSIZE := Nat.mul_div_cancel _ (by norm_num)
  have hlt : y / PGSIZE * PGSIZE < MAXVA := lt_of_le_of_lt (Nat.div_mul_le_self _ _) hy
  rw [hdown, va_to_pa_spec h.table hlt, leaf_page hpage, PageTable.translate,
    if_neg (h.leaves y hy h0).1, Nat.mul_mod_left, Nat.add_zero]

/-- Nothing is found for a byte that is not mapped. -/
theorem Held.va_to_pa_hole (h : Held k root T D) (hy : y < 2 ^ 64)
    (hnone : view k.mem root y = none) :
    PageTable.va_to_pa k root (PGROUNDDOWN y) = some 0 := by
  have hdown : PGROUNDDOWN y = y / PGSIZE * PGSIZE := PGROUNDDOWN_eq hy
  have hpage : y / PGSIZE * PGSIZE / PGSIZE = y / PGSIZE := Nat.mul_div_cancel _ (by norm_num)
  obtain ⟨pa, hpa, hiff⟩ := h.va_to_pa (PGROUNDDOWN y)
  rw [hpa, hiff.mpr]
  rw [hdown]
  by_cases hlow : y < MAXVA
  · rw [h.view_eq_none_iff hlow] at hnone
    exact view_of_leaf_zero ((leaf_page hpage).trans hnone)
  · apply view_of_high
    unfold MAXVA PGSIZE at *
    omega

/-- The loop of `copy_to_va` after `n` bytes. -/
structure CopyInv (k : Kern) (root : ℕ) (T D : List ℕ) (dst len : ℕ) (src : Mem) (n : ℕ)
    (s : CopyToLoop) : Prop where
  le : n ≤ len
  len_eq : s.len = len - n
  src_eq : s.src = n
  dstva : s.len = 0 ∨ s.dstva = dst + n
  held : Held s.kern root T D
  pages : s.kern.pages = k.pages
  mapped : ∀ i < n, view k.mem root (dst + i) ≠ none
  bytes : ∀ y, view s.kern.mem root y =
    if dst ≤ y ∧ y < dst + n then some (src (y - dst)) else view k.mem root y
  hole : s.ret = none ∨ view k.mem root (dst + n) = none

/-- The cursor does not wrap: every byte so far was mapped, so it is below `2^47`. -/
theorem CopyInv.cursor_lt {dst len n : ℕ} {src : Mem} {s : CopyToLoop}
    (h : CopyInv k root T D dst len src n s) (hdst : dst < 2 ^ 64) : dst + n < 2 ^ 64 := by
  by_cases hn : n = 0
  · omega
  · have hlast := h.mapped (n - 1) (by omega)
    have hlow : dst + (n - 1) < MAXVA := by
      by_contra hhigh
      exact hlast (view_of_high (Nat.le_of_not_lt hhigh))
    unfold MAXVA at hlow
    omega

/-- A turn at a byte that is not mapped ends the loop. -/
theorem CopyInv.stop {dst len n : ℕ} {src : Mem} {s : CopyToLoop}
    (h : CopyInv k root T D dst len src n s) (hlen : s.len > 0) (hdst : dst + n < 2 ^ 64)
    (hnone : view k.mem root (dst + n) = none) :
    ∃ s', copy_to_va_body root src s = some s' ∧ s'.ret ≠ none ∧
      CopyInv k root T D dst len src n s' := by
  have hva : s.dstva = dst + n := h.dstva.resolve_left (by omega)
  have hview : view s.kern.mem root s.dstva = none := by
    rw [hva, h.bytes, if_neg (by omega), hnone]
  have hpa := h.held.va_to_pa_hole (by rw [hva]; exact hdst) hview
  refine ⟨{ s with ret := some (-1) }, ?_, by simp, ?_⟩
  · rw [copy_to_va_body, hpa]
    rfl
  · exact ⟨h.le, h.len_eq, h.src_eq, h.dstva, h.held, h.pages, h.mapped, h.bytes, .inr hnone⟩

/-- A turn at a byte that is mapped copies up to the end of its page. -/
theorem CopyInv.step {dst len n : ℕ} {src : Mem} {s : CopyToLoop}
    (h : CopyInv k root T D dst len src n s) (hlen : s.len > 0) (hret : s.ret = none)
    (hsome : view k.mem root (dst + n) ≠ none) :
    ∃ s' n', copy_to_va_body root src s = some s' ∧ s'.ret = none ∧ s'.len < s.len ∧
      CopyInv k root T D dst len src n' s' := by
  have hva : s.dstva = dst + n := h.dstva.resolve_left (by omega)
  have hlow : dst + n < MAXVA := by
    by_contra hhigh
    exact hsome (view_of_high (Nat.le_of_not_lt hhigh))
  have hview : view s.kern.mem root (dst + n) ≠ none := by
    rw [h.bytes, if_neg (by omega)]
    exact hsome
  have h0 : leaf s.kern.mem root (dst + n) ≠ 0 := by
    intro h0
    exact hview (view_of_leaf_zero h0)
  obtain ⟨P, hP, hkp, hback, hpage, -⟩ := h.held.page hlow h0
  have hpa := h.held.va_to_pa_page hlow h0
  have hdown : PGROUNDDOWN (dst + n) = (dst + n) / PGSIZE * PGSIZE := by
    apply PGROUNDDOWN_eq
    unfold MAXVA at hlow
    omega
  have hoff : dst + n - PGROUNDDOWN (dst + n) = (dst + n) % PGSIZE := by
    rw [hdown]
    unfold PGSIZE
    omega
  have hoff_lt : (dst + n) % PGSIZE < PGSIZE := Nat.mod_lt _ (by norm_num)
  -- the number of bytes of this turn
  obtain ⟨c, hc⟩ : ∃ c, c = if PGSIZE - (dst + n) % PGSIZE > s.len then s.len
      else PGSIZE - (dst + n) % PGSIZE := ⟨_, rfl⟩
  have hcfit : (dst + n) % PGSIZE + c ≤ PGSIZE ∧ 0 < c ∧ c ≤ s.len := by
    rw [hc]
    split <;> omega
  have hbody : copy_to_va_body root src s = some { s with
      kern := { s.kern with
        mem := s.kern.mem.put (P + (dst + n) % PGSIZE) c fun i => src (s.src + i) }
      dstva := (PGROUNDDOWN (dst + n) + PGSIZE) % 2 ^ 64
      src := s.src + c
      len := s.len - c } := by
    rw [copy_to_va_body, hva, hpa, Option.map_some]
    simp only [hpage, hkp.PTE2PA_ne_zero, if_false, hoff, PA2VA_add hkp hoff_lt, ← hc]
  have hput := h.held.put_view (fun i => src (s.src + i)) hlow h0 hback hcfit.1
  refine ⟨_, n + c, hbody, hret, by dsimp only; omega, ?_⟩
  obtain ⟨hle, hlen_eq, hsrc, -, hheld, hpages, hmapped, hbytes, -⟩ := h
  refine ⟨by omega, by dsimp only; omega, by dsimp only; omega, ?_, ?_, hpages, ?_, ?_,
    .inl hret⟩
  · dsimp only
    rw [hdown]
    unfold MAXVA PGSIZE at *
    by_cases hlast : 16384 - (dst + n) % 16384 > s.len
    · rw [if_pos hlast] at hc
      omega
    · rw [if_neg hlast] at hc
      omega
  · exact (hheld.put _ hP hcfit.1).1
  · -- the bytes of one page are mapped together
    intro i hi
    by_cases hin : i < n
    · exact hmapped i hin
    · have hdiv : (dst + i) / PGSIZE = (dst + n) / PGSIZE := by
        unfold PGSIZE at *
        omega
      have hilow : dst + i < MAXVA := by
        unfold MAXVA PGSIZE at *
        omega
      have hleaf : leaf s.kern.mem root (dst + i) ≠ 0 := by
        rw [leaf_page hdiv]
        exact h0
      have := (hheld.view_eq_none_iff hilow).not.mpr hleaf
      rwa [hbytes, if_neg (by omega)] at this
  · intro y
    dsimp only
    rw [hput]
    by_cases hnew : dst + n ≤ y ∧ y < dst + n + c
    · rw [if_pos hnew, if_pos (by omega), hsrc, show n + (y - (dst + n)) = y - dst by omega]
    · rw [if_neg hnew, hbytes]
      exact if_congr (by omega) rfl rfl

/-- **`copy_to_va`** writes the bytes up to the first one that is not mapped. -/
theorem copy_to_va_view {dst : ℕ} (len : ℕ) (src : Mem) (h : Held k root T D)
    (hdst : dst < 2 ^ 64) :
    ∃ r, copy_to_va k root dst src len = some r ∧ Held r.2 root T D ∧ r.2.pages = k.pages ∧
      view r.2.mem root = copied dst len src (view k.mem root) := by
  have hinit : CopyInv k root T D dst len src 0 ⟨k, dst, 0, len, none⟩ := by
    refine ⟨Nat.zero_le _, rfl, rfl, .inr rfl, h, rfl, by simp, ?_, .inl rfl⟩
    intro y
    rw [if_neg (by omega)]
  obtain ⟨s, hs, ⟨n, hn⟩, hdone⟩ := loop_spec
    (c := fun s : CopyToLoop => decide (s.len > 0 ∧ s.ret = none))
    (f := copy_to_va_body root src) (n := len + 1)
    (fun s => ∃ n, CopyInv k root T D dst len src n s)
    (fun s => if s.ret = none then s.len else 0)
    (fun s hinv hc => by
      obtain ⟨n, hn⟩ := hinv
      obtain ⟨hlen, hret⟩ := of_decide_eq_true hc
      by_cases hnone : view k.mem root (dst + n) = none
      · obtain ⟨s', hs', hret', hn'⟩ := hn.stop hlen (hn.cursor_lt hdst) hnone
        refine ⟨s', hs', ⟨n, hn'⟩, ?_⟩
        rw [if_pos hret, if_neg hret']
        exact hlen
      · obtain ⟨s', n', hs', hret', hlt, hn'⟩ := hn.step hlen hret hnone
        refine ⟨s', hs', ⟨n', hn'⟩, ?_⟩
        rw [if_pos hret, if_pos hret']
        exact hlt)
    ⟨0, hinit⟩ (by simp)
  -- the loop ended with all bytes copied, or at the first hole
  refine ⟨(s.ret.getD 0, s.kern), by rw [copy_to_va, hs]; rfl, hn.held, hn.pages, ?_⟩
  have hreach : reach (view k.mem root) dst len = n := by
    apply reach_eq hn.le hn.mapped
    have hdone := of_decide_eq_false hdone
    have hlen := hn.len_eq
    have hle := hn.le
    rcases hn.hole with hret | hhole
    · left
      by_contra hne
      exact hdone ⟨by omega, hret⟩
    · exact .inr hhole
  funext y
  rw [hn.bytes, copied, hreach]

end Loos.Image
