/-
What building and copying an address space leaves alone.

[`Extends`] follows one page table while pages off the free list are added to it: what is
behind the table stays its own, and no page of anybody else is written. `alloc_vm`,
`copy_to_va` and the loader do that to the new process, whatever the program asks for, and
`copy_pagetable` does it to the child, provided that the parent's records are page-aligned.
A record that is not makes `__map_pages` map a second page, which nobody has allocated.
-/
import Loos.LoadImage
import Loos.PgtblFree

set_option autoImplicit false

namespace Loos.Growth

open SysLib Kern PageTable AddrSpace Image ElfLoader LoadImage

/-- From `k` to `k'` the tables `T` and data pages `D` of the page table at `root` became `T'`
and `D'`, by taking the free pages `N` and writing to no other pages than its own. -/
structure Extends (k k' : Kern) (root : ℕ) (T D T' D' N : List ℕ) : Prop where
  pages : k.pages = N ++ k'.pages
  held : Held k' root T' D'
  owned : (T' ++ D').Perm (T ++ D ++ N)
  frame : ∀ P, KPage P → P ∉ T ++ D → P ∉ N → SamePage k.mem k'.mem P

variable {k k₀ k₁ k' : Kern} {root : ℕ} {T T₁ T' D D₁ D' N N₁ : List ℕ} {m m' : Mem}

theorem Extends.refl (h : Held k root T D) : Extends k k root T D T D [] :=
  ⟨rfl, h, by simp, fun P _ _ _ => SamePage.refl _ P⟩

theorem Extends.trans (h : Extends k k₁ root T D T₁ D₁ N) (h' : Extends k₁ k' root T₁ D₁ T' D' N₁) :
    Extends k k' root T D T' D' (N ++ N₁) := by
  refine ⟨by rw [h.pages, h'.pages, List.append_assoc], h'.held, ?_, ?_⟩
  · refine h'.owned.trans ?_
    rw [← List.append_assoc]
    exact h.owned.append_right N₁
  · intro P hP hown hN
    rw [List.mem_append, not_or] at hN
    refine (h.frame P hP hown hN.1).trans (h'.frame P hP ?_ hN.2)
    rw [h.owned.mem_iff, List.mem_append, not_or]
    exact ⟨hown, hN.1⟩

/-! ## Tables that are not written -/

/-- Where no table is written and nothing held becomes free, all is held as before. -/
theorem held_congr (h : Held k root T D) (hs : ∀ P ∈ T, SamePage k.mem k'.mem P)
    (hf : Fresh k' (T ++ D)) : Held k' root T D := by
  -- a walk reads table pages only
  have hleaf : ∀ y, leaf k'.mem root y = leaf k.mem root y := by
    intro y
    exact h.table.walk_congr hs (by simp)
  refine ⟨h.table.congr hs, hf, h.data, ?_, ?_⟩
  · intro y hy
    rw [hleaf]
    exact h.leaves y hy
  · intro y hy z hz
    rw [hleaf, hleaf]
    exact h.own y hy z hz

/-- Taking pages off the free list keeps the others fresh. -/
theorem fresh_of_suffix (h : Fresh k T) (hpages : k.pages = N ++ k'.pages) : Fresh k' T := by
  refine ⟨h.nodup.sublist ?_, fun x hx => h.kpage x ?_⟩
  · rw [hpages]
    exact (List.sublist_append_right N _).append_left T
  · rw [hpages]
    exact List.mem_append_right N hx

/-- The bytes of a space whose pages are not written. -/
theorem view_congr (h : Held k root T D) (hs : ∀ P ∈ T ++ D, SamePage k.mem m' P) :
    view m' root = view k.mem root := by
  have hleaf : ∀ y, leaf m' root y = leaf k.mem root y := by
    intro y
    exact h.table.walk_congr (fun P hP => hs P (List.mem_append_left _ hP)) (by simp)
  funext y
  by_cases hy : y < MAXVA
  · by_cases h0 : leaf k.mem root y = 0
    · rw [view_of_leaf_zero h0, view_of_leaf_zero ((hleaf y).trans h0)]
    · -- the same page is behind `y`, and it holds what it held
      obtain ⟨P, hP, -, hback, -, hview⟩ := h.page hy h0
      have hoff : y % PGSIZE < PGSIZE := Nat.mod_lt _ (by norm_num)
      rw [hview, view, backing, hleaf, if_pos ⟨hy, (h.leaves y hy h0).1⟩, ← backing, hback,
        hs P (List.mem_append_right _ hP) _ (by omega) (by omega)]
  · rw [view_of_high (Nat.le_of_not_lt hy), view_of_high (Nat.le_of_not_lt hy)]

/-! ## One page more -/

/-- A page off the free list, written to at will, is entered at any address. -/
theorem extends_enter {pa va perm : ℕ} (h : Held k root T D) (hpages : k.pages = pa :: k₀.pages)
    (hother : ∀ P, KPage P → P ≠ pa → SamePage k.mem k₀.mem P) (hperm : PermOk perm)
    (hk : map_single_page k₀ root va pa perm = some k') :
    ∃ N, N.length ≤ 2 ∧ Extends k k' root T D (T ++ N) (pa :: D) (pa :: N) := by
  obtain ⟨N, hN, hm, -, hframe⟩ := h.maps hpages hother hperm hk
  refine ⟨N, hN, hm.pages, hm.held h hperm, ?_, ?_⟩
  · rw [List.perm_iff_count]
    intro x
    simp only [List.count_append, List.count_cons]
    omega
  · intro P hP hown hN
    rw [List.mem_cons, not_or] at hN
    exact hframe P hP (fun hT => hown (List.mem_append_left _ hT)) hN.1 hN.2

/-- What every record of a process satisfies; its address may be anything below the last
page. -/
structure RecordOk (r : Mapping) : Prop where
  size : r.size = PGSIZE
  low : r.va + PGSIZE < 2 ^ 64
  perm : PermOk r.perm

/-- The pages of the records. -/
def pas (p : Space) : List ℕ := p.mapping_list.map Mapping.pa

/-- The space `p` became `p'` by entering fresh pages, each with its record; with its tables a
page costs three pages at most. -/
structure Loads (k k' : Kern) (p p' : Space) (T T' N : List ℕ) : Prop where
  root : p'.pgtbl = p.pgtbl
  ext : Extends k k' p.pgtbl T (pas p) T' (pas p') N
  recs : (∀ r ∈ p.mapping_list, RecordOk r) → ∀ r ∈ p'.mapping_list, RecordOk r
  cost : N.length + 3 * p.mapping_list.length ≤ 3 * p'.mapping_list.length

variable {p p₁ p' : Space}

theorem Loads.refl (h : Held k p.pgtbl T (pas p)) : Loads k k p p T T [] :=
  ⟨rfl, .refl h, fun h => h, by simp⟩

theorem Loads.trans (h : Loads k k₁ p p₁ T T₁ N) (h' : Loads k₁ k' p₁ p' T₁ T' N₁) :
    Loads k k' p p' T T' (N ++ N₁) := by
  have hext := h'.ext
  rw [h.root] at hext
  refine ⟨h'.root.trans h.root, h.ext.trans hext, fun hr => h'.recs (h.recs hr), ?_⟩
  have hcost := h.cost
  have hcost' := h'.cost
  rw [List.length_append]
  omega

theorem Loads.held (h : Loads k k' p p' T T' N) : Held k' p'.pgtbl T' (pas p') := by
  rw [h.root]
  exact h.ext.held

/-- **`alloc_vm`**, on any range. -/
theorem alloc_vm_loads {start end_ perm : ℕ} {s : AllocLoop} (h : Held k p.pgtbl T (pas p))
    (hperm : PermOk perm) (hs : alloc_vm k p start end_ perm = some s) :
    ∃ T' N, Loads k s.kern p s.proc T T' N := by
  have hup := PGROUNDUP_le end_
  -- every turn is one page more; its record ends below `2^64` because the cursor is below `end`
  refine (loop_inv (fun s => ∃ T' N, Loads k s.kern p s.proc T T' N) ?_ ⟨T, [], .refl h⟩ hs).1
  rintro s s' ⟨T₁, N₁, hloads⟩ hc hb
  have hc : s.caddr < PGROUNDUP end_ := of_decide_eq_true hc
  obtain ⟨pa, k₁, k', hk, hpages, hmap, rfl⟩ := alloc_vm_body_cases hb
  have hheld := hloads.held
  obtain ⟨N, hN, hext⟩ := extends_enter hheld hpages
    (fun P hP hne => zeroed_other hheld.fresh hk hP hne) hperm hmap
  refine ⟨T₁ ++ N, N₁ ++ pa :: N, hloads.trans ⟨rfl, hext, fun hrecs => ?_, ?_⟩⟩
  · exact List.forall_mem_cons.mpr ⟨⟨rfl, show s.caddr + PGSIZE < 2 ^ 64 by omega, hperm⟩, hrecs⟩
  · simp only [Space.proc_add_mapping, List.length_cons]
    omega

/-! ## Writing through the page table -/

/-- From `k` to `k'` nothing was written but data pages of `D`. -/
structure Writes (k k' : Kern) (root : ℕ) (T D : List ℕ) : Prop where
  pages : k'.pages = k.pages
  held : Held k' root T D
  frame : ∀ P, KPage P → P ∉ D → SamePage k.mem k'.mem P

theorem Writes.refl (h : Held k root T D) : Writes k k root T D :=
  ⟨rfl, h, fun P _ _ => SamePage.refl _ P⟩

theorem Writes.trans (h : Writes k k₁ root T D) (h' : Writes k₁ k' root T D) :
    Writes k k' root T D :=
  ⟨h'.pages.trans h.pages, h'.held, fun P hP hD => (h.frame P hP hD).trans (h'.frame P hP hD)⟩

theorem Writes.extends (h : Writes k k' root T D) : Extends k k' root T D T D [] := by
  refine ⟨h.pages.symm, h.held, by simp, fun P hP hown _ => h.frame P hP fun hD => hown ?_⟩
  exact List.mem_append_right _ hD

/-- One turn of `copy_to_va`: nothing is mapped, or bytes of one page are written. -/
theorem copy_to_va_body_writes {src : Mem} {s s' : CopyToLoop} (h : Held s.kern root T D)
    (hdst : s.dstva < 2 ^ 64) (hb : copy_to_va_body root src s = some s') :
    s'.dstva < 2 ^ 64 ∧ Writes s.kern s'.kern root T D := by
  by_cases hnone : view s.kern.mem root s.dstva = none
  · rw [copy_to_va_body, h.va_to_pa_hole hdst hnone] at hb
    obtain rfl : { s with ret := some (-1) } = s' := Option.some.inj hb
    exact ⟨hdst, .refl h⟩
  · have hlow : s.dstva < MAXVA := by
      by_contra hhigh
      exact hnone (view_of_high (Nat.le_of_not_lt hhigh))
    have h0 : leaf s.kern.mem root s.dstva ≠ 0 := fun h0 => hnone (view_of_leaf_zero h0)
    obtain ⟨P, hP, hkp, -, hpage, -⟩ := h.page hlow h0
    have hoff : s.dstva - PGROUNDDOWN s.dstva = s.dstva % PGSIZE := by
      rw [PGROUNDDOWN_eq hdst]
      unfold PGSIZE
      omega
    have hoff_lt : s.dstva % PGSIZE < PGSIZE := Nat.mod_lt _ (by norm_num)
    rw [copy_to_va_body, h.va_to_pa_page hlow h0, Option.map_some] at hb
    simp only [hpage, hkp.PTE2PA_ne_zero, if_false, hoff, PA2VA_add hkp hoff_lt] at hb
    obtain rfl := Option.some.inj hb
    refine ⟨Nat.mod_lt _ (by norm_num), rfl, (h.put _ hP ?_).1, ?_⟩
    · split <;> omega
    · -- the other pages are apart from this one
      intro Q hQ hD x h1 h2
      have hne : Q ≠ P := fun he => hD (he ▸ hP)
      have := Memblock.aligned_disjoint hQ.aligned hkp.aligned hne
      dsimp only
      apply Mem.put_apply_of_disjoint
      split <;> omega

/-- **`copy_to_va`** writes to data pages of the space only. -/
theorem copy_to_va_writes {dst len : ℕ} {src : Mem} {r : ℤ × Kern} (h : Held k root T D)
    (hdst : dst < 2 ^ 64) (hr : copy_to_va k root dst src len = some r) :
    Writes k r.2 root T D := by
  obtain ⟨s, hs, rfl⟩ := Option.map_eq_some_iff.mp hr
  refine (loop_inv (fun s => s.dstva < 2 ^ 64 ∧ Writes k s.kern root T D)
    (fun s s' hinv _ hb => ?_) ⟨hdst, .refl h⟩ hs).1.2
  obtain ⟨hdst', hwrites⟩ := copy_to_va_body_writes hinv.2.held hinv.1 hb
  exact ⟨hdst', hinv.2.trans hwrites⟩

theorem Writes.loads (h : Writes k k' p.pgtbl T (pas p)) : Loads k k' p p T T [] :=
  ⟨rfl, h.extends, fun h => h, by simp⟩

/-! ## The loader -/

theorem orPanic_eq_ok {α : Type} {r : Option α} {a : α} (h : orPanic r = .ok a) : r = some a := by
  cases r with
  | none => cases h
  | some b => rw [Except.ok.inj h]

/-- One segment, wherever it is. -/
theorem load_segment_loads {elf_buf : Mem} {segment : Elf_Phdr} {s s' : Task} {b : Bool}
    (h : Held s.kern s.proc.pgtbl T (pas s.proc)) (hvaddr : segment.p_vaddr < 2 ^ 64)
    (hs : load_segment elf_buf segment s = .ok (b, s')) :
    ∃ T' N, Loads s.kern s'.kern s.proc s'.proc T T' N := by
  obtain ⟨-, -, hs⟩ := bind_eq_ok hs
  obtain ⟨-, -, hs⟩ := bind_eq_ok hs
  obtain ⟨a, ha, hs⟩ := bind_eq_ok hs
  obtain ⟨c, hc, hs⟩ := bind_eq_ok hs
  obtain ⟨paddr, -, hs⟩ := bind_eq_ok hs
  obtain ⟨-, rfl⟩ := Prod.mk.inj (Except.ok.inj hs)
  obtain ⟨T', N, hloads⟩ := alloc_vm_loads h segment_perm_ok (orPanic_eq_ok ha)
  have hwrites := copy_to_va_writes hloads.held hvaddr (orPanic_eq_ok hc)
  exact ⟨T', _, hloads.trans hwrites.loads⟩

theorem load_segments_loads {elf_buf : Mem} {segments : List Elf_Phdr} {s s' : Task} {b : Bool}
    (h : Held s.kern s.proc.pgtbl T (pas s.proc)) (hvaddr : ∀ g ∈ segments, g.p_vaddr < 2 ^ 64)
    (hs : load_segments elf_buf segments s = .ok (b, s')) :
    ∃ T' N, Loads s.kern s'.kern s.proc s'.proc T T' N := by
  induction segments generalizing s T with
  | nil =>
    obtain ⟨-, rfl⟩ := Prod.mk.inj (Except.ok.inj hs)
    exact ⟨T, [], .refl h⟩
  | cons segment rest ih =>
    have hrest : ∀ g ∈ rest, g.p_vaddr < 2 ^ 64 := fun g hg => hvaddr g (List.mem_cons_of_mem _ hg)
    rw [load_segments] at hs
    split at hs
    · obtain ⟨⟨ok, s₁⟩, hone, hs⟩ := bind_eq_ok hs
      obtain ⟨T₁, N, hloads⟩ := load_segment_loads h (hvaddr segment List.mem_cons_self) hone
      cases ok with
      | false =>
        obtain ⟨-, rfl⟩ := Prod.mk.inj (Except.ok.inj hs)
        exact ⟨T₁, N, hloads⟩
      | true =>
        obtain ⟨T', N', hloads'⟩ := ih hloads.held hrest hs
        exact ⟨T', _, hloads.trans hloads'⟩
    · exact ih h hrest hs

/-- **`elf_loader`** on any bytes. -/
theorem load_elf_loads {elf_buf : Mem} {s s' : Task} {entry : ℕ}
    (h : Held s.kern s.proc.pgtbl T (pas s.proc)) (hs : load_elf elf_buf s = .ok (entry, s')) :
    ∃ T' N, Loads s.kern s'.kern s.proc s'.proc T T' N := by
  obtain ⟨-, -, b, hsegments, -⟩ := load_elf_ok hs
  refine load_segments_loads h (fun g hg => ?_) hsegments
  obtain ⟨off, -, rfl⟩ := List.mem_map.mp hg
  exact Elf_Phdr.p_vaddr_lt _ _

/-! ## Copying -/

/-- What a space is while another one grows: what it was. -/
theorem Extends.keeps {root' : ℕ} {Tp Dp : List ℕ} (hext : Extends k k' root T D T' D' N)
    (h : Held k root' Tp Dp) (hapart : ∀ P ∈ Tp ++ Dp, P ∉ T ++ D) :
    Held k' root' Tp Dp ∧ ∀ P ∈ Tp ++ Dp, SamePage k.mem k'.mem P ∧ P ∉ T' ++ D' := by
  -- the pages that were taken had been free, so they were not in this space
  have hnew : ∀ P ∈ Tp ++ Dp, P ∉ N := by
    intro P hP hN
    refine h.free_ne ?_ hP rfl
    rw [hext.pages]
    exact List.mem_append_left _ hN
  have hkpage : ∀ P ∈ Tp ++ Dp, KPage P := by
    intro P hP
    exact (List.mem_append.mp hP).elim (h.table.kpage P) (h.data P)
  have hsame : ∀ P ∈ Tp ++ Dp, SamePage k.mem k'.mem P := by
    intro P hP
    exact hext.frame P (hkpage P hP) (hapart P hP) (hnew P hP)
  refine ⟨held_congr h (fun P hP => hsame P (List.mem_append_left _ hP))
    (fresh_of_suffix h.fresh hext.pages), fun P hP => ⟨hsame P hP, ?_⟩⟩
  rw [hext.owned.mem_iff, List.mem_append, not_or]
  exact ⟨hapart P hP, hnew P hP⟩

/-- `copy_from_va` of a page-aligned address writes to the page at `dst`, or nothing. -/
theorem copy_from_va_other {dst va : ℕ} {r : ℤ × Kern} (h : Held k root T D) (hva : va < 2 ^ 64)
    (hal : va % PGSIZE = 0) (hdst : KPage dst) (hr : copy_from_va k root dst va PGSIZE = some r) :
    r.2.pages = k.pages ∧ ∀ P, KPage P → P ≠ dst → SamePage k.mem r.2.mem P := by
  by_cases hnone : view k.mem root va = none
  · -- the first turn returns -1
    have hbody : copy_from_va_body root ⟨k, dst, va, PGSIZE, none⟩ =
        some ⟨k, dst, va, PGSIZE, some (-1)⟩ := by
      rw [copy_from_va_body, h.va_to_pa_hole hva hnone]
      rfl
    rw [copy_from_va, show PGSIZE + 1 = 16383 + 1 + 1 from rfl, loop_succ, if_pos (by simp),
      hbody, Option.bind_some, loop_succ, if_neg (by simp)] at hr
    obtain rfl := Option.some.inj hr
    exact ⟨rfl, fun P _ _ => SamePage.refl _ P⟩
  · -- the first turn copies the whole page
    have hlow : va < MAXVA := by
      by_contra hhigh
      exact hnone (view_of_high (Nat.le_of_not_lt hhigh))
    have h0 : leaf k.mem root va ≠ 0 := fun h0 => hnone (view_of_leaf_zero h0)
    obtain ⟨Q, -, hkp, -, hpage, -⟩ := h.page hlow h0
    rw [copy_from_va_page h.table hlow hal (h.leaves va hlow h0).1
      (by rw [hpage]; exact hkp.PTE2PA_ne_zero)] at hr
    obtain rfl := Option.some.inj hr
    refine ⟨rfl, fun P hP hne x h1 h2 => ?_⟩
    have := Memblock.aligned_disjoint hP.aligned hdst.aligned hne
    exact Mem.copy_apply_of_disjoint (by omega)

/-- `__map_pages` of an aligned page is one `__map_single_page`, also beyond `2^47`. -/
theorem map_pages_aligned {va pa perm : ℕ} (hva : va + PGSIZE < 2 ^ 64) (hal : va % PGSIZE = 0)
    (hpa : KPage pa) : map_pages k root va PGSIZE pa perm = map_single_page k root va pa perm := by
  -- the last page is the first one, and one turn puts the cursor behind it
  have hlast : PGROUNDDOWN ((va + PGSIZE + 2 ^ 64 - 1) % 2 ^ 64) = va := by
    rw [PGROUNDDOWN_eq (Nat.mod_lt _ (by norm_num))]
    unfold PGSIZE at *
    omega
  have hdown : PGROUNDDOWN pa = pa := PGROUNDDOWN_of_aligned (by
    have := hpa.bounds
    unfold MAIN_KERNEL_DMW PGSIZE at this
    omega) hpa.aligned
  have hbehind : ¬ (va + PGSIZE) % 2 ^ 64 ≤ va := by
    rw [Nat.mod_eq_of_lt hva]
    unfold PGSIZE
    omega
  rw [map_pages, hlast, PGROUNDDOWN_of_aligned (by omega) hal, hdown, map_pages_loop,
    show (2 : ℕ) ^ 50 + 1 = 2 ^ 50 - 1 + 1 + 1 by norm_num, loop_succ, if_pos (by simp),
    map_pages_body]
  cases map_single_page k root va pa perm with
  | none => rfl
  | some k' =>
    rw [Option.map_some, Option.bind_some, loop_succ, if_neg (by simpa using hbehind)]
    rfl

/-- One turn of `copy_pagetable`: the child has a page more. -/
theorem copy_mapping_extends {s s' : CopyState} {info : Mapping} {Tp Dp : List ℕ}
    (hp : Held s.kern s.p.pgtbl Tp Dp) (hn : Held s.kern s.np.pgtbl T D) (hinfo : RecordOk info)
    (hal : info.va % PGSIZE = 0) (hs : copy_mapping s info = some s') :
    ∃ T' D' N, Extends s.kern s'.kern s.np.pgtbl T D T' D' N ∧
      s'.p = s.p.proc_add_mapping info.pa info.va PGSIZE info.perm ∧
      ∃ pa, s'.np = s.np.proc_add_mapping pa info.va PGSIZE info.perm := by
  obtain ⟨⟨pa, k₁⟩, hk, hs⟩ := Option.bind_eq_some_iff.mp hs
  obtain ⟨⟨ret, k₂⟩, hcopy, hs⟩ := Option.bind_eq_some_iff.mp hs
  obtain ⟨k₃, hmap, hs⟩ := Option.bind_eq_some_iff.mp hs
  obtain ⟨pa', -, rfl⟩ := Option.map_eq_some_iff.mp hs
  dsimp only at hcopy hmap
  have hpages : s.kern.pages = pa :: k₁.pages := (kmalloc_eq_some hk).1
  have hfree : pa ∈ s.kern.pages := by
    rw [hpages]
    exact List.mem_cons_self
  have hpa : KPage pa := hn.fresh.kpage pa hfree
  have hzero : ∀ P, KPage P → P ≠ pa → SamePage s.kern.mem (k₁.memset pa 0 PGSIZE).mem P :=
    fun P hP hne => zeroed_other hn.fresh hk hP hne
  -- the copy goes through the parent's table, which the fresh page is no part of
  have hp₁ : Held (k₁.memset pa 0 PGSIZE) s.p.pgtbl Tp Dp := by
    refine held_congr hp (fun P hP => hzero P (hp.table.kpage P hP) ?_)
      (fresh_of_suffix (N := [pa]) hp.fresh hpages)
    exact hp.free_ne hfree (List.mem_append_left _ hP)
  have hlow := hinfo.low
  obtain ⟨hpages₂, hother⟩ := copy_from_va_other hp₁ (by omega) hal hpa hcopy
  rw [hinfo.size, map_pages_aligned hlow hal hpa] at hmap
  obtain ⟨N, -, hext⟩ := extends_enter hn (by rw [hpages, hpages₂]; rfl)
    (fun P hP hne => (hzero P hP hne).trans (hother P hP hne)) hinfo.perm hmap
  exact ⟨_, _, _, hext, rfl, _, rfl⟩

/-- The loop of `copy_pagetable` when it has come to `s`. -/
structure Copies (k : Kern) (p np : Space) (T D : List ℕ) (s : CopyState) : Prop where
  parent_root : s.p.pgtbl = p.pgtbl
  child_root : s.np.pgtbl = np.pgtbl
  parent_recs : ∀ r ∈ s.p.mapping_list, RecordOk r
  child_recs : ∀ r ∈ s.np.mapping_list, RecordOk r
  child : ∃ T' D' N, Extends k s.kern np.pgtbl T D T' D' N

variable {np : Space} {Tp Dp : List ℕ} {s s' : CopyState}

theorem Copies.step {info : Mapping} (hp : Held k p.pgtbl Tp Dp)
    (hapart : ∀ P ∈ Tp ++ Dp, P ∉ T ++ D) (h : Copies k p np T D s) (hinfo : RecordOk info)
    (hal : info.va % PGSIZE = 0) (hs : copy_mapping s info = some s') : Copies k p np T D s' := by
  obtain ⟨hpr, hcr, hprecs, hcrecs, T₁, D₁, N₁, hext⟩ := h
  have hheld := hext.held
  have hkeep := (hext.keeps hp hapart).1
  rw [← hpr] at hkeep
  rw [← hcr] at hheld
  obtain ⟨T₂, D₂, N₂, hext₂, hp', pa, hn'⟩ := copy_mapping_extends hkeep hheld hinfo hal hs
  rw [hcr] at hext₂
  -- both lists get a record with the address and the rights of this one
  have hrec : ∀ pa, RecordOk ⟨pa, info.va, PGSIZE, info.perm⟩ :=
    fun pa => ⟨rfl, hinfo.low, hinfo.perm⟩
  refine ⟨by rw [hp']; exact hpr, by rw [hn']; exact hcr, ?_, ?_, _, _, _, hext.trans hext₂⟩
  · rw [hp']
    exact List.forall_mem_cons.mpr ⟨hrec _, hprecs⟩
  · rw [hn']
    exact List.forall_mem_cons.mpr ⟨hrec _, hcrecs⟩

theorem Copies.loop {L : List Mapping} (hp : Held k p.pgtbl Tp Dp)
    (hapart : ∀ P ∈ Tp ++ Dp, P ∉ T ++ D) (h : Copies k p np T D s) (hL : ∀ r ∈ L, RecordOk r)
    (hal : ∀ r ∈ L, r.va % PGSIZE = 0) (hs : L.foldlM copy_mapping s = some s') :
    Copies k p np T D s' := by
  induction L generalizing s with
  | nil =>
    obtain rfl : s = s' := by simpa using hs
    exact h
  | cons info L ih =>
    rw [List.foldlM_cons, Option.bind_eq_bind, Option.bind_eq_some_iff] at hs
    obtain ⟨s₁, h₁, h₂⟩ := hs
    obtain ⟨hinfo, hL⟩ := List.forall_mem_cons.mp hL
    obtain ⟨hal₁, hal⟩ := List.forall_mem_cons.mp hal
    exact ih (h.step hp hapart hinfo hal₁ h₁) hL hal h₂

/-- **`copy_pagetable`** from a parent whose records are page-aligned. -/
theorem copy_pagetable_copies (hp : Held k p.pgtbl Tp Dp) (hn : Held k np.pgtbl T D)
    (hapart : ∀ P ∈ Tp ++ Dp, P ∉ T ++ D) (hrecs : ∀ r ∈ p.mapping_list, RecordOk r)
    (hal : ∀ r ∈ p.mapping_list, r.va % PGSIZE = 0) (hempty : np.mapping_list = [])
    (hs : copy_pagetable k p np = some s) : Copies k p np T D s := by
  have hinit : Copies k p np T D ⟨k, { p with mapping_list := [] }, np⟩ := by
    refine ⟨rfl, rfl, by simp, by simp [hempty], T, D, [], .refl hn⟩
  exact hinit.loop hp hapart hrecs hal hs

/-! ## Freeing -/

/-- **`pgtbl_free`** gives back the tables and the pages of the records. -/
theorem pgtbl_free_gives (h : Held k p.pgtbl T (pas p)) :
    ∃ f, pgtbl_free k p = some f ∧ f.kern.pages.Perm (T ++ pas p ++ k.pages) ∧
      ∀ P, KPage P → P ∉ T ++ pas p → SamePage k.mem f.kern.mem P := by
  obtain ⟨f, hf, hfrees, hdrops⟩ := pgtbl_free_frees h.table (List.nodup_append.mp h.fresh.nodup).1
    fun r hr => h.data r.pa (List.mem_map_of_mem hr)
  refine ⟨f, hf, ?_, fun P hP hout => ?_⟩
  · rw [hfrees.pages]
    exact ((List.reverse_perm _).trans hdrops).append_right _
  · apply hfrees.frame P hP
    rwa [hdrops.mem_iff]

end Loos.Growth
