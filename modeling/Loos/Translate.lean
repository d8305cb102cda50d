/-
Read-over-write for page tables: what `va_to_pa` returns after `__map_pages`,
in every table the mapping functions can build.

A run starts from an empty table and makes any number of `__map_single_page`
and `__map_pages` calls below `2^47`. The run lemma is that the table stays
well-formed; the translation of an address is then its leaf entry, and one
mapping changes exactly the leaf entries of its range.
-/
import Loos.PageTable
import Loos.Lib.Runs

set_option autoImplicit false

namespace Loos.Translate

open SysLib Kern PageTable

/-! ## Runs of mapping calls -/

/-- A call that changes a page table. -/
inductive Event where
  | single (va pa perm : ℕ)
  | pages (va size pa perm : ℕ)

/-- The call stays below `2^47`, and its `perm` is made of flag bits with `PTE_V`. -/
def Event.Admissible : Event → Prop
  | .single va _ perm => va < MAXVA ∧ FlagPerm perm
  | .pages va size _ perm => UserRange va size ∧ FlagPerm perm

/-- The call maps the page of `y`. -/
def Event.Covers (y : ℕ) : Event → Prop
  | .single va _ _ => y / PGSIZE = va / PGSIZE
  | .pages va size _ _ => va / PGSIZE ≤ y / PGSIZE ∧ y / PGSIZE ≤ lastPage va size

/-- The call on the table at `root`. -/
def step (root : ℕ) (k : Kern) : Event → Option Kern
  | .single va pa perm => map_single_page k root va pa perm
  | .pages va size pa perm => map_pages k root va size pa perm

/-- The page of `x` meets the bytes `[va, va + size)`. -/
def Touches (x va size : ℕ) : Prop := ∃ z, va ≤ z ∧ z < va + size ∧ z / PGSIZE = x / PGSIZE

theorem touches_iff {x va size : ℕ} (hsize : 0 < size) :
    Touches x va size ↔ va / PGSIZE ≤ x / PGSIZE ∧ x / PGSIZE ≤ (va + size - 1) / PGSIZE := by
  constructor
  · rintro ⟨z, h1, h2, h3⟩
    rw [← h3]
    exact ⟨Nat.div_le_div_right h1, Nat.div_le_div_right (by omega)⟩
  · rintro ⟨h1, h2⟩
    by_cases hx : va ≤ x / PGSIZE * PGSIZE
    · refine ⟨x / PGSIZE * PGSIZE, hx, ?_, Nat.mul_div_cancel _ (by norm_num)⟩
      unfold PGSIZE at *
      omega
    · refine ⟨va, Nat.le_refl va, by omega, ?_⟩
      unfold PGSIZE at *
      omega

/-! ## The run lemma -/

/-- The table built so far is well-formed, and the free pages are still fresh. -/
def Inv (root : ℕ) (k : Kern) : Prop := ∃ T, PtOk k.mem root T ∧ Fresh k T

variable {root : ℕ} {k₀ k₁ k k' : Kern} {e : Event} {es : List Event}

/-- All that one call does to the leaf entries outside what it covers: nothing. -/
theorem Inv.of_step (h : Inv root k) (he : e.Admissible) (hs : step root k e = some k') :
    Inv root k' ∧
      ∀ y < MAXVA, ¬ e.Covers y → leaf k'.mem root y = leaf k.mem root y := by
  obtain ⟨T, hok, hf⟩ := h
  cases e with
  | single va pa perm =>
    obtain ⟨hva, hperm⟩ := he
    obtain ⟨N, -, hg, hw⟩ := map_single_page_spec hok hf hperm.permOk.lt hs
    refine ⟨⟨T ++ N, hg.ok, hg.fresh hf⟩, fun y hy hc => ?_⟩
    rw [leaf_map_single_page hva hw hy]
    exact if_neg hc
  | pages va size pa perm =>
    obtain ⟨hr, hperm⟩ := he
    obtain ⟨N, -, hg, hl⟩ := map_pages_spec hok hf hperm.permOk.lt hr hs
    refine ⟨⟨T ++ N, hg.ok, hg.fresh hf⟩, fun y hy hc => ?_⟩
    rw [hl y hy]
    exact if_neg hc

theorem Inv.of_create (hf : Fresh k₀ []) (hc : pgtbl_create k₀ = some (root, k₁)) :
    Inv root k₁ := by
  obtain ⟨hpages, hok, -⟩ := pgtbl_create_spec hf hc
  exact ⟨[root], hok, hf.of_pages (N := [root]) hpages⟩

theorem Inv.of_run (h : Inv root k) (hes : ∀ e ∈ es, e.Admissible)
    (hrun : run (step root) k es = some k') : Inv root k' :=
  run_invariant (fun _ e => e.Admissible) (Inv root)
    (fun _ _ _ hs he hstep => (hs.of_step he hstep).1) h
    (.of_forall_mem fun e he _ => hes e he) hrun

/-- A page that no call covered has kept its entry. -/
theorem leaf_of_run (h : Inv root k) (hes : ∀ e ∈ es, e.Admissible)
    (hrun : run (step root) k es = some k') {y : ℕ} (hy : y < MAXVA)
    (hc : ∀ e ∈ es, ¬ e.Covers y) : leaf k'.mem root y = leaf k.mem root y := by
  induction es generalizing k with
  | nil =>
    obtain rfl : k = k' := by simpa using hrun
    rfl
  | cons e es ih =>
    obtain ⟨k₁, h₁, h₂⟩ := run_cons_eq_some.mp hrun
    obtain ⟨hinv, hleaf⟩ := h.of_step (hes e List.mem_cons_self) h₁
    rw [ih hinv (fun e' he' => hes e' (List.mem_cons_of_mem e he')) h₂
      fun e' he' => hc e' (List.mem_cons_of_mem e he')]
    exact hleaf y hy (hc e List.mem_cons_self)

/-! ## The main result -/

/-- **Read over write.** In a table built by any sequence of mapping calls,
`__map_pages` makes every address whose page it touches translate to the
matching page of `pa`, and leaves every other translation as it was, which is 0
for a page never mapped. With two free pages for each page of the range the
call returns. -/
theorem va_to_pa_map_pages (hf : Fresh k₀ []) (hc : pgtbl_create k₀ = some (root, k₁))
    (hes : ∀ e ∈ es, e.Admissible) (hrun : run (step root) k₁ es = some k)
    {va size pa perm : ℕ} (hsize : 0 < size) (hend : va + size ≤ MAXVA) (hperm : FlagPerm perm) :
    (∀ y < MAXVA, (∀ e ∈ es, ¬ e.Covers y) → va_to_pa k root y = some 0) ∧
    (2 * ((va + size - 1) / PGSIZE + 1 - va / PGSIZE) ≤ k.pages.length →
      ∃ k', map_pages k root va size pa perm = some k') ∧
    ∀ k', map_pages k root va size pa perm = some k' →
      (∀ x, Touches x va size → va_to_pa k' root x =
        some (((PGROUNDDOWN pa + (PGROUNDDOWN x - PGROUNDDOWN va)) &&& PAMASK) + x % PGSIZE)) ∧
      ∀ y < MAXVA, ¬ Touches y va size → va_to_pa k' root y = va_to_pa k root y := by
  have hcreate := Inv.of_create hf hc
  obtain ⟨T, hok, hfr⟩ := hcreate.of_run hes hrun
  obtain ⟨hr, hlast⟩ := userRange_of_le hsize hend
  refine ⟨fun y hy hnc => ?_, fun hlen => ?_, fun k' hk' => ?_⟩
  · -- no call came to this page, so its entry is still zero
    rw [va_to_pa_spec hok hy, leaf_of_run hcreate hes hrun hy hnc, leaf,
      (pgtbl_create_spec hf hc).2.2.1 _ (by simp [path])]
    simp [PageTable.translate]
  · rw [← hlast] at hlen
    exact map_pages_isSome pa hok hfr hperm.permOk.lt hr hlen
  · obtain ⟨N, -, hg, hl⟩ := map_pages_spec hok hfr hperm.permOk.lt hr hk'
    rw [hlast] at hl
    refine ⟨fun x hx => ?_, fun y hy hny => ?_⟩
    · -- inside: the entry is the new one, with the offset of the page
      have hpage := (touches_iff hsize).mp hx
      have hx47 : x < MAXVA := by
        unfold MAXVA PGSIZE at *
        omega
      have hdiff : PGROUNDDOWN x - PGROUNDDOWN va = (x / PGSIZE - va / PGSIZE) * PGSIZE := by
        rw [PGROUNDDOWN_eq (by unfold MAXVA at hx47; omega),
          PGROUNDDOWN_eq (by unfold MAXVA at hend; omega), Nat.sub_mul]
      rw [va_to_pa_spec hg.ok hx47, hl x hx47, if_pos hpage, translate_newEntry hperm.permOk, PA2PTE,
        hdiff]
    · -- outside: the entry is the old one
      rw [va_to_pa_spec hg.ok hy, va_to_pa_spec hok hy, hl y hy,
        if_neg (fun h => hny ((touches_iff hsize).mpr h))]

/-- Six free pages: one mapping, then a mapping of two pages over it. -/
theorem va_to_pa_map_pages_six_pages :
    ∃ k₀ root k₁ k, pgtbl_create k₀ = some (root, k₁) ∧
      run (step root) k₁ [.single 0x4000 0x80004000 1] = some k ∧
      ∀ k', map_pages k root 0x5000 0x4000 0x80010000 1 = some k' →
        va_to_pa k' root 0x8001 = some 0x80014001 := by
  -- six pages behind 2 GiB
  let k₀ : Kern :=
    ⟨fun _ => 0, (List.range 6).map fun i => MAIN_KERNEL_DMW ||| (0x80000000 + i * PGSIZE)⟩
  have hf : Fresh k₀ [] := fresh_row (by decide) (by decide) (by decide) (by decide)
  have hperm : FlagPerm 1 := ⟨by decide, by decide⟩
  obtain ⟨⟨root, k₁⟩, hc⟩ : ∃ r, pgtbl_create k₀ = some r := ⟨_, rfl⟩
  have hlen := congrArg List.length (pgtbl_create_spec hf hc).1
  obtain ⟨k, hk⟩ := map_single_page_isSome (k := k₁) root 0x4000 0x80004000 1
    (by simp [k₀] at hlen; omega)
  have hrun : run (step root) k₁ [.single 0x4000 0x80004000 1] = some k := by
    rw [run_cons, step, hk]
    rfl
  refine ⟨k₀, root, k₁, k, hc, hrun, fun k' hk' => ?_⟩
  -- 0x8001 is in the second page of the later mapping
  have hmain := va_to_pa_map_pages hf hc (fun e he => by
      rw [List.mem_singleton.mp he]
      exact ⟨by norm_num, hperm⟩) hrun (show 0 < 0x4000 by norm_num)
    (show 0x5000 + 0x4000 ≤ MAXVA by norm_num) hperm |>.2.2 k' hk'
  have hx := hmain.1 0x8001 ⟨0x8001, by norm_num, by norm_num, rfl⟩
  rw [hx]
  decide

end Loos.Translate
