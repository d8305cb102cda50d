/-
The two walkers over one table.

`__map_single_page` enters the pointer that `kmalloc` returned, and follows an entry as it
is. `va_to_pte_pointer` enters the physical address with `PTE_V`, and puts the window back
when it follows one. `free_pagetable` follows entries as they are.

So the entries of the first are followed by all three, and the entries of the second only
by itself: the walkers agree on every table in whose building `va_to_pte_pointer` never had
to create a table, and one table that it creates ends it, since `free_pagetable` does not
come back from its entry ([`walkers_agree_iff`]).
-/
import Loos.Vm

set_option autoImplicit false

namespace Loos.Walkers

open SysLib Kern PageTable AddrSpace

/-! ## Tables built by both walkers -/

/-- A call that may extend the table: `va_to_pte_pointer(pt, va, 1)` or `__map_single_page`. -/
inductive Call where
  | walk (va : ℕ)
  | map (va pa perm : ℕ)

/-- The address is below `2^47`, and the rights are a word. -/
def Call.Admissible : Call → Prop
  | .walk va => va < MAXVA
  | .map va _ perm => va < MAXVA ∧ perm < 2 ^ 64

/-- The call on the table at `root`. -/
def step (root : ℕ) (k : Kern) : Call → Option Kern
  | .walk va => (va_to_pte_pointer k root va true).map Prod.snd
  | .map va pa perm => map_single_page k root va pa perm

/-- The table that the leaf entry of `va` is in; 0 if it does not exist. -/
def leafTable (m : Mem) (root va : ℕ) : ℕ := Radix.walk (rd m) root [idx 2 va, idx 1 va]

/-- `va_to_pte_pointer` has no table to create. -/
def Tabled (root : ℕ) (k : Kern) : Call → Prop
  | .walk va => leafTable k.mem root va ≠ 0
  | .map _ _ _ => True

instance (root : ℕ) (k : Kern) (c : Call) : Decidable (Tabled root k c) :=
  match c with
  | .walk va => inferInstanceAs (Decidable (leafTable k.mem root va ≠ 0))
  | .map _ _ _ => .isTrue trivial

/-- **The walkers agree.** Where `__map_single_page` comes to a slot, `va_to_pte_pointer`
finds that slot: at once if its table is there, else as soon as `__map_single_page` has
created it. `free_pagetable` frees the tables, each once. -/
structure Agree (k : Kern) (root : ℕ) (tables : List ℕ) : Prop where
  before : ∀ va < MAXVA, leafTable k.mem root va ≠ 0 → ∃ slot,
    va_to_pte_pointer k root va false = some (slot, k) ∧
      map_single_page_slot k root va = some (slot, k)
  missing : ∀ va < MAXVA, leafTable k.mem root va = 0 →
    va_to_pte_pointer k root va false = some (0, k)
  after : ∀ va < MAXVA, ∀ slot k', map_single_page_slot k root va = some (slot, k') →
    va_to_pte_pointer k' root va false = some (slot, k')
  frees : ∃ s, free_pagetable 2 ⟨k, []⟩ root = some s ∧ (Radix.drops s.log).Perm tables

/-! ## What each walker does -/

variable {k k' k₀ : Kern} {root va : ℕ} {T : List ℕ} {calls : List Call} {c : Call}

theorem leafTable_eq (hroot : root ≠ 0) : leafTable k.mem root va =
    if rd k.mem root (idx 2 va) = 0 then 0 else rd k.mem (rd k.mem root (idx 2 va)) (idx 1 va) := by
  rw [leafTable, show [idx 2 va, idx 1 va] = [idx 2 va] ++ [idx 1 va] from rfl, Radix.walk_snoc,
    Radix.walk_cons hroot, Radix.walk_nil]

/-- One level of `va_to_pte_pointer` where the entry has a page of the window. -/
theorem va_to_pte_loop_follow {level pt : ℕ} (alloc : Bool)
    (hpage : KPage (rd k.mem pt (idx (level + 1) va))) :
    va_to_pte_loop va alloc (level + 1) k pt =
      va_to_pte_loop va alloc level k (rd k.mem pt (idx (level + 1) va)) := by
  have h0 : k.mem.load64 (pt + 8 * PX (level + 1) va) ≠ 0 := hpage.ne_zero
  rw [va_to_pte_loop, if_pos h0, show k.mem.load64 (pt + 8 * PX (level + 1) va)
    = rd k.mem pt (idx (level + 1) va) from rfl, hpage.PA2VA_PTE2PA]

/-- The tables on the way to an entry whose table exists. -/
theorem pages_of_tabled (h : PtOk k.mem root T) (h0 : leafTable k.mem root va ≠ 0) :
    KPage root ∧ KPage (rd k.mem root (idx 2 va)) ∧
      KPage (rd k.mem (rd k.mem root (idx 2 va)) (idx 1 va)) ∧
      leafTable k.mem root va = rd k.mem (rd k.mem root (idx 2 va)) (idx 1 va) := by
  have hroot := h.sep.root
  have heq : leafTable k.mem root va = if rd k.mem root (idx 2 va) = 0 then 0
      else rd k.mem (rd k.mem root (idx 2 va)) (idx 1 va) := leafTable_eq hroot
  have h2 : rd k.mem root (idx 2 va) ≠ 0 := by
    intro hz
    rw [heq, if_pos hz] at h0
    exact h0 rfl
  rw [if_neg h2] at heq
  have hmid : Radix.walk (rd k.mem) root [idx 2 va] = rd k.mem root (idx 2 va) := by
    rw [Radix.walk_cons hroot, Radix.walk_nil]
  refine ⟨h.kpage root (h.walk_mem (p := []) (by simp) hroot), ?_, ?_, heq⟩
  · rw [← hmid] at h2 ⊢
    exact h.kpage _ (h.walk_mem (by simp) h2)
  · rw [← heq]
    exact h.kpage _ (h.walk_mem (by simp) h0)

/-- Where the tables exist, `va_to_pte_pointer` creates none. -/
theorem va_to_pte_pointer_of_tabled (h : PtOk k.mem root T) (hva : va < MAXVA)
    (h0 : leafTable k.mem root va ≠ 0) (alloc : Bool) :
    va_to_pte_pointer k root va alloc = some (leafTable k.mem root va + 8 * PX 0 va, k) := by
  obtain ⟨hroot, hmid, hleaf, heq⟩ := pages_of_tabled h h0
  rw [va_to_pte_pointer, if_neg (by omega), hroot.PA2VA_self, va_to_pte_loop_follow alloc hmid,
    va_to_pte_loop_follow alloc hleaf, heq]
  rfl

/-- Where the tables exist, `__map_single_page` creates none. -/
theorem map_single_page_slot_of_tabled (h : PtOk k.mem root T)
    (h0 : leafTable k.mem root va ≠ 0) :
    map_single_page_slot k root va = some (leafTable k.mem root va + 8 * PX 0 va, k) := by
  obtain ⟨-, hmid, hleaf, heq⟩ := pages_of_tabled h h0
  have hlevel : ∀ (pt level : ℕ), KPage (rd k.mem pt (idx level va)) →
      map_level k pt va level = some (rd k.mem pt (idx level va), k) := by
    intro pt level hpage
    have hne : k.mem.load64 (pt + 8 * PX level va) ≠ 0 := hpage.ne_zero
    rw [map_level]
    dsimp only
    rw [if_neg hne]
    rfl
  rw [map_single_page_slot]
  simp only [List.foldlM_cons, List.foldlM_nil, hlevel root 2 hmid, Option.bind_eq_bind,
    Option.bind_some, hlevel _ 1 hleaf, Option.pure_def, Option.map_some, heq]

/-! ## The run lemma -/

/-- The pages that left the free list since `k₀` are the tables at `root`. -/
def Inv (k₀ : Kern) (root : ℕ) (k : Kern) : Prop :=
  ∃ T, k₀.pages = T ++ k.pages ∧ PtOk k.mem root T

theorem Inv.of_create (hf : Fresh k₀ []) (hc : pgtbl_create k₀ = some (root, k)) :
    Inv k₀ root k := by
  obtain ⟨hpages, hok, -⟩ := pgtbl_create_spec hf hc
  exact ⟨[root], hpages, hok⟩

/-- One call that finds its tables, or creates them the way of `__map_single_page`. -/
theorem Inv.of_step (hf : Fresh k₀ []) (h : Inv k₀ root k) (hc : c.Admissible)
    (hok : Tabled root k c) (hs : step root k c = some k') : Inv k₀ root k' := by
  obtain ⟨T, hpages, htable⟩ := h
  have hfresh : Fresh k T := hf.of_pages hpages
  cases c with
  | walk va =>
    rw [step, va_to_pte_pointer_of_tabled htable hc hok] at hs
    obtain rfl : k = k' := by simpa using hs
    exact ⟨T, hpages, htable⟩
  | map va pa perm =>
    obtain ⟨N, -, hg, -⟩ := map_single_page_spec htable hfresh hc.2 hs
    exact ⟨T ++ N, by rw [hpages, hg.pages, List.append_assoc], hg.ok⟩

/-- A table whose pages are exactly those taken is one on which the walkers agree. -/
theorem Inv.agree (hf : Fresh k₀ []) (h : Inv k₀ root k) : Agree k root (taken k₀ k) := by
  obtain ⟨T, hpages, htable⟩ := h
  have hfresh : Fresh k T := hf.of_pages hpages
  rw [taken_eq hpages]
  refine ⟨fun va hva h0 => ?_, fun va hva h0 => ?_, fun va hva slot k' hslot => ?_, ?_⟩
  · exact ⟨_, va_to_pte_pointer_of_tabled htable hva h0 false,
      map_single_page_slot_of_tabled htable h0⟩
  · rw [va_to_pte_pointer_spec htable hva]
    exact congrArg some (congrArg (·, k) (if_pos h0))
  · obtain ⟨N, t, -, hg, ht, rfl, hwalk, -⟩ := map_single_page_slot_spec htable hfresh hslot
    rw [← hwalk] at ht ⊢
    exact va_to_pte_pointer_of_tabled hg.ok hva ht false
  · obtain ⟨s, hs, hfrees⟩ := free_pagetable_spec (s := ⟨k, []⟩) htable.sep fun P hP =>
      ⟨htable.kpage P ((htable.node P).mpr hP), SamePage.refl _ _⟩
    refine ⟨s, hs, ?_⟩
    rw [hfrees.log, List.nil_append, Radix.drops_trace]
    exact postorder_perm htable (List.nodup_append.mp hfresh.nodup).1

/-! ## A table that the other walker created -/

/-- `free_pagetable` does not come back from an address that is no page: its last act is the
`kfree` of that address. -/
theorem free_pagetable_unaligned {level pgtbl : ℕ} (s : Freeing) (hal : pgtbl % PGSIZE ≠ 0) :
    free_pagetable level s pgtbl = none := by
  have hkfree : ∀ s : Freeing, s.kfree pgtbl = none := by
    intro s
    rw [Freeing.kfree, Kern.kfree, if_neg hal, Option.map_none]
  cases level with
  | zero => exact hkfree s
  | succ level => simp only [free_pagetable, hkfree, Option.bind_fun_none]

/-- From `k` to `k₂` the page `new` was zeroed and entered, the way of `va_to_pte_pointer`, as
entry `i` of the table `pt`, one of the pages `S`. -/
structure Creates (k k₂ : Kern) (S : List ℕ) (pt : ℕ) (i : Fin PTENTRIES) (new : ℕ) : Prop where
  fresh : Fresh k₂ (S ++ [new])
  page : KPage new
  unaligned : rd k₂.mem pt i % PGSIZE = 1
  entries : ∀ j, j ≠ i → rd k₂.mem pt j = rd k.mem pt j
  same : ∀ P ∈ S, P ≠ pt → SamePage k.mem k₂.mem P
  empty : ∀ j, rd k₂.mem new j = 0

theorem creates_of_kmalloc {S : List ℕ} {pt new : ℕ} {k₁ : Kern} (i : Fin PTENTRIES)
    (hS : ∀ P ∈ S, KPage P) (hf : Fresh k S) (hpt : pt ∈ S)
    (hk : kmalloc k PGSIZE = some (new, k₁)) :
    Creates k ((k₁.memset new 0 PGSIZE).write (pt + 8 * i) (PA2PTE new ||| PTE_V)) S pt i new := by
  obtain ⟨hpages, hmem⟩ := kmalloc_eq_some hk
  have hnew : new ∈ k.pages := by
    rw [hpages]
    exact List.mem_cons_self
  have hpage : KPage new := hf.kpage new hnew
  have hne : ∀ P ∈ S, P ≠ new := fun P hP => (List.nodup_append.mp hf.nodup).2.2 P hP new hnew
  -- the page is filled twice before it is entered
  have hfills : ∀ P, P % PGSIZE = 0 → P ≠ new →
      SamePage k.mem (k₁.memset new 0 PGSIZE).mem P := by
    intro P hP hPn
    rw [memset_mem, hmem]
    exact (samePage_fill hP hpage.aligned hPn).trans (samePage_fill hP hpage.aligned hPn)
  have hentry : PA2PTE new ||| PTE_V = new / PGSIZE % 2 ^ 36 * PGSIZE + 1 := by
    rw [PA2PTE_eq, Nat.or_comm, show PGSIZE = 2 ^ 14 from rfl]
    exact or_high_eq_add (by norm_num)
  have hlt : PA2PTE new ||| PTE_V < 2 ^ 64 := by
    have := PA2PTE_lt new
    exact Nat.or_lt_two_pow (by omega) (by norm_num)
  have hal := (hS pt hpt).aligned
  refine ⟨?_, hpage, ?_, fun j hj => ?_, fun P hP hPt => ?_, fun j => ?_⟩
  · exact hf.of_pages (N := [new]) hpages
  · rw [write_mem, rd_write_same hlt, hentry]
    unfold PGSIZE
    omega
  · rw [write_mem, rd_write_ne hj]
    exact (hfills pt hal (hne pt hpt)).rd j
  · exact (hfills P (hS P hP).aligned (hne P hP)).trans
      (samePage_write (hS P hP).aligned hal hPt i)
  · rw [write_mem, (samePage_write hpage.aligned hal (hne pt hpt).symm i).rd j]
    exact rd_zeroed _ _ _

/-- One level of `va_to_pte_pointer` where the entry is missing: it goes on in a new table. -/
theorem va_to_pte_loop_create {S : List ℕ} {level pt slot : ℕ} (hS : ∀ P ∈ S, KPage P)
    (hf : Fresh k S) (hpt : pt ∈ S) (h0 : rd k.mem pt (idx (level + 1) va) = 0)
    (hk : va_to_pte_loop va true (level + 1) k pt = some (slot, k')) :
    ∃ new k₂, Creates k k₂ S pt (idx (level + 1) va) new ∧
      va_to_pte_loop va true level k₂ new = some (slot, k') := by
  have hzero : k.mem.load64 (pt + 8 * PX (level + 1) va) = 0 := h0
  rw [va_to_pte_loop, if_neg (not_not.mpr hzero), if_pos rfl] at hk
  cases hm : kmalloc k PGSIZE with
  | none =>
    rw [hm] at hk
    cases hk
  | some r =>
    obtain ⟨new, k₁⟩ := r
    have hcreate := creates_of_kmalloc (idx (level + 1) va) hS hf hpt hm
    rw [hm] at hk
    dsimp only at hk
    rw [if_neg hcreate.page.ne_zero] at hk
    exact ⟨new, _, hcreate, hk⟩

/-- From `k` to `k'` entry `i` of the table at the path `q` became an address that is no page,
and the tables `T` have kept everything else. -/
structure Spoils (k k' : Kern) (root : ℕ) (T : List ℕ) (q : List (Fin PTENTRIES))
    (i : Fin PTENTRIES) : Prop where
  depth : q.length ≤ 1
  table : Radix.walk (rd k.mem) root q ≠ 0
  unaligned : rd k'.mem (Radix.walk (rd k.mem) root q) i % PGSIZE = 1
  entries : ∀ j, j ≠ i → rd k'.mem (Radix.walk (rd k.mem) root q) j
    = rd k.mem (Radix.walk (rd k.mem) root q) j
  same : ∀ P ∈ T, P ≠ Radix.walk (rd k.mem) root q → SamePage k.mem k'.mem P

/-- A table created by `va_to_pte_pointer` spoils an entry for the others. -/
theorem spoils_of_walk {slot : ℕ} (h : PtOk k.mem root T) (hf : Fresh k T) (hva : va < MAXVA)
    (h0 : leafTable k.mem root va = 0)
    (hk : va_to_pte_pointer k root va true = some (slot, k')) :
    ∃ q i, Spoils k k' root T q i := by
  have hroot : root ∈ T := h.walk_mem (p := []) (by simp) h.sep.root
  have hmid : Radix.walk (rd k.mem) root [idx 2 va] = rd k.mem root (idx 2 va) := by
    rw [Radix.walk_cons h.sep.root, Radix.walk_nil]
  rw [leafTable_eq h.sep.root] at h0
  rw [va_to_pte_pointer, if_neg (by omega), (h.kpage root hroot).PA2VA_self] at hk
  by_cases h2 : rd k.mem root (idx 2 va) = 0
  · -- the table of the middle level is missing, so both are created
    obtain ⟨new, k₂, hc, hk⟩ := va_to_pte_loop_create h.kpage hf hroot h2 hk
    have hS : ∀ P ∈ T ++ [new], KPage P := by
      intro P hP
      rcases List.mem_append.mp hP with hP | hP
      · exact h.kpage P hP
      · rw [List.mem_singleton.mp hP]
        exact hc.page
    have hnew : ∀ P ∈ T, P ≠ new := by
      intro P hP
      exact (List.nodup_append.mp (List.nodup_append.mp hc.fresh.nodup).1).2.2 P hP new
        (List.mem_singleton_self new)
    obtain ⟨new', k₃, hc', hk⟩ := va_to_pte_loop_create hS hc.fresh
      (List.mem_append_right _ (List.mem_singleton_self new)) (hc.empty _) hk
    obtain ⟨-, rfl⟩ := Prod.mk.inj (Option.some.inj hk)
    have hkeep : ∀ P ∈ T, SamePage k₂.mem k₃.mem P :=
      fun P hP => hc'.same P (List.mem_append_left _ hP) (hnew P hP)
    refine ⟨[], idx 2 va, by simp, h.sep.root, ?_, fun j hj => ?_, fun P hP hne => ?_⟩
    · rw [Radix.walk_nil, (hkeep root hroot).rd]
      exact hc.unaligned
    · rw [Radix.walk_nil, (hkeep root hroot).rd]
      exact hc.entries j hj
    · exact (hc.same P hP hne).trans (hkeep P hP)
  · -- only the table of the leaf entry is missing
    rw [if_neg h2] at h0
    have hmem : rd k.mem root (idx 2 va) ∈ T := by
      rw [← hmid] at h2 ⊢
      exact h.walk_mem (by simp) h2
    rw [va_to_pte_loop_follow true (h.kpage _ hmem)] at hk
    obtain ⟨new, k₂, hc, hk⟩ := va_to_pte_loop_create h.kpage hf hmem h0 hk
    obtain ⟨-, rfl⟩ := Prod.mk.inj (Option.some.inj hk)
    refine ⟨[idx 2 va], idx 1 va, by simp, by rw [hmid]; exact h2, ?_, ?_, ?_⟩
    · rw [hmid]
      exact hc.unaligned
    · rw [hmid]
      exact hc.entries
    · rw [hmid]
      exact hc.same

/-! ## `free_pagetable` on a spoiled table -/

/-- A loop over the entries whose first unusual entry is one it does not come back from. What
was freed before it does not reach the pages `R`. -/
theorem free_entries_stuck {m : Mem} {level a : ℕ} {i : Fin PTENTRIES} {s : Freeing}
    (hsep : Radix.Sep (rd m) a (level + 1)) (hpa : KPage a)
    (hentries : ∀ j, j ≠ i → rd s.kern.mem a j = rd m a j)
    (hbelow : ∀ j, j ≠ i → ∀ P, Radix.Node (rd m) (rd m a j) level P →
      KPage P ∧ SamePage m s.kern.mem P)
    (h0 : rd s.kern.mem a i ≠ 0)
    (hstuck : ∀ s' : Freeing,
      (∀ P, KPage P → (∀ j, j ≠ i → ¬ Radix.Node (rd m) (rd m a j) level P) →
        SamePage s.kern.mem s'.kern.mem P) →
      free_pagetable level s' (rd s.kern.mem a i) = none) :
    free_pagetable (level + 1) s a = none := by
  obtain ⟨l, r, hsplit⟩ := List.append_of_mem (List.mem_finRange i)
  have hnd := List.nodup_finRange PTENTRIES
  rw [hsplit] at hnd
  have hl : ∀ j ∈ l, j ≠ i := by
    intro j hj
    exact (List.nodup_append.mp hnd).2.2 j hj i List.mem_cons_self
  have hln : l.Nodup := (List.nodup_append.mp hnd).1
  have hread : ∀ j ∈ l, rd s.kern.mem a j = rd m a j := fun j hj => hentries j (hl j hj)
  obtain ⟨s₁, hs₁, hfrees⟩ := free_entries_spec
    (fun hsep hnode => free_pagetable_spec hsep hnode) hsep hln hpa hread
    fun j hj => hbelow j (hl j hj)
  -- what was freed by then lies below the entries in front
  have hframe : ∀ P, KPage P → (∀ j, j ≠ i → ¬ Radix.Node (rd m) (rd m a j) level P) →
      SamePage s.kern.mem s₁.kern.mem P := by
    intro P hP hnot
    refine hfrees.frame P hP fun hdrop => ?_
    rw [Radix.drops_flatMap, List.mem_flatMap] at hdrop
    obtain ⟨j, hj, hdrop⟩ := hdrop
    rw [Radix.drops_read] at hdrop
    split at hdrop
    · cases hdrop
    · next hne =>
      rw [Radix.drops_trace, Radix.mem_postorder List.mem_finRange hne] at hdrop
      exact hnot j (hl j hj) hdrop
  have hsame := hframe a hpa fun j _ => hsep.root_not_below
  rw [free_pagetable, hsplit, List.foldlM_append, hs₁, Option.bind_eq_bind, Option.bind_some,
    List.foldlM_cons, hsame.rd i, if_pos h0, hstuck (s₁.read a i) hframe]
  rfl

/-- The same one table further down: the entry is in the table `rd m a i₂`. -/
theorem free_below_stuck {m : Mem} {level a : ℕ} {i₂ i : Fin PTENTRIES} {s : Freeing}
    (hsep : Radix.Sep (rd m) a (level + 2)) (hmid : rd m a i₂ ≠ 0)
    (hpage : ∀ P, Radix.Node (rd m) a (level + 2) P → KPage P)
    (hsame : ∀ P, Radix.Node (rd m) a (level + 2) P → P ≠ rd m a i₂ → SamePage m s.kern.mem P)
    (hentries : ∀ j, j ≠ i → rd s.kern.mem (rd m a i₂) j = rd m (rd m a i₂) j)
    (h0 : rd s.kern.mem (rd m a i₂) i ≠ 0)
    (hstuck : ∀ s' : Freeing,
      free_pagetable level s' (rd s.kern.mem (rd m a i₂) i) = none) :
    free_pagetable (level + 2) s a = none := by
  have hself : ∀ d, Radix.Node (rd m) (rd m a i₂) d (rd m a i₂) :=
    fun d => ⟨hmid, [], Nat.zero_le d, rfl⟩
  have hnode : ∀ {j P}, Radix.Node (rd m) (rd m a j) (level + 1) P →
      Radix.Node (rd m) a (level + 2) P := fun hP => hP.above hsep.root
  have ha : Radix.Node (rd m) a (level + 2) a := ⟨hsep.root, [], Nat.zero_le _, rfl⟩
  have hamid : a ≠ rd m a i₂ := by
    intro he
    exact hsep.root_not_below (i := i₂) ⟨hsep.root, [], Nat.zero_le _, he.symm⟩
  have hard : ∀ j, rd s.kern.mem a j = rd m a j := (hsame a ha hamid).rd
  refine free_entries_stuck (i := i₂) hsep (hpage a ha) (fun j _ => hard j)
    (fun j hj P hP => ?_) (by rw [hard]; exact hmid) fun s' hs' => ?_
  · refine ⟨hpage P (hnode hP), hsame P (hnode hP) fun he => hj ?_⟩
    rw [he] at hP
    exact hsep.below_disjoint hP (hself _)
  · -- what was freed in front of the entry does not reach below it
    rw [hard]
    have hkeep : ∀ P, Radix.Node (rd m) (rd m a i₂) (level + 1) P →
        SamePage s.kern.mem s'.kern.mem P := fun P hP =>
      hs' P (hpage P (hnode hP)) fun j hj hPj => hj (hsep.below_disjoint hPj hP)
    have hmidrd : ∀ j, rd s'.kern.mem (rd m a i₂) j = rd s.kern.mem (rd m a i₂) j :=
      (hkeep _ (hself _)).rd
    refine free_entries_stuck (i := i) (hsep.below hmid) (hpage _ (hnode (hself _)))
      (fun j hj => (hmidrd j).trans (hentries j hj)) (fun j _ P hP => ?_)
      (by rw [hmidrd]; exact h0) fun s'' _ => by rw [hmidrd]; exact hstuck s''
    have hP' := hP.above hmid
    refine ⟨hpage P (hnode hP'), (hsame P (hnode hP') fun he => ?_).trans (hkeep P hP')⟩
    rw [he] at hP
    exact (hsep.below hmid).root_not_below hP

/-- **`free_pagetable` is stopped** by a spoiled entry. -/
theorem free_pagetable_spoiled {q : List (Fin PTENTRIES)} {i : Fin PTENTRIES}
    (h : PtOk k.mem root T) (hs : Spoils k k' root T q i) :
    free_pagetable 2 ⟨k', []⟩ root = none := by
  obtain ⟨hdepth, htable, hunaligned, hentries, hsame⟩ := hs
  have hpage : ∀ P, Radix.Node (rd k.mem) root 2 P → KPage P :=
    fun P hP => h.kpage P ((h.node P).mpr hP)
  have hnode : ∀ P, Radix.Node (rd k.mem) root 2 P → P ≠ Radix.walk (rd k.mem) root q →
      SamePage k.mem k'.mem P := fun P hP => hsame P ((h.node P).mpr hP)
  have hne : rd k'.mem (Radix.walk (rd k.mem) root q) i ≠ 0 := by
    intro hz
    rw [hz] at hunaligned
    cases hunaligned
  have hstuck : ∀ (level : ℕ) (s : Freeing),
      free_pagetable level s (rd k'.mem (Radix.walk (rd k.mem) root q) i) = none :=
    fun _ s => free_pagetable_unaligned s (by rw [hunaligned]; exact Nat.one_ne_zero)
  cases q with
  | nil =>
    refine free_entries_stuck (i := i) (s := ⟨k', []⟩) h.sep
      (hpage root ⟨h.sep.root, [], by simp, rfl⟩) hentries (fun j _ P hP => ?_) hne
      fun s' _ => hstuck 1 s'
    have hP' := hP.above h.sep.root
    refine ⟨hpage P hP', hnode P hP' fun he => ?_⟩
    rw [he] at hP
    exact h.sep.root_not_below hP
  | cons i₂ q =>
    obtain rfl : q = [] := List.eq_nil_of_length_eq_zero (by simpa using hdepth)
    rw [Radix.walk_cons h.sep.root, Radix.walk_nil] at hne hstuck hentries htable hnode
    exact free_below_stuck (s := ⟨k', []⟩) h.sep htable hpage hnode hentries hne (hstuck 0)

/-! ## The main result -/

/-- After a call of `va_to_pte_pointer` that creates a table, `free_pagetable` is stopped. -/
theorem Inv.stuck (hf : Fresh k₀ []) (h : Inv k₀ root k) (hva : va < MAXVA)
    (h0 : leafTable k.mem root va = 0) (hs : step root k (.walk va) = some k') :
    free_pagetable 2 ⟨k', []⟩ root = none := by
  obtain ⟨T, hpages, htable⟩ := h
  obtain ⟨⟨slot, k₁⟩, hwalk, rfl⟩ := Option.map_eq_some_iff.mp hs
  obtain ⟨q, i, hspoils⟩ := spoils_of_walk htable (hf.of_pages hpages) hva h0 hwalk
  exact free_pagetable_spoiled htable hspoils

/-- Such a call ends the agreement. -/
theorem Inv.tabled_of_agree (hf : Fresh k₀ []) (h : Inv k₀ root k) (hc : c.Admissible)
    (hs : step root k c = some k') (hagree : Agree k' root (taken k₀ k')) : Tabled root k c := by
  cases c with
  | map va pa perm => trivial
  | walk va =>
    intro h0
    obtain ⟨s, hfree, -⟩ := hagree.frees
    rw [h.stuck hf hc h0 hs] at hfree
    cases hfree

/-- **The walkers agree in every state of a run exactly when `va_to_pte_pointer` never had to
create a table in it**, whatever else the two did and in whatever order. -/
theorem walkers_agree_iff (hf : Fresh k₀ []) (hc : pgtbl_create k₀ = some (root, k))
    (hadm : ∀ c ∈ calls, c.Admissible) (hrun : run (step root) k calls = some k') :
    (∀ before after k₁, calls = before ++ after → run (step root) k before = some k₁ →
      Agree k₁ root (taken k₀ k₁)) ↔ Meets (step root) (Tabled root) k calls := by
  have hcreate := Inv.of_create hf hc
  clear hc
  constructor
  · intro hagree
    induction calls generalizing k with
    | nil => trivial
    | cons c calls ih =>
      obtain ⟨k₁, h₁, h₂⟩ := run_cons_eq_some.mp hrun
      have hadm₁ := hadm c List.mem_cons_self
      have htabled : Tabled root k c := by
        refine hcreate.tabled_of_agree hf hadm₁ h₁ (hagree [c] calls k₁ rfl ?_)
        rw [run_cons, h₁]
        rfl
      refine Meets.cons htabled h₁ (ih (fun e he => hadm e (List.mem_cons_of_mem c he)) h₂
        (hcreate.of_step hf hadm₁ htabled h₁) fun before after k₂ he hk₂ => ?_)
      exact hagree (c :: before) after k₂ (by rw [he, List.cons_append])
        (run_cons_eq_some.mpr ⟨k₁, h₁, hk₂⟩)
  · rintro hok before after k₁ rfl hk₁
    have hadm' : Meets (step root) (fun _ c => c.Admissible) k before :=
      .of_forall_mem fun c hc _ => hadm c (List.mem_append_left after hc)
    have hinv : Inv k₀ root k₁ := run_invariant (fun k c => c.Admissible ∧ Tabled root k c)
      (Inv k₀ root) (fun _ _ _ h hboth hs => h.of_step hf hboth.1 hboth.2 hs) hcreate
      (hadm'.and hok.of_append) hk₁
    exact hinv.agree hf

/-- Two mappings of one page, with a search in between that creates nothing. -/
theorem walkers_agree_remapped : ∃ root k k', pgtbl_create (Vm.spare 8) = some (root, k) ∧
    run (step root) k [.map 0x4000 0x80004000 1, .walk 0x8000, .map 0x4000 0x80008000 3] = some k' ∧
      Agree k' root (taken (Vm.spare 8) k') := by
  obtain ⟨⟨root, k⟩, hc⟩ : ∃ r, pgtbl_create (Vm.spare 8) = some r := ⟨_, rfl⟩
  have heval : ((pgtbl_create (Vm.spare 8)).bind fun r =>
      (run (step r.1) r.2 [.map 0x4000 0x80004000 1, .walk 0x8000, .map 0x4000 0x80008000 3]).map
        fun _ => decide (Meets (step r.1) (Tabled r.1) r.2
          [.map 0x4000 0x80004000 1, .walk 0x8000, .map 0x4000 0x80008000 3])) = some true := by
    decide +kernel
  rw [hc, Option.bind_some] at heval
  obtain ⟨k', hrun, hok⟩ := Option.map_eq_some_iff.mp heval
  have hadm : ∀ c ∈ [Call.map 0x4000 0x80004000 1, .walk 0x8000, .map 0x4000 0x80008000 3],
      c.Admissible := by
    intro c hcall
    simp only [List.mem_cons, List.not_mem_nil, or_false] at hcall
    rcases hcall with rfl | rfl | rfl
    · exact ⟨by norm_num, by norm_num⟩
    · exact (by norm_num : 0x8000 < MAXVA)
    · exact ⟨by norm_num, by norm_num⟩
  exact ⟨root, k, k', hc, hrun, (walkers_agree_iff (Vm.spare_fresh (by norm_num)) hc hadm hrun).mpr
    (of_decide_eq_true hok) _ [] k' (List.append_nil _).symm hrun⟩

/-- One call of `va_to_pte_pointer` on an empty table: `__map_single_page` would assign to a
slot of another table, and `free_pagetable` is stopped by an entry that is not aligned. -/
theorem walkers_disagree : Fresh (Vm.spare 8) [] ∧ ∃ root k k',
    pgtbl_create (Vm.spare 8) = some (root, k) ∧ run (step root) k [.walk 0] = some k' ∧
      (∃ k'', va_to_pte_pointer k' root 0 false = some (0x9000000080010000, k'')) ∧
      (∃ k'', map_single_page_slot k' root 0 = some (0x9000000080018000, k'')) ∧
      free_pagetable 2 ⟨k', []⟩ root = none ∧ ¬ Agree k' root (taken (Vm.spare 8) k') := by
  have hf : Fresh (Vm.spare 8) [] := Vm.spare_fresh (by norm_num)
  obtain ⟨⟨root, k⟩, hc⟩ : ∃ r, pgtbl_create (Vm.spare 8) = some r := ⟨_, rfl⟩
  have heval : ((pgtbl_create (Vm.spare 8)).bind fun r =>
      (run (step r.1) r.2 [.walk 0]).map fun k' => (decide (leafTable r.2.mem r.1 0 = 0),
        (va_to_pte_pointer k' r.1 0 false).map Prod.fst,
          (map_single_page_slot k' r.1 0).map Prod.fst))
      = some (true, some 0x9000000080010000, some 0x9000000080018000) := by decide +kernel
  rw [hc, Option.bind_some] at heval
  obtain ⟨k', hrun, hvals⟩ := Option.map_eq_some_iff.mp heval
  obtain ⟨hmissing, hrest⟩ := Prod.mk.inj hvals
  obtain ⟨hwalk, hmap⟩ := Prod.mk.inj hrest
  obtain ⟨⟨slot, k₁⟩, hwalk, rfl⟩ := Option.map_eq_some_iff.mp hwalk
  obtain ⟨⟨slot', k₂⟩, hmap, rfl⟩ := Option.map_eq_some_iff.mp hmap
  have hstep : step root k (.walk 0) = some k' := by
    obtain ⟨k₃, hstep, hend⟩ := run_cons_eq_some.mp hrun
    rw [hstep, ← hend]
    rfl
  have hfree := (Inv.of_create hf hc).stuck hf (by norm_num) (of_decide_eq_true hmissing) hstep
  refine ⟨hf, root, k, k', hc, hrun, ⟨k₁, hwalk⟩, ⟨k₂, hmap⟩, hfree, fun hagree => ?_⟩
  obtain ⟨s, hs, -⟩ := hagree.frees
  rw [hfree] at hs
  cases hs

end Loos.Walkers
