/-
`copy_pagetable`: the address space of a new process.

The parent's list is drained record by record while both lists are rebuilt, and
every copy goes through the parent's page table. One turn is
[`copy_mapping_spec`]: a fresh page with the content behind the record's
virtual page joins the child, and nothing of the parent changes. The loop
invariant [`Copied`] says the same of all records popped so far, so duplicate
records for one page need no case of their own: whichever of their copies the
child's entry points to, its content is the parent's current one.
-/
import Loos.AddrSpace

set_option autoImplicit false

namespace Loos.AddrSpace

open SysLib Kern PageTable

variable {k k' : Kern} {p np : Space} {T T' N Tp Tn : List ℕ} {m m' : Mem}

/-- The page at `P` in `m'` holds what the page at `Q` holds in `m`. -/
def SameBytes (m m' : Mem) (Q P : ℕ) : Prop := ∀ i < PGSIZE, m' (P + i) = m (Q + i)

theorem SameBytes.of_samePage {P : ℕ} (h : SamePage m m' P) : SameBytes m m' P P :=
  fun i hi => h (P + i) (Nat.le_add_right P i) (Nat.add_lt_add_left hi P)

theorem SameBytes.trans {m₁ m₂ m₃ : Mem} {P Q R : ℕ} (h : SameBytes m₁ m₂ P Q)
    (h' : SameBytes m₂ m₃ Q R) : SameBytes m₁ m₃ P R :=
  fun i hi => (h' i hi).trans (h i hi)

/-- Every page of the parent and of the child is its own, and not free. -/
def Apart (k : Kern) (p np : Space) (Tp Tn : List ℕ) : Prop :=
  Fresh k (p.owned Tp ++ np.owned Tn)

theorem Apart.child (h : Apart k p np Tp Tn) : Fresh k (np.owned Tn) := by
  refine ⟨?_, h.kpage⟩
  have := h.nodup
  rw [List.append_assoc] at this
  exact (List.nodup_append.mp this).2.1

theorem Apart.parent (h : Apart k p np Tp Tn) : Fresh k (p.owned Tp) := by
  refine ⟨?_, h.kpage⟩
  have := h.nodup
  rw [List.append_assoc] at this
  exact this.sublist ((List.sublist_append_right _ _).append_left _)

theorem Apart.parent_ne (h : Apart k p np Tp Tn) {P : ℕ} (hP : P ∈ p.owned Tp) :
    P ∉ np.owned Tn ∧ P ∉ k.pages := by
  have := h.nodup
  rw [List.append_assoc, List.nodup_append] at this
  exact ⟨fun hx => this.2.2 P hP P (List.mem_append_left _ hx) rfl,
    fun hx => this.2.2 P hP P (List.mem_append_right _ hx) rfl⟩

/-- The separation after the child has grown. -/
theorem Apart.of_evolves {np' : Space} (h : Apart k p np Tp Tn)
    (hev : Evolves k k' np np' Tn T' N) : Apart k' p np' Tp T' := by
  obtain ⟨hnd, hk⟩ := h
  rw [hev.pages] at hnd hk
  refine ⟨?_, fun x hx => hk x (List.mem_append_right N hx)⟩
  refine (List.Perm.nodup_iff ?_).mpr hnd
  rw [List.append_assoc, List.append_assoc, ← List.append_assoc (np.owned Tn)]
  exact (hev.owned.append_right k'.pages).append_left (p.owned Tp)

/-- What changes while the child grows is nothing of the parent's. -/
theorem Evolves.parent_same {np' : Space} (hev : Evolves k k' np np' Tn T' N)
    (hap : Apart k p np Tp Tn) (hp : SpaceOk k.mem p Tp) {P : ℕ} (hP : P ∈ p.owned Tp) :
    SamePage k.mem k'.mem P := by
  obtain ⟨hn, hfree⟩ := hap.parent_ne hP
  refine hev.frame P (hp.kpage hP) (fun hT => hn (List.mem_append_left _ hT)) fun hN => hfree ?_
  rw [hev.pages]
  exact List.mem_append_left _ hN

/-- A record finds its own page among the records. -/
theorem recordsAt_ne_nil {l : List Mapping} {info : Mapping} (h : info ∈ l) :
    recordsAt l info.va ≠ [] :=
  List.ne_nil_of_mem (mem_recordsAt.mpr ⟨h, rfl⟩)

/-! ## One turn -/

/-- A page off the free list with the content behind `va` in the space `p`:
`kmalloc`, `memset` and `copy_from_va` of `copy_pagetable`. -/
theorem copy_page_spec {k₁ : Kern} {pa : ℕ} {info : Mapping} (hp : SpaceOk k.mem p Tp)
    (hf : Fresh k (p.owned Tp)) (hinfo : info ∈ p.mapping_list)
    (hk : kmalloc k PGSIZE = some (pa, k₁)) :
    ∃ k₂ : Kern, copy_from_va (k₁.memset pa 0 PGSIZE) p.pgtbl pa info.va PGSIZE = some (0, k₂) ∧
      k₂.pages = k₁.pages ∧ (∀ P, KPage P → P ≠ pa → SamePage k.mem k₂.mem P) ∧
      SameBytes k.mem k₂.mem (backing k.mem p.pgtbl info.va) pa := by
  obtain ⟨hpages, -⟩ := kmalloc_eq_some hk
  have hpafree : pa ∈ k.pages := by
    rw [hpages]
    exact List.mem_cons_self
  have hpa : KPage pa := hf.kpage pa hpafree
  have hpap : ∀ P ∈ p.owned Tp, P ≠ pa := fun P hP =>
    (List.nodup_append.mp hf.nodup).2.2 P hP pa hpafree
  have hzero := fun P hP hne => zeroed_other (P := P) hf hk hP hne
  -- the copy goes through the parent's table, which the fresh page is no part of
  have htables : ∀ P ∈ Tp, SamePage k.mem (k₁.memset pa 0 PGSIZE).mem P := fun P hP =>
    hzero P (hp.table.kpage P hP) (hpap P (List.mem_append_left _ hP))
  have hp₁ := hp.congr htables
  have hback₁ : backing (k₁.memset pa 0 PGSIZE).mem p.pgtbl info.va
      = backing k.mem p.pgtbl info.va := by
    rw [backing, backing, leaf, hp.table.walk_congr htables (by simp), leaf]
  obtain ⟨-, hlow, hal, -, -⟩ := hp.recs info hinfo
  obtain ⟨hvalid, hne0, r, hr, hback⟩ := hp₁.backing_mem hlow (recordsAt_ne_nil hinfo)
  have hrmem : r.pa ∈ p.owned Tp :=
    List.mem_append_right _ (List.mem_map_of_mem (mem_recordsAt.mp hr).1)
  refine ⟨_, copy_from_va_page hp₁.table hlow hal hvalid hne0, rfl, fun P hP hne => ?_, ?_⟩
  · refine (hzero P hP hne).trans fun x h1 h2 => ?_
    have hd := Memblock.aligned_disjoint hP.aligned hpa.aligned hne
    exact Mem.copy_apply_of_disjoint (by omega)
  · rw [hback, ← hback₁, hback]
    exact (SameBytes.of_samePage (hzero r.pa (hp.kpage hrmem) (hpap _ hrmem))).trans
      fun i hi => Mem.copy_apply_of_mem hi

/-- `__map_pages` of one page. -/
theorem map_page_spec {root va pa perm : ℕ} (h : PtOk k.mem root T) (hf : Fresh k T)
    (hva : va < MAXVA) (hal : va % PGSIZE = 0) (hpa : KPage pa) (hperm : PermOk perm)
    (hk : map_pages k root va PGSIZE pa perm = some k') :
    ∃ N, N.length ≤ 2 ∧ Grows k k' root T N ∧
      (∀ y < MAXVA, leaf k'.mem root y =
        if y / PGSIZE = va / PGSIZE then newEntry (leaf k.mem root y) pa perm
        else leaf k.mem root y) ∧
      va_to_pa k' root va = some (PA2PTE pa) := by
  obtain ⟨hrange, hlast⟩ := userRange_page hva hal
  obtain ⟨N, hN, hg, hl⟩ := map_pages_spec h hf hperm.lt hrange hk
  have hpadown : PGROUNDDOWN pa = pa := PGROUNDDOWN_of_aligned (by
    have := hpa.bounds
    unfold MAIN_KERNEL_DMW PGSIZE at this
    omega) hpa.aligned
  have hleaf : ∀ y < MAXVA, leaf k'.mem root y =
      if y / PGSIZE = va / PGSIZE then newEntry (leaf k.mem root y) pa perm
      else leaf k.mem root y := by
    intro y hy
    rw [hl y hy, hlast, hpadown]
    by_cases hpage : y / PGSIZE = va / PGSIZE
    · rw [if_pos (by omega), if_pos hpage, hpage, Nat.sub_self, Nat.zero_mul, Nat.add_zero]
    · rw [if_neg (by omega), if_neg hpage]
  refine ⟨N, by omega, hg, hleaf, ?_⟩
  rw [va_to_pa_spec hg.ok hva, hleaf va hva, if_pos rfl, translate_newEntry hperm, hal,
    Nat.add_zero]

/-- **One turn of `copy_pagetable`.** A fresh page with the content behind the
record's page joins the child; the parent gets its record back. -/
theorem copy_mapping_spec {s s' : CopyState} {info : Mapping} (hp : SpaceOk s.kern.mem p Tp)
    (hn : SpaceOk s.kern.mem s.np Tn) (hap : Apart s.kern p s.np Tp Tn)
    (hroot : s.p.pgtbl = p.pgtbl) (hinfo : info ∈ p.mapping_list)
    (hs : copy_mapping s info = some s') :
    ∃ pa T' N, N.length ≤ 3 ∧ Evolves s.kern s'.kern s.np s'.np Tn T' N ∧
      s'.p = s.p.proc_add_mapping info.pa info.va PGSIZE info.perm ∧
      s'.np = s.np.proc_add_mapping pa info.va PGSIZE info.perm ∧
      SameBytes s.kern.mem s'.kern.mem (backing s.kern.mem p.pgtbl info.va) pa := by
  obtain ⟨⟨pa, k₁⟩, hk, hs⟩ := Option.bind_eq_some_iff.mp hs
  obtain ⟨⟨ret, k₂'⟩, hcopy, hs⟩ := Option.bind_eq_some_iff.mp hs
  obtain ⟨k₃, hmap, hs⟩ := Option.bind_eq_some_iff.mp hs
  obtain ⟨pa', hto, rfl⟩ := Option.map_eq_some_iff.mp hs
  dsimp only at hcopy hmap hto
  obtain ⟨-, hlow, hal, hsize, hperm⟩ := hp.recs info hinfo
  obtain ⟨k₂, hcopy', hpages₂, hother, hbytes⟩ := copy_page_spec hp hap.parent hinfo hk
  rw [hroot, hcopy'] at hcopy
  obtain ⟨-, rfl⟩ := Prod.mk.inj (Option.some.inj hcopy)
  have hpages : s.kern.pages = pa :: k₂.pages := by
    rw [hpages₂]
    exact (kmalloc_eq_some hk).1
  have hfn := hap.child
  obtain ⟨hn₂, hf₂⟩ := hn.after_kmalloc hfn hpages hother
  rw [hsize] at hmap
  have hpa : KPage pa := hfn.kpage pa (by rw [hpages]; exact List.mem_cons_self)
  obtain ⟨N, hN, hg, hleaf, hto'⟩ := map_page_spec hn₂.table hf₂ hlow hal hpa hperm hmap
  -- the record of the child holds the page just mapped
  have hpa' : PA2VA pa' = pa := by
    rw [hto] at hto'
    rw [Option.some.inj hto']
    exact hpa.PA2VA_PTE2PA
  have hev := Evolves.map_fresh hn hfn hpages hother hlow hal hperm hg hleaf
  refine ⟨pa, Tn ++ N, pa :: N, by simp only [List.length_cons]; omega, hpa' ▸ hev, rfl,
    by rw [hpa'], hbytes.trans (.of_samePage (hg.frame pa hpa (fun hT => ?_) fun hN => ?_))⟩
  · exact (List.nodup_append.mp hfn.nodup).2.2 pa (List.mem_append_left _ hT) pa
      (by rw [hpages]; exact List.mem_cons_self) rfl
  · have hnd := (List.nodup_append.mp hfn.nodup).2.1
    rw [hpages, hg.pages] at hnd
    exact (List.nodup_cons.mp hnd).1 (List.mem_append_left _ hN)

theorem copy_mapping_isSome {s : CopyState} {info : Mapping} (hp : SpaceOk s.kern.mem p Tp)
    (hn : SpaceOk s.kern.mem s.np Tn) (hap : Apart s.kern p s.np Tp Tn)
    (hroot : s.p.pgtbl = p.pgtbl) (hinfo : info ∈ p.mapping_list)
    (hlen : 3 ≤ s.kern.pages.length) : ∃ s', copy_mapping s info = some s' := by
  obtain ⟨pa, rest, hcons⟩ := List.exists_cons_of_length_pos (show 0 < s.kern.pages.length by omega)
  have hk := kmalloc_of_cons (le_refl (PGSIZE : ℤ)) hcons
  obtain ⟨-, hlow, hal, hsize, hperm⟩ := hp.recs info hinfo
  obtain ⟨k₂, hcopy, hpages₂, hother, -⟩ := copy_page_spec hp hap.parent hinfo hk
  have hpages : s.kern.pages = pa :: k₂.pages := by
    rw [hpages₂]
    exact hcons
  obtain ⟨hn₂, hf₂⟩ := hn.after_kmalloc hap.child hpages hother
  obtain ⟨hrange, hlast⟩ := userRange_page hlow hal
  obtain ⟨k₃, hmap⟩ := map_pages_isSome pa hn₂.table hf₂ hperm.lt hrange (by
    rw [hpages, List.length_cons] at hlen
    omega)
  have hpa : KPage pa := hap.child.kpage pa (by rw [hpages]; exact List.mem_cons_self)
  obtain ⟨N, -, -, -, hto⟩ := map_page_spec hn₂.table hf₂ hlow hal hpa hperm hmap
  rw [copy_mapping, hk, Option.bind_some, hroot, hcopy, Option.bind_some, hsize, hmap,
    Option.bind_some, hto]
  exact ⟨_, rfl⟩

/-! ## The loop -/

/-- The loop of `copy_pagetable` after the records `done` were popped. -/
structure Copied (k : Kern) (p np : Space) (Tn : List ℕ) (done : List Mapping) (s : CopyState) :
    Prop where
  parent : s.p = { p with mapping_list := done.reverse }
  child : ∃ T' N, N.length ≤ 3 * done.length ∧ Evolves k s.kern np s.np Tn T' N
  keys : s.np.mapping_list.map (fun r => (r.va, r.perm))
    = done.reverse.map (fun r => (r.va, r.perm))
  bytes : ∀ r ∈ s.np.mapping_list,
    SameBytes k.mem s.kern.mem (backing k.mem p.pgtbl r.va) r.pa

variable {L done : List Mapping} {s s' : CopyState}

theorem Copied.step {info : Mapping} (hp : SpaceOk k.mem p Tp)
    (hap : Apart k p np Tp Tn) (h : Copied k p np Tn done s) (hinfo : info ∈ p.mapping_list)
    (hs : copy_mapping s info = some s') : Copied k p np Tn (done ++ [info]) s' := by
  obtain ⟨hpar, ⟨T', N, hN, hev⟩, hkeys, hbytes⟩ := h
  have hsame := fun P hP => hev.parent_same (P := P) hap hp hP
  have hp' : SpaceOk s.kern.mem p Tp := hp.congr fun P hP => hsame P (List.mem_append_left _ hP)
  have hap' := hap.of_evolves hev
  have hroot : s.p.pgtbl = p.pgtbl := by rw [hpar]
  obtain ⟨pa, T₁, N₁, hN₁, hev₁, hpar₁, hnp₁, hcopy⟩ :=
    copy_mapping_spec hp' hev.ok hap' hroot hinfo hs
  refine ⟨?_, ⟨T₁, N ++ N₁, ?_, hev.trans hev₁⟩, ?_, ?_⟩
  · rw [hpar₁, hpar]
    simp only [Space.proc_add_mapping, List.reverse_append, List.reverse_cons, List.reverse_nil,
      List.nil_append, List.cons_append, ← (hp.recs info hinfo).size]
  · simp only [List.length_append, List.length_cons, List.length_nil]
    omega
  · rw [hnp₁]
    simp only [Space.proc_add_mapping, List.map_cons, hkeys, List.reverse_append,
      List.reverse_cons, List.reverse_nil, List.nil_append, List.cons_append]
  · intro r hr
    rw [hnp₁] at hr
    rcases List.mem_cons.mp hr with rfl | hr
    · -- the page just copied: nothing of the parent had changed before the copy
      have hback : backing s.kern.mem p.pgtbl info.va = backing k.mem p.pgtbl info.va := by
        rw [backing, backing, leaf, hp.table.walk_congr
          (fun P hP => hsame P (List.mem_append_left _ hP)) (by simp), leaf]
      rw [hback] at hcopy
      obtain ⟨-, -, r, hr, he⟩ :=
        hp.backing_mem (hp.recs info hinfo).low (recordsAt_ne_nil hinfo)
      dsimp only
      rw [he] at hcopy ⊢
      exact (SameBytes.of_samePage (hsame r.pa (List.mem_append_right _
        (List.mem_map_of_mem (mem_recordsAt.mp hr).1)))).trans hcopy
    · -- an earlier copy is a data page of the child, and stays as it was
      have hkp := hev.ok.kpage (List.mem_append_right _ (List.mem_map_of_mem hr))
      have hfr := hap'.child
      refine (hbytes r hr).trans (.of_samePage (hev₁.frame r.pa hkp (fun hT => ?_) fun hN => ?_))
      · exact (List.nodup_append.mp hev.ok.nodup).2.2 r.pa hT r.pa (List.mem_map_of_mem hr) rfl
      · refine (List.nodup_append.mp hfr.nodup).2.2 r.pa
          (List.mem_append_right _ (List.mem_map_of_mem hr)) r.pa ?_ rfl
        rw [hev₁.pages]
        exact List.mem_append_left _ hN

/-- The loop over the records still in the old list. -/
theorem Copied.loop (hp : SpaceOk k.mem p Tp) (hap : Apart k p np Tp Tn)
    (h : Copied k p np Tn done s) (hL : ∀ info ∈ L, info ∈ p.mapping_list)
    (hs : L.foldlM copy_mapping s = some s') : Copied k p np Tn (done ++ L) s' := by
  induction L generalizing done s with
  | nil =>
    obtain rfl : s = s' := by simpa using hs
    rwa [List.append_nil]
  | cons info L ih =>
    rw [List.foldlM_cons, Option.bind_eq_bind, Option.bind_eq_some_iff] at hs
    obtain ⟨s₁, h₁, h₂⟩ := hs
    have := ih (h.step hp hap (hL info List.mem_cons_self) h₁)
      (fun r hr => hL r (List.mem_cons_of_mem info hr)) h₂
    rwa [List.append_assoc] at this

theorem Copied.init (hn : SpaceOk k.mem np Tn) (hempty : np.mapping_list = []) :
    Copied k p np Tn [] ⟨k, { p with mapping_list := [] }, np⟩ := by
  refine ⟨rfl, ⟨Tn, [], Nat.zero_le _, Evolves.refl hn⟩, ?_, fun r hr => ?_⟩
  · simp only [hempty, List.map_nil, List.reverse_nil]
  · simp only [hempty, List.not_mem_nil] at hr

/-- **`copy_pagetable`** into a process without mappings. -/
theorem copy_pagetable_spec (hp : SpaceOk k.mem p Tp) (hn : SpaceOk k.mem np Tn)
    (hap : Apart k p np Tp Tn) (hempty : np.mapping_list = [])
    (hs : copy_pagetable k p np = some s) : Copied k p np Tn p.mapping_list s := by
  have := (Copied.init (p := p) hn hempty).loop hp hap (fun _ h => h) hs
  rwa [List.nil_append] at this

/-- With three free pages for every record, `copy_pagetable` returns. -/
theorem copy_pagetable_isSome (hp : SpaceOk k.mem p Tp) (hn : SpaceOk k.mem np Tn)
    (hap : Apart k p np Tp Tn) (hempty : np.mapping_list = [])
    (hlen : 3 * p.mapping_list.length ≤ k.pages.length) :
    ∃ s, copy_pagetable k p np = some s := by
  suffices h : ∀ (L done : List Mapping) (s : CopyState), Copied k p np Tn done s →
      (∀ info ∈ L, info ∈ p.mapping_list) → 3 * (done.length + L.length) ≤ k.pages.length →
      ∃ s', L.foldlM copy_mapping s = some s' by
    exact h _ _ _ (Copied.init hn hempty) (fun _ h => h) (by simpa using hlen)
  intro L
  induction L with
  | nil => exact fun done s _ _ _ => ⟨s, rfl⟩
  | cons info L ih =>
    intro done s h hL hlen
    obtain ⟨T', N, hN, hev⟩ := h.child
    have hpages := congrArg List.length hev.pages
    rw [List.length_append] at hpages
    rw [List.length_cons] at hlen
    obtain ⟨s₁, h₁⟩ := copy_mapping_isSome
      (hp.congr fun P hP => hev.parent_same hap hp (List.mem_append_left _ hP)) hev.ok
      (hap.of_evolves hev) (by rw [h.parent]) (hL info List.mem_cons_self) (by omega)
    obtain ⟨s₂, h₂⟩ := ih (done ++ [info]) s₁ (h.step hp hap (hL info List.mem_cons_self) h₁)
      (fun r hr => hL r (List.mem_cons_of_mem info hr)) (by
        rw [List.length_append, List.length_singleton]
        omega)
    exact ⟨s₂, by rw [List.foldlM_cons, Option.bind_eq_bind, h₁, Option.bind_some, h₂]⟩

end Loos.AddrSpace
