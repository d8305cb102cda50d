/-
What a fork copies.

`copy_pagetable` rebuilds the parent's list and fills the child's from it, and
the child's pages are found through both page tables. The result is stated with
the functions the kernel itself uses to look at an address space: `va_to_pa`,
the page table entry, and the bytes at the kernel address of a physical one.
-/
import Loos.Vm

set_option autoImplicit false

namespace Loos.ForkCopy

open SysLib Kern PageTable AddrSpace

/-- The entry that `va_to_pte_pointer` finds for `va`, zero if there is none. -/
def pte (k : Kern) (pgtbl va : ℕ) : Option ℕ :=
  (va_to_pte_pointer k pgtbl va false).map fun r => if r.1 = 0 then 0 else k.mem.load64 r.1

/-- **A faithful copy.** The space `np` in the machine `k'` is a copy of the
space `p` in the machine `k`, and `p'` is `p` still. -/
structure IsCopy (k k' : Kern) (p p' np : Space) : Prop where
  mapped : ∀ y < MAXVA, va_to_pa k' np.pgtbl y = some 0 ↔ va_to_pa k p.pgtbl y = some 0
  unshared : ∀ y < MAXVA, ∀ x' ≠ 0, va_to_pa k' np.pgtbl y = some x' →
    (∀ r ∈ p.mapping_list, ¬ Vm.InPage r.pa (PA2VA x')) ∧
      ∀ z < MAXVA, ∀ x ≠ 0, va_to_pa k p.pgtbl z = some x → x / PGSIZE ≠ x' / PGSIZE
  content : ∀ y < MAXVA, ∀ x ≠ 0, va_to_pa k p.pgtbl y = some x →
    ∃ x', va_to_pa k' np.pgtbl y = some x' ∧ k'.mem (PA2VA x') = k.mem (PA2VA x)
  flags : ∀ y < MAXVA, ∃ e e', pte k p.pgtbl y = some e ∧ pte k' np.pgtbl y = some e' ∧
    PTE_FLAGS e' = PTE_FLAGS e
  translations : ∀ y < MAXVA, va_to_pa k' p'.pgtbl y = va_to_pa k p.pgtbl y
  contents : ∀ y < MAXVA, ∀ x ≠ 0, va_to_pa k p.pgtbl y = some x →
    k'.mem (PA2VA x) = k.mem (PA2VA x)
  records : p'.mapping_list.Perm p.mapping_list

variable {k k' k₁ : Kern} {p np : Space} {T Tp Tn : List ℕ} {m : Mem} {y : ℕ}

theorem pte_spec {root : ℕ} (h : PtOk k.mem root T) (hy : y < MAXVA) :
    pte k root y = some (leaf k.mem root y) := by
  rw [pte, va_to_pte_pointer_spec h hy, Option.map_some, leaf, path,
    show [idx 2 y, idx 1 y, idx 0 y] = [idx 2 y, idx 1 y] ++ [idx 0 y] from rfl, Radix.walk_snoc]
  by_cases hz : Radix.walk (rd k.mem) root [idx 2 y, idx 1 y] = 0
  · simp only [hz, if_true]
  · simp only [hz, if_false]
    rw [if_neg (by omega)]
    rfl

/-! ## One well-formed space -/

/-- In a well-formed space, either nothing is recorded for a page and nothing is
mapped, or the page of one of its records is behind it. -/
theorem translate_cases (h : SpaceOk k.mem p T) (hy : y < MAXVA) :
    (recordsAt p.mapping_list y = [] ∧ va_to_pa k p.pgtbl y = some 0) ∨
    ∃ r ∈ recordsAt p.mapping_list y, KPage r.pa ∧ backing k.mem p.pgtbl y = r.pa ∧
      va_to_pa k p.pgtbl y = some (PTE2PA r.pa + y % PGSIZE) ∧ PTE2PA r.pa ≠ 0 := by
  rw [va_to_pa_spec h.table hy]
  by_cases hrec : recordsAt p.mapping_list y = []
  · refine .inl ⟨hrec, ?_⟩
    rw [(h.leaves y hy).unmapped hrec, PageTable.translate, if_pos (Nat.zero_and _)]
  · obtain ⟨hvalid, r, hr, hpa⟩ := (h.leaves y hy).mapped hrec
    have hkp := (h.recs r (mem_recordsAt.mp hr).1).page
    refine .inr ⟨r, hr, hkp, ?_, ?_, hkp.PTE2PA_ne_zero⟩
    · rw [backing, hpa, hkp.PA2VA_PTE2PA]
    · rw [PageTable.translate, if_neg hvalid, hpa]

/-! ## Parent and child -/

/-- The records for a page depend on the keys of the list only. -/
theorem recordsAt_keys {l l' : List Mapping}
    (h : (l.map fun r => (r.va, r.perm)).Perm (l'.map fun r => (r.va, r.perm))) (y : ℕ) :
    ((recordsAt l y).map fun r => (r.va, r.perm)).Perm
      ((recordsAt l' y).map fun r => (r.va, r.perm)) := by
  have hfilter : ∀ l : List Mapping, (recordsAt l y).map (fun r => (r.va, r.perm)) =
      (l.map fun r => (r.va, r.perm)).filter fun v => decide (y / PGSIZE = v.1 / PGSIZE) := by
    intro l
    rw [recordsAt, List.filter_map]
    rfl
  rw [hfilter, hfilter]
  exact h.filter _

theorem offset_lt (y : ℕ) : y % PGSIZE < PGSIZE := Nat.mod_lt y (by norm_num)

section Copied

variable {s : CopyState} (hp : SpaceOk k.mem p Tp) (hap : Apart k p np Tp Tn)
  (h : Copied k p np Tn p.mapping_list s)
include h

/-- The child's records for a page and the parent's have the same keys. -/
theorem records_keys (y : ℕ) :
    ((recordsAt s.np.mapping_list y).map fun r => (r.va, r.perm)).Perm
      ((recordsAt p.mapping_list y).map fun r => (r.va, r.perm)) := by
  refine recordsAt_keys ?_ y
  rw [h.keys]
  exact (List.reverse_perm _).map _

/-- The child has a record for a page if and only if the parent has. -/
theorem records_nil (y : ℕ) :
    recordsAt s.np.mapping_list y = [] ↔ recordsAt p.mapping_list y = [] := by
  have := (records_keys h y).length_eq
  rw [List.length_map, List.length_map] at this
  rw [← List.length_eq_zero_iff, ← List.length_eq_zero_iff, this]

/-- What is mapped in the child is mapped in the parent, and back. -/
theorem copied_mapped (hp : SpaceOk k.mem p Tp) (hy : y < MAXVA) :
    va_to_pa s.kern s.np.pgtbl y = some 0 ↔ va_to_pa k p.pgtbl y = some 0 := by
  obtain ⟨T', N, -, hev⟩ := h.child
  rcases translate_cases hev.ok hy with ⟨hr', hto'⟩ | ⟨r', hr', -, -, hto', h0'⟩ <;>
    rcases translate_cases hp hy with ⟨hr, hto⟩ | ⟨r, hr, -, -, hto, h0⟩
  · rw [hto, hto']
  · rw [(records_nil h y).mp hr'] at hr
    cases hr
  · rw [(records_nil h y).mpr hr] at hr'
    cases hr'
  · rw [hto, hto', Option.some.injEq, Option.some.injEq]
    omega

/-- The rights of a page are those of its records. -/
theorem copied_flags (hp : SpaceOk k.mem p Tp) (hy : y < MAXVA) :
    ∃ e e', pte k p.pgtbl y = some e ∧ pte s.kern s.np.pgtbl y = some e' ∧
      PTE_FLAGS e' = PTE_FLAGS e := by
  obtain ⟨T', N, -, hev⟩ := h.child
  refine ⟨_, _, pte_spec hp.table hy, pte_spec hev.ok.table hy, ?_⟩
  rw [(hev.ok.leaves y hy).flags, (hp.leaves y hy).flags]
  refine rights_perm ?_
  have := (records_keys h y).map Prod.snd
  rwa [List.map_map, List.map_map] at this

/-- The page behind `y` in the child holds what the parent's page held. -/
theorem copied_content (hp : SpaceOk k.mem p Tp) (hy : y < MAXVA) {x : ℕ} (hx : x ≠ 0)
    (hto : va_to_pa k p.pgtbl y = some x) :
    ∃ x', va_to_pa s.kern s.np.pgtbl y = some x' ∧ s.kern.mem (PA2VA x') = k.mem (PA2VA x) := by
  obtain ⟨T', N, -, hev⟩ := h.child
  rcases translate_cases hp hy with ⟨-, hto₁⟩ | ⟨r, hr, hkp, hback, hto₁, -⟩
  · rw [hto] at hto₁
    exact absurd (Option.some.inj hto₁) hx
  · rw [hto] at hto₁
    obtain rfl := Option.some.inj hto₁
    rcases translate_cases hev.ok hy with ⟨hr', -⟩ | ⟨r', hr', hkp', -, hto', -⟩
    · rw [(records_nil h y).mp hr'] at hr
      cases hr
    · refine ⟨_, hto', ?_⟩
      obtain ⟨hmem', hpage⟩ := mem_recordsAt.mp hr'
      have hb : backing k.mem p.pgtbl r'.va = r.pa := by
        rw [← hback, backing, backing, leaf_page hpage]
      rw [PA2VA_add hkp' (offset_lt y), PA2VA_add hkp (offset_lt y),
        h.bytes r' hmem' _ (offset_lt y), hb]

include hp hap

/-- The parent's pages are as they were. -/
theorem copied_same {P : ℕ} (hP : P ∈ p.owned Tp) : SamePage k.mem s.kern.mem P := by
  obtain ⟨T', N, -, hev⟩ := h.child
  exact hev.parent_same hap hp hP

omit hp in
/-- No data page belongs to both. -/
theorem copied_ne {r r' : Mapping} (hr : r ∈ p.mapping_list) (hr' : r' ∈ s.np.mapping_list) :
    r.pa ≠ r'.pa := by
  obtain ⟨T', N, -, hev⟩ := h.child
  intro e
  refine ((hap.of_evolves hev).parent_ne (P := r.pa) ?_).1 ?_
  · exact List.mem_append_right _ (List.mem_map_of_mem hr)
  · rw [e]
    exact List.mem_append_right _ (List.mem_map_of_mem hr')

/-- What is behind a page of the child is behind no page of the parent, and is
the page of no record of the parent. -/
theorem copied_unshared (hy : y < MAXVA) {x' : ℕ} (hx' : x' ≠ 0)
    (hto : va_to_pa s.kern s.np.pgtbl y = some x') :
    (∀ r ∈ p.mapping_list, ¬ Vm.InPage r.pa (PA2VA x')) ∧
      ∀ z < MAXVA, ∀ x ≠ 0, va_to_pa k p.pgtbl z = some x → x / PGSIZE ≠ x' / PGSIZE := by
  obtain ⟨T', N, -, hev⟩ := h.child
  rcases translate_cases hev.ok hy with ⟨-, hto'⟩ | ⟨r', hr', hkp', -, hto', -⟩
  · rw [hto] at hto'
    exact absurd (Option.some.inj hto') hx'
  · rw [hto] at hto'
    obtain rfl := Option.some.inj hto'
    have hr' := (mem_recordsAt.mp hr').1
    have hy' := offset_lt y
    refine ⟨fun r hr hin => ?_, fun z hz x hx htoz hpage => ?_⟩
    · rw [PA2VA_add hkp' hy'] at hin
      have hd := Memblock.aligned_disjoint (hp.recs r hr).page.aligned hkp'.aligned
        (copied_ne hap h hr hr')
      unfold Vm.InPage at hin
      omega
    · rcases translate_cases hp hz with ⟨-, hto⟩ | ⟨r, hr, hkp, -, hto, -⟩
      · rw [htoz] at hto
        exact hx (Option.some.inj hto)
      · rw [htoz] at hto
        obtain rfl := Option.some.inj hto
        -- equal physical pages would be equal kernel pages
        refine copied_ne hap h (mem_recordsAt.mp hr).1 hr' ?_
        rw [← hkp.PA2VA_PTE2PA, ← hkp'.PA2VA_PTE2PA]
        refine congrArg PA2VA ?_
        rw [PTE2PA_eq, PTE2PA_eq] at hpage ⊢
        unfold PGSIZE at *
        omega

/-- The copy is faithful, and the parent is what it was. -/
theorem isCopy_of_copied : IsCopy k s.kern p s.p s.np := by
  have htables : ∀ P ∈ Tp, SamePage k.mem s.kern.mem P := fun P hP =>
    copied_same hp hap h (List.mem_append_left _ hP)
  refine ⟨fun y hy => copied_mapped h hp hy, fun y hy x' => copied_unshared hp hap h hy,
    fun y hy x => copied_content h hp hy, fun y hy => copied_flags h hp hy, fun y hy => ?_,
    fun y hy x hx hto => ?_, ?_⟩
  · rw [show s.p.pgtbl = p.pgtbl by rw [h.parent], va_to_pa_spec (hp.congr htables).table hy,
      va_to_pa_spec hp.table hy, leaf, hp.table.walk_congr htables (by simp), leaf]
  · rcases translate_cases hp hy with ⟨-, hto₁⟩ | ⟨r, hr, hkp, -, hto₁, -⟩
    · rw [hto] at hto₁
      exact absurd (Option.some.inj hto₁) hx
    · rw [hto] at hto₁
      obtain rfl := Option.some.inj hto₁
      rw [PA2VA_add hkp (offset_lt y)]
      exact copied_same hp hap h
        (List.mem_append_right _ (List.mem_map_of_mem (mem_recordsAt.mp hr).1)) _
        (Nat.le_add_right _ _) (Nat.add_lt_add_left (offset_lt y) _)
  · rw [h.parent]
    exact List.reverse_perm _

end Copied

/-! ## The main result -/

/-- **Fork copies the address space.** In every state that a run reaches,
`copy_pagetable` into a fresh table makes a faithful copy of the space of any
process, whatever ranges overlapped before; with three free pages for every
record it returns. -/
theorem copy_pagetable_isCopy {k₀ : Kern} {es : List Vm.Event} {s : Vm.Sys} {i root : ℕ}
    {p : Vm.Proc} (hf : Fresh k₀ []) (hes : ∀ e ∈ es, e.Admissible)
    (hrun : run Vm.step (Vm.boot k₀) es = some s) (hp : s.procs i = some p)
    (hc : pgtbl_create s.kern = some (root, k₁)) :
    (3 * p.space.mapping_list.length ≤ k₁.pages.length →
      ∃ c, copy_pagetable k₁ p.space ⟨root, []⟩ = some c) ∧
    ∀ c, copy_pagetable k₁ p.space ⟨root, []⟩ = some c →
      c.np.pgtbl = root ∧ c.p.pgtbl = p.space.pgtbl ∧ IsCopy k₁ c.kern p.space c.p c.np := by
  have hinv := Vm.Inv.of_run hf hes hrun
  obtain ⟨T, hok, hown⟩ := hinv.procs i p hp
  obtain ⟨-, hpar, hchild, hap, -⟩ := hinv.forking hp hok hown hc
  refine ⟨copy_pagetable_isSome hpar hchild hap rfl, fun c hcopy => ?_⟩
  have hcopied := copy_pagetable_spec hpar hchild hap rfl hcopy
  obtain ⟨T', N, -, hev⟩ := hcopied.child
  exact ⟨hev.root, by rw [hcopied.parent], isCopy_of_copied hpar hap hcopied⟩

/-- A process with two overlapping ranges, four records for three pages, and a
byte written to one of them. -/
theorem copy_pagetable_isCopy_overlap :
    ∃ s p root k₁ c, run Vm.step (Vm.boot (Vm.spare 40))
        [.create 0, .alloc 0 0 0x8000 1, .alloc 0 0x4000 0xC000 0x101,
          .store 0 0x9000000080008010 7] = some s ∧
      s.procs 0 = some p ∧ p.space.mapping_list.length = 4 ∧
      pgtbl_create s.kern = some (root, k₁) ∧ copy_pagetable k₁ p.space ⟨root, []⟩ = some c ∧
      IsCopy k₁ c.kern p.space c.p c.np := by
  have heval : ((run Vm.step (Vm.boot (Vm.spare 40))
      [.create 0, .alloc 0 0 0x8000 1, .alloc 0 0x4000 0xC000 0x101,
        .store 0 0x9000000080008010 7]).bind fun s => (s.procs 0).bind fun p =>
      (pgtbl_create s.kern).map fun r => (p.space.mapping_list.length, r.2.pages.length))
      = some (4, 32) := by decide +kernel
  obtain ⟨s, hs, h⟩ := Option.bind_eq_some_iff.mp heval
  obtain ⟨p, hp, h⟩ := Option.bind_eq_some_iff.mp h
  obtain ⟨⟨root, k₁⟩, hc, h⟩ := Option.map_eq_some_iff.mp h
  obtain ⟨hlen, hfree⟩ := Prod.mk.inj h
  have hmain := copy_pagetable_isCopy (Vm.spare_fresh (by norm_num)) (fun e he => by
    simp only [List.mem_cons, List.not_mem_nil, or_false] at he
    rcases he with rfl | rfl | rfl | rfl
    · trivial
    · exact ⟨by norm_num, by norm_num, FlagPerm.permOk ⟨by decide, by decide⟩⟩
    · exact ⟨by norm_num, by norm_num, FlagPerm.permOk ⟨by decide, by decide⟩⟩
    · trivial) hs hp hc
  obtain ⟨c, hcopy⟩ := hmain.1 (by dsimp only at hfree; omega)
  exact ⟨s, p, root, k₁, c, hs, hp, hlen, hc, hcopy, (hmain.2 c hcopy).2.2⟩

end Loos.ForkCopy
