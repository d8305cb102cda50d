/-
What `pgtbl_free` gives back.

The pages allocated for a process are a ghost of the run: they are what left
the free list while its address space was built. The code has no such list, it
finds the pages again through the mapping list and the page table, and the
result is that it finds each of them once.

The child of a fork takes the address in its record from its page table, masked,
so this rests on the rights of a mapping having no bit of the address field:
[`pgtbl_free_address_bits`] is a run where they have one.
-/
import Loos.Vm

set_option autoImplicit false

namespace Loos.Teardown

open SysLib Kern PageTable AddrSpace

/-- **Exactly the pages of the process are freed**, each once, and no page is
read after it was freed, in every state that a run reaches. These pages are the
tables of its page table and the pages of its records. -/
theorem pgtbl_free_owned {k₀ : Kern} {es : List Vm.Event} {s : Vm.Sys} {i : ℕ} {p : Vm.Proc}
    (hf : Fresh k₀ []) (hes : ∀ e ∈ es, e.Admissible)
    (hrun : run Vm.step (Vm.boot k₀) es = some s) (hp : s.procs i = some p) :
    p.owned.Nodup ∧
      (∀ x, x ∈ p.owned ↔ Radix.Node (rd s.kern.mem) p.space.pgtbl 2 x ∨
        ∃ r ∈ p.space.mapping_list, r.pa = x) ∧
      ∃ f, pgtbl_free s.kern p.space = some f ∧ (Radix.drops f.log).Perm p.owned ∧
        f.kern.pages = (Radix.drops f.log).reverse ++ s.kern.pages ∧
        f.log.Pairwise Radix.Visit.Safe := by
  have hinv := Vm.Inv.of_run hf hes hrun
  obtain ⟨T, hok, hown⟩ := hinv.procs i p hp
  obtain ⟨f, hfree, hfrees, hperm, hsafe⟩ := pgtbl_free_spec (k := s.kern) hok
  have hlog : f.log = freeLog s.kern.mem p.space := by
    rw [hfrees.log, List.nil_append]
  have hnd := hinv.parts.own_nodup (some i)
  rw [Vm.held_some hp] at hnd
  refine ⟨hnd, fun x => ?_, f, hfree, ?_, ?_, ?_⟩
  · rw [hown.mem_iff, Space.owned, List.mem_append, hok.table.node, List.mem_map]
  · rw [hlog]
    exact hperm.trans hown.symm
  · rw [hlog]
    exact hfrees.pages
  · rw [hlog]
    exact hsafe

/-- The child of a process with a page mapped twice. -/
theorem pgtbl_free_owned_fork :
    ∃ s p f, run Vm.step (Vm.boot (Vm.spare 40))
        [.create 0, .alloc 0 0 0x8000 1, .alloc 0 0x4000 0xC000 0x101, .fork 0 1] = some s ∧
      s.procs 1 = some p ∧ p.owned.length = 7 ∧ pgtbl_free s.kern p.space = some f ∧
      (Radix.drops f.log).Perm p.owned := by
  have heval : ((run Vm.step (Vm.boot (Vm.spare 40))
      [.create 0, .alloc 0 0 0x8000 1, .alloc 0 0x4000 0xC000 0x101, .fork 0 1]).bind fun s =>
      (s.procs 1).map fun p => p.owned.length) = some 7 := by decide +kernel
  obtain ⟨s, hs, h⟩ := Option.bind_eq_some_iff.mp heval
  obtain ⟨p, hp, hlen⟩ := Option.map_eq_some_iff.mp h
  obtain ⟨-, -, f, hfree, hperm, -⟩ := pgtbl_free_owned (Vm.spare_fresh (by norm_num)) (fun e he => by
    simp only [List.mem_cons, List.not_mem_nil, or_false] at he
    rcases he with rfl | rfl | rfl | rfl
    · trivial
    · exact ⟨by norm_num, by norm_num, FlagPerm.permOk ⟨by decide, by decide⟩⟩
    · exact ⟨by norm_num, by norm_num, FlagPerm.permOk ⟨by decide, by decide⟩⟩
    · trivial) hs hp
  exact ⟨s, p, f, hs, hp, hlen, hfree, hperm⟩

/-- With rights that have `PTE_V` and bit 14, an address bit, the page that the
child's record names is not the page that was allocated, and that page is freed. -/
theorem pgtbl_free_address_bits :
    Fresh (Vm.spare 40) [] ∧ (0x4001 : ℕ) &&& PTE_V = PTE_V ∧
    ∃ s p, run Vm.step (Vm.boot (Vm.spare 40))
        [.create 0, .alloc 0 0 0x4000 0x4001, .fork 0 1] = some s ∧ s.procs 1 = some p ∧
      ∀ f, pgtbl_free s.kern p.space = some f → ¬ (Radix.drops f.log).Perm p.owned := by
  refine ⟨Vm.spare_fresh (by norm_num), by decide, ?_⟩
  have heval : ((run Vm.step (Vm.boot (Vm.spare 40))
      [.create 0, .alloc 0 0 0x4000 0x4001, .fork 0 1]).bind fun s => (s.procs 1).map fun p =>
        (p.space.mapping_list.map Mapping.pa, p.owned.all fun x => x != 0x900000008002C000))
      = some ([0x900000008002C000], true) := by decide +kernel
  obtain ⟨s, hs, h⟩ := Option.bind_eq_some_iff.mp heval
  obtain ⟨p, hp, h⟩ := Option.map_eq_some_iff.mp h
  obtain ⟨hpa, hown⟩ := Prod.mk.inj h
  obtain ⟨r, l, hl⟩ : ∃ r l, p.space.mapping_list = r :: l := by
    cases hm : p.space.mapping_list with
    | nil => simp [hm] at hpa
    | cons r l => exact ⟨r, l, rfl⟩
  refine ⟨s, p, hs, hp, fun f hfree hperm => ?_⟩
  have hmem := hperm.mem_iff.mp (pgtbl_free_head hl hfree)
  have hr : r.pa = 0x900000008002C000 := by
    rw [hl, List.map_cons] at hpa
    exact (List.cons.inj hpa).1
  rw [hr, show PA2VA 0x900000008002C000 = 0x900000008002C000 by decide] at hmem
  simpa using List.all_eq_true.mp hown _ hmem

end Loos.Teardown
