/-
`alloc_vm` on ranges beyond `2^47`.

Nothing in `alloc_vm` looks at the size of an address, and `__map_single_page` uses bits 14
to 46 of it. So a turn at an address from `2^47` on enters its page at the address modulo
`2^47`, over whatever was there, while the record has the full address, which `va_to_pa`
does not translate. A call changes no translation exactly if it makes no turn
([`alloc_vm_unaliased_iff`]).
-/
import Loos.ElfLoader
import Loos.Image
import Loos.Vm

set_option autoImplicit false

namespace Loos.HighRanges

open SysLib Kern PageTable AddrSpace Image ElfLoader

/-- From `p` to `p'` no address below `2^47` got another translation, and every recorded
mapping's `va` translates to its page. -/
structure Unaliased (k k' : Kern) (p p' : Space) : Prop where
  lookups : ∀ y < MAXVA, va_to_pa k' p.pgtbl y = va_to_pa k p.pgtbl y
  records : ∀ r ∈ p'.mapping_list,
    va_to_pa k' p.pgtbl r.va = some (PTE2PA r.pa + r.va % PGSIZE)

variable {k k' : Kern} {root start end_ perm : ℕ} {T D : List ℕ} {p : Space} {a : AllocLoop}

/-! ## The pages that are visited -/

/-- The pages of `V` are behind pages now that were free in `k`. -/
def Replaced (k k' : Kern) (root : ℕ) (V : ℕ → Prop) : Prop :=
  ∀ y < MAXVA, V y → leaf k'.mem root y &&& PTE_V ≠ 0 ∧
    ∃ P ∈ k.pages, PTE2PA (leaf k'.mem root y) = PTE2PA P

/-- The loop of `alloc_vm` after `n` turns, as far as the entries go. -/
structure Turned (k : Kern) (root start n : ℕ) (s : AllocLoop) : Prop where
  caddr : s.caddr = start + n * PGSIZE
  root_eq : s.proc.pgtbl = root
  held : ∃ T D, Held s.kern root T D
  pages : ∀ P ∈ s.kern.pages, P ∈ k.pages
  entries : Replaced k s.kern root fun y =>
    ∃ i < n, y / PGSIZE = (start + i * PGSIZE) % MAXVA / PGSIZE

theorem Turned.step {n : ℕ} {s s' : AllocLoop} (hperm : PermOk perm)
    (h : Turned k root start n s) (hc : s.caddr < PGROUNDUP end_)
    (hb : AddrSpace.alloc_vm_body perm s = some s') : Turned k root start (n + 1) s' := by
  obtain ⟨hcaddr, hroot, ⟨T, D, hheld⟩, hpages, hentries⟩ := h
  have hup := PGROUNDUP_le end_
  rw [← hroot] at hheld
  obtain ⟨hnext, hroot', pa, N, hN⟩ := hheld.alloc_vm_body_enters hperm hb
  have hfree : pa ∈ s.kern.pages := hN.maps.free
  rw [hroot] at hheld hN
  refine ⟨?_, hroot'.trans hroot, ⟨_, _, hN.held hheld hperm⟩, fun P hP => ?_, fun y hy hv => ?_⟩
  · rw [hnext, hcaddr, Nat.succ_mul]
    unfold PGSIZE at *
    omega
  · refine hpages P ?_
    rw [hN.pages]
    exact List.mem_cons_of_mem _ (List.mem_append_right _ hP)
  · -- the page of this turn, or one of an earlier turn
    by_cases hlast : y / PGSIZE = s.caddr % MAXVA / PGSIZE
    · rw [hN.hit y hy hlast]
      exact ⟨newEntry_valid hperm.valid, pa, hpages pa hfree, newEntry_pa hperm⟩
    · rw [hN.miss y hy hlast]
      obtain ⟨i, hi, he⟩ := hv
      refine hentries y hy ⟨i, ?_, he⟩
      by_contra hin
      obtain rfl : i = n := by omega
      rw [hcaddr] at hlast
      exact hlast he

/-- Every page that `alloc_vm` visits has another page behind it now. -/
theorem alloc_vm_replaced (h : Held k p.pgtbl T D) (hperm : PermOk perm)
    (hs : alloc_vm k p start end_ perm = some a) :
    (∃ T' D', Held a.kern p.pgtbl T' D') ∧
      Replaced k a.kern p.pgtbl (Visits start end_) := by
  have hinit : Turned k p.pgtbl start 0 ⟨start, k, p⟩ :=
    ⟨by simp, rfl, ⟨T, D, h⟩, fun _ hP => hP, fun y _ ⟨i, hi, _⟩ => absurd hi (Nat.not_lt_zero i)⟩
  obtain ⟨⟨n, hn⟩, hdone⟩ := loop_inv (fun s => ∃ n, Turned k p.pgtbl start n s)
    (fun s s' hinv hc hb => by
      obtain ⟨n, hn⟩ := hinv
      exact ⟨n + 1, hn.step hperm (of_decide_eq_true hc) hb⟩)
    ⟨0, hinit⟩ hs
  have hend : ¬ a.caddr < PGROUNDUP end_ := of_decide_eq_false hdone
  refine ⟨hn.held, fun y hy ⟨i, hi, he⟩ => hn.entries y hy ⟨i, ?_, he⟩⟩
  by_contra hin
  rw [hn.caddr] at hend
  have := Nat.mul_le_mul_right PGSIZE (Nat.le_of_not_lt hin)
  omega

/-- So its addresses have another translation: what was behind it was not free. -/
theorem va_to_pa_replaced {V : ℕ → Prop} {T' D' : List ℕ} {y : ℕ} (h : Held k root T D)
    (h' : Held k' root T' D') (hr : Replaced k k' root V) (hy : y < MAXVA) (hV : V y) :
    va_to_pa k' root y ≠ va_to_pa k root y := by
  obtain ⟨hvalid, P, hP, hpa⟩ := hr y hy hV
  rw [va_to_pa_spec h'.table hy, va_to_pa_spec h.table hy, PageTable.translate, if_neg hvalid, hpa]
  intro heq
  have heq := Option.some.inj heq
  have hpage := (h.fresh.kpage P hP).PTE2PA_ne_zero
  by_cases h0 : leaf k.mem root y = 0
  · rw [h0] at heq
    simp only [PageTable.translate, Nat.zero_and, if_true] at heq
    omega
  · rw [PageTable.translate, if_neg (h.leaves y hy h0).1] at heq
    exact h.leaf_ne hP hy h0 (Nat.add_right_cancel heq).symm

/-! ## The main result -/

/-- A range without a turn changes nothing at all. -/
theorem alloc_vm_empty (hempty : PGROUNDUP end_ ≤ start)
    (hs : alloc_vm k p start end_ perm = some a) : a = ⟨start, k, p⟩ :=
  (loop_inv (· = ⟨start, k, p⟩) (fun s s' hs hc _ => by
    have hlt : s.caddr < PGROUNDUP end_ := of_decide_eq_true hc
    rw [hs] at hlt
    exact absurd hlt (Nat.not_lt.mpr hempty)) rfl hs).1

/-- **No aliasing exactly without a turn.** `alloc_vm`, on any range, leaves every address its
translation and every record its page exactly if the range is empty and the records were right
before; and whatever address it comes to is translated otherwise afterwards. -/
theorem alloc_vm_unaliased_iff (h : Held k p.pgtbl T D) (hperm : PermOk perm)
    (hs : alloc_vm k p start end_ perm = some a) :
    (Unaliased k a.kern p a.proc ↔ PGROUNDUP end_ ≤ start ∧
      ∀ r ∈ p.mapping_list, va_to_pa k p.pgtbl r.va = some (PTE2PA r.pa + r.va % PGSIZE)) ∧
    ∀ y < MAXVA, Visits start end_ y → va_to_pa a.kern p.pgtbl y ≠ va_to_pa k p.pgtbl y := by
  obtain ⟨⟨T', D', hheld⟩, hreplaced⟩ := alloc_vm_replaced h hperm hs
  refine ⟨⟨fun hright => ?_, fun ⟨hempty, hrecs⟩ => ?_⟩, fun y hy hv => ?_⟩
  · have hempty : PGROUNDUP end_ ≤ start := by
      by_contra hlt
      have hlow : start % MAXVA < MAXVA := Nat.mod_lt _ (by norm_num)
      refine va_to_pa_replaced h hheld hreplaced hlow ⟨0, by omega, ?_⟩ (hright.lookups _ hlow)
      rw [Nat.zero_mul, Nat.add_zero]
    have hsame := alloc_vm_empty hempty hs
    refine ⟨hempty, fun r hr => ?_⟩
    have := hright.records r (by rw [hsame]; exact hr)
    rwa [hsame] at this
  · rw [alloc_vm_empty hempty hs]
    exact ⟨fun _ _ => rfl, hrecs⟩
  · exact va_to_pa_replaced h hheld hreplaced hy hv

/-- A segment that ends at the end of the address space, so that `end` is 0. -/
def last_segment : Elf_Phdr where
  p_type := PT_LOAD
  p_flags := 5
  p_offset := 0
  p_vaddr := 0xFFFFFFFFFFFFC000
  p_filesz := 16
  p_memsz := 0x4000
  p_align := 0x4000

/-- A segment of one page, 64 KiB above `2^47`. -/
def high_segment : Elf_Phdr where
  p_type := PT_LOAD
  p_flags := 5
  p_offset := 0
  p_vaddr := 2 ^ 47 + 0x10000
  p_filesz := 16
  p_memsz := 16
  p_align := 0x4000

theorem segment_perm_ok : PermOk SEGMENT_PERM := FlagPerm.permOk ⟨by decide, by decide⟩

/-- The address space of a program with one page, at 64 KiB. -/
theorem one_page_held : ∃ root k s, pgtbl_create (Vm.spare 16) = some (root, k) ∧
    alloc_vm k ⟨root, []⟩ 0x10000 0x14000 SEGMENT_PERM = some s ∧ s.proc.pgtbl = root ∧
      ∃ T D, Held s.kern s.proc.pgtbl T D := by
  have hf : Fresh (Vm.spare 16) [] := Vm.spare_fresh (by norm_num)
  obtain ⟨⟨root, k⟩, hc⟩ : ∃ r, pgtbl_create (Vm.spare 16) = some r := ⟨_, rfl⟩
  have heval : ((pgtbl_create (Vm.spare 16)).bind fun r =>
      (alloc_vm r.2 ⟨r.1, []⟩ 0x10000 0x14000 SEGMENT_PERM).map fun _ => true) = some true := by
    decide +kernel
  rw [hc, Option.bind_some] at heval
  obtain ⟨s, hs, -⟩ := Option.map_eq_some_iff.mp heval
  have hpages : Fresh k [root] := hf.of_pages (N := [root]) (pgtbl_create_spec hf hc).1
  have hheld := (Held.of_empty (p := ⟨root, []⟩) (SpaceOk.create hf hc) hpages rfl).1
  obtain ⟨hroot, hheld', -⟩ := alloc_vm_view hheld segment_perm_ok hs
  refine ⟨root, k, s, hc, hs, hroot, ?_⟩
  rw [hroot]
  exact hheld'

theorem alloc_vm_unaliased_last : ∃ k p a,
    alloc_vm k p last_segment.start last_segment.end_ SEGMENT_PERM = some a ∧
      p.mapping_list.length = 1 ∧ Unaliased k a.kern p a.proc := by
  obtain ⟨root, k, s, hc, hs, hroot, T, D, hheld⟩ := one_page_held
  have heval : ((pgtbl_create (Vm.spare 16)).bind fun r =>
      (alloc_vm r.2 ⟨r.1, []⟩ 0x10000 0x14000 SEGMENT_PERM).bind fun s =>
        (alloc_vm s.kern s.proc last_segment.start last_segment.end_ SEGMENT_PERM).map fun _ =>
          (s.proc.mapping_list.length, decide (∀ r ∈ s.proc.mapping_list,
            va_to_pa s.kern s.proc.pgtbl r.va = some (PTE2PA r.pa + r.va % PGSIZE))))
      = some (1, true) := by decide +kernel
  rw [hc, Option.bind_some, hs, Option.bind_some] at heval
  obtain ⟨a, ha, hvals⟩ := Option.map_eq_some_iff.mp heval
  obtain ⟨hlen, hrecs⟩ := Prod.mk.inj hvals
  exact ⟨s.kern, s.proc, a, ha, hlen, (alloc_vm_unaliased_iff hheld segment_perm_ok ha).1.mpr
    ⟨by decide, of_decide_eq_true hrecs⟩⟩

/-- The page of the program is replaced by the page of a segment beyond `2^47`, and the record
of that segment translates to nothing. -/
theorem high_segment_aliases : MAXVA ≤ high_segment.p_vaddr ∧ ∃ k p T D a, Held k p.pgtbl T D ∧
    (∀ r ∈ p.mapping_list, va_to_pa k p.pgtbl r.va = some (PTE2PA r.pa + r.va % PGSIZE)) ∧
    alloc_vm k p high_segment.start high_segment.end_ SEGMENT_PERM = some a ∧
    va_to_pa k p.pgtbl 0x10000 = some 0x80008000 ∧
    va_to_pa a.kern p.pgtbl 0x10000 = some 0x80020000 ∧
    (∃ r ∈ a.proc.mapping_list, r.va = high_segment.p_vaddr ∧
      va_to_pa a.kern p.pgtbl r.va = some 0) ∧ ¬ Unaliased k a.kern p a.proc := by
  refine ⟨by decide, ?_⟩
  obtain ⟨root, k, s, hc, hs, hroot, T, D, hheld⟩ := one_page_held
  have heval : ((pgtbl_create (Vm.spare 16)).bind fun r =>
      (alloc_vm r.2 ⟨r.1, []⟩ 0x10000 0x14000 SEGMENT_PERM).bind fun s =>
        (alloc_vm s.kern s.proc high_segment.start high_segment.end_ SEGMENT_PERM).map fun a =>
          (decide (∀ r ∈ s.proc.mapping_list,
            va_to_pa s.kern s.proc.pgtbl r.va = some (PTE2PA r.pa + r.va % PGSIZE)),
          va_to_pa s.kern s.proc.pgtbl 0x10000, va_to_pa a.kern s.proc.pgtbl 0x10000,
          decide (∃ r ∈ a.proc.mapping_list, r.va = high_segment.p_vaddr ∧
            va_to_pa a.kern s.proc.pgtbl r.va = some 0)))
      = some (true, some 0x80008000, some 0x80020000, true) := by decide +kernel
  rw [hc, Option.bind_some, hs, Option.bind_some] at heval
  obtain ⟨a, ha, hvals⟩ := Option.map_eq_some_iff.mp heval
  obtain ⟨hrecs, hvals⟩ := Prod.mk.inj hvals
  obtain ⟨hold, hvals⟩ := Prod.mk.inj hvals
  obtain ⟨hnew, hstale⟩ := Prod.mk.inj hvals
  refine ⟨s.kern, s.proc, T, D, a, hheld, of_decide_eq_true hrecs, ha, hold, hnew,
    of_decide_eq_true hstale, fun hright => ?_⟩
  have hsame := hright.lookups 0x10000 (by norm_num)
  rw [hnew, hold] at hsame
  exact absurd (Option.some.inj hsame) (by norm_num)

end Loos.HighRanges
