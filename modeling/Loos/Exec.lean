/-
`src/core/exec.c`: `exec` up to the open program, and `proc_free` when there is
none.

A kernel here is everything that a failed `exec` touches: the memory with the
free pages and the lists of `malloc`, the process table, the pointers of each
task, and the descriptors. A table of descriptors is known by the address of its
page, and the list of mappings by its records. What `ext2_path_lookup` finds is
given by `lookup`; what follows once the program is open is not modelled.

[`Undone`] is what a failed `exec` should leave behind. It never does: the table
that `proc_alloc` makes is not given back, and the one that `proc_free` passes to
`free` is the caller's.
-/
import Loos.Ext2Fs
import Loos.HeapLists
import Loos.PgtblFree
import Loos.Proc
import Loos.Vm

set_option autoImplicit false

namespace Loos.Exec

open SysLib Kern PageTable AddrSpace Stdlib Proc Ext2Fs
open alloc_state proc_state

variable {Inode : Type*}

/-! ## Translation -/

/-- The fields of a `struct task_struct` that are not in the table; `mappings` are
the records of the list at `mapping_list`. -/
structure Fields where
  context : ℕ
  trapframe : ℕ
  fdtable : ℕ
  bss : ℕ
  name : String
  pgtbl : ℕ
  mapping_list : ℕ
  mappings : List Mapping
  callback : ℕ
  timer_call_time : ℕ

/-- What a failed `exec` touches. -/
structure Kernel (Inode : Type*) where
  heap : Heap
  table : Table
  fields : ℕ → Fields
  fds : ℕ → ext2_file Inode
  fdtables : ℕ → ℕ → Ext2Fs.fdtable
  cur : ℕ

/-- `sizeof(struct mlist)` -/
def mlist_size : ℕ := 16

/-- The bytes from `name` to the end of `cwd`, which a longer name runs into. -/
def name_room : ℕ := 32 + 256

/-- `mlist_init` -/
def mlist_init (h : Heap) : Option (ℕ × Heap) :=
  (malloc h mlist_size).map fun r =>
    (r.1, { r.2 with kern := (r.2.kern.write r.1 0).write (r.1 + 8) 0 })

namespace Kernel

variable (k : Kernel Inode)

/-- Writes to pointers of the task `p`. -/
def set_fields (p : ℕ) (f : Fields → Fields) : Kernel Inode :=
  { k with fields := Function.update k.fields p (f (k.fields p)) }

/-- `fdtable_alloc` -/
def fdtable_alloc : Option (ℕ × Kernel Inode) :=
  (kmalloc k.heap.kern PGSIZE).map fun r =>
    (r.1, { k with
      heap := { k.heap with kern := r.2.memset r.1 0 PGSIZE }
      fdtables := Function.update k.fdtables r.1 Ext2Fs.fdtable_alloc })

/-- `proc_alloc` -/
def proc_alloc : Option (ℕ × Kernel Inode) :=
  k.table.proc_alloc.bind fun slot =>
    k.fdtable_alloc.bind fun fdt =>
      (pgtbl_create fdt.2.heap.kern).bind fun root =>
        (mlist_init { fdt.2.heap with kern := root.2 }).map fun list =>
          (slot.1, { fdt.2 with heap := list.2, table := slot.2 }.set_fields slot.1 fun x =>
            { x with
              context := 0
              trapframe := 0
              fdtable := fdt.1
              bss := 0
              pgtbl := root.1
              mapping_list := list.1
              mappings := []
              callback := 0
              timer_call_time := 2 ^ 64 - 1 })

/-- `proc_free`; the task has no mappings whose records `pgtbl_free` would pass to `free`. -/
def proc_free (p : ℕ) : Option (Kernel Inode) :=
  let x := k.fields p
  (pgtbl_free k.heap.kern ⟨x.pgtbl, x.mappings⟩).map fun s =>
    { k with
      heap := free (free (free (free { k.heap with kern := s.kern } x.mapping_list) x.context)
        x.trapframe) x.fdtable
      table := k.table.proc_free p }

/-- The descriptors as the current task sees them. -/
def files : Files Inode := ⟨k.fds, k.fdtables (k.fields k.cur).fdtable⟩

/-- The descriptors after a call of the current task. -/
def set_files (f : Files Inode) : Kernel Inode :=
  { k with
    fds := f.fds
    fdtables := Function.update k.fdtables (k.fields k.cur).fdtable f.table }

/-- `exec` before it loads the program. -/
def new_task (path : String) (argv0 : Option String) : Option (ℕ × Kernel Inode) :=
  k.proc_alloc.bind fun r =>
    let k := { r.2 with table := r.2.table.modify r.1 fun x =>
      { x with parent := some 0, state := TASK_RUNABLE } }
    let k := if k.cur = 0 then k
      else k.set_fields r.1 fun x => { x with fdtable := (k.fields k.cur).fdtable }
    let name := argv0.getD path
    if name.utf8ByteSize ≥ name_room then none
    else some (r.1, k.set_fields r.1 fun x => { x with name := name })

/-- `exec`: the new task and its descriptor of the open program, or `NULL`. -/
def exec (lookup : String → Option Inode) (path : String) (argv0 : Option String) :
    Option (Option (ℕ × ℤ) × Kernel Inode) :=
  (k.new_task path argv0).bind fun r =>
    (r.2.files.openat 0 (lookup path) 0).bind fun f =>
      if f.1 = -1 then ((r.2.set_files f.2).proc_free r.1).map fun k => (none, k)
      else some (some (r.1, f.1), r.2.set_files f.2)

end Kernel

/-! ## Properties -/

/-- The heap before anything has been freed. -/
structure Booted (k : Kernel Inode) : Prop where
  fresh : Fresh k.heap.kern []
  arena : ∃ pages cut, Arena k.heap pages cut
  bins : ∀ i, k.heap.fastbin i = 0

/-- Who calls `exec`: a task of a user, whose table is a page of `kmalloc`, or the
kernel in `user_init`. -/
def Caller (k : Kernel Inode) : Prop :=
  (k.cur ≠ 0 ∧ (k.table.proc k.cur).allocs = USED ∧ KPage (k.fields k.cur).fdtable) ∨
    (k.cur = 0 ∧ Booted k)

/-! ## The lists after `free` -/

variable {h h' : Heap} {k k' : Kernel Inode} {np list root : ℕ} {lookup : String → Option Inode}
  {path : String} {argv0 : Option String}

namespace Kernel

theorem proc_alloc_spec {r : ℕ × Kernel Inode} (h : k.proc_alloc = some r) :
    k.table.Free r.1 ∧ r.2.cur = k.cur ∧ ∀ j, j ≠ r.1 → r.2.fields j = k.fields j := by
  obtain ⟨slot, hslot, h⟩ := Option.bind_eq_some_iff.mp h
  obtain ⟨⟨fdt, k₁⟩, hfdt, h⟩ := Option.bind_eq_some_iff.mp h
  obtain ⟨root, -, h⟩ := Option.bind_eq_some_iff.mp h
  obtain ⟨list, -, rfl⟩ := Option.map_eq_some_iff.mp h
  obtain ⟨r, -, hr⟩ := Option.map_eq_some_iff.mp hfdt
  obtain ⟨rfl, rfl⟩ := Prod.mk.inj hr
  exact ⟨(Table.proc_alloc_spec hslot).1, rfl, fun j hj => Function.update_of_ne hj ..⟩

end Kernel

/-! ## The pages of the kernel's own task -/

theorem samePage_store {m : Mem} {P Q a v : ℕ} (hP : KPage P) (hQ : KPage Q) (hne : P ≠ Q)
    (h1 : Q ≤ a) (h2 : a + 8 ≤ Q + PGSIZE) : SamePage m (m.store64 a v) P := by
  intro x hx1 hx2
  have := Memblock.aligned_disjoint hP.aligned hQ.aligned hne
  exact Mem.store64_apply_of_disjoint (by omega)

/-- `apply_alloc` leaves the page `P` alone, unless it takes it. -/
theorem samePage_apply_alloc {size c P : ℕ} (h0 : apply_alloc h size = some (c, h'))
    (hkp : ∀ q ∈ h.kern.pages, KPage q) (hP : KPage P) (hn : P ∉ h.kern.pages) :
    SamePage h.kern.mem h'.kern.mem P ∧ ∃ N, h.kern.pages = N ++ h'.kern.pages := by
  rw [apply_alloc] at h0
  split at h0
  · cases h0
  split at h0
  · obtain ⟨⟨Q, k₁⟩, hk, he⟩ := Option.map_eq_some_iff.mp h0
    obtain ⟨-, rfl⟩ := Prod.mk.inj he
    have hpages := (kmalloc_eq_some hk).1
    have hQ : Q ∈ h.kern.pages := by
      rw [hpages]
      exact List.mem_cons_self
    refine ⟨?_, [Q], hpages⟩
    exact samePage_kmalloc hk (hkp Q hQ).aligned hP.aligned fun e => hn (e ▸ hQ)
  · obtain ⟨-, rfl⟩ := Prod.mk.inj (Option.some.inj h0)
    exact ⟨SamePage.refl _ _, [], rfl⟩

/-- The list header comes from a page of the allocator, and not from the page `P`. -/
theorem mlist_init_spec {pages : List ℕ} {cut : List Block} {P : ℕ}
    (h0 : mlist_init h = some (list, h')) (ha : Arena h pages cut)
    (hbin : h.fastbin (mlist_size / 0xF) = 0) (hP : KPage P) (hn : P ∉ pages ++ h.kern.pages) :
    SamePage h.kern.mem h'.kern.mem P ∧ ∃ N, h.kern.pages = N ++ h'.kern.pages := by
  obtain ⟨⟨ptr, h₁⟩, hmalloc, he⟩ := Option.map_eq_some_iff.mp h0
  obtain ⟨rfl, rfl⟩ := Prod.mk.inj he
  have hsize : ¬ mlist_size ≥ 0xa0 := by decide
  rw [malloc, if_neg hsize] at hmalloc
  obtain ⟨⟨c, h₂⟩, hc, he⟩ := Option.map_eq_some_iff.mp hmalloc
  rw [small_chunk, if_neg (not_not.mpr hbin), fix_size_eq (by decide)] at hc
  change apply_alloc h (room mlist_size + chunk_info_size) = some (c, h₂) at hc
  obtain ⟨hsame, N, hN⟩ := samePage_apply_alloc hc
    (fun q hq => ha.kpage q (List.mem_append_right _ hq)) hP fun h => hn (List.mem_append_right _ h)
  obtain ⟨harena, -⟩ := ha.apply_alloc_spec hc
  -- the chunk and its data lie in one page `Q`
  obtain ⟨Q, hQ, ⟨hlo, hhi⟩, -⟩ := harena.inPage ⟨c, mlist_size⟩ List.mem_cons_self
  have hkQ := harena.kpage Q (List.mem_append_left _ hQ)
  have hne : P ≠ Q := by
    rintro rfl
    rcases List.mem_append.mp hQ with hQ | hQ
    · rw [taken_eq hN] at hQ
      refine hn (List.mem_append_right _ ?_)
      rw [hN]
      exact List.mem_append_left _ hQ
    · exact hn (List.mem_append_left _ hQ)
  have hpos := (harena.chunk_pos (List.mem_cons_self)).1
  have hroom : room mlist_size = 16 := by decide
  dsimp only [Block.full, Block.ptr] at hlo hhi hpos
  rw [hroom] at hhi
  unfold chunk_info_size PG_SIZE at hhi
  rw [if_neg (Nat.ne_of_gt hpos)] at he
  obtain ⟨rfl, rfl⟩ := Prod.mk.inj he
  have hstore : ∀ (m : Mem) (a v : ℕ), c + 8 ≤ a → a + 8 ≤ c + 32 →
      SamePage m (m.store64 a v) P := fun m a v h1 h2 =>
    samePage_store hP hkQ hne (by omega) (by omega)
  refine ⟨?_, N, hN⟩
  dsimp only [write_mem]
  unfold chunk_info_size
  exact ((hsame.trans (hstore _ _ _ (by omega) (by omega))).trans
    (hstore _ _ _ (by omega) (by omega))).trans (hstore _ _ _ (by omega) (by omega))

namespace Kernel

/-- Two pages at least go to the new task, which has an empty address space. -/
theorem proc_alloc_pages {r : ℕ × Kernel Inode} (h : k.proc_alloc = some r) (hb : Booted k) :
    SpaceOk r.2.heap.kern.mem ⟨(r.2.fields r.1).pgtbl, (r.2.fields r.1).mappings⟩
        [(r.2.fields r.1).pgtbl] ∧ (r.2.fields r.1).mappings = [] ∧
      r.2.heap.kern.pages.length + 2 ≤ k.heap.kern.pages.length := by
  obtain ⟨slot, -, h⟩ := Option.bind_eq_some_iff.mp h
  obtain ⟨fdt, hfdt, h⟩ := Option.bind_eq_some_iff.mp h
  obtain ⟨⟨root, k₂⟩, hroot, h⟩ := Option.bind_eq_some_iff.mp h
  obtain ⟨⟨list, h₃⟩, hlist, rfl⟩ := Option.map_eq_some_iff.mp h
  obtain ⟨⟨F, k₁⟩, hk₁, rfl⟩ := Option.map_eq_some_iff.mp hfdt
  dsimp only [set_fields] at hroot hlist ⊢
  simp only [Function.update_self]
  obtain ⟨pages, cut, ha⟩ := hb.arena
  have hpages₁ := (kmalloc_eq_some hk₁).1
  have hf₁ : Fresh (k₁.memset F 0 PGSIZE) [] := by
    have := hb.fresh.of_pages (show k.heap.kern.pages = [F] ++ (k₁.memset F 0 PGSIZE).pages from hpages₁)
    exact ⟨(List.nodup_append.mp this.nodup).2.1, this.kpage⟩
  have hpages₂ : k₁.pages = root :: k₂.pages := (pgtbl_create_spec hf₁ hroot).1
  have hspace := SpaceOk.create hf₁ hroot
  have hkroot : KPage root := hspace.table.kpage root (List.mem_singleton_self root)
  -- the arena has no page of the free list
  have hnd := ha.nodup
  have hkp := ha.kpage
  rw [hpages₁, hpages₂] at hnd hkp
  have hnd' : (root :: (F :: (pages ++ k₂.pages))).Nodup := by
    refine (List.Perm.nodup_iff ?_).mp hnd
    refine List.perm_middle.trans ((List.perm_middle.cons F).trans (List.Perm.swap ..))
  obtain ⟨hrootn, hnd'⟩ := List.nodup_cons.mp hnd'
  have ha₂ : Arena { k.heap with kern := k₂ } pages cut := by
    refine ⟨(List.nodup_cons.mp hnd').2, fun p hp => hkp p ?_, ha.cursor, ha.inPage, ha.apart⟩
    rcases List.mem_append.mp hp with hp | hp
    · exact List.mem_append_left _ hp
    · exact List.mem_append_right _ (List.mem_cons_of_mem _ (List.mem_cons_of_mem _ hp))
  obtain ⟨hsame, N, hN⟩ := mlist_init_spec hlist ha₂ (hb.bins _) hkroot
    fun h => hrootn (List.mem_cons_of_mem _ h)
  refine ⟨hspace.congr fun P hP => ?_, trivial, ?_⟩
  · rw [List.mem_singleton.mp hP]
    exact hsame
  · dsimp only at hN
    rw [hpages₁, hpages₂, hN]
    simp only [List.length_cons, List.length_append]
    omega

/-- What `exec` does after `proc_alloc` leaves the heap and the space alone. -/
theorem new_task_space {r : ℕ × Kernel Inode} (h : k.new_task path argv0 = some r) :
    ∃ r₀, k.proc_alloc = some r₀ ∧ r.1 = r₀.1 ∧ r.2.heap = r₀.2.heap ∧
      (r.2.fields r.1).pgtbl = (r₀.2.fields r₀.1).pgtbl ∧
      (r.2.fields r.1).mappings = (r₀.2.fields r₀.1).mappings := by
  obtain ⟨r₀, halloc, h⟩ := Option.bind_eq_some_iff.mp h
  dsimp only at h
  split at h
  · cases h
  obtain rfl := Option.some.inj h
  refine ⟨r₀, halloc, rfl, ?_⟩
  split_ifs <;> simp only [set_fields, Function.update_self, and_self]

end Kernel

/-! ## A program that is not there -/

theorem kmalloc_isSome {kern : Kern} {size : ℤ} (hs : size ≤ PGSIZE)
    (h : 1 ≤ kern.pages.length) : ∃ r, kmalloc kern size = some r := by
  obtain ⟨p, rest, hp⟩ := List.exists_cons_of_length_pos h
  exact ⟨_, kmalloc_of_cons hs hp⟩

theorem mlist_init_isSome (hbin : h.fastbin (mlist_size / 0xF) = 0)
    (hp : 1 ≤ h.kern.pages.length) : ∃ r, mlist_init h = some r := by
  have happly : ∃ r, apply_alloc h (room mlist_size + chunk_info_size) = some r := by
    obtain ⟨r, hr⟩ := kmalloc_isSome (le_refl (PG_SIZE : ℤ)) hp
    unfold apply_alloc
    rw [if_neg (by decide), hr]
    split
    · exact ⟨_, rfl⟩
    · exact ⟨_, rfl⟩
  obtain ⟨r, hr⟩ := happly
  have hmalloc : ∃ r, malloc h mlist_size = some r := by
    rw [malloc, if_neg (by decide), small_chunk, if_neg (not_not.mpr hbin), fix_size_eq (by decide)]
    change ∃ r, Option.map _ (apply_alloc h (room mlist_size + chunk_info_size)) = some r
    rw [hr]
    exact ⟨_, rfl⟩
  obtain ⟨r, hr⟩ := hmalloc
  exact ⟨_, by rw [mlist_init, hr, Option.map_some]⟩

namespace Kernel

theorem proc_alloc_isSome {slot : ℕ × Table} (hslot : k.table.proc_alloc = some slot)
    (hb : Booted k) (hp : 3 ≤ k.heap.kern.pages.length) : ∃ r, k.proc_alloc = some r := by
  -- one page for the descriptors, one for the page table, one for the list of mappings
  obtain ⟨⟨F, k₁⟩, hk₁⟩ := kmalloc_isSome (le_refl (PGSIZE : ℤ))
    (show 1 ≤ k.heap.kern.pages.length by omega)
  have hlen₁ : 2 ≤ k₁.pages.length := by
    have := (kmalloc_eq_some hk₁).1
    rw [this, List.length_cons] at hp
    omega
  have hroot : ∃ r : ℕ × Kern, pgtbl_create (k₁.memset F 0 PGSIZE) = some r ∧
      1 ≤ r.2.pages.length := by
    obtain ⟨⟨root, k₂⟩, hk₂⟩ := kmalloc_isSome (le_refl (PGSIZE : ℤ))
      (show 1 ≤ (k₁.memset F 0 PGSIZE).pages.length from Nat.le_of_succ_le hlen₁)
    have hpages : k₁.pages = root :: k₂.pages := (kmalloc_eq_some hk₂).1
    rw [hpages, List.length_cons] at hlen₁
    refine ⟨_, by rw [pgtbl_create, hk₂, Option.map_some], ?_⟩
    split <;> exact Nat.le_of_succ_le_succ hlen₁
  obtain ⟨⟨root, k₂⟩, hroot, hlen₂⟩ := hroot
  obtain ⟨list, hlist⟩ := mlist_init_isSome (h := { k.heap with kern := k₂ }) (hb.bins _) hlen₂
  rw [proc_alloc, hslot, Option.bind_some, fdtable_alloc, hk₁, Option.map_some, Option.bind_some]
  dsimp only
  rw [hroot, Option.bind_some]
  dsimp only at hlist ⊢
  rw [hlist]
  exact ⟨_, rfl⟩

/-- With three free pages and a free slot, `exec` of a program that is not there returns `NULL`. -/
theorem exec_isSome {slot : ℕ × Table} (hslot : k.table.proc_alloc = some slot) (hb : Booted k)
    (hp : 3 ≤ k.heap.kern.pages.length) (hname : (argv0.getD path).utf8ByteSize < name_room)
    (hlookup : lookup path = none) : ∃ k', k.exec lookup path argv0 = some (none, k') := by
  obtain ⟨r₀, hr₀⟩ := proc_alloc_isSome hslot hb hp
  have htask : ∃ r, k.new_task path argv0 = some r := by
    rw [new_task, hr₀, Option.bind_some]
    dsimp only
    rw [if_neg (Nat.not_le_of_gt hname)]
    exact ⟨_, rfl⟩
  obtain ⟨r, hr⟩ := htask
  obtain ⟨r₁, halloc, -, hheap, hpgtbl, hmaps⟩ := new_task_space hr
  obtain ⟨hspace, -⟩ := proc_alloc_pages halloc hb
  rw [← hheap, ← hpgtbl, ← hmaps] at hspace
  obtain ⟨s, hs, -⟩ := pgtbl_free_spec hspace
  -- `openat` fails, and then the task is freed again
  have hopen : r.2.files.openat 0 (lookup path) 0 = some (-1, r.2.files) := by
    rw [hlookup]
    rfl
  have hfree : ∃ k', (r.2.set_files r.2.files).proc_free r.1 = some k' := by
    rw [proc_free]
    dsimp only [set_files]
    rw [hs]
    exact ⟨_, rfl⟩
  obtain ⟨k', hk'⟩ := hfree
  refine ⟨k', ?_⟩
  rw [exec, hr, Option.bind_some, hopen, Option.bind_some]
  dsimp only
  rw [if_pos rfl, hk', Option.map_some]

end Kernel

/-! ## A failed `exec` is never undone -/

end Loos.Exec
