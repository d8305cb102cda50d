/-
`mm/n_vm.c`, address spaces: `alloc_vm`, `copy_to_va` and `copy_pagetable`.

An address space is a page table and the list of the mappings that were
entered in it. The list is the `mlist` of the process: `mlist_push` adds in
front and `mlist_pop` takes from the front, and its cells and records live in
memory of `malloc` that nothing else touches, so it is a list of records here.

The list may hold several records for one virtual page, when ranges overlap.
Then the leaf entry points to the page of one of them and carries the rights of
all of them ([`LeafOk`]), which is all that `copy_pagetable` depends on.
-/
import Loos.PageTable
import Mathlib.Data.List.Perm.Basic

set_option autoImplicit false

namespace Loos.AddrSpace

open SysLib Kern PageTable

/-! ## The code -/

/-- `struct mapping` -/
structure Mapping where
  pa : ℕ
  va : ℕ
  size : ℕ
  perm : ℕ

/-- What a `struct task_struct` says about its memory. -/
structure Space where
  pgtbl : ℕ
  mapping_list : List Mapping

/-- `__proc_add_mapping` -/
def Space.proc_add_mapping (p : Space) (pa va size perm : ℕ) : Space :=
  { p with mapping_list := ⟨pa, va, size, perm⟩ :: p.mapping_list }

/-- The loop state of `alloc_vm`: `caddr`, the machine and the process. -/
structure AllocLoop where
  caddr : ℕ
  kern : Kern
  proc : Space

/-- The body of the loop of `alloc_vm`; `none` is a `panic`. -/
def alloc_vm_body (perm : ℕ) (s : AllocLoop) : Option AllocLoop :=
  (kmalloc s.kern PGSIZE).bind fun r =>
    if r.1 = 0 then none
    else (map_single_page (r.2.memset r.1 0 PGSIZE) s.proc.pgtbl s.caddr r.1 perm).map fun k =>
      ⟨(s.caddr + PGSIZE) % 2 ^ 64, k, s.proc.proc_add_mapping r.1 s.caddr PGSIZE perm⟩

/-- `alloc_vm`. The cursor stays below `PGROUNDUP(end)`, which is at most
`2^64 - PGSIZE`, so there are at most `2^50` turns. -/
def alloc_vm (k : Kern) (proc : Space) (start end_ perm : ℕ) : Option AllocLoop :=
  loop (fun s => decide (s.caddr < PGROUNDUP end_)) (alloc_vm_body perm) (2 ^ 50 + 1)
    ⟨start, k, proc⟩

/-- The loop state of `copy_from_va`; `ret` is set by the `return` inside the loop. -/
structure CopyLoop where
  kern : Kern
  dst : ℕ
  srcva : ℕ
  len : ℕ
  ret : Option ℤ

/-- The body of the loop of `copy_from_va`. -/
def copy_from_va_body (pagetable : ℕ) (s : CopyLoop) : Option CopyLoop :=
  let va0 := PGROUNDDOWN s.srcva
  (va_to_pa s.kern pagetable va0).map fun pa0 =>
    if pa0 = 0 then { s with ret := some (-1) }
    else
      let n := if PGSIZE - (s.srcva - va0) > s.len then s.len else PGSIZE - (s.srcva - va0)
      { s with
        kern := s.kern.memmove s.dst (PA2VA (pa0 + (s.srcva - va0))) n
        dst := (s.dst + n) % 2 ^ 64
        srcva := (va0 + PGSIZE) % 2 ^ 64
        len := s.len - n }

/-- `copy_from_va`. Every turn copies a byte or returns, so `len` bounds the turns. -/
def copy_from_va (k : Kern) (pagetable dst srcva len : ℕ) : Option (ℤ × Kern) :=
  (loop (fun s => decide (s.len > 0 ∧ s.ret = none)) (copy_from_va_body pagetable) (len + 1)
    ⟨k, dst, srcva, len, none⟩).map fun s => (s.ret.getD 0, s.kern)

/-- The loop state of `copy_to_va`; `src` is how far the pointer has got. -/
structure CopyToLoop where
  kern : Kern
  dstva : ℕ
  src : ℕ
  len : ℕ
  ret : Option ℤ

/-- The body of the loop of `copy_to_va`. The bytes behind the pointer `src` are given by a
memory of their own: they are never in a page that is written here. -/
def copy_to_va_body (pagetable : ℕ) (src : Mem) (s : CopyToLoop) : Option CopyToLoop :=
  let va0 := PGROUNDDOWN s.dstva
  (va_to_pa s.kern pagetable va0).map fun pa0 =>
    if pa0 = 0 then { s with ret := some (-1) }
    else
      let n := if PGSIZE - (s.dstva - va0) > s.len then s.len else PGSIZE - (s.dstva - va0)
      { s with
        kern := { s.kern with
          mem := s.kern.mem.put (PA2VA (pa0 + (s.dstva - va0))) n fun i => src (s.src + i) }
        dstva := (va0 + PGSIZE) % 2 ^ 64
        src := s.src + n
        len := s.len - n }

/-- `copy_to_va`. -/
def copy_to_va (k : Kern) (pagetable dstva : ℕ) (src : Mem) (len : ℕ) : Option (ℤ × Kern) :=
  (loop (fun s => decide (s.len > 0 ∧ s.ret = none)) (copy_to_va_body pagetable src) (len + 1)
    ⟨k, dstva, 0, len, none⟩).map fun s => (s.ret.getD 0, s.kern)

/-- The machine and the two processes of `copy_pagetable`. -/
structure CopyState where
  kern : Kern
  p : Space
  np : Space

/-- The body of the loop of `copy_pagetable`, for the record `info` just popped. -/
def copy_mapping (s : CopyState) (info : Mapping) : Option CopyState :=
  (kmalloc s.kern PGSIZE).bind fun r =>
    (copy_from_va (r.2.memset r.1 0 PGSIZE) s.p.pgtbl r.1 info.va PGSIZE).bind fun c =>
      (map_pages c.2 s.np.pgtbl info.va info.size r.1 info.perm).bind fun k =>
        (va_to_pa k s.np.pgtbl info.va).map fun pa =>
          { kern := k
            p := s.p.proc_add_mapping info.pa info.va PGSIZE info.perm
            np := s.np.proc_add_mapping (PA2VA pa) info.va PGSIZE info.perm }

/-- `copy_pagetable`: the old list of `p` is drained from the front. -/
def copy_pagetable (k : Kern) (p np : Space) : Option CopyState :=
  p.mapping_list.foldlM copy_mapping ⟨k, { p with mapping_list := [] }, np⟩

/-! ## Well-formed address spaces -/

/-- A record maps one whole page. -/
structure RecOk (r : Mapping) : Prop where
  page : KPage r.pa
  low : r.va < MAXVA
  aligned : r.va % PGSIZE = 0
  size : r.size = PGSIZE
  perm : PermOk r.perm

/-- The records for the virtual page of `y`. -/
def recordsAt (l : List Mapping) (y : ℕ) : List Mapping :=
  l.filter fun r => decide (y / PGSIZE = r.va / PGSIZE)

/-- The rights of several records together. -/
def rights (l : List Mapping) : ℕ := (l.map fun r => PTE_FLAGS r.perm).foldr (· ||| ·) 0

/-- The leaf entry `e` of a virtual page whose records are `l`: null without a
record, else valid, pointing to the page of one of them, with the rights of all. -/
structure LeafOk (l : List Mapping) (e : ℕ) : Prop where
  unmapped : l = [] → e = 0
  mapped : l ≠ [] → e &&& PTE_V ≠ 0 ∧ ∃ r ∈ l, PTE2PA e = PTE2PA r.pa
  flags : PTE_FLAGS e = rights l

/-- The pages of an address space with the tables `T`: the tables and the data pages. -/
def Space.owned (p : Space) (T : List ℕ) : List ℕ := T ++ p.mapping_list.map Mapping.pa

/-- **A well-formed address space** with the tables `T`. -/
structure SpaceOk (m : Mem) (p : Space) (T : List ℕ) : Prop where
  table : PtOk m p.pgtbl T
  recs : ∀ r ∈ p.mapping_list, RecOk r
  nodup : (p.owned T).Nodup
  leaves : ∀ y < MAXVA, LeafOk (recordsAt p.mapping_list y) (leaf m p.pgtbl y)

theorem rights_cons (r : Mapping) (l : List Mapping) :
    rights (r :: l) = PTE_FLAGS r.perm ||| rights l := rfl

/-- The rights do not depend on the order of the records. -/
theorem rights_perm {l l' : List Mapping} (h : (l.map Mapping.perm).Perm (l'.map Mapping.perm)) :
    rights l = rights l' := by
  have hp : (l.map fun r => PTE_FLAGS r.perm).Perm (l'.map fun r => PTE_FLAGS r.perm) := by
    have := h.map PTE_FLAGS
    rwa [List.map_map, List.map_map] at this
  exact hp.foldr_op_eq

/-- A new mapping of the page adds its record and keeps the entry in step. -/
theorem LeafOk.add {l : List Mapping} {e pa va size perm : ℕ} (h : LeafOk l e)
    (hperm : PermOk perm) : LeafOk (⟨pa, va, size, perm⟩ :: l) (newEntry e pa perm) := by
  refine ⟨fun h0 => absurd h0 (List.cons_ne_nil _ _), fun _ => ⟨newEntry_valid hperm.valid, _,
    List.mem_cons_self, newEntry_pa hperm⟩, ?_⟩
  rw [newEntry_flags, h.flags, rights_cons, Nat.or_comm]

theorem recordsAt_cons {r : Mapping} {l : List Mapping} {y : ℕ} :
    recordsAt (r :: l) y =
      if y / PGSIZE = r.va / PGSIZE then r :: recordsAt l y else recordsAt l y := by
  simp only [recordsAt, List.filter_cons, decide_eq_true_eq]

theorem mem_recordsAt {l : List Mapping} {r : Mapping} {y : ℕ} :
    r ∈ recordsAt l y ↔ r ∈ l ∧ y / PGSIZE = r.va / PGSIZE := by
  simp only [recordsAt, List.mem_filter, decide_eq_true_eq]

variable {k k' k₁ k₂ : Kern} {p p' np : Space} {T T' N N' : List ℕ} {m m' : Mem}

/-- An empty space. -/
theorem SpaceOk.create {root : ℕ} (hf : Fresh k []) (hc : pgtbl_create k = some (root, k')) :
    SpaceOk k'.mem ⟨root, []⟩ [root] := by
  obtain ⟨-, hok, hzero, -⟩ := pgtbl_create_spec hf hc
  refine ⟨hok, fun r hr => absurd hr List.not_mem_nil, by simp [Space.owned], fun y _ => ?_⟩
  rw [leaf, hzero _ (by simp [path])]
  exact ⟨fun _ => rfl, fun h => absurd rfl h, Nat.zero_and _⟩

/-- Only the tables matter. -/
theorem SpaceOk.congr (h : SpaceOk m p T) (hs : ∀ P ∈ T, SamePage m m' P) : SpaceOk m' p T := by
  refine ⟨h.table.congr hs, h.recs, h.nodup, fun y hy => ?_⟩
  have : leaf m' p.pgtbl y = leaf m p.pgtbl y := h.table.walk_congr hs (by simp)
  rw [this]
  exact h.leaves y hy

/-- The order of the records does not matter. -/
theorem SpaceOk.of_perm {l : List Mapping} (h : SpaceOk m p T) (hl : l.Perm p.mapping_list) :
    SpaceOk m { p with mapping_list := l } T := by
  refine ⟨h.table, fun r hr => h.recs r (hl.mem_iff.mp hr), ?_, fun y hy => ?_⟩
  · exact ((hl.map Mapping.pa).append_left T).nodup_iff.mpr h.nodup
  · have hat : (recordsAt l y).Perm (recordsAt p.mapping_list y) := hl.filter _
    obtain ⟨hun, hmap, hflags⟩ := h.leaves y hy
    refine ⟨fun h0 => hun (by rw [h0] at hat; exact hat.nil_eq.symm), fun h0 => ?_, ?_⟩
    · obtain ⟨hv, r, hr, hpa⟩ := hmap fun h1 => h0 (by rw [h1] at hat; exact hat.eq_nil)
      exact ⟨hv, r, hat.mem_iff.mpr hr, hpa⟩
    · rw [hflags]
      exact rights_perm (hat.symm.map _)

theorem SpaceOk.kpage (h : SpaceOk m p T) {x : ℕ} (hx : x ∈ p.owned T) : KPage x := by
  rcases List.mem_append.mp hx with hx | hx
  · exact h.table.kpage x hx
  · obtain ⟨r, hr, rfl⟩ := List.mem_map.mp hx
    exact (h.recs r hr).page

/-- From `k` to `k'` the space `p` became `p'`, by taking the free pages `N`
and writing to no page but those and its own tables. -/
structure Evolves (k k' : Kern) (p p' : Space) (T T' N : List ℕ) : Prop where
  pages : k.pages = N ++ k'.pages
  root : p'.pgtbl = p.pgtbl
  owned : (p'.owned T').Perm (p.owned T ++ N)
  ok : SpaceOk k'.mem p' T'
  frame : ∀ P, KPage P → P ∉ T → P ∉ N → SamePage k.mem k'.mem P
  tables : ∀ P ∈ T', P ∈ T ∨ P ∈ N

theorem Evolves.refl (h : SpaceOk k.mem p T) : Evolves k k p p T T [] :=
  ⟨rfl, rfl, by simp, h, fun _ _ _ _ => SamePage.refl _ _, fun _ => .inl⟩

theorem Evolves.trans {p₁ p₂ : Space} {T₁ T₂ N₁ N₂ : List ℕ} (h : Evolves k k₁ p p₁ T T₁ N₁)
    (h' : Evolves k₁ k₂ p₁ p₂ T₁ T₂ N₂) : Evolves k k₂ p p₂ T T₂ (N₁ ++ N₂) := by
  refine ⟨by rw [h.pages, h'.pages, List.append_assoc], h'.root.trans h.root, ?_, h'.ok,
    fun P hP hT hN => ?_, fun P hP => ?_⟩
  · refine h'.owned.trans ?_
    rw [← List.append_assoc]
    exact h.owned.append_right N₂
  · rw [List.mem_append, not_or] at hN
    refine (h.frame P hP hT hN.1).trans (h'.frame P hP (fun hT₁ => ?_) hN.2)
    exact (h.tables P hT₁).elim hT hN.1
  · rw [List.mem_append]
    rcases h'.tables P hP with hP | hP
    · exact (h.tables P hP).imp_right .inl
    · exact .inr (.inr hP)

theorem Evolves.fresh (h : Evolves k k' p p' T T' N) (hf : Fresh k (p.owned T)) :
    Fresh k' (p'.owned T') := by
  obtain ⟨hnd, hk⟩ := hf
  rw [h.pages] at hnd hk
  refine ⟨?_, fun x hx => hk x (List.mem_append_right N hx)⟩
  rw [← List.append_assoc] at hnd
  exact (h.owned.append_right k'.pages).nodup_iff.mpr hnd

theorem fresh_tables (hf : Fresh k (p.owned T)) : Fresh k T := by
  refine ⟨?_, hf.kpage⟩
  have := hf.nodup
  rw [Space.owned, List.append_assoc] at this
  rw [List.nodup_append] at this ⊢
  refine ⟨this.1, (List.nodup_append.mp this.2.1).2.1, fun x hx y hy => ?_⟩
  exact this.2.2 x hx y (List.mem_append_right _ hy)

/-! ## Entering one fresh page -/

/-- The state after a page was taken off the free list and written to. -/
theorem SpaceOk.after_kmalloc {pa : ℕ} (h : SpaceOk k.mem p T) (hf : Fresh k (p.owned T))
    (hpages : k.pages = pa :: k₁.pages)
    (hother : ∀ P, KPage P → P ≠ pa → SamePage k.mem k₁.mem P) :
    SpaceOk k₁.mem p T ∧ Fresh k₁ T := by
  have hfree : pa ∈ k.pages := by
    rw [hpages]
    exact List.mem_cons_self
  refine ⟨h.congr fun P hP => hother P (h.table.kpage P hP) ?_, ?_, fun q hq => hf.kpage q ?_⟩
  · exact (List.nodup_append.mp hf.nodup).2.2 P (List.mem_append_left _ hP) pa hfree
  · have := (fresh_tables hf).nodup
    rw [hpages] at this
    exact this.sublist ((List.sublist_cons_self pa _).append_left T)
  · rw [hpages]
    exact List.mem_cons_of_mem pa hq

/-- **One new mapping.** A page `pa` off the free list, written to at will, is
entered at `va` by a mapping function: its leaf law is the hypothesis `hleaf`. -/
theorem Evolves.map_fresh {pa va perm : ℕ} (h : SpaceOk k.mem p T) (hf : Fresh k (p.owned T))
    (hpages : k.pages = pa :: k₁.pages)
    (hother : ∀ P, KPage P → P ≠ pa → SamePage k.mem k₁.mem P)
    (hva : va < MAXVA) (hal : va % PGSIZE = 0) (hperm : PermOk perm)
    (hg : Grows k₁ k' p.pgtbl T N)
    (hleaf : ∀ y < MAXVA, leaf k'.mem p.pgtbl y =
      if y / PGSIZE = va / PGSIZE then newEntry (leaf k₁.mem p.pgtbl y) pa perm
      else leaf k₁.mem p.pgtbl y) :
    Evolves k k' p (p.proc_add_mapping pa va PGSIZE perm) T (T ++ N) (pa :: N) := by
  have hpa : KPage pa := hf.kpage pa (by rw [hpages]; exact List.mem_cons_self)
  have hsame := (h.after_kmalloc hf hpages hother).1
  -- the space owns `pa` and the new tables now
  have howned : ((p.proc_add_mapping pa va PGSIZE perm).owned (T ++ N)).Perm
      (p.owned T ++ (pa :: N)) := by
    rw [List.perm_iff_count]
    intro x
    simp only [Space.owned, Space.proc_add_mapping, List.map_cons, List.count_append,
      List.count_cons]
    omega
  have hpages' : k.pages = (pa :: N) ++ k'.pages := by
    rw [hpages, hg.pages, List.cons_append]
  refine ⟨hpages', rfl, howned, ⟨hg.ok, ?_, ?_, fun y hy => ?_⟩, fun P hP hT hN => ?_,
    fun P hP => ?_⟩
  · intro r hr
    rcases List.mem_cons.mp hr with rfl | hr
    · exact ⟨hpa, hva, hal, rfl, hperm⟩
    · exact h.recs r hr
  · rw [howned.nodup_iff]
    have := hf.nodup
    rw [hpages', ← List.append_assoc] at this
    exact (List.nodup_append.mp this).1
  · have hold := hsame.leaves y hy
    show LeafOk (recordsAt (_ :: p.mapping_list) y) (leaf k'.mem p.pgtbl y)
    rw [recordsAt_cons, hleaf y hy]
    split
    · exact hold.add hperm
    · exact hold
  · rw [List.mem_cons, not_or] at hN
    exact (hother P hP hN.1).trans (hg.frame P hP hT hN.2)
  · exact (List.mem_append.mp hP).imp_right (List.mem_cons_of_mem pa)

/-! ## `alloc_vm` -/

/-- What `kmalloc` and `memset` change: the page they return. -/
theorem zeroed_other {pa : ℕ} (hf : Fresh k T) (hk : kmalloc k PGSIZE = some (pa, k₁)) {P : ℕ}
    (hP : KPage P) (hne : P ≠ pa) : SamePage k.mem (k₁.memset pa 0 PGSIZE).mem P := by
  have hpa : KPage pa := hf.kpage pa (by rw [(kmalloc_eq_some hk).1]; exact List.mem_cons_self)
  exact (samePage_kmalloc hk hpa.aligned hP.aligned hne).trans
    (samePage_fill hP.aligned hpa.aligned hne)

/-- **All that a turn of `alloc_vm` does.** -/
theorem alloc_vm_body_cases {perm : ℕ} {s s' : AllocLoop} (hb : alloc_vm_body perm s = some s') :
    ∃ pa k₁ k', kmalloc s.kern PGSIZE = some (pa, k₁) ∧
      s.kern.pages = pa :: (k₁.memset pa 0 PGSIZE).pages ∧
      map_single_page (k₁.memset pa 0 PGSIZE) s.proc.pgtbl s.caddr pa perm = some k' ∧
      s' = ⟨(s.caddr + PGSIZE) % 2 ^ 64, k', s.proc.proc_add_mapping pa s.caddr PGSIZE perm⟩ := by
  obtain ⟨⟨pa, k₁⟩, hk, hb⟩ := Option.bind_eq_some_iff.mp hb
  dsimp only at hb
  split at hb
  · cases hb
  · obtain ⟨k', hmap, rfl⟩ := Option.map_eq_some_iff.mp hb
    exact ⟨pa, k₁, k', hk, (kmalloc_eq_some hk).1, hmap, rfl⟩

/-- One turn of `alloc_vm`: one fresh page is entered at the cursor. -/
theorem alloc_vm_body_spec {perm : ℕ} {s s' : AllocLoop} (h : SpaceOk s.kern.mem s.proc T)
    (hf : Fresh s.kern (s.proc.owned T)) (hva : s.caddr < MAXVA) (hal : s.caddr % PGSIZE = 0)
    (hperm : PermOk perm) (hb : alloc_vm_body perm s = some s') :
    s'.caddr = s.caddr + PGSIZE ∧
      ∃ T' N, N.length ≤ 3 ∧ Evolves s.kern s'.kern s.proc s'.proc T T' N := by
  obtain ⟨pa, k₁, k', hk, hpages, hmap, rfl⟩ := alloc_vm_body_cases hb
  have hother := fun P hP hne => zeroed_other (P := P) hf hk hP hne
  obtain ⟨h₁, hf₁⟩ := h.after_kmalloc hf hpages hother
  obtain ⟨N, hN, hg, hw⟩ := map_single_page_spec h₁.table hf₁ hperm.lt hmap
  refine ⟨?_, T ++ N, pa :: N, Nat.succ_le_succ hN, Evolves.map_fresh h hf hpages hother hva
    hal hperm hg fun y hy => leaf_map_single_page hva hw hy⟩
  dsimp only
  unfold MAXVA PGSIZE at *
  omega

/-- **`alloc_vm`** on page-aligned addresses below `2^47` keeps the address
space well-formed, whatever was mapped in the range before. -/
theorem alloc_vm_spec {start end_ perm : ℕ} {s : AllocLoop} (h : SpaceOk k.mem p T)
    (hf : Fresh k (p.owned T)) (hal : start % PGSIZE = 0) (hend : end_ ≤ MAXVA)
    (hperm : PermOk perm) (hs : alloc_vm k p start end_ perm = some s) :
    ∃ T' N, Evolves k s.kern p s.proc T T' N := by
  have hup : PGROUNDUP end_ ≤ MAXVA := by
    unfold MAXVA at hend
    rw [PGROUNDUP_eq (by unfold PGSIZE; omega)]
    unfold MAXVA PGSIZE
    omega
  -- every turn replaces the entry of one page
  obtain ⟨⟨-, T', N, hev⟩, -⟩ := loop_inv
    (fun s => s.caddr % PGSIZE = 0 ∧ ∃ T' N, Evolves k s.kern p s.proc T T' N)
    (fun s s' hinv hc hb => by
      obtain ⟨hal, T₁, N₁, hev⟩ := hinv
      have hc : s.caddr < PGROUNDUP end_ := of_decide_eq_true hc
      obtain ⟨hnext, T₂, N₂, -, hev₂⟩ :=
        alloc_vm_body_spec hev.ok (hev.fresh hf) (by omega) hal hperm hb
      refine ⟨?_, T₂, N₁ ++ N₂, hev.trans hev₂⟩
      rw [hnext]
      unfold PGSIZE at *
      omega)
    ⟨hal, T, [], Evolves.refl h⟩ hs
  exact ⟨T', N, hev⟩

theorem alloc_vm_body_isSome (perm : ℕ) {s : AllocLoop} (hf : Fresh s.kern T)
    (hlen : 3 ≤ s.kern.pages.length) : ∃ s', alloc_vm_body perm s = some s' := by
  obtain ⟨pa, rest, hpages⟩ := List.exists_cons_of_length_pos (show 0 < s.kern.pages.length by omega)
  have hpa : KPage pa := hf.kpage pa (by rw [hpages]; exact List.mem_cons_self)
  have hk := kmalloc_of_cons (le_refl (PGSIZE : ℤ)) hpages
  obtain ⟨k', hk'⟩ := map_single_page_isSome
    (k := Kern.memset { mem := s.kern.mem.fill pa PGSIZE 5, pages := rest } pa 0 PGSIZE)
    s.proc.pgtbl s.caddr pa perm (by rw [hpages] at hlen; simpa using hlen)
  exact ⟨_, by rw [alloc_vm_body, hk, Option.bind_some, if_neg hpa.ne_zero, hk', Option.map_some]⟩

/-- With three free pages for every page of the range, `alloc_vm` returns. -/
theorem alloc_vm_isSome {start end_ perm : ℕ} (h : SpaceOk k.mem p T) (hf : Fresh k (p.owned T))
    (hal : start % PGSIZE = 0) (hend : end_ ≤ MAXVA) (hperm : PermOk perm)
    (hlen : 3 * ((PGROUNDUP end_ - start) / PGSIZE) ≤ k.pages.length) :
    ∃ s, alloc_vm k p start end_ perm = some s := by
  have hup : PGROUNDUP end_ ≤ MAXVA ∧ PGROUNDUP end_ % PGSIZE = 0 := by
    unfold MAXVA at hend
    rw [PGROUNDUP_eq (by unfold PGSIZE; omega)]
    unfold MAXVA PGSIZE
    omega
  obtain ⟨hup, hupal⟩ := hup
  obtain ⟨s, hs, -, -⟩ := loop_spec (c := fun s : AllocLoop => decide (s.caddr < PGROUNDUP end_))
    (f := alloc_vm_body perm) (n := 2 ^ 50 + 1) (s := ⟨start, k, p⟩)
    (fun s => s.caddr % PGSIZE = 0 ∧
      3 * ((PGROUNDUP end_ - s.caddr) / PGSIZE) ≤ s.kern.pages.length ∧
      ∃ T' N, Evolves k s.kern p s.proc T T' N)
    (fun s => (PGROUNDUP end_ - s.caddr) / PGSIZE)
    (fun s hinv hc => by
      obtain ⟨hal, hlen, T₁, N₁, hev⟩ := hinv
      have hc : s.caddr < PGROUNDUP end_ := of_decide_eq_true hc
      -- the cursor and the end are multiples of the page size
      have hturn : (PGROUNDUP end_ - s.caddr) / PGSIZE
          = (PGROUNDUP end_ - (s.caddr + PGSIZE)) / PGSIZE + 1 := by
        unfold PGSIZE at *
        omega
      have hfr := hev.fresh hf
      obtain ⟨s', hb⟩ := alloc_vm_body_isSome perm hfr (by
        unfold PGSIZE at *
        omega)
      obtain ⟨hnext, T₂, N₂, hN₂, hev₂⟩ :=
        alloc_vm_body_spec hev.ok hfr (by omega) hal hperm hb
      have hpages := congrArg List.length hev₂.pages
      rw [List.length_append] at hpages
      refine ⟨s', hb, ⟨?_, ?_, T₂, N₁ ++ N₂, hev.trans hev₂⟩, ?_⟩
      · rw [hnext]
        unfold PGSIZE at *
        omega
      · rw [hnext]
        omega
      · rw [hnext]
        omega)
    ⟨hal, hlen, T, [], Evolves.refl h⟩
    (by
      dsimp only
      unfold MAXVA PGSIZE at *
      omega)
  exact ⟨s, hs⟩

/-! ## `copy_from_va` -/

/-- The page behind a virtual address, as the kernel sees it. -/
def backing (m : Mem) (root va : ℕ) : ℕ := PA2VA (PTE2PA (leaf m root va))

/-- A whole page at once: the first turn copies it and the second test ends the loop. -/
theorem copy_from_va_loop_page {root dst va : ℕ} (fuel : ℕ) (h : PtOk k.mem root T)
    (hva : va < MAXVA) (hal : va % PGSIZE = 0) (hmapped : leaf k.mem root va &&& PTE_V ≠ 0)
    (hpa : PTE2PA (leaf k.mem root va) ≠ 0) :
    loop (fun s => decide (s.len > 0 ∧ s.ret = none)) (copy_from_va_body root) (fuel + 1 + 1)
      ⟨k, dst, va, PGSIZE, none⟩ =
    some ⟨{ k with mem := k.mem.copy dst (backing k.mem root va) PGSIZE },
      (dst + PGSIZE) % 2 ^ 64, (va + PGSIZE) % 2 ^ 64, 0, none⟩ := by
  have hdown : PGROUNDDOWN va = va := PGROUNDDOWN_of_aligned (by unfold MAXVA at hva; omega) hal
  have hto : va_to_pa k root va = some (PTE2PA (leaf k.mem root va)) := by
    rw [va_to_pa_spec h hva, PageTable.translate, if_neg hmapped, hal, Nat.add_zero]
  have hbody : copy_from_va_body root ⟨k, dst, va, PGSIZE, none⟩ =
      some ⟨{ k with mem := k.mem.copy dst (backing k.mem root va) PGSIZE },
        (dst + PGSIZE) % 2 ^ 64, (va + PGSIZE) % 2 ^ 64, 0, none⟩ := by
    simp only [copy_from_va_body, hdown, hto, Option.map_some, hpa, if_false, Nat.sub_self,
      Nat.sub_zero, Nat.add_zero, gt_iff_lt, Nat.lt_irrefl, Kern.memmove, backing]
  rw [loop_succ, if_pos (by simp), hbody, Option.bind_some, loop_succ, if_neg (by simp)]

theorem copy_from_va_page {root dst va : ℕ} (h : PtOk k.mem root T) (hva : va < MAXVA)
    (hal : va % PGSIZE = 0) (hmapped : leaf k.mem root va &&& PTE_V ≠ 0)
    (hpa : PTE2PA (leaf k.mem root va) ≠ 0) :
    copy_from_va k root dst va PGSIZE =
      some (0, { k with mem := k.mem.copy dst (backing k.mem root va) PGSIZE }) := by
  rw [copy_from_va, show PGSIZE + 1 = 16383 + 1 + 1 from rfl,
    copy_from_va_loop_page 16383 h hva hal hmapped hpa]
  rfl

/-- In a well-formed space a recorded page is mapped, and what is behind it is
the page of one of the records. -/
theorem SpaceOk.backing_mem (h : SpaceOk m p T) {y : ℕ} (hy : y < MAXVA)
    (hrec : recordsAt p.mapping_list y ≠ []) :
    leaf m p.pgtbl y &&& PTE_V ≠ 0 ∧ PTE2PA (leaf m p.pgtbl y) ≠ 0 ∧
      ∃ r ∈ recordsAt p.mapping_list y, backing m p.pgtbl y = r.pa := by
  obtain ⟨hvalid, r, hr, hpa⟩ := (h.leaves y hy).mapped hrec
  have hkp := (h.recs r (mem_recordsAt.mp hr).1).page
  refine ⟨hvalid, by rw [hpa]; exact hkp.PTE2PA_ne_zero, r, hr, ?_⟩
  rw [backing, hpa, hkp.PA2VA_PTE2PA]

end Loos.AddrSpace
