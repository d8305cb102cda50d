/-
The memory of a running system: address spaces over one stock of pages.

A state is the kernel's memory and free list, the address spaces of the
processes, and the pages that the rest of the kernel holds. A run creates
spaces, extends them with `alloc_vm`, forks them with `copy_pagetable` and
frees them with `pgtbl_free`, while processes write to their data pages and the
rest of the kernel takes, writes and returns pages of its own (`malloc` gets its
memory that way). [`Inv`] holds in every state of every such run: the stock is
split between the holders and the free list, and every space is well-formed.

The list `owned` of a process is a ghost: it collects what left the free list
while the space was built, and no function of the code reads it.
-/
import Loos.CopySpace
import Loos.PgtblFree
import Loos.Lib.Ownership
import Loos.Lib.Runs

set_option autoImplicit false

namespace Loos.Vm

open SysLib Kern PageTable AddrSpace

/-! ## States and events -/

/-- An address space and the pages allocated for it. -/
structure Proc where
  space : Space
  owned : List ℕ

/-- The machine, the processes, and the pages of the rest of the kernel. -/
structure Sys where
  kern : Kern
  procs : ℕ → Option Proc
  others : List ℕ

/-- Before the first process. -/
def boot (k : Kern) : Sys := ⟨k, fun _ => none, []⟩

/-- A machine with `n` free pages, every second page from physical address `0x80000000` on. -/
def spare (n : ℕ) : Kern :=
  ⟨fun _ => 0, (List.range n).map fun i => MAIN_KERNEL_DMW ||| (0x80000000 + i * 0x8000)⟩

/-- What happens to the memory. -/
inductive Event where
  | create (i : ℕ)
  | alloc (i start end_ perm : ℕ)
  | fork (i j : ℕ)
  | free (i : ℕ)
  | store (i x : ℕ) (c : UInt8)
  | take
  | poke (x : ℕ) (c : UInt8)
  | give (x : ℕ)

/-- The range is page-aligned and below `2^47`, the rights are valid. -/
def Event.Admissible : Event → Prop
  | .alloc _ start end_ perm => start % PGSIZE = 0 ∧ end_ ≤ MAXVA ∧ PermOk perm
  | _ => True

/-- `x` is a byte of the page `P`. -/
def InPage (P x : ℕ) : Prop := P ≤ x ∧ x < P + PGSIZE

instance (P x : ℕ) : Decidable (InPage P x) := inferInstanceAs (Decidable (_ ∧ _))

/-- The processes with that of `i` replaced. -/
def Sys.set (s : Sys) (i : ℕ) (p : Option Proc) : ℕ → Option Proc := Function.update s.procs i p

/-- One event; `none` if it is not possible or ends in a `panic`. -/
def step (s : Sys) : Event → Option Sys
  | .create i =>
    match s.procs i with
    | some _ => none
    | none => (pgtbl_create s.kern).map fun r =>
      { s with kern := r.2, procs := s.set i (some ⟨⟨r.1, []⟩, taken s.kern r.2⟩) }
  | .alloc i start end_ perm =>
    (s.procs i).bind fun p => (alloc_vm s.kern p.space start end_ perm).map fun a =>
      { s with kern := a.kern, procs := s.set i (some ⟨a.proc, p.owned ++ taken s.kern a.kern⟩) }
  | .fork i j =>
    match s.procs i, s.procs j with
    | some p, none => (pgtbl_create s.kern).bind fun r =>
      (copy_pagetable r.2 p.space ⟨r.1, []⟩).map fun c =>
        { s with
          kern := c.kern
          procs := Function.update (s.set i (some ⟨c.p, p.owned⟩)) j
            (some ⟨c.np, taken s.kern c.kern⟩) }
    | _, _ => none
  | .free i =>
    (s.procs i).bind fun p => (pgtbl_free s.kern p.space).map fun f =>
      { s with kern := f.kern, procs := s.set i none }
  | .store i x c =>
    (s.procs i).bind fun p =>
      if ∃ r ∈ p.space.mapping_list, InPage r.pa x then
        some { s with kern := { s.kern with mem := s.kern.mem.poke x c } }
      else none
  | .take => (kmalloc s.kern PGSIZE).map fun r => { s with kern := r.2, others := r.1 :: s.others }
  | .poke x c =>
    if ∃ P ∈ s.others, InPage P x then
      some { s with kern := { s.kern with mem := s.kern.mem.poke x c } }
    else none
  | .give x =>
    if x ∈ s.others then
      (s.kern.kfree x).map fun k => { s with kern := k, others := s.others.erase x }
    else none

/-! ## The invariant -/

/-- The pages held by the process `i`, or by the rest of the kernel. -/
def Sys.held (s : Sys) : Option ℕ → List ℕ
  | none => s.others
  | some i => match s.procs i with
    | some p => p.owned
    | none => []

/-- The address space of `p` is well-formed, and its pages are those allocated for it. -/
def ProcOk (m : Mem) (p : Proc) : Prop :=
  ∃ T, SpaceOk m p.space T ∧ p.owned.Perm (p.space.owned T)

/-- What holds in every state of a run over the stock `all`. -/
structure Inv (all : List ℕ) (s : Sys) : Prop where
  kpage : ∀ x ∈ all, KPage x
  parts : Parts all s.held s.kern.pages
  procs : ∀ i p, s.procs i = some p → ProcOk s.kern.mem p

variable {all : List ℕ} {s s' : Sys} {e : Event} {es : List Event} {k k' : Kern} {i j : ℕ}
  {p p' : Proc} {T T' N : List ℕ} {m m' : Mem}

theorem held_some (h : s.procs i = some p) : s.held (some i) = p.owned := by
  rw [Sys.held, h]

theorem held_none (h : s.procs i = none) : s.held (some i) = [] := by
  rw [Sys.held, h]

/-- A process whose table pages are untouched is as well-formed as before. -/
theorem ProcOk.congr (h : ProcOk m p) (hs : ∀ P, KPage P → P ∈ p.owned → SamePage m m' P) :
    ProcOk m' p := by
  obtain ⟨T, hok, hperm⟩ := h
  refine ⟨T, hok.congr fun P hP => hs P (hok.table.kpage P hP) ?_, hperm⟩
  rw [hperm.mem_iff]
  exact List.mem_append_left _ hP

/-- Nothing of a holder's pages is free. -/
theorem Inv.fresh (h : Inv all s) (a : Option ℕ) : Fresh s.kern (s.held a) :=
  ⟨h.parts.nodup_append a, fun x hx => h.kpage x (h.parts.mem_all_of_free hx)⟩

/-- **A step of one holder.** The holder `a` changes pages it holds or has just
taken, and nobody else is changed. -/
theorem Inv.of_local (h : Inv all s) (a : Option ℕ) (hparts : Parts all s'.held s'.kern.pages)
    (hframe : ∀ P, KPage P → P ∉ s.held a → P ∉ s.kern.pages → SamePage s.kern.mem s'.kern.mem P)
    (hprocs : ∀ i p, s'.procs i = some p →
      (some i ≠ a ∧ s.procs i = some p) ∨ ProcOk s'.kern.mem p) : Inv all s' := by
  refine ⟨h.kpage, hparts, fun i p hp => ?_⟩
  rcases hprocs i p hp with ⟨hne, hp⟩ | hok
  · refine (h.procs i p hp).congr fun P hk hP => hframe P hk ?_ ?_
    · exact fun ha => hne (h.parts.apart (some i) a P (by rwa [held_some hp]) ha)
    · exact h.parts.not_free (some i) P (by rwa [held_some hp])
  · exact hok

/-! ## The steps -/

/-- A step that concerns process `i` only leaves the other holders theirs. -/
theorem held_other (ho : s'.others = s.others) (hp : ∀ j ≠ i, s'.procs j = s.procs j) :
    ∀ b, b ≠ some i → s'.held b = s.held b := by
  rintro (_ | j) hb
  · exact ho
  · rw [Sys.held, Sys.held, hp j fun e => hb (e ▸ rfl)]

/-- Process `i` is new or has grown by the pages `N`. -/
theorem Inv.grow (h : Inv all s) (hpages : s.kern.pages = N ++ s'.kern.pages)
    (ho : s'.others = s.others) (hp' : s'.procs i = some p')
    (hother : ∀ j ≠ i, s'.procs j = s.procs j) (hown : p'.owned = s.held (some i) ++ N)
    (hframe : ∀ P, KPage P → P ∉ s.held (some i) → P ∉ N → SamePage s.kern.mem s'.kern.mem P)
    (hok : ProcOk s'.kern.mem p') : Inv all s' := by
  refine h.of_local (some i) ?_ (fun P hP hn hf => hframe P hP hn fun hN => hf ?_)
    fun j p hp => ?_
  · refine (hpages ▸ h.parts).take (held_other ho hother) ?_
    rw [held_some hp', hown]
  · rw [hpages]
    exact List.mem_append_left _ hN
  · by_cases hji : j = i
    · subst hji
      rw [hp'] at hp
      exact .inr (Option.some.inj hp ▸ hok)
    · rw [hother j hji] at hp
      exact .inl ⟨fun e => hji (Option.some.inj e), hp⟩

theorem set_self (v : Option Proc) : s.set i v i = v := Function.update_self ..

theorem set_other (v : Option Proc) (h : j ≠ i) : s.set i v j = s.procs j :=
  Function.update_of_ne h ..

theorem Inv.fresh_nil (h : Inv all s) : Fresh s.kern [] :=
  ⟨h.parts.free_nodup, fun x hx => h.kpage x (h.parts.mem_all_of_free hx)⟩

theorem Inv.create (h : Inv all s) (hs : step s (.create i) = some s') : Inv all s' := by
  simp only [step] at hs
  split at hs
  · cases hs
  · next hi =>
    obtain ⟨⟨root, k'⟩, hc, rfl⟩ := Option.map_eq_some_iff.mp hs
    obtain ⟨hpages, -, -, hframe⟩ := pgtbl_create_spec h.fresh_nil hc
    have htaken : taken s.kern k' = [root] := taken_eq hpages
    refine h.grow (N := [root]) hpages rfl (set_self _) (fun j hj => set_other _ hj) ?_
      (fun P hP _ hN => hframe P hP (by simpa using hN)) ⟨[root], SpaceOk.create h.fresh_nil hc, ?_⟩
    · dsimp only
      rw [held_none hi, htaken, List.nil_append]
    · dsimp only
      rw [htaken]
      exact List.Perm.refl _

theorem Inv.alloc {start end_ perm : ℕ} (h : Inv all s)
    (he : (Event.alloc i start end_ perm).Admissible)
    (hs : step s (.alloc i start end_ perm) = some s') : Inv all s' := by
  obtain ⟨p, hp, hs⟩ := Option.bind_eq_some_iff.mp hs
  obtain ⟨a, ha, rfl⟩ := Option.map_eq_some_iff.mp hs
  obtain ⟨hal, hend, hperm⟩ := he
  obtain ⟨T, hok, hown⟩ := h.procs i p hp
  have hf := h.fresh (some i)
  rw [held_some hp] at hf
  obtain ⟨T', N, hev⟩ := alloc_vm_spec hok (hf.perm hown) hal hend hperm ha
  have htaken : taken s.kern a.kern = N := taken_eq hev.pages
  refine h.grow (N := N) hev.pages rfl (set_self _) (fun j hj => set_other _ hj) ?_
    (fun P hP hn hN => hev.frame P hP (fun hT => hn ?_) hN) ⟨T', hev.ok, ?_⟩
  · dsimp only
    rw [held_some hp, htaken]
  · rw [held_some hp, hown.mem_iff]
    exact List.mem_append_left _ hT
  · dsimp only
    rw [htaken]
    exact (hown.append_right N).trans hev.owned.symm

/-! ### fork -/

/-- The parent and the empty child between `pgtbl_create` and `copy_pagetable`. -/
structure Forking (s : Sys) (p : Proc) (T : List ℕ) (root : ℕ) (k₁ : Kern) : Prop where
  pages : s.kern.pages = root :: k₁.pages
  parent : SpaceOk k₁.mem p.space T
  child : SpaceOk k₁.mem ⟨root, []⟩ [root]
  apart : Apart k₁ p.space ⟨root, []⟩ T [root]
  frame : ∀ P, KPage P → P ≠ root → SamePage s.kern.mem k₁.mem P

theorem Inv.forking {root : ℕ} {k₁ : Kern} (h : Inv all s) (hp : s.procs i = some p)
    (hok : SpaceOk s.kern.mem p.space T) (hown : p.owned.Perm (p.space.owned T))
    (hc : pgtbl_create s.kern = some (root, k₁)) : Forking s p T root k₁ := by
  obtain ⟨hpages, -, -, hframe⟩ := pgtbl_create_spec h.fresh_nil hc
  have hf := h.fresh (some i)
  rw [held_some hp] at hf
  refine ⟨hpages, hok.congr fun P hP => hframe P (hok.table.kpage P hP) ?_,
    SpaceOk.create h.fresh_nil hc, (hf.perm hown).of_pages (N := [root]) hpages, hframe⟩
  rintro rfl
  refine (List.nodup_append.mp hf.nodup).2.2 P ?_ P (by rw [hpages]; exact List.mem_cons_self) rfl
  rw [hown.mem_iff]
  exact List.mem_append_left _ hP

theorem Inv.fork (h : Inv all s) (hs : step s (.fork i j) = some s') : Inv all s' := by
  simp only [step] at hs
  split at hs
  · next p hp hj =>
    obtain ⟨⟨root, k₁⟩, hc, hs⟩ := Option.bind_eq_some_iff.mp hs
    obtain ⟨c, hcopy, rfl⟩ := Option.map_eq_some_iff.mp hs
    obtain ⟨T, hok, hown⟩ := h.procs i p hp
    obtain ⟨hpages, hpar, hchild, hap, hframe⟩ := h.forking hp hok hown hc
    obtain ⟨hcp, ⟨T', N, -, hev⟩, -, -⟩ := copy_pagetable_spec hpar hchild hap rfl hcopy
    have hij : i ≠ j := by
      rintro rfl
      rw [hp] at hj
      cases hj
    have hpages' : s.kern.pages = (root :: N) ++ c.kern.pages := by
      rw [hpages, hev.pages, List.cons_append]
    have htaken : taken s.kern c.kern = root :: N := taken_eq hpages'
    -- the parent: the same records in the opposite order
    have hpar' : ProcOk c.kern.mem ⟨c.p, p.owned⟩ := by
      have hsame := hpar.congr fun P hP => hev.parent_same hap hpar (List.mem_append_left _ hP)
      refine ⟨T, ?_, ?_⟩
      · rw [hcp]
        exact hsame.of_perm (List.reverse_perm _)
      · rw [hcp]
        exact hown.trans (((List.reverse_perm _).map _).symm.append_left T)
    have hchild' : ProcOk c.kern.mem ⟨c.np, taken s.kern c.kern⟩ :=
      ⟨T', hev.ok, by rw [htaken]; exact hev.owned.symm⟩
    refine h.of_local (some j) ?_ (fun P hP hn hf => ?_) fun l q hq => ?_
    · refine (hpages' ▸ h.parts).take (a := some j) ?_ ?_
      · rintro (_ | l) hl
        · rfl
        · have hlj : l ≠ j := fun e => hl (e ▸ rfl)
          simp only [Sys.held, Function.update_of_ne hlj]
          by_cases hli : l = i
          · subst hli
            rw [set_self, hp]
          · rw [set_other _ hli]
      · rw [held_none hj, List.nil_append]
        simp only [Sys.held, Function.update_self, htaken]
        exact List.Perm.refl _
    · rw [hpages'] at hf
      rw [List.cons_append, List.mem_cons, List.mem_append, not_or, not_or] at hf
      exact (hframe P hP hf.1).trans (hev.frame P hP (by simpa using hf.1) hf.2.1)
    · by_cases hlj : l = j
      · subst hlj
        simp only [Function.update_self, Option.some.injEq] at hq
        exact .inr (hq ▸ hchild')
      · simp only [Function.update_of_ne hlj] at hq
        by_cases hli : l = i
        · subst hli
          rw [set_self, Option.some.injEq] at hq
          exact .inr (hq ▸ hpar')
        · rw [set_other _ hli] at hq
          exact .inl ⟨fun e => hlj (Option.some.inj e), hq⟩
  · cases hs

/-! ### The other steps -/

theorem Inv.free (h : Inv all s) (hs : step s (.free i) = some s') : Inv all s' := by
  obtain ⟨p, hp, hs⟩ := Option.bind_eq_some_iff.mp hs
  obtain ⟨f, hf, rfl⟩ := Option.map_eq_some_iff.mp hs
  obtain ⟨T, hok, hown⟩ := h.procs i p hp
  obtain ⟨f', hf', hfrees, hperm, -⟩ := pgtbl_free_spec (k := s.kern) hok
  obtain rfl : f' = f := Option.some.inj (hf'.symm.trans hf)
  have hdrops : (Radix.drops (freeLog s.kern.mem p.space)).Perm p.owned := hperm.trans hown.symm
  refine h.of_local (some i) ?_ (fun P hP hn _ => hfrees.frame P hP ?_) fun j q hq => ?_
  · refine h.parts.give (a := some i) (N := Radix.drops (freeLog s.kern.mem p.space))
      (held_other rfl fun j hj => set_other _ hj) ?_ ?_
    · rw [held_some hp, held_none (set_self none), List.append_nil]
      exact hdrops.symm
    · rw [hfrees.pages]
      exact (List.reverse_perm _).append_right _
  · rw [hdrops.mem_iff, ← held_some hp]
    exact hn
  · by_cases hji : j = i
    · subst hji
      exact absurd ((set_self none).symm.trans hq) (by simp)
    · exact .inl ⟨fun e => hji (Option.some.inj e), (set_other none hji).symm.trans hq⟩

theorem samePage_poke {P Q x : ℕ} {c : UInt8} (hP : P % PGSIZE = 0) (hQ : Q % PGSIZE = 0)
    (hne : P ≠ Q) (hx : InPage Q x) : SamePage m (m.poke x c) P := by
  intro y h1 h2
  have hd := Memblock.aligned_disjoint hP hQ hne
  obtain ⟨h3, h4⟩ := hx
  rw [Mem.poke, if_neg (by omega)]

theorem Inv.store {x : ℕ} {c : UInt8} (h : Inv all s) (hs : step s (.store i x c) = some s') :
    Inv all s' := by
  obtain ⟨p, hp, hs⟩ := Option.bind_eq_some_iff.mp hs
  dsimp only at hs
  split at hs
  · next hx =>
    obtain ⟨r, hr, hx⟩ := hx
    obtain rfl := Option.some.inj hs
    obtain ⟨T, hok, hown⟩ := h.procs i p hp
    have hkr := (hok.recs r hr).page
    refine h.of_local (some i) h.parts (fun P hP hn _ => samePage_poke hP.aligned hkr.aligned
      (fun e => hn ?_) hx) fun j q hq => ?_
    · rw [held_some hp, hown.mem_iff, e]
      exact List.mem_append_right _ (List.mem_map_of_mem hr)
    · by_cases hji : j = i
      · subst hji
        obtain rfl : p = q := Option.some.inj (hp.symm.trans hq)
        -- a data page is no table
        refine .inr ⟨T, hok.congr fun P hP => samePage_poke (hok.table.kpage P hP).aligned
          hkr.aligned (fun e => ?_) hx, hown⟩
        exact (List.nodup_append.mp hok.nodup).2.2 P hP r.pa (List.mem_map_of_mem hr) e
      · exact .inl ⟨fun e => hji (Option.some.inj e), hq⟩
  · cases hs

theorem Inv.take (h : Inv all s) (hs : step s .take = some s') : Inv all s' := by
  obtain ⟨⟨x, k'⟩, hk, rfl⟩ := Option.map_eq_some_iff.mp hs
  have hpages := (kmalloc_eq_some hk).1
  refine h.of_local none ?_ (fun P hP _ hf => ?_) fun j q hq => .inl ⟨by simp, hq⟩
  · have hparts : Parts all s.held ([x] ++ k'.pages) := by
      rw [List.singleton_append, ← hpages]
      exact h.parts
    refine hparts.take (a := none) (fun b hb => ?_) (List.perm_append_singleton x s.others).symm
    cases b with
    | none => exact absurd rfl hb
    | some j => rfl
  · have hx : x ∈ s.kern.pages := by
      rw [hpages]
      exact List.mem_cons_self
    exact samePage_kmalloc hk (h.kpage x (h.parts.mem_all_of_free hx)).aligned hP.aligned
      fun e => hf (e ▸ hx)

theorem Inv.poke {x : ℕ} {c : UInt8} (h : Inv all s) (hs : step s (.poke x c) = some s') :
    Inv all s' := by
  simp only [step] at hs
  split at hs
  · next hx =>
    obtain ⟨Q, hQ, hx⟩ := hx
    obtain rfl := Option.some.inj hs
    refine h.of_local none h.parts (fun P hP hn _ => samePage_poke hP.aligned
      (h.kpage Q (h.parts.mem_all_of_own (a := none) hQ)).aligned (fun e => hn (e ▸ hQ)) hx)
      fun j q hq => .inl ⟨by simp, hq⟩
  · cases hs

theorem Inv.give {x : ℕ} (h : Inv all s) (hs : step s (.give x) = some s') : Inv all s' := by
  simp only [step] at hs
  split at hs
  · next hx =>
    obtain ⟨k', hk, rfl⟩ := Option.map_eq_some_iff.mp hs
    obtain ⟨hpages, hsame⟩ := kfree_spec hk
    refine h.of_local none ?_ (fun P hP hn _ => hsame P hP.aligned fun e => hn (e ▸ hx))
      fun j q hq => .inl ⟨by simp, hq⟩
    refine h.parts.give (a := none) (N := [x]) (fun b hb => ?_) (List.perm_cons_erase hx)
      (.of_eq hpages)
    cases b with
    | none => exact absurd rfl hb
    | some j => rfl
  · cases hs

/-- **The step lemma.** -/
theorem Inv.of_step (h : Inv all s) (he : e.Admissible) (hs : step s e = some s') :
    Inv all s' := by
  cases e with
  | create i => exact h.create hs
  | alloc i start end_ perm => exact h.alloc he hs
  | fork i j => exact h.fork hs
  | free i => exact h.free hs
  | store i x c => exact h.store hs
  | take => exact h.take hs
  | poke x c => exact h.poke hs
  | give x => exact h.give hs

theorem spare_fresh {n : ℕ} (hn : n ≤ 2 ^ 16) : Fresh (spare n) [] :=
  fresh_row hn (by decide) (by decide) (by decide)

theorem Inv.boot {k : Kern} (hf : Fresh k []) : Inv k.pages (boot k) := by
  refine ⟨hf.kpage, Parts.init hf.nodup fun a => ?_, fun i p hp => by cases hp⟩
  cases a <;> rfl

/-- **The run lemma.** -/
theorem Inv.of_run {k₀ : Kern} (hf : Fresh k₀ []) (hes : ∀ e ∈ es, e.Admissible)
    (hrun : run step (Vm.boot k₀) es = some s) : Inv k₀.pages s :=
  run_invariant (fun _ e => e.Admissible) (Inv k₀.pages)
    (fun _ _ _ hs he hstep => hs.of_step he hstep) (Inv.boot hf)
    (.of_forall_mem fun e he _ => hes e he) hrun

end Loos.Vm
