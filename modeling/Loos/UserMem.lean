/-
What `exec`, `fork` and `sys_mmap` give to a process.

`exec` builds an address space out of fresh pages and writes the stack of the program through
it; `fork` copies the mapped pages of the parent and then corrects the stack of the child.
`sys_mmap` is different: the page comes straight from `kmalloc`, its address is one of the
direct window, which no page table translates, and no record says who asked for it. A process
keeps the addresses it was given, here in `ranges`, and so does its child.

A run is any sequence of these, of stores by the processes, and of the rest of the kernel
taking, writing and returning pages of its own; the pages for descriptors, for inodes and for
`malloc` come from there. [`Inv`] holds along every run whose steps meet [`Proper`]:
every page has one holder. The list `owned` is a ghost, as in `Vm`.
-/
import Loos.Growth
import Loos.LoadFile
import Loos.SharedPages
import Loos.Vm

set_option autoImplicit false

namespace Loos.UserMem

open SysLib Kern PageTable AddrSpace Image ElfLoader LoadFile SharedPages Growth
open Vm (InPage samePage_poke)

/-! ## The code -/

def ARGS_MAX : ℕ := 8
def ENVS_MAX : ℕ := 16
def USER_STACK_TOP : ℕ := 0x7FFF0000

/-- `struct context`: 31 registers, `ra` the first and `sp` the third. -/
def sizeof_context : ℕ := 248

/-- `struct trapframe`: 31 registers, `sp` the third and `a0` the fourth, `prmd` and `era`. -/
def sizeof_trapframe : ℕ := 264

/-- Where the context of a process that does not run is kept. -/
def context : ℕ := USER_STACK_TOP - sizeof_context

/-- `copy_to_va` of a word. -/
def put_word (root : ℕ) (k : Kern) (w : ℕ × ℕ) : Option Kern :=
  (copy_to_va k root (w.1 % 2 ^ 64) (bytesOf (le 8 w.2)) 8).map Prod.snd

/-- `copy_to_va` of a string and the zero behind it. -/
def put_string (root : ℕ) (k : Kern) (va : ℕ) (s : List UInt8) : Option Kern :=
  (copy_to_va k root (va % 2 ^ 64) (bytesOf s) (s.length + 1)).map Prod.snd

/-- The loop over `argv`, or over `envp`: the pointer `bp` goes to `slot`, the string to `bp`. -/
def put_strings (root : ℕ) : List (List UInt8) → ℕ → Kern × ℕ → Option (Kern × ℕ)
  | [], _, s => some s
  | str :: rest, slot, s =>
    (put_word root s.1 (slot, s.2)).bind fun k =>
      (put_string root k s.2 str).bind fun k =>
        -- `bp += len`, where `len` counts the zero
        put_strings root rest (slot + 8) (k, s.2 + str.length + 1)

/-- Behind the context on the stack: `argc`, the pointers to the arguments, a null pointer, the
pointers to the environment, a null pointer. -/
def ustack : ℕ := context - 8 * (ARGS_MAX + 2 + ENVS_MAX + 1)

/-- The words that `exec` writes once the strings are on the stack, in its order. -/
def exec_words (exec_helper entry argc envc : ℕ) : List (ℕ × ℕ) :=
  let trapframe := ustack - sizeof_trapframe
  [(ustack + 8 * (argc + 2 + envc), 0), (ustack + 8 * (argc + 1), 0), (ustack, argc),
    (context + 16, trapframe), (context, exec_helper), (trapframe + 16, ustack),
    (trapframe + 248, 0x4), (trapframe + 256, entry)]

/-- `exec` behind `alloc_vm` of the stack; too many strings are a `panic`. -/
def exec_stack (exec_helper entry : ℕ) (argv envp : List (List UInt8)) (root : ℕ) (k : Kern) :
    Option Kern :=
  if ARGS_MAX < argv.length ∨ ENVS_MAX < envp.length then none
  else
    (put_strings root argv (ustack + 8) (k, USER_STACK_BOTTOM)).bind fun s =>
      (put_strings root envp (ustack + 8 * (argv.length + 2)) s).bind fun s =>
        (exec_words exec_helper entry argv.length envp.length).foldlM (put_word root) s.1

/-- `elf_loader`; `none` for the file that `openat` does not find. -/
def load (elf_buf : Option Mem) (s : Task) : Except Halt (ℕ × Task) :=
  match elf_buf with
  | none => .ok (ERROR, s)
  | some buf => load_elf buf s

/-- `exec`; the process is freed again if the program cannot be loaded. -/
def exec (exec_helper : ℕ) (k : Kern) (elf_buf : Option Mem) (argv envp : List (List UInt8)) :
    Option (Kern × Option Space) :=
  (pgtbl_create k).bind fun r =>
    (load elf_buf ⟨r.2, ⟨r.1, []⟩, 0⟩).toOption.bind fun e =>
      -- `proc_free`; the kernel does not tell -1 from an entry point that is -1
      if e.1 = ERROR then (pgtbl_free e.2.kern e.2.proc).map fun f => (f.kern, none)
      else
        (alloc_vm e.2.kern e.2.proc USER_STACK_BOTTOM USER_STACK_TOP SEGMENT_PERM).bind fun a =>
          (exec_stack exec_helper e.1 argv envp a.proc.pgtbl a.kern).map fun k => (k, some a.proc)

/-- `fork` by a process whose registers are saved at `trapframe`. -/
def fork (exec_helper : ℕ) (k : Kern) (p : Space) (trapframe : ℕ) : Option CopyState :=
  (pgtbl_create k).bind fun r =>
    (copy_pagetable r.2 p ⟨r.1, []⟩).bind fun c =>
      ([(trapframe + 24, 0), (context + 16, trapframe), (context, exec_helper)].foldlM
        (put_word c.np.pgtbl) c.kern).map fun k => { c with kern := k }

/-- `sys_mmap`; `kmalloc` gets the length as an `int`. -/
def sys_mmap (k : Kern) (addr length : ℕ) : Option (ℕ × Kern) :=
  if addr ≠ 0 then some (addr, k) else kmalloc k (BitVec.ofNat 32 length).toInt

/-! ## States and events -/

/-- A process: its address space, the ranges that `sys_mmap` returned to it or to those it was
forked from, and the pages allocated for the space. -/
structure Proc where
  space : Space
  ranges : List (ℕ × ℕ)
  owned : List ℕ

/-- The machine, the processes, the pages that `sys_mmap` took, and those of the rest of the
kernel. -/
structure Sys where
  kern : Kern
  procs : ℕ → Option Proc
  mmaps : List ℕ
  others : List ℕ

/-- Before the first process. -/
def boot (k : Kern) : Sys := ⟨k, fun _ => none, [], []⟩

inductive Event where
  | exec (i : ℕ) (elf_buf : Option Mem) (argv envp : List (List UInt8))
  | mmap (i length : ℕ)
  | fork (i j trapframe : ℕ)
  | store (i x : ℕ) (c : UInt8)
  | take
  | poke (x : ℕ) (c : UInt8)
  | give (x : ℕ)

/-- `x` is an address in a range that `sys_mmap` returned. -/
def Proc.InRange (p : Proc) (x : ℕ) : Prop := ∃ r ∈ p.ranges, r.1 ≤ x ∧ x < r.1 + r.2

instance (p : Proc) (x : ℕ) : Decidable (p.InRange x) := inferInstanceAs (Decidable (∃ _ ∈ _, _))

/-- Where an address of a process is in memory: its page table says it, or it is an address of
the direct window. -/
def Proc.access (m : Mem) (p : Proc) (x : ℕ) : Option ℕ :=
  if x < MAXVA then
    if leaf m p.space.pgtbl x &&& PTE_V ≠ 0 then some (backing m p.space.pgtbl x + x % PGSIZE)
    else none
  else if p.InRange x then some x else none

/-- The byte that process `i` reads at `x`. -/
def Sys.read (s : Sys) (i x : ℕ) : Option UInt8 :=
  (s.procs i).bind fun p => (p.access s.kern.mem x).map s.kern.mem

/-- The machine after a byte was written. -/
def poked (k : Kern) (a : ℕ) (c : UInt8) : Kern := { k with mem := k.mem.poke a c }

variable (exec_helper : ℕ)

/-- One event; `none` if it is not possible or ends in a `panic`. -/
def step (s : Sys) : Event → Option Sys
  | .exec i elf_buf argv envp =>
    match s.procs i with
    | some _ => none
    | none => (exec exec_helper s.kern elf_buf argv envp).map fun r =>
      { s with
        kern := r.1
        procs := Function.update s.procs i (r.2.map fun p => ⟨p, [], taken s.kern r.1⟩) }
  | .mmap i length =>
    (s.procs i).bind fun p => (sys_mmap s.kern 0 length).map fun r =>
      { s with
        kern := r.2
        procs := Function.update s.procs i (some { p with ranges := (r.1, length) :: p.ranges })
        mmaps := r.1 :: s.mmaps }
  | .fork i j trapframe =>
    match s.procs i, s.procs j with
    | some p, none => (fork exec_helper s.kern p.space trapframe).map fun c =>
      { s with
        kern := c.kern
        procs := Function.update (Function.update s.procs i (some { p with space := c.p })) j
          (some ⟨c.np, p.ranges, taken s.kern c.kern⟩) }
    | _, _ => none
  | .store i x c =>
    (s.procs i).bind fun p => (p.access s.kern.mem x).map fun a =>
      { s with kern := poked s.kern a c }
  | .take => (kmalloc s.kern PGSIZE).map fun r => { s with kern := r.2, others := r.1 :: s.others }
  | .poke x c =>
    if ∃ P ∈ s.others, InPage P x then some { s with kern := poked s.kern x c } else none
  | .give x =>
    if x ∈ s.others then
      (s.kern.kfree x).map fun k => { s with kern := k, others := s.others.erase x }
    else none

/-- What a run may ask for: a range of `sys_mmap` is within one page, for longer ones get one
page too; and who forks has page-aligned records, for the others make `__map_pages` map a page
behind the one it was given. -/
def Proper (s : Sys) : Event → Prop
  | .mmap _ length => length ≤ PGSIZE
  | .fork i _ _ => ∀ p, s.procs i = some p → ∀ r ∈ p.space.mapping_list, r.va % PGSIZE = 0
  | _ => True

/-! ## Building a space -/

/-- From `k` to `k'` the space `p` was built out of the free pages `N`. -/
structure Builds (k k' : Kern) (p : Space) (T D N : List ℕ) : Prop where
  pages : k.pages = N ++ k'.pages
  held : Held k' p.pgtbl T D
  owned : N.Perm (T ++ D)
  recs : ∀ r ∈ p.mapping_list, RecordOk r
  frame : ∀ P, KPage P → P ∉ N → SamePage k.mem k'.mem P

variable {k k₁ k' : Kern} {p p' : Space} {T T' D D' N N' : List ℕ} {root : ℕ}
  {argv envp : List (List UInt8)} {elf_buf : Option Mem}

theorem Builds.create (hf : Fresh k []) (hc : pgtbl_create k = some (root, k₁)) :
    Builds k k₁ ⟨root, []⟩ [root] [] [root] := by
  obtain ⟨hpages, -, -, hframe⟩ := pgtbl_create_spec hf hc
  have hfresh : Fresh k₁ [root] := hf.of_pages (N := [root]) hpages
  refine ⟨hpages, (Held.of_empty (SpaceOk.create hf hc) hfresh rfl).1, by simp, by simp, ?_⟩
  intro P hP hN
  exact hframe P hP (by simpa using hN)

/-- Once all pages of a space are counted in `N`, growing it just counts on. -/
theorem Builds.extends (h : Builds k k₁ p T D N) (hext : Extends k₁ k' p.pgtbl T D T' D' N')
    (hroot : p'.pgtbl = p.pgtbl) (hrecs : ∀ r ∈ p'.mapping_list, RecordOk r) :
    Builds k k' p' T' D' (N ++ N') := by
  refine ⟨by rw [h.pages, hext.pages, List.append_assoc], hroot ▸ hext.held, ?_, hrecs, ?_⟩
  · exact (h.owned.append_right N').trans hext.owned.symm
  · intro P hP hN
    rw [List.mem_append, not_or] at hN
    refine (h.frame P hP hN.1).trans (hext.frame P hP ?_ hN.2)
    rw [← h.owned.mem_iff]
    exact hN.1

theorem Builds.writes (h : Builds k k₁ p T D N) (hw : Writes k₁ k' p.pgtbl T D) :
    Builds k k' p T D N := by
  have := h.extends hw.extends rfl h.recs
  rwa [List.append_nil] at this

theorem Builds.loads (h : Builds k k₁ p T (pas p) N) (hl : Loads k₁ k' p p' T T' N') :
    Builds k k' p' T' (pas p') (N ++ N') := h.extends hl.ext hl.root (hl.recs h.recs)

/-! ### The stack of a program -/

theorem put_word_writes {w : ℕ × ℕ} (h : Held k root T D) (hs : put_word root k w = some k') :
    Writes k k' root T D := by
  obtain ⟨r, hr, rfl⟩ := Option.map_eq_some_iff.mp hs
  exact copy_to_va_writes h (Nat.mod_lt _ (by norm_num)) hr

theorem put_words_writes {ws : List (ℕ × ℕ)} (h : Held k root T D)
    (hs : ws.foldlM (put_word root) k = some k') : Writes k k' root T D := by
  induction ws generalizing k with
  | nil =>
    obtain rfl : k = k' := by simpa using hs
    exact .refl h
  | cons w ws ih =>
    rw [List.foldlM_cons, Option.bind_eq_bind, Option.bind_eq_some_iff] at hs
    obtain ⟨k₁, h₁, h₂⟩ := hs
    have hw := put_word_writes h h₁
    exact hw.trans (ih hw.held h₂)

theorem put_string_writes {va : ℕ} {str : List UInt8} (h : Held k root T D)
    (hs : put_string root k va str = some k') : Writes k k' root T D := by
  obtain ⟨r, hr, rfl⟩ := Option.map_eq_some_iff.mp hs
  exact copy_to_va_writes h (Nat.mod_lt _ (by norm_num)) hr

theorem put_strings_writes {strs : List (List UInt8)} {slot bp : ℕ} {s : Kern × ℕ}
    (h : Held k root T D) (hs : put_strings root strs slot (k, bp) = some s) :
    Writes k s.1 root T D := by
  induction strs generalizing k slot bp with
  | nil =>
    obtain rfl := Option.some.inj hs
    exact .refl h
  | cons str rest ih =>
    obtain ⟨k₁, h₁, hs⟩ := Option.bind_eq_some_iff.mp hs
    obtain ⟨k₂, h₂, hs⟩ := Option.bind_eq_some_iff.mp hs
    have hw₁ := put_word_writes h h₁
    have hw₂ := put_string_writes hw₁.held h₂
    exact (hw₁.trans hw₂).trans (ih hw₂.held hs)

variable {exec_helper}

theorem exec_stack_writes {entry : ℕ} (h : Held k root T D)
    (hs : exec_stack exec_helper entry argv envp root k = some k') : Writes k k' root T D := by
  rw [exec_stack] at hs
  split at hs
  · cases hs
  · obtain ⟨⟨k₁, bp⟩, h₁, hs⟩ := Option.bind_eq_some_iff.mp hs
    obtain ⟨⟨k₂, bp'⟩, h₂, hs⟩ := Option.bind_eq_some_iff.mp hs
    have hw₁ := put_strings_writes h h₁
    have hw₂ := put_strings_writes hw₁.held h₂
    exact (hw₁.trans hw₂).trans (put_words_writes hw₂.held hs)

/-! ### `exec` -/

theorem load_loads {s : Task} {e : ℕ × Task} (h : Held s.kern s.proc.pgtbl T (pas s.proc))
    (hs : (load elf_buf s).toOption = some e) :
    ∃ T' N, Loads s.kern e.2.kern s.proc e.2.proc T T' N := by
  rw [toOption_eq_some] at hs
  cases elf_buf with
  | none =>
    obtain rfl := Except.ok.inj hs
    exact ⟨T, [], .refl h⟩
  | some buf => exact load_elf_loads h hs

/-- What `exec` did: the process is built, or its pages are free again. -/
theorem exec_spec {r : Kern × Option Space} (hf : Fresh k [])
    (hs : exec exec_helper k elf_buf argv envp = some r) :
    (∃ p T N, r.2 = some p ∧ Builds k r.1 p T (pas p) N) ∨
      r.2 = none ∧ r.1.pages.Perm k.pages ∧
        ∀ P, KPage P → P ∉ k.pages → SamePage k.mem r.1.mem P := by
  obtain ⟨⟨root, k₁⟩, hc, hs⟩ := Option.bind_eq_some_iff.mp hs
  obtain ⟨e, he, hs⟩ := Option.bind_eq_some_iff.mp hs
  -- the table, and what the loader put into it before it returned
  have hcreate : Builds k k₁ ⟨root, []⟩ [root] (pas ⟨root, []⟩) [root] := .create hf hc
  obtain ⟨T₁, N₁, hload⟩ := load_loads (s := ⟨k₁, ⟨root, []⟩, 0⟩) hcreate.held he
  have hloaded := hcreate.loads hload
  split at hs
  · -- all that was allocated is given back
    right
    obtain ⟨f, hfree, rfl⟩ := Option.map_eq_some_iff.mp hs
    obtain ⟨f', hfree', hperm, hframe⟩ := pgtbl_free_gives hloaded.held
    obtain rfl : f' = f := Option.some.inj (hfree'.symm.trans hfree)
    refine ⟨rfl, ?_, fun P hP hout => ?_⟩
    · rw [hloaded.pages]
      exact hperm.trans (hloaded.owned.symm.append_right _)
    · rw [hloaded.pages, List.mem_append, not_or] at hout
      refine (hloaded.frame P hP hout.1).trans (hframe P hP ?_)
      rw [← hloaded.owned.mem_iff]
      exact hout.1
  · left
    obtain ⟨a, ha, hs⟩ := Option.bind_eq_some_iff.mp hs
    obtain ⟨k', hstack, rfl⟩ := Option.map_eq_some_iff.mp hs
    obtain ⟨T₂, N₂, hstackvm⟩ := alloc_vm_loads hloaded.held LoadImage.segment_perm_ok ha
    have hbuilt := hloaded.loads hstackvm
    exact ⟨_, _, _, rfl, hbuilt.writes (exec_stack_writes hbuilt.held hstack)⟩

/-- What `fork` did: the child is built, and the parent has what it had. -/
theorem fork_spec {trapframe : ℕ} {c : CopyState} (hf₀ : Fresh k [])
    (hp : Held k p.pgtbl T D) (hrecs : ∀ r ∈ p.mapping_list, RecordOk r)
    (hal : ∀ r ∈ p.mapping_list, r.va % PGSIZE = 0)
    (hs : fork exec_helper k p trapframe = some c) :
    (∃ T' D' N, Builds k c.kern c.np T' D' N) ∧ Held c.kern c.p.pgtbl T D ∧
      ∀ r ∈ c.p.mapping_list, RecordOk r := by
  obtain ⟨⟨root, k₁⟩, hc, hs⟩ := Option.bind_eq_some_iff.mp hs
  obtain ⟨c₁, hcopy, hs⟩ := Option.bind_eq_some_iff.mp hs
  obtain ⟨k', hwords, rfl⟩ := Option.map_eq_some_iff.mp hs
  dsimp only at hcopy hwords
  have hcreate : Builds k k₁ ⟨root, []⟩ [root] [] [root] := .create hf₀ hc
  -- the parent is what it was, since the root of the child was free
  have hroot : ∀ P ∈ T ++ D, P ≠ root := by
    intro P hP
    exact hp.free_ne (by rw [hcreate.pages]; exact List.mem_cons_self) hP
  have hp₁ : Held k₁ p.pgtbl T D := by
    refine held_congr hp (fun P hP => hcreate.frame P (hp.table.kpage P hP) ?_)
      (fresh_of_suffix hp.fresh hcreate.pages)
    simpa using hroot P (List.mem_append_left _ hP)
  have hapart : ∀ P ∈ T ++ D, P ∉ [root] ++ ([] : List ℕ) := by
    intro P hP
    simpa using hroot P hP
  obtain ⟨hpr, hcr, hprecs, hcrecs, T', D', N, hext⟩ :=
    copy_pagetable_copies hp₁ hcreate.held hapart hrecs hal rfl hcopy
  have hbuilt := hcreate.extends hext hcr hcrecs
  have hwrites := put_words_writes hbuilt.held hwords
  obtain ⟨hp₂, hsame⟩ := hext.keeps hp₁ hapart
  refine ⟨⟨T', D', _, hbuilt.writes hwrites⟩, ?_, hprecs⟩
  -- and none of its pages belongs to the child
  rw [hpr]
  refine held_congr hp₂ (fun P hP => hwrites.frame P (hp.table.kpage P hP) fun hD => ?_) ?_
  · exact (hsame P (List.mem_append_left _ hP)).2 (List.mem_append_right _ hD)
  · exact fresh_of_suffix (N := []) hp₂.fresh hwrites.pages.symm

/-! ## The invariant -/

/-- Who may hold a page. -/
inductive Holder where
  | kernel
  | mmap
  | proc (i : ℕ)

def Sys.held (s : Sys) : Holder → List ℕ
  | .kernel => s.others
  | .mmap => s.mmaps
  | .proc i => match s.procs i with
    | some p => p.owned
    | none => []

/-- The address space of a process has its own pages behind it. -/
structure ProcOk (k : Kern) (p : Proc) : Prop where
  held : ∃ T D, Held k p.space.pgtbl T D ∧ p.owned.Perm (T ++ D)
  recs : ∀ r ∈ p.space.mapping_list, RecordOk r

/-- A range is within a page that `sys_mmap` took. -/
def RangesOk (mmaps : List ℕ) (p : Proc) : Prop := ∀ r ∈ p.ranges, r.1 ∈ mmaps ∧ r.2 ≤ PGSIZE

/-- What holds in every state of a run over the stock `all`. -/
structure Inv (all : List ℕ) (s : Sys) : Prop where
  kpage : ∀ x ∈ all, KPage x
  parts : Parts all s.held s.kern.pages
  procs : ∀ i p, s.procs i = some p → ProcOk s.kern p
  ranges : ∀ i p, s.procs i = some p → RangesOk s.mmaps p

variable {all : List ℕ} {s s' : Sys} {e : Event} {es : List Event} {i j : ℕ} {q q' : Proc}

theorem held_proc (h : s.procs i = some q) : s.held (.proc i) = q.owned := by
  rw [Sys.held, h]

theorem held_none (h : s.procs i = none) : s.held (.proc i) = [] := by
  rw [Sys.held, h]

/-- A process whose pages are not written and not given away. -/
theorem ProcOk.congr (h : ProcOk k q) (hs : ∀ P, KPage P → P ∈ q.owned → SamePage k.mem k'.mem P)
    (hf : Fresh k' q.owned) : ProcOk k' q := by
  obtain ⟨⟨T, D, hheld, hperm⟩, hrecs⟩ := h
  refine ⟨⟨T, D, held_congr hheld (fun P hP => hs P (hheld.table.kpage P hP) ?_) (hf.perm hperm),
    hperm⟩, hrecs⟩
  rw [hperm.mem_iff]
  exact List.mem_append_left _ hP

/-- Nothing of a holder's pages is free. -/
theorem Inv.fresh (h : Inv all s) (a : Holder) : Fresh s.kern (s.held a) :=
  ⟨h.parts.nodup_append a, fun x hx => h.kpage x (h.parts.mem_all_of_free hx)⟩

theorem Inv.fresh_nil (h : Inv all s) : Fresh s.kern [] :=
  ⟨h.parts.free_nodup, fun x hx => h.kpage x (h.parts.mem_all_of_free hx)⟩

/-- **A step of one holder.** The holder `a` changes pages it holds or takes; a process that
is not checked anew has at most been given ranges. -/
theorem Inv.of_local (h : Inv all s) (a : Holder) (hparts : Parts all s'.held s'.kern.pages)
    (hframe : ∀ P, KPage P → P ∉ s.held a → P ∉ s.kern.pages → SamePage s.kern.mem s'.kern.mem P)
    (hprocs : ∀ i q', s'.procs i = some q' → ProcOk s'.kern q' ∨ Holder.proc i ≠ a ∧
      ∃ q, s.procs i = some q ∧ q' = { q with ranges := q'.ranges })
    (hranges : ∀ i q', s'.procs i = some q' → RangesOk s'.mmaps q') : Inv all s' := by
  refine ⟨h.kpage, hparts, fun i q' hq' => ?_, hranges⟩
  rcases hprocs i q' hq' with hok | ⟨hne, q, hq, heq⟩
  · exact hok
  · -- its pages are neither the holder's nor free, so nothing was written there
    have hown : q'.owned = q.owned := by rw [heq]
    have hfresh : Fresh s'.kern q'.owned := by
      have hnd := hparts.nodup_append (.proc i)
      rw [held_proc hq'] at hnd
      exact ⟨hnd, fun x hx => h.kpage x (hparts.mem_all_of_free hx)⟩
    have hok : ProcOk s'.kern q := by
      refine (h.procs i q hq).congr (fun P hk hP => hframe P hk ?_ ?_) (hown ▸ hfresh)
      · exact fun ha => hne (h.parts.apart (.proc i) a P (by rwa [held_proc hq]) ha)
      · exact h.parts.not_free (.proc i) P (by rwa [held_proc hq])
    rw [heq]
    exact ⟨hok.held, hok.recs⟩

/-- Ranges stay in the pages of `sys_mmap`, of which there are only more. -/
theorem RangesOk.mono {M M' : List ℕ} (h : RangesOk M q) (hM : ∀ P ∈ M, P ∈ M') :
    RangesOk M' q := fun r hr => ⟨hM _ (h r hr).1, (h r hr).2⟩

/-! ### The steps -/

/-- The slots of the processes when one of them is filled. -/
theorem held_other (ho : s'.others = s.others) (hm : s'.mmaps = s.mmaps)
    (hp : ∀ j ≠ i, s'.held (.proc j) = s.held (.proc j)) (b : Holder) (hb : b ≠ .proc i) :
    s'.held b = s.held b := by
  cases b with
  | kernel => exact ho
  | mmap => exact hm
  | proc j => exact hp j fun e => hb (e ▸ rfl)

/-- **A process is born**, out of free pages; the others keep their pages. -/
theorem Inv.born (h : Inv all s) (hi : s.procs i = none) (hi' : s'.procs i = some q)
    (hpages : s.kern.pages = q.owned ++ s'.kern.pages) (ho : s'.others = s.others)
    (hm : s'.mmaps = s.mmaps)
    (hframe : ∀ P, KPage P → P ∉ q.owned → SamePage s.kern.mem s'.kern.mem P)
    (hok : ProcOk s'.kern q) (hr : RangesOk s.mmaps q)
    (hother : ∀ j ≠ i, s'.procs j = s.procs j ∨ ∃ p p', s.procs j = some p ∧
      s'.procs j = some p' ∧ p'.owned = p.owned ∧ p'.ranges = p.ranges ∧ ProcOk s'.kern p') :
    Inv all s' := by
  refine h.of_local (.proc i) ?_ (fun P hP _ hfree => hframe P hP fun hN => hfree ?_) ?_ ?_
  · -- a process that is another one now has the same pages
    refine (hpages ▸ h.parts).take (a := .proc i) (held_other ho hm fun j hj => ?_) ?_
    · rcases hother j hj with heq | ⟨p, p', hp, hp', hown, -⟩
      · rw [Sys.held, Sys.held, heq]
      · rw [held_proc hp, held_proc hp', hown]
    · rw [held_none hi, held_proc hi', List.nil_append]
  · rw [hpages]
    exact List.mem_append_left _ hN
  · intro j q' hq'
    by_cases hji : j = i
    · subst hji
      obtain rfl : q = q' := Option.some.inj (hi'.symm.trans hq')
      exact .inl hok
    · rcases hother j hji with heq | ⟨p, p', -, hp', -, -, hok'⟩
      · exact .inr ⟨fun e => hji (Holder.proc.inj e), q', heq ▸ hq', rfl⟩
      · obtain rfl : p' = q' := Option.some.inj (hp'.symm.trans hq')
        exact .inl hok'
  · intro j q' hq'
    rw [hm]
    by_cases hji : j = i
    · subst hji
      obtain rfl : q = q' := Option.some.inj (hi'.symm.trans hq')
      exact hr
    · rcases hother j hji with heq | ⟨p, p', hp, hp', -, hranges, -⟩
      · exact h.ranges j q' (heq ▸ hq')
      · obtain rfl : p' = q' := Option.some.inj (hp'.symm.trans hq')
        rw [RangesOk, hranges]
        exact h.ranges j p hp

theorem Inv.exec (h : Inv all s) (hs : step exec_helper s (.exec i elf_buf argv envp) = some s') :
    Inv all s' := by
  simp only [step] at hs
  split at hs
  · cases hs
  · next hi =>
    obtain ⟨r, hr, rfl⟩ := Option.map_eq_some_iff.mp hs
    obtain ⟨p, T, N, hp, hb⟩ | ⟨hnone, hpages, hframe⟩ := exec_spec h.fresh_nil hr
    · rw [hp, taken_eq hb.pages]
      refine h.born (q := ⟨p, [], N⟩) hi (Function.update_self ..) hb.pages rfl rfl hb.frame
        ⟨⟨T, pas p, hb.held, hb.owned⟩, hb.recs⟩ ?_ fun j hj => .inl (Function.update_of_ne hj ..)
      intro r hr
      cases hr
    · -- the slot is empty again
      have hsame : Function.update s.procs i none = s.procs := by
        rw [← hi, Function.update_eq_self]
      rw [hnone, Option.map_none, hsame]
      refine h.of_local .kernel ?_ (fun P hP _ hfree => hframe P hP hfree) ?_ h.ranges
      · exact h.parts.give (a := .kernel) (N := []) (fun b _ => by cases b <;> rfl)
          (List.Perm.refl _) hpages
      · intro j q' hq'
        exact .inr ⟨by simp, q', hq', rfl⟩

theorem Inv.mmap {length : ℕ} (h : Inv all s) (hlen : length ≤ PGSIZE)
    (hs : step exec_helper s (.mmap i length) = some s') : Inv all s' := by
  obtain ⟨q, hq, hs⟩ := Option.bind_eq_some_iff.mp hs
  obtain ⟨⟨a, k'⟩, hk, rfl⟩ := Option.map_eq_some_iff.mp hs
  have hk : kmalloc s.kern (BitVec.ofNat 32 length).toInt = some (a, k') := hk
  have hpages := (kmalloc_eq_some hk).1
  have hfree : a ∈ s.kern.pages := by
    rw [hpages]
    exact List.mem_cons_self
  have hkpage := h.kpage a (h.parts.mem_all_of_free hfree)
  obtain ⟨q', hq'⟩ : ∃ q', q' = { q with ranges := (a, length) :: q.ranges } := ⟨_, rfl⟩
  rw [← hq']
  have hself : Function.update s.procs i (some q') i = some q' := Function.update_self ..
  have hother : ∀ j ≠ i, Function.update s.procs i (some q') j = s.procs j :=
    fun j hj => Function.update_of_ne hj ..
  refine h.of_local .mmap ?_ ?_ ?_ ?_
  · -- the process gets the address, but `sys_mmap` keeps no record, so no holder but this one
    have hparts : Parts all s.held ([a] ++ k'.pages) := by
      rw [List.singleton_append, ← hpages]
      exact h.parts
    refine hparts.take (a := .mmap) (fun b hb => ?_) (List.perm_append_singleton a s.mmaps).symm
    cases b with
    | kernel => rfl
    | mmap => exact absurd rfl hb
    | proc j =>
      by_cases hji : j = i
      · subst hji
        rw [held_proc hq, held_proc hself, hq']
      · simp only [Sys.held, hother j hji]
  · intro P hP _ hout
    exact samePage_kmalloc hk hkpage.aligned hP.aligned fun e => hout (e ▸ hfree)
  · intro j r hr
    refine .inr ⟨by simp, ?_⟩
    by_cases hji : j = i
    · subst hji
      obtain rfl : q' = r := Option.some.inj (hself.symm.trans hr)
      exact ⟨q, hq, by rw [hq']⟩
    · exact ⟨r, (hother j hji).symm.trans hr, rfl⟩
  · intro j r hr
    have hmono : ∀ P ∈ s.mmaps, P ∈ a :: s.mmaps := fun P hP => List.mem_cons_of_mem a hP
    by_cases hji : j = i
    · subst hji
      obtain rfl : q' = r := Option.some.inj (hself.symm.trans hr)
      rw [hq']
      exact List.forall_mem_cons.mpr ⟨⟨List.mem_cons_self, hlen⟩, (h.ranges j q hq).mono hmono⟩
    · exact (h.ranges j r ((hother j hji).symm.trans hr)).mono hmono

theorem Inv.fork {trapframe : ℕ} (h : Inv all s)
    (hal : ∀ p, s.procs i = some p → ∀ r ∈ p.space.mapping_list, r.va % PGSIZE = 0)
    (hs : step exec_helper s (.fork i j trapframe) = some s') : Inv all s' := by
  simp only [step] at hs
  split at hs
  · next p hp hj =>
    obtain ⟨c, hc, rfl⟩ := Option.map_eq_some_iff.mp hs
    obtain ⟨⟨T, D, hheld, hperm⟩, hrecs⟩ := h.procs i p hp
    obtain ⟨⟨T', D', N, hb⟩, hparent, hrecs'⟩ :=
      fork_spec h.fresh_nil hheld hrecs (hal p hp) hc
    have hij : i ≠ j := by
      rintro rfl
      rw [hp] at hj
      cases hj
    rw [taken_eq hb.pages]
    refine h.born (q := ⟨c.np, p.ranges, N⟩) hj (Function.update_self ..) hb.pages rfl rfl hb.frame
      ⟨⟨T', D', hb.held, hb.owned⟩, hb.recs⟩ (h.ranges i p hp) fun l hl => ?_
    dsimp only
    rw [Function.update_of_ne hl]
    by_cases hli : l = i
    · subst hli
      exact .inr ⟨p, _, hp, Function.update_self .., rfl, rfl, ⟨T, D, hparent, hperm⟩, hrecs'⟩
    · exact .inl (Function.update_of_ne hli ..)
  · cases hs

/-! ### Stores -/

variable {x a P : ℕ} {c : UInt8}

theorem samePage_poked (hP : KPage P) {Q : ℕ} (hQ : KPage Q) (hne : P ≠ Q) (hx : InPage Q x) :
    SamePage k.mem (poked k x c).mem P := samePage_poke hP.aligned hQ.aligned hne hx

/-- A mapped address is in a data page of the process; a write there spoils nothing. -/
theorem ProcOk.mapped (h : ProcOk k q) (hx : x < MAXVA) (ha : q.access k.mem x = some a)
    (c : UInt8) : ∃ P ∈ q.owned, KPage P ∧ InPage P a ∧ ProcOk (poked k a c) q := by
  obtain ⟨⟨T, D, hheld, hperm⟩, hrecs⟩ := h
  rw [Proc.access, if_pos hx] at ha
  split at ha
  · next hvalid =>
    have h0 : leaf k.mem q.space.pgtbl x ≠ 0 := by
      intro h0
      rw [h0, Nat.zero_and] at hvalid
      exact hvalid rfl
    obtain ⟨P, hP, hkp, hback, -, -⟩ := hheld.page hx h0
    have hoff : x % PGSIZE < PGSIZE := Nat.mod_lt _ (by norm_num)
    have hin : InPage P a := by
      rw [← Option.some.inj ha, hback]
      exact ⟨Nat.le_add_right _ _, Nat.add_lt_add_left hoff P⟩
    refine ⟨P, hperm.mem_iff.mpr (List.mem_append_right _ hP), hkp, hin, ⟨T, D, ?_, hperm⟩, hrecs⟩
    -- a data page is no table
    refine held_congr hheld (fun Q hQ => samePage_poked (hheld.table.kpage Q hQ) hkp ?_ hin)
      ⟨hheld.fresh.nodup, hheld.fresh.kpage⟩
    rintro rfl
    exact hheld.data_not_mem hP hQ
  · cases ha

/-- Any other address is in a page that `sys_mmap` took. -/
theorem RangesOk.page (h : RangesOk s.mmaps q) (hx : q.InRange x) : ∃ P ∈ s.mmaps, InPage P x := by
  obtain ⟨r, hr, h1, h2⟩ := hx
  obtain ⟨hP, hlen⟩ := h r hr
  exact ⟨r.1, hP, h1, by omega⟩

theorem access_high (hx : ¬ x < MAXVA) {m : Mem} (ha : q.access m x = some a) :
    a = x ∧ q.InRange x := by
  rw [Proc.access, if_neg hx] at ha
  split at ha
  · next hin => exact ⟨(Option.some.inj ha).symm, hin⟩
  · cases ha

theorem Inv.store (h : Inv all s) (hs : step exec_helper s (.store i x c) = some s') :
    Inv all s' := by
  obtain ⟨q, hq, hs⟩ := Option.bind_eq_some_iff.mp hs
  obtain ⟨a, ha, rfl⟩ := Option.map_eq_some_iff.mp hs
  by_cases hx : x < MAXVA
  · obtain ⟨P, hP, hkp, hin, hok⟩ := (h.procs i q hq).mapped hx ha c
    refine h.of_local (.proc i) h.parts (fun Q hQ hne _ => samePage_poked hQ hkp ?_ hin) ?_ h.ranges
    · rintro rfl
      rw [held_proc hq] at hne
      exact hne hP
    · intro j q' hq'
      by_cases hji : j = i
      · subst hji
        obtain rfl : q = q' := Option.some.inj (hq.symm.trans hq')
        exact .inl hok
      · exact .inr ⟨fun e => hji (Holder.proc.inj e), q', hq', rfl⟩
  · obtain ⟨rfl, hrange⟩ := access_high hx ha
    obtain ⟨P, hP, hin⟩ := (h.ranges i q hq).page hrange
    have hkp := h.kpage P (h.parts.mem_all_of_own (a := Holder.mmap) hP)
    refine h.of_local .mmap h.parts (fun Q hQ hne _ => samePage_poked hQ hkp ?_ hin)
      (fun j q' hq' => .inr ⟨by simp, q', hq', rfl⟩) h.ranges
    rintro rfl
    exact hne hP

/-! ### The rest of the kernel -/

theorem Inv.take (h : Inv all s) (hs : step exec_helper s .take = some s') : Inv all s' := by
  obtain ⟨⟨x, k'⟩, hk, rfl⟩ := Option.map_eq_some_iff.mp hs
  have hpages := (kmalloc_eq_some hk).1
  have hfree : x ∈ s.kern.pages := by
    rw [hpages]
    exact List.mem_cons_self
  refine h.of_local .kernel ?_ (fun P hP _ hf => ?_) (fun j q hq => .inr ⟨by simp, q, hq, rfl⟩)
    h.ranges
  · have hparts : Parts all s.held ([x] ++ k'.pages) := by
      rw [List.singleton_append, ← hpages]
      exact h.parts
    refine hparts.take (a := .kernel) (fun b hb => ?_) (List.perm_append_singleton x s.others).symm
    cases b with
    | kernel => exact absurd rfl hb
    | mmap => rfl
    | proc j => rfl
  · exact samePage_kmalloc hk (h.kpage x (h.parts.mem_all_of_free hfree)).aligned hP.aligned
      fun e => hf (e ▸ hfree)

theorem Inv.poke (h : Inv all s) (hs : step exec_helper s (.poke x c) = some s') : Inv all s' := by
  simp only [step] at hs
  split at hs
  · next hx =>
    obtain ⟨Q, hQ, hx⟩ := hx
    obtain rfl := Option.some.inj hs
    have hkp := h.kpage Q (h.parts.mem_all_of_own (a := Holder.kernel) hQ)
    refine h.of_local .kernel h.parts (fun P hP hn _ => samePage_poked hP hkp ?_ hx)
      (fun j q hq => .inr ⟨by simp, q, hq, rfl⟩) h.ranges
    rintro rfl
    exact hn hQ
  · cases hs

theorem Inv.give (h : Inv all s) (hs : step exec_helper s (.give x) = some s') : Inv all s' := by
  simp only [step] at hs
  split at hs
  · next hx =>
    obtain ⟨k', hk, rfl⟩ := Option.map_eq_some_iff.mp hs
    obtain ⟨hpages, hsame⟩ := kfree_spec hk
    refine h.of_local .kernel ?_ (fun P hP hn _ => hsame P hP.aligned fun e => hn (e ▸ hx))
      (fun j q hq => .inr ⟨by simp, q, hq, rfl⟩) h.ranges
    refine h.parts.give (a := .kernel) (N := [x]) (fun b hb => ?_) (List.perm_cons_erase hx)
      (.of_eq hpages)
    cases b with
    | kernel => exact absurd rfl hb
    | mmap => rfl
    | proc j => rfl
  · cases hs

/-- **The step lemma.** -/
theorem Inv.of_step (h : Inv all s) (he : Proper s e) (hs : step exec_helper s e = some s') :
    Inv all s' := by
  cases e with
  | exec i elf_buf argv envp => exact h.exec hs
  | mmap i length => exact h.mmap he hs
  | fork i j trapframe => exact h.fork he hs
  | store i x c => exact h.store hs
  | take => exact h.take hs
  | poke x c => exact h.poke hs
  | give x => exact h.give hs

theorem Inv.boot {k : Kern} (hf : Fresh k []) : Inv k.pages (boot k) := by
  refine ⟨hf.kpage, Parts.init hf.nodup fun a => ?_, ?_, ?_⟩
  · cases a <;> rfl
  · intro i q hq
    cases hq
  · intro i q hq
    cases hq

/-- **The run lemma.** -/
theorem Inv.of_run {k₀ : Kern} (hf : Fresh k₀ [])
    (hok : Meets (step exec_helper) Proper (UserMem.boot k₀) es)
    (hrun : run (step exec_helper) (UserMem.boot k₀) es = some s) : Inv k₀.pages s :=
  run_invariant Proper (Inv k₀.pages) (fun _ _ _ hs he hstep => hs.of_step he hstep)
    (Inv.boot hf) hok hrun

end Loos.UserMem
