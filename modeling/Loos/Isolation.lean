/-
Who sees the stores of a process after a fork.

A process reads and writes what its page table maps and what `sys_mmap` returned. Of the
first kind `copy_pagetable` gives the child copies, so nobody else sees a store there. The
second kind is nowhere recorded: the child has the address of its parent's page, and both
read and write the one page behind it ([`mmap_shared`]).

So a store is unseen exactly if it does not change a byte of a range that somebody else has
too ([`store_unseen_iff`]), and the processes are isolated along every run in which all stores
are like that ([`fork_isolated`]).
-/
import Loos.ForkCopy
import Loos.StaleBytes
import Loos.UserMem

set_option autoImplicit false

namespace Loos.Isolation

open SysLib Kern PageTable AddrSpace Image ElfLoader LoadFile Growth UserMem
open Vm (InPage spare spare_fresh)

/-- The store is to mapped memory, or to a range that no other process has, or it changes
nothing. -/
def Unseen (s : Sys) : Event → Prop
  | .store i x c =>
    x < MAXVA ∨ c = s.kern.mem x ∨ ∀ j ≠ i, ∀ q, s.procs j = some q → ¬ q.InRange x
  | _ => True

/-- What is required of a step. -/
def Ok (s : Sys) (e : Event) : Prop := Proper s e ∧ Unseen s e

variable {exec_helper : ℕ} {all : List ℕ} {s s' : Sys} {i j x y a : ℕ} {c : UInt8} {p q : Proc}
  {k k' : Kern} {T D : List ℕ}

/-! ## One store -/

theorem read_low (hq : s.procs j = some q) (hy : y < MAXVA) :
    s.read j y = view s.kern.mem q.space.pgtbl y := by
  rw [Sys.read, hq, Option.bind_some, Proc.access, if_pos hy, view]
  by_cases hvalid : leaf s.kern.mem q.space.pgtbl y &&& PTE_V ≠ 0
  · rw [if_pos hvalid, if_pos ⟨hy, hvalid⟩, Option.map_some]
  · rw [if_neg hvalid, if_neg fun hc => hvalid hc.2, Option.map_none]

theorem read_high (hq : s.procs j = some q) (hy : ¬ y < MAXVA) :
    s.read j y = if q.InRange y then some (s.kern.mem y) else none := by
  rw [Sys.read, hq, Option.bind_some, Proc.access, if_neg hy]
  split <;> rfl

/-- The page that is written, and who holds it. -/
theorem page_of_access (h : Inv all s) (hp : s.procs i = some p)
    (ha : p.access s.kern.mem x = some a) :
    ∃ P ∈ s.held (if x < MAXVA then .proc i else .mmap), KPage P ∧ InPage P a := by
  by_cases hx : x < MAXVA
  · obtain ⟨P, hP, hkp, hin, -⟩ := (h.procs i p hp).mapped hx ha 0
    rw [if_pos hx, held_proc hp]
    exact ⟨P, hP, hkp, hin⟩
  · obtain ⟨rfl, hrange⟩ := access_high hx ha
    obtain ⟨P, hP, hin⟩ := (h.ranges i p hp).page hrange
    rw [if_neg hx]
    exact ⟨P, hP, h.kpage P (h.parts.mem_all_of_own (a := Holder.mmap) hP), hin⟩

/-- The bytes of the other holders' pages stay. -/
theorem same_of_holder (h : Inv all s) {P Q : ℕ} {b b' : Holder} (hP : P ∈ s.held b)
    (hQ : Q ∈ s.held b') (hne : b ≠ b') (hin : InPage P a) :
    SamePage s.kern.mem (poked s.kern a c).mem Q := by
  have hkP := h.kpage P (h.parts.mem_all_of_own hP)
  have hkQ := h.kpage Q (h.parts.mem_all_of_own hQ)
  apply samePage_poked hkQ hkP _ hin
  rintro rfl
  exact hne (h.parts.apart b b' Q hP hQ)

/-- What is mapped in a process that does not make the store. -/
theorem view_of_store (h : Inv all s) {b : Holder} {P : ℕ} (hP : P ∈ s.held b)
    (hin : InPage P a) (hq : s.procs j = some q) (hb : b ≠ .proc j) :
    view (poked s.kern a c).mem q.space.pgtbl = view s.kern.mem q.space.pgtbl := by
  obtain ⟨⟨T, D, hheld, hperm⟩, -⟩ := h.procs j q hq
  apply view_congr hheld
  -- tables and data pages alike are the process's own
  intro Q hQ
  apply same_of_holder h hP _ hb hin
  rw [held_proc hq, hperm.mem_iff]
  exact hQ

/-- All that a store does. -/
theorem step_store (hs : step exec_helper s (.store i x c) = some s') :
    ∃ p a, s.procs i = some p ∧ p.access s.kern.mem x = some a ∧ s'.kern = poked s.kern a c ∧
      s'.procs = s.procs := by
  obtain ⟨p, hp, hs⟩ := Option.bind_eq_some_iff.mp hs
  obtain ⟨a, ha, rfl⟩ := Option.map_eq_some_iff.mp hs
  exact ⟨p, a, hp, ha, rfl, rfl⟩

/-- The bytes in the ranges of another process. -/
theorem range_of_store (h : Inv all s) (hp : s.procs i = some p)
    (ha : p.access s.kern.mem x = some a) (hunseen : Unseen s (.store i x c)) (hji : j ≠ i)
    (hq : s.procs j = some q) (hrange : q.InRange y) :
    (poked s.kern a c).mem y = s.kern.mem y := by
  obtain ⟨P, hP, -, hin⟩ := page_of_access h hp ha
  obtain ⟨Q, hQ, hy1, hy2⟩ := (h.ranges j q hq).page hrange
  by_cases hx : x < MAXVA
  · -- a page of the process is none of `sys_mmap`
    rw [if_pos hx] at hP
    exact same_of_holder h hP (show Q ∈ s.held .mmap from hQ) (by simp) hin y hy1 hy2
  · obtain ⟨rfl, -⟩ := access_high hx ha
    by_cases hya : y = a
    · subst hya
      rcases hunseen with hlow | hbyte | hnone
      · exact absurd hlow hx
      · simp [poked, Mem.poke, hbyte]
      · exact absurd hrange (hnone j hji q hq)
    · simp [poked, Mem.poke, hya]

/-- Nobody else sees a store that changes no byte in a range of somebody else. -/
theorem read_of_store (h : Inv all s) (hs : step exec_helper s (.store i x c) = some s')
    (hunseen : Unseen s (.store i x c)) (hji : j ≠ i) : s'.read j = s.read j := by
  obtain ⟨p, a, hp, ha, hkern, hprocs⟩ := step_store hs
  obtain ⟨P, hP, -, hin⟩ := page_of_access h hp ha
  funext y
  -- mapped addresses and those of the window are read in different ways
  cases hq : s.procs j with
  | none => simp [Sys.read, hprocs, hq]
  | some q =>
    have hq' : s'.procs j = some q := by rw [hprocs, hq]
    by_cases hy : y < MAXVA
    · have hb : (if x < MAXVA then Holder.proc i else Holder.mmap) ≠ .proc j := by
        split
        · simpa using fun e => hji e.symm
        · simp
      rw [read_low hq hy, read_low hq' hy, hkern, view_of_store h hP hin hq hb]
    · rw [read_high hq hy, read_high hq' hy, hkern]
      by_cases hrange : q.InRange y
      · rw [if_pos hrange, if_pos hrange, range_of_store h hp ha hunseen hji hq hrange]
      · rw [if_neg hrange, if_neg hrange]

/-- **A store is unseen exactly if it does not change a byte in a range of another process.** -/
theorem store_unseen_iff (h : Inv all s) (hs : step exec_helper s (.store i x c) = some s') :
    (∀ j ≠ i, s'.read j = s.read j) ↔ Unseen s (.store i x c) := by
  refine ⟨fun hsame => ?_, fun hunseen j hji => read_of_store h hs hunseen hji⟩
  obtain ⟨p, a, hp, ha, hkern, hprocs⟩ := step_store hs
  by_cases hx : x < MAXVA
  · exact .inl hx
  · -- whoever has the range reads the byte that was written
    obtain ⟨rfl, -⟩ := access_high hx ha
    refine .inr (or_iff_not_imp_right.mpr fun hseen => ?_)
    push Not at hseen
    obtain ⟨j, hji, q, hq, hrange⟩ := hseen
    have hread := congrFun (hsame j hji) a
    rw [read_high hq hx, read_high (by rw [hprocs, hq]) hx, if_pos hrange, if_pos hrange,
      hkern] at hread
    simpa [poked, Mem.poke] using Option.some.inj hread

/-! ## A parent and a child -/

/-- `alloc_vm` adds a record for every page of the range. -/
theorem alloc_vm_length {start end_ perm : ℕ} {r : AllocLoop} {p : Space}
    (hal : start % PGSIZE = 0) (hle : start ≤ PGROUNDUP end_)
    (hr : alloc_vm k p start end_ perm = some r) :
    r.proc.mapping_list.length = p.mapping_list.length + (PGROUNDUP end_ - start) / PGSIZE := by
  have hup := PGROUNDUP_le end_
  have hupal : PGROUNDUP end_ % PGSIZE = 0 := by
    rw [PGROUNDUP, and_page_mask]
    unfold PGSIZE
    omega
  obtain ⟨⟨hcal, hcle, hcount⟩, hdone⟩ := loop_inv
    (fun r => r.caddr % PGSIZE = 0 ∧ r.caddr ≤ PGROUNDUP end_ ∧
      r.caddr + PGSIZE * p.mapping_list.length = start + PGSIZE * r.proc.mapping_list.length)
    (fun r r' hinv hc hb => by
      obtain ⟨hcal, -, hcount⟩ := hinv
      have hc : r.caddr < PGROUNDUP end_ := of_decide_eq_true hc
      obtain ⟨⟨pa, k₁⟩, -, hb⟩ := Option.bind_eq_some_iff.mp hb
      dsimp only at hb
      split at hb
      · cases hb
      · obtain ⟨k', -, rfl⟩ := Option.map_eq_some_iff.mp hb
        have hnext : (r.caddr + PGSIZE) % 2 ^ 64 = r.caddr + PGSIZE :=
          Nat.mod_eq_of_lt (by unfold PGSIZE at *; omega)
        dsimp only [Space.proc_add_mapping]
        rw [hnext, List.length_cons]
        unfold PGSIZE at *
        omega)
    ⟨hal, hle, rfl⟩ hr
  have hdone : ¬ r.caddr < PGROUNDUP end_ := of_decide_eq_false hdone
  unfold PGSIZE at *
  omega

theorem put_word_isSome {root : ℕ} (h : Held k root T D) (w : ℕ × ℕ) :
    ∃ k', put_word root k w = some k' ∧ Writes k k' root T D := by
  obtain ⟨r, hr, -⟩ := copy_to_va_view 8 (bytesOf (le 8 w.2)) h
    (Nat.mod_lt w.1 (show 0 < 2 ^ 64 by norm_num))
  have hw : put_word root k w = some r.2 := by rw [put_word, hr, Option.map_some]
  exact ⟨r.2, hw, put_word_writes h hw⟩

theorem put_words_isSome {root : ℕ} (h : Held k root T D) (ws : List (ℕ × ℕ)) :
    ∃ k', ws.foldlM (put_word root) k = some k' ∧ Writes k k' root T D := by
  induction ws generalizing k with
  | nil => exact ⟨k, rfl, .refl h⟩
  | cons w ws ih =>
    obtain ⟨k₁, hk₁, hw₁⟩ := put_word_isSome h w
    obtain ⟨k', hk', hw'⟩ := ih hw₁.held
    refine ⟨k', ?_, hw₁.trans hw'⟩
    rw [List.foldlM_cons, hk₁]
    exact hk'

theorem put_strings_isSome {root : ℕ} (h : Held k root T D) (strs : List (List UInt8))
    (slot bp : ℕ) :
    ∃ r, put_strings root strs slot (k, bp) = some r ∧ Writes k r.1 root T D := by
  induction strs generalizing k slot bp with
  | nil => exact ⟨(k, bp), rfl, .refl h⟩
  | cons str rest ih =>
    obtain ⟨k₁, hk₁, hw₁⟩ := put_word_isSome h (slot, bp)
    obtain ⟨r₂, hr₂, -⟩ := copy_to_va_view (str.length + 1) (bytesOf str) hw₁.held
      (Nat.mod_lt bp (show 0 < 2 ^ 64 by norm_num))
    have hk₂ : put_string root k₁ bp str = some r₂.2 := by rw [put_string, hr₂, Option.map_some]
    have hw₂ := put_string_writes hw₁.held hk₂
    obtain ⟨r, hr, hw⟩ := ih hw₂.held (slot + 8) (bp + str.length + 1)
    refine ⟨r, ?_, (hw₁.trans hw₂).trans hw⟩
    rw [put_strings, hk₁, Option.bind_some, hk₂, Option.bind_some, hr]

/-- The stack of a program can be written whatever is mapped. -/
theorem exec_stack_isSome {root : ℕ} {argv envp : List (List UInt8)} (h : Held k root T D)
    (exec_helper entry : ℕ) (hargv : argv.length ≤ ARGS_MAX)
    (henvp : envp.length ≤ ENVS_MAX) :
    ∃ k', exec_stack exec_helper entry argv envp root k = some k' ∧ Writes k k' root T D := by
  obtain ⟨r₁, hr₁, hw₁⟩ := put_strings_isSome h argv (ustack + 8) SharedPages.USER_STACK_BOTTOM
  obtain ⟨r₂, hr₂, hw₂⟩ :=
    put_strings_isSome hw₁.held envp (ustack + 8 * (argv.length + 2)) r₁.2
  obtain ⟨k', hk', hw'⟩ :=
    put_words_isSome hw₂.held (exec_words exec_helper entry argv.length envp.length)
  refine ⟨k', ?_, (hw₁.trans hw₂).trans hw'⟩
  rw [exec_stack, if_neg (by omega), hr₁, Option.bind_some, hr₂, Option.bind_some, hk']

/-- A well-formed space, with as many records as the stack has pages, one of them for its
last page. -/
structure StackOnly (k : Kern) (p : Space) (T : List ℕ) : Prop where
  ok : SpaceOk k.mem p T
  fresh : Fresh k (p.owned T)
  records : p.mapping_list.length = 60
  top : recordsAt p.mapping_list (USER_STACK_TOP - PGSIZE) ≠ []

/-- Nothing of it is in the pages that were written or taken. -/
theorem StackOnly.congr {p : Space} {N : List ℕ} (h : StackOnly k p T)
    (hpages : k.pages = N ++ k'.pages) (hs : ∀ P ∈ T, SamePage k.mem k'.mem P) :
    StackOnly k' p T := ⟨h.ok.congr hs, fresh_of_suffix h.fresh hpages, h.records, h.top⟩

theorem StackOnly.writes {p : Space} {T' : List ℕ} (h : StackOnly k p T)
    (hw : Writes k k' p.pgtbl T' (pas p)) : StackOnly k' p T := by
  refine h.congr (N := []) hw.pages.symm fun P hP => hw.frame P (h.ok.table.kpage P hP) ?_
  intro hD
  exact (List.nodup_append.mp h.ok.nodup).2.2 P hP P hD rfl

/-- A byte of its last page can be written. -/
theorem StackOnly.access (h : StackOnly k q.space T) :
    ∃ a, q.access k.mem (USER_STACK_TOP - PGSIZE) = some a := by
  have hlow : USER_STACK_TOP - PGSIZE < MAXVA := by decide
  have hvalid := ((h.ok.leaves _ hlow).mapped h.top).1
  rw [Proc.access, if_pos hlow, if_pos hvalid]
  exact ⟨_, rfl⟩

/-- **`exec` of a program without segments**, given 181 free pages. -/
theorem exec_isSome (exec_helper : ℕ) {buf : Mem} {entry : ℕ} {argv envp : List (List UInt8)}
    (hf : Fresh k []) (hlen : 181 ≤ k.pages.length)
    (hload : ∀ t, load_elf buf t = .ok (entry, t)) (hentry : entry ≠ ERROR)
    (hargv : argv.length ≤ ARGS_MAX) (henvp : envp.length ≤ ENVS_MAX) :
    ∃ k' p T, exec exec_helper k (some buf) argv envp = some (k', some p) ∧ StackOnly k' p T ∧
      k.pages.length ≤ k'.pages.length + 181 := by
  obtain ⟨⟨root, k₁⟩, hc⟩ := pgtbl_create_isSome (show 0 < k.pages.length by omega)
  have hcreate : Builds k k₁ ⟨root, []⟩ [root] (pas ⟨root, []⟩) [root] := .create hf hc
  have hspace := SpaceOk.create hf hc
  have hfresh : Fresh k₁ (Space.owned ⟨root, []⟩ [root]) :=
    hf.of_pages (N := [root]) hcreate.pages
  have hlen₁ := congrArg List.length hcreate.pages
  rw [List.length_append, List.length_singleton] at hlen₁
  -- the sixty pages of the stack
  have hup : PGROUNDUP USER_STACK_TOP - SharedPages.USER_STACK_BOTTOM = 60 * PGSIZE := by decide
  have hal : SharedPages.USER_STACK_BOTTOM % PGSIZE = 0 := by decide
  have hend : USER_STACK_TOP ≤ MAXVA := by decide
  obtain ⟨r, hr⟩ := alloc_vm_isSome (k := k₁) hspace hfresh hal hend LoadImage.segment_perm_ok (by
    rw [hup, Nat.mul_div_cancel _ (by norm_num)]
    omega)
  obtain ⟨T, N, hev⟩ := alloc_vm_spec hspace hfresh hal hend LoadImage.segment_perm_ok hr
  obtain ⟨T', N', hloads⟩ := alloc_vm_loads hcreate.held LoadImage.segment_perm_ok hr
  have hrecords := alloc_vm_length hal (by decide) hr
  rw [hup, Nat.mul_div_cancel _ (by norm_num)] at hrecords
  have hcost := hloads.cost
  have hlen₂ := congrArg List.length hloads.ext.pages
  rw [List.length_append] at hlen₂
  obtain ⟨k', hk', hw⟩ := exec_stack_isSome hloads.held exec_helper entry hargv henvp
  -- the last turn of `alloc_vm` is for the last page
  have htop : recordsAt r.proc.mapping_list (USER_STACK_TOP - PGSIZE) ≠ [] := by
    intro hnil
    have hview := congrFun (alloc_vm_view hcreate.held LoadImage.segment_perm_ok hr).2.2
      (USER_STACK_TOP - PGSIZE)
    have hlow : USER_STACK_TOP - PGSIZE < MAXVA := by decide
    have hlast : Visits SharedPages.USER_STACK_BOTTOM USER_STACK_TOP (USER_STACK_TOP - PGSIZE) :=
      ⟨59, by decide, by decide⟩
    rw [zeroed, if_pos ⟨hlow, hlast⟩, ← hev.root,
      view_of_leaf_zero ((hev.ok.leaves _ hlow).unmapped hnil)] at hview
    cases hview
  have hstack : StackOnly r.kern r.proc T :=
    ⟨hev.ok, hev.fresh hfresh, by simpa using hrecords, htop⟩
  refine ⟨k', r.proc, T, ?_, hstack.writes hw, ?_⟩
  · rw [exec, hc, Option.bind_some, load, hload]
    simp only [Except.toOption, Option.bind_some, if_neg hentry, hr, hk', Option.map_some]
  · rw [hw.pages]
    simp only [List.length_nil] at hcost hrecords
    omega

/-- **`fork` of such a process**, given 181 free pages. -/
theorem fork_isSome {p : Space} (h : StackOnly k p T) (hlen : 181 ≤ k.pages.length)
    (exec_helper trapframe : ℕ) :
    ∃ c T', fork exec_helper k p trapframe = some c ∧ StackOnly c.kern c.np T' := by
  obtain ⟨hok, hf, hrecords, htop⟩ := h
  obtain ⟨⟨root, k₁⟩, hc⟩ := pgtbl_create_isSome (show 0 < k.pages.length by omega)
  have hf₀ : Fresh k [] := ⟨(List.nodup_append.mp hf.nodup).2.1, hf.kpage⟩
  have hcreate : Builds k k₁ ⟨root, []⟩ [root] [] [root] := .create hf₀ hc
  have hap : Apart k₁ p ⟨root, []⟩ T [root] := hf.of_pages (N := [root]) hcreate.pages
  have hok₁ : SpaceOk k₁.mem p T := by
    refine hok.congr fun P hP => hcreate.frame P (hok.table.kpage P hP) fun hroot => ?_
    exact (hap.parent_ne (List.mem_append_left _ hP)).1 hroot
  have hlen₁ := congrArg List.length hcreate.pages
  rw [List.length_append, List.length_singleton] at hlen₁
  obtain ⟨c, hcopy⟩ := copy_pagetable_isSome hok₁ (SpaceOk.create hf₀ hc) hap rfl (by omega)
  have hcopied := copy_pagetable_spec hok₁ (SpaceOk.create hf₀ hc) hap rfl hcopy
  obtain ⟨T', N, -, hev⟩ := hcopied.child
  -- the child has the records of the parent
  have hchild : StackOnly c.kern c.np T' := by
    refine ⟨hev.ok, hev.fresh hap.child, ?_, ?_⟩
    · have hkeys := congrArg List.length hcopied.keys
      simp only [List.length_map, List.length_reverse] at hkeys
      omega
    · intro hnil
      exact htop ((ForkCopy.records_nil hcopied _).mp hnil)
  obtain ⟨k', hk', hw⟩ := put_words_isSome (Held.of_spaceOk hchild.ok hchild.fresh)
    [(trapframe + 24, 0), (context + 16, trapframe), (context, exec_helper)]
  refine ⟨{ c with kern := k' }, T', ?_, hchild.writes hw⟩
  rw [fork, hc, Option.bind_some, hcopy, Option.bind_some, hk', Option.map_some]

/-! ### Steps that are made -/

theorem step_exec {elf_buf : Option Mem} {argv envp : List (List UInt8)} {p : Space}
    (hi : s.procs i = none)
    (h : UserMem.exec exec_helper s.kern elf_buf argv envp = some (k', some p)) :
    ∃ s', step exec_helper s (.exec i elf_buf argv envp) = some s' ∧ s'.kern = k' ∧
      s'.procs i = some ⟨p, [], taken s.kern k'⟩ ∧ ∀ j ≠ i, s'.procs j = s.procs j := by
  refine ⟨_, by simp only [step, hi, h, Option.map_some]; rfl, rfl, by simp, fun j hj => ?_⟩
  simp [hj]

theorem step_mmap {length : ℕ} (hi : s.procs i = some q)
    (h : sys_mmap s.kern 0 length = some (a, k')) :
    ∃ s', step exec_helper s (.mmap i length) = some s' ∧ s'.kern = k' ∧
      s'.procs i = some { q with ranges := (a, length) :: q.ranges } ∧
      ∀ j ≠ i, s'.procs j = s.procs j := by
  refine ⟨_, by simp only [step, hi, Option.bind_some, h, Option.map_some]; rfl, rfl, by simp,
    fun j hj => ?_⟩
  simp [hj]

theorem step_fork {trapframe : ℕ} {r : CopyState} (hi : s.procs i = some q)
    (hj : s.procs j = none) (h : UserMem.fork exec_helper s.kern q.space trapframe = some r) :
    ∃ s', step exec_helper s (.fork i j trapframe) = some s' ∧ s'.kern = r.kern ∧
      s'.procs i = some { q with space := r.p } ∧
      s'.procs j = some ⟨r.np, q.ranges, taken s.kern r.kern⟩ := by
  have hij : i ≠ j := by
    rintro rfl
    rw [hi] at hj
    cases hj
  exact ⟨_, by simp only [step, hi, hj, h, Option.map_some]; rfl, rfl, by simp [hij], by simp⟩

/-! ### One history -/

def program : Mem := bytesOf (StaleBytes.empty_program 1)

theorem load_program (t : Task) : load_elf program t = .ok (0x10000, t) := by
  have hentry : program.load 24 8 = 0x10000 := by decide +kernel
  rw [← hentry]
  apply StaleBytes.load_elf_skip
  · exact StaleBytes.accepts_iff.mpr (StaleBytes.matches_empty 1 (by simp))
  · decide +kernel
  · decide +kernel

/-- A process is executed, gets memory from `sys_mmap`, and forks. -/
def history : List Event :=
  [.exec 1 (some program) [[115, 104]] [], .mmap 1 16, .fork 1 2 0x7FFEF000]

theorem run_history : ∃ s a q₁ q₂ T, run (step 0) (boot (spare 400)) history = some s ∧
    Meets (step 0) Ok (boot (spare 400)) history ∧ s.procs 1 = some q₁ ∧ s.procs 2 = some q₂ ∧
    q₁.ranges = [(a, 16)] ∧ q₂.ranges = [(a, 16)] ∧ KPage a ∧ StackOnly s.kern q₂.space T := by
  have hlen : (spare 400).pages.length = 400 := by simp [spare]
  have hargv : [[(115 : UInt8), 104]].length ≤ ARGS_MAX := by decide
  have henvp : ([] : List (List UInt8)).length ≤ ENVS_MAX := by decide
  have hfresh : Fresh (spare 400) [] := spare_fresh (by norm_num)
  obtain ⟨k₁, p, T, hexec, hstack, hlen₁⟩ :=
    exec_isSome 0 hfresh (by omega) load_program (by decide) hargv henvp
  obtain ⟨a, rest, hpages⟩ := List.exists_cons_of_length_pos (show 0 < k₁.pages.length by omega)
  obtain ⟨k₂, hk₂⟩ : ∃ k₂, kmalloc k₁ 16 = some (a, k₂) := ⟨_, kmalloc_of_cons (by decide) hpages⟩
  have hpages₂ := (kmalloc_eq_some hk₂).1
  have ha : KPage a := hstack.fresh.kpage a (by rw [hpages]; exact List.mem_cons_self)
  -- the new page is none of the space
  have hstack₂ : StackOnly k₂ p T := by
    refine hstack.congr (N := [a]) hpages₂ fun P hP =>
      samePage_kmalloc hk₂ ha.aligned (hstack.ok.table.kpage P hP).aligned ?_
    rintro rfl
    refine (List.nodup_append.mp hstack.fresh.nodup).2.2 P (List.mem_append_left _ hP) P ?_ rfl
    rw [hpages]
    exact List.mem_cons_self
  have hlen₂ := congrArg List.length hpages₂
  rw [List.length_cons] at hlen₂
  obtain ⟨c, T', hfork, hchild⟩ := fork_isSome hstack₂ (by omega) 0 0x7FFEF000
  -- the three states
  obtain ⟨s₁, h₁, hkern₁, hone₁, hother₁⟩ := step_exec (i := 1) (s := boot (spare 400)) rfl hexec
  have htwo₁ : s₁.procs 2 = none := hother₁ 2 (by decide)
  have hmmap : sys_mmap s₁.kern 0 16 = some (a, k₂) := by
    have hint : (BitVec.ofNat 32 16).toInt = 16 := by decide
    rw [sys_mmap, if_neg (by simp), hint, hkern₁, hk₂]
  obtain ⟨s₂, h₂, hkern₂, hone₂, hother₂⟩ := step_mmap hone₁ hmmap
  have htwo₂ : s₂.procs 2 = none := (hother₂ 2 (by decide)).trans htwo₁
  rw [← hkern₂] at hfork
  obtain ⟨s₃, h₃, hkern₃, hone₃, htwo₃⟩ := step_fork hone₂ htwo₂ hfork
  refine ⟨s₃, a, _, _, T', ?_, ?_, hone₃, htwo₃, rfl, rfl, ha, hkern₃ ▸ hchild⟩
  · exact run_cons_eq_some.mpr ⟨s₁, h₁, run_cons_eq_some.mpr ⟨s₂, h₂, run_cons_eq_some.mpr
      ⟨s₃, h₃, rfl⟩⟩⟩
  · refine Meets.cons ⟨trivial, trivial⟩ h₁ (Meets.cons ⟨show 16 ≤ PGSIZE by decide, trivial⟩ h₂
      (Meets.cons ⟨?_, trivial⟩ h₃ trivial))
    intro q hq r hr
    obtain rfl := Option.some.inj (hone₂.symm.trans hq)
    exact (hstack₂.ok.recs r hr).aligned

/-! ## All stores -/

/-- The event is a store by a process other than `j`. -/
def StoreByOther (j : ℕ) (e : Event) : Prop := ∃ i x c, i ≠ j ∧ e = .store i x c

/-- **The processes are isolated in every run whose steps meet the condition**: whatever was
executed, mapped and forked before, the stores of the others change no byte that `j` reads. -/
theorem fork_isolated {k₀ : Kern} {es stores : List Event} (hf : Fresh k₀ [])
    (hok : Meets (step exec_helper) Ok (boot k₀) (es ++ stores))
    (hrun : run (step exec_helper) (boot k₀) es = some s)
    (hstores : ∀ e ∈ stores, StoreByOther j e)
    (hrun' : run (step exec_helper) s stores = some s') : s'.read j = s.read j := by
  -- the invariant needs the condition on the history only
  have hinv : ∀ {es s}, Meets (step exec_helper) Ok (boot k₀) es →
      run (step exec_helper) (boot k₀) es = some s → Inv k₀.pages s := by
    intro es s hok hrun
    exact Inv.of_run hf (meets_iff.mpr fun es₁ e es₂ s₁ he h₁ =>
      (meets_iff.mp hok es₁ e es₂ s₁ he h₁).1) hrun
  -- the stores one after the other
  induction stores generalizing es s with
  | nil =>
    obtain rfl : s = s' := by simpa using hrun'
    rfl
  | cons e stores ih =>
    obtain ⟨hhead, hrest⟩ := List.forall_mem_cons.mp hstores
    obtain ⟨i, x, c, hij, rfl⟩ := hhead
    obtain ⟨s₁, h₁, h₂⟩ := run_cons_eq_some.mp hrun'
    have hunseen : Unseen s (.store i x c) := (meets_iff.mp hok es _ stores s rfl hrun).2
    have hrun₁ : run (step exec_helper) (boot k₀) (es ++ [.store i x c]) = some s₁ :=
      run_append_eq_some.mpr ⟨s, hrun, run_cons_eq_some.mpr ⟨s₁, h₁, rfl⟩⟩
    have hok₁ : Meets (step exec_helper) Ok (boot k₀) (es ++ [.store i x c] ++ stores) := by
      rwa [List.append_assoc]
    rw [ih hok₁ hrun₁ hrest h₂]
    exact (store_unseen_iff (hinv hok.of_append hrun) h₁).mpr hunseen j fun e => hij e.symm

/-- The child writes to the stack it inherited, and its parent reads what it read before. -/
theorem fork_isolated_stack : ∃ s s',
    run (step 0) (boot (spare 400)) history = some s ∧
      run (step 0) s [.store 2 (USER_STACK_TOP - PGSIZE) 7] = some s' ∧ s'.read 1 = s.read 1 := by
  obtain ⟨s, a, q₁, q₂, T, hrun, hok, -, hq₂, -, -, -, hstack⟩ := run_history
  obtain ⟨y, hy⟩ := hstack.access
  have hstore : step 0 s (.store 2 (USER_STACK_TOP - PGSIZE) 7) =
      some { s with kern := poked s.kern y 7 } := by
    simp [step, hq₂, hy]
  have hstores : run (step 0) s [.store 2 (USER_STACK_TOP - PGSIZE) 7] =
      some { s with kern := poked s.kern y 7 } := run_cons_eq_some.mpr ⟨_, hstore, rfl⟩
  refine ⟨s, _, hrun, hstores, fork_isolated (spare_fresh (by norm_num)) ?_ hrun ?_ hstores⟩
  · exact hok.append hrun (Meets.cons ⟨trivial, .inl (by decide)⟩ hstore trivial)
  · intro e he
    exact ⟨2, _, 7, by decide, List.mem_singleton.mp he⟩

/-- **The memory of `sys_mmap` is shared.** The child writes to a range that its parent got
before the fork, and the parent reads the new byte. -/
theorem mmap_shared : ∃ s s' x c, run (step 0) (boot (spare 400)) history = some s ∧
    step 0 s (.store 2 x c) = some s' ∧ s.read 1 x ≠ s'.read 1 x := by
  obtain ⟨s, a, q₁, q₂, T, hrun, -, hq₁, hq₂, hranges₁, hranges₂, ha, -⟩ := run_history
  have hhigh : ¬ a < MAXVA := by
    have := ha.bounds
    unfold MAIN_KERNEL_DMW PGSIZE at this
    unfold MAXVA
    omega
  have hin : ∀ q : Proc, q.ranges = [(a, 16)] → q.InRange a := by
    intro q hq
    exact ⟨(a, 16), by simp [hq], le_refl a, by simp⟩
  have hstore : step 0 s (.store 2 a (s.kern.mem a + 1)) =
      some { s with kern := poked s.kern a (s.kern.mem a + 1) } := by
    simp [step, hq₂, Proc.access, hhigh, hin q₂ hranges₂]
  refine ⟨s, _, a, _, hrun, hstore, ?_⟩
  rw [read_high hq₁ hhigh, if_pos (hin q₁ hranges₁), read_high (by exact hq₁) hhigh,
    if_pos (hin q₁ hranges₁)]
  simp [poked, Mem.poke]

end Loos.Isolation
