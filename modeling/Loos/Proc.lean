/-
The process table of `src/core/proc.c`, with what `fork` and `exec` of
`src/core/exec.c` and `sys_execve` of `src/core/syscall.c` do to it.

A task is named by its slot, so a `struct task_struct *` is a number and `NULL`
is `none`. The ring of a task's `children` is the list of the slots that follow
its head: `list_add` puts a slot in front, and `list_del` of a node takes its
slot out of the list it is in. The memory of a task (page table, stack,
descriptors) is not in the table; [`Loos.Exec`] adds it. A `panic` is `none`, and
so is what C leaves undefined: the overflow of `last_pid` and the use of `NULL`.

[`Tree`] is the invariant of the table: no two tasks have one pid, but for the
images that `sys_execve` has replaced, which all have pid -1, and a child knows
its parent.
-/
import Mathlib.Data.Int.Notation
import Mathlib.Data.List.Basic
import Mathlib.Logic.Function.Basic
import Mathlib.Tactic.Common

set_option autoImplicit false

namespace Loos.Proc

def PROC_MAX : ℕ := 64
def INT_MAX : ℤ := 0x7fffffff

/-- `enum alloc_state`. -/
inductive alloc_state where
  | UNUSED | USED
deriving DecidableEq

/-- `enum proc_state`. -/
inductive proc_state where
  | TASK_RUNNING | TASK_RUNABLE | TASK_ZOMBIE | TASK_KILLED
deriving DecidableEq

open alloc_state proc_state

/-- `struct task_struct`. -/
structure task_struct where
  pid : ℤ
  parent : Option ℕ
  children : List ℕ
  state : proc_state
  allocs : alloc_state
  exit_code : ℤ

/-- `proc` and `last_pid`. -/
structure Table where
  proc : ℕ → task_struct
  last_pid : ℤ

namespace Table

variable (t : Table)

/-! ## Translation -/

/-- Writes to fields of the task `i`. -/
def modify (i : ℕ) (f : task_struct → task_struct) : Table :=
  { t with proc := Function.update t.proc i (f (t.proc i)) }

/-- `list_add(&p->children, &np->tasks)`. -/
def list_add (p np : ℕ) : Table :=
  t.modify p fun x => { x with children := np :: x.children }

/-- `list_del(&p->tasks)`. -/
def list_del (p : ℕ) : Table :=
  { t with proc := fun i => { t.proc i with children := (t.proc i).children.erase p } }

/-- `proc_find`. -/
def proc_find (pid : ℤ) : Option ℕ :=
  (List.range PROC_MAX).find? fun i => (t.proc i).allocs == USED && (t.proc i).pid == pid

/-- `proc_alloc`: takes the first free slot, panics when there is none. -/
def proc_alloc : Option (ℕ × Table) :=
  match (List.range PROC_MAX).find? fun i => (t.proc i).allocs == UNUSED with
  | none => none
  | some i =>
    if t.last_pid = INT_MAX then none
    else
      let t' := t.modify i fun x => { x with pid := t.last_pid, allocs := USED, children := [] }
      some (i, { t' with last_pid := t.last_pid + 1 })

/-- `proc_free`. -/
def proc_free (p : ℕ) : Table :=
  (t.list_del p).modify p fun x => { x with children := [], allocs := UNUSED }

/-- `fork`: the child of `p`. -/
def fork (p : ℕ) : Option (ℕ × Table) :=
  t.proc_alloc.map fun a =>
    (a.1, (a.2.list_add p a.1).modify a.1 fun x =>
      { x with parent := some p, state := TASK_RUNABLE })

/-- `exec`, when the program is found or not. -/
def exec (found : Bool) : Option (Option ℕ × Table) :=
  t.proc_alloc.map fun a =>
    let t := a.2.modify a.1 fun x => { x with parent := some 0, state := TASK_RUNABLE }
    if found then (some a.1, t) else (none, t.proc_free a.1)

/-- The end of `sys_execve`: the new task `np` takes the place of `p`. -/
def replace (p np : ℕ) : Option Table :=
  (t.proc p).parent.map fun q =>
    ((t.modify np fun x =>
        { x with pid := (t.proc p).pid, parent := (t.proc p).parent }).list_add q np).modify p
      fun x => { x with pid := -1, state := TASK_KILLED }

/-- `sys_execve` by the task `p`, with the value it returns. -/
def execve (p : ℕ) (found : Bool) : Option (ℤ × Option ℕ × Table) :=
  (t.exec found).bind fun r =>
    match r.1 with
    | none => some (-1, none, r.2)
    | some np => (r.2.replace p np).map fun t => (0, some np, t)

end Table

/-- A slot as `memset` leaves it. -/
def task_struct.zero : task_struct := ⟨0, none, [], TASK_RUNNING, UNUSED, 0⟩

/-- The table after `proc_init`: the scheduler's own task has the slot 0. -/
def proc_init : Table where
  proc := fun i =>
    if i = 0 then { task_struct.zero with allocs := USED } else task_struct.zero
  last_pid := 1

/-! ## Slots -/

variable {t t' : Table} {i j k p np : ℕ} {f : task_struct → task_struct} {found : Bool}
  {r : Option ℕ} {ret : ℤ}

namespace Table

@[simp] theorem modify_self (t : Table) (i : ℕ) (f : task_struct → task_struct) :
    (t.modify i f).proc i = f (t.proc i) := Function.update_self ..

theorem modify_ne (t : Table) (f : task_struct → task_struct) (h : j ≠ i) :
    (t.modify i f).proc j = t.proc j := Function.update_of_ne h ..

theorem modify_apply (t : Table) (i j : ℕ) (f : task_struct → task_struct) :
    (t.modify i f).proc j = if j = i then f (t.proc j) else t.proc j := by
  split_ifs with h
  · subst h
    exact t.modify_self ..
  · exact t.modify_ne f h

@[simp] theorem modify_last_pid (t : Table) (i : ℕ) (f : task_struct → task_struct) :
    (t.modify i f).last_pid = t.last_pid := rfl

theorem proc_find_some {pid : ℤ} (h : t.proc_find pid = some i) :
    (t.proc i).allocs = USED ∧ (t.proc i).pid = pid := by
  simpa using List.find?_some h

/-- The slot `np` is free. -/
def Free (t : Table) (np : ℕ) : Prop := np < PROC_MAX ∧ (t.proc np).allocs = UNUSED

instance (t : Table) (np : ℕ) : Decidable (t.Free np) :=
  inferInstanceAs (Decidable (_ ∧ _ = UNUSED))

/-- A task in use is not in a free slot. -/
theorem Free.ne (h : t.Free np) (hj : (t.proc j).allocs = USED) : j ≠ np := by
  rintro rfl
  rw [h.2] at hj
  cases hj

theorem proc_alloc_spec (h : t.proc_alloc = some (np, t')) :
    t.Free np ∧ t'.last_pid = t.last_pid + 1 ∧
      t'.proc np = { t.proc np with pid := t.last_pid, allocs := USED, children := [] } ∧
      ∀ j, j ≠ np → t'.proc j = t.proc j := by
  unfold proc_alloc at h
  split at h
  · cases h
  · next i hi =>
    split at h
    · cases h
    obtain ⟨rfl, rfl⟩ := Prod.mk.inj (Option.some.inj h)
    have hfree := List.find?_some (p := fun i => (t.proc i).allocs == UNUSED) hi
    have hlt := List.mem_range.mp (List.mem_of_find?_eq_some hi)
    exact ⟨⟨hlt, by simpa using hfree⟩, rfl, Function.update_self .., fun j hj => Function.update_of_ne hj ..⟩

end Table

/-! ## The tree of tasks -/

/-- What holds of the table at all times. -/
structure Tree (t : Table) : Prop where
  kproc_used : (t.proc 0).allocs = USED
  kproc_parent : (t.proc 0).parent = none
  kproc_pid : (t.proc 0).pid = 0
  last_pid : 0 < t.last_pid
  used_lt : ∀ j, (t.proc j).allocs = USED → j < PROC_MAX
  pid : ∀ j, (t.proc j).allocs = USED → -1 ≤ (t.proc j).pid ∧ (t.proc j).pid < t.last_pid
  pid_inj : ∀ j k, (t.proc j).allocs = USED → (t.proc k).allocs = USED →
    (t.proc j).pid = (t.proc k).pid → (t.proc j).pid ≠ -1 → j = k
  parent : ∀ j i, (t.proc j).allocs = USED → (t.proc j).parent = some i → (t.proc i).allocs = USED
  child : ∀ i j, j ∈ (t.proc i).children → (t.proc j).allocs = USED ∧ (t.proc j).parent = some i

/-- A free slot is nobody's child. -/
theorem Tree.not_mem (h : Tree t) (hnp : t.Free np) (i : ℕ) : np ∉ (t.proc i).children :=
  fun hmem => hnp.ne (h.child i np hmem).1 rfl

theorem Tree.proc_init : Tree proc_init := by
  have hused : ∀ j, (Proc.proc_init.proc j).allocs = USED → j = 0 := by
    intro j hj
    by_contra hne
    rw [Proc.proc_init] at hj
    dsimp only at hj
    rw [if_neg hne] at hj
    cases hj
  have hproc : ∀ j, (Proc.proc_init.proc j).children = [] ∧ (Proc.proc_init.proc j).parent = none ∧
      (Proc.proc_init.proc j).pid = 0 := by
    intro j
    rw [Proc.proc_init]
    dsimp only
    split_ifs <;> exact ⟨rfl, rfl, rfl⟩
  refine ⟨rfl, rfl, rfl, by decide, fun j hj => ?_, fun j _ => ?_, fun j k hj hk _ _ => ?_,
    fun j i _ hi => ?_, fun i j hj => ?_⟩
  · rw [hused j hj]
    decide
  · rw [(hproc j).2.2]
    decide
  · rw [hused j hj, hused k hk]
  · rw [(hproc j).2.1] at hi
    cases hi
  · rw [(hproc i).1] at hj
    cases hj

/-- From `t` to `t'` the tasks at most change their states and exit codes. -/
structure SameTree (t t' : Table) : Prop where
  last_pid : t'.last_pid = t.last_pid
  pid : ∀ j, (t'.proc j).pid = (t.proc j).pid
  parent : ∀ j, (t'.proc j).parent = (t.proc j).parent
  children : ∀ j, (t'.proc j).children = (t.proc j).children
  allocs : ∀ j, (t'.proc j).allocs = (t.proc j).allocs

theorem SameTree.refl (t : Table) : SameTree t t :=
  ⟨rfl, fun _ => rfl, fun _ => rfl, fun _ => rfl, fun _ => rfl⟩

theorem SameTree.trans {t'' : Table} (h : SameTree t t') (h' : SameTree t' t'') :
    SameTree t t'' :=
  ⟨h'.last_pid.trans h.last_pid, fun j => (h'.pid j).trans (h.pid j),
    fun j => (h'.parent j).trans (h.parent j), fun j => (h'.children j).trans (h.children j),
    fun j => (h'.allocs j).trans (h.allocs j)⟩

theorem SameTree.modify (t : Table) (i : ℕ) (hpid : (f (t.proc i)).pid = (t.proc i).pid)
    (hparent : (f (t.proc i)).parent = (t.proc i).parent)
    (hchildren : (f (t.proc i)).children = (t.proc i).children)
    (hallocs : (f (t.proc i)).allocs = (t.proc i).allocs) : SameTree t (t.modify i f) := by
  refine ⟨rfl, fun j => ?_, fun j => ?_, fun j => ?_, fun j => ?_⟩
  all_goals
    rcases eq_or_ne j i with rfl | hne
    · rwa [Table.modify_self]
    · rw [Table.modify_ne _ _ hne]

theorem Tree.congr (h : Tree t) (hs : SameTree t t') : Tree t' := by
  refine ⟨?_, ?_, ?_, ?_, fun j => ?_, fun j => ?_, fun j k => ?_, fun j i => ?_, fun i j => ?_⟩
  · rw [hs.allocs, h.kproc_used]
  · rw [hs.parent, h.kproc_parent]
  · rw [hs.pid, h.kproc_pid]
  · rw [hs.last_pid]
    exact h.last_pid
  · rw [hs.allocs]
    exact h.used_lt j
  · rw [hs.allocs, hs.pid, hs.last_pid]
    exact h.pid j
  · rw [hs.allocs, hs.allocs, hs.pid, hs.pid]
    exact h.pid_inj j k
  · rw [hs.allocs, hs.allocs, hs.parent]
    exact h.parent j i
  · rw [hs.allocs, hs.parent, hs.children]
    exact h.child i j

/-! ## Fork and exec -/

/-- `fork` takes a free slot and puts it in front of the children of `p`. -/
theorem fork_spec (h : t.fork p = some (np, t')) (hp : (t.proc p).allocs = USED) :
    t.Free np ∧ t'.last_pid = t.last_pid + 1 ∧
      t'.proc np = { t.proc np with
        pid := t.last_pid, parent := some p, children := [], state := TASK_RUNABLE,
        allocs := USED } ∧
      ∀ j, j ≠ np → t'.proc j = { t.proc j with
        children := if j = p then np :: (t.proc j).children else (t.proc j).children } := by
  obtain ⟨⟨i, t₁⟩, halloc, hr⟩ := Option.map_eq_some_iff.mp h
  obtain ⟨rfl, rfl⟩ := Prod.mk.inj hr
  obtain ⟨hfree, hlast, hnew, hold⟩ := Table.proc_alloc_spec halloc
  have hne : i ≠ p := (hfree.ne hp).symm
  -- the child is written last; `list_add` changes the parent only
  refine ⟨hfree, hlast, ?_, fun j hj => ?_⟩
  · rw [Table.modify_self, Table.list_add, Table.modify_ne _ _ hne]
    dsimp only
    rw [hnew]
  · rw [Table.modify_ne _ _ hj, Table.list_add]
    split_ifs with hjp
    · subst hjp
      rw [Table.modify_self]
      dsimp only
      rw [hold j hj]
    · rw [Table.modify_ne _ _ hjp]
      dsimp only
      rw [hold j hj]

/-- `exec` makes a runnable child of the scheduler's task in a free slot. -/
theorem exec_found_spec (h : t.exec true = some (r, t')) :
    ∃ np, r = some np ∧ t.Free np ∧ t'.last_pid = t.last_pid + 1 ∧
      t'.proc np = { t.proc np with
        pid := t.last_pid, parent := some 0, children := [], state := TASK_RUNABLE,
        allocs := USED } ∧
      ∀ j, j ≠ np → t'.proc j = t.proc j := by
  obtain ⟨⟨np, t₁⟩, halloc, hr⟩ := Option.map_eq_some_iff.mp h
  obtain ⟨rfl, rfl⟩ := Prod.mk.inj hr
  obtain ⟨hfree, hlast, hnew, hold⟩ := Table.proc_alloc_spec halloc
  refine ⟨np, rfl, hfree, hlast, ?_, fun j hj => ?_⟩
  · rw [Table.modify_self, hnew]
  · rw [Table.modify_ne _ _ hj, hold j hj]

/-- A task made for a program that is not there leaves a free slot behind. -/
theorem exec_not_found_spec (h : t.exec false = some (r, t')) (hun : ∀ np, t.Free np →
    ∀ j, np ∉ (t.proc j).children) :
    r = none ∧ t'.last_pid = t.last_pid + 1 ∧ ∃ np, t.Free np ∧
      (t'.proc np).allocs = UNUSED ∧ (t'.proc np).children = [] ∧
      ∀ j, j ≠ np → t'.proc j = t.proc j := by
  obtain ⟨⟨np, t₁⟩, halloc, hr⟩ := Option.map_eq_some_iff.mp h
  obtain ⟨rfl, rfl⟩ := Prod.mk.inj hr
  obtain ⟨hfree, hlast, -, hold⟩ := Table.proc_alloc_spec halloc
  refine ⟨rfl, hlast, np, hfree, ?_, ?_, fun j hj => ?_⟩
  · rw [Table.proc_free, Table.modify_self]
  · rw [Table.proc_free, Table.modify_self]
  · rw [Table.proc_free, Table.modify_ne _ _ hj, Table.list_del]
    dsimp only
    rw [Table.modify_ne _ _ hj, hold j hj, List.erase_of_not_mem (hun np hfree j)]

/-- `sys_execve` gives the pid and the parent of `p` to a task in a free slot,
and kills `p`. -/
theorem execve_spec (h : t.execve p true = some (ret, r, t')) (ht : Tree t)
    (hp : (t.proc p).allocs = USED) :
    ∃ np q, ret = 0 ∧ r = some np ∧ t.Free np ∧ (t.proc p).parent = some q ∧
      t'.last_pid = t.last_pid + 1 ∧
      t'.proc np = { t.proc np with
        pid := (t.proc p).pid, parent := some q, children := [], state := TASK_RUNABLE,
        allocs := USED } ∧
      ∀ j, j ≠ np → t'.proc j = { t.proc j with
        pid := if j = p then -1 else (t.proc j).pid
        state := if j = p then TASK_KILLED else (t.proc j).state
        children := if j = q then np :: (t.proc j).children else (t.proc j).children } := by
  obtain ⟨⟨r', t₂⟩, hexec, h⟩ := Option.bind_eq_some_iff.mp h
  -- first `exec` takes a slot, then the new task takes the place of `p`
  obtain ⟨⟨np, t₁⟩, halloc, hr⟩ := Option.map_eq_some_iff.mp hexec
  obtain ⟨rfl, rfl⟩ := Prod.mk.inj hr
  obtain ⟨hfree, hlast, hnew, hold⟩ := Table.proc_alloc_spec halloc
  obtain ⟨t₃, hrep, hr⟩ := Option.map_eq_some_iff.mp h
  obtain ⟨rfl, rfl, rfl⟩ : 0 = ret ∧ some np = r ∧ t₃ = t' := by simpa using hr
  obtain ⟨q, hq, rfl⟩ := Option.map_eq_some_iff.mp hrep
  have hpn : p ≠ np := hfree.ne hp
  rw [Table.modify_ne _ _ hpn, hold p hpn] at hq
  have hqn : q ≠ np := hfree.ne (ht.parent p q hp hq)
  refine ⟨np, q, rfl, rfl, hfree, hq, hlast, ?_, fun j hj => ?_⟩
  · rw [Table.modify_ne _ _ hpn.symm, Table.list_add, Table.modify_ne _ _ hqn.symm]
    simp only [Table.modify_self, Table.modify_ne _ _ hpn, hold p hpn, hnew, hq]
  · simp only [Table.list_add, Table.modify, Function.update_apply, hj, hpn, hqn, if_false]
    split_ifs <;> simp_all

/-- A new child `np` of `q` in a free slot. Other tasks keep their pids or lose
them to -1, and no other one has the pid of `np`. -/
theorem Tree.insert {q : ℕ} (h : Tree t) (hfree : t.Free np)
    (hq : (t.proc q).allocs = USED) (hlast : t.last_pid ≤ t'.last_pid)
    (hused : (t'.proc np).allocs = USED) (hparent : (t'.proc np).parent = some q)
    (hchildren : (t'.proc np).children = [])
    (hpid : -1 ≤ (t'.proc np).pid ∧ (t'.proc np).pid < t'.last_pid)
    (hold : ∀ j, j ≠ np → (t'.proc j).parent = (t.proc j).parent ∧
      (t'.proc j).allocs = (t.proc j).allocs ∧
      ∀ i ∈ (t'.proc j).children, i ∈ (t.proc j).children ∨ (i = np ∧ j = q))
    (hkeep : ∀ j, j ≠ np → (t'.proc j).pid = (t.proc j).pid ∨ (t'.proc j).pid = -1)
    (hzero : (t'.proc 0).pid = (t.proc 0).pid)
    (hother : ∀ j, j ≠ np → (t.proc j).allocs = USED → (t'.proc j).pid = (t'.proc np).pid →
      (t'.proc np).pid = -1) : Tree t' := by
  have h0 : 0 ≠ np := hfree.ne h.kproc_used
  have hallocs : ∀ j, (t.proc j).allocs = USED → (t'.proc j).allocs = USED := by
    intro j hj
    rcases eq_or_ne j np with rfl | hne
    · exact hused
    · rw [(hold j hne).2.1, hj]
  refine ⟨hallocs 0 h.kproc_used, ?_, hzero.trans h.kproc_pid,
    Int.lt_of_lt_of_le h.last_pid hlast, fun j hj => ?_, fun j hj => ?_,
    fun j k hj hk he hne => ?_, fun j i hj hi => ?_, fun i j hj => ?_⟩
  · rw [(hold 0 h0).1, h.kproc_parent]
  · rcases eq_or_ne j np with rfl | hjn
    · exact hfree.1
    · rw [(hold j hjn).2.1] at hj
      exact h.used_lt j hj
  · rcases eq_or_ne j np with rfl | hjn
    · exact hpid
    · rw [(hold j hjn).2.1] at hj
      have := h.pid j hj
      have := h.last_pid
      rcases hkeep j hjn with hk | hk <;> rw [hk] <;> omega
  · by_cases hjn : j = np <;> by_cases hkn : k = np
    · rw [hjn, hkn]
    · rw [(hold k hkn).2.1] at hk
      exact absurd (hother k hkn hk (hjn ▸ he.symm)) (hjn ▸ hne)
    · rw [(hold j hjn).2.1] at hj
      subst hkn
      exact absurd (he.trans (hother j hjn hj he)) hne
    · rw [(hold j hjn).2.1] at hj
      rw [(hold k hkn).2.1] at hk
      have hj' := (hkeep j hjn).resolve_right hne
      have hk' := (hkeep k hkn).resolve_right (he ▸ hne)
      exact h.pid_inj j k hj hk (by rw [← hj', ← hk', he]) (by rwa [← hj'])
  · rcases eq_or_ne j np with rfl | hjn
    · rw [hparent] at hi
      exact Option.some.inj hi ▸ hallocs q hq
    · rw [(hold j hjn).2.1] at hj
      rw [(hold j hjn).1] at hi
      exact hallocs i (h.parent j i hj hi)
  · rcases eq_or_ne i np with rfl | hin
    · rw [hchildren] at hj
      cases hj
    · rcases (hold i hin).2.2 j hj with hmem | ⟨rfl, rfl⟩
      · obtain ⟨hu, hpar⟩ := h.child i j hmem
        have hjn : j ≠ np := hfree.ne hu
        rw [(hold j hjn).1, (hold j hjn).2.1]
        exact ⟨hu, hpar⟩
      · exact ⟨hused, hparent⟩

theorem mem_cons_children {q i j : ℕ} {c : List ℕ} (h : i ∈ if j = q then np :: c else c) :
    i ∈ c ∨ (i = np ∧ j = q) := by
  split_ifs at h with hq
  · exact (List.mem_cons.mp h).symm.imp_right fun he => ⟨he, hq⟩
  · exact .inl h

theorem Tree.fork (h : Tree t) (hp : (t.proc p).allocs = USED)
    (hf : t.fork p = some (np, t')) : Tree t' := by
  obtain ⟨hfree, hlast, hnew, hold⟩ := fork_spec hf hp
  have hpid : ∀ j, j ≠ np → (t'.proc j).pid = (t.proc j).pid := fun j hj => by rw [hold j hj]
  have h0 : 0 ≠ np := hfree.ne h.kproc_used
  have := h.last_pid
  refine h.insert hfree hp (by omega) (by rw [hnew]) (by rw [hnew]) (by rw [hnew])
    (by rw [hnew]; dsimp only; omega) (fun j hj => ?_) (fun j hj => .inl (hpid j hj))
    (hpid 0 h0) fun j hj hu he => ?_
  · rw [hold j hj]
    exact ⟨rfl, rfl, fun i hi => mem_cons_children hi⟩
  · rw [hpid j hj, hnew] at he
    have := (h.pid j hu).2
    dsimp only at he
    omega

theorem Tree.execve (h : Tree t) (hp : (t.proc p).allocs = USED)
    (he : t.execve p true = some (ret, r, t')) : Tree t' := by
  obtain ⟨np, q, -, -, hfree, hq, hlast, hnew, hold⟩ := execve_spec he h hp
  have hp0 : 0 ≠ p := by
    rintro rfl
    rw [h.kproc_parent] at hq
    cases hq
  have h0 : 0 ≠ np := hfree.ne h.kproc_used
  have hpid : ∀ j, j ≠ np → (t'.proc j).pid = if j = p then -1 else (t.proc j).pid :=
    fun j hj => by rw [hold j hj]
  have := h.pid p hp
  refine h.insert hfree (h.parent p q hp hq) (by omega) (by rw [hnew]) (by rw [hnew])
    (by rw [hnew]) (by rw [hnew]; dsimp only; omega) (fun j hj => ?_) (fun j hj => ?_)
    (by rw [hpid 0 h0, if_neg hp0]) fun j hj hu he => ?_
  · rw [hold j hj]
    exact ⟨rfl, rfl, fun i hi => mem_cons_children hi⟩
  · rw [hpid j hj]
    split_ifs
    · exact .inr rfl
    · exact .inl rfl
  · rw [hnew] at he ⊢
    rw [hpid j hj] at he
    split_ifs at he with hjp
    · exact he.symm
    · by_contra hne
      exact hjp (h.pid_inj j p hu hp he (he ▸ hne))

/-- `exec` by the kernel makes a child of the scheduler's task. -/
theorem Tree.exec_found (h : Tree t) (he : t.exec true = some (r, t')) : Tree t' := by
  obtain ⟨np, -, hfree, hlast, hnew, hold⟩ := exec_found_spec he
  have h0 : 0 ≠ np := hfree.ne h.kproc_used
  have := h.last_pid
  refine h.insert hfree h.kproc_used (by omega) (by rw [hnew]) (by rw [hnew]) (by rw [hnew])
    (by rw [hnew]; dsimp only; omega) (fun j hj => ?_) (fun j hj => .inl (by rw [hold j hj]))
    (by rw [hold 0 h0]) fun j hj hu he => ?_
  · rw [hold j hj]
    exact ⟨rfl, rfl, fun i hi => .inl hi⟩
  · rw [hold j hj, hnew] at he
    have := (h.pid j hu).2
    dsimp only at he
    omega

/-- `exec` of a program that is not there. -/
theorem Tree.exec_not_found (h : Tree t) (he : t.exec false = some (r, t')) : Tree t' := by
  obtain ⟨-, hlast, np, hfree, hfree', hchildren, hold⟩ :=
    exec_not_found_spec he fun np hnp => h.not_mem hnp
  have hne : ∀ j, (t'.proc j).allocs = USED → j ≠ np := by
    rintro j hj rfl
    rw [hfree'] at hj
    cases hj
  have hne' : ∀ j, (t.proc j).allocs = USED → j ≠ np := fun j hj => hfree.ne hj
  have h0 := hold 0 (hne' 0 h.kproc_used)
  have := h.last_pid
  refine ⟨by rw [h0, h.kproc_used], by rw [h0, h.kproc_parent], by rw [h0, h.kproc_pid],
    by omega, fun j hj => ?_, fun j hj => ?_, fun j k hj hk => ?_, fun j i hj hi => ?_,
    fun i j hj => ?_⟩
  · have hj' := hold j (hne j hj)
    rw [hj'] at hj
    exact h.used_lt j hj
  · have hj' := hold j (hne j hj)
    rw [hj'] at hj ⊢
    have := h.pid j hj
    omega
  · have hj' := hold j (hne j hj)
    have hk' := hold k (hne k hk)
    rw [hj'] at hj ⊢
    rw [hk'] at hk ⊢
    exact h.pid_inj j k hj hk
  · have hj' := hold j (hne j hj)
    rw [hj'] at hj hi
    have hu := h.parent j i hj hi
    rwa [hold i (hne' i hu)]
  · rcases eq_or_ne i np with rfl | hin
    · rw [hchildren] at hj
      cases hj
    · rw [hold i hin] at hj
      have hc := h.child i j hj
      rwa [hold j (hne' j hc.1)]

end Loos.Proc
