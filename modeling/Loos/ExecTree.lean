/-
The children of a task that calls `sys_execve`.

`sys_execve` puts the program into a new task, which gets the pid and the place of
its caller among the children of the caller's parent. The ring of the caller's own
children, and their `parent` pointers, stay with the old task: the process has
lost them. So the call is harmless in one case only, when there are none.
-/
import Loos.Tasks

set_option autoImplicit false

namespace Loos.Sched

open SysLib Proc
open alloc_state proc_state

variable {s s' : Sys} {es : List Event} {p np np' j : ℕ}

/-- `j` is a child of `p` that lives, or is dead and has not been waited for. -/
def Sys.Child (s : Sys) (p j : ℕ) : Prop :=
  s.Used j ∧ (s.proc j).parent = some p ∧ (s.proc j).state ≠ TASK_KILLED

instance (s : Sys) (p j : ℕ) : Decidable (s.Child p j) :=
  inferInstanceAs (Decidable (_ ∧ _ = some p ∧ _ ≠ TASK_KILLED))

/-- The same state, but the task `j` has died and `np` is running. -/
def Sys.died (s : Sys) (j np : ℕ) : Sys :=
  { s with
    table := s.table.modify j fun x => { x with state := TASK_ZOMBIE }
    cur := np }

/-- `sys_wait4(arg)` of the task `np` returns the pid of `j` once `j` is the only
child that has died. -/
def Sys.CanWait (s : Sys) (np j : ℕ) (arg : BitVec 64) : Prop :=
  (∀ i ∈ (s.proc np).children, i ≠ j → (s.proc i).state ≠ TASK_ZOMBIE) →
    ∃ s', (s.died j np).sys_wait4 arg false = some s' ∧
      (s'.context np).cont = .user ∧ (s'.context np).a0 = (s.proc j).pid

/-- From `s` to `s'` the task `np` has taken over the pid of the task that was running. -/
structure Replaces (s s' : Sys) (np : ℕ) : Prop where
  free : s.table.Free np
  used : s'.Used np
  pid : (s'.proc np).pid = (s.proc s.cur).pid

/-- The children of the task that was running are now those of `np`. -/
structure ChildrenKept (s s' : Sys) (np : ℕ) : Prop where
  children : ∀ j, s'.Child np j ↔ s.Child s.cur j
  pid : ∀ j, s.Child s.cur j → (s'.proc j).pid = (s.proc j).pid
  listed : ∀ j, s.Child s.cur j → j ∈ (s'.proc np).children
  wait : ∀ j, s.Child s.cur j →
    s'.CanWait np j (BitVec.ofInt 64 (s.proc j).pid) ∧ s'.CanWait np j (-1)

/-! ## One call -/

/-- A successful `sys_execve`, with the slot of the new task and its parent. -/
theorem execve_step (hi : Inv s) (h : step s (.execve true) = some s') :
    ∃ np q, s.Used s.cur ∧ Replaces s s' np ∧ (s'.proc np).parent = some q ∧ s.Used q ∧
      ∀ j, j ≠ np → (s'.proc j).allocs = (s.proc j).allocs ∧
        (s'.proc j).parent = (s.proc j).parent := by
  have hc := step_change hi h
  cases hc with
  | execve huser np t ret hexec =>
    have hused := (hi.cur huser.1).1
    obtain ⟨np', q, -, hr, hfree, hq, -, hnew, hold⟩ := execve_spec hexec hi.tree hused
    obtain rfl := Option.some.inj hr
    refine ⟨np, q, hused, ⟨hfree, ?_, ?_⟩, ?_, hi.tree.parent _ q hused hq, ?_⟩
    · show (t.proc np).allocs = USED
      rw [hnew]
    · show (t.proc np).pid = (s.table.proc s.cur).pid
      rw [hnew]
    · show (t.proc np).parent = some q
      rw [hnew]
    · intro j hj
      show (t.proc j).allocs = (s.table.proc j).allocs ∧ (t.proc j).parent = (s.table.proc j).parent
      rw [hold j hj]
      exact ⟨rfl, rfl⟩
  | reap _ he => exact he.elim
  | sleep _ he => exact he.elim
  | ret _ he => exact he.elim

/-- The new task has no children: no task in use points to a free slot. -/
theorem no_child_of_new (hi : Inv s) (h : step s (.execve true) = some s')
    (hr : Replaces s s' np) : ¬ s'.Child np j := by
  obtain ⟨np', q, -, hr', hparent, hq, hold⟩ := execve_step hi h
  -- only one slot is taken
  have hnp : np = np' := by
    by_contra hne
    have := (hold np hne).1.symm.trans hr.used
    exact hr.free.ne this rfl
  subst hnp
  intro hj
  obtain ⟨hused, hpar, -⟩ := hj
  rcases eq_or_ne j np with rfl | hne
  · rw [hparent] at hpar
    exact hr.free.ne hq (Option.some.inj hpar)
  · obtain ⟨hallocs, hpar'⟩ := hold j hne
    have hused' : s.Used j := hallocs.symm.trans hused
    exact hr.free.ne (hi.tree.parent j np hused' (hpar'.symm.trans hpar)) rfl

/-! ## Main result -/

/-- **`sys_execve` keeps the children of its caller exactly when there are none.** -/
theorem execve_children (hrun : run step boot es = some s)
    (h : step s (.execve true) = some s') :
    (∃ np, Replaces s s' np) ∧
      ∀ np, Replaces s s' np → (ChildrenKept s s' np ↔ ∀ j, ¬ s.Child s.cur j) := by
  have hi := Inv.of_run hrun
  obtain ⟨np', q, -, hr', -⟩ := execve_step hi h
  refine ⟨⟨np', hr'⟩, ?_⟩
  intro np hr
  constructor
  · intro hkept j hj
    exact no_child_of_new hi h hr ((hkept.children j).mpr hj)
  · intro hnone
    refine ⟨fun j => ?_, ?_, ?_, ?_⟩
    · exact iff_of_false (no_child_of_new hi h hr) (hnone j)
    all_goals
      intro j hj
      exact absurd hj (hnone j)

/-- The program that `user_init` has started calls `sys_execve` as the first thing. -/
theorem execve_children_first_task : ∃ s s' np, run step boot [.sched, .sched] = some s ∧
    step s (.execve true) = some s' ∧ Replaces s s' np ∧ ChildrenKept s s' np := by
  have heval : (run step boot [.sched, .sched]).map (fun s =>
      (step s (.execve true)).isSome && decide (∀ j ∈ List.range PROC_MAX, ¬ s.Child s.cur j)) =
      some true := by
    decide +kernel
  obtain ⟨s, hs, heval⟩ := Option.map_eq_some_iff.mp heval
  rw [Bool.and_eq_true, Option.isSome_iff_exists, decide_eq_true_eq] at heval
  obtain ⟨⟨s', hs'⟩, hnone⟩ := heval
  obtain ⟨⟨np, hnp⟩, hiff⟩ := execve_children hs hs'
  refine ⟨s, s', np, hs, hs', hnp, (hiff np hnp).mpr ?_⟩
  intro j hj
  have hlt := (Inv.of_run hs).tree.used_lt j hj.1
  exact hnone j (List.mem_range.mpr hlt) hj

/-- **A child is lost.** The task 1 has the child 2 and calls `sys_execve`: the child 2
is not one of the new task 3. -/
theorem execve_loses_child : ∃ s s', run step boot [.sched, .sched, .fork] = some s ∧
    step s (.execve true) = some s' ∧ Replaces s s' 3 ∧ s.Child 1 2 ∧ ¬ ChildrenKept s s' 3 := by
  have heval : ((run step boot [.sched, .sched, .fork]).bind fun s =>
      (step s (.execve true)).map fun s' =>
        (decide (s.table.Free 3 ∧ s'.Used 3 ∧ (s'.proc 3).pid = (s.proc s.cur).pid),
          decide (s.cur = 1 ∧ s.Child 1 2 ∧ ¬ s'.Child 3 2))) = some (true, true) := by
    decide +kernel
  obtain ⟨s, hs, heval⟩ := Option.bind_eq_some_iff.mp heval
  obtain ⟨s', hs', heval⟩ := Option.map_eq_some_iff.mp heval
  simp only [Prod.mk.injEq, decide_eq_true_eq] at heval
  obtain ⟨⟨hfree, hused, hpid⟩, hcur, hchild, hlost⟩ := heval
  refine ⟨s, s', hs, hs', ⟨hfree, hused, hpid⟩, hchild, ?_⟩
  intro hkept
  have := (hkept.children 2).mpr
  rw [hcur] at this
  exact hlost (this hchild)

end Loos.Sched
