/-
The pids of the tasks, from `proc_init` on.

`last_pid` hands out each pid once, but a pid does not stay with the task it was
made for: `sys_execve` moves the pid of its caller to the new task and gives the
caller -1, and a slot that a failed `exec` has freed keeps its pid until it is
taken again. The invariant [`Tree`] of the table says what is left of
uniqueness then. Here the machine starts one step earlier than [`boot`], so that
`user_init` is a step of it, and `proc_find` is shown to be right about every pid.

`last_pid` is an `int`: the machine halts before it overflows, with the task
number 2^31.
-/
import Loos.Tasks

set_option autoImplicit false

namespace Loos.Sched

open SysLib Proc
open alloc_state proc_state

/-! ## From `proc_init` -/

/-- After `proc_init`: the scheduler's own task runs `kmain`. -/
def kmain_start : Sys where
  table := proc_init
  context := fun _ => .start
  cur := 0
  running := false
  i := 0
  run := false

/-- `user_init`; it panics without `/bin/busybox`. -/
def Sys.user_init (s : Sys) : Option Sys :=
  (s.table.exec true).bind fun r => r.1.map fun np =>
    { s with table := r.2, context := Function.update s.context np .start }

/-- What the kernel does: `user_init`, in its own task, or an event. -/
inductive Call where
  | user_init
  | event (e : Event)
deriving DecidableEq

/-- One call; `none` if it is not possible. -/
def call (s : Sys) : Call → Option Sys
  | .user_init => if s.running then none else s.user_init
  | .event e => step s e

variable {s s' : Sys} {c : Call} {cs : List Call} {i j : ℕ} {n : ℤ}

/-- The scheduler starts after `user_init`. -/
theorem user_init_start : kmain_start.user_init.map Sys.table = some boot.table := rfl

theorem Inv.kmain_start : Inv Sched.kmain_start := by
  refine ⟨Tree.proc_init, .inl rfl, fun h => ?_, fun i pos pid w h => ?_⟩
  · cases h
  · cases h

/-- `user_init` takes a free slot and changes no other one. -/
theorem user_init_spec (h : s.user_init = some s') : ∃ np t, s.table.exec true = some (some np, t) ∧
    s' = { s with table := t, context := Function.update s.context np .start } := by
  obtain ⟨⟨r, t⟩, hexec, h⟩ := Option.bind_eq_some_iff.mp h
  obtain ⟨np, hr, rfl⟩ := Option.map_eq_some_iff.mp h
  dsimp only at hr
  exact ⟨np, t, hr ▸ hexec, rfl⟩

theorem Inv.user_init (hi : Inv s) (hrun : s.running = false) (h : s.user_init = some s') :
    Inv s' := by
  obtain ⟨np, t, hexec, rfl⟩ := user_init_spec h
  obtain ⟨np', hnp, hfree, -, -, hold⟩ := exec_found_spec hexec
  obtain rfl := Option.some.inj hnp
  have hne : ∀ j, s.Used j → j ≠ np := fun j hj => hfree.ne hj
  refine ⟨hi.tree.exec_found hexec, ?_, fun hr => ?_, fun i pos pid w hcont => ?_⟩
  · have h0 := congrArg task_struct.state (hold 0 (hne 0 hi.tree.kproc_used))
    exact h0 ▸ hi.kproc
  · exact absurd (hrun.symm.trans hr) (by decide)
  · -- the new task is in its program, so the wait loop is an old one
    dsimp only at hcont
    have hin : i ≠ np := by
      rintro rfl
      rw [Function.update_self] at hcont
      cases hcont
    rw [Function.update_of_ne hin] at hcont
    obtain ⟨hused, hparent⟩ := hi.waits i pos pid w hcont
    have hpos := hold pos (hne pos hused)
    unfold Sys.Used Sys.proc at *
    dsimp only
    rw [hpos]
    exact ⟨hused, hparent⟩

theorem Inv.of_call (hi : Inv s) (h : call s c = some s') : Inv s' := by
  cases c with
  | user_init =>
    rw [call] at h
    split_ifs at h with hrun
    exact hi.user_init (by simpa using hrun) h
  | event e => exact hi.of_step h

theorem Inv.of_calls (h : run call Sched.kmain_start cs = some s) : Inv s := by
  apply Reachable.invariant Inv Inv.kmain_start _ ⟨cs, h⟩
  intro s c s' hi h
  exact hi.of_call h

/-! ## `proc_find` -/

/-- `proc_find` finds a task if there is one. -/
theorem proc_find_none {t : Table} (ht : Tree t) (h : t.proc_find n = none)
    (hj : (t.proc j).allocs = USED) : (t.proc j).pid ≠ n := by
  have hlt : j < PROC_MAX := ht.used_lt j hj
  have hnot := List.find?_eq_none.mp h j (List.mem_range.mpr hlt)
  simp only [hj, beq_self_eq_true, Bool.true_and, beq_iff_eq] at hnot
  exact hnot

/-- The task that `proc_find` finds is the only one with its pid. -/
theorem proc_find_iff {t : Table} (ht : Tree t) (hn : 0 ≤ n) :
    t.proc_find n = some i ↔ (t.proc i).allocs = USED ∧ (t.proc i).pid = n := by
  refine ⟨Table.proc_find_some, fun ⟨hused, hpid⟩ => ?_⟩
  cases hfind : t.proc_find n with
  | none => exact absurd hpid (proc_find_none ht hfind hused)
  | some k =>
    have hk := Table.proc_find_some hfind
    have hne : (t.proc k).pid ≠ -1 := by
      rw [hk.2]
      omega
    rw [ht.pid_inj k i hk.1 hused (hk.2.trans hpid.symm) hne]

/-- **A pid names one task.** In every state the kernel reaches, two tasks have
one pid only where it is -1, every pid is below `last_pid`, and `proc_find` returns
the task with the pid it is asked for, or `NULL` if there is none. -/
theorem pids_of_calls (h : run call kmain_start cs = some s) :
    (∀ j k, s.Used j → s.Used k → 0 ≤ (s.proc j).pid → (s.proc j).pid = (s.proc k).pid → j = k) ∧
    (∀ j, s.Used j → (s.proc j).pid < s.table.last_pid) ∧
    ∀ n, 0 ≤ n → (∀ i, s.table.proc_find n = some i ↔ s.Used i ∧ (s.proc i).pid = n) ∧
      (s.table.proc_find n = none ↔ ∀ i, s.Used i → (s.proc i).pid ≠ n) := by
  have ht : Tree s.table := (Inv.of_calls h).tree
  refine ⟨fun j k hj hk hpos heq => ?_, fun j hj => (ht.pid j hj).2, fun n hn => ⟨fun i => ?_, ?_⟩⟩
  · have hne : (s.table.proc j).pid ≠ -1 := by
      unfold Sys.proc at hpos
      omega
    exact ht.pid_inj j k hj hk heq hne
  · exact proc_find_iff ht hn
  · refine ⟨fun hnone i hi => proc_find_none ht hnone hi, fun hall => ?_⟩
    rw [Option.eq_none_iff_forall_ne_some]
    intro i hi
    obtain ⟨hused, hpid⟩ := (proc_find_iff ht hn).mp hi
    exact hall i hused hpid

/-- A shell that forks, runs a program, fails to run another one, and forks again. -/
def shell_session : List Call :=
  [.user_init, .event .sched, .event .sched, .event .fork, .event (.execve true), .event .timer,
    .event .sched, .event (.execve false), .event .fork, .event (.exit 0), .event .sched]

theorem pids_of_shell_session : ∃ s, run call kmain_start shell_session = some s ∧
    s.table.last_pid = 6 ∧ s.table.proc_find 1 = some 3 ∧ s.table.proc_find 4 = none ∧
      (∀ j k, s.Used j → s.Used k → 0 ≤ (s.proc j).pid → (s.proc j).pid = (s.proc k).pid →
        j = k) ∧ ∀ j, s.Used j → (s.proc j).pid < s.table.last_pid := by
  have heval : (run call kmain_start shell_session).map
      (fun s => (s.table.last_pid, s.table.proc_find 1, s.table.proc_find 4)) =
        some (6, some 3, none) := by decide +kernel
  obtain ⟨s, hs, he⟩ := Option.map_eq_some_iff.mp heval
  obtain ⟨hlast, he⟩ := Prod.mk.inj he
  obtain ⟨hfound, hnone⟩ := Prod.mk.inj he
  exact ⟨s, hs, hlast, hfound, hnone, (pids_of_calls hs).1, (pids_of_calls hs).2.1⟩

end Loos.Sched
