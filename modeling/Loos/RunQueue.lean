/-
Who runs, who may run, and when the machine stops.

There is no queue of runnable tasks: the scheduler walks over the whole table and
the tasks it runs change the table behind it and in front of it. What makes a
pass without a run meaningful is the flag `run`. It is set when a task is
dispatched and cleared only at the start of a pass, so as long as it is clear
nothing has run since then, and no slot the scheduler has passed can have become
runnable. [`Switching`] carries this through a run, together with the one place
where `TASK_RUNNING` may stand: the task that runs, or the scheduler's own.
-/
import Loos.Tasks

set_option autoImplicit false

namespace Loos.Sched

open SysLib Proc
open alloc_state proc_state

variable {s s' : Sys} {e : Event} {es : List Event} {i j : ℕ} {cont : Cont}

/-- A dead task: `TASK_ZOMBIE`, or `TASK_KILLED` once it has been waited for or
replaced. -/
def Sys.Dead (s : Sys) (j : ℕ) : Prop :=
  s.Used j ∧ ((s.proc j).state = TASK_ZOMBIE ∨ (s.proc j).state = TASK_KILLED)

/-- The task in the slot `j` can be switched to. -/
def Sys.Runnable (s : Sys) (j : ℕ) : Prop :=
  s.Used j ∧ (s.proc j).pid ≠ 0 ∧ (s.proc j).state = TASK_RUNABLE

/-- What holds between the tasks and the scheduler in every state. -/
structure Switching (s : Sys) : Prop where
  running : ∀ j, s.Used j → (s.proc j).state = TASK_RUNNING → j = if s.running then s.cur else 0
  ran : s.running = true → s.run = true
  swept : s.running = false → s.run = false → ∀ j, j < s.i → ¬ s.Runnable j

/-! ## New tasks -/

/-- A task is there before the event, or starts as `TASK_RUNABLE`. -/
theorem Change.used_or_runable (hc : Change s e s') (hi : Inv s) (hj : s'.Used j) :
    s.Used j ∨ (s'.proc j).state = TASK_RUNABLE := by
  have hsame : SameTree s.table s'.table → s.Used j := fun h => (h.allocs j).symm.trans hj
  cases hc with
  | advance i run hrun => exact .inl hj
  | dispatch hrun hused hpid hstate => exact .inl (hsame sameTree_switch_to)
  | timer huser => exact .inl (hsame sameTree_yield)
  | insn huser => exact .inl hj
  | fork huser np t hfork =>
    obtain ⟨-, -, hnew, hold⟩ := fork_spec hfork (hi.cur huser.1).1
    unfold Sys.Used Sys.proc Sys.ret at *
    dsimp only at hj ⊢
    by_cases hnp : j = np
    · right
      rw [hnp, hnew]
    · left
      rwa [hold j hnp] at hj
  | execve_fail huser t hexec =>
    obtain ⟨-, -, np, -, hun, -, hold⟩ := exec_not_found_spec hexec fun np hnp => hi.tree.not_mem hnp
    unfold Sys.Used Sys.proc Sys.ret at *
    dsimp only at hj ⊢
    have hnp : j ≠ np := by
      rintro rfl
      rw [hun] at hj
      cases hj
    left
    rwa [hold j hnp] at hj
  | execve huser np t ret hexec =>
    obtain ⟨np', q, -, hr, -, -, -, hnew, hold⟩ := execve_spec hexec hi.tree (hi.cur huser.1).1
    obtain rfl := Option.some.inj hr
    unfold Sys.Used Sys.proc Sys.ret at *
    dsimp only at hj ⊢
    by_cases hnp : j = np
    · right
      rw [hnp, hnew]
    · left
      rwa [hold j hnp] at hj
  | exit huser code => exact .inl (hsame sameTree_exit)
  | reap hrun he pos w hstate hused hparent => exact .inl (hsame sameTree_reap)
  | sleep hrun he cont hcont => exact .inl (hsame sameTree_yield)
  | ret hrun he v => exact .inl hj

/-! ## One event -/

theorem Switching.running_yield (hw : Switching s) (hrun : s.running = true)
    (hj : (s.yield cont).Used j) (hst : ((s.yield cont).proc j).state = TASK_RUNNING) :
    j = 0 := by
  have hused : s.Used j := (sameTree_yield.allocs j).symm.trans hj
  rw [state_yield] at hst
  split_ifs at hst with h0 hcur
  · exact h0
  · -- only the task that yields was running
    have hone := hw.running j hused hst
    rw [if_pos hrun] at hone
    exact absurd ⟨hone, hst⟩ hcur

/-- `TASK_RUNNING` stands at one task after the event as well. -/
theorem Change.running (hc : Change s e s') (hi : Inv s) (hw : Switching s) (hj : s'.Used j)
    (hst : (s'.proc j).state = TASK_RUNNING) : j = if s'.running then s'.cur else 0 := by
  have hused : s.Used j := by
    rcases hc.used_or_runable hi hj with hused | hnew
    · exact hused
    · exact absurd (hst.symm.trans hnew) (by decide)
  have hold := hw.running j hused
  cases hc with
  | advance i run hrun => exact hold hst
  | dispatch hrun husedi hpid hstate =>
    rw [state_switch_to] at hst
    split_ifs at hst with hslot h0
    · exact hslot
    · -- while the scheduler runs, no task but its own is running
      rw [if_neg (by simp [hrun])] at hold
      exact absurd (hold hst) h0
  | timer huser => exact hw.running_yield huser.1 hj hst
  | insn huser => exact hold hst
  | fork huser np t hfork =>
    have h := congrArg task_struct.state (fork_old hi huser hfork hused)
    exact hold (h.symm.trans hst)
  | execve_fail huser t hexec =>
    have h := congrArg task_struct.state (execve_fail_old hi hexec hused)
    exact hold (h.symm.trans hst)
  | execve huser np t ret hexec =>
    obtain ⟨q, h⟩ := execve_old hi huser hexec hused
    have h := (congrArg task_struct.state h).symm.trans hst
    dsimp only at h
    split_ifs at h with hcur
    exact hold h
  | exit huser code =>
    rw [state_exit] at hst
    split_ifs at hst with h0 hcur
    · exact h0
    · rw [if_pos huser.1] at hold
      exact absurd (hold hst) hcur
  | reap hrun he pos w hstate husedp hparent =>
    rw [state_reap] at hst
    split_ifs at hst with hpos
    exact hold hst
  | sleep hrun he cont hcont => exact hw.running_yield hrun hj hst
  | ret hrun he v => exact hold hst

/-- A round of the loop in `scheduler` leaves no runnable task behind, unless
it runs it. -/
theorem Switching.swept_scheduler (hw : Switching s) (hrun : s.running = false)
    (h : s.scheduler = some s') (hrun' : s'.running = false) (hclear : s'.run = false) :
    ∀ j, j < s'.i → ¬ s'.Runnable j := by
  have hnext : s.run = false → ¬ s.Runnable s.i → ∀ j, j < s.i + 1 → ¬ s.Runnable j := by
    intro hr hlast j hj
    rcases Nat.lt_succ_iff_lt_or_eq.mp hj with hlt | rfl
    · exact hw.swept hrun hr j hlt
    · exact hlast
  unfold Sys.scheduler at h
  split_ifs at h with hi hskip hstate hr
  · obtain rfl := Option.some.inj h
    refine hnext hclear fun ⟨hused, hpid, _⟩ => ?_
    rcases hskip with hun | hzero
    · exact absurd (hused.symm.trans hun) (by decide)
    · exact hpid hzero
  · obtain rfl := Option.some.inj h
    exact absurd hrun' (by simp [Sys.switch_to])
  · obtain rfl := Option.some.inj h
    exact hnext hclear fun ⟨_, _, hrunable⟩ => hstate hrunable
  · -- a new pass has seen no slot yet
    obtain rfl := Option.some.inj h
    intro j hj
    exact absurd hj (Nat.not_lt_zero j)

/-- Whatever stops a running task, `run` has been set. -/
theorem Change.run (hc : Change s e s') (hw : Switching s) (hrun : s.running = true) :
    s'.run = true := by
  have hr := hw.ran hrun
  cases hc with
  | advance i run hrun' => exact absurd (hrun.symm.trans hrun') (by decide)
  | dispatch hrun' hused hpid hstate => rfl
  | timer huser => exact hr
  | insn huser => exact hr
  | fork huser np t hfork => exact hr
  | execve_fail huser t hexec => exact hr
  | execve huser np t ret hexec => exact hr
  | exit huser code => exact hr
  | reap hrun' he pos w hstate hused hparent => exact hr
  | sleep hrun' he cont hcont => exact hr
  | ret hrun' he v => exact hr

/-- The scheduler runs only its own loop. -/
theorem step_scheduler (hrun : s.running = false) (h : step s e = some s') :
    e = .sched ∧ s.scheduler = some s' := by
  have huser : ¬ s.InUser := fun hu => absurd (hrun.symm.trans hu.1) (by decide)
  cases e with
  | sched =>
    rw [step, if_neg (by simp [hrun])] at h
    exact ⟨rfl, h⟩
  | resume =>
    rw [step, if_neg (by simp [hrun])] at h
    cases h
  | _ =>
    rw [step, if_neg huser] at h
    cases h

theorem scheduler_switch (h : s.scheduler = some s') (hrun : s.running = false)
    (hrun' : s'.running = true) : s.Runnable s.i ∧ s' = s.switch_to := by
  unfold Sys.scheduler at h
  split_ifs at h with hi hskip hstate hr
  · obtain rfl := Option.some.inj h
    exact absurd (hrun.symm.trans hrun') (by decide)
  · obtain ⟨hused, hpid⟩ := not_or.mp hskip
    exact ⟨⟨used_of_ne_unused hused, hpid, hstate⟩, (Option.some.inj h).symm⟩
  · obtain rfl := Option.some.inj h
    exact absurd (hrun.symm.trans hrun') (by decide)
  · obtain rfl := Option.some.inj h
    exact absurd (hrun.symm.trans hrun') (by decide)

theorem Switching.of_step (hw : Switching s) (hi : Inv s) (h : step s e = some s') :
    Switching s' := by
  have hc := step_change hi h
  refine ⟨fun j => hc.running hi hw, fun hrun' => ?_, fun hrun' hclear => ?_⟩
  · by_cases hrun : s.running = true
    · exact hc.run hw hrun
    · have hrun : s.running = false := by simpa using hrun
      have hsw := scheduler_switch (step_scheduler hrun h).2 hrun hrun'
      rw [hsw.2]
      rfl
  · by_cases hrun : s.running = true
    · exact absurd (hclear.symm.trans (hc.run hw hrun)) (by decide)
    · have hrun : s.running = false := by simpa using hrun
      exact hw.swept_scheduler hrun (step_scheduler hrun h).2 hrun' hclear

/-! ## Runs -/

theorem Switching.boot : Switching boot := by
  refine ⟨fun j hj hst => ?_, fun h => ?_, fun _ _ j hj => absurd hj (Nat.not_lt_zero j)⟩
  · -- `user_init` has added one task, which is runnable
    obtain ⟨np, hnp, -, -, hnew, hold⟩ := exec_found_spec exec_boot
    by_contra h0
    have h0 : j ≠ 0 := h0
    by_cases hj1 : j = np
    · have hrunable := congrArg task_struct.state hnew
      rw [← hj1] at hrunable
      cases hst.symm.trans hrunable
    · have hsame := congrArg task_struct.allocs (hold j hj1)
      have hused : (proc_init.proc j).allocs = USED := hsame.symm.trans hj
      rw [proc_init] at hused
      dsimp only at hused
      rw [if_neg h0] at hused
      cases hused
  · cases h

theorem Switching.of_run (h : run step Sched.boot es = some s) : Switching s := by
  have hboth : Inv s ∧ Switching s := by
    apply Reachable.invariant (fun s => Inv s ∧ Switching s) ⟨Inv.boot, Switching.boot⟩ _ ⟨es, h⟩
    intro s e s' hs hstep
    exact ⟨hs.1.of_step hstep, hs.2.of_step hs.1 hstep⟩
  exact hboth.2

theorem Sys.Dead.of_step (hd : s.Dead j) (hi : Inv s) (h : step s e = some s') : s'.Dead j := by
  have hc := step_change hi h
  obtain ⟨hused, hst⟩ := hd
  have hj : j ≠ 0 := by
    rintro rfl
    rcases hi.kproc with hk | hk <;> rcases hst with hz | hz <;>
      exact absurd (hk.symm.trans hz) (by decide)
  refine ⟨(hc.keeps hi hused).1, ?_⟩
  have hm := hc.moves hi hused
  generalize (s.proc j).state = a at hm hst
  generalize (s'.proc j).state = b at hm ⊢
  -- the moves away from `TASK_RUNNING` and `TASK_RUNABLE` are not for a dead task
  cases hm with
  | keep => exact hst
  | kproc _ _ h0 _ => exact absurd h0 hj
  | yield _ _ => simp at hst
  | dispatch _ => simp at hst
  | exit => exact .inl rfl
  | execve => exact .inr rfl
  | reap => exact .inr rfl

theorem Sys.Dead.of_run (hd : s.Dead j) (hi : Inv s) (h : SysLib.run step s es = some s') :
    s'.Dead j := by
  have hboth : Inv s' ∧ s'.Dead j := by
    apply Reachable.invariant (fun s => Inv s ∧ s.Dead j) ⟨hi, hd⟩ _ ⟨es, h⟩
    intro s e s' hs hstep
    exact ⟨hs.1.of_step hstep, hs.2.of_step hs.1 hstep⟩
  exact hboth.2

/-- A task that was running and is stopped, but not by its own `exit`, can be
run again. -/
theorem Change.stops (hc : Change s e s') (hi : Inv s) (hrun : s.running = true)
    (hrun' : s'.running = false) (he : ∀ code, e ≠ .exit code)
    (hst : (s.proc s.cur).state = TASK_RUNNING) : (s'.proc s.cur).state = TASK_RUNABLE := by
  have hcur : s.cur ≠ 0 := (hi.cur hrun).2.1
  have hyield : ∀ cont, ((s.yield cont).proc s.cur).state = TASK_RUNABLE := by
    intro cont
    rw [state_yield, if_neg hcur, if_pos ⟨rfl, hst⟩]
  have hstay : s'.running = s.running → (s'.proc s.cur).state = TASK_RUNABLE := fun h =>
    absurd (hrun.symm.trans (h.symm.trans hrun')) (by decide)
  cases hc with
  | advance i run h => exact absurd (hrun.symm.trans h) (by decide)
  | dispatch h hused hpid hstate => exact absurd (hrun.symm.trans h) (by decide)
  | timer huser => exact hyield _
  | insn huser => exact hstay rfl
  | fork huser np t hfork => exact hstay rfl
  | execve_fail huser t hexec => exact hstay rfl
  | execve huser np t ret hexec => exact hstay rfl
  | exit huser code => exact absurd rfl (he code)
  | reap h hw pos w hstate hused hparent => exact hstay rfl
  | sleep h hw cont hcont => exact hyield _
  | ret h hw v => exact hstay rfl

/-- The machine stops only at the end of a pass in which nothing has run. -/
theorem shutdown (hi : Inv s) (hw : Switching s) (hrun : s.running = false)
    (h : step s .sched = none) : ¬ s.Runnable j := by
  rw [step, if_neg (by simp [hrun])] at h
  unfold Sys.scheduler at h
  split_ifs at h with hlt _ _ hclear
  intro hj
  have hpast : j < s.i := by
    have hlt' : j < PROC_MAX := hi.tree.used_lt j hj.1
    omega
  exact hw.swept hrun (by simpa using hclear) j hpast hj

/-- **The switch protocol.** In every state that the machine reaches: one task at
most is running; a switch is to a runnable task, which is then running; a
running task that is stopped without an `exit` is runnable; a dead task stays dead,
however the machine goes on; and when the machine stops, no task can run. -/
theorem switching_of_run (h : run step boot es = some s) :
    (∀ i j, s.Used i → s.Used j → (s.proc i).state = TASK_RUNNING →
      (s.proc j).state = TASK_RUNNING → i = j) ∧
    (∀ e s', step s e = some s' → s.running = false → s'.running = true →
      s.Runnable s'.cur ∧ (s'.proc s'.cur).state = TASK_RUNNING) ∧
    (∀ e s', step s e = some s' → s.running = true → s'.running = false →
      (∀ code, e ≠ .exit code) → (s.proc s.cur).state = TASK_RUNNING →
      (s'.proc s.cur).state = TASK_RUNABLE) ∧
    (∀ j, s.Dead j → ∀ es' s', run step s es' = some s' → s'.Dead j) ∧
    (s.running = false → step s .sched = none → ∀ j, ¬ s.Runnable j) := by
  have hi : Inv s := Inv.of_run h
  have hw : Switching s := Switching.of_run h
  refine ⟨fun i j hui huj hri hrj => ?_, fun e s' hstep hrun hrun' => ?_,
    fun e s' hstep hrun hrun' he hst => ?_, fun j hd es' s' => hd.of_run hi,
    fun hrun hstop j => shutdown hi hw hrun hstop⟩
  · rw [hw.running i hui hri, hw.running j huj hrj]
  · obtain ⟨hrunnable, rfl⟩ := scheduler_switch (step_scheduler hrun hstep).2 hrun hrun'
    refine ⟨hrunnable, ?_⟩
    rw [state_switch_to]
    exact if_pos rfl
  · exact (step_change hi hstep).stops hi hrun hrun' he hst

/-- The child exits, then its parent, and the scheduler finds nobody. -/
def last_pass : List Event :=
  [.sched, .sched, .fork, .timer, .sched, .exit 3] ++ List.replicate 62 .sched ++
    [.sched, .sched, .exit 0] ++ List.replicate 127 .sched

theorem switching_last_pass : ∃ s, run step boot last_pass = some s ∧ s.running = false ∧
    step s .sched = none ∧ s.Dead 1 ∧ s.Dead 2 ∧ (∀ j, ¬ s.Runnable j) ∧
      ∀ i j, s.Used i → s.Used j → (s.proc i).state = TASK_RUNNING →
        (s.proc j).state = TASK_RUNNING → i = j := by
  have heval : (run step boot last_pass).map (fun s => (s.running, (step s .sched).isNone,
      (s.proc 1).allocs, (s.proc 1).state, (s.proc 2).allocs, (s.proc 2).state)) =
        some (false, true, USED, TASK_ZOMBIE, USED, TASK_ZOMBIE) := by
    decide +kernel
  obtain ⟨s, hs, he⟩ := Option.map_eq_some_iff.mp heval
  simp only [Prod.mk.injEq, Option.isNone_iff_eq_none] at he
  obtain ⟨hrun, hstop, hu1, hz1, hu2, hz2⟩ := he
  have h := switching_of_run hs
  exact ⟨s, hs, hrun, hstop, ⟨hu1, .inl hz1⟩, ⟨hu2, .inl hz2⟩, h.2.2.2.2 hrun hstop, h.1⟩

end Loos.Sched
