/-
The wait loop of `sys_wait4` and the task it tests.

`sys_wait4` looks the task with the pid up once and then tests that slot again
and again. `sys_execve` moves the pid to another slot, so a child that is
replaced while its parent waits for it leaves the parent with the old slot.
[`WaitsOk`] says that this has not happened: the slot that a loop tests is the one
and only with the pid, and the next test after its death ends the loop. A run is
clear of the fault if every event is [`WaitsClear`]: no task is replaced while a
loop tests it, and no loop is entered for the pid -1, which `sys_execve` gives to
every image it replaces, when several tasks have it.
-/
import Loos.Tasks

set_option autoImplicit false

namespace Loos.Sched

open SysLib Proc
open alloc_state proc_state

variable {s s' : Sys} {e : Event} {es : List Event} {i j pos : ℕ} {pid : ℤ} {w : Bool}

/-- The task `j` has the pid `pid`. -/
def Sys.Carries (s : Sys) (pid : ℤ) (j : ℕ) : Prop := s.Used j ∧ (s.proc j).pid = pid

instance (s : Sys) (pid : ℤ) (j : ℕ) : Decidable (s.Carries pid j) :=
  inferInstanceAs (Decidable (_ = _ ∧ _))

/-- Every wait loop for a pid tests the task that has it, and when a child with
this pid is dead then the next test, whatever happens before it, ends the loop
and returns the pid. -/
structure WaitsOk (s : Sys) : Prop where
  carrier : ∀ i pos pid w, (s.context i).cont = .wait_pid pos pid w →
    ∀ j, s.Carries pid j ↔ j = pos
  report : ∀ i pos pid w j, (s.context i).cont = .wait_pid pos pid w → s.Carries pid j →
    (s.proc j).parent = some i → (s.proc j).state = TASK_ZOMBIE → ∀ es s', run step s es = some s' →
      Meets step (fun s e => ¬ s.Acts i e) s es → s'.running = true → s'.cur = i →
        ∃ s'', step s' .resume = some s'' ∧ (s''.context i).cont = .user ∧ (s''.context i).a0 = pid

/-- The loop of `cont` neither tests the task `cur` nor waits for -1. -/
def Cont.Spares (cur : ℕ) : Cont → Prop
  | .wait_pid pos pid _ => pos ≠ cur ∧ pid ≠ -1
  | _ => True

instance (cur : ℕ) : ∀ cont : Cont, Decidable (cont.Spares cur)
  | .user | .wait_any _ => .isTrue trivial
  | .wait_pid _ _ _ => inferInstanceAs (Decidable (_ ∧ _))

/-- A task is replaced only while no loop tests it or waits for -1, and when
`sys_wait4` is called for a pid, at most one task has it. -/
def WaitsClear (s : Sys) : Event → Prop
  | .execve true => ∀ i < PROC_MAX, (s.context i).cont.Spares s.cur
  | .wait4 pid _ => pid ≠ -1 → ∀ j < PROC_MAX, ∀ k < PROC_MAX,
      s.Carries (pid.setWidth 32).toInt j → s.Carries (pid.setWidth 32).toInt k → j = k
  | _ => True

instance (s : Sys) : ∀ e : Event, Decidable (WaitsClear s e)
  | .execve true => inferInstanceAs (Decidable (∀ _ < PROC_MAX, _))
  | .wait4 _ _ => inferInstanceAs (Decidable (_ → ∀ _ < PROC_MAX, ∀ _ < PROC_MAX, _ → _ → _))
  | .execve false | .sched | .timer | .insn | .fork | .exit _ | .resume => .isTrue trivial

/-! ## One event -/

/-- Where the carriers of a pid come from. -/
theorem Change.carries (hc : Change s e s') (hi : Inv s) (h : s'.Carries pid j) :
    s.Carries pid j ∨ (e = .execve true ∧ (pid = -1 ∨ s.Carries pid s.cur)) ∨
      (e = .fork ∧ pid = s.table.last_pid) := by
  by_cases hj : s.Used j
  · rcases (hc.keeps hi hj).2.2 with hpid | ⟨he, -, hpid⟩
    · exact .inl ⟨hj, hpid.symm.trans h.2⟩
    · exact .inr (.inl ⟨he, .inl (h.2.symm.trans hpid)⟩)
  -- otherwise the slot has been taken in this event
  have hsame : SameTree s.table s'.table → False := fun hs =>
    hj ((hs.allocs j).symm.trans h.1)
  cases hc with
  | advance i run hrun => exact (hj h.1).elim
  | dispatch hrun hused hpid hstate => exact (hsame sameTree_switch_to).elim
  | timer huser => exact (hsame sameTree_yield).elim
  | insn huser => exact (hj h.1).elim
  | fork huser np t hfork =>
    obtain ⟨-, -, hnew, hold⟩ := fork_spec hfork (hi.cur huser.1).1
    rcases eq_or_ne j np with rfl | hne
    · exact .inr (.inr ⟨rfl, h.2.symm.trans (congrArg task_struct.pid hnew)⟩)
    · exact (hj ((congrArg task_struct.allocs (hold j hne)).symm.trans h.1)).elim
  | execve_fail huser t hexec =>
    obtain ⟨-, -, np, -, hfree, -, hold⟩ :=
      exec_not_found_spec hexec fun np hnp => hi.tree.not_mem hnp
    rcases eq_or_ne j np with rfl | hne
    · cases hfree.symm.trans h.1
    · exact (hj ((congrArg task_struct.allocs (hold j hne)).symm.trans h.1)).elim
  | execve huser np t ret hexec =>
    have hcur := (hi.cur huser.1).1
    obtain ⟨np', q, -, hr, -, -, -, hnew, hold⟩ := execve_spec hexec hi.tree hcur
    obtain rfl := Option.some.inj hr
    rcases eq_or_ne j np with rfl | hne
    · refine .inr (.inl ⟨rfl, .inr ⟨hcur, ?_⟩⟩)
      exact (congrArg task_struct.pid hnew).symm.trans h.2
    · exact (hj ((congrArg task_struct.allocs (hold j hne)).symm.trans h.1)).elim
  | exit huser code => exact (hsame sameTree_exit).elim
  | reap hrun he pos w hstate hused hparent => exact (hsame sameTree_reap).elim
  | sleep hrun he cont hcont => exact (hsame sameTree_yield).elim
  | ret hrun he v => exact (hj h.1).elim

/-- The task that a loop tests is the only one with its pid. -/
def Carrier (s : Sys) : Prop := ∀ i pos pid w, (s.context i).cont = .wait_pid pos pid w →
  ∀ j, s.Carries pid j ↔ j = pos

theorem Carrier.of_step (hs : Carrier s) (hi : Inv s) (he : WaitsClear s e)
    (h : step s e = some s') : Carrier s' := by
  have hc := step_change hi h
  intro i pos pid w hcont
  -- before the event `pos` has the pid alone, and the event does not replace it
  have hpos : (∀ j, s.Carries pid j ↔ j = pos) ∧ (e = .execve true → pos ≠ s.cur ∧ pid ≠ -1) := by
    have hold : ∀ i, (s.context i).cont = .wait_pid pos pid w →
        (∀ j, s.Carries pid j ↔ j = pos) ∧ (e = .execve true → pos ≠ s.cur ∧ pid ≠ -1) := by
      refine fun i hcont => ⟨hs i pos pid w hcont, ?_⟩
      rintro rfl
      obtain ⟨hused, hparent⟩ := hi.waits i pos pid w hcont
      have := he i (hi.tree.used_lt i (hi.tree.parent pos i hused hparent))
      rwa [hcont] at this
    rcases hc.cont (j := i) with hsame | huser | ⟨-, -, hw, hsleep⟩
    · exact hold i (hsame ▸ hcont)
    · rw [huser] at hcont
      cases hcont
    · rw [hcont] at hsleep
      rcases hsleep with hcur | ⟨pid₀, rfl, hne, rfl, hused, hpid, -⟩
      · exact hold s.cur hcur
      · refine ⟨fun j => ⟨fun hj => ?_, fun hj => hj ▸ ⟨hused, hpid⟩⟩, fun h => by cases h⟩
        exact he hne j (hi.tree.used_lt j hj.1) pos (hi.tree.used_lt pos hused) hj ⟨hused, hpid⟩
  obtain ⟨hiff, hexec⟩ := hpos
  have hcar : s.Carries pid pos := (hiff pos).mpr rfl
  refine fun j => ⟨fun hj => ?_, ?_⟩
  · rcases hc.carries hi hj with hj | ⟨hx, hj | hj⟩ | ⟨-, hlast⟩
    · exact (hiff j).mp hj
    · exact absurd hj (hexec hx).2
    · exact absurd ((hiff s.cur).mp hj).symm (hexec hx).1
    · have := (hi.tree.pid pos hcar.1).2
      have := hcar.2
      unfold Sys.proc at *
      omega
  · rintro rfl
    obtain ⟨hused, -, hpid | ⟨hx, hcur, -⟩⟩ := hc.keeps hi hcar.1
    · exact ⟨hused, hpid.trans hcar.2⟩
    · exact absurd hcur (hexec hx).1

/-- A task in a wait loop stays there until it acts. -/
theorem Change.stays (hc : Change s e s') (hi : Inv s) (hused : s.Used i)
    (hcont : (s.context i).cont ≠ .user) (hidle : ¬ s.Acts i e) :
    (s'.context i).cont = (s.context i).cont := by
  have huser : s.InUser → i ≠ s.cur := by
    rintro hu rfl
    exact hcont hu.2
  have hwait : s.running = true → e.Waits → i ≠ s.cur := by
    rintro hrun hw rfl
    refine hidle ⟨hrun, rfl, ?_, ?_⟩ <;> rintro rfl <;> exact hw
  cases hc with
  | advance i run hrun => rfl
  | dispatch hrun hused hpid hstate => rfl
  | timer hu => rw [context_yield, if_neg (huser hu)]
  | insn hu => rfl
  | fork hu np t hfork =>
    obtain ⟨hfree, -⟩ := fork_spec hfork (hi.cur hu.1).1
    rw [context_ret, if_neg (huser hu)]
    exact congrArg _ (Function.update_of_ne (hfree.ne hused) ..)
  | execve_fail hu t hexec => rw [context_ret, if_neg (huser hu)]
  | execve hu np t ret hexec =>
    obtain ⟨np', q, -, hr, hfree, -⟩ := execve_spec hexec hi.tree (hi.cur hu.1).1
    obtain rfl := Option.some.inj hr
    rw [context_ret, if_neg (huser hu)]
    exact congrArg _ (Function.update_of_ne (hfree.ne hused) ..)
  | exit hu code => rw [context_exit, if_neg (huser hu)]
  | reap hrun he pos w hstate hu hparent => rw [context_reap, if_neg (hwait hrun he)]
  | sleep hrun he cont hsleep => rw [context_yield, if_neg (hwait hrun he)]
  | ret hrun he v => rw [context_ret, if_neg (hwait hrun he)]

/-- The task `i` waits for the dead task `pos`. -/
structure WaitsForDead (i pos : ℕ) (pid : ℤ) (w : Bool) (s : Sys) : Prop where
  inv : Inv s
  cont : (s.context i).cont = .wait_pid pos pid w
  pid : (s.proc pos).pid = pid
  state : (s.proc pos).state = TASK_ZOMBIE

/-- A dead task stays dead until its parent acts. -/
theorem WaitsForDead.of_step (h : WaitsForDead i pos pid w s) (hidle : ¬ s.Acts i e)
    (hstep : step s e = some s') : WaitsForDead i pos pid w s' := by
  have hi := h.inv
  have hc := step_change hi hstep
  obtain ⟨hused, hparent⟩ := hi.waits i pos pid w h.cont
  have hi_used := hi.tree.parent pos i hused hparent
  -- a dead task does not run
  have hdead : s.running = true → pos ≠ s.cur := by
    rintro hrun rfl
    have := (hi.cur hrun).2.2
    rw [h.state] at this
    rcases this with h | h <;> cases h
  have hcont := hc.stays hi hi_used (by rw [h.cont]; exact Cont.noConfusion) hidle
  refine ⟨hi.of_step hstep, hcont.trans h.cont, ?_, ?_⟩
  · rcases (hc.keeps hi hused).2.2 with hpid | ⟨rfl, hcur, -⟩
    · exact hpid.trans h.pid
    · exact absurd hcur (hdead (execve_inUser hstep).1)
  · have hm := hc.moves hi hused
    rw [h.state] at hm
    generalize (s'.proc pos).state = b at hm ⊢
    cases hm with
    | keep => rfl
    | kproc _ _ h0 _ =>
      rw [h0] at hparent
      cases hi.tree.kproc_parent.symm.trans hparent
    | exit => rfl
    | execve _ hj huser _ => exact absurd hj (hdead huser.1)
    | reap hpar hrun hw =>
      refine (hidle ⟨hrun, Option.some.inj (hpar.symm.trans hparent), ?_, ?_⟩).elim <;>
        rintro rfl <;> exact hw

/-- The test of the loop reports the dead task. -/
theorem WaitsForDead.resume (h : WaitsForDead i pos pid w s) (hrun : s.running = true)
    (hcur : s.cur = i) : ∃ s', step s .resume = some s' ∧ (s'.context i).cont = .user ∧
      (s'.context i).a0 = pid := by
  subst hcur
  refine ⟨s.reap pos w, ?_, ?_, ?_⟩
  · rw [step, if_pos hrun, h.cont]
    exact congrArg some (if_pos h.state)
  · rw [context_reap, if_pos rfl]
  · rw [context_reap, if_pos rfl]
    exact h.pid

/-! ## Main results -/

/-- **A wait loop tests the task that has the pid, and reports its death**, in a
run in which no task is replaced while a loop tests it. -/
theorem wait_loop_carrier (hok : Meets step WaitsClear boot es)
    (hrun : run step boot es = some s) : WaitsOk s := by
  have hinv : Inv s ∧ Carrier s := by
    refine run_invariant _ (fun s => Inv s ∧ Carrier s)
      (fun _ _ _ hs he h => ⟨hs.1.of_step h, hs.2.of_step hs.1 he h⟩)
      ⟨Inv.boot, fun i pos pid w h => ?_⟩ hok hrun
    cases h
  refine ⟨hinv.2, fun i pos pid w j hcont hj hparent hstate es' s' hrun' hidle hr hcur => ?_⟩
  obtain rfl := (hinv.2 i pos pid w hcont j).mp hj
  have hdead : WaitsForDead i j pid w s := ⟨hinv.1, hcont, hj.2, hstate⟩
  exact (run_invariant _ (WaitsForDead i j pid w) (fun _ _ _ h hidle hstep => h.of_step hidle hstep)
    hdead hidle hrun').resume hr hcur

/-- The child is replaced before its parent waits for it, and exits meanwhile. -/
def waitAfterExec : List Event :=
  [.sched, .sched, .fork, .timer, .sched, .execve true, .timer, .sched, .timer] ++
    List.replicate 63 .sched ++ [.wait4 2 true, .sched, .sched, .exit 7]

theorem wait_loop_carrier_after_exec :
    ∃ s, run step boot waitAfterExec = some s ∧ (s.context 1).cont = .wait_pid 3 2 true ∧
      (s.proc 3).state = TASK_ZOMBIE ∧ WaitsOk s := by
  have heval : (run step boot waitAfterExec).map
      (fun s => ((s.context 1).cont, (s.proc 3).state))
      = some (.wait_pid 3 2 true, TASK_ZOMBIE) := by decide +kernel
  obtain ⟨s, hs, he⟩ := Option.map_eq_some_iff.mp heval
  obtain ⟨hcont, hstate⟩ := Prod.mk.inj he
  exact ⟨s, hs, hcont, hstate, wait_loop_carrier (by decide +kernel) hs⟩

/-- The parent waits first. Its loop tests the slot 2, and the pid 2 has moved to
the slot 3. -/
theorem wait_loop_old_slot :
    ∃ s, run step boot [.sched, .sched, .fork, .wait4 2 true, .sched, .execve true] = some s ∧
      ¬ WaitsOk s := by
  have heval : (run step boot [.sched, .sched, .fork, .wait4 2 true, .sched, .execve true]).map
      (fun s => ((s.context 1).cont, (s.proc 2).pid)) = some (.wait_pid 2 2 true, -1) := by
    decide +kernel
  obtain ⟨s, hs, he⟩ := Option.map_eq_some_iff.mp heval
  obtain ⟨hcont, hpid⟩ := Prod.mk.inj he
  refine ⟨s, hs, fun hok => ?_⟩
  have := ((hok.carrier 1 2 2 true hcont 2).mpr rfl).2
  rw [hpid] at this
  exact absurd this (by decide)

end Loos.Sched
