/-
A killed task and the rest of the run.

`sys_execve` marks its caller `TASK_KILLED` and returns to it; only the next
timer interrupt takes the processor away. A run is [`Preempted`] if this interrupt
always comes first, before the old image executes an instruction. These are
exactly the runs in which `TASK_KILLED` is final: in every other one the old image
runs on, and it may even exit and be reported as a dead child.
-/
import Loos.Tasks
import Mathlib.Data.List.Chain

set_option autoImplicit false

namespace Loos.Sched

open SysLib Proc
open alloc_state proc_state

variable {s s' s₁ : Sys} {e : Event} {es es' : List Event} {i j : ℕ}

/-- The task `i` is killed. -/
def Sys.Killed (s : Sys) (i : ℕ) : Prop := s.Used i ∧ (s.proc i).state = TASK_KILLED

/-- A task that is killed at some point of the run stays killed, and does
nothing any more. -/
def KilledIsFinal (es : List Event) : Prop :=
  ∀ es₁ es₂ es₃ s₁ s₂ i, es = es₁ ++ es₂ ++ es₃ → run step boot es₁ = some s₁ →
    run step s₁ es₂ = some s₂ → s₁.Killed i → s₂.Killed i ∧ ∀ e ∈ es₃.head?, ¬ s₂.Acts i e

/-- Every successful `sys_execve` is followed at once by a timer interrupt. -/
def Preempted (es : List Event) : Prop :=
  es.IsChain fun e e' => e = .execve true → e' = .timer

instance (es : List Event) : Decidable (Preempted es) :=
  inferInstanceAs (Decidable (List.IsChain _ es))

/-- No killed task runs. -/
def Sys.Clean (s : Sys) : Prop := s.running = true → (s.proc s.cur).state ≠ TASK_KILLED

/-- In the event `e` no killed task comes back or does anything. -/
def KeepsKilled (s : Sys) (e : Event) : Prop :=
  ∀ i, s.Killed i → ¬ s.Acts i e ∧ ∀ s', step s e = some s' → s'.Killed i

/-! ## One event -/

/-- Only a successful `sys_execve` leaves a killed task running. -/
theorem Change.clean (hc : Change s e s') (hi : Inv s) (hs : s.Clean ∨ e = .timer)
    (he : e ≠ .execve true) : s'.Clean := by
  intro hrun
  have hcur : s.running = true → e ≠ .timer → (s.proc s.cur).state = TASK_RUNNING := fun hr ht =>
    (hi.cur hr).2.2.resolve_right (hs.resolve_right ht hr)
  cases hc with
  | advance i run hrun' => exact absurd (hrun.symm.trans hrun') (by decide)
  | dispatch hrun' hused hpid hstate =>
    rw [state_switch_to]
    exact (if_pos rfl).trans_ne (by decide)
  | timer huser => cases hrun
  | insn huser => exact hs.resolve_right (by decide) hrun
  | fork huser np t hfork =>
    have h := congrArg task_struct.state (fork_old hi huser hfork (hi.cur huser.1).1)
    exact (h.trans (hcur huser.1 (by decide))).trans_ne (by decide)
  | execve_fail huser t hexec =>
    have h := congrArg task_struct.state (execve_fail_old hi hexec (hi.cur huser.1).1)
    exact (h.trans (hcur huser.1 (by decide))).trans_ne (by decide)
  | execve huser np t ret hexec => exact absurd rfl he
  | exit huser code => cases hrun
  | reap hrun' hw pos w hstate hused hparent =>
    have ht : e ≠ .timer := by rintro rfl; exact hw
    have hst := hcur hrun' ht
    rw [state_reap, if_neg]
    · exact hst.trans_ne (by decide)
    · -- the task that is reaped is dead, the one that runs is not
      intro hpos
      rw [← hpos] at hstate
      exact absurd (hst.symm.trans hstate) (by decide)
  | sleep hrun' hw cont hcont => cases hrun
  | ret hrun' hw v =>
    have ht : e ≠ .timer := by rintro rfl; exact hw
    exact (hcur hrun' ht).trans_ne (by decide)

theorem keepsKilled_of_clean (hi : Inv s) (hs : s.Clean ∨ e = .timer) : KeepsKilled s e := by
  intro i hk
  have hidle : ¬ s.Acts i e := by
    rintro ⟨hrun, rfl, ht, -⟩
    exact hs.resolve_right ht hrun hk.2
  refine ⟨hidle, fun s' h => ?_⟩
  have hc := step_change hi h
  refine ⟨(hc.keeps hi hk.1).1, ?_⟩
  have hm := hc.moves hi hk.1
  rw [hk.2] at hm
  generalize (s'.proc i).state = b at hm ⊢
  cases hm with
  | keep => rfl
  | kproc _ _ h0 _ =>
    have := hi.kproc
    rw [← h0, hk.2] at this
    rcases this with h | h <;> cases h
  | exit _ hj huser code he =>
    exact (hidle ⟨huser.1, hj.symm, by simp [he], by simp [he]⟩).elim
  | execve _ _ _ _ => rfl

/-- A successful `sys_execve` returns to the task that it has killed. -/
theorem execve_killed (hi : Inv s) (h : step s (.execve true) = some s') :
    s'.running = true ∧ s'.cur = s.cur ∧ s'.Killed s.cur := by
  have hc := step_change hi h
  cases hc with
  | execve huser np t ret hexec =>
    refine ⟨huser.1, rfl, (Change.execve huser np t ret hexec).keeps hi (hi.cur huser.1).1 |>.1, ?_⟩
    obtain ⟨q, hp⟩ := execve_old hi huser hexec (hi.cur huser.1).1
    exact (congrArg task_struct.state hp).trans (if_pos rfl)
  | reap _ he => exact he.elim
  | sleep _ he => exact he.elim
  | ret _ he => exact he.elim

/-! ## Runs -/

/-- In a preempted run no killed task comes back, as long as a killed task that
runs at the start is interrupted. -/
theorem Preempted.meets (hi : Inv s) (hes : Preempted es)
    (hs : s.Clean ∨ ∀ e ∈ es.head?, e = .timer) : Meets step KeepsKilled s es := by
  induction es generalizing s with
  | nil => trivial
  | cons e es ih =>
    have hs : s.Clean ∨ e = .timer := hs.imp_right fun h => h e rfl
    refine ⟨keepsKilled_of_clean hi hs, fun s' h => ih (hi.of_step h) hes.tail ?_⟩
    by_cases he : e = .execve true
    · refine .inr fun e' he' => ?_
      cases es with
      | nil => cases he'
      | cons e'' es =>
        obtain rfl := Option.some.inj he'
        exact (List.isChain_cons_cons.mp hes).1 he
    · exact .inl ((step_change hi h).clean hi hs he)

theorem Meets.killed (h : Meets step KeepsKilled s es) (hrun : run step s es = some s')
    (hk : s.Killed i) : s'.Killed i :=
  run_invariant _ (fun s => s.Killed i) (fun _ _ _ hk he h => (he i hk).2 _ h) hk h hrun

theorem boot_clean : boot.Clean := fun h => by cases h

/-! ## Main results -/

/-- **`TASK_KILLED` is final in exactly the preempted runs.** -/
theorem killed_final (hrun : run step boot es = some s) : KilledIsFinal es ↔ Preempted es := by
  constructor
  · intro hfinal
    refine List.isChain_iff_forall_rel_of_append_cons_cons.mpr ?_
    rintro e e' es₁ es₂ rfl rfl
    by_contra hne
    obtain ⟨s₁, h₁, h₂⟩ := run_append_eq_some.mp hrun
    obtain ⟨s₂, hexec, h₃⟩ := run_cons_eq_some.mp h₂
    obtain ⟨s₃, hnext, -⟩ := run_cons_eq_some.mp h₃
    obtain ⟨hrunning, hcur, hk⟩ := execve_killed (Inv.of_run h₁) hexec
    have hmid : run step boot (es₁ ++ [.execve true]) = some s₂ :=
      run_append_eq_some.mpr ⟨s₁, h₁, run_cons_eq_some.mpr ⟨s₂, hexec, rfl⟩⟩
    have hidle := (hfinal (es₁ ++ [.execve true]) [] (e' :: es₂) s₂ s₂ s₁.cur (by simp) hmid rfl
      hk).2 e' rfl
    -- the task that `sys_execve` has killed takes the next event
    refine hidle ⟨hrunning, hcur, hne, ?_⟩
    rintro rfl
    rw [step, if_pos hrunning] at hnext
    cases hnext
  · rintro hes es₁ es₂ es₃ s₁ s₂ i rfl h₁ h₂ hk
    have hmeets := hes.meets Inv.boot (.inl boot_clean)
    rw [List.append_assoc] at hmeets
    have hmeets₁ := hmeets.of_run h₁
    have hk₂ := Meets.killed hmeets₁.of_append h₂ hk
    refine ⟨hk₂, fun e he => ?_⟩
    obtain ⟨es₄, rfl⟩ := List.head?_eq_some_iff.mp he
    exact ((hmeets₁.of_run h₂).1 i hk₂).1

/-- The child 2 is replaced by 3, which exits and is reported to its parent. -/
def preemptedRun : List Event :=
  [.sched, .sched, .fork, .wait4 (-1) true, .sched, .execve true, .timer, .sched, .exit 7] ++
    List.replicate 63 .sched ++ [.resume]

theorem killed_final_preempted :
    ∃ s, run step boot preemptedRun = some s ∧ (s.context 1).a0 = 2 ∧
      KilledIsFinal preemptedRun := by
  have heval : (run step boot preemptedRun).map (fun s => (s.context 1).a0) = some 2 := by
    decide +kernel
  obtain ⟨s, hs, ha0⟩ := Option.map_eq_some_iff.mp heval
  exact ⟨s, hs, ha0, (killed_final hs).mpr (by decide +kernel)⟩

/-- The old image of the child exits instead. -/
def oldImageRun : List Event :=
  [.sched, .sched, .fork, .wait4 (-1) true, .sched, .execve true, .exit 7, .sched, .timer] ++
    List.replicate 63 .sched ++ [.resume]

/-- **A killed task exits and is reported.** Its parent gets its status, with
the pid -1. -/
theorem killed_task_reported :
    ∃ s, run step boot oldImageRun = some s ∧ (s.context 1).a0 = -1 ∧
      (s.context 1).wstatus = some (7 * 256) ∧ ¬ KilledIsFinal oldImageRun := by
  have heval : (run step boot oldImageRun).map
      (fun s => ((s.context 1).a0, (s.context 1).wstatus)) = some (-1, some (7 * 256)) := by
    decide +kernel
  obtain ⟨s, hs, he⟩ := Option.map_eq_some_iff.mp heval
  obtain ⟨ha0, hstatus⟩ := Prod.mk.inj he
  refine ⟨s, hs, ha0, hstatus, fun hfinal => ?_⟩
  -- the slot 2 is killed after six events, and a zombie after the next one
  have hkilled : (run step boot (oldImageRun.take 6)).map
      (fun s => ((s.proc 2).allocs, (s.proc 2).state)) = some (USED, TASK_KILLED) := by
    decide +kernel
  obtain ⟨s₁, h₁, hk⟩ := Option.map_eq_some_iff.mp hkilled
  have hzombie : ((run step boot (oldImageRun.take 6)).bind fun s => step s (.exit 7)).map
      (fun s => (s.proc 2).state) = some TASK_ZOMBIE := by decide +kernel
  rw [h₁, Option.bind_some] at hzombie
  obtain ⟨s₂, h₂, hz⟩ := Option.map_eq_some_iff.mp hzombie
  have := (hfinal (oldImageRun.take 6) [.exit 7] (oldImageRun.drop 7) s₁ s₂ 2 (by decide) h₁
    (run_cons_eq_some.mpr ⟨s₂, h₂, rfl⟩) ⟨(Prod.mk.inj hk).1, (Prod.mk.inj hk).2⟩).1.2
  rw [hz] at this
  cases this

end Loos.Sched
