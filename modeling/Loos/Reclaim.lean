/-
What becomes of the slot and the pages of a task that is gone.

A task is gone when its parent has waited for it, or when `sys_execve` has replaced
it. Nothing in `sys_wait4`, `sys_exit` and `sys_execve` gives its slot or its pages
back: `proc_free` is called for a task whose program was not found, and for no
other. A [`Machine`] adds to the scheduler the free pages and the pages that were
taken for each task. How many pages a new task takes is left open; two of them are
its table of descriptors and the root of its page table.

The result is about whole runs with few tasks: slots and pages come back in exactly
the runs in which no task goes.
-/
import Loos.Tasks

set_option autoImplicit false

namespace Loos.Reclaim

open SysLib Proc Sched
open alloc_state proc_state

/-- The tasks, the free pages, and the pages taken for the task in each slot. -/
structure Machine where
  sys : Sys
  free : List ℕ
  own : ℕ → List ℕ

/-- An event, with the number of pages that `kmalloc` hands out in it. -/
structure Call where
  event : Event
  pages : ℕ

/-- The machine when the scheduler starts. -/
def boot (free : List ℕ) : Machine := ⟨Sched.boot, free, fun _ => []⟩

namespace Machine

variable (m : Machine)

/-- The pages of a new task, in the slot that `proc_alloc` takes. -/
def new_task (s' : Sys) (pages : ℕ) : Option Machine :=
  m.sys.table.proc_alloc.bind fun slot =>
    if 2 ≤ pages ∧ pages ≤ m.free.length then
      some ⟨s', m.free.drop pages, Function.update m.own slot.1 (m.free.take pages)⟩
    else none

/-- `exec` of a program that is not found. The page of the descriptors is lost, the
root of the page table is given back, and `malloc` keeps what it has taken. -/
def failed_task (s' : Sys) (pages : ℕ) : Option Machine :=
  match m.free with
  | _ :: root :: free => some { m with sys := s', free := root :: free.drop pages }
  | _ => none

end Machine

/-- One event. -/
def step (m : Machine) (c : Call) : Option Machine :=
  (Sched.step m.sys c.event).bind fun s' =>
    match c.event with
    | .fork | .execve true => m.new_task s' c.pages
    | .execve false => m.failed_task s' c.pages
    | _ => some { m with sys := s' }

/-! ## Properties -/

/-- The number of user tasks that live, or are dead and have not been waited for. -/
def Machine.live (m : Machine) : ℕ :=
  ((List.range PROC_MAX).filter fun i =>
    decide (i ≠ 0 ∧ m.sys.Used i ∧ (m.sys.proc i).state ≠ TASK_KILLED)).length

/-- In the event the task `j` is waited for, or replaced. -/
def Goes (m m' : Machine) (c : Call) (j : ℕ) : Prop :=
  (c.event.Waits ∧ m.sys.Used j ∧ (m.sys.proc j).state = TASK_ZOMBIE ∧
      (m'.sys.proc j).state = TASK_KILLED) ∨
    (c.event = .execve true ∧ j = m.sys.cur)

/-- At some time after `m` the slot `j` may be free, and the pages of its task. -/
def Reclaimable (m : Machine) (j : ℕ) : Prop :=
  ∃ cs m', run step m cs = some m' ∧ (m'.sys.proc j).allocs = UNUSED ∧ ∀ P ∈ m.own j, P ∈ m'.free

/-- In the run `cs` there is always a slot for a new task, as long as at most
`PROC_MAX - 1` user tasks live, and all that belonged to a task that is gone may come
back. -/
structure Reclaims (free : List ℕ) (cs : List Call) : Prop where
  slot : ∀ cs₁ cs₂ m, cs = cs₁ ++ cs₂ → run step (boot free) cs₁ = some m →
    m.live + 1 ≤ PROC_MAX - 1 → ∃ np, m.sys.table.Free np
  back : ∀ cs₁ c cs₂ m m', cs = cs₁ ++ c :: cs₂ → run step (boot free) cs₁ = some m →
    step m c = some m' → ∀ j, Goes m m' c j → Reclaimable m' j

/-- The wait loop of the current task, entered or taken up again in the event,
finds a dead child. -/
def Reaps (s : Sys) : Event → Prop
  | .wait4 pid _ =>
    if pid = -1 then ∃ j ∈ (s.proc s.cur).children, (s.proc j).state = TASK_ZOMBIE
    else ∃ j, s.table.proc_find (pid.setWidth 32).toInt = some j ∧
      (s.proc j).parent = some s.cur ∧ (s.proc j).state = TASK_ZOMBIE
  | .resume =>
    match (s.context s.cur).cont with
    | .user => False
    | .wait_any _ => ∃ j ∈ (s.proc s.cur).children, (s.proc j).state = TASK_ZOMBIE
    | .wait_pid pos _ _ => (s.proc pos).state = TASK_ZOMBIE
  | _ => False

/-- No task goes in the event: it is no successful `sys_execve`, and no wait loop
finds a dead child. -/
def NoneGoes (m : Machine) (c : Call) : Prop :=
  c.event ≠ .execve true ∧ ¬ Reaps m.sys c.event

variable {m m' : Machine} {c : Call} {cs : List Call} {s s' : Sys} {e : Event} {j pos : ℕ}
  {w : Bool} {free : List ℕ}

/-! ## The tasks of a machine -/

theorem step_sys (h : step m c = some m') : Sched.step m.sys c.event = some m'.sys := by
  obtain ⟨s', hs', h⟩ := Option.bind_eq_some_iff.mp h
  rw [hs']
  refine congrArg some ?_
  split at h
  · obtain ⟨slot, -, h⟩ := Option.bind_eq_some_iff.mp h
    split_ifs at h
    exact congrArg Machine.sys (Option.some.inj h)
  · obtain ⟨slot, -, h⟩ := Option.bind_eq_some_iff.mp h
    split_ifs at h
    exact congrArg Machine.sys (Option.some.inj h)
  · unfold Machine.failed_task at h
    split at h
    · exact congrArg Machine.sys (Option.some.inj h)
    · cases h
  · exact congrArg Machine.sys (Option.some.inj h)

theorem run_sys (h : run step m cs = some m') :
    run Sched.step m.sys (cs.map Call.event) = some m'.sys := by
  induction cs generalizing m with
  | nil => exact congrArg _ (congrArg _ (Option.some.inj h))
  | cons c cs ih =>
    obtain ⟨m₁, h₁, h₂⟩ := run_cons_eq_some.mp h
    exact run_cons_eq_some.mpr ⟨m₁.sys, step_sys h₁, ih h₂⟩

theorem inv_of_run (h : run step (boot free) cs = some m) : Inv m.sys := Inv.of_run (run_sys h)

/-- A slot that is in use stays in use. -/
theorem used_of_run (hi : Inv m.sys) (h : run step m cs = some m') (hj : m.sys.Used j) :
    m'.sys.Used j := by
  induction cs generalizing m with
  | nil =>
    obtain rfl := Option.some.inj h
    exact hj
  | cons c cs ih =>
    obtain ⟨m₁, h₁, h₂⟩ := run_cons_eq_some.mp h
    have hc := step_change hi (step_sys h₁)
    exact ih (hi.of_step (step_sys h₁)) h₂ (hc.keeps hi hj).1

/-- What is gone does not come back. -/
theorem not_reclaimable (hi : Inv m.sys) (h : step m c = some m') (hj : Goes m m' c j) :
    ¬ Reclaimable m' j := by
  have hs := step_sys h
  have hc := step_change hi hs
  have hused : m.sys.Used j := by
    rcases hj with ⟨-, hused, -⟩ | ⟨he, rfl⟩
    · exact hused
    · rw [he] at hs
      exact (hi.cur (execve_inUser hs).1).1
  rintro ⟨cs, m'', hrun, hfree, -⟩
  have hused' := used_of_run (hi.of_step hs) hrun (hc.keeps hi hused).1
  rw [Sys.Used, hfree] at hused'
  cases hused'

/-! ## Wait loops that find a dead child -/

theorem wait_any_reaps (hi : Inv s) (h : ∃ j ∈ (s.proc s.cur).children, (s.proc j).state = TASK_ZOMBIE) :
    ∃ j, s.Used j ∧ (s.proc j).state = TASK_ZOMBIE ∧
      ((s.wait_any w).proc j).state = TASK_KILLED := by
  obtain ⟨j, hj, hz⟩ := h
  unfold Sys.wait_any
  cases hfind : (s.proc s.cur).children.find? fun pos => (s.proc pos).state == TASK_ZOMBIE with
  | none =>
    have := List.find?_eq_none.mp hfind j hj
    simp [hz] at this
  | some pos =>
    have hz' := List.find?_some hfind
    refine ⟨pos, (hi.tree.child _ _ (List.mem_of_find?_eq_some hfind)).1, by simpa using hz', ?_⟩
    dsimp only
    rw [state_reap, if_pos rfl]

theorem wait_pid_reaps {pid : ℤ} (h : (s.proc pos).state = TASK_ZOMBIE) :
    ((s.wait_pid pos pid w).proc pos).state = TASK_KILLED := by
  rw [Sys.wait_pid, if_pos h, state_reap, if_pos rfl]

theorem reaps_wait4 {pid : BitVec 64} : Reaps s (.wait4 pid w) ↔
    if pid = -1 then ∃ j ∈ (s.proc s.cur).children, (s.proc j).state = TASK_ZOMBIE
    else ∃ j, s.table.proc_find (pid.setWidth 32).toInt = some j ∧
      (s.proc j).parent = some s.cur ∧ (s.proc j).state = TASK_ZOMBIE := Iff.rfl

theorem reaps_resume : Reaps s .resume ↔
    match (s.context s.cur).cont with
    | .user => False
    | .wait_any _ => ∃ j ∈ (s.proc s.cur).children, (s.proc j).state = TASK_ZOMBIE
    | .wait_pid pos _ _ => (s.proc pos).state = TASK_ZOMBIE := Iff.rfl

/-- A wait loop that finds a dead child kills it. -/
theorem reaps_goes (hi : Inv s) (h : Sched.step s e = some s') (hr : Reaps s e) :
    ∃ j, e.Waits ∧ s.Used j ∧ (s.proc j).state = TASK_ZOMBIE ∧ (s'.proc j).state = TASK_KILLED := by
  cases e with
  | wait4 pid w =>
    rw [Sched.step] at h
    split_ifs at h
    rw [reaps_wait4] at hr
    unfold Sys.sys_wait4 at h
    split_ifs at h with hany
    · -- any child: the loop takes the first dead one
      rw [if_pos hany] at hr
      obtain rfl := Option.some.inj h
      obtain ⟨j, hj⟩ := wait_any_reaps hi hr
      exact ⟨j, trivial, hj⟩
    · -- one child, found by its pid
      rw [if_neg hany] at hr
      obtain ⟨pos, hfind, hparent, hz⟩ := hr
      rw [hfind, Option.map_some, if_neg (not_not.mpr hparent)] at h
      obtain rfl := Option.some.inj h
      exact ⟨pos, trivial, (Table.proc_find_some hfind).1, hz, wait_pid_reaps hz⟩
  | resume =>
    rw [Sched.step] at h
    split_ifs at h
    rw [reaps_resume] at hr
    cases hcont : (s.context s.cur).cont with
    | user =>
      rw [hcont] at h
      cases h
    | wait_any w =>
      rw [hcont] at h hr
      obtain rfl := Option.some.inj h
      obtain ⟨j, hj⟩ := wait_any_reaps hi hr
      exact ⟨j, trivial, hj⟩
    | wait_pid pos pid w =>
      rw [hcont] at h hr
      obtain rfl := Option.some.inj h
      exact ⟨pos, trivial, (hi.waits _ _ _ _ hcont).1, hr, wait_pid_reaps hr⟩
  -- no other step looks for a dead child
  | sched => exact hr.elim
  | timer => exact hr.elim
  | insn => exact hr.elim
  | fork => exact hr.elim
  | execve found => exact hr.elim
  | exit code => exact hr.elim

theorem yield_not_killed {cont : Cont} (hz : (s.proc j).state = TASK_ZOMBIE) :
    ((s.yield cont).proc j).state ≠ TASK_KILLED := by
  rw [state_yield, hz]
  split_ifs <;> decide

theorem wait_any_goes (hz : (s.proc j).state = TASK_ZOMBIE)
    (hk : ((s.wait_any w).proc j).state = TASK_KILLED) :
    ∃ j ∈ (s.proc s.cur).children, (s.proc j).state = TASK_ZOMBIE := by
  unfold Sys.wait_any at hk
  split at hk
  · next pos hfind =>
    have hz' := List.find?_some hfind
    exact ⟨pos, List.mem_of_find?_eq_some hfind, by simpa using hz'⟩
  · split at hk
    · exact absurd hk (yield_not_killed hz)
    · exact absurd (hz.symm.trans hk) (by decide)

theorem wait_pid_goes {pid : ℤ} (hz : (s.proc j).state = TASK_ZOMBIE)
    (hk : ((s.wait_pid pos pid w).proc j).state = TASK_KILLED) :
    (s.proc pos).state = TASK_ZOMBIE := by
  unfold Sys.wait_pid at hk
  split at hk
  · next hpos => exact hpos
  · exact absurd hk (yield_not_killed hz)

/-- Only a wait loop that finds a dead child kills one. -/
theorem goes_reaps (h : Sched.step s e = some s') (he : e.Waits)
    (hz : (s.proc j).state = TASK_ZOMBIE) (hk : (s'.proc j).state = TASK_KILLED) : Reaps s e := by
  cases e with
  | wait4 pid w =>
    rw [Sched.step] at h
    split_ifs at h
    rw [reaps_wait4]
    unfold Sys.sys_wait4 at h
    split_ifs at h with hany
    · obtain rfl := Option.some.inj h
      rw [if_pos hany]
      exact wait_any_goes hz hk
    · obtain ⟨pos, hfind, rfl⟩ := Option.map_eq_some_iff.mp h
      rw [if_neg hany]
      split at hk
      · -- somebody else's child: -1, and nothing has changed
        exact absurd (hz.symm.trans hk) (by decide)
      · next hparent => exact ⟨pos, hfind, not_not.mp hparent, wait_pid_goes hz hk⟩
  | resume =>
    rw [Sched.step] at h
    split_ifs at h
    rw [reaps_resume]
    cases hcont : (s.context s.cur).cont with
    | user =>
      rw [hcont] at h
      cases h
    | wait_any w =>
      rw [hcont] at h
      obtain rfl := Option.some.inj h
      exact wait_any_goes hz hk
    | wait_pid pos pid w =>
      rw [hcont] at h
      obtain rfl := Option.some.inj h
      exact wait_pid_goes hz hk
  -- no other step is in a wait loop
  | sched => exact he.elim
  | timer => exact he.elim
  | insn => exact he.elim
  | fork => exact he.elim
  | execve found => exact he.elim
  | exit code => exact he.elim

/-- No task goes exactly when the event is none of the two kinds. -/
theorem noneGoes_iff (hi : Inv m.sys) (h : step m c = some m') :
    NoneGoes m c ↔ ∀ j, ¬ Goes m m' c j := by
  have hs := step_sys h
  constructor
  · intro hnone j hj
    rcases hj with ⟨he, -, hz, hk⟩ | ⟨he, -⟩
    · exact hnone.2 (goes_reaps hs he hz hk)
    · exact hnone.1 he
  · intro hgoes
    refine ⟨?_, ?_⟩
    · intro he
      exact hgoes m.sys.cur (.inr ⟨he, rfl⟩)
    · intro hr
      obtain ⟨j, hj⟩ := reaps_goes hi hs hr
      exact hgoes j (.inl hj)

/-! ## A slot for every task -/

/-- No task has been waited for or replaced. -/
def NoKilled (s : Sys) : Prop := ∀ j, s.Used j → (s.proc j).state ≠ TASK_KILLED

theorem noKilled_boot : NoKilled Sched.boot := by
  intro j hj
  have hlt := (Inv.boot).tree.used_lt j hj
  have hall : ∀ j < PROC_MAX, (Sched.boot.proc j).state ≠ TASK_KILLED := by decide +kernel
  exact hall j hlt

/-- A slot that comes into use holds a task that is ready to run. -/
theorem new_state (hi : Inv s) (hc : Change s e s') (he : e ≠ .execve true) (hj : s'.Used j)
    (hold : ¬ s.Used j) : (s'.proc j).state ≠ TASK_KILLED := by
  have hsame : SameTree s.table s'.table → (s'.proc j).state ≠ TASK_KILLED := fun h =>
    absurd ((h.allocs j).symm.trans hj) hold
  -- `fork` alone takes a slot here; an `execve` that fails gives its slot back
  cases hc with
  | advance i run hrun => exact absurd hj hold
  | dispatch hrun hused hpid hstate => exact hsame sameTree_switch_to
  | timer huser => exact hsame sameTree_yield
  | insn huser => exact absurd hj hold
  | fork huser np t hfork =>
    obtain ⟨hfree, -, hnew, hothers⟩ := fork_spec hfork (hi.cur huser.1).1
    rcases eq_or_ne j np with rfl | hne
    · show (t.proc j).state ≠ TASK_KILLED
      rw [hnew]
      exact fun h => nomatch h
    · have hj : (t.proc j).allocs = USED := hj
      rw [hothers j hne] at hj
      exact absurd hj hold
  | execve_fail huser t hexec =>
    obtain ⟨-, -, np, hfree, hunused, -, hothers⟩ :=
      exec_not_found_spec hexec fun np hnp => hi.tree.not_mem hnp
    have hj : (t.proc j).allocs = USED := hj
    rcases eq_or_ne j np with rfl | hne
    · rw [hunused] at hj
      cases hj
    · rw [hothers j hne] at hj
      exact absurd hj hold
  | execve huser np t ret hexec => exact absurd rfl he
  | exit huser code => exact hsame sameTree_exit
  | reap hrun hw pos w hstate hused hparent => exact hsame sameTree_reap
  | sleep hrun hw cont hcont => exact hsame sameTree_yield
  | ret hrun hw v => exact absurd hj hold

theorem NoKilled.of_step (hk : NoKilled m.sys) (hi : Inv m.sys) (hn : NoneGoes m c)
    (h : step m c = some m') : NoKilled m'.sys := by
  have hc := step_change hi (step_sys h)
  intro j hj
  by_cases hold : m.sys.Used j
  · intro hstate
    have hm := hc.moves hi hold
    have hne := hk j hold
    have hgoes := (noneGoes_iff hi h).mp hn j
    have hz : (m.sys.proc j).state = TASK_ZOMBIE → ¬ c.event.Waits := fun hz hw =>
      hgoes (.inl ⟨hw, hold, hz, hstate⟩)
    rw [hstate] at hm
    generalize (m.sys.proc j).state = a at hm hne hz
    cases hm with
    | keep => exact hne rfl
    | kproc _ _ _ hb => rcases hb with hb | hb <;> cases hb
    | execve _ _ _ he => exact hn.1 he
    | reap _ _ hw => exact hz rfl hw
  · exact new_state hi hc hn.1 hj hold

/-- Among less than `PROC_MAX` tasks, none of them killed, there is a free slot. -/
theorem NoKilled.exists_free (hk : NoKilled m.sys) (h : m.live + 1 ≤ PROC_MAX - 1) :
    ∃ np, m.sys.table.Free np := by
  by_contra hnone
  have hused : ∀ i < PROC_MAX, m.sys.Used i := by
    intro i hi
    by_contra hn
    refine hnone ⟨i, hi, ?_⟩
    cases hall : (m.sys.table.proc i).allocs with
    | UNUSED => rfl
    | USED => exact absurd hall hn
  have hall : m.live = ((List.range PROC_MAX).filter fun i => decide (i ≠ 0)).length := by
    refine congrArg List.length (List.filter_congr fun i hi => ?_)
    have hu := hused i (List.mem_range.mp hi)
    exact decide_eq_decide.mpr (and_iff_left ⟨hu, hk i hu⟩)
  have hcount : ((List.range PROC_MAX).filter fun i => decide (i ≠ 0)).length = PROC_MAX - 1 := by
    decide
  omega

/-! ## Main result -/

/-- **Slots and pages come back in exactly the runs in which no task goes.** -/
theorem reclaims_iff (hrun : run step (boot free) cs = some m) :
    Reclaims free cs ↔ Meets step NoneGoes (boot free) cs := by
  rw [meets_iff]
  constructor
  · intro hrec cs₁ c cs₂ m₁ he h₁
    obtain ⟨m₁', h₁', h₂⟩ := run_append_eq_some.mp (he ▸ hrun)
    obtain rfl : m₁ = m₁' := Option.some.inj (h₁.symm.trans h₁')
    obtain ⟨m₂, hstep, -⟩ := run_cons_eq_some.mp h₂
    have hi := inv_of_run h₁
    refine (noneGoes_iff hi hstep).mpr ?_
    intro j hj
    exact not_reclaimable hi hstep hj (hrec.back cs₁ c cs₂ m₁ m₂ he h₁ hstep j hj)
  · intro hnone
    refine ⟨?_, ?_⟩
    · -- no slot is held by a task that is gone, so a free one is left
      intro cs₁ cs₂ m₁ he h₁ hlive
      have hmeets : Meets step NoneGoes (boot free) cs₁ := meets_iff.mpr
        fun es₁ c es₂ m₂ he₁ h₂ => hnone es₁ c (es₂ ++ cs₂) m₂ (by simp [he, he₁]) h₂
      have hinv := run_invariant NoneGoes (fun m => Inv m.sys ∧ NoKilled m.sys)
        (fun _ _ _ hs he h => ⟨hs.1.of_step (step_sys h), hs.2.of_step hs.1 he h⟩)
        ⟨Inv.boot, noKilled_boot⟩ hmeets h₁
      exact hinv.2.exists_free hlive
    · intro cs₁ c cs₂ m₁ m₂ he h₁ hstep j hj
      exact absurd hj ((noneGoes_iff (inv_of_run h₁) hstep).mp (hnone cs₁ c cs₂ m₁ he h₁) j)

/-- A child is made, a program is not found, and the child exits. -/
def noWait : List Call :=
  [⟨.sched, 0⟩, ⟨.sched, 0⟩, ⟨.fork, 5⟩, ⟨.execve false, 2⟩, ⟨.timer, 0⟩, ⟨.sched, 0⟩, ⟨.exit 3, 0⟩]

theorem reclaims_without_wait : Reclaims (List.range 8) noWait := by
  have hrun : (run step (boot (List.range 8)) noWait).isSome = true := by decide +kernel
  obtain ⟨m, hm⟩ := Option.isSome_iff_exists.mp hrun
  refine (reclaims_iff hm).mpr (.of_forall_mem ?_)
  intro c hc m
  simp only [noWait, List.mem_cons, List.not_mem_nil, or_false] at hc
  rcases hc with rfl | rfl | rfl | rfl | rfl | rfl | rfl <;>
    exact ⟨by decide, fun h => h⟩

/-- A child exits, and its parent waits for it. -/
def waitForChild : List Call :=
  [⟨.sched, 0⟩, ⟨.sched, 0⟩, ⟨.fork, 5⟩, ⟨.wait4 (-1) true, 0⟩, ⟨.sched, 0⟩, ⟨.exit 7, 0⟩] ++
    List.replicate 64 ⟨.sched, 0⟩

/-- **A reaped child keeps its slot and its pages**: there is no way back for them. -/
theorem reaped_child_not_reclaimed :
    ∃ m m', run step (boot (List.range 8)) waitForChild = some m ∧
      step m ⟨.resume, 0⟩ = some m' ∧ (m'.sys.context 1).a0 = 2 ∧ ¬ Reclaimable m' 2 ∧
      ¬ Reclaims (List.range 8) (waitForChild ++ [⟨.resume, 0⟩]) := by
  have heval : ((run step (boot (List.range 8)) waitForChild).bind fun m =>
      (step m ⟨.resume, 0⟩).map fun m' =>
        ((m'.sys.context 1).a0, decide (m.sys.Used 2 ∧ (m.sys.proc 2).state = TASK_ZOMBIE ∧
          (m'.sys.proc 2).state = TASK_KILLED))) = some (2, true) := by
    decide +kernel
  obtain ⟨m, hm, heval⟩ := Option.bind_eq_some_iff.mp heval
  obtain ⟨m', hm', heval⟩ := Option.map_eq_some_iff.mp heval
  obtain ⟨ha0, hstate⟩ := Prod.mk.inj heval
  have hgoes : Goes m m' ⟨.resume, 0⟩ 2 := .inl ⟨trivial, of_decide_eq_true hstate⟩
  have hlost := not_reclaimable (inv_of_run hm) hm' hgoes
  refine ⟨m, m', hm, hm', ha0, hlost, ?_⟩
  intro hrec
  exact hlost (hrec.back waitForChild ⟨.resume, 0⟩ [] m m' rfl hm hm' 2 hgoes)

end Loos.Reclaim
