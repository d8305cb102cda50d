/-
What one event does to the tasks, and the invariant of the whole machine.

[`Change`] lists what a step can do, with what the step has checked; everything
later is a case analysis of it. [`Moves`] is what it means for the state of one
task, and [`Inv`] holds in every state that the machine reaches.
-/
import Loos.Sched

set_option autoImplicit false

namespace Loos.Sched

open SysLib Proc
open alloc_state proc_state

variable {s s' : Sys} {e : Event} {es : List Event} {i j pos : ℕ} {w : Bool}

/-- The events in which `sys_wait4` runs. -/
def Event.Waits : Event → Prop
  | .wait4 _ _ | .resume => True
  | _ => False

/-- The task `cur` may sleep in the loop `cont`: it has slept in it before, or
`sys_wait4` enters it in `e`. -/
def Sys.MaySleep (s : Sys) (e : Event) : Cont → Prop
  | .user => False
  | .wait_any _ => True
  | .wait_pid pos pid w => (s.context s.cur).cont = .wait_pid pos pid w ∨
      ∃ pid₀ : BitVec 64, e = .wait4 pid₀ w ∧ pid₀ ≠ -1 ∧ pid = (pid₀.setWidth 32).toInt ∧
        s.Used pos ∧ (s.proc pos).pid = pid ∧ (s.proc pos).parent = some s.cur

/-- What one event can do. -/
inductive Change (s : Sys) : Event → Sys → Prop where
  | advance (i : ℕ) (run : Bool) (hrun : s.running = false) :
      Change s .sched { s with i := i, run := run }
  | dispatch (hrun : s.running = false) (hused : s.Used s.i) (hpid : (s.proc s.i).pid ≠ 0)
      (hstate : (s.proc s.i).state = TASK_RUNABLE) :
      Change s .sched s.switch_to
  | timer (huser : s.InUser) : Change s .timer (s.yield .user)
  | insn (huser : s.InUser) : Change s .insn s
  | fork (huser : s.InUser) (np : ℕ) (t : Table) (hfork : s.table.fork s.cur = some (np, t)) :
      Change s .fork
        ({ s with table := t, context := Function.update s.context np .start }.ret (t.proc np).pid)
  | execve_fail (huser : s.InUser) (t : Table) (hexec : s.table.exec false = some (none, t)) :
      Change s (.execve false) ({ s with table := t }.ret (-1))
  | execve (huser : s.InUser) (np : ℕ) (t : Table) (ret : ℤ)
      (hexec : s.table.execve s.cur true = some (ret, some np, t)) :
      Change s (.execve true)
        ({ s with table := t, context := Function.update s.context np .start }.ret ret)
  | exit (huser : s.InUser) (code : ℤ) : Change s (.exit code) (s.sys_exit code)
  | reap {e : Event} (hrun : s.running = true) (he : e.Waits) (pos : ℕ) (w : Bool)
      (hstate : (s.proc pos).state = TASK_ZOMBIE) (hused : s.Used pos)
      (hparent : (s.proc pos).parent = some s.cur) : Change s e (s.reap pos w)
  | sleep {e : Event} (hrun : s.running = true) (he : e.Waits) (cont : Cont) (hcont : s.MaySleep e cont) :
      Change s e (s.yield cont)
  | ret {e : Event} (hrun : s.running = true) (he : e.Waits) (v : ℤ) : Change s e (s.ret v)

/-- What holds in every state. A task that waits for a task is its parent, and
a task that runs is marked so, unless `sys_execve` has just replaced it. -/
structure Inv (s : Sys) : Prop where
  tree : Tree s.table
  kproc : (s.proc 0).state = TASK_RUNNING ∨ (s.proc 0).state = TASK_RUNABLE
  cur : s.running = true → s.Used s.cur ∧ s.cur ≠ 0 ∧
    ((s.proc s.cur).state = TASK_RUNNING ∨ (s.proc s.cur).state = TASK_KILLED)
  waits : ∀ i pos pid w, (s.context i).cont = .wait_pid pos pid w →
    s.Used pos ∧ (s.proc pos).parent = some i

/-! ## The cases of a step -/

theorem wait_any_change (hi : Inv s) (hrun : s.running = true) (he : e.Waits) :
    Change s e (s.wait_any w) := by
  unfold Sys.wait_any
  split
  · next pos hpos =>
    have hmem := List.mem_of_find?_eq_some hpos
    have hz := List.find?_some (p := fun pos => (s.proc pos).state == TASK_ZOMBIE) hpos
    obtain ⟨hused, hparent⟩ := hi.tree.child s.cur pos hmem
    exact .reap hrun he pos w (by simpa using hz) hused hparent
  · split
    · exact .sleep hrun he _ trivial
    · exact .ret hrun he _

theorem wait_pid_change {pid : ℤ} (hrun : s.running = true) (he : e.Waits) (hused : s.Used pos)
    (hparent : (s.proc pos).parent = some s.cur) (hsleep : s.MaySleep e (.wait_pid pos pid w)) :
    Change s e (s.wait_pid pos pid w) := by
  unfold Sys.wait_pid
  split
  · next hz => exact .reap hrun he pos w hz hused hparent
  · exact .sleep hrun he _ hsleep

theorem execve_false {t t' : Table} {p : ℕ} {ret : ℤ} {r : Option ℕ}
    (h : t.execve p false = some (ret, r, t')) :
    ret = -1 ∧ r = none ∧ t.exec false = some (none, t') := by
  obtain ⟨⟨r', t₁⟩, hexec, h⟩ := Option.bind_eq_some_iff.mp h
  obtain ⟨⟨np, t₂⟩, -, hr⟩ := Option.map_eq_some_iff.mp hexec
  obtain ⟨rfl, rfl⟩ := Prod.mk.inj hr
  dsimp only at h
  obtain ⟨rfl, hr⟩ := Prod.mk.inj (Option.some.inj h)
  obtain ⟨rfl, rfl⟩ := Prod.mk.inj hr
  exact ⟨rfl, rfl, hexec⟩

theorem execve_true {t t' : Table} {p : ℕ} {ret : ℤ} {r : Option ℕ}
    (h : t.execve p true = some (ret, r, t')) : ∃ np, r = some np := by
  obtain ⟨⟨r', t₁⟩, hexec, h⟩ := Option.bind_eq_some_iff.mp h
  obtain ⟨⟨np, t₂⟩, -, hr⟩ := Option.map_eq_some_iff.mp hexec
  obtain ⟨rfl, rfl⟩ := Prod.mk.inj hr
  obtain ⟨t₃, -, hr⟩ := Option.map_eq_some_iff.mp h
  exact ⟨np, (Prod.mk.inj (Prod.mk.inj hr).2).1.symm⟩

theorem execve_inUser {found : Bool} (h : step s (.execve found) = some s') : s.InUser := by
  rw [step] at h
  split_ifs at h with huser
  exact huser

theorem used_of_ne_unused {i : ℕ} (h : (s.proc i).allocs ≠ UNUSED) : s.Used i := by
  unfold Sys.Used
  cases hall : (s.proc i).allocs with
  | UNUSED => exact absurd hall h
  | USED => rfl

theorem scheduler_change (hrun : s.running = false) (h : s.scheduler = some s') :
    Change s .sched s' := by
  unfold Sys.scheduler at h
  split_ifs at h with hi hskip hstate hrest
  · obtain rfl := Option.some.inj h
    exact .advance (s.i + 1) s.run hrun
  · obtain rfl := Option.some.inj h
    obtain ⟨hused, hpid⟩ := not_or.mp hskip
    exact .dispatch hrun (used_of_ne_unused hused) hpid hstate
  · obtain rfl := Option.some.inj h
    exact .advance (s.i + 1) s.run hrun
  · obtain rfl := Option.some.inj h
    exact .advance 0 false hrun

/-- **The cases of a step.** -/
theorem step_change (hi : Inv s) (h : step s e = some s') : Change s e s' := by
  -- the guard of the event, then what the call may do
  cases e with
  | sched =>
    rw [step] at h
    split_ifs at h with hrun
    exact scheduler_change (by simpa using hrun) h
  | timer =>
    rw [step] at h
    split_ifs at h with huser
    exact Option.some.inj h ▸ .timer huser
  | insn =>
    rw [step] at h
    split_ifs at h with huser
    exact Option.some.inj h ▸ .insn huser
  | fork =>
    rw [step] at h
    split_ifs at h with huser
    obtain ⟨⟨np, t⟩, hfork, rfl⟩ := Option.map_eq_some_iff.mp h
    exact .fork huser np t hfork
  | execve found =>
    rw [step] at h
    split_ifs at h with huser
    obtain ⟨⟨ret, r, t⟩, hexec, rfl⟩ := Option.map_eq_some_iff.mp h
    cases found with
    | false =>
      obtain ⟨rfl, rfl, hfail⟩ := execve_false hexec
      exact .execve_fail huser t hfail
    | true =>
      obtain ⟨np, rfl⟩ := execve_true hexec
      exact .execve huser np t ret hexec
  | exit code =>
    rw [step] at h
    split_ifs at h with huser
    exact Option.some.inj h ▸ .exit huser code
  | wait4 pid w =>
    rw [step] at h
    split_ifs at h with huser
    unfold Sys.sys_wait4 at h
    have he : (Event.wait4 pid w).Waits := trivial
    split_ifs at h with hany
    · exact Option.some.inj h ▸ wait_any_change hi huser.1 he
    · obtain ⟨pos, hfind, rfl⟩ := Option.map_eq_some_iff.mp h
      obtain ⟨hused, hpid⟩ := Table.proc_find_some hfind
      split_ifs with hparent
      · exact .ret huser.1 he _
      · have hparent := not_not.mp hparent
        exact wait_pid_change huser.1 he hused hparent
          (.inr ⟨pid, rfl, hany, rfl, hused, hpid, hparent⟩)
  | resume =>
    rw [step] at h
    split_ifs at h with hrun
    split at h
    · cases h
    · exact Option.some.inj h ▸ wait_any_change hi hrun trivial
    · next pos pid w hcont =>
      obtain ⟨hused, hparent⟩ := hi.waits _ _ _ _ hcont
      exact Option.some.inj h ▸ wait_pid_change hrun trivial hused hparent (.inl hcont)

/-! ## One task -/

/-- The tasks that are there before a `fork`, an `execve` or a failed one. -/
theorem fork_old {np : ℕ} {t : Table} (hi : Inv s) (huser : s.InUser)
    (hfork : s.table.fork s.cur = some (np, t)) (hj : s.Used j) :
    t.proc j = { s.proc j with
      children := if j = s.cur then np :: (s.proc j).children else (s.proc j).children } := by
  obtain ⟨hnp, -, -, hold⟩ := fork_spec hfork (hi.cur huser.1).1
  exact hold j (hnp.ne hj)

theorem execve_fail_old {t : Table} (hi : Inv s) (hexec : s.table.exec false = some (none, t))
    (hj : s.Used j) : t.proc j = s.proc j := by
  obtain ⟨-, -, np, hnp, -, -, hold⟩ :=
    exec_not_found_spec hexec fun np hnp => hi.tree.not_mem hnp
  exact hold j (hnp.ne hj)

theorem execve_old {np : ℕ} {t : Table} {ret : ℤ} (hi : Inv s) (huser : s.InUser)
    (hexec : s.table.execve s.cur true = some (ret, some np, t)) (hj : s.Used j) :
    ∃ q, t.proc j = { s.proc j with
      pid := if j = s.cur then -1 else (s.proc j).pid
      state := if j = s.cur then TASK_KILLED else (s.proc j).state
      children := if j = q then np :: (s.proc j).children else (s.proc j).children } := by
  obtain ⟨np', q, -, hr, hnp, -, -, -, hold⟩ := execve_spec hexec hi.tree (hi.cur huser.1).1
  obtain rfl := Option.some.inj hr
  exact ⟨q, hold j (hnp.ne hj)⟩

/-- A task keeps its slot and its parent, and its pid unless it is replaced. -/
theorem Change.keeps (hc : Change s e s') (hi : Inv s) (hj : s.Used j) :
    s'.Used j ∧ (s'.proc j).parent = (s.proc j).parent ∧
      ((s'.proc j).pid = (s.proc j).pid ∨ (e = .execve true ∧ j = s.cur ∧ (s'.proc j).pid = -1)) := by
  have hsame : SameTree s.table s'.table → s'.Used j ∧
      (s'.proc j).parent = (s.proc j).parent ∧ ((s'.proc j).pid = (s.proc j).pid ∨
        (e = .execve true ∧ j = s.cur ∧ (s'.proc j).pid = -1)) :=
    fun h => ⟨(h.allocs j).trans hj, h.parent j, .inl (h.pid j)⟩
  -- the calls that take a slot leave the others; all other steps keep the tree
  cases hc with
  | advance i run hrun => exact hsame (SameTree.refl _)
  | dispatch hrun hused hpid hstate => exact hsame sameTree_switch_to
  | timer huser => exact hsame sameTree_yield
  | insn huser => exact hsame (SameTree.refl _)
  | fork huser np t hfork =>
    have h := fork_old hi huser hfork hj
    unfold Sys.Used Sys.proc Sys.ret at *
    dsimp only
    rw [h]
    exact ⟨hj, rfl, .inl rfl⟩
  | execve_fail huser t hexec =>
    have h := execve_fail_old hi hexec hj
    unfold Sys.Used Sys.proc Sys.ret at *
    dsimp only
    rw [h]
    exact ⟨hj, rfl, .inl rfl⟩
  | execve huser np t ret hexec =>
    obtain ⟨q, h⟩ := execve_old hi huser hexec hj
    unfold Sys.Used Sys.proc Sys.ret at *
    dsimp only
    rw [h]
    refine ⟨hj, rfl, ?_⟩
    dsimp only
    split_ifs with hcur
    · exact .inr ⟨rfl, hcur, rfl⟩
    · exact .inl rfl
  | exit huser code => exact hsame sameTree_exit
  | reap hrun he pos w hstate hused hparent => exact hsame sameTree_reap
  | sleep hrun he cont hcont => exact hsame sameTree_yield
  | ret hrun he v => exact hsame (SameTree.refl _)

theorem Change.tree (hc : Change s e s') (hi : Inv s) : Tree s'.table := by
  cases hc with
  | advance i run hrun => exact hi.tree
  | dispatch hrun hused hpid hstate => exact hi.tree.congr sameTree_switch_to
  | timer huser => exact hi.tree.congr sameTree_yield
  | insn huser => exact hi.tree
  | fork huser np t hfork => exact hi.tree.fork (hi.cur huser.1).1 hfork
  | execve_fail huser t hexec => exact hi.tree.exec_not_found hexec
  | execve huser np t ret hexec => exact hi.tree.execve (hi.cur huser.1).1 hexec
  | exit huser code => exact hi.tree.congr sameTree_exit
  | reap hrun he pos w hstate hused hparent => exact hi.tree.congr sameTree_reap
  | sleep hrun he cont hcont => exact hi.tree.congr sameTree_yield
  | ret hrun he v => exact hi.tree

/-- How one event changes the state of the task `j`. -/
inductive Moves (s : Sys) (e : Event) (j : ℕ) : proc_state → proc_state → Prop where
  | keep (a : proc_state) : Moves s e j a a
  | kproc (a b : proc_state) (hj : j = 0) (hb : b = TASK_RUNNING ∨ b = TASK_RUNABLE) :
      Moves s e j a b
  | yield (hj : j = s.cur) (hrun : s.running = true) : Moves s e j TASK_RUNNING TASK_RUNABLE
  | dispatch (hrun : s.running = false) : Moves s e j TASK_RUNABLE TASK_RUNNING
  | exit (a : proc_state) (hj : j = s.cur) (huser : s.InUser) (code : ℤ) (he : e = .exit code) :
      Moves s e j a TASK_ZOMBIE
  | execve (a : proc_state) (hj : j = s.cur) (huser : s.InUser) (he : e = .execve true) :
      Moves s e j a TASK_KILLED
  | reap (hparent : (s.proc j).parent = some s.cur) (hrun : s.running = true) (he : e.Waits) :
      Moves s e j TASK_ZOMBIE TASK_KILLED

theorem moves_yield {cont : Cont} (hrun : s.running = true) :
    Moves s e j (s.proc j).state ((s.yield cont).proc j).state := by
  rw [state_yield]
  split_ifs with h0 hy
  · exact .kproc _ _ h0 (.inl rfl)
  · rw [hy.2]
    exact .yield hy.1 hrun
  · exact .keep _

theorem Change.moves (hc : Change s e s') (hi : Inv s) (hj : s.Used j) :
    Moves s e j (s.proc j).state (s'.proc j).state := by
  -- only the running task moves by itself; another one is dispatched or reaped
  cases hc with
  | advance i run hrun => exact .keep _
  | dispatch hrun hused hpid hstate =>
    rw [state_switch_to]
    split_ifs with hslot h0
    · rw [hslot, hstate]
      exact .dispatch hrun
    · exact .kproc _ _ h0 (.inr rfl)
    · exact .keep _
  | timer huser => exact moves_yield huser.1
  | insn huser => exact .keep _
  | fork huser np t hfork =>
    have h := congrArg task_struct.state (fork_old hi huser hfork hj)
    exact h ▸ .keep _
  | execve_fail huser t hexec =>
    have h := congrArg task_struct.state (execve_fail_old hi hexec hj)
    exact h ▸ .keep _
  | execve huser np t ret hexec =>
    obtain ⟨q, h⟩ := execve_old hi huser hexec hj
    have h := congrArg task_struct.state h
    unfold Sys.proc Sys.ret at *
    dsimp only at h ⊢
    rw [h]
    split_ifs with hcur
    · exact .execve _ hcur huser rfl
    · exact .keep _
  | exit huser code =>
    rw [state_exit]
    split_ifs with h0 hcur
    · exact .kproc _ _ h0 (.inl rfl)
    · exact .exit _ hcur huser code rfl
    · exact .keep _
  | reap hrun he pos w hstate hused hparent =>
    rw [state_reap]
    split_ifs with hpos
    · rw [hpos, hstate]
      exact .reap (hpos ▸ hparent) hrun he
    · exact .keep _
  | sleep hrun he cont hcont => exact moves_yield hrun
  | ret hrun he v => exact .keep _

/-- A task goes on where it was, or in its program, or sleeps in a wait loop. -/
theorem Change.cont (hc : Change s e s') : (s'.context j).cont = (s.context j).cont ∨
    (s'.context j).cont = .user ∨
      (j = s.cur ∧ s.running = true ∧ e.Waits ∧ s.MaySleep e (s'.context j).cont) := by
  have hret : ∀ (t : Sys) (v : ℤ), (t.context j).cont = (s.context j).cont ∨
      (t.context j).cont = .user → ((t.ret v).context j).cont = (s.context j).cont ∨
        ((t.ret v).context j).cont = .user := by
    intro t v h
    rw [context_ret]
    split_ifs
    · exact .inr rfl
    · exact h
  have hstart : ∀ np, ((Function.update s.context np .start) j).cont = (s.context j).cont ∨
      ((Function.update s.context np .start) j).cont = .user := by
    intro np
    rw [Function.update_apply]
    split_ifs
    · exact .inr rfl
    · exact .inl rfl
  -- a returning call goes back to the program, a new task starts in it
  cases hc with
  | advance i run hrun => exact .inl rfl
  | dispatch hrun hused hpid hstate => exact .inl rfl
  | timer huser =>
    rw [context_yield]
    split_ifs
    · exact .inr (.inl rfl)
    · exact .inl rfl
  | insn huser => exact .inl rfl
  | fork huser np t hfork => exact (hret _ _ (hstart np)).imp_right .inl
  | execve_fail huser t hexec => exact (hret _ _ (.inl rfl)).imp_right .inl
  | execve huser np t ret hexec => exact (hret _ _ (hstart np)).imp_right .inl
  | exit huser code =>
    rw [context_exit]
    split_ifs
    · exact .inr (.inl rfl)
    · exact .inl rfl
  | reap hrun he pos w hstate hused hparent =>
    by_cases hcur : j = s.cur
    · rw [context_reap, if_pos hcur]
      exact .inr (.inl rfl)
    · rw [context_reap, if_neg hcur]
      exact .inl rfl
  | sleep hrun he cont hcont =>
    rw [context_yield]
    split_ifs with hcur
    · exact .inr (.inr ⟨hcur, hrun, he, hcont⟩)
    · exact .inl rfl
  | ret hrun he v => exact (hret s v (.inl rfl)).imp_right .inl

/-! ## The invariant -/

/-- Which task runs after the event. -/
theorem Change.cur (hc : Change s e s') (hi : Inv s) (hrun : s'.running = true) :
    s'.Used s'.cur ∧ s'.cur ≠ 0 ∧
      ((s'.proc s'.cur).state = TASK_RUNNING ∨ (s'.proc s'.cur).state = TASK_KILLED) := by
  have hstay : s.running = true → s'.cur = s.cur →
      ((s'.proc s.cur).state = (s.proc s.cur).state ∨ (s'.proc s.cur).state = TASK_KILLED) →
      s'.Used s'.cur ∧ s'.cur ≠ 0 ∧
        ((s'.proc s'.cur).state = TASK_RUNNING ∨ (s'.proc s'.cur).state = TASK_KILLED) := by
    intro hr he hst
    obtain ⟨hused, hne, hcur⟩ := hi.cur hr
    rw [he]
    refine ⟨(hc.keeps hi hused).1, hne, ?_⟩
    rcases hst with hst | hst
    · rwa [hst]
    · exact .inr hst
  -- `yield` stops the task; after the other steps the same one runs
  cases hc with
  | advance i run hrun' => exact absurd (hrun.symm.trans hrun') (by decide)
  | dispatch hrun' hused hpid hstate =>
    refine ⟨(sameTree_switch_to.allocs s.i).trans hused, ?_, .inl ?_⟩
    · intro h0
      exact hpid ((congrArg (fun i => (s.table.proc i).pid) h0).trans hi.tree.kproc_pid)
    · rw [state_switch_to]
      exact if_pos rfl
  | timer huser => cases hrun
  | insn huser => exact hi.cur huser.1
  | fork huser np t hfork =>
    have h := congrArg task_struct.state (fork_old hi huser hfork (hi.cur huser.1).1)
    exact hstay huser.1 rfl (.inl h)
  | execve_fail huser t hexec =>
    have h := congrArg task_struct.state (execve_fail_old hi hexec (hi.cur huser.1).1)
    exact hstay huser.1 rfl (.inl h)
  | execve huser np t ret hexec =>
    refine hstay huser.1 rfl (.inr ?_)
    obtain ⟨q, h⟩ := execve_old hi huser hexec (hi.cur huser.1).1
    exact (congrArg task_struct.state h).trans (if_pos rfl)
  | exit huser code => cases hrun
  | reap hrun' he pos w hstate hused hparent =>
    refine hstay hrun' rfl ?_
    rw [state_reap]
    split_ifs
    · exact .inr rfl
    · exact .inl rfl
  | sleep hrun' he cont hcont => cases hrun
  | ret hrun' he v => exact hi.cur hrun'

theorem Inv.of_step (hi : Inv s) (h : step s e = some s') : Inv s' := by
  have hc := step_change hi h
  refine ⟨hc.tree hi, ?_, hc.cur hi, fun i pos pid w hcont => ?_⟩
  · have hm := hc.moves hi (j := 0) hi.tree.kproc_used
    have hcur : 0 = s.cur → s.running = true → False := fun h0 hr => (hi.cur hr).2.1 h0.symm
    have hk := hi.kproc
    generalize (s.proc 0).state = a at hm hk
    generalize (s'.proc 0).state = b at hm ⊢
    cases hm with
    | keep => exact hk
    | kproc _ _ _ hb => exact hb
    | yield hj hrun => exact .inr rfl
    | dispatch hrun => exact .inl rfl
    | exit _ hj huser code he => exact (hcur hj huser.1).elim
    | execve _ hj huser he => exact (hcur hj huser.1).elim
    | reap hparent hrun he =>
      have := hi.tree.kproc_parent.symm.trans hparent
      cases this
  · have hold : s.Used pos ∧ (s.proc pos).parent = some i := by
      rcases hc.cont (j := i) with hsame | huser | ⟨rfl, -, -, hsleep⟩
      · exact hi.waits i pos pid w (hsame ▸ hcont)
      · rw [huser] at hcont
        cases hcont
      · rw [hcont] at hsleep
        rcases hsleep with hold | ⟨pid₀, -, -, -, hused, -, hparent⟩
        · exact hi.waits _ pos pid w hold
        · exact ⟨hused, hparent⟩
    obtain ⟨hused, hparent, -⟩ := hc.keeps hi hold.1
    exact ⟨hused, hparent.trans hold.2⟩

/-- `user_init` finds its program and has a slot for it. -/
theorem exec_boot : proc_init.exec true = some (some 1, boot.table) := rfl

theorem Inv.boot : Inv boot := by
  refine ⟨Tree.proc_init.exec_found exec_boot, .inl rfl, fun h => ?_, fun i pos pid w h => ?_⟩
  · cases h
  · cases h

theorem Inv.of_run (hrun : run step Sched.boot es = some s) : Inv s :=
  Reachable.invariant Inv Inv.boot (fun _ _ _ hs h => hs.of_step h) ⟨es, hrun⟩

end Loos.Sched
