/-
Which child `sys_wait4` waits for.

The call for one task looks the pid up and then tests a `NULL` pointer together with
the parent: a pid that no task has is not refused there, and the loop reads the state
of `NULL`. A slot keeps its pid after the wait that has ended it, so the same call for a
child that is gone finds the slot and waits for ever. `proc_find` takes an `int`, and the
high half of the argument is lost. Behind the entry the loop is right until a
`sys_execve` of the tested task takes the pid away.

A call for any child, with the pid -1, goes through the list of the children. The
list has every child: [`Listed`] is the converse of the tree's invariant.
-/
import Loos.ExecTree
import Loos.Killed
import Loos.WaitLoop

set_option autoImplicit false

namespace Loos.Sched

open SysLib Proc
open alloc_state proc_state

/-! ## Properties -/

/-- The task `j` is a child of the current one with the pid `pid`, or any child if `pid`
is -1, and it lives or is dead and has not been waited for. -/
def Sys.Awaited (s : Sys) (pid : BitVec 64) (j : ℕ) : Prop :=
  s.Child s.cur j ∧ (pid = -1 ∨ (s.proc j).pid = pid.toInt)

/-- The loop `cont` is one of `sys_wait4(pid)`, and tests a child that it may wait for. -/
def Sys.LoopFor (s : Sys) (pid : BitVec 64) : Cont → Prop
  | .user => False
  | .wait_any _ => pid = -1 ∧ ∃ j ∈ (s.proc s.cur).children, s.Awaited pid j
  | .wait_pid pos n _ => pid ≠ -1 ∧ n = pid.toInt ∧ s.Awaited pid pos

/-- `sys_wait4(pid)` has led from `s` to `s'`: back to the program with -1 if there is no such
child, and else it has ended the wait for one or sleeps in a loop for one. -/
structure Wait4Right (s : Sys) (pid : BitVec 64) (w : Bool) (s' : Sys) : Prop where
  fails : (∀ j, ¬ s.Awaited pid j) →
    s'.running = true ∧ (s'.context s.cur).cont = .user ∧ (s'.context s.cur).a0 = -1
  waits : (∃ j, s.Awaited pid j) →
    (∃ j, s.Awaited pid j ∧ (s.proc j).state = TASK_ZOMBIE ∧ s' = s.reap j w) ∨
      ∃ cont, s.LoopFor pid cont ∧ s' = s.yield cont

/-- The loop `cont` of the task `i` tests a child that lives, or is dead and has not been
waited for, and has the pid that the task waits for. -/
def Sys.Waiting (s : Sys) (i : ℕ) : Cont → Prop
  | .user => True
  | .wait_any _ => ∃ j ∈ (s.proc i).children, s.Child i j
  | .wait_pid pos pid _ => s.Child i pos ∧ (s.proc pos).pid = pid

/-- Every task that waits has a child to wait for. -/
def Sys.Loops (s : Sys) : Prop := ∀ i, s.Waiting i (s.context i).cont

/-- `sys_wait4` does not use `NULL` and does what it should when it is called, and after the
event every loop waits for a child. -/
def WaitsRight (s : Sys) (e : Event) : Prop :=
  (∀ pid w, e = .wait4 pid w → s.InUser → ∃ s', step s e = some s' ∧ Wait4Right s pid w s') ∧
    ∀ s', step s e = some s' → s'.Loops

/-- `proc_find` finds a task for the low half of `pid`. If it is a child of the caller, then it
is not reaped or replaced and has the whole `pid`, or it is a dead image with the
pid -1 that the call returns. -/
def Finds (s : Sys) (pid : BitVec 64) : Prop :=
  ∃ pos, s.table.proc_find (pid.setWidth 32).toInt = some pos ∧
    ((s.proc pos).parent ≠ some s.cur ∨
      ((s.proc pos).state ≠ TASK_KILLED ∧ pid.toInt = (pid.setWidth 32).toInt) ∨
      ((s.proc pos).state = TASK_ZOMBIE ∧ (pid.setWidth 32).toInt = -1))

/-- A call for one task finds a right one, and no task is replaced while a loop tests it. -/
def WaitClear (s : Sys) : Event → Prop
  | .wait4 pid _ => s.InUser → pid ≠ -1 → Finds s pid
  | .execve true => (step s (.execve true)).isSome → ∀ i pos pid w,
      (s.context i).cont = .wait_pid pos pid w → pos ≠ s.cur
  | _ => True

/-- Every task but those of the scheduler is on the list of its parent, and `last_pid` is an
`int`. -/
structure Listed (s : Sys) : Prop where
  last_pid : s.table.last_pid ≤ INT_MAX
  listed : ∀ j i, s.Used j → (s.proc j).parent = some i → i ≠ 0 → j ∈ (s.proc i).children

variable {s s' : Sys} {e : Event} {es : List Event} {i j pos : ℕ} {w : Bool} {cont : Cont}
  {pid : BitVec 64}

/-! ## The lists of children -/

/-- The list of a task's children only grows. -/
theorem Change.children (hc : Change s e s') (hi : Inv s) (hused : s.Used i)
    (hj : j ∈ (s.proc i).children) : j ∈ (s'.proc i).children := by
  have hsame : SameTree s.table s'.table → j ∈ (s'.proc i).children := by
    intro h
    have heq : (s'.proc i).children = (s.proc i).children := h.children i
    rwa [heq]
  cases hc with
  | advance i run hrun => exact hj
  | dispatch hrun hused hpid hstate => exact hsame sameTree_switch_to
  | timer huser => exact hsame sameTree_yield
  | insn huser => exact hj
  | fork huser np t hfork =>
    show j ∈ (t.proc i).children
    rw [fork_old hi huser hfork hused]
    dsimp only
    split_ifs
    · exact List.mem_cons_of_mem _ hj
    · exact hj
  | execve_fail huser t hexec =>
    show j ∈ (t.proc i).children
    rwa [execve_fail_old hi hexec hused]
  | execve huser np t ret hexec =>
    obtain ⟨q, h⟩ := execve_old hi huser hexec hused
    show j ∈ (t.proc i).children
    rw [h]
    dsimp only
    split_ifs
    · exact List.mem_cons_of_mem _ hj
    · exact hj
  | exit huser code => exact hsame sameTree_exit
  | reap hrun he pos w hstate hused hparent => exact hsame sameTree_reap
  | sleep hrun he cont hcont => exact hsame sameTree_yield
  | ret hrun he v => exact hj

/-- The only new task of a table is on the list of its parent. -/
theorem born_of_new {t t' : Table} {np p : ℕ} (hnew : (t'.proc np).parent = some p)
    (hlist : np ∈ (t'.proc p).children)
    (hothers : ∀ j, j ≠ np → (t'.proc j).allocs = (t.proc j).allocs)
    (hold : (t.proc j).allocs ≠ USED) (hj : (t'.proc j).allocs = USED)
    (hparent : (t'.proc j).parent = some i) : j ∈ (t'.proc i).children := by
  rcases eq_or_ne j np with rfl | hne
  · rw [hnew] at hparent
    obtain rfl := Option.some.inj hparent
    exact hlist
  · rw [hothers j hne] at hj
    exact absurd hj hold

/-- A task that comes into being is put on the list of its parent. -/
theorem Change.born (hc : Change s e s') (hi : Inv s) (hold : ¬ s.Used j) (hj : s'.Used j)
    (hparent : (s'.proc j).parent = some i) : j ∈ (s'.proc i).children := by
  have hsame : SameTree s.table s'.table → j ∈ (s'.proc i).children := fun h =>
    absurd ((h.allocs j).symm.trans hj) hold
  -- `fork` and `execve` make a task
  cases hc with
  | advance i run hrun => exact absurd hj hold
  | dispatch hrun hused hpid hstate => exact hsame sameTree_switch_to
  | timer huser => exact hsame sameTree_yield
  | insn huser => exact absurd hj hold
  | fork huser np t hfork =>
    have hcur := (hi.cur huser.1).1
    obtain ⟨hfree, -, hnew, hothers⟩ := fork_spec hfork hcur
    have hlist : np ∈ (t.proc s.cur).children := by
      rw [hothers _ (hfree.ne hcur)]
      simp
    have hnew' : (t.proc np).parent = some s.cur := by rw [hnew]
    have hothers' : ∀ k, k ≠ np → (t.proc k).allocs = (s.table.proc k).allocs := by
      intro k hk
      rw [hothers k hk]
    exact born_of_new hnew' hlist hothers' hold hj hparent
  | execve_fail huser t hexec =>
    obtain ⟨-, -, np, hfree, hunused, -, hothers⟩ :=
      exec_not_found_spec hexec fun np hnp => hi.tree.not_mem hnp
    change (t.proc j).allocs = USED at hj
    rcases eq_or_ne j np with rfl | hne
    · rw [hunused] at hj
      cases hj
    · rw [hothers j hne] at hj
      exact absurd hj hold
  | execve huser np t ret hexec =>
    have hcur := (hi.cur huser.1).1
    obtain ⟨np', q, -, hr, hfree, hq, -, hnew, hothers⟩ := execve_spec hexec hi.tree hcur
    obtain rfl := Option.some.inj hr
    have hlist : np ∈ (t.proc q).children := by
      rw [hothers _ (hfree.ne (hi.tree.parent _ _ hcur hq))]
      simp
    have hnew' : (t.proc np).parent = some q := by rw [hnew]
    have hothers' : ∀ k, k ≠ np → (t.proc k).allocs = (s.table.proc k).allocs := by
      intro k hk
      rw [hothers k hk]
    exact born_of_new hnew' hlist hothers' hold hj hparent
  | exit huser code => exact hsame sameTree_exit
  | reap hrun he pos w hstate hused hparent => exact hsame sameTree_reap
  | sleep hrun he cont hcont => exact hsame sameTree_yield
  | ret hrun he v => exact absurd hj hold

/-- `proc_alloc` halts before `last_pid` overflows. -/
theorem proc_alloc_last_pid {t t' : Table} {np : ℕ} (h : t.proc_alloc = some (np, t'))
    (ht : t.last_pid ≤ INT_MAX) : t.last_pid + 1 ≤ INT_MAX := by
  unfold Table.proc_alloc at h
  split at h
  · cases h
  · split at h
    · cases h
    · omega

theorem Change.last_pid (hc : Change s e s') (hi : Inv s) (hl : s.table.last_pid ≤ INT_MAX) :
    s'.table.last_pid ≤ INT_MAX := by
  cases hc with
  | advance i run hrun => exact hl
  | dispatch hrun hused hpid hstate => exact hl
  | timer huser => exact hl
  | insn huser => exact hl
  | fork huser np t hfork =>
    obtain ⟨⟨np', t'⟩, halloc, -⟩ := Option.map_eq_some_iff.mp hfork
    obtain ⟨-, hlast, -⟩ := fork_spec hfork (hi.cur huser.1).1
    exact hlast.trans_le (proc_alloc_last_pid halloc hl)
  | execve_fail huser t hexec =>
    obtain ⟨⟨np', t'⟩, halloc, -⟩ := Option.map_eq_some_iff.mp hexec
    obtain ⟨-, hlast, -⟩ := exec_not_found_spec hexec fun np hnp => hi.tree.not_mem hnp
    exact hlast.trans_le (proc_alloc_last_pid halloc hl)
  | execve huser np t ret hexec =>
    obtain ⟨np', q, -, -, -, -, hlast, -⟩ := execve_spec hexec hi.tree (hi.cur huser.1).1
    obtain ⟨r, hexec, -⟩ := Option.bind_eq_some_iff.mp hexec
    obtain ⟨⟨np', t'⟩, halloc, -⟩ := Option.map_eq_some_iff.mp hexec
    exact hlast.trans_le (proc_alloc_last_pid halloc hl)
  | exit huser code => exact hl
  | reap hrun he pos w hstate hused hparent => exact hl
  | sleep hrun he cont hcont => exact hl
  | ret hrun he v => exact hl

theorem Listed.boot : Listed boot := by
  refine ⟨by decide, ?_⟩
  intro j i hj hparent h0
  have hlt := Inv.boot.tree.used_lt j hj
  -- the first task is a child of the scheduler's
  have hall : ∀ j < PROC_MAX, (Sched.boot.proc j).parent = none ∨
      (Sched.boot.proc j).parent = some 0 := by decide +kernel
  rcases hall j hlt with h | h
  · cases h.symm.trans hparent
  · exact absurd (Option.some.inj (h.symm.trans hparent)).symm h0

theorem Listed.of_change (hl : Listed s) (hi : Inv s) (hc : Change s e s') : Listed s' := by
  refine ⟨hc.last_pid hi hl.last_pid, ?_⟩
  intro j i hj hparent h0
  -- a task keeps its parent, and a new one is listed when it is made
  by_cases hold : s.Used j
  · have hpar : (s.proc j).parent = some i := (hc.keeps hi hold).2.1.symm.trans hparent
    exact hc.children hi (hi.tree.parent j i hold hpar) (hl.listed j i hold hpar h0)
  · exact hc.born hi hold hj hparent

/-! ## The entry of the call -/

/-- A pid is an `int`, so the low half of an argument that is one has it all. -/
theorem toInt_setWidth (h : -1 ≤ pid.toInt) (hlt : pid.toInt ≤ INT_MAX) :
    (pid.setWidth 32).toInt = pid.toInt := by
  rw [BitVec.toInt_setWidth]
  unfold INT_MAX at hlt
  rw [BitVec.toInt_eq_toNat_bmod] at h hlt ⊢
  have := pid.isLt
  simp only [Int.bmod_def] at h hlt ⊢
  omega

/-- The child that a call for one task may wait for is the one that `proc_find` finds. -/
theorem Sys.Awaited.found (h : s.Awaited pid j) (hi : Inv s) (hl : Listed s) (hpid : pid ≠ -1)
    (hfind : s.table.proc_find (pid.setWidth 32).toInt = some pos) :
    j = pos ∧ pid.toInt = (pid.setWidth 32).toInt := by
  obtain ⟨⟨hused, -, -⟩, hj⟩ := h
  have hj : (s.table.proc j).pid = pid.toInt := hj.resolve_left hpid
  obtain ⟨hmin, hmax⟩ := hi.tree.pid j hused
  have hlast := hl.last_pid
  have hint : (pid.setWidth 32).toInt = pid.toInt := toInt_setWidth (by omega) (by omega)
  obtain ⟨hpos, hn⟩ := Table.proc_find_some hfind
  -- no two tasks have a pid in common, unless it is the -1 of a dead image
  refine ⟨hi.tree.pid_inj j pos hused hpos (by rw [hj, hn, hint]) ?_, hint.symm⟩
  rw [hj]
  exact fun h => hpid (BitVec.eq_of_toInt_eq h)

theorem wait_any_right (hi : Inv s) (hl : Listed s) (huser : s.InUser) :
    Wait4Right s (-1) w (s.wait_any w) := by
  have hchild : ∀ j ∈ (s.proc s.cur).children, (s.proc j).state ≠ TASK_KILLED →
      s.Awaited (-1) j := by
    intro j hj hstate
    obtain ⟨hused, hparent⟩ := hi.tree.child s.cur j hj
    exact ⟨⟨hused, hparent, hstate⟩, .inl rfl⟩
  unfold Sys.wait_any
  split
  · -- a dead child
    next pos hfind =>
    have hz : (s.proc pos).state = TASK_ZOMBIE := by simpa using List.find?_some hfind
    have hpos := hchild pos (List.mem_of_find?_eq_some hfind) (by simp [hz])
    exact ⟨fun hnone => absurd hpos (hnone pos), fun _ => .inl ⟨pos, hpos, hz, rfl⟩⟩
  next hfind =>
  split
  · -- a child that lives
    next hany =>
    obtain ⟨pos, hmem, hstate⟩ := List.any_eq_true.mp hany
    have hpos := hchild pos hmem (by rintro h; simp [h] at hstate)
    refine ⟨fun hnone => absurd hpos (hnone pos), fun _ => .inr ⟨.wait_any w, ?_, rfl⟩⟩
    exact ⟨rfl, pos, hmem, hpos⟩
  · -- no child: the list has all that there are
    next hany =>
    refine ⟨fun _ => ⟨huser.1, ?_, ?_⟩, ?_⟩
    · rw [context_ret, if_pos rfl]
    · rw [context_ret, if_pos rfl]
    · rintro ⟨j, ⟨hused, hparent, hstate⟩, -⟩
      have hmem := hl.listed j s.cur hused hparent (hi.cur huser.1).2.1
      have hz := List.find?_eq_none.mp hfind j hmem
      have hrun : ¬ ((s.proc j).state == TASK_RUNNING || (s.proc j).state == TASK_RUNABLE) = true :=
        fun h => hany (List.any_eq_true.mpr ⟨j, hmem, h⟩)
      cases hst : (s.proc j).state <;> simp_all

/-- A task that is not the caller's child is refused. -/
theorem ret_right (hi : Inv s) (hl : Listed s) (huser : s.InUser) (hpid : pid ≠ -1)
    (hfind : s.table.proc_find (pid.setWidth 32).toInt = some pos)
    (hparent : (s.proc pos).parent ≠ some s.cur) : Wait4Right s pid w (s.ret (-1)) := by
  refine ⟨fun _ => ⟨huser.1, ?_, ?_⟩, ?_⟩
  · rw [context_ret, if_pos rfl]
  · rw [context_ret, if_pos rfl]
  · rintro ⟨j, hj⟩
    obtain ⟨rfl, -⟩ := hj.found hi hl hpid hfind
    exact absurd hj.1.2.1 hparent

/-- The loop for one child is entered rightly if the child may be waited for. A dead image
gives its pid -1 back, which is also the error. -/
theorem wait_pid_right_iff (hi : Inv s) (hl : Listed s) (huser : s.InUser) (hpid : pid ≠ -1)
    (hfind : s.table.proc_find (pid.setWidth 32).toInt = some pos)
    (hparent : (s.proc pos).parent = some s.cur) :
    Wait4Right s pid w (s.wait_pid pos (pid.setWidth 32).toInt w) ↔
      ((s.proc pos).state ≠ TASK_KILLED ∧ pid.toInt = (pid.setWidth 32).toInt) ∨
        ((s.proc pos).state = TASK_ZOMBIE ∧ (pid.setWidth 32).toInt = -1) := by
  obtain ⟨hused, hn⟩ := Table.proc_find_some hfind
  unfold Sys.wait_pid
  split
  · -- the child is dead, and the call returns its pid
    next hz =>
    have hchild : s.Child s.cur pos := ⟨hused, hparent, by simp [hz]⟩
    constructor
    · intro hr
      by_cases hint : pid.toInt = (pid.setWidth 32).toInt
      · exact .inl ⟨hchild.2.2, hint⟩
      · -- nobody has the whole pid, so the returned value has to be the error
        have ha0 := (hr.fails fun j hj => hint (hj.found hi hl hpid hfind).2).2.2
        rw [context_reap, if_pos rfl] at ha0
        exact .inr ⟨hz, hn.symm.trans ha0⟩
    · intro h
      refine ⟨fun hnone => ⟨huser.1, ?_, ?_⟩, fun ⟨j, hj⟩ => .inl ?_⟩
      · rw [context_reap, if_pos rfl]
      · rw [context_reap, if_pos rfl]
        rcases h with ⟨-, hint⟩ | ⟨-, h1⟩
        · exact absurd ⟨hchild, .inr (hn.trans hint.symm)⟩ (hnone pos)
        · exact hn.trans h1
      · obtain ⟨rfl, -⟩ := hj.found hi hl hpid hfind
        exact ⟨j, hj, hz, rfl⟩
  · -- the child is not dead, and the call sleeps
    next hz =>
    constructor
    · intro hr
      have hsome : ∃ j, s.Awaited pid j := by
        by_contra hnone
        have hrun := (hr.fails fun j hj => hnone ⟨j, hj⟩).1
        cases hrun
      obtain ⟨j, hj⟩ := hsome
      obtain ⟨rfl, hint⟩ := hj.found hi hl hpid hfind
      exact .inl ⟨hj.1.2.2, hint⟩
    · rintro (⟨hk, hint⟩ | ⟨hz', -⟩)
      · have hpos : s.Awaited pid pos := ⟨⟨hused, hparent, hk⟩, .inr (hn.trans hint.symm)⟩
        refine ⟨fun hnone => absurd hpos (hnone pos), fun _ => .inr ⟨_, ?_, rfl⟩⟩
        exact ⟨hpid, hint.symm, hpos⟩
      · exact absurd hz' hz

/-- What `sys_wait4` should do when it is called, and when it does. -/
theorem wait4_right_iff (hi : Inv s) (hl : Listed s) (huser : s.InUser) :
    (∃ s', s.sys_wait4 pid w = some s' ∧ Wait4Right s pid w s') ↔ (pid ≠ -1 → Finds s pid) := by
  by_cases hpid : pid = -1
  · subst hpid
    exact iff_of_true ⟨_, if_pos rfl, wait_any_right hi hl huser⟩ fun h => absurd rfl h
  unfold Sys.sys_wait4
  rw [if_neg hpid, imp_iff_right hpid]
  constructor
  · rintro ⟨s', h, hr⟩
    obtain ⟨pos, hfind, rfl⟩ := Option.map_eq_some_iff.mp h
    refine ⟨pos, hfind, ?_⟩
    by_cases hparent : (s.proc pos).parent = some s.cur
    · rw [if_neg (not_not.mpr hparent)] at hr
      exact .inr ((wait_pid_right_iff hi hl huser hpid hfind hparent).mp hr)
    · exact .inl hparent
  · rintro ⟨pos, hfind, h⟩
    refine ⟨_, Option.map_eq_some_iff.mpr ⟨pos, hfind, rfl⟩, ?_⟩
    by_cases hparent : (s.proc pos).parent = some s.cur
    · rw [if_neg (not_not.mpr hparent)]
      exact (wait_pid_right_iff hi hl huser hpid hfind hparent).mpr
        (h.resolve_left (not_not.mpr hparent))
    · rw [if_pos hparent]
      exact ret_right hi hl huser hpid hfind hparent

/-! ## The loops -/

/-- A task that dies for good is replaced or has been waited for by its parent, which goes on in
its program. -/
theorem Change.reap_user (hc : Change s e s') (he : e.Waits)
    (hz : (s.proc j).state = TASK_ZOMBIE) (hk : (s'.proc j).state = TASK_KILLED) :
    (s'.context s.cur).cont = .user := by
  cases hc with
  | advance => exact he.elim
  | dispatch => exact he.elim
  | timer => exact he.elim
  | insn => exact he.elim
  | fork => exact he.elim
  | execve_fail => exact he.elim
  | execve => exact he.elim
  | exit => exact he.elim
  | reap hrun he pos w hstate hused hparent => rw [context_reap, if_pos rfl]
  | sleep hrun he cont hcont =>
    rw [state_yield, hz] at hk
    split_ifs at hk
  | ret hrun he v => rw [context_ret, if_pos rfl]

/-- A child of a task that does not end its wait stays one, unless it is replaced. -/
theorem Change.child (hc : Change s e s') (hi : Inv s) (hj : s.Child i j)
    (hexec : e = .execve true → j ≠ s.cur) (hcont : (s'.context i).cont ≠ .user) :
    s'.Child i j ∧ (s'.proc j).pid = (s.proc j).pid := by
  obtain ⟨hused, hparent, hstate⟩ := hj
  obtain ⟨hused', hparent', hpid⟩ := hc.keeps hi hused
  -- what is left to exclude is that the child dies for good
  refine ⟨⟨hused', hparent'.trans hparent, ?_⟩, hpid.resolve_right fun h => hexec h.1 h.2.1⟩
  intro hk
  have hm := hc.moves hi hused
  have huser := hc.reap_user (j := j)
  rw [hk] at hm
  generalize (s.proc j).state = a at hm hstate huser
  cases hm with
  | keep => exact hstate rfl
  | kproc _ _ _ hb => rcases hb with hb | hb <;> cases hb
  | execve _ hcur _ he => exact hexec he hcur
  | reap hpar _ he =>
    obtain rfl := Option.some.inj (hpar.symm.trans hparent)
    exact hcont (huser he rfl hk)

/-- The parent of a task that is replaced has the new one for a child. -/
theorem Change.replaced (hc : Change s (.execve true) s') (hi : Inv s)
    (hparent : (s.proc s.cur).parent = some i) :
    ∃ np ∈ (s'.proc i).children, s'.Child i np := by
  cases hc with
  | execve huser np t ret hexec =>
    have hcur := (hi.cur huser.1).1
    obtain ⟨np', q, -, hr, hfree, hq, -, hnew, hothers⟩ := execve_spec hexec hi.tree hcur
    obtain rfl := Option.some.inj hr
    obtain rfl := Option.some.inj (hq.symm.trans hparent)
    have hne : q ≠ np := hfree.ne (hi.tree.parent _ _ hcur hq)
    refine ⟨np, ?_, ?_, ?_, ?_⟩
    · show np ∈ (t.proc q).children
      rw [hothers q hne]
      simp
    · show (t.proc np).allocs = USED
      rw [hnew]
    · show (t.proc np).parent = some q
      rw [hnew]
    · show (t.proc np).state ≠ TASK_KILLED
      rw [hnew]
      exact fun h => nomatch h
  | reap _ he => exact he.elim
  | sleep _ he => exact he.elim
  | ret _ he => exact he.elim

/-- A task that goes on waiting has a child to wait for, if it had one. -/
theorem Sys.Waiting.of_change (hw : s.Waiting i cont) (hi : Inv s) (hc : Change s e s')
    (hcont : (s'.context i).cont ≠ .user)
    (hexec : e = .execve true → ∀ pos n w, cont = .wait_pid pos n w → pos ≠ s.cur) :
    s'.Waiting i cont := by
  cases cont with
  | user => trivial
  | wait_any w =>
    obtain ⟨j, hmem, hj⟩ := hw
    by_cases hx : e = .execve true ∧ j = s.cur
    · obtain ⟨rfl, rfl⟩ := hx
      exact hc.replaced hi hj.2.1
    · have hi_used := hi.tree.parent j i hj.1 hj.2.1
      exact ⟨j, hc.children hi hi_used hmem,
        (hc.child hi hj (fun he hcur => hx ⟨he, hcur⟩) hcont).1⟩
  | wait_pid pos n w =>
    obtain ⟨hj, hpid⟩ := hw
    obtain ⟨hj', hpid'⟩ := hc.child hi hj (fun he => hexec he pos n w rfl) hcont
    exact ⟨hj', hpid'.trans hpid⟩

/-- The loop that a task sleeps in is the one it was in, unless it has called `sys_wait4`. -/
theorem cont_step (hi : Inv s) (h : step s e = some s') :
    (s'.context i).cont = (s.context i).cont ∨ (s'.context i).cont = .user ∨
      (i = s.cur ∧ s.InUser ∧ ∃ pid w, e = .wait4 pid w) := by
  rcases (step_change hi h).cont (j := i) with hsame | huser | ⟨rfl, -, he, -⟩
  · exact .inl hsame
  · exact .inr (.inl huser)
  cases e with
  | wait4 pid w =>
    rw [step] at h
    split_ifs at h with huser
    exact .inr (.inr ⟨rfl, huser, pid, w, rfl⟩)
  | resume =>
    rw [step] at h
    split_ifs at h
    -- the loop sleeps again, or the call returns
    split at h
    · cases h
    · next w hcont =>
      obtain rfl := Option.some.inj h
      unfold Sys.wait_any
      split
      · exact .inr (.inl (by rw [context_reap, if_pos rfl]))
      · split
        · exact .inl (by rw [context_yield, if_pos rfl, hcont])
        · exact .inr (.inl (by rw [context_ret, if_pos rfl]))
    · next pos n w hcont =>
      obtain rfl := Option.some.inj h
      unfold Sys.wait_pid
      split
      · exact .inr (.inl (by rw [context_reap, if_pos rfl]))
      · exact .inl (by rw [context_yield, if_pos rfl, hcont])
  | sched => exact he.elim
  | timer => exact he.elim
  | insn => exact he.elim
  | fork => exact he.elim
  | execve found => exact he.elim
  | exit code => exact he.elim

theorem Sys.LoopFor.waiting (h : s.LoopFor pid cont) : s.Waiting s.cur cont := by
  cases cont with
  | user => exact h.elim
  | wait_any w =>
    obtain ⟨-, j, hmem, hj⟩ := h
    exact ⟨j, hmem, hj.1⟩
  | wait_pid pos n w =>
    obtain ⟨hpid, rfl, hj⟩ := h
    exact ⟨hj.1, hj.2.resolve_left hpid⟩

/-- A right call that has not returned sleeps in a loop for a child. -/
theorem Wait4Right.waiting (hr : Wait4Right s pid w s')
    (hcont : (s'.context s.cur).cont ≠ .user) : s.Waiting s.cur (s'.context s.cur).cont := by
  have hsome : ∃ j, s.Awaited pid j := by
    by_contra hnone
    exact hcont (hr.fails fun j hj => hnone ⟨j, hj⟩).2.1
  rcases hr.waits hsome with ⟨j, -, -, rfl⟩ | ⟨cont, hloop, rfl⟩
  · rw [context_reap, if_pos rfl] at hcont
    exact absurd rfl hcont
  · rw [context_yield, if_pos rfl]
    exact hloop.waiting

/-- After a clear event every loop waits for a child. -/
theorem loops_of_step (hs : s.Loops) (hi : Inv s) (hl : Listed s) (he : WaitClear s e)
    (h : step s e = some s') : s'.Loops := by
  have hc := step_change hi h
  intro i
  by_cases hcont : (s'.context i).cont = .user
  · rw [hcont]
    trivial
  rcases cont_step hi h (i := i) with hsame | huser | ⟨rfl, huser, pid, w, rfl⟩
  · rw [hsame]
    refine (hs i).of_change hi hc hcont ?_
    rintro rfl
    exact he (by rw [h]; rfl) i
  · exact absurd huser hcont
  · -- the call has gone to sleep
    obtain ⟨s'', h', hr⟩ := (wait4_right_iff (w := w) hi hl huser).mpr (he huser)
    rw [step, if_pos huser, h'] at h
    obtain rfl := Option.some.inj h
    exact (hr.waiting hcont).of_change hi hc hcont fun he => by cases he

/-- A task that is replaced leaves the loop that tests it without a child. -/
theorem not_loops_of_execve (hi : Inv s) (h : step s (.execve true) = some s') {n : ℤ}
    (hcont : (s.context i).cont = .wait_pid s.cur n w) : ¬ s'.Loops := by
  intro hs
  obtain ⟨hused, hparent⟩ := hi.waits i s.cur n w hcont
  have hne : i ≠ s.cur := by
    rintro rfl
    have huser := (execve_inUser h).2
    rw [hcont] at huser
    cases huser
  have hstay := (step_change hi h).stays hi (hi.tree.parent _ i hused hparent)
    (by rw [hcont]; exact Cont.noConfusion) (fun hacts => hne hacts.2.1.symm)
  have hi' := hs i
  rw [hstay, hcont] at hi'
  exact hi'.1.2.2 (execve_killed hi h).2.2.2

/-! ## Main result -/

theorem waitsRight_iff (hi : Inv s) (hl : Listed s) (hs : s.Loops) :
    WaitsRight s e ↔ WaitClear s e := by
  constructor
  · rintro ⟨hentry, hloops⟩
    cases e with
    | wait4 pid w =>
      intro huser
      obtain ⟨s', h, hr⟩ := hentry pid w rfl huser
      rw [step, if_pos huser] at h
      exact (wait4_right_iff hi hl huser).mp ⟨s', h, hr⟩
    | execve found =>
      cases found with
      | false => trivial
      | true =>
        rintro hsome i pos n w hcont rfl
        obtain ⟨s', h⟩ := Option.isSome_iff_exists.mp hsome
        exact not_loops_of_execve hi h hcont (hloops s' h)
    | sched => trivial
    | timer => trivial
    | insn => trivial
    | fork => trivial
    | exit code => trivial
    | resume => trivial
  · intro he
    refine ⟨?_, fun s' h => loops_of_step hs hi hl he h⟩
    rintro pid w rfl huser
    rw [step, if_pos huser]
    exact (wait4_right_iff hi hl huser).mpr (he huser)

/-- **`sys_wait4` waits for a right child in exactly the runs** in which every call finds a task
that is somebody else's or may be waited for under the whole pid, and no task is replaced while
a loop tests it. -/
theorem waits_right_iff (es : List Event) :
    Meets step WaitsRight boot es ↔ Meets step WaitClear boot es := by
  refine meets_congr (fun s => Inv s ∧ Listed s ∧ s.Loops) ?_ ?_ ⟨Inv.boot, Listed.boot, ?_⟩
  · rintro s e s' ⟨hi, hl, hs⟩ he h
    exact ⟨hi.of_step h, hl.of_change hi (step_change hi h), loops_of_step hs hi hl he h⟩
  · rintro s e ⟨hi, hl, hs⟩
    exact waitsRight_iff hi hl hs
  · exact fun i => trivial

/-- **No task has the pid 99**, and the call uses `NULL`. -/
theorem wait_unknown_pid : ¬ Meets step WaitsRight boot [.sched, .sched, .wait4 99 true] := by
  intro h
  have heval : (run step boot [.sched, .sched]).map (fun s =>
      (decide s.InUser, (step s (.wait4 99 true)).isNone)) = some (true, true) := by
    decide +kernel
  obtain ⟨s, hs, he⟩ := Option.map_eq_some_iff.mp heval
  obtain ⟨huser, hnone⟩ := Prod.mk.inj he
  have hright := meets_iff.mp h [.sched, .sched] (.wait4 99 true) [] s rfl hs
  obtain ⟨s', h', -⟩ := hright.1 99 true rfl (of_decide_eq_true huser)
  rw [h'] at hnone
  cases hnone

end Loos.Sched
