/-
The scheduler and the system calls that switch tasks, from `src/core/sche.c`,
`src/core/syscall.c` and `src/core/proc.c`.

Either the scheduler runs, at the slot `i` of its loop, or the task `cur` does.
A system call is atomic up to a `yield`: a trap turns interrupts off and they
come back on with the return to the task, so a timer interrupt only meets a
task in its program. (Interrupts are on in the scheduler only until its first
switch; one that comes there preempts no user task and is not an event.) What a
task does next is its [`Cont`]. Behind the `yield` of a wait loop that is the next
test of the loop; the `yield` of an `exit` would return to the program if the task
were ever run again.

`pid` of `sys_wait4` is a 64-bit word, of which `proc_find` gets the low half as
an `int`. A `panic`, the use of `NULL` and the shutdown are `none`.
-/
import Loos.Proc
import Loos.Lib.Runs

set_option autoImplicit false

namespace Loos.Sched

open SysLib Proc
open alloc_state proc_state

/-! ## States -/

/-- Where a task goes on: in its program, or with the test of a wait loop.
`wstatus` tells whether the pointer is not `NULL`, and `pid` is a ghost. -/
inductive Cont where
  | user
  | wait_any (wstatus : Bool)
  | wait_pid (pos : ℕ) (pid : ℤ) (wstatus : Bool)
deriving DecidableEq

/-- Where a task goes on, what its last system call returned, and what its last
`sys_wait4` stored. -/
structure Context where
  cont : Cont
  a0 : ℤ
  wstatus : Option ℤ

/-- The table, the tasks' contexts, the current task and whether it runs, and
the variables of the scheduler. -/
structure Sys where
  table : Table
  context : ℕ → Context
  cur : ℕ
  running : Bool
  i : ℕ
  run : Bool

/-- The task in the slot `i`. -/
def Sys.proc (s : Sys) (i : ℕ) : task_struct := s.table.proc i

/-- The context of a new task. -/
def Context.start : Context := ⟨.user, 0, none⟩

/-- After `proc_init` and `user_init`, when the scheduler starts. -/
def boot : Sys where
  table := (proc_init.exec true).elim proc_init Prod.snd
  context := fun _ => .start
  cur := 0
  running := false
  i := 0
  run := false

namespace Sys

variable (s : Sys)

/-! ## Translation -/

/-- The system call returns `v` to the program of the current task. -/
def ret (v : ℤ) : Sys :=
  { s with
    context := Function.update s.context s.cur
      { s.context s.cur with cont := .user, a0 := v } }

/-- `yield` by the current task, which goes on with `cont`. -/
def yield (cont : Cont) : Sys :=
  { s with
    table := (s.table.modify s.cur fun p =>
      if p.state = TASK_RUNNING then { p with state := TASK_RUNABLE } else p).modify 0
        fun p => { p with state := TASK_RUNNING }
    context := Function.update s.context s.cur { s.context s.cur with cont := cont }
    running := false
    i := s.i + 1 }

/-- The scheduler marks the task in its slot as running and switches to it. -/
def switch_to : Sys :=
  { s with
    table := (s.table.modify 0 fun p => { p with state := TASK_RUNABLE }).modify s.i
      fun p => { p with state := TASK_RUNNING }
    cur := s.i
    running := true
    run := true }

/-- One round of the loop over `proc` in `scheduler`, or the way back to its start. -/
def scheduler : Option Sys :=
  if s.i < PROC_MAX then
    if (s.proc s.i).allocs = UNUSED ∨ (s.proc s.i).pid = 0 then some { s with i := s.i + 1 }
    else if (s.proc s.i).state = TASK_RUNABLE then some s.switch_to
    else some { s with i := s.i + 1 }
  else if s.run then some { s with i := 0, run := false }
  else none

/-- `sys_clone`. -/
def sys_clone : Option Sys :=
  (s.table.fork s.cur).map fun r =>
    { s with table := r.2, context := Function.update s.context r.1 .start }.ret
      (r.2.proc r.1).pid

/-- `sys_execve`, when the program is found or not. -/
def sys_execve (found : Bool) : Option Sys :=
  (s.table.execve s.cur found).map fun r =>
    match r.2.1 with
    | none => { s with table := r.2.2 }.ret r.1
    | some np =>
      { s with table := r.2.2, context := Function.update s.context np .start }.ret r.1

/-- `sys_exit`. -/
def sys_exit (code : ℤ) : Sys :=
  ({ s with
    table := s.table.modify s.cur fun p =>
      { p with exit_code := code, state := TASK_ZOMBIE } }.ret (-1)).yield .user

/-- The end of `sys_wait4`: `pos` has been found. -/
def reap (pos : ℕ) (wstatus : Bool) : Sys :=
  { s with
    table := s.table.modify pos fun p => { p with state := TASK_KILLED }
    context := Function.update s.context s.cur
      { cont := .user
        a0 := (s.proc pos).pid
        wstatus := if wstatus then some ((s.proc pos).exit_code * 256)
          else (s.context s.cur).wstatus } }

/-- The loop of `sys_wait4` for one task, up to the next switch. -/
def wait_pid (pos : ℕ) (pid : ℤ) (wstatus : Bool) : Sys :=
  if (s.proc pos).state = TASK_ZOMBIE then s.reap pos wstatus
  else s.yield (.wait_pid pos pid wstatus)

/-- The loop of `sys_wait4` for any child, up to the next switch. -/
def wait_any (wstatus : Bool) : Sys :=
  match (s.proc s.cur).children.find? fun pos => (s.proc pos).state == TASK_ZOMBIE with
  | some pos => s.reap pos wstatus
  | none =>
    if (s.proc s.cur).children.any fun pos =>
        (s.proc pos).state == TASK_RUNNING || (s.proc pos).state == TASK_RUNABLE then
      s.yield (.wait_any wstatus)
    else s.ret (-1)

/-- `sys_wait4`. -/
def sys_wait4 (pid : BitVec 64) (wstatus : Bool) : Option Sys :=
  if pid = -1 then some (s.wait_any wstatus)
  else (s.table.proc_find (pid.setWidth 32).toInt).map fun pos =>
    if (s.proc pos).parent ≠ some s.cur then s.ret (-1)
    else s.wait_pid pos (pid.setWidth 32).toInt wstatus

/-- The current task runs its program. -/
def InUser : Prop := s.running = true ∧ (s.context s.cur).cont = .user

instance : Decidable s.InUser := inferInstanceAs (Decidable (_ ∧ _))

end Sys

/-- What happens: the scheduler goes on, a timer interrupt comes, or the current
task goes on in its program, with a system call, or with a wait loop. -/
inductive Event where
  | sched
  | timer
  | insn
  | fork
  | execve (found : Bool)
  | exit (code : ℤ)
  | wait4 (pid : BitVec 64) (wstatus : Bool)
  | resume
deriving DecidableEq

/-- One event; `none` if it is not possible. -/
def step (s : Sys) : Event → Option Sys
  | .sched => if s.running then none else s.scheduler
  | .timer => if s.InUser then some (s.yield .user) else none
  | .insn => if s.InUser then some s else none
  | .fork => if s.InUser then s.sys_clone else none
  | .execve found => if s.InUser then s.sys_execve found else none
  | .exit code => if s.InUser then some (s.sys_exit code) else none
  | .wait4 pid wstatus => if s.InUser then s.sys_wait4 pid wstatus else none
  | .resume =>
    if s.running then
      match (s.context s.cur).cont with
      | .user => none
      | .wait_any wstatus => some (s.wait_any wstatus)
      | .wait_pid pos pid wstatus => some (s.wait_pid pos pid wstatus)
    else none

/-- The task `i` does something in the event `e`. -/
def Sys.Acts (s : Sys) (i : ℕ) (e : Event) : Prop :=
  s.running = true ∧ s.cur = i ∧ e ≠ .timer ∧ e ≠ .sched

/-- The slot `i` is in use. -/
def Sys.Used (s : Sys) (i : ℕ) : Prop := (s.proc i).allocs = USED

instance (s : Sys) (i : ℕ) : Decidable (s.Used i) := inferInstanceAs (Decidable (_ = USED))

/-! ## One task at a time -/

variable {s s' : Sys} {i j pos : ℕ} {cont : Cont} {w : Bool} {v : ℤ} {code : ℤ}

theorem state_switch_to : (s.switch_to.proc j).state =
    if j = s.i then TASK_RUNNING else if j = 0 then TASK_RUNABLE else (s.proc j).state := by
  unfold Sys.proc Sys.switch_to
  dsimp only
  rw [Table.modify_apply, Table.modify_apply]
  split_ifs <;> rfl

theorem state_yield : ((s.yield cont).proc j).state =
    if j = 0 then TASK_RUNNING
    else if j = s.cur ∧ (s.proc j).state = TASK_RUNNING then TASK_RUNABLE
    else (s.proc j).state := by
  unfold Sys.proc Sys.yield
  dsimp only
  rw [Table.modify_apply]
  split_ifs with h0 hy
  · rfl
  · rw [Table.modify_apply, if_pos hy.1, if_pos hy.2]
  · rw [Table.modify_apply]
    split_ifs with hcur hst
    · exact absurd ⟨hcur, hst⟩ hy
    · rfl
    · rfl

theorem state_reap : ((s.reap pos w).proc j).state =
    if j = pos then TASK_KILLED else (s.proc j).state := by
  unfold Sys.proc Sys.reap
  simp only [Table.modify_apply]
  split_ifs <;> rfl

theorem state_exit : ((s.sys_exit code).proc j).state =
    if j = 0 then TASK_RUNNING else if j = s.cur then TASK_ZOMBIE else (s.proc j).state := by
  rw [Sys.sys_exit, state_yield]
  unfold Sys.proc Sys.ret
  simp only [Table.modify_apply]
  by_cases hcur : j = s.cur <;> by_cases h0 : j = 0 <;> simp [hcur, h0]

theorem context_yield : (s.yield cont).context j =
    if j = s.cur then { s.context j with cont := cont } else s.context j := by
  unfold Sys.yield
  simp only [Function.update_apply]
  split_ifs with h
  · rw [h]
  · rfl

theorem context_ret : (s.ret v).context j =
    if j = s.cur then { s.context j with cont := .user, a0 := v } else s.context j := by
  unfold Sys.ret
  simp only [Function.update_apply]
  split_ifs with h
  · rw [h]
  · rfl

theorem context_exit : (s.sys_exit code).context j =
    if j = s.cur then { s.context j with cont := .user, a0 := -1 } else s.context j := by
  rw [Sys.sys_exit, context_yield, context_ret]
  unfold Sys.ret
  dsimp only
  split_ifs <;> rfl

theorem context_reap : (s.reap pos w).context j =
    if j = s.cur then
      { cont := .user
        a0 := (s.proc pos).pid
        wstatus := if w then some ((s.proc pos).exit_code * 256) else (s.context j).wstatus }
    else s.context j := by
  rcases eq_or_ne j s.cur with rfl | h
  · rw [if_pos rfl]
    exact Function.update_self ..
  · rw [if_neg h]
    exact Function.update_of_ne h ..

theorem sameTree_switch_to : SameTree s.table s.switch_to.table := by
  dsimp only [Sys.switch_to]
  refine SameTree.trans ?_ (SameTree.modify _ _ rfl rfl rfl rfl)
  exact SameTree.modify _ _ rfl rfl rfl rfl

theorem sameTree_yield : SameTree s.table (s.yield cont).table := by
  dsimp only [Sys.yield]
  refine SameTree.trans ?_ (SameTree.modify _ _ rfl rfl rfl rfl)
  refine SameTree.modify _ _ ?_ ?_ ?_ ?_ <;> split_ifs <;> rfl

theorem sameTree_reap : SameTree s.table (s.reap pos w).table := by
  dsimp only [Sys.reap]
  exact SameTree.modify _ _ rfl rfl rfl rfl

theorem sameTree_exit : SameTree s.table (s.sys_exit code).table := by
  unfold Sys.sys_exit
  refine SameTree.trans ?_ sameTree_yield
  dsimp only [Sys.ret]
  exact SameTree.modify _ _ rfl rfl rfl rfl

end Loos.Sched
