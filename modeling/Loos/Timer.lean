/-
The alarm of a process, from `src/core/time.c` and `src/core/syscall.c`.

`timer_handler` counts the timer interrupts in `ticks` and compares a process's
`timer_call_time` with it, while `sys_setitimer` computes that time from `tick`,
another variable, which nothing ever writes. The two agree only while `ticks` is
zero, so an arming made later counts its delay from the boot of the system:
[`timers_of_run`] says which armings are kept, and [`early_of_late_arming`] that
any other one can come too early.

A trap ends with a switch to whatever process the scheduler chooses; here the
choice is an event of its own, of any slot at any time. So is a callback's own
system call, which comes after the interrupt that invoked it. `interrupts`,
`armed` and `past` are ghosts: the number of interrupts handled since the boot,
without the wrap of `ticks`, and every arming with the interrupts that invoked
the callback for it.
-/
import Loos.Lib.Runs
import Mathlib.Logic.Function.Basic
import Mathlib.Tactic.Linarith

set_option autoImplicit false

namespace Loos.Timer

open SysLib

/-! ## Data -/

/-- `(uint64_t)-1`, the `timer_call_time` of a process without an alarm. -/
def NEVER : ℕ := 2 ^ 64 - 1

def SIGALRM : ℕ := 14

/-- The fields of a process that the alarm reads. A `callback` of 0 is `NULL`. -/
structure task_struct where
  callback : ℕ
  timer_call_time : ℕ
deriving DecidableEq

structure timeval where
  tv_sec : ℤ
  tv_usec : ℤ

structure itimerval where
  it_interval : timeval
  it_value : timeval

/-- Of a `struct sigaction`, what `sys_rt_sigaction` reads. -/
structure sigaction where
  sa_handler : ℕ

/-- A timer armed for a delay of `d` when `k` interrupts had been handled, with
the signal and the number of the interrupt of each call of the callback since. -/
structure Arming where
  k : ℕ
  d : ℕ
  calls : List (ℕ × ℕ)
deriving DecidableEq

/-- The variables of the two files and the processes; then the ghosts. `past` has
the armings that a later one of the same slot has replaced. -/
structure Sys where
  ticks : ℕ
  tick : ℕ
  proc : ℕ → task_struct
  cur : ℕ
  interrupts : ℕ
  armed : ℕ → Option Arming
  past : List Arming

/-- After `timer_init` and `proc_init`, which clears the slots and allocates the first. -/
def boot : Sys where
  ticks := 0
  tick := 0
  proc := fun i => if i = 0 then ⟨0, NEVER⟩ else ⟨0, 0⟩
  cur := 0
  interrupts := 0
  armed := fun _ => none
  past := []

namespace Sys

variable (s : Sys)

/-! ## Translation -/

/-- `my_proc`. -/
def my_proc : task_struct := s.proc s.cur

/-- The process in the slot `i` becomes `p`. -/
def put (i : ℕ) (p : task_struct) : Sys := { s with proc := Function.update s.proc i p }

/-- The arming of the slot `i` is `a` from now on. -/
def arm (i : ℕ) (a : Option Arming) : Sys :=
  { s with armed := Function.update s.armed i a, past := (s.armed i).toList ++ s.past }

/-- `do_signal`, which panics without a callback. -/
def do_signal (signum : ℕ) : Option Sys :=
  if s.my_proc.callback = 0 then none
  else some { s with
    armed := Function.update s.armed s.cur
      ((s.armed s.cur).map fun a => { a with calls := (signum, s.interrupts) :: a.calls }) }

/-- `timer_handler`, up to its `yield`. -/
def timer_handler : Option Sys :=
  let s := { s with ticks := (s.ticks + 1) % 2 ^ 64, interrupts := s.interrupts + 1 }
  let p := s.my_proc
  if p.callback ≠ 0 ∧ p.timer_call_time ≤ s.ticks then
    (s.put s.cur { p with timer_call_time := NEVER }).do_signal SIGALRM
  else some s

/-- `sys_rt_sigaction`, which asserts that there is a handler. -/
def sys_rt_sigaction (act : sigaction) : Option Sys :=
  if act.sa_handler = 0 then none
  else some (s.put s.cur { s.my_proc with callback := act.sa_handler })

end Sys

/-- `get_tick_by_ms`. -/
def get_tick_by_ms (ms : ℕ) : ℕ := ms / 2

/-- The argument that `sys_setitimer` gives to `get_tick_by_ms`, as a `uint64_t`. -/
def itimerval.ms (new : itimerval) : ℕ :=
  ((new.it_value.tv_sec * 10 + new.it_value.tv_usec) % 2 ^ 64).toNat

/-- The delay that an alarm is set to. -/
def itimerval.delay (new : itimerval) : ℕ := get_tick_by_ms new.ms

namespace Sys

variable (s : Sys)

/-- `sys_setitimer`, which asserts that the alarm is not periodic. -/
def sys_setitimer (new : itimerval) : Option Sys :=
  if new.it_interval.tv_sec = 0 ∧ new.it_interval.tv_usec = 0 then
    some ((s.put s.cur { s.my_proc with
      timer_call_time := (s.tick + get_tick_by_ms new.ms) % 2 ^ 64 }).arm s.cur
        (some ⟨s.interrupts, new.delay, []⟩))
  else none

/-- `clean_up`, by `sys_exit`. -/
def clean_up : Sys := s.put s.cur ⟨0, NEVER⟩

/-- `proc_alloc` of the slot `np`. -/
def proc_alloc (np : ℕ) : Sys := (s.put np ⟨0, NEVER⟩).arm np none

/-- `fork` into the slot `np`: the child has a copy of the alarm. -/
def fork (np : ℕ) : Sys :=
  let p := s.my_proc
  let a := s.armed s.cur
  ((s.proc_alloc np).put np p).arm np a

end Sys

/-- What can come next. -/
inductive Event where
  | interrupt
  | switch_to (i : ℕ)
  | sys_rt_sigaction (act : sigaction)
  | sys_setitimer (new : itimerval)
  | clean_up
  | proc_alloc (np : ℕ)
  | fork (np : ℕ)

/-- One event; `none` is the halt after a failed assertion or a panic. -/
def step (s : Sys) : Event → Option Sys
  | .interrupt => s.timer_handler
  | .switch_to i => some { s with cur := i }
  | .sys_rt_sigaction act => s.sys_rt_sigaction act
  | .sys_setitimer new => s.sys_setitimer new
  | .clean_up => some s.clean_up
  | .proc_alloc np => some (s.proc_alloc np)
  | .fork np => some (s.fork np)

/-! ## What an alarm promises -/

/-- The callback is invoked at most once, and by no interrupt before the one that
the delay leads to. -/
structure Arming.Kept (a : Arming) : Prop where
  once : a.calls.length ≤ 1
  late : ∀ c ∈ a.calls, a.k + a.d ≤ c.2

/-- Every arming so far is kept. -/
def Sys.Kept (s : Sys) : Prop :=
  (∀ a ∈ s.past, a.Kept) ∧ ∀ i, ∀ a ∈ s.armed i, a.Kept

/-- An alarm is set before the first interrupt or for at most one tick, and `ticks`
does not come to the value that means `NEVER`. -/
def Timely (s : Sys) : Event → Prop
  | .interrupt => s.interrupts + 1 < NEVER
  | .sys_setitimer new => s.interrupts = 0 ∨ new.delay ≤ 1
  | _ => True

instance (s : Sys) : (e : Event) → Decidable (Timely s e)
  | .interrupt => inferInstanceAs (Decidable (_ < _))
  | .sys_setitimer _ => inferInstanceAs (Decidable (_ ∨ _))
  | .switch_to _ => .isTrue trivial
  | .sys_rt_sigaction _ => .isTrue trivial
  | .clean_up => .isTrue trivial
  | .proc_alloc _ => .isTrue trivial
  | .fork _ => .isTrue trivial

/-! ## The invariant -/

/-- The arming `a` of the process `p`, after `n` interrupts: its alarm has gone off
or been dropped, or it is still to come, and then not too early. -/
structure Awaited (n : ℕ) (p : task_struct) (a : Arming) : Prop where
  kept : a.Kept
  pending : p.timer_call_time ≠ NEVER →
    a.calls = [] ∧ p.timer_call_time = a.d ∧ a.k ≤ n ∧ (a.k = 0 ∨ a.d ≤ 1)

structure Inv (s : Sys) : Prop where
  ticks : s.ticks = s.interrupts
  lt : s.interrupts < NEVER
  tick : s.tick = 0
  past : ∀ a ∈ s.past, a.Kept
  armed : ∀ i, ∀ a ∈ s.armed i, Awaited s.interrupts (s.proc i) a

variable {s s' : Sys} {e : Event} {es : List Event} {i n : ℕ} {p : task_struct} {a : Arming}

theorem Inv.boot : Inv boot where
  ticks := rfl
  lt := by decide
  tick := rfl
  past := by simp [Timer.boot]
  armed := by simp [Timer.boot]

theorem Inv.kept (hs : Inv s) : s.Kept := ⟨hs.past, fun i a ha => (hs.armed i a ha).kept⟩

/-- Nothing is awaited of a process without an alarm. -/
theorem Arming.Kept.dropped (ha : a.Kept) (callback : ℕ) : Awaited n ⟨callback, NEVER⟩ a :=
  ⟨ha, fun h => absurd rfl h⟩

theorem Awaited.later {m : ℕ} (ha : Awaited n p a) (hm : n ≤ m) : Awaited m p a := by
  refine ⟨ha.kept, fun h => ?_⟩
  obtain ⟨hcalls, htime, hk, hd⟩ := ha.pending h
  exact ⟨hcalls, htime, le_trans hk hm, hd⟩

/-! ## What changes -/

/-- From `s` to `s'` only the slot `i` changes, and nothing but its arming is past
from now on. -/
structure Only (i : ℕ) (s s' : Sys) : Prop where
  ticks : s'.ticks = s.ticks
  tick : s'.tick = s.tick
  interrupts : s'.interrupts = s.interrupts
  proc : ∀ j, j ≠ i → s'.proc j = s.proc j
  armed : ∀ j, j ≠ i → s'.armed j = s.armed j
  past : ∀ a ∈ s'.past, a ∈ s.past ∨ a ∈ s.armed i

theorem Only.put (s : Sys) (i : ℕ) (p : task_struct) : Only i s (s.put i p) where
  ticks := rfl
  tick := rfl
  interrupts := rfl
  proc _ hj := Function.update_of_ne hj _ _
  armed _ _ := rfl
  past _ ha := .inl ha

/-- A slot with the process `p` and the arming `b`. -/
theorem Only.put_arm (s : Sys) (i : ℕ) (p : task_struct) (b : Option Arming) :
    Only i s ((s.put i p).arm i b) where
  ticks := rfl
  tick := rfl
  interrupts := rfl
  proc _ hj := Function.update_of_ne hj _ _
  armed _ hj := Function.update_of_ne hj _ _
  past a ha := by
    rcases List.mem_append.mp ha with ha | ha
    · exact .inr (Option.mem_toList.mp ha)
    · exact .inl ha

/-- The rule for a change of one slot. -/
theorem Inv.of_only (hs : Inv s) (h : Only i s s')
    (hi : ∀ a ∈ s'.armed i, Awaited s.interrupts (s'.proc i) a) : Inv s' := by
  refine ⟨?_, ?_, ?_, fun a ha => ?_, fun j a ha => ?_⟩
  · rw [h.ticks, h.interrupts]
    exact hs.ticks
  · rw [h.interrupts]
    exact hs.lt
  · rw [h.tick]
    exact hs.tick
  · rcases h.past a ha with ha | ha
    · exact hs.past a ha
    · exact (hs.armed i a ha).kept
  · rw [h.interrupts]
    by_cases hj : j = i
    · subst hj
      exact hi a ha
    · rw [h.armed j hj] at ha
      rw [h.proc j hj]
      exact hs.armed j a ha

theorem put_proc : (s.put i p).proc i = p := Function.update_self ..

theorem put_arm_armed {b : Option Arming} : ((s.put i p).arm i b).armed i = b :=
  Function.update_self ..

theorem put_arm_proc {b : Option Arming} : ((s.put i p).arm i b).proc i = p :=
  Function.update_self ..

theorem Inv.put (hs : Inv s) (h : ∀ a ∈ s.armed i, Awaited s.interrupts p a) :
    Inv (s.put i p) := by
  refine hs.of_only (.put s i p) fun a ha => ?_
  rw [put_proc]
  exact h a ha

theorem Inv.put_arm {b : Option Arming} (hs : Inv s) (h : ∀ a ∈ b, Awaited s.interrupts p a) :
    Inv ((s.put i p).arm i b) := by
  refine hs.of_only (.put_arm s i p b) fun a ha => ?_
  rw [put_arm_armed] at ha
  rw [put_arm_proc]
  exact h a ha

/-! ## One event -/

theorem Inv.sys_rt_sigaction {act : sigaction} (hs : Inv s)
    (h : s.sys_rt_sigaction act = some s') : Inv s' := by
  unfold Sys.sys_rt_sigaction at h
  split at h
  · cases h
  · cases h
    refine hs.put fun a ha => ?_
    have hawaited := hs.armed s.cur a ha
    exact ⟨hawaited.kept, hawaited.pending⟩

/-- What a call of `sys_setitimer` does, while `tick` has never been written. -/
theorem sys_setitimer_spec {new : itimerval} (htick : s.tick = 0)
    (h : s.sys_setitimer new = some s') :
    s' = (s.put s.cur { s.my_proc with timer_call_time := new.delay }).arm s.cur
      (some ⟨s.interrupts, new.delay, []⟩) := by
  have hms : new.ms < 2 ^ 64 := by
    have hlt := Int.emod_lt_of_pos (new.it_value.tv_sec * 10 + new.it_value.tv_usec)
      (show (0 : ℤ) < 2 ^ 64 by decide)
    unfold itimerval.ms
    omega
  have hdelay : (s.tick + get_tick_by_ms new.ms) % 2 ^ 64 = new.delay := by
    rw [htick, Nat.zero_add]
    apply Nat.mod_eq_of_lt
    exact lt_of_le_of_lt (Nat.div_le_self _ _) hms
  unfold Sys.sys_setitimer at h
  split at h
  · rw [hdelay] at h
    exact (Option.some.inj h).symm
  · cases h

theorem Inv.sys_setitimer {new : itimerval} (hs : Inv s)
    (hok : s.interrupts = 0 ∨ new.delay ≤ 1) (h : s.sys_setitimer new = some s') : Inv s' := by
  rw [sys_setitimer_spec hs.tick h]
  refine hs.put_arm fun a ha => ?_
  obtain rfl := Option.mem_some_iff.mp ha
  exact ⟨⟨Nat.zero_le _, by simp⟩, fun _ => ⟨rfl, rfl, le_refl _, hok⟩⟩

theorem Inv.proc_alloc (hs : Inv s) (np : ℕ) : Inv (s.proc_alloc np) :=
  hs.put_arm fun _ ha => nomatch ha

/-- The child's copy of an alarm is in order as the parent's is. -/
theorem Inv.fork (hs : Inv s) (np : ℕ) : Inv (s.fork np) :=
  (hs.proc_alloc np).put_arm (hs.armed s.cur)

/-- An interrupt either counts only, or the alarm of the current process goes off. -/
theorem timer_handler_spec (hs : s.ticks = s.interrupts) (hok : s.interrupts + 1 < NEVER) :
    s.timer_handler =
      let s₁ := { s with ticks := s.ticks + 1, interrupts := s.interrupts + 1 }
      some (if s.my_proc.callback ≠ 0 ∧ s.my_proc.timer_call_time ≤ s.interrupts + 1 then
        { s₁ with
          proc := Function.update s.proc s.cur { s.my_proc with timer_call_time := NEVER }
          armed := Function.update s.armed s.cur ((s.armed s.cur).map fun a =>
            { a with calls := (SIGALRM, s.interrupts + 1) :: a.calls }) }
      else s₁) := by
  have hticks : (s.ticks + 1) % 2 ^ 64 = s.ticks + 1 := by
    apply Nat.mod_eq_of_lt
    rw [hs]
    unfold NEVER at hok
    omega
  unfold Sys.timer_handler Sys.do_signal
  rw [hticks]
  simp only [Sys.my_proc, hs]
  split
  · rename_i hfire
    rw [if_neg]
    · rfl
    · simpa [Sys.put] using hfire.1
  · rfl

theorem Inv.timer_handler (hs : Inv s) (hok : s.interrupts + 1 < NEVER)
    (h : s.timer_handler = some s') : Inv s' := by
  rw [timer_handler_spec hs.ticks hok] at h
  obtain rfl := Option.some.inj h
  have hticks : s.ticks + 1 = s.interrupts + 1 := by rw [hs.ticks]
  split
  · rename_i hfire
    refine ⟨hticks, hok, hs.tick, hs.past, fun j a ha => ?_⟩
    by_cases hj : j = s.cur
    · -- the callback has been invoked: its arming was still to come
      subst hj
      dsimp only at ha ⊢
      rw [Function.update_self] at ha ⊢
      obtain ⟨b, hb, rfl⟩ := Option.map_eq_some_iff.mp ha
      have hne : (s.proc s.cur).timer_call_time ≠ NEVER := by
        intro hnever
        have hle := hfire.2
        rw [Sys.my_proc, hnever] at hle
        omega
      obtain ⟨hcalls, htime, hk, hd⟩ := (hs.armed s.cur b hb).pending hne
      have hle : b.k + b.d ≤ s.interrupts + 1 := by
        have hle := hfire.2
        rw [Sys.my_proc, htime] at hle
        rcases hd with hd | hd <;> omega
      apply Arming.Kept.dropped
      refine ⟨?_, fun c hc => ?_⟩
      · simp [hcalls]
      · rw [hcalls] at hc
        obtain rfl := List.mem_singleton.mp hc
        exact hle
    · dsimp only at ha ⊢
      rw [Function.update_of_ne hj] at ha ⊢
      exact (hs.armed j a ha).later (Nat.le_succ _)
  · exact ⟨hticks, hok, hs.tick, hs.past, fun j a ha => (hs.armed j a ha).later (Nat.le_succ _)⟩

theorem Inv.of_step (hs : Inv s) (hok : Timely s e) (h : step s e = some s') : Inv s' := by
  cases e with
  | interrupt => exact hs.timer_handler hok h
  | switch_to i =>
    cases h
    exact ⟨hs.ticks, hs.lt, hs.tick, hs.past, hs.armed⟩
  | sys_rt_sigaction act => exact hs.sys_rt_sigaction h
  | sys_setitimer new => exact hs.sys_setitimer hok h
  | clean_up =>
    cases h
    exact hs.put fun a ha => (hs.armed s.cur a ha).kept.dropped 0
  | proc_alloc np =>
    cases h
    exact hs.proc_alloc np
  | fork np =>
    cases h
    exact hs.fork np

theorem Inv.of_run (hs : Inv s) (hok : Meets step Timely s es) (h : run step s es = some s') :
    Inv s' :=
  run_invariant Timely Inv (fun _ _ _ hs hok h => hs.of_step hok h) hs hok h

/-! ## Every run -/

/-- **When alarms are kept.** In a run whose alarms are all timely no callback is
invoked early, and none twice for one alarm. -/
theorem timers_of_run (hok : Meets step Timely boot es) (h : run step boot es = some s) :
    s.Kept :=
  (Inv.boot.of_run hok h).kept

/-- Two processes, one a copy of the other, whose alarms go off in turn. -/
def two_alarms : List Event :=
  [.proc_alloc 1, .switch_to 1, .sys_rt_sigaction ⟨0x4000⟩, .sys_setitimer ⟨⟨0, 0⟩, ⟨0, 5⟩⟩,
    .fork 2, .interrupt, .switch_to 2, .interrupt, .switch_to 1, .interrupt, .interrupt,
    .sys_setitimer ⟨⟨0, 0⟩, ⟨0, 2⟩⟩, .interrupt]

theorem timers_of_two_alarms : ∃ s, run step boot two_alarms = some s ∧
    s.past = [⟨0, 2, [(SIGALRM, 3)]⟩] ∧ s.armed 1 = some ⟨4, 1, [(SIGALRM, 5)]⟩ ∧
    s.armed 2 = some ⟨0, 2, [(SIGALRM, 2)]⟩ ∧ s.Kept := by
  have heval : (run step boot two_alarms).map (fun s => (s.past, s.armed 1, s.armed 2)) =
      some ([⟨0, 2, [(SIGALRM, 3)]⟩], some ⟨4, 1, [(SIGALRM, 5)]⟩,
        some ⟨0, 2, [(SIGALRM, 2)]⟩) := by decide +kernel
  obtain ⟨s, hs, he⟩ := Option.map_eq_some_iff.mp heval
  simp only [Prod.mk.injEq] at he
  obtain ⟨hpast, hone, htwo⟩ := he
  exact ⟨s, hs, hpast, hone, htwo, timers_of_run (by decide +kernel) hs⟩

/-- An alarm for two ticks, set after the first interrupt, goes off at the second. -/
theorem early_alarm : ∃ s, run step boot [.proc_alloc 1, .switch_to 1, .interrupt,
      .sys_rt_sigaction ⟨0x4000⟩, .sys_setitimer ⟨⟨0, 0⟩, ⟨0, 4⟩⟩, .interrupt] = some s ∧
    s.armed 1 = some ⟨1, 2, [(SIGALRM, 2)]⟩ ∧ ¬ s.Kept := by
  have heval : (run step boot [.proc_alloc 1, .switch_to 1, .interrupt,
      .sys_rt_sigaction ⟨0x4000⟩, .sys_setitimer ⟨⟨0, 0⟩, ⟨0, 4⟩⟩, .interrupt]).map
        (fun s => s.armed 1) = some (some ⟨1, 2, [(SIGALRM, 2)]⟩) := by decide +kernel
  obtain ⟨s, hs, he⟩ := Option.map_eq_some_iff.mp heval
  refine ⟨s, hs, he, fun hkept => ?_⟩
  have hlate := (hkept.2 1 _ he).late (SIGALRM, 2) (by simp)
  simp at hlate

/-! ## Any other alarm -/

/-- Before an alarm is due, interrupts are only counted. -/
theorem run_quiet (hs : s.ticks = s.interrupts)
    (hlt : s.interrupts + n < s.my_proc.timer_call_time) (hnever : s.interrupts + n < NEVER) :
    run step s (List.replicate n .interrupt) =
      some { s with ticks := s.ticks + n, interrupts := s.interrupts + n } := by
  induction n generalizing s with
  | zero => rfl
  | succ n ih =>
    have hquiet : step s .interrupt =
        some { s with ticks := s.ticks + 1, interrupts := s.interrupts + 1 } := by
      have hnot : ¬ (s.my_proc.callback ≠ 0 ∧ s.my_proc.timer_call_time ≤ s.interrupts + 1) := by
        rintro ⟨-, hle⟩
        omega
      change s.timer_handler = _
      rw [timer_handler_spec hs (by omega)]
      simp only [if_neg hnot]
    rw [List.replicate_succ, run_cons, hquiet, Option.bind_some, ih]
    · simp [Nat.add_assoc, Nat.add_comm 1]
    · simp [hs]
    · change s.interrupts + 1 + n < s.my_proc.timer_call_time
      omega
    · change s.interrupts + 1 + n < NEVER
      omega

/-- An interrupt at which the alarm of the current process is due. -/
theorem timer_handler_due (hs : s.ticks = s.interrupts) (hcall : s.my_proc.callback ≠ 0)
    (ha : s.armed s.cur = some a) (hle : s.my_proc.timer_call_time ≤ s.interrupts + 1)
    (hnever : s.interrupts + 1 < NEVER) :
    ∃ s', s.timer_handler = some s' ∧ s'.armed s.cur =
      some { a with calls := (SIGALRM, s.interrupts + 1) :: a.calls } := by
  refine ⟨_, timer_handler_spec hs hnever, ?_⟩
  rw [if_pos ⟨hcall, hle⟩]
  simp [ha]

/-- The alarm of the current process goes off at the first interrupt at which it is due. -/
theorem run_due (hs : s.ticks = s.interrupts) (hcall : s.my_proc.callback ≠ 0)
    (ha : s.armed s.cur = some a) (hlt : s.interrupts + n < s.my_proc.timer_call_time ∨ n = 0)
    (hle : s.my_proc.timer_call_time ≤ s.interrupts + n + 1)
    (hnever : s.interrupts + n + 1 < NEVER) :
    ∃ s', run step s (List.replicate (n + 1) .interrupt) = some s' ∧ s'.armed s.cur =
      some { a with calls := (SIGALRM, s.interrupts + n + 1) :: a.calls } := by
  have hquiet : run step s (List.replicate n .interrupt) =
      some { s with ticks := s.ticks + n, interrupts := s.interrupts + n } := by
    rcases hlt with hlt | rfl
    · exact run_quiet hs hlt (by omega)
    · rfl
  obtain ⟨s', hlast, harmed⟩ := timer_handler_due
    (s := { s with ticks := s.ticks + n, interrupts := s.interrupts + n })
    (by simp [hs]) hcall ha hle hnever
  refine ⟨s', ?_, harmed⟩
  rw [List.replicate_succ', run_append, hquiet, Option.bind_some, run_cons, step, hlast]
  rfl

/-- An alarm that is not timely is called early, if the interrupts that follow it meet its
process and the process has a callback. -/
theorem early_of_late_arming {new : itimerval} (hs : Inv s) (hcall : s.my_proc.callback ≠ 0)
    (h : s.sys_setitimer new = some s') (hlate : ¬ Timely s (.sys_setitimer new))
    (hroom : s.interrupts + new.delay < NEVER) :
    ∃ m s'', run step s' (List.replicate m .interrupt) = some s'' ∧ ¬ s''.Kept := by
  obtain ⟨hk, hd⟩ : s.interrupts ≠ 0 ∧ ¬ new.delay ≤ 1 := not_or.mp hlate
  rw [sys_setitimer_spec hs.tick h]
  set p : task_struct := { s.my_proc with timer_call_time := new.delay } with hp
  set s₁ := (s.put s.cur p).arm s.cur (some ⟨s.interrupts, new.delay, []⟩) with hs₁
  have hproc : s₁.my_proc = p := put_arm_proc
  have harmed : s₁.armed s₁.cur = some ⟨s.interrupts, new.delay, []⟩ := put_arm_armed
  -- the interrupt that calls it: the first one, or the one that `ticks` reaches the delay with
  obtain ⟨n, hlt, hle, hearly⟩ : ∃ n, (s.interrupts + n < new.delay ∨ n = 0) ∧
      new.delay ≤ s.interrupts + n + 1 ∧ s.interrupts + n + 1 < s.interrupts + new.delay := by
    refine ⟨new.delay - (s.interrupts + 1), ?_, ?_, ?_⟩ <;> omega
  obtain ⟨s₂, hrun, hcalls⟩ := run_due (s := s₁) (n := n) hs.ticks (by rw [hproc]; exact hcall)
    harmed (by rw [hproc]; exact hlt) (by rw [hproc]; exact hle)
    (lt_trans hearly hroom)
  refine ⟨n + 1, s₂, hrun, fun hkept => ?_⟩
  have hlate := (hkept.2 _ _ hcalls).late (SIGALRM, s.interrupts + n + 1) List.mem_cons_self
  exact absurd hlate (not_le.mpr hearly)

end Loos.Timer
