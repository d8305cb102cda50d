/-
The status that `sys_wait4` stores.

`*(uint64_t *) wstatus = pos->exit_code << 8` writes eight bytes to a variable of four: the
`int` of the program gets the shifted code, and the bytes behind it the sign extension.
A [`Machine`] adds to the tasks the bytes of their memories. The memory of a task
changes by its own stores (`insn`, which stands for the other system calls as well), and
when a wait of it ends; `before` is a ghost, the memory when the task called `sys_wait4` last.

`rusage` is `NULL` here.
-/
import Loos.Lib.ByteMem
import Loos.Tasks

set_option autoImplicit false

namespace Loos.WaitStatus

open SysLib Proc Sched
open alloc_state proc_state

/-! ## The store -/

/-- `pos->exit_code << 8`, an `int`, as a `uint64_t`. -/
def status_word (exit_code : ℤ) : ℕ := ((exit_code * 256).bmod (2 ^ 32) % 2 ^ 64).toNat

/-- What `sys_wait4` does with `wstatus` at its end. -/
def put_status (mem : Mem) (wstatus : ℕ) (exit_code : ℤ) : Mem :=
  if wstatus = 0 then mem else mem.store64 wstatus (status_word exit_code)

/-! ## The test of a wait loop -/

/-- The dead child that the loop finds. -/
def dead_child (s : Sys) : Cont → Option ℕ
  | .user => none
  | .wait_any _ => (s.proc s.cur).children.find? fun pos => (s.proc pos).state == TASK_ZOMBIE
  | .wait_pid pos _ _ => if (s.proc pos).state = TASK_ZOMBIE then some pos else none

/-- The dead child that `sys_wait4` finds, at its first test or at a later one. -/
def found (s : Sys) : Event → Option ℕ
  | .wait4 pid w =>
    if pid = -1 then dead_child s (.wait_any w)
    else (s.table.proc_find (pid.setWidth 32).toInt).bind fun pos =>
      if (s.proc pos).parent ≠ some s.cur then none
      else dead_child s (.wait_pid pos (pid.setWidth 32).toInt w)
  | .resume => dead_child s (s.context s.cur).cont
  | _ => none

/-! ## Machines -/

/-- The tasks, their memories, and the arguments `wstatus` of their calls of `sys_wait4`. -/
structure Machine where
  sys : Sys
  mem : ℕ → Mem
  wstatus : ℕ → ℕ
  before : ℕ → Mem

/-- What happens. A new program comes with its memory. -/
inductive Call where
  | sched
  | timer
  | insn (mem : Mem)
  | fork
  | execve (image : Option Mem)
  | exit (code : ℤ)
  | wait4 (pid wstatus : BitVec 64)
  | resume

/-- The event of the scheduler. -/
def Call.event : Call → Event
  | .sched => .sched
  | .timer => .timer
  | .insn _ => .insn
  | .fork => .fork
  | .execve image => .execve image.isSome
  | .exit code => .exit code
  | .wait4 pid wstatus => .wait4 pid (wstatus != 0)
  | .resume => .resume

namespace Machine

variable (m : Machine)

/-- The memories after the task in a new slot has got `image`. -/
def new_task (image : Mem) : ℕ → Mem :=
  m.sys.table.proc_alloc.elim m.mem fun slot => Function.update m.mem slot.1 image

/-- The memories after a test that has found `pos`. -/
def report (wstatus : ℕ) : Option ℕ → ℕ → Mem
  | none => m.mem
  | some pos => Function.update m.mem m.sys.cur
      (put_status (m.mem m.sys.cur) wstatus (m.sys.proc pos).exit_code)

/-- `wstatus` of the call that the current task makes or is in. -/
def address : Call → ℕ
  | .wait4 _ wstatus => wstatus.toNat
  | .resume => m.wstatus m.sys.cur
  | _ => 0

end Machine

/-- One event. -/
def step (m : Machine) (c : Call) : Option Machine :=
  (Sched.step m.sys c.event).map fun s' =>
    match c with
    | .insn mem => { m with sys := s', mem := Function.update m.mem m.sys.cur mem }
    | .fork => { m with sys := s', mem := m.new_task (m.mem m.sys.cur) }
    | .execve (some image) => { m with sys := s', mem := m.new_task image }
    | .wait4 _ wstatus =>
      { sys := s'
        mem := m.report wstatus.toNat (found m.sys c.event)
        wstatus := Function.update m.wstatus m.sys.cur wstatus.toNat
        before := Function.update m.before m.sys.cur (m.mem m.sys.cur) }
    | .resume =>
      { m with sys := s', mem := m.report (m.wstatus m.sys.cur) (found m.sys c.event) }
    | .sched | .timer | .execve none | .exit _ => { m with sys := s' }

/-- The machine when the scheduler starts, with the same bytes everywhere. -/
def boot (byte : UInt8) : Machine := ⟨Sched.boot, fun _ _ => byte, fun _ => 0, fun _ _ => byte⟩

/-! ## Properties -/

/-- From `m` to `m'` the wait of the current task for `pos` has ended. -/
structure Reported (m m' : Machine) (pos wstatus : ℕ) : Prop where
  zombie : (m.sys.proc pos).state = TASK_ZOMBIE
  killed : (m'.sys.proc pos).state = TASK_KILLED
  others : ∀ j, j ≠ pos → (m'.sys.proc j).state = (m.sys.proc j).state
  returns : m'.sys.running = true ∧ (m'.sys.context m.sys.cur).cont = .user ∧
    (m'.sys.context m.sys.cur).a0 = (m.sys.proc pos).pid
  exited : (m'.mem m.sys.cur).load wstatus 4 % 128 = 0
  status : (((m'.mem m.sys.cur).load wstatus 4 / 256 % 256 : ℕ) : ℤ) =
    (m.sys.proc pos).exit_code % 256
  frame : ∀ x, x < wstatus ∨ wstatus + 4 ≤ x →
    m'.mem m.sys.cur x = m'.before m.sys.cur x

/-- A call that returns a pid has found a child, and where it finds one it reports the status
of the child, and changes no other byte from its beginning on. -/
structure StatusRight (m : Machine) (c : Call) : Prop where
  child : ∀ m', step m c = some m' → c.event.Waits → m'.sys.running = true →
    (m'.sys.context m.sys.cur).cont = .user → (m'.sys.context m.sys.cur).a0 ≠ -1 →
      ∃ pos, found m.sys c.event = some pos
  report : ∀ m' pos, step m c = some m' → found m.sys c.event = some pos → m.address c ≠ 0 →
    Reported m m' pos (m.address c)

/-- The four bytes behind the `int` hold its sign already. -/
def SignBehind (mem : Mem) (wstatus : ℕ) (exit_code : ℤ) : Prop :=
  mem.load (wstatus + 4) 4 = if 2 ^ 23 ≤ exit_code % 2 ^ 24 then 2 ^ 32 - 1 else 0

/-- Where a call finds a dead child and has a place for the status, the bytes behind it hold
the sign of the shifted code. -/
def StatusFits (m : Machine) (c : Call) : Prop :=
  (step m c).isSome → ∀ pos, found m.sys c.event = some pos → m.address c ≠ 0 →
    SignBehind (m.mem m.sys.cur) (m.address c) (m.sys.proc pos).exit_code

instance (m : Machine) (c : Call) : Decidable (StatusFits m c) :=
  inferInstanceAs (Decidable (_ → ∀ pos ∈ found m.sys c.event, _ → Mem.load _ _ _ = _))

/-- A task that waits has not stored anything since its call. -/
def Machine.Quiet (m : Machine) : Prop :=
  ∀ i, (m.sys.context i).cont ≠ .user → m.mem i = m.before i

variable {s s' : Sys} {e : Event} {m m' : Machine} {c : Call} {cs : List Call} {i pos a : ℕ}
  {w : Bool} {mem : Mem} {code : ℤ}

/-! ## The bytes of the status -/

/-- The low half of the word is the code shifted, and the high half its sign. -/
theorem status_word_low (code : ℤ) :
    ((status_word code % 2 ^ 32 : ℕ) : ℤ) = code * 256 % 2 ^ 32 := by
  unfold status_word
  rw [Int.bmod_def]
  split_ifs <;> omega

theorem status_word_high :
    status_word code / 2 ^ 32 % 2 ^ 32 = if 2 ^ 23 ≤ code % 2 ^ 24 then 2 ^ 32 - 1 else 0 := by
  unfold status_word
  rw [Int.bmod_def]
  split_ifs <;> omega

theorem put_status_eq (ha : a ≠ 0) : put_status mem a code = mem.store64 a (status_word code) :=
  if_neg ha

/-- The program's variable gets a normal exit with the low byte of the code. -/
theorem load_put_status (mem : Mem) (code : ℤ) (ha : a ≠ 0) :
    (put_status mem a code).load a 4 % 128 = 0 ∧
      (((put_status mem a code).load a 4 / 256 % 256 : ℕ) : ℤ) = code % 256 := by
  have hload : (put_status mem a code).load a 4 = status_word code % 2 ^ 32 := by
    have h := Mem.load_store_sub mem a (status_word code) (k := 0) (n := 4) (w := 8) (by omega)
    rwa [Nat.add_zero, Nat.pow_zero, Nat.div_one, ← Mem.store64, ← put_status_eq ha] at h
  have hlow := status_word_low code
  rw [hload]
  omega

/-- Behind the variable the store leaves the bytes as they are exactly if they are the sign. -/
theorem put_status_frame_iff (ha : a ≠ 0) :
    (∀ x, x < a ∨ a + 4 ≤ x → put_status mem a code x = mem x) ↔ SignBehind mem a code := by
  have hload : (put_status mem a code).load (a + 4) 4 =
      if 2 ^ 23 ≤ code % 2 ^ 24 then 2 ^ 32 - 1 else 0 := by
    have h := Mem.load_store_sub mem a (status_word code) (k := 4) (n := 4) (w := 8) (by omega)
    rw [← Mem.store64, ← put_status_eq ha] at h
    exact h.trans status_word_high
  unfold SignBehind
  rw [← hload]
  constructor
  · intro h
    exact Mem.load_congr fun x h1 h2 => (h x (.inr h1)).symm
  · -- eight bytes are written, four of them behind the variable
    intro h x hx
    rcases Nat.lt_or_ge x a with hlt | hge
    · rw [put_status_eq ha]
      exact Mem.store64_apply_of_disjoint (.inl hlt)
    rcases Nat.lt_or_ge x (a + 8) with hin | hout
    · exact (Mem.load_inj h x (by omega) (by omega)).symm
    · rw [put_status_eq ha]
      exact Mem.store64_apply_of_disjoint (.inr hout)

/-! ## The tests -/

/-- A test ends the wait for the child it finds, or else sleeps or returns -1. -/
inductive Tested (s : Sys) : Option ℕ → Sys → Prop where
  | reap (pos : ℕ) (w : Bool) (hz : (s.proc pos).state = TASK_ZOMBIE) :
      Tested s (some pos) (s.reap pos w)
  | sleep (cont : Cont) : Tested s none (s.yield cont)
  | fail : Tested s none (s.ret (-1))

theorem tested_wait_any : Tested s (dead_child s (.wait_any w)) (s.wait_any w) := by
  show Tested s ((s.proc s.cur).children.find? fun pos => (s.proc pos).state == TASK_ZOMBIE) _
  unfold Sys.wait_any
  cases hfind : (s.proc s.cur).children.find? fun pos => (s.proc pos).state == TASK_ZOMBIE with
  | some pos => exact .reap pos w (by simpa using List.find?_some hfind)
  | none =>
    dsimp only
    split
    · exact .sleep _
    · exact .fail

theorem tested_wait_pid {n : ℤ} : Tested s (dead_child s (.wait_pid pos n w)) (s.wait_pid pos n w) := by
  unfold dead_child Sys.wait_pid
  dsimp only
  split_ifs with hz
  · exact .reap pos w hz
  · exact .sleep _

theorem found_wait4 {pid : BitVec 64} : found s (.wait4 pid w) =
    if pid = -1 then dead_child s (.wait_any w)
    else (s.table.proc_find (pid.setWidth 32).toInt).bind fun pos =>
      if (s.proc pos).parent ≠ some s.cur then none
      else dead_child s (.wait_pid pos (pid.setWidth 32).toInt w) := rfl

theorem found_resume : found s .resume = dead_child s (s.context s.cur).cont := rfl

theorem tested_of_step (he : e.Waits) (h : Sched.step s e = some s') :
    s.running = true ∧ Tested s (found s e) s' := by
  cases e with
  | wait4 pid w =>
    rw [Sched.step] at h
    split_ifs at h with huser
    refine ⟨huser.1, ?_⟩
    unfold Sys.sys_wait4 at h
    rw [found_wait4]
    split_ifs at h ⊢ with hany
    · exact Option.some.inj h ▸ tested_wait_any
    · obtain ⟨pos, hfind, rfl⟩ := Option.map_eq_some_iff.mp h
      rw [hfind, Option.bind_some]
      split_ifs
      · exact .fail
      · exact tested_wait_pid
  | resume =>
    rw [Sched.step] at h
    split_ifs at h with hrun
    refine ⟨hrun, ?_⟩
    rw [found_resume]
    split at h
    · cases h
    · next w hcont =>
      rw [hcont]
      exact Option.some.inj h ▸ tested_wait_any
    · next pos n w hcont =>
      rw [hcont]
      exact Option.some.inj h ▸ tested_wait_pid
  | sched => exact he.elim
  | timer => exact he.elim
  | insn => exact he.elim
  | fork => exact he.elim
  | execve found => exact he.elim
  | exit code => exact he.elim

/-! ## What waits keeps its memory -/

/-- Only the current task goes to sleep in `sys_wait4`, and a new task does not. -/
theorem context_sched (h : Sched.step s .sched = some s') : s'.context = s.context := by
  rw [Sched.step] at h
  split_ifs at h
  unfold Sys.scheduler at h
  split_ifs at h <;> exact Option.some.inj h ▸ rfl

theorem context_fork {np : ℕ} {t : Table} (hslot : s.table.proc_alloc = some (np, t))
    (h : s.sys_clone = some s') (hcont : (s'.context i).cont ≠ .user) :
    i ≠ np ∧ i ≠ s.cur ∧ s'.context i = s.context i := by
  obtain ⟨r, hfork, rfl⟩ := Option.map_eq_some_iff.mp h
  rw [Table.fork, hslot, Option.map_some] at hfork
  obtain rfl := Option.some.inj hfork
  rw [context_ret] at hcont ⊢
  dsimp only at hcont ⊢
  -- the parent and the child both go on in their program
  rcases eq_or_ne i s.cur with rfl | hcur
  · simp at hcont
  rcases eq_or_ne i np with rfl | hnp
  · simp [hcur, Context.start] at hcont
  · rw [if_neg hcur, Function.update_of_ne hnp]
    exact ⟨hnp, hcur, rfl⟩

theorem context_execve {np : ℕ} {t : Table} (hslot : s.table.proc_alloc = some (np, t))
    {ok : Bool} (h : s.sys_execve ok = some s') (hcont : (s'.context i).cont ≠ .user) :
    (ok = true → i ≠ np) ∧ i ≠ s.cur ∧ s'.context i = s.context i := by
  obtain ⟨⟨ret, r, t'⟩, hexec, rfl⟩ := Option.map_eq_some_iff.mp h
  cases ok with
  | false =>
    obtain ⟨-, rfl, -⟩ := execve_false hexec
    dsimp only at hcont ⊢
    rw [context_ret] at hcont ⊢
    rcases eq_or_ne i s.cur with rfl | hcur
    · simp at hcont
    · rw [if_neg hcur]
      exact ⟨fun h => (nomatch h), hcur, rfl⟩
  | true =>
    have hnp : r = some np := by
      obtain ⟨⟨r', t₂⟩, hexec', h⟩ := Option.bind_eq_some_iff.mp hexec
      rw [Table.exec, hslot] at hexec'
      obtain ⟨rfl, rfl⟩ := Prod.mk.inj (Option.some.inj hexec')
      obtain ⟨t₃, -, hr⟩ := Option.map_eq_some_iff.mp h
      exact (Prod.mk.inj (Prod.mk.inj hr).2).1.symm
    subst hnp
    dsimp only at hcont ⊢
    rw [context_ret] at hcont ⊢
    dsimp only at hcont ⊢
    rcases eq_or_ne i s.cur with rfl | hcur
    · simp at hcont
    rcases eq_or_ne i np with rfl | hnp
    · simp [hcur, Context.start] at hcont
    · rw [if_neg hcur, Function.update_of_ne hnp]
      exact ⟨fun _ => hnp, hcur, rfl⟩

/-- The memories that a test changes. -/
theorem report_of_ne {r : Option ℕ} (h : i ≠ m.sys.cur) : m.report a r i = m.mem i := by
  cases r with
  | none => rfl
  | some pos => exact Function.update_of_ne h ..

theorem new_task_of_ne {image : Mem} {np : ℕ} {t : Table}
    (hslot : m.sys.table.proc_alloc = some (np, t)) (h : i ≠ np) : m.new_task image i = m.mem i := by
  rw [Machine.new_task, hslot]
  exact Function.update_of_ne h ..

/-- `fork` and `execve` have a slot for the new task. -/
theorem slot_of_fork (h : s.sys_clone = some s') : ∃ np t, s.table.proc_alloc = some (np, t) := by
  obtain ⟨r, hfork, -⟩ := Option.map_eq_some_iff.mp h
  obtain ⟨⟨np, t⟩, hslot, -⟩ := Option.map_eq_some_iff.mp hfork
  exact ⟨np, t, hslot⟩

theorem slot_of_execve {ok : Bool} (h : s.sys_execve ok = some s') :
    ∃ np t, s.table.proc_alloc = some (np, t) := by
  obtain ⟨r, hexec, -⟩ := Option.map_eq_some_iff.mp h
  obtain ⟨r', hexec, -⟩ := Option.bind_eq_some_iff.mp hexec
  obtain ⟨⟨np, t⟩, hslot, -⟩ := Option.map_eq_some_iff.mp hexec
  exact ⟨np, t, hslot⟩

/-- After a test the current task is in its program, or its memory is as it was. -/
theorem Tested.quiet {r : Option ℕ} (h : Tested m.sys r s')
    (hcont : (s'.context i).cont ≠ .user) :
    m.report a r i = m.mem i ∧ (i ≠ m.sys.cur → s'.context i = m.sys.context i) := by
  cases h with
  | reap pos w hz =>
    have hcur : i ≠ m.sys.cur := by
      rintro rfl
      rw [context_reap, if_pos rfl] at hcont
      exact hcont rfl
    refine ⟨report_of_ne hcur, fun _ => ?_⟩
    rw [context_reap, if_neg hcur]
  | sleep cont =>
    refine ⟨rfl, fun hcur => ?_⟩
    rw [context_yield, if_neg hcur]
  | fail =>
    refine ⟨rfl, fun hcur => ?_⟩
    rw [context_ret, if_neg hcur]

/-- Whoever does not run keeps its memory while the current task goes on. -/
theorem Machine.Quiet.other (hq : m.Quiet) {x : Context} (hx : x.cont = .user)
    (hcont : (if i = m.sys.cur then x else m.sys.context i).cont ≠ .user) :
    m.mem i = m.before i := by
  rcases eq_or_ne i m.sys.cur with rfl | hcur
  · rw [if_pos rfl] at hcont
    exact absurd hx hcont
  · rw [if_neg hcur] at hcont
    exact hq i hcont

theorem Machine.Quiet.of_step (hq : m.Quiet) (h : step m c = some m') : m'.Quiet := by
  obtain ⟨s', hs, rfl⟩ := Option.map_eq_some_iff.mp h
  intro i hcont
  -- a task that sleeps is not the one that runs a program
  cases c with
  | sched =>
    change (s'.context i).cont ≠ .user at hcont
    rw [context_sched hs] at hcont
    exact hq i hcont
  | timer =>
    change Sched.step m.sys .timer = some s' at hs
    rw [Sched.step] at hs
    split_ifs at hs
    obtain rfl := Option.some.inj hs
    change ((m.sys.yield .user).context i).cont ≠ .user at hcont
    rw [context_yield] at hcont
    exact hq.other rfl hcont
  | insn mem =>
    -- only the memory of the task that runs is changed
    change Sched.step m.sys .insn = some s' at hs
    rw [Sched.step] at hs
    split_ifs at hs with huser
    obtain rfl := Option.some.inj hs
    have hcur : i ≠ m.sys.cur := by
      rintro rfl
      exact hcont huser.2
    exact (Function.update_of_ne hcur ..).trans (hq i hcont)
  | fork =>
    change Sched.step m.sys .fork = some s' at hs
    rw [Sched.step] at hs
    split_ifs at hs
    obtain ⟨np, t, hslot⟩ := slot_of_fork hs
    obtain ⟨hnp, -, hctx⟩ := context_fork hslot hs hcont
    change (s'.context i).cont ≠ .user at hcont
    rw [hctx] at hcont
    exact (new_task_of_ne hslot hnp).trans (hq i hcont)
  | execve image =>
    change Sched.step m.sys (.execve image.isSome) = some s' at hs
    rw [Sched.step] at hs
    split_ifs at hs
    obtain ⟨np, t, hslot⟩ := slot_of_execve hs
    cases image with
    | none =>
      obtain ⟨-, -, hctx⟩ := context_execve hslot hs hcont
      change (s'.context i).cont ≠ .user at hcont
      rw [hctx] at hcont
      exact hq i hcont
    | some image =>
      obtain ⟨hnp, -, hctx⟩ := context_execve hslot hs hcont
      change (s'.context i).cont ≠ .user at hcont
      rw [hctx] at hcont
      exact (new_task_of_ne hslot (hnp rfl)).trans (hq i hcont)
  | exit code =>
    change Sched.step m.sys (.exit code) = some s' at hs
    rw [Sched.step] at hs
    split_ifs at hs
    obtain rfl := Option.some.inj hs
    change ((m.sys.sys_exit code).context i).cont ≠ .user at hcont
    rw [context_exit] at hcont
    exact hq.other rfl hcont
  | wait4 pid wstatus =>
    have he : (Call.wait4 pid wstatus).event.Waits := trivial
    obtain ⟨hmem, hold⟩ := (tested_of_step he hs).2.quiet (a := wstatus.toNat) hcont
    refine hmem.trans ?_
    show m.mem i = Function.update m.before m.sys.cur (m.mem m.sys.cur) i
    rcases eq_or_ne i m.sys.cur with rfl | hcur
    · rw [Function.update_self]
    · change (s'.context i).cont ≠ .user at hcont
      rw [hold hcur] at hcont
      rw [Function.update_of_ne hcur, hq i hcont]
  | resume =>
    have he : Call.resume.event.Waits := trivial
    obtain ⟨hmem, hold⟩ := (tested_of_step he hs).2.quiet (a := m.wstatus m.sys.cur) hcont
    refine hmem.trans (hq i ?_)
    rcases eq_or_ne i m.sys.cur with rfl | hcur
    · -- the call is taken up again in its loop
      intro huser
      change Sched.step m.sys .resume = some s' at hs
      rw [Sched.step, huser] at hs
      split_ifs at hs
    · rwa [← hold hcur]

/-! ## Main result -/

theorem waits_of_found {e : Event} (h : found s e = some pos) : e.Waits := by
  cases e with
  | wait4 => trivial
  | resume => trivial
  | sched => cases h
  | timer => cases h
  | insn => cases h
  | fork => cases h
  | execve => cases h
  | exit => cases h

/-- The memory of the caller after a call that has found `pos`, and the one it began with. -/
theorem mem_of_found (hq : m.Quiet) (h : step m c = some m')
    (hfound : found m.sys c.event = some pos) :
    m'.mem m.sys.cur =
        put_status (m.mem m.sys.cur) (m.address c) (m.sys.proc pos).exit_code ∧
      m'.before m.sys.cur = m.mem m.sys.cur := by
  obtain ⟨s', hs, rfl⟩ := Option.map_eq_some_iff.mp h
  cases c with
  | wait4 pid wstatus =>
    dsimp only
    rw [hfound]
    exact ⟨Function.update_self .., Function.update_self ..⟩
  | resume =>
    dsimp only
    rw [hfound]
    refine ⟨Function.update_self .., (hq _ ?_).symm⟩
    intro huser
    change Sched.step m.sys .resume = some s' at hs
    rw [Sched.step, huser] at hs
    split_ifs at hs
  | sched => cases hfound
  | timer => cases hfound
  | insn mem => cases hfound
  | fork => cases hfound
  | execve image => cases hfound
  | exit code => cases hfound

theorem step_sys (h : step m c = some m') : Sched.step m.sys c.event = some m'.sys := by
  obtain ⟨s', hs, rfl⟩ := Option.map_eq_some_iff.mp h
  rw [hs]
  cases c with
  | execve image => cases image <;> rfl
  | _ => rfl

/-- A call that finds a dead child does everything right but for the bytes behind the
status. -/
theorem reported_found_iff (hq : m.Quiet) (h : step m c = some m')
    (hfound : found m.sys c.event = some pos) (ha : m.address c ≠ 0) :
    Reported m m' pos (m.address c) ↔
      SignBehind (m.mem m.sys.cur) (m.address c) (m.sys.proc pos).exit_code := by
  obtain ⟨hmem, hbefore⟩ := mem_of_found hq h hfound
  obtain ⟨hrun, ht⟩ := tested_of_step (waits_of_found hfound) (step_sys h)
  rw [← put_status_frame_iff ha, ← hmem, ← hbefore]
  refine ⟨Reported.frame, fun hframe => ?_⟩
  obtain ⟨hexited, hstatus⟩ := load_put_status (m.mem m.sys.cur) (m.sys.proc pos).exit_code ha
  rw [← hmem] at hexited hstatus
  rw [hfound] at ht
  -- a test that finds a child reaps it
  have hsys : (m.sys.proc pos).state = TASK_ZOMBIE ∧ ∃ w, m'.sys = m.sys.reap pos w := by
    generalize m'.sys = s' at ht
    cases ht with
    | reap _ w hz => exact ⟨hz, w, rfl⟩
  obtain ⟨hz, w, hsys⟩ := hsys
  refine ⟨hz, ?_, fun j hj => ?_, ⟨?_, ?_, ?_⟩, hexited, hstatus, hframe⟩
  · rw [hsys, state_reap, if_pos rfl]
  · rw [hsys, state_reap, if_neg hj]
  · rw [hsys]
    exact hrun
  · rw [hsys, context_reap, if_pos rfl]
  · rw [hsys, context_reap, if_pos rfl]

/-- A call that returns a pid has found a child. -/
theorem returns_found (h : step m c = some m') (he : c.event.Waits)
    (hrun : m'.sys.running = true) (ha0 : (m'.sys.context m.sys.cur).a0 ≠ -1) :
    ∃ pos, found m.sys c.event = some pos := by
  have ht := (tested_of_step he (step_sys h)).2
  generalize m'.sys = s' at ht hrun ha0
  generalize found m.sys c.event = r at ht
  cases ht with
  | reap pos w hz => exact ⟨pos, rfl⟩
  | sleep cont => cases hrun
  | fail =>
    -- -1 is no pid
    rw [context_ret, if_pos rfl] at ha0
    exact absurd rfl ha0

theorem statusRight_iff (hq : m.Quiet) : StatusRight m c ↔ StatusFits m c := by
  constructor
  · intro hr hsome pos hfound ha
    obtain ⟨m', h⟩ := Option.isSome_iff_exists.mp hsome
    exact (reported_found_iff hq h hfound ha).mp (hr.report m' pos h hfound ha)
  · intro hfits
    refine ⟨?_, ?_⟩
    · intro m' h he hrun _ ha0
      exact returns_found h he hrun ha0
    · intro m' pos h hfound ha
      exact (reported_found_iff hq h hfound ha).mpr (hfits (by rw [h]; rfl) pos hfound ha)

/-- **`sys_wait4` reports the status and changes nothing else in exactly the runs** in which the
bytes behind the variable hold the sign of the shifted code when a call ends. -/
theorem status_right_iff (hq : m.Quiet) (cs : List Call) :
    Meets step StatusRight m cs ↔ Meets step StatusFits m cs := by
  refine meets_congr Machine.Quiet ?_ ?_ hq
  · intro m c m' hq _ h
    exact hq.of_step h
  · intro m c hq
    exact statusRight_iff hq

theorem boot_quiet (byte : UInt8) : (boot byte).Quiet := fun _ h => absurd rfl h

/-- A child is made and exits with the code -2, while its parent waits for it. -/
def wait_for_child : List Call :=
  [.sched, .sched, .fork, .wait4 (-1) 0x1000, .sched, .exit (-2)] ++ List.replicate 64 .sched

/-- The code is negative, and the memory behind the variable is full of ones. -/
theorem status_right_negative :
    Meets step StatusRight (boot 0xff) (wait_for_child ++ [.resume]) :=
  (status_right_iff (boot_quiet 0xff) _).mpr (by decide +kernel)

/-- **Four bytes behind the status are lost.** The child's code is -2 and the bytes behind
the variable are 0. -/
theorem status_overruns : ¬ Meets step StatusRight (boot 0) (wait_for_child ++ [.resume]) := by
  intro h
  have heval : ((run step (boot 0) wait_for_child).bind fun m =>
      (step m .resume).map fun m' => (found m.sys Call.resume.event, m.address .resume,
        m'.mem m.sys.cur 0x1004, m'.before m.sys.cur 0x1004)) = some (some 2, 0x1000, 0xff, 0) := by
    decide +kernel
  obtain ⟨m, hm, heval⟩ := Option.bind_eq_some_iff.mp heval
  obtain ⟨m', hm', heval⟩ := Option.map_eq_some_iff.mp heval
  obtain ⟨hfound, heval⟩ := Prod.mk.inj heval
  obtain ⟨ha, heval⟩ := Prod.mk.inj heval
  obtain ⟨hmem, hbefore⟩ := Prod.mk.inj heval
  have hright := meets_iff.mp h wait_for_child .resume [] m rfl hm
  have hframe := (hright.report m' 2 hm' hfound (by rw [ha]; decide)).frame 0x1004
    (.inr (by rw [ha]))
  rw [hmem, hbefore] at hframe
  exact absurd hframe (by decide)

end Loos.WaitStatus
