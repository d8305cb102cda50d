/-
The descriptors of a parent and its child.

`fork` lets the child's `fdtable` point to the table of the parent. So whatever one
of the two does to an entry it does to the other's: they are isolated only as long
as no call changes an entry or frees a slot, whoever makes it.
-/
import Loos.FileCalls
import Loos.Lib.Runs

set_option autoImplicit false

namespace Loos.ForkFiles

open SysLib Ext2Fs FileCalls

variable {Inode : Type*}

/-- The slots, the tables by their addresses, and the pointer of each task. -/
structure Sys (Inode : Type*) where
  fds : ℕ → ext2_file Inode
  tables : ℕ → ℕ → fdtable
  fdtable : ℕ → ℕ

namespace Sys

variable (s : Sys Inode)

/-- The descriptors as the task `p` sees them. -/
def files (p : ℕ) : Files Inode := ⟨s.fds, s.tables (s.fdtable p)⟩

/-- `fork`: `proc_alloc` makes a table at `t` for the child `np`, which then gets the
one of its parent. -/
def fork (p np t : ℕ) : Sys Inode :=
  let s' : Sys Inode :=
    { s with
      tables := Function.update s.tables t fdtable_alloc
      fdtable := Function.update s.fdtable np t }
  { s' with fdtable := Function.update s'.fdtable np (s'.fdtable p) }

end Sys

/-- A call by the task `e.1`; `none` is a `panic`. -/
def step (s : Sys Inode) (e : ℕ × Call Inode) : Option (Sys Inode) :=
  (e.2.perform (s.files e.1)).map fun r =>
    { s with fds := r.2.fds, tables := Function.update s.tables (s.fdtable e.1) r.2.table }

/-- The descriptors of a task that makes no call: each is bound as it was, and its
slot stays allocated. -/
structure Kept (f g : Files Inode) : Prop where
  entry : ∀ fd, g.table fd = f.table fd
  slot : ∀ fd, (f.table fd).busy ≠ 0 → (f.fds (f.table fd).fds_index).alloc = 1 →
    (g.fds (f.table fd).fds_index).alloc = 1

/-- In the run `es` every call of one of the tasks `p` and `np` keeps the descriptors of
the other. -/
def Isolated (p np : ℕ) (s : Sys Inode) (es : List (ℕ × Call Inode)) : Prop :=
  ∀ es₁ e es₂ s₁ s₂, es = es₁ ++ e :: es₂ → run step s es₁ = some s₁ → step s₁ e = some s₂ →
    ∀ r, r = p ∨ r = np → r ≠ e.1 → Kept (s₁.files r) (s₂.files r)

/-- The call changes no entry, and closes no descriptor whose slot has a count of 1. -/
def Quiet (s : Sys Inode) (e : ℕ × Call Inode) : Prop :=
  ¬ e.2.Changes (s.files e.1) ∧ ¬ e.2.Frees (s.files e.1)

instance (s : Sys Inode) (e : ℕ × Call Inode) : Decidable (Quiet s e) :=
  inferInstanceAs (Decidable (_ ∧ _))

variable {s s' : Sys Inode} {e : ℕ × Call Inode} {es : List (ℕ × Call Inode)} {p np q r t : ℕ}

/-! ## One call -/

theorem step_fdtable (h : step s e = some s') : s'.fdtable = s.fdtable := by
  obtain ⟨r, -, rfl⟩ := Option.map_eq_some_iff.mp h
  rfl

/-- What a task with the same table sees of a call. -/
theorem step_files (h : step s e = some s') (hr : s.fdtable r = s.fdtable e.1) :
    ∃ ret, e.2.perform (s.files r) = some (ret, s'.files r) := by
  obtain ⟨⟨ret, g⟩, hg, rfl⟩ := Option.map_eq_some_iff.mp h
  refine ⟨ret, ?_⟩
  have hsame : s.files r = s.files e.1 := by rw [Sys.files, hr, Sys.files]
  rw [hsame, hg]
  simp [Sys.files, hr]

/-- The other task's descriptors are kept exactly in a quiet call. -/
theorem kept_iff (h : step s e = some s') (hr : s.fdtable r = s.fdtable e.1) :
    Kept (s.files r) (s'.files r) ↔ Quiet s e := by
  obtain ⟨ret, hp⟩ := step_files h hr
  have hsame : s.files e.1 = s.files r := by rw [Sys.files, ← hr, Sys.files]
  rw [Quiet, hsame]
  constructor
  · intro hk
    refine ⟨(perform_table hp).mp (funext hk.entry), ?_⟩
    -- freeing the slot of a busy descriptor would break it
    intro hf
    obtain ⟨k, hbusy, hone, hzero, -⟩ := perform_frees hp hf
    have := hk.slot k hbusy hone
    rw [hzero] at this
    exact absurd this (by decide)
  · rintro ⟨hc, hf⟩
    have htab := (perform_table hp).mpr hc
    -- an `open` would have entered a descriptor
    have hopens : ¬ e.2.Opens (s.files r) := by
      intro ho
      refine hc ?_
      cases he : e.2 with
      | «open» found flags => rwa [he] at ho
      | dup oldfd => rw [he] at ho; exact ho.elim
      | dup3 oldfd newfd flags => rw [he] at ho; exact ho.elim
      | fcntl fd cmd arg => rw [he] at ho; exact ho.elim
      | close fd => rw [he] at ho; exact ho.elim
    refine ⟨fun fd => congrFun htab fd, ?_⟩
    intro fd _ hone
    rw [perform_sameAlloc hp hopens hf, hone]

/-! ## After `fork` -/

/-- The child has the table of its parent. -/
theorem fork_fdtable (hne : p ≠ np) : (s.fork p np t).fdtable np = (s.fork p np t).fdtable p := by
  simp [Sys.fork, hne]

theorem run_fdtable (h : run step s es = some s') : s'.fdtable = s.fdtable := by
  induction es generalizing s with
  | nil =>
    obtain rfl : s = s' := by simpa using h
    rfl
  | cons e es ih =>
    obtain ⟨s₁, h₁, h₂⟩ := run_cons_eq_some.mp h
    exact (ih h₂).trans (step_fdtable h₁)

/-- **Parent and child are isolated exactly in the runs of quiet calls.** -/
theorem fork_isolated_iff (s : Sys Inode) (hne : p ≠ np) (hes : ∀ e ∈ es, e.1 = p ∨ e.1 = np)
    (hrun : run step (s.fork p np t) es = some s') :
    Isolated p np (s.fork p np t) es ↔ Meets step Quiet (s.fork p np t) es := by
  have hshared : ∀ es₁ s₁ e r, run step (s.fork p np t) es₁ = some s₁ → e ∈ es → r = p ∨ r = np →
      s₁.fdtable r = s₁.fdtable e.1 := by
    intro es₁ s₁ e r h₁ he hr
    have hnp : s₁.fdtable np = s₁.fdtable p := by
      rw [run_fdtable h₁]
      exact fork_fdtable hne
    rcases hr with rfl | rfl <;> rcases hes e he with hq | hq <;> simp [hq, hnp]
  rw [meets_iff]
  constructor
  · intro hiso es₁ e es₂ s₁ he h₁
    obtain ⟨s₁', h₁', h₂⟩ := run_append_eq_some.mp (he ▸ hrun)
    obtain rfl : s₁ = s₁' := Option.some.inj (h₁.symm.trans h₁')
    obtain ⟨s₂, hstep, -⟩ := run_cons_eq_some.mp h₂
    have hmem : e ∈ es := by simp [he]
    -- one of the two does not make the call
    obtain ⟨r, hr, hother⟩ : ∃ r, (r = p ∨ r = np) ∧ r ≠ e.1 := by
      rcases hes e hmem with hq | hq
      · exact ⟨np, .inr rfl, by rw [hq]; exact hne.symm⟩
      · exact ⟨p, .inl rfl, by rw [hq]; exact hne⟩
    exact (kept_iff hstep (hshared es₁ s₁ e r h₁ hmem hr)).mp
      (hiso es₁ e es₂ s₁ s₂ he h₁ hstep r hr hother)
  · intro hquiet es₁ e es₂ s₁ s₂ he h₁ hstep r hr _
    have hmem : e ∈ es := by simp [he]
    exact (kept_iff hstep (hshared es₁ s₁ e r h₁ hmem hr)).mpr (hquiet es₁ e es₂ s₁ he h₁)

/-- After `fs_init`; the table of the first task is at the address 1. -/
def boot : Sys Inode := ⟨fs_init, fun _ => fdtable_alloc, fun _ => 1⟩

/-- Calls that fail, a command without effect, and a descriptor copied to itself. -/
def quietCalls : List (ℕ × Call Unit) :=
  [(1, .open none 0), (2, .fcntl 1 F_SETFD 1), (1, .dup3 1 1 0), (2, .close 7)]

theorem fork_isolated_quiet : Isolated 1 2 ((boot : Sys Unit).fork 1 2 4) quietCalls := by
  have heval : (run step ((boot : Sys Unit).fork 1 2 4) quietCalls).isSome := by decide +kernel
  obtain ⟨s, hs⟩ := Option.isSome_iff_exists.mp heval
  exact (fork_isolated_iff boot (by decide) (by decide) hs).mpr (by decide +kernel)

/-- **The child closes the parent's descriptor.** -/
theorem fork_child_closes : ∃ s, step ((boot : Sys Unit).fork 1 2 4) (2, .close 1) = some s ∧
    ((((boot : Sys Unit).fork 1 2 4).files 1).table 1).busy = 1 ∧ ((s.files 1).table 1).busy = 0 ∧
      ¬ Isolated 1 2 ((boot : Sys Unit).fork 1 2 4) [(2, .close 1)] := by
  have heval : (step ((boot : Sys Unit).fork 1 2 4) (2, .close 1)).map
      (fun s => ((((boot : Sys Unit).fork 1 2 4).files 1).table 1).busy == 1 &&
        ((s.files 1).table 1).busy == 0) = some true := by decide +kernel
  obtain ⟨s, hs, he⟩ := Option.map_eq_some_iff.mp heval
  simp only [Bool.and_eq_true, beq_iff_eq] at he
  refine ⟨s, hs, he.1, he.2, ?_⟩
  intro hiso
  have hk := (hiso [] (2, .close 1) [] _ s rfl rfl hs 1 (.inl rfl) (by decide)).entry 1
  have := congrArg fdtable.busy hk
  rw [he.1, he.2] at this
  exact absurd this (by decide)

end Loos.ForkFiles
