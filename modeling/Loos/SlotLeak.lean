/-
Slots of `fds` and free pages over whole runs.

`open` leaves the count of its slot at 0, and `close` frees a slot only when the
count comes down to 0 from 1, so a file that is opened and closed keeps its slot.
The page of the copy of its inode is never given to `kfree` at all. A slot comes
free only when a duplicate is closed; then it is taken from under the descriptor
that was duplicated.

So a run of calls leaves the slots and the number of free pages alone in one case
only: no `open` in it succeeds, and nothing is freed ([`no_leak_iff`]). The tables are
known by the addresses of their pages, and there may be any number of processes.
-/
import Loos.FileCalls
import Loos.Lib.Runs

set_option autoImplicit false

namespace Loos.SlotLeak

open SysLib Ext2Fs FileCalls

variable {Inode : Type*}

/-- The slots, the tables by their addresses, and the free pages. -/
structure Sys (Inode : Type*) where
  fds : ℕ → ext2_file Inode
  tables : ℕ → ℕ → fdtable
  pages : List ℕ

/-- The descriptors of a process whose table is at `t`. -/
def Sys.files (s : Sys Inode) (t : ℕ) : Files Inode := ⟨s.fds, s.tables t⟩

/-- A call by the process whose table is at `e.1`. An `open` that succeeds takes a
page for `f_inode`; `none` is a `panic`. -/
def step (s : Sys Inode) (e : ℕ × Call Inode) : Option (Sys Inode) :=
  (e.2.perform (s.files e.1)).bind fun r =>
    let s' : Sys Inode :=
      { s with fds := r.2.fds, tables := Function.update s.tables e.1 r.2.table }
    if e.2.Opens (s.files e.1) then
      match s.pages with
      | [] => none
      | _ :: pages => some { s' with pages := pages }
    else some s'

/-- The slots with `alloc = 1`, and the number of free pages, are the same. -/
structure NoLeak (s s' : Sys Inode) : Prop where
  slots : ∀ i, (s'.fds i).alloc = 1 ↔ (s.fds i).alloc = 1
  pages : s'.pages.length = s.pages.length

/-- The call is no `open` that succeeds. -/
def OpensNone (s : Sys Inode) (e : ℕ × Call Inode) : Prop := ¬ e.2.Opens (s.files e.1)

/-- The call is no `open` that succeeds, and closes no descriptor whose slot has a
count of 1. -/
def Harmless (s : Sys Inode) (e : ℕ × Call Inode) : Prop :=
  ¬ e.2.Opens (s.files e.1) ∧ ¬ e.2.Frees (s.files e.1)

instance (s : Sys Inode) (e : ℕ × Call Inode) : Decidable (Harmless s e) :=
  inferInstanceAs (Decidable (_ ∧ _))

variable {s s' : Sys Inode} {e : ℕ × Call Inode} {es : List (ℕ × Call Inode)} {i : ℕ}

/-! ## One call -/

/-- The slots after a call, and the pages, of which an `open` takes one. -/
theorem step_spec (h : step s e = some s') :
    ∃ r, e.2.perform (s.files e.1) = some r ∧ s'.fds = r.2.fds ∧
      (e.2.Opens (s.files e.1) → s'.pages.length + 1 = s.pages.length) ∧
      (¬ e.2.Opens (s.files e.1) → s'.pages = s.pages) := by
  obtain ⟨r, hr, h⟩ := Option.bind_eq_some_iff.mp h
  refine ⟨r, hr, ?_⟩
  dsimp only at h
  split_ifs at h with ho
  · cases hp : s.pages with
    | nil =>
      rw [hp] at h
      cases h
    | cons p pages =>
      rw [hp] at h
      obtain rfl := Option.some.inj h
      exact ⟨rfl, fun _ => rfl, fun hn => absurd ho hn⟩
  · obtain rfl := Option.some.inj h
    exact ⟨rfl, fun hy => absurd hy ho, fun _ => rfl⟩

theorem step_pages_le (h : step s e = some s') : s'.pages.length ≤ s.pages.length := by
  obtain ⟨r, -, -, hopen, hsame⟩ := step_spec h
  by_cases ho : e.2.Opens (s.files e.1)
  · have := hopen ho
    omega
  · have := congrArg List.length (hsame ho)
    omega

/-- A call that takes no slot makes none allocated. -/
theorem step_subset (h : step s e = some s') (ho : OpensNone s e) (hi : (s'.fds i).alloc = 1) :
    (s.fds i).alloc = 1 := by
  obtain ⟨r, hr, hfds, -⟩ := step_spec h
  rw [hfds] at hi
  exact alloc_of_not_opens hr ho hi

theorem step_harmless (h : step s e = some s') (he : Harmless s e) : NoLeak s s' := by
  obtain ⟨r, hr, hfds, -, hsame⟩ := step_spec h
  refine ⟨?_, congrArg List.length (hsame he.1)⟩
  intro i
  have := perform_sameAlloc hr he.1 he.2 i
  rw [hfds, this]
  exact Iff.rfl

/-! ## Runs -/

theorem NoLeak.trans {s₁ : Sys Inode} (h : NoLeak s s₁) (h' : NoLeak s₁ s') : NoLeak s s' :=
  ⟨fun i => (h'.slots i).trans (h.slots i), h'.pages.trans h.pages⟩

theorem run_pages_le (h : run step s es = some s') : s'.pages.length ≤ s.pages.length := by
  induction es generalizing s with
  | nil =>
    obtain rfl : s = s' := by simpa using h
    exact Nat.le_refl _
  | cons e es ih =>
    obtain ⟨s₁, h₁, h₂⟩ := run_cons_eq_some.mp h
    exact Nat.le_trans (ih h₂) (step_pages_le h₁)

/-- Pages do not come back, so if none is missing no `open` has succeeded. -/
theorem run_opensNone (h : run step s es = some s') (hp : s'.pages.length = s.pages.length) :
    Meets step OpensNone s es := by
  induction es generalizing s with
  | nil => trivial
  | cons e es ih =>
    obtain ⟨s₁, h₁, h₂⟩ := run_cons_eq_some.mp h
    have hle := run_pages_le h₂
    refine ⟨?_, ?_⟩
    · intro ho
      obtain ⟨r, -, -, hopen, -⟩ := step_spec h₁
      have := hopen ho
      omega
    · intro s₂ h₂'
      obtain rfl : s₁ = s₂ := Option.some.inj (h₁.symm.trans h₂')
      have := step_pages_le h₁
      exact ih h₂ (by omega)

theorem run_subset (h : run step s es = some s') (hok : Meets step OpensNone s es)
    (hi : (s'.fds i).alloc = 1) : (s.fds i).alloc = 1 :=
  run_invariant _ (fun s₁ => (s₁.fds i).alloc = 1 → (s.fds i).alloc = 1)
    (fun _ _ _ hs ho h hi => hs (step_subset h ho hi)) id hok h hi

/-- **Slots and pages are the same after a run exactly when every call of it is
harmless.** -/
theorem no_leak_iff (hrun : run step s es = some s') :
    NoLeak s s' ↔ Meets step Harmless s es := by
  constructor
  · intro hleak
    have hopens := run_opensNone hrun hleak.pages
    have hslots := hleak.slots
    clear hleak
    induction es generalizing s with
    | nil => trivial
    | cons e es ih =>
      obtain ⟨s₁, h₁, h₂⟩ := run_cons_eq_some.mp hrun
      have hopens' := hopens.2 s₁ h₁
      refine ⟨⟨hopens.1, ?_⟩, ?_⟩
      · -- a slot that is freed is not allocated again
        intro hf
        obtain ⟨r, hr, hfds, -⟩ := step_spec h₁
        obtain ⟨k, -, hone, hzero, -⟩ := perform_frees hr hf
        have hend := (hslots _).mpr hone
        have hmid := run_subset h₂ hopens' hend
        rw [hfds, hzero] at hmid
        exact absurd hmid (by decide)
      · intro s₂ h₂'
        obtain rfl : s₁ = s₂ := Option.some.inj (h₁.symm.trans h₂')
        refine ih h₂ hopens' fun i => ⟨run_subset h₂ hopens', ?_⟩
        intro hi
        exact (hslots i).mpr (step_subset h₁ hopens.1 hi)
  · intro hok
    exact run_invariant Harmless (NoLeak s) (fun _ _ _ hs he h => hs.trans (step_harmless h he))
      ⟨fun _ => Iff.rfl, rfl⟩ hok hrun

/-- After `fs_init`, with one table at the address 1. -/
def boot (pages : List ℕ) : Sys Inode := ⟨fs_init, fun _ => fdtable_alloc, pages⟩

/-- Nothing is opened, and the console is duplicated and closed. -/
theorem no_leak_console : ∃ s, run step (boot [0] : Sys Unit)
    [(1, .open none 0), (1, .dup 1), (1, .dup 1), (1, .close 3), (1, .close 0)] = some s ∧
      NoLeak (boot [0] : Sys Unit) s := by
  have heval : (run step (boot [0] : Sys Unit)
      [(1, .open none 0), (1, .dup 1), (1, .dup 1), (1, .close 3), (1, .close 0)]).isSome := by
    decide +kernel
  obtain ⟨s, hs⟩ := Option.isSome_iff_exists.mp heval
  exact ⟨s, hs, (no_leak_iff hs).mpr (by decide +kernel)⟩

/-- **A file that is opened and closed is not given back**: its slot is still
allocated, and a page is missing. -/
theorem open_close_leaks : ∃ s, run step (boot [0] : Sys Unit)
    [(1, .open (some ()) 0), (1, .close 3)] = some s ∧ ((s.tables 1) 3).busy = 0 ∧
      (s.fds 3).alloc = 1 ∧ s.pages = [] ∧ ¬ NoLeak (boot [0] : Sys Unit) s := by
  have heval : (run step (boot [0] : Sys Unit) [(1, .open (some ()) 0), (1, .close 3)]).map
      (fun s => (((s.tables 1) 3).busy, (s.fds 3).alloc, s.pages)) = some (0, 1, []) := by
    decide +kernel
  obtain ⟨s, hs, he⟩ := Option.map_eq_some_iff.mp heval
  simp only [Prod.mk.injEq] at he
  obtain ⟨hbusy, halloc, hpages⟩ := he
  refine ⟨s, hs, hbusy, halloc, hpages, ?_⟩
  intro hleak
  have := hleak.pages
  rw [hpages] at this
  exact absurd this (by decide)

end Loos.SlotLeak
