/-
The file descriptors of `src/fs/ext2_fs.c`.

A descriptor of a process is an entry of its `fdtable`: a flag and the index of
a slot of the table `fds` that all processes share. [`Files`] is what a call
made by one process reads and writes, `fds` and the table of that process;
[`Loos.Descriptors`] puts the calls of several processes together.

What `ext2_path_lookup` finds is an argument of `open`: `none` when the path
names no inode. A `panic` is `none`, and so is an access outside a table. The
number of references is a 32-bit word.
-/
import Mathlib.Data.Int.Notation
import Mathlib.Data.List.Basic
import Mathlib.Logic.Function.Basic
import Mathlib.Tactic.Common

set_option autoImplicit false

namespace Loos.Ext2Fs

def MAX_FILES : ℕ := 256
def MAX_FDTABLE : ℕ := 256
def STDIN : ℕ := 0
def STDOUT : ℕ := 1
def STDERR : ℕ := 2
def F_DUPFD : ℤ := 0
def F_GETFD : ℤ := 1
def F_SETFD : ℤ := 2
def F_GETFL : ℤ := 3
def F_SETFL : ℤ := 4
def F_GETLK : ℤ := 5
def F_SETLK : ℤ := 6
def F_SETLKW : ℤ := 7
def O_CLOEXEC : ℕ := 0o2000000
def FD_CLOEXEC : ℕ := 1
def FILE_PIPE_FLAGS : ℕ := 0x8

/-- `struct ext2_file`; `f_inode` is the copy of the inode behind the pointer. -/
structure ext2_file (Inode : Type*) where
  f_inode : Option Inode
  f_pos : ℕ
  f_flags : ℕ
  refcount : BitVec 32
  alloc : ℤ

/-- `struct fdtable`, one entry of the table. -/
structure fdtable where
  fds_index : ℕ
  busy : ℤ
deriving DecidableEq

/-- The slots, and the entries of `my_proc()->fdtable`. -/
structure Files (Inode : Type*) where
  fds : ℕ → ext2_file Inode
  table : ℕ → fdtable

variable {Inode : Type*}

/-! ## Translation -/

/-- A slot as `memset` leaves it. -/
def ext2_file.zero : ext2_file Inode := ⟨none, 0, 0, 0, 0⟩

/-- `fs_init`: all slots are free but those of the console. -/
def fs_init : ℕ → ext2_file Inode := fun i =>
  if i = STDIN ∨ i = STDOUT ∨ i = STDERR then { ext2_file.zero with alloc := 1 }
  else ext2_file.zero

/-- The table `fdtable_alloc` returns. -/
def fdtable_alloc : ℕ → fdtable := fun i =>
  if i = STDIN then ⟨STDIN, 1⟩
  else if i = STDOUT then ⟨STDOUT, 1⟩
  else if i = STDERR then ⟨STDERR, 1⟩
  else ⟨0, 0⟩

/-- `alloc_fds`: takes the first free slot, panics when there is none. -/
def alloc_fds (fds : ℕ → ext2_file Inode) : Option (ℕ × (ℕ → ext2_file Inode)) :=
  ((List.range MAX_FILES).find? fun i => (fds i).alloc == 0).map fun i =>
    (i, Function.update fds i { fds i with alloc := 1 })

/-- `free_fds`: panics unless the slot is allocated. -/
def free_fds (fds : ℕ → ext2_file Inode) (index : ℕ) : Option (ℕ → ext2_file Inode) :=
  if (fds index).alloc ≠ 1 then none
  else some (Function.update fds index { fds index with alloc := 0 })

variable (f : Files Inode)

/-- The entry of the descriptor `fd`. -/
def Files.entry (fd : ℤ) : fdtable := f.table fd.toNat

/-- The first descriptor from `arg` on that is not in use. -/
def Files.first_unused (arg : ℤ) (bound : ℕ) : Option ℕ :=
  (List.range bound).find? fun i => arg ≤ i && (f.table i).busy == 0

/-- `fd_to_fds`, as an index: panics on a descriptor that is not busy. -/
def Files.fd_to_fds (fd : ℤ) : Option ℕ :=
  if (f.entry fd).busy = 0 then none else some (f.entry fd).fds_index

/-- `fd_invaild`. -/
def Files.fd_invaild (fd : ℤ) : Bool :=
  decide (fd < 0) || decide (fd ≥ MAX_FDTABLE) || (f.entry fd).busy == 0

/-- The entry `i` becomes busy with the slot `index`. -/
def Files.set_entry (i index : ℕ) : Files Inode :=
  { f with table := Function.update f.table i ⟨index, 1⟩ }

/-- `open`; `found` is what `ext2_path_lookup` finds under the path. -/
def Files.open (found : Option Inode) (flags : ℕ) : Option (ℤ × Files Inode) :=
  match found with
  | none => some (-1, f)
  | some inode =>
    match f.first_unused 0 MAX_FDTABLE with
    | none => some (-1, f)
    | some i => (alloc_fds f.fds).map fun a =>
      (i, { f.set_entry i a.1 with
            fds := Function.update a.2 a.1
              { a.2 a.1 with f_inode := some inode, f_pos := 0, f_flags := flags } })

/-- `openat`: the directory is not looked at. -/
def Files.openat (_dirfd : ℤ) (found : Option Inode) (flags : ℕ) : Option (ℤ × Files Inode) :=
  f.open found flags

/-- `ftf(fd)->refcount += d`. -/
def Files.add_ref (fd : ℤ) (d : BitVec 32) : Option (Files Inode) :=
  (f.fd_to_fds fd).map fun index =>
    { f with
      fds := Function.update f.fds index
        { f.fds index with refcount := (f.fds index).refcount + d } }

/-- `proc->fdtable[fd].busy = busy`. -/
def Files.set_busy (fd : ℤ) (busy : ℤ) : Files Inode :=
  { f with table := Function.update f.table fd.toNat { f.entry fd with busy := busy } }

/-- `close`: a slot goes when its count reaches 0, unless its flags say that it is a pipe. -/
def Files.close (fd : ℤ) : Option (ℤ × Files Inode) :=
  if f.fd_invaild fd then some (-1, f)
  else
    (f.add_ref fd (-1)).bind fun g =>
      (g.fd_to_fds fd).bind fun index =>
        if (g.fds index).refcount = 0 then
          if (g.fds index).f_flags &&& FILE_PIPE_FLAGS ≠ 0 then some (0, g.set_busy fd 0)
          else (free_fds g.fds (g.entry fd).fds_index).map fun fds =>
            (0, { g with fds := fds }.set_busy fd 0)
        else some (0, g.set_busy fd 0)

/-- `fcntl`; a negative `arg` of `F_DUPFD` reads in front of the table. -/
def Files.fcntl (fd cmd arg : ℤ) : Option (ℤ × Files Inode) :=
  if f.fd_invaild fd then some (-1, f)
  else if cmd = F_DUPFD then
    if arg < 0 then none
    else match f.first_unused arg MAX_FILES with
      | none => some (-1, f)
      | some i => some (i, { f with table := Function.update f.table i (f.entry fd) })
  else if cmd = F_GETFD then some ((f.entry fd).busy, f)
  else if cmd = F_SETFD then some (0, f.set_busy fd arg)
  else if cmd = F_GETFL ∨ cmd = F_SETFL ∨ cmd = F_GETLK ∨ cmd = F_SETLK ∨ cmd = F_SETLKW then
    some (0, f)
  else some (-1, f)

/-- `dup`. -/
def Files.dup (oldfd : ℤ) : Option (ℤ × Files Inode) :=
  if f.fd_invaild oldfd then none
  else match f.first_unused 0 MAX_FDTABLE with
    | none => some (-1, f)
    | some i => ((f.set_entry i (f.entry oldfd).fds_index).add_ref oldfd 1).map fun g => (i, g)

/-- The last part of `dup3`: marks `newfd` as closed on `exec`. -/
def Files.set_cloexec (newfd : ℤ) : Option (ℤ × Files Inode) :=
  (f.fcntl newfd F_GETFD 0).bind fun get =>
    if get.1 = -1 then some (-1, get.2)
    else (get.2.fcntl newfd F_SETFD (get.1.toNat ||| FD_CLOEXEC : ℕ)).map fun set =>
      if set.1 = -1 then (-1, set.2) else (newfd, set.2)

/-- `dup3`; a `newfd` outside the table is written behind it. -/
def Files.dup3 (oldfd newfd : ℤ) (flags : ℕ) : Option (ℤ × Files Inode) :=
  if oldfd = newfd then some (newfd, f)
  else if f.fd_invaild oldfd then none
  else if newfd < 0 ∨ newfd ≥ MAX_FDTABLE then none
  else
    (if (f.entry newfd).busy = 1 then (f.close newfd).map Prod.snd else some f).bind fun f₁ =>
      ((f₁.set_entry newfd.toNat (f₁.entry oldfd).fds_index).add_ref oldfd 1).bind fun f₂ =>
        if flags &&& O_CLOEXEC ≠ 0 then f₂.set_cloexec newfd else some (newfd, f₂)

/-! ## What the calls do -/

variable {f g : Files Inode} {found : Option Inode} {fd oldfd newfd arg ret : ℤ} {i bound : ℕ}
  {d : BitVec 32} {flags : ℕ}

theorem set_entry_self (f : Files Inode) (i index : ℕ) :
    (f.set_entry i index).table i = ⟨index, 1⟩ := Function.update_self ..

theorem set_entry_ne (f : Files Inode) {i k : ℕ} (index : ℕ) (h : k ≠ i) :
    (f.set_entry i index).table k = f.table k := Function.update_of_ne h ..

theorem set_busy_self (f : Files Inode) (fd b : ℤ) :
    (f.set_busy fd b).table fd.toNat = { f.entry fd with busy := b } := Function.update_self ..

theorem set_busy_ne (f : Files Inode) {fd : ℤ} {k : ℕ} (b : ℤ) (h : k ≠ fd.toNat) :
    (f.set_busy fd b).table k = f.table k := Function.update_of_ne h ..

/-- No slot is taken or freed between `f` and `g`. -/
def SameAlloc (f g : Files Inode) : Prop := ∀ i, (g.fds i).alloc = (f.fds i).alloc

/-- `fd` is in the table and busy. -/
structure Files.Valid (f : Files Inode) (fd : ℤ) : Prop where
  nonneg : 0 ≤ fd
  lt : fd.toNat < MAX_FDTABLE
  busy : (f.table fd.toNat).busy ≠ 0

theorem fd_invaild_eq_false (h : ¬ f.fd_invaild fd = true) : f.Valid fd := by
  simp only [Files.fd_invaild, Bool.or_eq_true, decide_eq_true_eq, beq_iff_eq, not_or] at h
  obtain ⟨⟨hnonneg, hlt⟩, hbusy⟩ := h
  exact ⟨by omega, by omega, hbusy⟩

theorem valid_of_invaild (h : f.fd_invaild fd = false) : f.Valid fd :=
  fd_invaild_eq_false (by simp [h])

theorem first_unused_some (h : f.first_unused arg bound = some i) :
    i < bound ∧ (f.table i).busy = 0 := by
  have hi := List.mem_range.mp (List.mem_of_find?_eq_some h)
  have hp := List.find?_some h
  simp only [Bool.and_eq_true, beq_iff_eq] at hp
  exact ⟨hi, hp.2⟩

theorem alloc_fds_some {fds fds' : ℕ → ext2_file Inode} {index : ℕ}
    (h : alloc_fds fds = some (index, fds')) :
    index < MAX_FILES ∧ (fds index).alloc = 0 ∧
      fds' = Function.update fds index { fds index with alloc := 1 } := by
  obtain ⟨j, hj, hr⟩ := Option.map_eq_some_iff.mp h
  obtain ⟨rfl, rfl⟩ := Prod.mk.inj hr
  have hp := List.find?_some hj
  exact ⟨List.mem_range.mp (List.mem_of_find?_eq_some hj), by simpa using hp, rfl⟩

theorem fd_to_fds_some (h : f.fd_to_fds fd = some i) : (f.entry fd).fds_index = i := by
  unfold Files.fd_to_fds at h
  split at h
  · cases h
  · exact Option.some.inj h

theorem add_ref_spec (h : f.add_ref fd d = some g) : g.table = f.table ∧ SameAlloc f g := by
  obtain ⟨index, -, rfl⟩ := Option.map_eq_some_iff.mp h
  refine ⟨rfl, fun i => ?_⟩
  dsimp only
  rcases eq_or_ne i index with rfl | hne
  · rw [Function.update_self]
  · rw [Function.update_of_ne hne]

/-- The slot of `fd` after `add_ref`. -/
theorem add_ref_slot (h : f.add_ref fd d = some g) :
    g.fds (f.entry fd).fds_index =
      { f.fds (f.entry fd).fds_index with
        refcount := (f.fds (f.entry fd).fds_index).refcount + d } := by
  obtain ⟨index, hindex, rfl⟩ := Option.map_eq_some_iff.mp h
  rw [fd_to_fds_some hindex]
  exact Function.update_self ..

/-- Closing `fd` frees its slot. -/
def Files.CloseFrees (f : Files Inode) (fd : ℤ) : Prop :=
  (f.fds (f.entry fd).fds_index).refcount = 1 ∧
    (f.fds (f.entry fd).fds_index).f_flags &&& FILE_PIPE_FLAGS = 0

instance (f : Files Inode) (fd : ℤ) : Decidable (f.CloseFrees fd) :=
  inferInstanceAs (Decidable (_ ∧ _))

/-- `close` of a descriptor that is busy: the count has reached 0 if it was 1. -/
theorem close_eq (hv : f.fd_invaild fd = false) :
    f.close fd = (f.add_ref fd (-1)).bind fun g =>
      if f.CloseFrees fd then
        (free_fds g.fds (f.entry fd).fds_index).map fun fds =>
          (0, { g with fds := fds }.set_busy fd 0)
      else some (0, g.set_busy fd 0) := by
  rw [Files.close, if_neg (by simp [hv])]
  refine Option.bind_congr fun g hg => ?_
  obtain ⟨htab, -⟩ := add_ref_spec hg
  have hent : g.entry fd = f.entry fd := by rw [Files.entry, Files.entry, htab]
  have hbusy : (g.entry fd).busy ≠ 0 := by
    rw [hent]
    exact (valid_of_invaild hv).busy
  have hslot := add_ref_slot hg
  rw [Files.fd_to_fds, if_neg hbusy, Option.bind_some, hent, hslot]
  have hzero : (f.fds (f.entry fd).fds_index).refcount + -1 = 0 ↔
      (f.fds (f.entry fd).fds_index).refcount = 1 := by
    constructor <;> intro h <;> bv_omega
  by_cases hcount : (f.fds (f.entry fd).fds_index).refcount = 1
  · rw [if_pos (hzero.mpr hcount)]
    by_cases hpipe : (f.fds (f.entry fd).fds_index).f_flags &&& FILE_PIPE_FLAGS = 0
    · rw [if_neg (not_not.mpr hpipe), if_pos ⟨hcount, hpipe⟩]
    · rw [if_pos hpipe, if_neg fun h => hpipe h.2]
  · rw [if_neg fun h => hcount (hzero.mp h), if_neg fun h => hcount h.1]

/-- A slot that was allocated is free now; the others are as they were. -/
def FreesSlot (f g : Files Inode) (i : ℕ) : Prop :=
  (f.fds i).alloc = 1 ∧ (g.fds i).alloc = 0 ∧ ∀ j, j ≠ i → (g.fds j).alloc = (f.fds j).alloc

/-- `close` of a descriptor that is busy drops it, and frees its slot if the count was 1. -/
theorem close_busy (hv : f.fd_invaild fd = false) (h : f.close fd = some (ret, g)) :
    g.table = (f.set_busy fd 0).table ∧
      (f.CloseFrees fd → FreesSlot f g (f.entry fd).fds_index) ∧
      (¬ f.CloseFrees fd → SameAlloc f g) := by
  rw [close_eq hv] at h
  obtain ⟨g₁, hadd, h⟩ := Option.bind_eq_some_iff.mp h
  obtain ⟨htab, halloc⟩ := add_ref_spec hadd
  have hset : (g₁.set_busy fd 0).table = (f.set_busy fd 0).table := by
    simp only [Files.set_busy, Files.entry, htab]
  split_ifs at h with hf
  · obtain ⟨fds, hfree, he⟩ := Option.map_eq_some_iff.mp h
    obtain ⟨-, rfl⟩ := Prod.mk.inj he
    unfold free_fds at hfree
    split_ifs at hfree with h1
    obtain rfl := Option.some.inj hfree
    refine ⟨hset, fun _ => ⟨?_, ?_, fun j hj => ?_⟩, fun hn => absurd hf hn⟩
    · rw [← halloc]
      exact not_not.mp h1
    · simp [Files.set_busy]
    · rw [← halloc j]
      simp [Files.set_busy, Function.update_of_ne hj]
  · obtain ⟨-, rfl⟩ := Prod.mk.inj (Option.some.inj h)
    exact ⟨hset, fun hc => absurd hc hf, fun _ => halloc⟩

/-- A `close` that frees no slot only drops the descriptor. -/
theorem close_spec (h : f.close fd = some (ret, g))
    (hf : f.fd_invaild fd = false → ¬ f.CloseFrees fd) :
    SameAlloc f g ∧ (g.table = f.table ∨ g.table = (f.set_busy fd 0).table) := by
  cases hv : f.fd_invaild fd with
  | true =>
    rw [Files.close, if_pos hv] at h
    obtain ⟨-, rfl⟩ := Prod.mk.inj (Option.some.inj h)
    exact ⟨fun _ => rfl, .inl rfl⟩
  | false =>
    obtain ⟨htab, -, halloc⟩ := close_busy hv h
    exact ⟨halloc (hf hv), .inr htab⟩

/-- From `f` to `g` the descriptor `j` becomes a copy of `i`. -/
structure Copied (f g : Files Inode) (i j : ℕ) : Prop where
  lt_source : i < MAX_FDTABLE
  busy : (f.table i).busy ≠ 0
  lt : j < MAX_FDTABLE
  alloc : SameAlloc f g
  index : (g.table j).fds_index = (f.table i).fds_index
  other : ∀ k, k ≠ j → g.table k = f.table k

theorem dup_spec (h : f.dup oldfd = some (ret, g)) :
    (ret = -1 ∧ g = f) ∨ ∃ j : ℕ, ret = j ∧ Copied f g oldfd.toNat j := by
  unfold Files.dup at h
  split at h
  · cases h
  next hv =>
  have hv := fd_invaild_eq_false hv
  split at h
  · exact .inl (by simpa [eq_comm] using h)
  · next j hj =>
    obtain ⟨g', hadd, hr⟩ := Option.map_eq_some_iff.mp h
    obtain ⟨rfl, rfl⟩ := Prod.mk.inj hr
    obtain ⟨htab, halloc⟩ := add_ref_spec hadd
    refine .inr ⟨j, rfl, hv.lt, hv.busy, (first_unused_some hj).1, halloc, ?_, fun k hk => ?_⟩
    · rw [htab, set_entry_self, Files.entry]
    · rw [htab, set_entry_ne f _ hk]

/-- A command other than `F_DUPFD` at most sets the flag of `fd`. -/
theorem fcntl_spec {cmd : ℤ} (h : f.fcntl fd cmd arg = some (ret, g)) (hcmd : cmd ≠ F_DUPFD) :
    g = f ∨ g = f.set_busy fd arg := by
  unfold Files.fcntl at h
  rw [if_neg hcmd] at h
  split_ifs at h <;> obtain ⟨-, rfl⟩ := Prod.mk.inj (Option.some.inj h) <;> simp

theorem fcntl_dupfd_spec (h : f.fcntl fd F_DUPFD arg = some (ret, g)) :
    (ret = -1 ∧ g = f) ∨ ∃ j : ℕ, ret = j ∧ Copied f g fd.toNat j := by
  unfold Files.fcntl at h
  rw [if_pos rfl] at h
  split at h
  · exact .inl (by simpa [eq_comm] using h)
  next hv =>
  have hv := fd_invaild_eq_false hv
  split at h
  · cases h
  split at h
  · exact .inl (by simpa [eq_comm] using h)
  · next j hj =>
    obtain ⟨rfl, rfl⟩ := Prod.mk.inj (Option.some.inj h)
    refine .inr ⟨j, rfl, hv.lt, hv.busy, (first_unused_some hj).1, fun _ => rfl, ?_, fun k hk => ?_⟩
    · exact congrArg _ (Function.update_self ..)
    · exact Function.update_of_ne hk ..

/-- The entry is busy already, so that its flag gets the value it has. -/
theorem set_cloexec_busy (hv : f.fd_invaild newfd = false) (hbusy : (f.entry newfd).busy = 1) :
    f.set_cloexec newfd = some (newfd, f.set_busy newfd 1) := by
  have hget : f.fcntl newfd F_GETFD 0 = some (1, f) := by
    rw [Files.fcntl, hv, hbusy]
    rfl
  have hset : f.fcntl newfd F_SETFD ((1 : ℤ).toNat ||| FD_CLOEXEC : ℕ) =
      some (0, f.set_busy newfd 1) := by
    rw [Files.fcntl, hv]
    rfl
  rw [Files.set_cloexec, hget, Option.bind_some]
  dsimp only
  rw [if_neg (by decide), hset]
  rfl

theorem set_busy_eq {b : ℤ} (h : (f.entry fd).busy = b) : (f.set_busy fd b).table = f.table := by
  subst h
  exact Function.update_eq_self fd.toNat f.table

theorem fd_invaild_of_valid (h : f.Valid fd) : f.fd_invaild fd = false := by
  have hlt := h.lt
  have hnonneg := h.nonneg
  simp only [Files.fd_invaild, Bool.or_eq_false_iff, decide_eq_false_iff_not, beq_eq_false_iff_ne]
  exact ⟨⟨by omega, by omega⟩, h.busy⟩

/-- `dup3` of different descriptors: after closing `newfd`, if it is busy, a copy is made. -/
theorem dup3_cases (h : f.dup3 oldfd newfd flags = some (ret, g)) (hne : oldfd ≠ newfd) :
    f.Valid oldfd ∧ newfd.toNat < MAX_FDTABLE ∧ oldfd.toNat ≠ newfd.toNat ∧
      g.table = Function.update f.table newfd.toNat ⟨(f.entry oldfd).fds_index, 1⟩ ∧
      ∃ f₁, SameAlloc f₁ g ∧
        (((f.entry newfd).busy = 1 ∧ f.fd_invaild newfd = false ∧
            ∃ r, f.close newfd = some (r, f₁)) ∨
          ((f.entry newfd).busy ≠ 1 ∧ f₁ = f)) := by
  unfold Files.dup3 at h
  rw [if_neg hne] at h
  split at h
  · cases h
  next hv =>
  have hv := fd_invaild_eq_false hv
  split at h
  · cases h
  next hnew =>
  obtain ⟨hnonneg, hlt⟩ := not_or.mp hnew
  obtain ⟨f₁, hclose, h⟩ := Option.bind_eq_some_iff.mp h
  obtain ⟨f₂, hadd, h⟩ := Option.bind_eq_some_iff.mp h
  obtain ⟨htab, halloc⟩ := add_ref_spec hadd
  have hne' : oldfd.toNat ≠ newfd.toNat := by
    have := hv.nonneg
    omega
  -- closing `newfd` touches its own entry only
  have h₁ : (∀ k, k ≠ newfd.toNat → f₁.table k = f.table k) ∧
      (((f.entry newfd).busy = 1 ∧ f.fd_invaild newfd = false ∧
          ∃ r, f.close newfd = some (r, f₁)) ∨
        ((f.entry newfd).busy ≠ 1 ∧ f₁ = f)) := by
    split at hclose
    · next hbusy =>
      obtain ⟨⟨r, f'⟩, hc, rfl⟩ := Option.map_eq_some_iff.mp hclose
      have hvn : f.fd_invaild newfd = false := by
        refine fd_invaild_of_valid ⟨by omega, by omega, ?_⟩
        show (f.entry newfd).busy ≠ 0
        rw [hbusy]
        decide
      refine ⟨fun k hk => ?_, .inl ⟨hbusy, hvn, r, hc⟩⟩
      rw [(close_busy hvn hc).1, set_busy_ne f 0 hk]
    · next hbusy =>
      obtain rfl := Option.some.inj hclose
      exact ⟨fun _ _ => rfl, .inr ⟨hbusy, rfl⟩⟩
  obtain ⟨hother, hcases⟩ := h₁
  have htab₂ : f₂.table =
      Function.update f.table newfd.toNat ⟨(f.entry oldfd).fds_index, 1⟩ := by
    funext k
    rw [htab, Function.update_apply]
    split_ifs with hk
    · rw [hk, set_entry_self, Files.entry, hother _ hne', Files.entry]
    · rw [set_entry_ne f₁ _ hk, hother k hk]
  have hg : g.table = f₂.table ∧ SameAlloc f₂ g := by
    split at h
    · have hent : (f₂.entry newfd).busy = 1 := by
        rw [Files.entry, htab₂, Function.update_self]
      have hv₂ : f₂.fd_invaild newfd = false := by
        refine fd_invaild_of_valid ⟨by omega, by omega, ?_⟩
        show (f₂.entry newfd).busy ≠ 0
        rw [hent]
        decide
      rw [set_cloexec_busy hv₂ hent] at h
      obtain ⟨-, rfl⟩ := Prod.mk.inj (Option.some.inj h)
      exact ⟨set_busy_eq hent, fun _ => rfl⟩
    · obtain ⟨-, rfl⟩ := Prod.mk.inj (Option.some.inj h)
      exact ⟨rfl, fun _ => rfl⟩
  exact ⟨hv, by omega, hne', hg.1.trans htab₂, f₁, fun i => (hg.2 i).trans (halloc i), hcases⟩

/-- `dup3` makes `newfd` a copy of `oldfd`, if closing `newfd` frees no slot. -/
theorem dup3_spec (h : f.dup3 oldfd newfd flags = some (ret, g))
    (hf : oldfd ≠ newfd → (f.entry newfd).busy = 1 → ¬ f.CloseFrees newfd) :
    (oldfd = newfd ∧ g = f) ∨ Copied f g oldfd.toNat newfd.toNat := by
  by_cases hne : oldfd = newfd
  · rw [Files.dup3, if_pos hne] at h
    exact .inl ⟨hne, (Prod.mk.inj (Option.some.inj h)).2.symm⟩
  obtain ⟨hv, hlt, hne', htab, f₁, halloc, hcases⟩ := dup3_cases h hne
  have halloc₁ : SameAlloc f f₁ := by
    rcases hcases with ⟨hbusy, hvn, r, hc⟩ | ⟨-, rfl⟩
    · exact (close_busy hvn hc).2.2 (hf hne hbusy)
    · exact fun _ => rfl
  refine .inr ⟨hv.lt, hv.busy, hlt, fun i => (halloc i).trans (halloc₁ i), ?_, fun k hk => ?_⟩
  · rw [htab, Function.update_self, Files.entry]
  · rw [htab, Function.update_of_ne hk]

/-- `open` takes a slot that was free. -/
theorem open_spec (h : f.open found flags = some (ret, g)) :
    (ret = -1 ∧ g = f) ∨ ∃ i slot : ℕ, ret = i ∧ i < MAX_FDTABLE ∧ slot < MAX_FILES ∧
      (f.fds slot).alloc = 0 ∧ (g.fds slot).alloc = 1 ∧
      (∀ k, k ≠ slot → (g.fds k).alloc = (f.fds k).alloc) ∧
      g.table = (f.set_entry i slot).table := by
  unfold Files.open at h
  split at h
  · exact .inl (by simpa [eq_comm] using h)
  split at h
  · exact .inl (by simpa [eq_comm] using h)
  · next i hi =>
    obtain ⟨⟨slot, fds⟩, hslot, hr⟩ := Option.map_eq_some_iff.mp h
    obtain ⟨rfl, rfl⟩ := Prod.mk.inj hr
    obtain ⟨hlt, hfree, rfl⟩ := alloc_fds_some hslot
    refine .inr ⟨i, slot, rfl, (first_unused_some hi).1, hlt, hfree, ?_, fun k hk => ?_, rfl⟩
    · simp only [Function.update_self]
    · simp only [Function.update_of_ne hk]

end Loos.Ext2Fs
