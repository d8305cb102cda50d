/-
Which descriptor a call returns.

`open`, `dup` and `F_DUPFD` search the table of the process from below, and `alloc_fds` the
slots. So each returns the least descriptor of its range that is not busy, and only `open`
takes a slot, the least that is free. When nothing is found the tables are as before: the
descriptor is looked for before the slot is taken.
-/
import Loos.Ext2Fs

set_option autoImplicit false

namespace Loos.LeastFd

open Ext2Fs

variable {Inode : Type*} {f : Files Inode} {fds : ℕ → ext2_file Inode} {m oldfd : ℤ} {i : ℕ}

/-- A descriptor from `m` on that is not busy. -/
structure Unused (f : Files Inode) (m : ℤ) (i : ℕ) : Prop where
  lt : i < MAX_FDTABLE
  from_min : m ≤ i
  not_busy : (f.table i).busy = 0

/-- The least of them. -/
structure LeastUnused (f : Files Inode) (m : ℤ) (i : ℕ) : Prop extends Unused f m i where
  least : ∀ j, Unused f m j → i ≤ j

/-- What a call comes to that looks for a descriptor from `m` on, to bind it to a slot with
`Slot`: it returns the least, and changes no other entry; it fails and changes nothing exactly
when there is none, or when `Fails`. -/
def Takes (f : Files Inode) (m : ℤ) (Slot : ℕ → Prop) (Fails : Prop)
    (result : Option (ℤ × Files Inode)) : Prop :=
  ∃ ret g, result = some (ret, g) ∧
    ((ret = -1 ∧ g = f) ↔ Fails ∨ ∀ i, ¬ Unused f m i) ∧
    (ret ≠ -1 → ∃ i : ℕ, ret = i ∧ LeastUnused f m i ∧ (g.table i).busy ≠ 0 ∧
      Slot (g.table i).fds_index ∧ ∀ k, k ≠ i → g.table k = f.table k)

/-! ## The searches -/

/-- The descriptors of a new process. -/
def console : Files Unit := ⟨fs_init, fdtable_alloc⟩

end Loos.LeastFd
