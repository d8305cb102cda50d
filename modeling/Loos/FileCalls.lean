/-
The calls on descriptors, one at a time.

Three predicates say what a call will do, from the state it is made in:
[`Call.Opens`] that it takes a slot, [`Call.Frees`] that it frees one, and
[`Call.Changes`] that it changes an entry of the table. The lemmas below show that
these are exact, for calls that do not panic.
-/
import Loos.Ext2Fs

set_option autoImplicit false

namespace Loos.FileCalls

open Ext2Fs

variable {Inode : Type*}

/-- A call on descriptors; of `open` what the path lookup finds. -/
inductive Call (Inode : Type*) where
  | open (found : Option Inode) (flags : ℕ)
  | dup (oldfd : ℤ)
  | dup3 (oldfd newfd : ℤ) (flags : ℕ)
  | fcntl (fd cmd arg : ℤ)
  | close (fd : ℤ)

namespace Call

/-- The call by a process. -/
def perform (f : Files Inode) : Call Inode → Option (ℤ × Files Inode)
  | .open found flags => f.open found flags
  | .dup oldfd => f.dup oldfd
  | .dup3 oldfd newfd flags => f.dup3 oldfd newfd flags
  | .fcntl fd cmd arg => f.fcntl fd cmd arg
  | .close fd => f.close fd

/-- `open` finds the file and a descriptor for it. -/
def Opens (f : Files Inode) : Call Inode → Prop
  | .open found _ => found.isSome ∧ (f.first_unused 0 MAX_FDTABLE).isSome
  | _ => False

/-- The call closes a descriptor whose slot has a count of 1. -/
def Frees (f : Files Inode) : Call Inode → Prop
  | .close fd => f.fd_invaild fd = false ∧ f.CloseFrees fd
  | .dup3 oldfd newfd _ => oldfd ≠ newfd ∧ (f.entry newfd).busy = 1 ∧ f.CloseFrees newfd
  | _ => False

/-- The call gives an entry of the table a new value. -/
def Changes (f : Files Inode) : Call Inode → Prop
  | .open found _ => found.isSome ∧ (f.first_unused 0 MAX_FDTABLE).isSome
  | .dup _ => (f.first_unused 0 MAX_FDTABLE).isSome
  | .dup3 oldfd newfd _ => oldfd ≠ newfd ∧ f.entry newfd ≠ ⟨(f.entry oldfd).fds_index, 1⟩
  | .fcntl fd cmd arg => f.fd_invaild fd = false ∧
      ((cmd = F_DUPFD ∧ (f.first_unused arg MAX_FILES).isSome) ∨
        (cmd = F_SETFD ∧ arg ≠ (f.entry fd).busy))
  | .close fd => f.fd_invaild fd = false

instance (f : Files Inode) : ∀ c : Call Inode, Decidable (c.Opens f)
  | .open _ _ => inferInstanceAs (Decidable (_ ∧ _))
  | .dup _ | .dup3 _ _ _ | .fcntl _ _ _ | .close _ => .isFalse id

instance (f : Files Inode) : ∀ c : Call Inode, Decidable (c.Frees f)
  | .close _ => inferInstanceAs (Decidable (_ ∧ _))
  | .dup3 _ _ _ => inferInstanceAs (Decidable (_ ∧ _ ∧ _))
  | .open _ _ | .dup _ | .fcntl _ _ _ => .isFalse id

instance (f : Files Inode) : ∀ c : Call Inode, Decidable (c.Changes f)
  | .open _ _ => inferInstanceAs (Decidable (_ ∧ _))
  | .dup _ => inferInstanceAs (Decidable (_ = true))
  | .dup3 _ _ _ => inferInstanceAs (Decidable (_ ∧ _))
  | .fcntl _ _ _ => inferInstanceAs (Decidable (_ ∧ _))
  | .close _ => inferInstanceAs (Decidable (_ = _))

end Call

variable {f g : Files Inode} {c : Call Inode} {fd oldfd newfd ret : ℤ} {flags i : ℕ}

/-! ## Slots -/

/-- A slot that was free is allocated now; the others are as they were. -/
def TakesSlot (f g : Files Inode) (i : ℕ) : Prop :=
  (f.fds i).alloc = 0 ∧ (g.fds i).alloc = 1 ∧ ∀ j, j ≠ i → (g.fds j).alloc = (f.fds j).alloc

/-- `open` that finds the file and a descriptor. -/
theorem open_eq {found : Option Inode} :
    f.open found flags =
      if (Call.open found flags).Opens f then f.open found flags else some (-1, f) := by
  split
  · rfl
  · next hn =>
    cases found with
    | none => rfl
    | some inode =>
      cases hi : f.first_unused 0 MAX_FDTABLE with
      | none => rw [Files.open, hi]
      | some i => exact absurd ⟨rfl, by rw [hi]; rfl⟩ hn

theorem not_opens {found : Option Inode} (h : f.open found flags = some (ret, g))
    (hn : ¬ (Call.open found flags).Opens f) : g = f := by
  rw [open_eq, if_neg hn] at h
  exact (Prod.mk.inj (Option.some.inj h)).2.symm

/-- A call that takes and frees no slot. -/
theorem perform_sameAlloc (h : c.perform f = some (ret, g)) (ho : ¬ c.Opens f)
    (hf : ¬ c.Frees f) : SameAlloc f g := by
  cases c with
  | «open» found flags =>
    obtain rfl := not_opens h ho
    exact fun _ => rfl
  -- the others copy a descriptor, which shares its slot, or change flags
  | dup oldfd =>
    rcases dup_spec h with ⟨-, rfl⟩ | ⟨j, -, hcopy⟩
    · exact fun _ => rfl
    · exact hcopy.alloc
  | dup3 oldfd newfd flags =>
    rcases dup3_spec h fun hne hbusy hc => hf ⟨hne, hbusy, hc⟩ with ⟨-, rfl⟩ | hcopy
    · exact fun _ => rfl
    · exact hcopy.alloc
  | fcntl fd cmd arg =>
    by_cases hcmd : cmd = F_DUPFD
    · subst hcmd
      rcases fcntl_dupfd_spec h with ⟨-, rfl⟩ | ⟨j, -, hcopy⟩
      · exact fun _ => rfl
      · exact hcopy.alloc
    · rcases fcntl_spec h hcmd with rfl | rfl
      · exact fun _ => rfl
      · exact fun _ => rfl
  | close fd => exact (close_spec h fun hv hc => hf ⟨hv, hc⟩).1

theorem entry_busy (hv : f.fd_invaild fd = false) : (f.entry fd).busy ≠ 0 :=
  (valid_of_invaild hv).busy

/-- A call that frees a slot frees that of a busy descriptor, and no other. -/
theorem perform_frees (h : c.perform f = some (ret, g)) (hf : c.Frees f) :
    ∃ k, (f.table k).busy ≠ 0 ∧ FreesSlot f g (f.table k).fds_index := by
  cases c with
  | «open» found flags => exact hf.elim
  | dup oldfd => exact hf.elim
  | dup3 oldfd newfd flags =>
    obtain ⟨hne, hbusy, hc⟩ := hf
    obtain ⟨-, -, -, -, f₁, halloc, hcases⟩ := dup3_cases h hne
    rcases hcases with ⟨-, hvn, r, hclose⟩ | ⟨hn, -⟩
    · obtain ⟨h1, h0, hother⟩ := (close_busy hvn hclose).2.1 hc
      exact ⟨newfd.toNat, entry_busy hvn, h1, (halloc _).trans h0,
        fun j hj => (halloc j).trans (hother j hj)⟩
    · exact absurd hbusy hn
  | fcntl fd cmd arg => exact hf.elim
  | close fd =>
    obtain ⟨hv, hc⟩ := hf
    exact ⟨fd.toNat, entry_busy hv, (close_busy hv h).2.1 hc⟩

/-- An `open` that succeeds takes one slot. -/
theorem perform_opens (h : c.perform f = some (ret, g)) (ho : c.Opens f) :
    ∃ i, TakesSlot f g i := by
  cases c with
  | «open» found flags =>
    rcases open_spec h with ⟨hret, -⟩ | ⟨i, slot, -, -, -, h0, h1, hother, -⟩
    · -- -1 is not the number of a descriptor
      obtain ⟨hfound, hfirst⟩ := ho
      obtain ⟨inode, rfl⟩ := Option.isSome_iff_exists.mp hfound
      obtain ⟨i, hi⟩ := Option.isSome_iff_exists.mp hfirst
      rw [Call.perform, Files.open, hi] at h
      obtain ⟨a, -, he⟩ := Option.map_eq_some_iff.mp h
      have := (Prod.mk.inj he).1
      omega
    · exact ⟨slot, h0, h1, hother⟩
  | dup oldfd => exact ho.elim
  | dup3 oldfd newfd flags => exact ho.elim
  | fcntl fd cmd arg => exact ho.elim
  | close fd => exact ho.elim

/-- A call that takes no slot makes none allocated. -/
theorem alloc_of_not_opens (h : c.perform f = some (ret, g)) (ho : ¬ c.Opens f)
    (hg : (g.fds i).alloc = 1) : (f.fds i).alloc = 1 := by
  by_cases hf : c.Frees f
  · obtain ⟨k, -, h1, -, hother⟩ := perform_frees h hf
    by_cases hi : i = (f.table k).fds_index
    · rw [hi, h1]
    · rw [← hother i hi, hg]
  · rw [← perform_sameAlloc h ho hf i, hg]

/-! ## Entries -/

/-- Writing a value to an entry changes the table if the entry has another one. -/
theorem update_eq_iff {table : ℕ → fdtable} {k : ℕ} {v : fdtable} :
    Function.update table k v = table ↔ table k = v := by
  constructor
  · intro h
    rw [← h, Function.update_self]
  · rintro rfl
    exact Function.update_eq_self k table

theorem unused_ne {k : ℕ} {v : fdtable} {arg : ℤ} {bound : ℕ}
    (hk : f.first_unused arg bound = some k) (hv : v.busy ≠ 0) :
    Function.update f.table k v ≠ f.table := by
  intro heq
  have := congrArg fdtable.busy (update_eq_iff.mp heq)
  rw [(first_unused_some hk).2] at this
  exact hv this.symm

theorem open_table {found : Option Inode} (h : f.open found flags = some (ret, g)) :
    g.table = f.table ↔ ¬ (Call.open found flags).Changes f := by
  by_cases ho : (Call.open found flags).Opens f
  · refine iff_of_false ?_ (not_not.mpr ho)
    obtain ⟨hfound, hfirst⟩ := ho
    obtain ⟨inode, rfl⟩ := Option.isSome_iff_exists.mp hfound
    obtain ⟨k, hk⟩ := Option.isSome_iff_exists.mp hfirst
    rw [Files.open, hk] at h
    obtain ⟨a, -, he⟩ := Option.map_eq_some_iff.mp h
    rw [← (Prod.mk.inj he).2]
    exact unused_ne hk Int.one_ne_zero
  · exact iff_of_true (congrArg Files.table (not_opens h ho)) ho

theorem dup_table (h : f.dup oldfd = some (ret, g)) :
    g.table = f.table ↔ ¬ (Call.dup oldfd : Call Inode).Changes f := by
  have hch : (Call.dup oldfd : Call Inode).Changes f ↔ (f.first_unused 0 MAX_FDTABLE).isSome :=
    Iff.rfl
  rw [hch]
  unfold Files.dup at h
  split at h
  · cases h
  split at h
  · next hk =>
    rw [hk, (Prod.mk.inj (Option.some.inj h)).2]
    simp
  · next k hk =>
    obtain ⟨g', hadd, he⟩ := Option.map_eq_some_iff.mp h
    rw [hk, ← (Prod.mk.inj he).2, (add_ref_spec hadd).1]
    refine iff_of_false ?_ (by simp)
    exact unused_ne hk Int.one_ne_zero

theorem dup3_table (h : f.dup3 oldfd newfd flags = some (ret, g)) :
    g.table = f.table ↔ ¬ (Call.dup3 oldfd newfd flags : Call Inode).Changes f := by
  by_cases hne : oldfd = newfd
  · rw [Files.dup3, if_pos hne] at h
    refine iff_of_true ?_ fun hc => hc.1 hne
    rw [(Prod.mk.inj (Option.some.inj h)).2]
  · obtain ⟨-, -, -, htab, -⟩ := dup3_cases h hne
    rw [htab, update_eq_iff]
    constructor
    · intro he hc
      exact hc.2 he
    · intro hc
      by_contra hent
      exact hc ⟨hne, hent⟩

theorem fcntl_table {cmd arg : ℤ} (h : f.fcntl fd cmd arg = some (ret, g)) :
    g.table = f.table ↔ ¬ (Call.fcntl fd cmd arg : Call Inode).Changes f := by
  have hch : (Call.fcntl fd cmd arg : Call Inode).Changes f ↔ f.fd_invaild fd = false ∧
      ((cmd = F_DUPFD ∧ (f.first_unused arg MAX_FILES).isSome) ∨
        (cmd = F_SETFD ∧ arg ≠ (f.entry fd).busy)) := Iff.rfl
  rw [hch]
  cases hv : f.fd_invaild fd with
  | true =>
    rw [Files.fcntl, if_pos hv] at h
    rw [(Prod.mk.inj (Option.some.inj h)).2]
    simp
  | false =>
    rw [Files.fcntl, if_neg (by simp [hv])] at h
    by_cases hdup : cmd = F_DUPFD
    · rw [if_pos hdup] at h
      have hset : cmd ≠ F_SETFD := by
        rw [hdup]
        decide
      split at h
      · cases h
      split at h
      · next hk =>
        rw [hk, (Prod.mk.inj (Option.some.inj h)).2]
        simp [hset]
      · next k hk =>
        rw [hk, ← (Prod.mk.inj (Option.some.inj h)).2]
        refine iff_of_false ?_ (by simp [hdup])
        -- the entry that is copied is busy, the one it is copied to was not
        exact unused_ne hk (entry_busy hv)
    · rw [if_neg hdup] at h
      by_cases hset : cmd = F_SETFD
      · subst hset
        obtain ⟨-, rfl⟩ := Prod.mk.inj (Option.some.inj h)
        have hupd : (f.set_busy fd arg).table = f.table ↔ (f.entry fd).busy = arg :=
          ⟨fun he => (congrArg fdtable.busy (update_eq_iff.mp he)), set_busy_eq⟩
        rw [hupd, eq_comm]
        simp [hdup]
      · have hg : g = f := by
          split_ifs at h <;> exact (Prod.mk.inj (Option.some.inj h)).2.symm
        rw [hg]
        simp [hdup, hset]

theorem close_table (h : f.close fd = some (ret, g)) :
    g.table = f.table ↔ ¬ (Call.close fd : Call Inode).Changes f := by
  have hch : (Call.close fd : Call Inode).Changes f ↔ f.fd_invaild fd = false := Iff.rfl
  rw [hch]
  cases hv : f.fd_invaild fd with
  | true =>
    rw [Files.close, if_pos hv] at h
    rw [(Prod.mk.inj (Option.some.inj h)).2]
    simp
  | false =>
    refine iff_of_false ?_ (by simp)
    rw [(close_busy hv h).1]
    intro heq
    exact entry_busy hv (congrArg fdtable.busy (update_eq_iff.mp heq))

/-- **A call changes the table exactly when [`Call.Changes`] says so.** -/
theorem perform_table (h : c.perform f = some (ret, g)) : g.table = f.table ↔ ¬ c.Changes f := by
  cases c with
  | «open» found flags => exact open_table h
  | dup oldfd => exact dup_table h
  | dup3 oldfd newfd flags => exact dup3_table h
  | fcntl fd cmd arg => exact fcntl_table h
  | close fd => exact close_table h

end Loos.FileCalls
