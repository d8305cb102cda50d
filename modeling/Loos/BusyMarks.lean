/-
The flag of a descriptor.

The one number `busy` says that a descriptor is in use, and `F_GETFD` and `F_SETFD` take it for
the flags of the descriptor as well. So a descriptor whose flags are cleared is gone, and a
number that is set comes back whole and not as its lowest bit. Only for the number 1 the two
meanings agree ([`fcntl_law_iff`]).
-/
import Loos.FdCalls

set_option autoImplicit false

namespace Loos.BusyMarks

open SysLib Ext2 Ext2Fs FdCalls

variable {f g : Files ext2_inode} {fd cmd arg ret k : ℤ} {i : ℕ}

/-- `a & FD_CLOEXEC`, for an `int`. -/
def cloexec (a : ℤ) : ℤ := (BitVec.ofInt 32 a &&& BitVec.ofNat 32 FD_CLOEXEC).toInt

/-- What `fcntl` does to the open descriptors: they stay open and keep their slots, and
`F_DUPFD` opens the one it returns. What `F_SETFD` sets, `F_GETFD` returns. -/
def FcntlLaw (f : Files ext2_inode) (fd cmd arg : ℤ) : Prop :=
  ∃ ret g, f.fcntl fd cmd arg = some (ret, g) ∧
    (∀ k, g.fd_invaild k = false ↔
      f.fd_invaild k = false ∨ (cmd = F_DUPFD ∧ ret ≠ -1 ∧ k = ret)) ∧
    (∀ k, f.fd_invaild k = false → (g.entry k).fds_index = (f.entry k).fds_index) ∧
    (cmd = F_SETFD → ∃ h, g.fcntl fd F_GETFD 0 = some (cloexec arg, h))

/-- The calls of `fcntl` that the law speaks of. -/
def Covered (f : Files ext2_inode) (fd cmd arg : ℤ) : Prop :=
  f.fd_invaild fd = false ∧ (cmd ≠ F_SETFD → 0 ≤ arg ∧ arg < MAX_FDTABLE)

/-- A call of `fcntl` on an open descriptor keeps the law. -/
def Lawful (s : Sys) : Event → Prop
  | .call t (.fcntl fd cmd arg) =>
      ∀ table, s.tables t = some table → Covered ⟨s.fds, table⟩ fd cmd arg →
        FcntlLaw ⟨s.fds, table⟩ fd cmd arg
  | _ => True

/-- On an open descriptor `F_SETFD` is called for 1 only. -/
def SetsOne (s : Sys) : Event → Prop
  | .call t (.fcntl fd cmd arg) =>
      ∀ table, s.tables t = some table → Covered ⟨s.fds, table⟩ fd cmd arg →
        cmd = F_SETFD → arg = 1
  | _ => True

/-! ## One call -/

theorem cloexec_eq (a : ℤ) : cloexec a = 0 ∨ cloexec a = 1 := by
  have hbit : (BitVec.ofInt 32 a &&& BitVec.ofNat 32 FD_CLOEXEC).toNat < 2 := by
    rw [BitVec.toNat_and]
    exact Nat.lt_of_le_of_lt Nat.and_le_right (by decide)
  rw [cloexec, BitVec.toInt_eq_toNat_of_lt (by omega)]
  omega

/-- Without a change of the table no descriptor is opened, closed or bound. -/
theorem fcntl_kept (hcmd : cmd ≠ F_DUPFD) (hset : cmd ≠ F_SETFD)
    (hret : f.fcntl fd cmd arg = some (ret, f)) : FcntlLaw f fd cmd arg := by
  refine ⟨ret, f, hret, fun k => ?_, fun _ _ => rfl, fun h => absurd h hset⟩
  simp [hcmd]

theorem update_invaild {table : ℕ → fdtable} {v : fdtable} (hi : i < MAX_FDTABLE)
    (hv : v.busy ≠ 0) (htab : table = Function.update f.table i v) :
    (Files.fd_invaild { f with table := table } k = false ↔ f.fd_invaild k = false ∨ k = i) := by
  subst htab
  simp only [Files.fd_invaild, Files.entry, Bool.or_eq_false_iff, decide_eq_false_iff_not,
    beq_eq_false_iff_ne]
  by_cases hk : k.toNat = i
  · -- a negative number has the entry 0, but is no descriptor
    subst hk
    rw [Function.update_self]
    have : k = k.toNat ↔ ¬ k < 0 := by omega
    rw [this]
    constructor
    · exact fun h => .inr h.1.1
    · intro h
      have h0 : ¬ k < 0 := h.elim (fun h => h.1.1) id
      exact ⟨⟨h0, by omega⟩, hv⟩
  · rw [Function.update_of_ne hk]
    have : k ≠ i := by
      rintro rfl
      exact hk (Int.toNat_natCast i)
    simp [this]

/-- `F_DUPFD` opens the descriptor that it returns. -/
theorem dupfd_law (hv : f.fd_invaild fd = false) (h0 : 0 ≤ arg) : FcntlLaw f fd F_DUPFD arg := by
  have hset : F_DUPFD ≠ F_SETFD := by decide
  cases hfirst : f.first_unused arg MAX_FILES with
  | none =>
    have hret : f.fcntl fd F_DUPFD arg = some (-1, f) := by
      rw [Files.fcntl, if_neg (by simp [hv]), if_pos rfl, if_neg (by omega), hfirst]
    refine ⟨-1, f, hret, fun k => ?_, fun _ _ => rfl, fun h => absurd h hset⟩
    simp
  | some i =>
    have hret : f.fcntl fd F_DUPFD arg =
        some ((i : ℤ), { f with table := Function.update f.table i (f.entry fd) }) := by
      rw [Files.fcntl, if_neg (by simp [hv]), if_pos rfl, if_neg (by omega), hfirst]
    obtain ⟨hi, hfree⟩ := first_unused_some hfirst
    refine ⟨i, _, hret, fun k => ?_, fun k hk => ?_, fun h => absurd h hset⟩
    · rw [update_invaild hi (FileCalls.entry_busy hv) rfl]
      have : (i : ℤ) ≠ -1 := by omega
      simp [this]
    · -- the entry that is written was not open
      have hne : k.toNat ≠ i := by
        rintro rfl
        exact FileCalls.entry_busy hk hfree
      simp only [Files.entry, Function.update_of_ne hne]

/-- `F_SETFD` keeps the law for the number 1, and for no other. -/
theorem setfd_law_iff (hv : f.fd_invaild fd = false) : FcntlLaw f fd F_SETFD arg ↔ arg = 1 := by
  have hdup : F_SETFD ≠ F_DUPFD := by decide
  have hret : f.fcntl fd F_SETFD arg = some (0, f.set_busy fd arg) := by
    rw [Files.fcntl, if_neg (by simp [hv])]
    rfl
  have hentry : (f.set_busy fd arg).entry fd = { f.entry fd with busy := arg } :=
    set_busy_self f fd arg
  have hvalid := valid_of_invaild hv
  constructor
  · rintro ⟨ret, g, hg, hopen, -, hget⟩
    obtain ⟨-, rfl⟩ := Prod.mk.inj (Option.some.inj (hret.symm.trans hg))
    -- the descriptor is still open, and its flags are a single bit
    have hstill := (hopen fd).mpr (.inl hv)
    obtain ⟨h, hget⟩ := hget rfl
    rw [Files.fcntl, if_neg (by simp [hstill]), if_neg (by decide), if_pos rfl, hentry] at hget
    have hbit : arg = cloexec arg := (Prod.mk.inj (Option.some.inj hget)).1
    have hbusy : arg ≠ 0 := by
      have := FileCalls.entry_busy hstill
      rwa [hentry] at this
    -- with 0 for its flags the descriptor would be closed
    rcases cloexec_eq arg with h0 | h1
    · exact absurd (hbit.trans h0) hbusy
    · exact hbit.trans h1
  · rintro rfl
    have hset : (f.set_busy fd 1).fd_invaild fd = false := by
      refine fd_invaild_of_valid ⟨hvalid.nonneg, hvalid.lt, ?_⟩
      rw [set_busy_self]
      exact Int.one_ne_zero
    refine ⟨0, _, hret, fun k => ?_, fun k hk => ?_, fun _ => ⟨f.set_busy fd 1, ?_⟩⟩
    · rw [Files.set_busy, update_invaild hvalid.lt Int.one_ne_zero rfl]
      have hk : k = fd.toNat → f.fd_invaild k = false := by
        rintro rfl
        rwa [Int.toNat_of_nonneg hvalid.nonneg]
      simp only [hdup, false_and, or_false]
      exact ⟨fun h => h.elim id hk, .inl⟩
    · by_cases hne : k.toNat = fd.toNat
      · rw [Files.entry, hne, set_busy_self, Files.entry, Files.entry, hne]
      · rw [Files.entry, set_busy_ne f 1 hne]
        rfl
    · rw [Files.fcntl, if_neg (by simp [hset]), if_neg (by decide), if_pos rfl, hentry]
      rfl

/-- **One call keeps the law unless it is `F_SETFD` of another number than 1.** -/
theorem fcntl_law_iff (h : Covered f fd cmd arg) :
    FcntlLaw f fd cmd arg ↔ (cmd = F_SETFD → arg = 1) := by
  obtain ⟨hv, harg⟩ := h
  by_cases hset : cmd = F_SETFD
  · subst hset
    rw [setfd_law_iff hv]
    simp
  · refine iff_of_true ?_ fun h => absurd h hset
    by_cases hdup : cmd = F_DUPFD
    · subst hdup
      exact dupfd_law hv (harg hset).1
    · -- the other commands leave the table alone
      have hret : ∃ ret, f.fcntl fd cmd arg = some (ret, f) := by
        rw [Files.fcntl, if_neg (by simp [hv]), if_neg hdup]
        split_ifs <;> exact ⟨_, rfl⟩
      obtain ⟨ret, hret⟩ := hret
      exact fcntl_kept hdup hset hret

/-! ## Runs -/

/-- **The calls of `fcntl` in a run keep the law exactly when `F_SETFD` sets nothing but 1.** -/
theorem fcntl_lawful_iff (s : Sys) (es : List Event) :
    Meets step Lawful s es ↔ Meets step SetsOne s es := by
  refine meets_congr (fun _ => True) (fun _ _ _ _ _ _ => trivial) (fun s e _ => ?_) trivial
  cases e with
  | fdtable_alloc t => exact Iff.rfl
  | call t c =>
    cases c with
    | fcntl fd cmd arg =>
      exact forall_congr' fun table => forall_congr' fun _ => forall_congr' fun hcovered =>
        fcntl_law_iff hcovered
    | _ => exact Iff.rfl

/-- **`F_SETFD` of 0 closes the descriptor.** -/
theorem setfd_closes : ¬ Meets step Lawful (init no_disk 1024 fun _ _ => [])
    [.fdtable_alloc 0, .call 0 (.fcntl 1 F_SETFD 0)] := by
  intro h
  have hlaw : FcntlLaw ⟨fs_init, fdtable_alloc⟩ 1 F_SETFD 0 :=
    (h.2 _ rfl).1 fdtable_alloc rfl ⟨rfl, fun hne => absurd rfl hne⟩
  obtain ⟨ret, g, hg, hopen, -⟩ := hlaw
  obtain ⟨-, rfl⟩ := Prod.mk.inj (Option.some.inj hg)
  have := (hopen 1).mpr (.inl rfl)
  cases this

end Loos.BusyMarks
