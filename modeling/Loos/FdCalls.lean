/-
The calls on descriptors over whole runs, and what they do with a bad descriptor.

`close`, `read`, `write` and `fcntl` return -1 for a descriptor that is not busy. `dup` and
`dup3` panic; `dup3` of a descriptor to itself returns it, whatever it is, and nothing asks
whether its second descriptor is in the table at all. `F_DUPFD` starts its search at any
number, so also in front of the table.

A good descriptor can do harm too: `read` follows the null pointer `f_inode` of the two
console slots for output, and `close` panics when the count of a slot comes down to 0 a
second time.
-/
import Loos.Descriptors
import Loos.FileCalls
import Loos.FileReads

set_option autoImplicit false

namespace Loos.FdCalls

open SysLib Ahci Ext2 Ext2Fs

/-! ## The calls -/

/-- Why a call does not return: a `panic`, an access outside a table or through a null
pointer; or `ext2_fread` does not. -/
inductive Failure where
  | fault
  | stuck
deriving DecidableEq

/-- What the calls return is a 64-bit word, which is read with a sign. -/
def signed (n : ℕ) : ℤ := (BitVec.ofNat 64 n).toInt

/-- `read`, as [`FileReads.read`] has it, with the reason why it does not return. -/
def read (s : FileReads.Sys) (fd : ℤ) (buf : Mem) (count : ℕ) :
    Except Failure (ℕ × Mem × FileReads.Sys) :=
  if s.files.fd_invaild fd then .ok (18446744073709551615, buf, s)
  else
    match s.files.fd_to_fds fd with
    | none => .error .fault
    | some index =>
      if index = STDIN then
        let str := s.console s.lines count
        .ok (str.length, buf.put 0 str.length fun i => str.getD i 0, { s with lines := s.lines + 1 })
      else
        -- the two slots for output have no inode
        match (s.files.fds index).f_inode with
        | none => .error .fault
        | some inode =>
          let r := Prog.run answer s.dev
            (ext2_fread s.block_size inode buf (count % 4294967296))
          match r.1 with
          | .ok (buf', size) => .ok (size, buf', { s with dev := r.2 })
          | .error _ => .error .stuck

/-- The loop of `write`: the characters given to `putch`. `i` is an `int`, which is compared
with a `size_t`. -/
def putch_loop (buf : Mem) (count : ℕ) (i : BitVec 32) : List UInt8 :=
  if h : (i.signExtend 64).toNat < count % 18446744073709551616 then
    have : 4294967296 - (i + 1).toNat < 4294967296 - i.toNat := by
      -- at the last value, -1, the loop has ended
      have hlast : i ≠ 4294967295#32 := by
        rintro rfl
        have : (BitVec.signExtend 64 4294967295#32).toNat = 18446744073709551615 := by decide
        omega
      bv_omega
    buf (i.signExtend 64).toNat :: putch_loop buf count (i + 1)
  else []
termination_by 4294967296 - i.toNat

/-- `write`: the returned value, and the characters given to `putch`. -/
def write (f : Files ext2_inode) (fd : ℤ) (buf : Mem) (count : ℕ) : Option (ℕ × List UInt8) :=
  if f.fd_invaild fd then some (18446744073709551615, [])
  else
    (f.fd_to_fds fd).map fun index =>
      -- files are not written to
      if index = STDOUT ∨ index = STDERR then (count, putch_loop buf count 0) else (0, [])

/-- A call on descriptors; of `open` what the path lookup finds. -/
inductive Call where
  | open (found : Option ext2_inode) (flags : ℕ)
  | close (fd : ℤ)
  | read (fd : ℤ) (buf : Mem) (count : ℕ)
  | write (fd : ℤ) (buf : Mem) (count : ℕ)
  | dup (oldfd : ℤ)
  | dup3 (oldfd newfd : ℤ) (flags : ℕ)
  | fcntl (fd cmd arg : ℤ)

/-- What a call returns and prints, and the state behind it. -/
structure Result where
  ret : ℤ
  printed : List UInt8
  sys : FileReads.Sys

/-- The call on the descriptors alone. -/
def onFiles (s : FileReads.Sys) (c : FileCalls.Call ext2_inode) : Except Failure Result :=
  match c.perform s.files with
  | none => .error .fault
  | some (ret, f) => .ok ⟨ret, [], { s with files := f }⟩

/-- The call by a process. -/
def Call.perform (s : FileReads.Sys) : Call → Except Failure Result
  | .open found flags => onFiles s (.open found flags)
  | .close fd => onFiles s (.close fd)
  | .read fd buf count => (FdCalls.read s fd buf count).map fun r => ⟨signed r.1, [], r.2.2⟩
  | .write fd buf count =>
    match FdCalls.write s.files fd buf count with
    | none => .error .fault
    | some (n, printed) => .ok ⟨signed n, printed, s⟩
  | .dup oldfd => onFiles s (.dup oldfd)
  | .dup3 oldfd newfd flags => onFiles s (.dup3 oldfd newfd flags)
  | .fcntl fd cmd arg => onFiles s (.fcntl fd cmd arg)

/-! ## Runs -/

/-- The slots, the tables of the processes by the addresses of their pages, the disk, the
console and what was printed. -/
structure Sys where
  fds : ℕ → ext2_file ext2_inode
  tables : ℕ → Option (ℕ → fdtable)
  dev : Dev
  block_size : ℕ
  console : ℕ → ℕ → List UInt8
  lines : ℕ
  screen : List UInt8

/-- What a process with the table `table` sees. -/
def Sys.view (s : Sys) (table : ℕ → fdtable) : FileReads.Sys :=
  ⟨⟨s.fds, table⟩, s.dev, s.block_size, s.console, s.lines⟩

/-- After `fs_init`, when no process has a table yet. -/
def init (dev : Dev) (block_size : ℕ) (console : ℕ → ℕ → List UInt8) : Sys :=
  ⟨fs_init, fun _ => none, dev, block_size, console, 0, []⟩

/-- What happens: a process gets a table, or makes a call. Processes may share a table. -/
inductive Event where
  | fdtable_alloc (t : ℕ)
  | call (t : ℕ) (c : Call)

/-- One event; `none` if it is not possible or does not return. -/
def step (s : Sys) : Event → Option Sys
  | .fdtable_alloc t =>
    match s.tables t with
    | some _ => none
    | none => some { s with tables := Function.update s.tables t (some fdtable_alloc) }
  | .call t c => (s.tables t).bind fun table =>
      (c.perform (s.view table)).toOption.map fun r =>
        { s with
          fds := r.sys.files.fds
          tables := Function.update s.tables t (some r.sys.files.table)
          dev := r.sys.dev
          lines := r.sys.lines
          screen := s.screen ++ r.printed }

/-! ## Bad descriptors -/

/-- A descriptor that is passed is not one, or cannot become one. -/
def Call.Invalid (f : Files ext2_inode) : Call → Prop
  | .open _ _ => False
  | .close fd => f.fd_invaild fd = true
  | .read fd _ _ => f.fd_invaild fd = true
  | .write fd _ _ => f.fd_invaild fd = true
  | .dup oldfd => f.fd_invaild oldfd = true
  | .dup3 oldfd newfd _ => f.fd_invaild oldfd = true ∨ newfd < 0 ∨ newfd ≥ MAX_FDTABLE
  | .fcntl fd _ _ => f.fd_invaild fd = true

/-- The call reaches no `panic`, no entry outside a table and no null pointer, and with a bad
descriptor it returns -1 and does nothing. -/
structure Sound (s : FileReads.Sys) (c : Call) : Prop where
  safe : c.perform s ≠ .error .fault
  slot : ∀ fd, s.files.fd_invaild fd = false → (s.files.entry fd).fds_index < MAX_FILES
  invalid : c.Invalid s.files → c.perform s = .ok ⟨-1, [], s⟩

/-- Closing the descriptor `fd` does not free a slot that is free. -/
def ClosesOnce (f : Files ext2_inode) (fd : ℤ) : Prop :=
  f.CloseFrees fd → (f.fds (f.entry fd).fds_index).alloc = 1

/-- What the callers have to take care of. -/
def Call.Allowed (f : Files ext2_inode) : Call → Prop
  | .open _ _ => True
  | .close fd => f.fd_invaild fd = false → ClosesOnce f fd
  | .read fd _ _ => f.fd_invaild fd = false →
      (f.entry fd).fds_index = STDOUT ∨ (f.entry fd).fds_index = STDERR →
        (f.fds (f.entry fd).fds_index).f_inode ≠ none
  | .write _ _ _ => True
  | .dup oldfd => f.fd_invaild oldfd = false
  | .dup3 oldfd newfd _ =>
      if oldfd = newfd then f.fd_invaild oldfd = false ∨ oldfd = -1
      else f.fd_invaild oldfd = false ∧ 0 ≤ newfd ∧ newfd < MAX_FDTABLE ∧
        ((f.entry newfd).busy = 1 → ClosesOnce f newfd)
  | .fcntl fd cmd arg => f.fd_invaild fd = false → cmd = F_DUPFD → 0 ≤ arg

/-- A call of one of the six functions on an existing table is sound. -/
def SoundEvent (s : Sys) : Event → Prop
  | .fdtable_alloc _ => True
  | .call _ (.open _ _) => True
  | .call t c => ∀ table, s.tables t = some table → Sound (s.view table) c

/-- A call on an existing table is allowed. -/
def AllowedEvent (s : Sys) : Event → Prop
  | .fdtable_alloc _ => True
  | .call t c => ∀ table, s.tables t = some table → c.Allowed ⟨s.fds, table⟩

variable {f g f₁ : Files ext2_inode} {s s' : Sys} {v : FileReads.Sys} {c : Call} {e : Event}
  {es : List Event} {fd oldfd newfd ret arg cmd : ℤ} {flags i slot : ℕ}

/-! ### What descriptors are bound to -/

/-- The slot is one of the console or a file was opened in it. -/
def Opened (fds : ℕ → ext2_file ext2_inode) (slot : ℕ) : Prop :=
  slot < MAX_FILES ∧ (slot ≤ STDERR ∨ (fds slot).f_inode ≠ none)

/-- From `f` to `g` no slot loses its inode, and every busy descriptor has the slot of one that
was busy, or one with an inode. -/
structure Effect (f g : Files ext2_inode) : Prop where
  inode : ∀ i, (f.fds i).f_inode ≠ none → (g.fds i).f_inode ≠ none
  entry : ∀ k, (g.table k).busy ≠ 0 →
    (∃ k', (f.table k').busy ≠ 0 ∧ (g.table k).fds_index = (f.table k').fds_index) ∨
      Opened g.fds (g.table k).fds_index

theorem Opened.of_inode {fds fds' : ℕ → ext2_file ext2_inode} (h : Opened fds slot)
    (hinode : ∀ i, (fds i).f_inode ≠ none → (fds' i).f_inode ≠ none) : Opened fds' slot :=
  ⟨h.1, h.2.imp_right (hinode slot)⟩

theorem Effect.refl (f : Files ext2_inode) : Effect f f :=
  ⟨fun _ h => h, fun k hk => .inl ⟨k, hk, rfl⟩⟩

theorem Effect.trans (h : Effect f f₁) (h' : Effect f₁ g) : Effect f g := by
  refine ⟨fun i hi => h'.inode i (h.inode i hi), fun k hk => ?_⟩
  -- a slot that is opened on the way keeps its inode
  rcases h'.entry k hk with ⟨k₁, hk₁, hslot₁⟩ | hopen
  · rw [hslot₁]
    exact (h.entry k₁ hk₁).imp_right fun hopen => hopen.of_inode h'.inode
  · exact .inr hopen

/-- A change to the tables alone that copies an entry. -/
theorem Effect.of_table {table : ℕ → fdtable} {j : ℕ} (k : ℕ) (b : ℤ) (hk : (f.table k).busy ≠ 0)
    (htab : table = Function.update f.table j ⟨(f.table k).fds_index, b⟩) :
    Effect f { f with table := table } := by
  subst htab
  refine ⟨fun _ h => h, fun m hm => .inl ?_⟩
  dsimp only at hm ⊢
  rcases eq_or_ne m j with rfl | hne
  · exact ⟨k, hk, by rw [Function.update_self]⟩
  · rw [Function.update_of_ne hne] at hm ⊢
    exact ⟨m, hm, rfl⟩

theorem add_ref_effect {d : BitVec 32} (h : f.add_ref fd d = some g) : Effect f g := by
  obtain ⟨index, -, rfl⟩ := Option.map_eq_some_iff.mp h
  refine ⟨fun i hi => ?_, fun k hk => .inl ⟨k, hk, rfl⟩⟩
  dsimp only
  rcases eq_or_ne i index with rfl | hne
  · rwa [Function.update_self]
  · rwa [Function.update_of_ne hne]

theorem set_entry_effect (hv : f.fd_invaild fd = false) (i : ℕ) :
    Effect f (f.set_entry i (f.entry fd).fds_index) :=
  .of_table fd.toNat 1 (FileCalls.entry_busy hv) rfl

theorem set_busy_effect (hv : f.fd_invaild fd = false) (b : ℤ) : Effect f (f.set_busy fd b) :=
  .of_table fd.toNat b (FileCalls.entry_busy hv) rfl

/-- The inode stays where it is in a slot that is freed. -/
theorem free_fds_effect {fds : ℕ → ext2_file ext2_inode} (h : free_fds f.fds i = some fds) :
    Effect f { f with fds := fds } := by
  unfold free_fds at h
  split_ifs at h
  obtain rfl := Option.some.inj h
  refine ⟨fun j hj => ?_, fun k hk => .inl ⟨k, hk, rfl⟩⟩
  dsimp only
  rcases eq_or_ne j i with rfl | hne
  · rwa [Function.update_self]
  · rwa [Function.update_of_ne hne]

theorem close_effect (h : f.close fd = some (ret, g)) : Effect f g := by
  cases hv : f.fd_invaild fd with
  | true =>
    rw [Files.close, if_pos hv] at h
    rw [← (Prod.mk.inj (Option.some.inj h)).2]
    exact .refl f
  | false =>
    rw [close_eq hv] at h
    obtain ⟨f₁, hadd, h⟩ := Option.bind_eq_some_iff.mp h
    -- the count of the slot is changed first, which leaves the table alone
    have hv₁ : f₁.fd_invaild fd = false := by
      rw [Files.fd_invaild, Files.entry, (add_ref_spec hadd).1]
      exact hv
    refine (add_ref_effect hadd).trans ?_
    split_ifs at h
    · obtain ⟨fds, hfree, hg⟩ := Option.map_eq_some_iff.mp h
      obtain ⟨-, rfl⟩ := Prod.mk.inj hg
      exact (free_fds_effect hfree).trans (set_busy_effect (by exact hv₁) 0)
    · obtain ⟨-, rfl⟩ := Prod.mk.inj (Option.some.inj h)
      exact set_busy_effect hv₁ 0

theorem fcntl_effect (h : f.fcntl fd cmd arg = some (ret, g)) : Effect f g := by
  cases hv : f.fd_invaild fd with
  | true =>
    rw [Files.fcntl, if_pos hv] at h
    rw [← (Prod.mk.inj (Option.some.inj h)).2]
    exact .refl f
  | false =>
    -- only `F_DUPFD` makes a new descriptor, which has the slot of `fd`
    by_cases hcmd : cmd = F_DUPFD
    · rw [Files.fcntl, if_neg (by simp [hv]), if_pos hcmd] at h
      split at h
      · cases h
      split at h
      · rw [← (Prod.mk.inj (Option.some.inj h)).2]
        exact .refl f
      · rw [← (Prod.mk.inj (Option.some.inj h)).2]
        exact .of_table fd.toNat _ (FileCalls.entry_busy hv) rfl
    · rcases fcntl_spec h hcmd with rfl | rfl
      · exact .refl g
      · exact set_busy_effect hv arg

theorem open_effect {found : Option ext2_inode} (h : f.open found flags = some (ret, g)) :
    Effect f g := by
  cases found with
  | none =>
    rw [← (Prod.mk.inj (Option.some.inj h)).2]
    exact .refl f
  | some inode =>
    unfold Files.open at h
    dsimp only at h
    split at h
    · rw [← (Prod.mk.inj (Option.some.inj h)).2]
      exact .refl f
    · next i hi =>
      obtain ⟨⟨slot, fds⟩, hslot, hg⟩ := Option.map_eq_some_iff.mp h
      obtain ⟨hlt, -, rfl⟩ := alloc_fds_some hslot
      obtain ⟨-, rfl⟩ := Prod.mk.inj hg
      refine ⟨fun j hj => ?_, fun k hk => ?_⟩
      · dsimp only
        rcases eq_or_ne j slot with rfl | hne
        · simp
        · rwa [Function.update_of_ne hne, Function.update_of_ne hne]
      · -- the new descriptor has the slot with the new inode
        dsimp only at hk ⊢
        rcases eq_or_ne k i with rfl | hne
        · rw [set_entry_self]
          exact .inr ⟨hlt, .inr (by simp)⟩
        · rw [set_entry_ne f slot hne] at hk ⊢
          exact .inl ⟨k, hk, rfl⟩

theorem dup_effect (h : f.dup oldfd = some (ret, g)) : Effect f g := by
  unfold Files.dup at h
  split at h
  · cases h
  next hv =>
  split at h
  · rw [← (Prod.mk.inj (Option.some.inj h)).2]
    exact .refl f
  · next i hi =>
    obtain ⟨g', hadd, hg⟩ := Option.map_eq_some_iff.mp h
    obtain ⟨-, rfl⟩ := Prod.mk.inj hg
    exact (set_entry_effect (by simpa using hv) i).trans (add_ref_effect hadd)

theorem set_cloexec_effect (h : f.set_cloexec newfd = some (ret, g)) : Effect f g := by
  obtain ⟨⟨get, f₁⟩, hget, h⟩ := Option.bind_eq_some_iff.mp h
  refine (fcntl_effect hget).trans ?_
  dsimp only at h
  split_ifs at h
  · rw [← (Prod.mk.inj (Option.some.inj h)).2]
    exact .refl f₁
  · obtain ⟨⟨set, f₂⟩, hset, h⟩ := Option.map_eq_some_iff.mp h
    dsimp only at h
    split_ifs at h <;> rw [← (Prod.mk.inj h).2] <;> exact fcntl_effect hset

/-- Another descriptor is as good as before when one is closed. -/
theorem close_other (h : f.close newfd = some (ret, g)) (hnew : 0 ≤ newfd)
    (hold : f.fd_invaild oldfd = false) (hne : oldfd ≠ newfd) :
    g.fd_invaild oldfd = false ∧ g.entry oldfd = f.entry oldfd := by
  have hvalid := valid_of_invaild hold
  have hentry : g.entry oldfd = f.entry oldfd := by
    cases hv : f.fd_invaild newfd with
    | true =>
      rw [Files.close, if_pos hv] at h
      rw [← (Prod.mk.inj (Option.some.inj h)).2]
    | false =>
      have hk : oldfd.toNat ≠ newfd.toNat := by
        have := hvalid.nonneg
        omega
      rw [Files.entry, (close_busy hv h).1, set_busy_ne f 0 hk]
      rfl
  refine ⟨?_, hentry⟩
  rw [Files.fd_invaild, hentry]
  exact hold

theorem dup3_effect (h : f.dup3 oldfd newfd flags = some (ret, g)) : Effect f g := by
  unfold Files.dup3 at h
  by_cases heq : oldfd = newfd
  · rw [if_pos heq] at h
    rw [← (Prod.mk.inj (Option.some.inj h)).2]
    exact .refl f
  rw [if_neg heq] at h
  split at h
  · cases h
  next hv =>
  have hold : f.fd_invaild oldfd = false := by simpa using hv
  split at h
  · cases h
  next hrange =>
  obtain ⟨f₁, hf₁, h⟩ := Option.bind_eq_some_iff.mp h
  obtain ⟨f₂, hadd, h⟩ := Option.bind_eq_some_iff.mp h
  -- what was in the place of the new descriptor is closed before
  have hclosed : Effect f f₁ ∧ f₁.fd_invaild oldfd = false := by
    split at hf₁
    · obtain ⟨⟨r, f'⟩, hclose, rfl⟩ := Option.map_eq_some_iff.mp hf₁
      exact ⟨close_effect hclose, (close_other hclose (by omega) hold heq).1⟩
    · obtain rfl := Option.some.inj hf₁
      exact ⟨.refl f, hold⟩
  have hcopied : Effect f f₂ :=
    hclosed.1.trans ((set_entry_effect hclosed.2 newfd.toNat).trans (add_ref_effect hadd))
  split at h
  · exact hcopied.trans (set_cloexec_effect h)
  · obtain rfl := (Prod.mk.inj (Option.some.inj h)).2
    exact hcopied

theorem perform_effect {c : FileCalls.Call ext2_inode} (h : c.perform f = some (ret, g)) :
    Effect f g := by
  cases c with
  | «open» found flags => exact open_effect h
  | dup oldfd => exact dup_effect h
  | dup3 oldfd newfd flags => exact dup3_effect h
  | fcntl fd cmd arg => exact fcntl_effect h
  | close fd => exact close_effect h

/-! ### The invariant -/

/-- Every busy descriptor of a process is bound to a slot of the console or of a file. -/
def Inv (s : Sys) : Prop :=
  ∀ t table, s.tables t = some table → ∀ k, (table k).busy ≠ 0 → Opened s.fds (table k).fds_index

theorem onFiles_eq_ok {c : FileCalls.Call ext2_inode} {r : Result} (h : onFiles v c = .ok r) :
    ∃ g, c.perform v.files = some (r.ret, g) ∧ r.printed = [] ∧
      r.sys = { v with files := g } := by
  unfold onFiles at h
  split at h
  · cases h
  · next ret g hg =>
    obtain rfl := Except.ok.inj h
    exact ⟨g, hg, rfl, rfl⟩

theorem read_files {buf buf' : Mem} {count n : ℕ} {v' : FileReads.Sys}
    (h : read v fd buf count = .ok (n, buf', v')) : v'.files = v.files := by
  unfold read at h
  split_ifs at h
  · rw [← (Prod.mk.inj (Prod.mk.inj (Except.ok.inj h)).2).2]
  split at h
  · cases h
  split_ifs at h
  · rw [← (Prod.mk.inj (Prod.mk.inj (Except.ok.inj h)).2).2]
  split at h
  · cases h
  dsimp only at h
  split at h
  · rw [← (Prod.mk.inj (Prod.mk.inj (Except.ok.inj h)).2).2]
  · cases h

/-- **A call** changes slots and entries as [`Effect`] says. -/
theorem Call.effect {r : Result} (h : c.perform v = .ok r) : Effect v.files r.sys.files := by
  have hfiles : ∀ {c' : FileCalls.Call ext2_inode}, onFiles v c' = .ok r →
      Effect v.files r.sys.files := by
    intro c' h'
    obtain ⟨g, hg, -, hsys⟩ := onFiles_eq_ok h'
    rw [hsys]
    exact perform_effect hg
  cases c with
  | «open» found flags => exact hfiles h
  | close fd => exact hfiles h
  | read fd buf count =>
    rw [Call.perform] at h
    cases hread : FdCalls.read v fd buf count with
    | error err =>
      rw [hread] at h
      cases h
    | ok r' =>
      rw [hread] at h
      obtain rfl := Except.ok.inj h
      simp only [read_files hread]
      exact .refl _
  | write fd buf count =>
    rw [Call.perform] at h
    split at h
    · cases h
    · obtain rfl := Except.ok.inj h
      exact .refl _
  | dup oldfd => exact hfiles h
  | dup3 oldfd newfd flags => exact hfiles h
  | fcntl fd cmd arg => exact hfiles h

theorem fdtable_alloc_opened (fds : ℕ → ext2_file ext2_inode) (i : ℕ)
    (h : (fdtable_alloc i).busy ≠ 0) : Opened fds (fdtable_alloc i).fds_index := by
  have hle := (@Descriptors.fdtable_alloc_holds i ((fdtable_alloc i).fds_index, none)
    ⟨?_, h, rfl⟩).1
  · exact ⟨Nat.lt_of_le_of_lt hle (by decide), .inl hle⟩
  · by_contra hlt
    apply h
    unfold MAX_FDTABLE at hlt
    unfold fdtable_alloc STDIN STDOUT STDERR
    split_ifs <;> first | omega | rfl

/-- One table was replaced by another with the same property. -/
theorem inv_update {fds : ℕ → ext2_file ext2_inode} {tables : ℕ → Option (ℕ → fdtable)} {t₀ : ℕ}
    {table₀ : ℕ → fdtable}
    (hold : ∀ t table, tables t = some table → ∀ k, (table k).busy ≠ 0 →
      Opened fds (table k).fds_index)
    (hnew : ∀ k, (table₀ k).busy ≠ 0 → Opened fds (table₀ k).fds_index) (t : ℕ)
    (table : ℕ → fdtable) (htab : Function.update tables t₀ (some table₀) t = some table) (k : ℕ)
    (hk : (table k).busy ≠ 0) : Opened fds (table k).fds_index := by
  rcases eq_or_ne t t₀ with rfl | hne
  · rw [Function.update_self] at htab
    obtain rfl := Option.some.inj htab
    exact hnew k hk
  · rw [Function.update_of_ne hne] at htab
    exact hold t table htab k hk

theorem Inv.of_step (hs : Inv s) (h : step s e = some s') : Inv s' := by
  cases e with
  | fdtable_alloc t₀ =>
    rw [step] at h
    split at h
    · cases h
    obtain rfl := Option.some.inj h
    exact inv_update hs (fdtable_alloc_opened s.fds)
  | call t₀ c =>
    obtain ⟨table₀, htab₀, h⟩ := Option.bind_eq_some_iff.mp h
    obtain ⟨r, hr, rfl⟩ := Option.map_eq_some_iff.mp h
    have heff := Call.effect (toOption_eq_some.mp hr)
    refine inv_update (fun t table htab k hk => (hs t table htab k hk).of_inode heff.inode) ?_
    intro k hk
    rcases heff.entry k hk with ⟨k', hk', hslot⟩ | hopen
    · rw [hslot]
      exact (hs t₀ table₀ htab₀ k' hk').of_inode heff.inode
    · exact hopen

/-! ### When the calls return -/

theorem exists_add_ref (h : (f.entry fd).busy ≠ 0) (d : BitVec 32) :
    ∃ g, f.add_ref fd d = some g := by
  rw [Files.add_ref, Files.fd_to_fds, if_neg h]
  exact ⟨_, rfl⟩

theorem close_returns_iff :
    f.close fd ≠ none ↔ (f.fd_invaild fd = false → ClosesOnce f fd) := by
  cases hv : f.fd_invaild fd with
  | true =>
    rw [Files.close, if_pos hv]
    simp
  | false =>
    obtain ⟨f₁, hadd⟩ := exists_add_ref (FileCalls.entry_busy hv) (-1)
    rw [close_eq hv, hadd, Option.bind_some]
    simp only [true_imp_iff, ClosesOnce]
    by_cases hfrees : f.CloseFrees fd
    · -- the slot is freed, which has to be allocated
      rw [if_pos hfrees, free_fds, (add_ref_spec hadd).2]
      by_cases halloc : (f.fds (f.entry fd).fds_index).alloc = 1
      · simp [halloc]
      · simp [halloc, hfrees]
    · simp [hfrees]

theorem dup_returns_iff : f.dup oldfd ≠ none ↔ f.fd_invaild oldfd = false := by
  cases hv : f.fd_invaild oldfd with
  | true => simp [Files.dup, hv]
  | false =>
    rw [Files.dup, if_neg (by simp [hv])]
    cases hi : f.first_unused 0 MAX_FDTABLE with
    | none => simp
    | some i =>
      -- the entry that was written had not been busy, so it is another one
      have hbusy : ((f.set_entry i (f.entry oldfd).fds_index).entry oldfd).busy ≠ 0 := by
        have hne : oldfd.toNat ≠ i := by
          rintro rfl
          exact FileCalls.entry_busy hv (first_unused_some hi).2
        rw [Files.entry, set_entry_ne f _ hne]
        exact FileCalls.entry_busy hv
      obtain ⟨g, hg⟩ := exists_add_ref hbusy 1
      dsimp only
      rw [hg]
      simp

theorem fcntl_returns_iff :
    f.fcntl fd cmd arg ≠ none ↔ (f.fd_invaild fd = false → cmd = F_DUPFD → 0 ≤ arg) := by
  cases hv : f.fd_invaild fd with
  | true => simp [Files.fcntl, hv]
  | false =>
    by_cases hcmd : cmd = F_DUPFD
    · rw [Files.fcntl, if_neg (by simp [hv]), if_pos hcmd]
      by_cases harg : arg < 0
      · simp [harg, hcmd]
      · rw [if_neg harg]
        cases f.first_unused arg MAX_FILES <;> simp [hcmd, not_lt.mp harg]
    · rw [Files.fcntl, if_neg (by simp [hv]), if_neg hcmd]
      split_ifs <;> simp [hcmd]

theorem set_cloexec_returns (hv : f.fd_invaild newfd = false) (h : (f.entry newfd).busy = 1) :
    f.set_cloexec newfd ≠ none := by
  rw [set_cloexec_busy hv h]
  exact Option.some_ne_none _

/-- What comes behind the `close` in `dup3` returns. -/
theorem dup3_rest_returns (hold : f.fd_invaild oldfd = false) (h0 : 0 ≤ newfd)
    (hlt : newfd < MAX_FDTABLE) (heq : oldfd ≠ newfd) :
    (((f.set_entry newfd.toNat (f.entry oldfd).fds_index).add_ref oldfd 1).bind fun g =>
      if flags &&& O_CLOEXEC ≠ 0 then g.set_cloexec newfd else some (newfd, g)) ≠ none := by
  have hne : oldfd.toNat ≠ newfd.toNat := by
    have := (valid_of_invaild hold).nonneg
    omega
  -- the entry that was written is not the one that is counted
  have hbusy : ((f.set_entry newfd.toNat (f.entry oldfd).fds_index).entry oldfd).busy ≠ 0 := by
    rw [Files.entry, set_entry_ne f _ hne]
    exact FileCalls.entry_busy hold
  obtain ⟨g, hg⟩ := exists_add_ref hbusy 1
  rw [hg, Option.bind_some]
  split
  · have hone : (g.entry newfd).busy = 1 := by
      rw [Files.entry, (add_ref_spec hg).1, set_entry_self]
    refine set_cloexec_returns (fd_invaild_of_valid ⟨h0, by omega, ?_⟩) hone
    rw [show (g.table newfd.toNat).busy = 1 from hone]
    decide
  · exact Option.some_ne_none _

theorem dup3_returns_iff : f.dup3 oldfd newfd flags ≠ none ↔
    (oldfd ≠ newfd → f.fd_invaild oldfd = false ∧ 0 ≤ newfd ∧ newfd < MAX_FDTABLE ∧
      ((f.entry newfd).busy = 1 → ClosesOnce f newfd)) := by
  by_cases heq : oldfd = newfd
  · simp [Files.dup3, heq]
  cases hv : f.fd_invaild oldfd with
  | true => simp [Files.dup3, heq, hv]
  | false =>
    by_cases hrange : newfd < 0 ∨ newfd ≥ MAX_FDTABLE
    · rw [Files.dup3, if_neg heq, if_neg (by simp [hv]), if_pos hrange]
      have : ¬ (0 ≤ newfd ∧ newfd < MAX_FDTABLE) := by omega
      simp only [ne_eq, not_true_eq_false, heq, not_false_eq_true, true_imp_iff, true_and,
        false_iff, not_and]
      exact fun h0 hlt => absurd ⟨h0, hlt⟩ this
    · -- with both descriptors in the table, only the `close` can panic
      have h0 : 0 ≤ newfd := by omega
      have hlt : newfd < MAX_FDTABLE := by omega
      rw [Files.dup3, if_neg heq, if_neg (by simp [hv]), if_neg hrange]
      by_cases hbusy : (f.entry newfd).busy = 1
      · have hnew : f.fd_invaild newfd = false := by
          refine fd_invaild_of_valid ⟨h0, by omega, ?_⟩
          rw [show (f.table newfd.toNat).busy = 1 from hbusy]
          decide
        have hiff := @close_returns_iff f newfd
        simp only [hnew, true_imp_iff] at hiff
        rw [if_pos hbusy]
        simp only [ne_eq, heq, not_false_eq_true, h0, hlt, hbusy, true_imp_iff, true_and, ← hiff]
        cases hclose : f.close newfd with
        | none => simp
        | some r =>
          have := @dup3_rest_returns r.2 _ _ flags (close_other hclose h0 hv heq).1 h0 hlt heq
          simpa using this
      · rw [if_neg hbusy, Option.bind_some]
        have := @dup3_rest_returns f _ _ flags hv h0 hlt heq
        simp only [ne_eq, heq, not_false_eq_true, h0, hlt, hbusy, false_imp_iff, true_imp_iff,
          and_true, iff_true]
        exact this

/-! ### One call -/

theorem onFiles_safe_iff {c : FileCalls.Call ext2_inode} :
    onFiles v c ≠ .error .fault ↔ c.perform v.files ≠ none := by
  unfold onFiles
  cases c.perform v.files <;> simp

theorem onFiles_none {c : FileCalls.Call ext2_inode}
    (h : c.perform v.files = some (-1, v.files)) : onFiles v c = .ok ⟨-1, [], v⟩ := by
  rw [onFiles, h]

theorem fd_to_fds_valid (hv : f.fd_invaild fd = false) :
    f.fd_to_fds fd = some (f.entry fd).fds_index := by
  rw [Files.fd_to_fds, if_neg (FileCalls.entry_busy hv)]

/-- `read` through a null pointer: from a slot that is not of the standard input. -/
theorem read_safe_iff {buf : Mem} {count : ℕ} :
    read v fd buf count ≠ .error .fault ↔ (v.files.fd_invaild fd = false →
      (v.files.entry fd).fds_index ≠ STDIN →
        (v.files.fds (v.files.entry fd).fds_index).f_inode ≠ none) := by
  cases hv : v.files.fd_invaild fd with
  | true => simp [read, hv]
  | false =>
    rw [read, if_neg (by simp [hv]), fd_to_fds_valid hv]
    dsimp only
    by_cases hin : (v.files.entry fd).fds_index = STDIN
    · simp [hin]
    · rw [if_neg hin]
      cases (v.files.fds (v.files.entry fd).fds_index).f_inode with
      | none => simp [hin]
      | some inode =>
        dsimp only
        split <;> simp

theorem write_safe (f : Files ext2_inode) (fd : ℤ) (buf : Mem) (count : ℕ) :
    write f fd buf count ≠ none := by
  cases hv : f.fd_invaild fd with
  | true => simp [write, hv]
  | false => simp [write, hv, fd_to_fds_valid hv]

/-- Every busy descriptor of the process is bound to a slot of the console or of a file. -/
def SlotsOpened (f : Files ext2_inode) : Prop :=
  ∀ k, (f.table k).busy ≠ 0 → Opened f.fds (f.table k).fds_index

theorem SlotsOpened.entry (h : SlotsOpened f) (hv : f.fd_invaild fd = false) :
    Opened f.fds (f.entry fd).fds_index := h fd.toNat (FileCalls.entry_busy hv)

/-- Where bad descriptors are dealt with, it is the faults that are left. -/
theorem sound_iff_safe (hslots : SlotsOpened v.files)
    (hinv : c.Invalid v.files → c.perform v = .ok ⟨-1, [], v⟩) :
    Sound v c ↔ c.perform v ≠ .error .fault :=
  ⟨Sound.safe, fun hsafe => ⟨hsafe, fun _ hv => (hslots.entry hv).1, hinv⟩⟩

theorem close_invalid (hv : f.fd_invaild fd = true) : f.close fd = some (-1, f) := if_pos hv

theorem fcntl_invalid (hv : f.fd_invaild fd = true) : f.fcntl fd cmd arg = some (-1, f) :=
  if_pos hv

theorem read_sound_iff (hslots : SlotsOpened v.files) {buf : Mem} {count : ℕ} :
    Sound v (.read fd buf count) ↔ (Call.read fd buf count).Allowed v.files := by
  have hinv (hv : (Call.read fd buf count).Invalid v.files) :
      (Call.read fd buf count).perform v = .ok ⟨-1, [], v⟩ := by
    rw [Call.Invalid] at hv
    rw [Call.perform, FdCalls.read, if_pos hv]
    rfl
  have hsafe : (Call.read fd buf count).perform v ≠ .error .fault ↔
      FdCalls.read v fd buf count ≠ .error .fault := by
    rw [Call.perform]
    cases FdCalls.read v fd buf count <;> simp [Except.map]
  rw [sound_iff_safe hslots hinv, hsafe, read_safe_iff]
  refine forall_congr' fun hv => ⟨fun h hout => h ?_, fun h hin => ?_⟩
  · rcases hout with hout | hout <;> rw [hout] <;> decide
  · -- behind the three slots of the console there is always an inode
    rcases (hslots.entry hv).2 with hle | hinode
    · refine h ?_
      unfold STDIN at hin
      unfold STDERR at hle
      unfold STDOUT STDERR
      omega
    · exact hinode

theorem write_sound (hslots : SlotsOpened v.files) (fd : ℤ) (buf : Mem) (count : ℕ) :
    Sound v (.write fd buf count) := by
  have hinv (hv : (Call.write fd buf count).Invalid v.files) :
      (Call.write fd buf count).perform v = .ok ⟨-1, [], v⟩ := by
    rw [Call.Invalid] at hv
    rw [Call.perform, FdCalls.write, if_pos hv]
    rfl
  rw [sound_iff_safe hslots hinv, Call.perform]
  have hsafe := write_safe v.files fd buf count
  cases hw : FdCalls.write v.files fd buf count with
  | none => exact absurd hw hsafe
  | some r => simp

theorem dup_sound_iff (hslots : SlotsOpened v.files) :
    Sound v (.dup oldfd) ↔ v.files.fd_invaild oldfd = false := by
  constructor
  · exact fun h => dup_returns_iff.mp (onFiles_safe_iff.mp h.safe)
  · intro h
    have hinv (hv : (Call.dup oldfd).Invalid v.files) :
        (Call.dup oldfd).perform v = .ok ⟨-1, [], v⟩ := by
      rw [Call.Invalid, h] at hv
      cases hv
    exact (sound_iff_safe hslots hinv).mpr (onFiles_safe_iff.mpr (dup_returns_iff.mpr h))

/-- `dup3` of a descriptor to itself returns it without a look. -/
theorem dup3_same_sound_iff (hslots : SlotsOpened v.files) :
    Sound v (.dup3 oldfd oldfd flags) ↔ v.files.fd_invaild oldfd = false ∨ oldfd = -1 := by
  have hperf : (Call.dup3 oldfd oldfd flags).perform v = .ok ⟨oldfd, [], v⟩ := by
    rw [Call.perform, onFiles, FileCalls.Call.perform, Files.dup3, if_pos rfl]
  have hsafe : (Call.dup3 oldfd oldfd flags).perform v ≠ .error .fault := by
    rw [hperf]
    simp
  cases hv : v.files.fd_invaild oldfd with
  | true =>
    -- it returns -1 when that is the descriptor
    constructor
    · intro h
      have := h.invalid (.inl hv)
      rw [hperf] at this
      exact .inr (congrArg Result.ret (Except.ok.inj this))
    · rintro (h | rfl)
      · cases h
      · exact (sound_iff_safe hslots fun _ => hperf).mpr hsafe
  | false =>
    refine iff_of_true ((sound_iff_safe hslots fun hbad => ?_).mpr hsafe) (.inl rfl)
    have hvalid := valid_of_invaild hv
    have hlt := hvalid.lt
    have h0 := hvalid.nonneg
    rw [Call.Invalid, hv] at hbad
    rcases hbad with hbad | hbad
    · cases hbad
    · omega

theorem dup3_sound_iff (hslots : SlotsOpened v.files) :
    Sound v (.dup3 oldfd newfd flags) ↔ (Call.dup3 oldfd newfd flags).Allowed v.files := by
  by_cases heq : oldfd = newfd
  · subst heq
    rw [dup3_same_sound_iff hslots, Call.Allowed, if_pos rfl]
  · have hiff := @dup3_returns_iff v.files oldfd newfd flags
    rw [Call.Allowed, if_neg heq]
    constructor
    · exact fun h => hiff.mp (onFiles_safe_iff.mp h.safe) heq
    · intro h
      have hinv (hbad : (Call.dup3 oldfd newfd flags).Invalid v.files) :
          (Call.dup3 oldfd newfd flags).perform v = .ok ⟨-1, [], v⟩ := by
        rw [Call.Invalid, h.1] at hbad
        have h0 := h.2.1
        have hlt := h.2.2.1
        rcases hbad with hbad | hbad
        · cases hbad
        · omega
      exact (sound_iff_safe hslots hinv).mpr (onFiles_safe_iff.mpr (hiff.mpr fun _ => h))

/-- **One call is sound exactly when it is allowed.** -/
theorem sound_iff (hslots : SlotsOpened v.files) (hc : ∀ found flags, c ≠ .open found flags) :
    Sound v c ↔ c.Allowed v.files := by
  cases c with
  | «open» found flags => exact absurd rfl (hc found flags)
  | close fd =>
    have hinv (hv : (Call.close fd).Invalid v.files) :
        (Call.close fd).perform v = .ok ⟨-1, [], v⟩ := onFiles_none (close_invalid hv)
    rw [sound_iff_safe hslots hinv]
    exact onFiles_safe_iff.trans close_returns_iff
  | read fd buf count => exact read_sound_iff hslots
  | write fd buf count => exact iff_of_true (write_sound hslots fd buf count) trivial
  | dup oldfd => exact dup_sound_iff hslots
  | dup3 oldfd newfd flags => exact dup3_sound_iff hslots
  | fcntl fd cmd arg =>
    have hinv (hv : (Call.fcntl fd cmd arg).Invalid v.files) :
        (Call.fcntl fd cmd arg).perform v = .ok ⟨-1, [], v⟩ := onFiles_none (fcntl_invalid hv)
    rw [sound_iff_safe hslots hinv]
    exact onFiles_safe_iff.trans fcntl_returns_iff

/-! ## Main results -/

theorem Inv.init (dev : Dev) (block_size : ℕ) (console : ℕ → ℕ → List UInt8) :
    Inv (init dev block_size console) := by
  intro t table htab
  cases htab

/-- **The calls of a run are sound exactly when all of them are allowed.** -/
theorem calls_sound_iff (dev : Dev) (block_size : ℕ) (console : ℕ → ℕ → List UInt8)
    (es : List Event) :
    Meets step SoundEvent (init dev block_size console) es ↔
      Meets step AllowedEvent (init dev block_size console) es := by
  refine meets_congr Inv (fun _ _ _ hs _ h => hs.of_step h) (fun s e hs => ?_)
    (Inv.init dev block_size console)
  cases e with
  | fdtable_alloc t => exact Iff.rfl
  | call t c =>
    have hcall (hc : ∀ found flags, c ≠ .open found flags) :
        (∀ table, s.tables t = some table → Sound (s.view table) c) ↔
          ∀ table, s.tables t = some table → c.Allowed ⟨s.fds, table⟩ :=
      forall_congr' fun table => forall_congr' fun htab =>
        sound_iff (v := s.view table) (hs t table htab) hc
    cases c with
    | «open» found flags => exact iff_of_true trivial fun _ _ => trivial
    | _ => exact hcall fun _ _ => nofun

/-- A disk of zeros. -/
def no_disk : Dev := ⟨fun _ => 0, fun _ => 0, fun _ => .done, fun _ _ => 0, 0⟩

/-- **`dup(-1)` panics.** -/
theorem dup_bad_descriptor : ¬ Meets step SoundEvent (init no_disk 1024 fun _ _ => [])
    [.fdtable_alloc 0, .call 0 (.dup (-1))] := by
  intro h
  have hsound : Sound _ (.dup (-1)) := (h.2 _ rfl).1 fdtable_alloc rfl
  exact hsound.safe rfl

end Loos.FdCalls
