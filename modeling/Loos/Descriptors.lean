/-
File descriptors over whole runs.

A state is the table `fds` and the `fdtable` of every process, by the address
of its page (a child made by `fork`, or a task that calls `exec`, goes on with
the table of its parent, so two processes may have one table). A run creates
tables and makes calls.

The number `calls` of calls so far and the map `origin` are ghosts. `origin t fd`
is the number of the `open` that `fd` comes from, itself or through `dup`, `dup3`
and `F_DUPFD`, and `none` for a descriptor that comes from the console. [`SlotsOk`] says that a descriptor
in use has an allocated slot, which it shares with its duplicates only.

`open` leaves the count of its slot at 0 and the first duplicate makes it 1, so
the `close` that brings it back to 0 frees the slot under the descriptors that
remain. What keeps a run clear of this is [`KeepsSlots`].
-/
import Loos.Ext2Fs
import Loos.Lib.Runs

set_option autoImplicit false

namespace Loos.Descriptors

open SysLib Ext2Fs

variable {Inode : Type*}

/-! ## States and events -/

/-- The slots, the tables, the number of calls, and where each descriptor comes from. -/
structure Sys (Inode : Type*) where
  fds : ℕ → ext2_file Inode
  tables : ℕ → Option (ℕ → fdtable)
  calls : ℕ
  origin : ℕ → ℕ → Option ℕ

/-- After `fs_init` and `proc_init`, which allocates the table at `t` twice,
first at `t'`. -/
def init (t' t : ℕ) : Sys Inode where
  fds := fs_init
  tables := Function.update (Function.update (fun _ => none) t' (some fdtable_alloc)) t
    (some fdtable_alloc)
  calls := 0
  origin := fun _ _ => none

/-- A call on descriptors; of `open` what the path lookup finds. -/
inductive Call (Inode : Type*) where
  | open (found : Option Inode) (flags : ℕ)
  | dup (oldfd : ℤ)
  | dup3 (oldfd newfd : ℤ) (flags : ℕ)
  | fcntl (fd arg : ℤ)
  | close (fd : ℤ)

/-- The call by a process; `fcntl` is called for `F_DUPFD`. -/
def Call.perform (f : Files Inode) : Call Inode → Option (ℤ × Files Inode)
  | .open found flags => f.open found flags
  | .dup oldfd => f.dup oldfd
  | .dup3 oldfd newfd flags => f.dup3 oldfd newfd flags
  | .fcntl fd arg => f.fcntl fd F_DUPFD arg
  | .close fd => f.close fd

/-- Where the descriptors come from after a call that returns `ret`. -/
def Call.origin (n : ℕ) (o : ℕ → Option ℕ) (ret : ℤ) : Call Inode → ℕ → Option ℕ
  | .open _ _ => if ret = -1 then o else Function.update o ret.toNat (some n)
  | .dup oldfd => if ret = -1 then o else Function.update o ret.toNat (o oldfd.toNat)
  | .dup3 oldfd newfd _ => Function.update o newfd.toNat (o oldfd.toNat)
  | .fcntl fd _ => if ret = -1 then o else Function.update o ret.toNat (o fd.toNat)
  | .close _ => o

/-- What happens to descriptors. -/
inductive Event (Inode : Type*) where
  | fdtable_alloc (t : ℕ)
  | call (t : ℕ) (c : Call Inode)

/-- One event; `none` if it is not possible or ends in a `panic`. -/
def step (s : Sys Inode) : Event Inode → Option (Sys Inode)
  | .fdtable_alloc t =>
    match s.tables t with
    | some _ => none
    | none => some { s with
        tables := Function.update s.tables t (some fdtable_alloc)
        origin := Function.update s.origin t fun _ => none }
  | .call t c => (s.tables t).bind fun table => (c.perform ⟨s.fds, table⟩).map fun r =>
      { fds := r.2.fds
        tables := Function.update s.tables t (some r.2.table)
        calls := s.calls + 1
        origin := Function.update s.origin t (c.origin s.calls (s.origin t) r.1) }

/-! ## Properties -/

/-- `fd` is busy in a table, with the slot `d.1`, and comes from `d.2`. -/
def Holds (table : ℕ → fdtable) (o : ℕ → Option ℕ) (fd : ℕ) (d : ℕ × Option ℕ) : Prop :=
  fd < MAX_FDTABLE ∧ (table fd).busy ≠ 0 ∧ d = ((table fd).fds_index, o fd)

/-- `fd` is busy in the table `t`, its slot is `slot`, and it comes from `o`. -/
def Sys.Descriptor (s : Sys Inode) (t fd slot : ℕ) (o : Option ℕ) : Prop :=
  ∃ table, s.tables t = some table ∧ Holds table (s.origin t) fd (slot, o)

/-- The slot of every descriptor is allocated, and descriptors of different
`open` calls have different slots. -/
structure SlotsOk (s : Sys Inode) : Prop where
  alloc : ∀ t fd slot o, s.Descriptor t fd slot o → slot < MAX_FILES ∧ (s.fds slot).alloc = 1
  apart : ∀ t fd slot n t' fd' slot' n', s.Descriptor t fd slot (some n) →
    s.Descriptor t' fd' slot' (some n') → n ≠ n' → slot ≠ slot'

/-- The call does not close a descriptor whose slot has a count of 1 (and no
pipe flag), neither in `close` nor on the way in `dup3`. -/
def Call.KeepsSlots (f : Files Inode) : Call Inode → Prop
  | .close fd => f.fd_invaild fd = false → ¬ f.CloseFrees fd
  | .dup3 oldfd newfd _ => oldfd ≠ newfd → (f.entry newfd).busy = 1 → ¬ f.CloseFrees newfd
  | _ => True

instance (f : Files Inode) : ∀ c : Call Inode, Decidable (c.KeepsSlots f)
  | .close _ => inferInstanceAs (Decidable (_ → _))
  | .dup3 _ _ _ => inferInstanceAs (Decidable (_ → _ → _))
  | .open _ _ | .dup _ | .fcntl _ _ => .isTrue trivial

/-- No slot is freed by a call on an existing table. -/
def KeepsSlots (s : Sys Inode) : Event Inode → Prop
  | .fdtable_alloc _ => True
  | .call t c => ∀ table ∈ s.tables t, c.KeepsSlots ⟨s.fds, table⟩

instance (s : Sys Inode) : ∀ e : Event Inode, Decidable (KeepsSlots s e)
  | .fdtable_alloc _ => .isTrue trivial
  | .call t c => match h : s.tables t with
    | none => .isTrue fun table ht => by rw [h] at ht; exact absurd ht (Option.not_mem_none _)
    | some table => decidable_of_iff (c.KeepsSlots ⟨s.fds, table⟩)
        ⟨fun hc _ ht => by rw [h] at ht; exact Option.some.inj ht ▸ hc, fun hc => hc table h⟩

/-! ## One call -/

variable {f g : Files Inode} {c : Call Inode} {s s' : Sys Inode} {e : Event Inode}
  {es : List (Event Inode)} {o o' : ℕ → Option ℕ} {n t t' fd slot : ℕ} {ret : ℤ}

/-- What a call that frees no slot can do: slots stay allocated, and a
descriptor is one that was there, or a copy of one, or comes from the `open`
number `n` and has a slot that was free. -/
structure Effect (n : ℕ) (f : Files Inode) (o : ℕ → Option ℕ) (g : Files Inode)
    (o' : ℕ → Option ℕ) : Prop where
  alloc : ∀ i, (f.fds i).alloc = 1 → (g.fds i).alloc = 1
  held : ∀ fd d, Holds g.table o' fd d → (∃ fd', Holds f.table o fd' d) ∨
    (d.2 = some n ∧ d.1 < MAX_FILES ∧ (f.fds d.1).alloc = 0 ∧ (g.fds d.1).alloc = 1)

/-- A change that only drops descriptors. -/
theorem Effect.drop (halloc : SameAlloc f g)
    (h : ∀ fd, (g.table fd).busy ≠ 0 → g.table fd = f.table fd) : Effect n f o g o := by
  refine ⟨fun i hi => (halloc i).trans hi, fun fd d hd => .inl ⟨fd, ?_⟩⟩
  obtain ⟨hlt, hbusy, rfl⟩ := hd
  have he := h fd hbusy
  exact ⟨hlt, he ▸ hbusy, by rw [he]⟩

theorem Effect.refl : Effect n f o f o := .drop (fun _ => rfl) fun _ _ => rfl

/-- A change that makes `j` a copy of `i`. -/
theorem Effect.copy {i j : ℕ} (h : Copied f g i j) :
    Effect n f o g (Function.update o j (o i)) := by
  refine ⟨fun k hk => (h.alloc k).trans hk, fun fd d hd => .inl ?_⟩
  obtain ⟨hlt, hbusy, rfl⟩ := hd
  rcases eq_or_ne fd j with rfl | hne
  · exact ⟨i, h.lt_source, h.busy, by rw [h.index, Function.update_self]⟩
  · rw [h.other fd hne] at hbusy ⊢
    exact ⟨fd, hlt, hbusy, by rw [Function.update_of_ne hne]⟩

/-- A change that makes `i` the descriptor of a slot that was free. -/
theorem Effect.take {i : ℕ} (hlt : slot < MAX_FILES) (hfree : (f.fds slot).alloc = 0)
    (hg : (g.fds slot).alloc = 1) (hsame : ∀ k, k ≠ slot → (g.fds k).alloc = (f.fds k).alloc)
    (htab : g.table = (f.set_entry i slot).table) :
    Effect n f o g (Function.update o i (some n)) := by
  refine ⟨fun k hk => ?_, fun fd d hd => ?_⟩
  · refine (hsame k ?_).trans hk
    rintro rfl
    exact absurd (hfree.symm.trans hk) (by decide)
  · obtain ⟨hfd, hbusy, rfl⟩ := hd
    rw [htab] at hbusy ⊢
    rcases eq_or_ne fd i with rfl | hne
    · rw [set_entry_self, Function.update_self]
      exact .inr ⟨rfl, hlt, hfree, hg⟩
    · rw [set_entry_ne f slot hne] at hbusy ⊢
      exact .inl ⟨fd, hfd, hbusy, by rw [Function.update_of_ne hne]⟩

/-- **One call.** -/
theorem Call.effect (h : c.perform f = some (ret, g)) (hc : c.KeepsSlots f) :
    Effect n f o g (c.origin n o ret) := by
  cases c with
  | «open» found flags =>
    rcases open_spec h with ⟨rfl, rfl⟩ | ⟨i, slot, rfl, -, hlt, hfree, hg, hsame, htab⟩
    · exact .refl
    · rw [Call.origin, if_neg (by omega)]
      exact .take hlt hfree hg hsame htab
  | dup oldfd =>
    rcases dup_spec h with ⟨rfl, rfl⟩ | ⟨j, rfl, hcopy⟩
    · exact .refl
    · rw [Call.origin, if_neg (by omega)]
      exact .copy hcopy
  | dup3 oldfd newfd flags =>
    rcases dup3_spec h hc with ⟨rfl, rfl⟩ | hcopy
    · rw [Call.origin, Function.update_eq_self]
      exact .refl
    · exact .copy hcopy
  | fcntl fd arg =>
    rcases fcntl_dupfd_spec h with ⟨rfl, rfl⟩ | ⟨j, rfl, hcopy⟩
    · exact .refl
    · rw [Call.origin, if_neg (by omega)]
      exact .copy hcopy
  | close fd =>
    rcases close_spec h hc with ⟨halloc, htab⟩
    refine .drop halloc fun k hbusy => ?_
    rcases htab with htab | htab
    · rw [htab]
    · rw [htab] at hbusy ⊢
      rcases eq_or_ne k fd.toNat with rfl | hne
      · rw [set_busy_self] at hbusy
        exact absurd rfl hbusy
      · exact set_busy_ne f 0 hne

/-! ## Runs -/

/-- What holds in a run that frees no slot: descriptors with the same slot come
from the same `open`, and the console keeps its slots. -/
structure Inv (s : Sys Inode) : Prop where
  alloc : ∀ t fd slot o, s.Descriptor t fd slot o → slot < MAX_FILES ∧ (s.fds slot).alloc = 1
  same : ∀ t fd slot o t' fd' o', s.Descriptor t fd slot o → s.Descriptor t' fd' slot o' → o = o'
  console : ∀ slot ≤ STDERR, (s.fds slot).alloc = 1
  console_origin : ∀ t fd slot o, slot ≤ STDERR → s.Descriptor t fd slot o → o = none

theorem Inv.slotsOk (h : Inv s) : SlotsOk s := by
  refine ⟨h.alloc, fun t fd slot n t' fd' slot' n' hd hd' hne he => hne ?_⟩
  subst he
  exact Option.some.inj (h.same _ _ _ _ _ _ _ hd hd')

/-- A descriptor of a new table is one of the console. -/
theorem fdtable_alloc_holds {d : ℕ × Option ℕ} (h : Holds fdtable_alloc (fun _ => none) fd d) :
    d.1 ≤ STDERR ∧ d.2 = none := by
  obtain ⟨-, hbusy, rfl⟩ := h
  refine ⟨?_, rfl⟩
  unfold fdtable_alloc STDIN STDOUT STDERR at *
  split_ifs at hbusy ⊢ <;> simp_all

/-- A descriptor after a table was replaced is one of the new table, or was there before. -/
theorem Sys.Descriptor.of_update {t₀ t fd slot : ℕ} {table₀ : ℕ → fdtable} {o₀ : ℕ → Option ℕ}
    {o : Option ℕ} (hd : s'.Descriptor t fd slot o)
    (htables : s'.tables = Function.update s.tables t₀ (some table₀))
    (horigin : s'.origin = Function.update s.origin t₀ o₀) :
    (t = t₀ ∧ Holds table₀ o₀ fd (slot, o)) ∨ s.Descriptor t fd slot o := by
  obtain ⟨table, htab, hd⟩ := hd
  rw [htables] at htab
  rw [horigin] at hd
  rcases eq_or_ne t t₀ with rfl | hne
  · rw [Function.update_self] at htab hd
    obtain rfl := Option.some.inj htab
    exact .inl ⟨rfl, hd⟩
  · rw [Function.update_of_ne hne] at htab hd
    exact .inr ⟨table, htab, hd⟩

/-- **One event.** Slots stay allocated, and a descriptor was there before, or
is one of the console, or has a slot that was free. -/
theorem step_descriptor (h : step s e = some s') (he : KeepsSlots s e) :
    (∀ i, (s.fds i).alloc = 1 → (s'.fds i).alloc = 1) ∧
      ∀ t fd slot o, s'.Descriptor t fd slot o →
        (∃ t' fd', s.Descriptor t' fd' slot o) ∨ (slot ≤ STDERR ∧ o = none) ∨
          (o = some s.calls ∧ slot < MAX_FILES ∧ (s.fds slot).alloc = 0 ∧
            (s'.fds slot).alloc = 1) := by
  cases e with
  | fdtable_alloc t₀ =>
    rw [step] at h
    split at h
    · cases h
    obtain rfl := Option.some.inj h
    refine ⟨fun _ h => h, fun t fd slot o hd => ?_⟩
    rcases hd.of_update rfl rfl with ⟨-, hnew⟩ | hold
    · exact .inr (.inl (fdtable_alloc_holds hnew))
    · exact .inl ⟨t, fd, hold⟩
  | call t₀ c =>
    obtain ⟨table₀, htab₀, h⟩ := Option.bind_eq_some_iff.mp h
    obtain ⟨⟨ret, g⟩, hc, rfl⟩ := Option.map_eq_some_iff.mp h
    have heff := Call.effect (n := s.calls) (o := s.origin t₀) hc (he table₀ htab₀)
    refine ⟨heff.alloc, fun t fd slot o hd => ?_⟩
    rcases hd.of_update rfl rfl with ⟨rfl, hheld⟩ | hold
    · -- an entry of the table that the call has changed
      rcases heff.held fd _ hheld with ⟨fd', hd'⟩ | hnew
      · exact .inl ⟨t, fd', table₀, htab₀, hd'⟩
      · exact .inr (.inr hnew)
    · exact .inl ⟨t, fd, hold⟩

theorem Inv.of_step (hs : Inv s) (he : KeepsSlots s e) (h : step s e = some s') : Inv s' := by
  obtain ⟨halloc, hdesc⟩ := step_descriptor h he
  have hfree : ∀ {slot}, slot ≤ STDERR → ¬ (s.fds slot).alloc = 0 := fun hle h0 =>
    absurd (h0.symm.trans (hs.console _ hle)) (by decide)
  refine ⟨fun t fd slot o hd => ?_, fun t fd slot o t' fd' o' hd hd' => ?_,
    fun slot hle => halloc slot (hs.console slot hle), fun t fd slot o hle hd => ?_⟩
  · rcases hdesc _ _ _ _ hd with ⟨t₁, fd₁, h₁⟩ | ⟨hle, -⟩ | ⟨-, hlt, -, h1⟩
    · exact (hs.alloc _ _ _ _ h₁).imp_right (halloc slot)
    · exact ⟨Nat.lt_of_le_of_lt hle (by decide), halloc slot (hs.console slot hle)⟩
    · exact ⟨hlt, h1⟩
  · -- a slot that was free is not the slot of an older descriptor
    have hold : ∀ {t fd o}, s.Descriptor t fd slot o → ¬ (s.fds slot).alloc = 0 := fun h h0 =>
      absurd (h0.symm.trans (hs.alloc _ _ _ _ h).2) (by decide)
    rcases hdesc _ _ _ _ hd with ⟨t₁, fd₁, h₁⟩ | ⟨hle, rfl⟩ | ⟨rfl, -, h0, -⟩ <;>
      rcases hdesc _ _ _ _ hd' with ⟨t₂, fd₂, h₂⟩ | ⟨hle', rfl⟩ | ⟨rfl, -, h0', -⟩
    · exact hs.same _ _ _ _ _ _ _ h₁ h₂
    · exact hs.console_origin _ _ _ _ hle' h₁
    · exact absurd h0' (hold h₁)
    · exact (hs.console_origin _ _ _ _ hle h₂).symm
    · rfl
    · exact absurd h0' (hfree hle)
    · exact absurd h0 (hold h₂)
    · exact absurd h0 (hfree hle')
    · rfl
  · rcases hdesc _ _ _ _ hd with ⟨t₁, fd₁, h₁⟩ | ⟨-, ho⟩ | ⟨-, -, h0, -⟩
    · exact hs.console_origin _ _ _ _ hle h₁
    · exact ho
    · exact absurd h0 (hfree hle)

theorem fs_init_console (hle : slot ≤ STDERR) : ((fs_init slot : ext2_file Inode)).alloc = 1 := by
  unfold STDERR at hle
  unfold fs_init STDIN STDOUT STDERR
  rw [if_pos (by omega)]

theorem Inv.init (t' t : ℕ) : Inv (init t' t : Sys Inode) := by
  have hcon : ∀ u fd slot o, (Descriptors.init t' t : Sys Inode).Descriptor u fd slot o →
      slot ≤ STDERR ∧ o = none := by
    rintro u fd slot o ⟨table, htab, hd⟩
    have : table = fdtable_alloc := by
      simp only [Descriptors.init, Function.update_apply] at htab
      split_ifs at htab <;> exact (Option.some.inj htab).symm
    exact fdtable_alloc_holds (this ▸ hd)
  refine ⟨fun u fd slot o hd => ?_, fun u fd slot o u' fd' o' hd hd' => ?_,
    fun slot hle => fs_init_console hle, fun u fd slot o _ hd => (hcon _ _ _ _ hd).2⟩
  · have hle := (hcon _ _ _ _ hd).1
    exact ⟨Nat.lt_of_le_of_lt hle (by decide), fs_init_console hle⟩
  · rw [(hcon _ _ _ _ hd).2, (hcon _ _ _ _ hd').2]

/-! ## Main results -/

/-- **No slot is freed under a descriptor and none is shared by two `open`
calls**, in a run that never closes a descriptor whose slot has a count of 1. -/
theorem descriptor_slots (t' t : ℕ) (hok : Meets step KeepsSlots (init t' t : Sys Inode) es)
    (hrun : run step (init t' t) es = some s) : SlotsOk s :=
  (run_invariant _ Inv (fun _ _ _ hs he h => hs.of_step he h) (Inv.init t' t) hok hrun).slotsOk

/-- A file with two duplicates, of which one is closed, and a console
descriptor that is replaced. -/
theorem descriptor_slots_two_duplicates :
    ∃ s, run step (init 0 1 : Sys Unit) [.fdtable_alloc 2, .call 2 (.open (some ()) 0),
        .call 2 (.dup 3), .call 2 (.dup3 3 1 O_CLOEXEC), .call 2 (.close 3),
        .call 1 (.open (some ()) 0), .call 1 (.fcntl 3 10), .call 1 (.close 0)] = some s ∧
      SlotsOk s := by
  have heval : (run step (init 0 1 : Sys Unit) [.fdtable_alloc 2, .call 2 (.open (some ()) 0),
      .call 2 (.dup 3), .call 2 (.dup3 3 1 O_CLOEXEC), .call 2 (.close 3),
      .call 1 (.open (some ()) 0), .call 1 (.fcntl 3 10), .call 1 (.close 0)]).isSome := by
    decide +kernel
  obtain ⟨s, hs⟩ := Option.isSome_iff_exists.mp heval
  exact ⟨s, hs, descriptor_slots 0 1 (by decide +kernel) hs⟩

/-- `open`, `dup`, and `close` of the duplicate: the slot is free, and the first
descriptor still refers to it. -/
theorem descriptor_slots_freed :
    ∃ s, run step (init 0 1 : Sys Unit) [.call 1 (.open (some ()) 0), .call 1 (.dup 3),
        .call 1 (.close 4)] = some s ∧ ¬ SlotsOk s := by
  have heval : (run step (init 0 1 : Sys Unit) [.call 1 (.open (some ()) 0), .call 1 (.dup 3),
      .call 1 (.close 4)]).map (fun s => ((s.tables 1).map fun table => table 3, (s.fds 3).alloc))
      = some (some ⟨3, 1⟩, 0) := by decide +kernel
  obtain ⟨s, hs, he⟩ := Option.map_eq_some_iff.mp heval
  obtain ⟨htab, halloc⟩ := Prod.mk.inj he
  obtain ⟨table, ht, h3⟩ := Option.map_eq_some_iff.mp htab
  refine ⟨s, hs, fun hok => ?_⟩
  have := (hok.alloc 1 3 3 (s.origin 1 3) ⟨table, ht, by decide, by rw [h3]; decide,
    by rw [h3]⟩).2
  rw [halloc] at this
  exact absurd this (by decide)

end Loos.Descriptors
