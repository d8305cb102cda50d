/-
The search of a directory, block by block and entry by entry.

`find_dir_entry` reads a block after the other into one buffer, and how it reads them does
not depend on what it finds. So the search is one over a list of buffers
([`run_find_in_blocks`]). In a buffer it goes from entry to entry by `rec_len`, which is what
the disk says: an entry can start anywhere below the limit, and where `rec_len` is 0 the
next entry is the same one. `ext2_read_dir` stops there, this loop does not.

With blocks that are chains of entries the search finds the first entry in use that has the
name ([`find_dir_entry_first`]).
-/
import Loos.BlockReads
import Loos.Resolution
import Loos.Lib.Loop

set_option autoImplicit false

namespace Loos.DirScan

open SysLib Ahci Ext2 Cstring PathLookup Resolution

/-! ## The loop over the entries of a block -/

/-- Where the search of a block is: at an entry, or behind the `return`. -/
inductive Cursor where
  | de (off : ℕ)
  | returned (ino : ℕ)
deriving DecidableEq

/-- The test `(char *)de < limit`. -/
def more (block_size : ℕ) : Cursor → Bool
  | .de de => decide (de < block_size)
  | .returned _ => false

/-- One turn. -/
def turn (buf : Mem) (name : List UInt8) : Cursor → Cursor
  | .de de =>
    if buf.load de 4 = 0 ∨ buf.load (de + 6) 1 = 0 then .de (de + buf.load (de + 4) 2)
    else if strcmp (de_name buf de) name = 0 then .returned (buf.load de 4)
    else .de (de + buf.load (de + 4) 2)
  | .returned ino => .returned ino

/-- The loop over the entries of a block, for at most `fuel` tests. -/
def scan_for (fuel block_size : ℕ) (buf : Mem) (name : List UInt8) : Option Cursor :=
  loop (more block_size) (fun c => some (turn buf name c)) fuel (.de 0)

/-- `find_dir_entry` where the loop over a block is left after `fuel` tests; when this happens
the search is stuck. -/
def find_for (fuel block_size : ℕ) (name : List UInt8) : List ℕ → Option Mem → DiskProg ℕ
  | [], _ => .stop (.err (-1))
  | b :: bs, block_buf =>
    if b = 0 then .stop (.err (-1))
    else do
      let r ← read_block b block_buf
      match scan_for fuel block_size r.2 name with
      | none => .stop .stuck
      | some (.returned ino) => .ret ino
      | some (.de _) => find_for fuel block_size name bs (some r.2)

/-- `find_dir_entry` returns: some number of tests is enough in all of its loops. -/
def Terminates (d : Dev) (fs : ext2_fs) (dir : ext2_inode) (name : List UInt8) : Prop :=
  ∃ fuel, (Prog.run answer d
    (find_for fuel fs.block_size name ((List.range 12).map dir.i_block) none)).1 ≠ .error .stuck

/-! ## What the search comes to -/

/-- The entry at `de` is in use, and its name is the one that is searched. -/
def Matches (buf : Mem) (name : List UInt8) (de : ℕ) : Prop :=
  buf.load de 4 ≠ 0 ∧ buf.load (de + 6) 1 ≠ 0 ∧ strcmp (de_name buf de) name = 0

instance (buf : Mem) (name : List UInt8) (de : ℕ) : Decidable (Matches buf name de) :=
  inferInstanceAs (Decidable (_ ∧ _))

/-- Following `rec_len` from the start of the block leads to `de`, over entries without the
name. -/
inductive Comes (block_size : ℕ) (buf : Mem) (name : List UInt8) : ℕ → Prop
  | first : Comes block_size buf name 0
  | next {de : ℕ} (hde : Comes block_size buf name de) (hlt : de < block_size)
      (hm : ¬ Matches buf name de) : Comes block_size buf name (de + buf.load (de + 4) 2)

/-- The blocks of a directory are searched in order, each when the one before it has been
searched to its end. `EntryMet bufs buf de` says that the search of `bufs` comes to the entry
`de` of `buf`. -/
inductive EntryMet (block_size : ℕ) (name : List UInt8) : List Mem → Mem → ℕ → Prop
  | here {buf : Mem} {bufs : List Mem} {de : ℕ} (hde : Comes block_size buf name de)
      (hlt : de < block_size) : EntryMet block_size name (buf :: bufs) buf de
  | later {buf buf' : Mem} {bufs : List Mem} {de de' : ℕ} (hde : Comes block_size buf name de)
      (hend : block_size ≤ de) (h : EntryMet block_size name bufs buf' de') :
      EntryMet block_size name (buf :: bufs) buf' de'

/-- What is in `block_buf` after each of the reads, when all blocks are read. -/
def buffers : Dev → List ℕ → Option Mem → List Mem
  | _, [], _ => []
  | d, b :: bs, buf =>
    if b = 0 then []
    else (answer d ⟨b, buf⟩).1.2 :: buffers (answer d ⟨b, buf⟩).2 bs (some (answer d ⟨b, buf⟩).1.2)

/-- The buffers of the search of `dir`. -/
def dir_buffers (d : Dev) (dir : ext2_inode) : List Mem :=
  buffers d ((List.range 12).map dir.i_block) none

variable {d : Dev} {fs : ext2_fs} {dir : ext2_inode} {bs de fuel : ℕ} {buf : Mem}
  {name : List UInt8} {bufs : List Mem} {ino : ℕ}

/-! ## The search over buffers -/

/-- The blocks in order, with the search of one block as a parameter. -/
def search (scan : Mem → Except Stop (Option ℕ)) : List Mem → Except Stop ℕ
  | [] => .error (.err (-1))
  | buf :: bufs => scan buf >>= fun
    | some ino => .ok ino
    | none => search scan bufs

theorem run_read_block {α : Type} {b : ℕ} {buf : Option Mem} (f : ℤ × Mem → DiskProg α) :
    Prog.run answer d (read_block b buf >>= f) =
      Prog.run answer (answer d ⟨b, buf⟩).2 (f (answer d ⟨b, buf⟩).1) := rfl

theorem run_find_in_blocks (blocks : List ℕ) (buf : Option Mem) :
    (Prog.run answer d (find_in_blocks bs name blocks buf)).1 =
      search (fun buf => scan_block bs buf name 0) (buffers d blocks buf) := by
  induction blocks generalizing d buf with
  | nil => rfl
  | cons b blocks ih =>
    rw [find_in_blocks, buffers]
    split_ifs with hb
    · rfl
    · rw [run_read_block, search]
      cases scan_block bs (answer d ⟨b, buf⟩).1.2 name 0 with
      | error e => rfl
      | ok found =>
        cases found with
        | none => exact ih _
        | some ino => rfl

/-- What the bounded loop finds in a block. -/
def found (c : Option Cursor) : Except Stop (Option ℕ) :=
  match c with
  | none => .error .stuck
  | some (.returned ino) => .ok (some ino)
  | some (.de _) => .ok none

theorem run_find_for (blocks : List ℕ) (buf : Option Mem) :
    (Prog.run answer d (find_for fuel bs name blocks buf)).1 =
      search (fun buf => found (scan_for fuel bs buf name)) (buffers d blocks buf) := by
  induction blocks generalizing d buf with
  | nil => rfl
  | cons b blocks ih =>
    rw [find_for, buffers]
    split_ifs with hb
    · rfl
    · rw [run_read_block, search]
      cases scan_for fuel bs (answer d ⟨b, buf⟩).1.2 name with
      | none => rfl
      | some c =>
        cases c with
        | de off => exact ih _
        | returned ino => rfl

/-! ## One block -/

theorem more_de : more bs (.de de) = true ↔ de < bs := by simp [more]


theorem turn_de : turn buf name (.de de) =
    if Matches buf name de then .returned (buf.load de 4) else .de (de + buf.load (de + 4) 2) := by
  rw [turn]
  by_cases hskip : buf.load de 4 = 0 ∨ buf.load (de + 6) 1 = 0
  · rw [if_pos hskip, if_neg]
    rintro ⟨hi, hn, -⟩
    exact hskip.elim hi hn
  · rw [not_or] at hskip
    simp only [Matches, hskip, ne_eq, not_false_eq_true, true_and, or_self, if_false]

/-- The loop comes to the entries of the chain. -/
theorem met_iff : Met (more bs) (fun c => some (turn buf name c)) (.de 0) (.de de) ↔
    Comes bs buf name de := by
  constructor
  · intro h
    generalize hc : Cursor.de de = c at h
    induction h generalizing de with
    | start =>
      obtain rfl := Cursor.de.inj hc
      exact .first
    | @turn s s' hs hmore hf ih =>
      subst hc
      cases s with
      | returned ino => cases hmore
      | de off =>
        rw [turn_de] at hf
        split_ifs at hf with hm
        · cases hf
        · obtain rfl := Cursor.de.inj (Option.some.inj hf)
          exact .next (ih rfl) (more_de.mp hmore) hm
  · intro h
    induction h with
    | first => exact .start
    | @next de hde hlt hm ih =>
      refine ih.turn (more_de.mpr hlt) ?_
      rw [turn_de, if_neg hm]

/-- How much of the block is left. -/
def left (bs : ℕ) : Cursor → ℕ
  | .de de => bs - de + 1
  | .returned _ => 0

/-- A turn gets ahead, or `rec_len` is 0 and the entry stays. -/
theorem turn_left {c : Cursor} (hmore : more bs c = true) :
    ∃ c', some (turn buf name c) = some c' ∧ (c' = c ∨ left bs c' < left bs c) := by
  refine ⟨_, rfl, ?_⟩
  cases c with
  | returned ino => cases hmore
  | de de =>
    have hlt := more_de.mp hmore
    rw [turn_de]
    split_ifs with hm
    · exact .inr (Nat.succ_pos _)
    · by_cases h0 : buf.load (de + 4) 2 = 0
      · simp [h0]
      · right
        simp only [left]
        omega

/-- **The loop over a block ends exactly when `rec_len` is not 0** in the entries without the
name that it comes to. -/
theorem exits_iff_rec_len :
    Exits (more bs) (fun c => some (turn buf name c)) (.de 0) ↔
      ∀ de, Comes bs buf name de → de < bs → ¬ Matches buf name de → buf.load (de + 4) 2 ≠ 0 := by
  rw [exits_iff (left bs) fun c hc => turn_left hc]
  constructor
  · intro h de hde hlt hm h0
    refine h (.de de) (met_iff.mpr hde) (more_de.mpr hlt) ?_
    rw [turn_de, if_neg hm, h0, Nat.add_zero]
  · intro h c hc hmore
    cases c with
    | returned ino => cases hmore
    | de de =>
      have hlt := more_de.mp hmore
      rw [turn_de]
      split_ifs with hm
      · simp
      · simpa using h de (met_iff.mp hc) hlt hm

theorem scan_block_de : scan_block bs buf name de =
    if de < bs then
      if Matches buf name de then .ok (some (buf.load de 4))
      else if buf.load (de + 4) 2 = 0 then .error .stuck
      else scan_block bs buf name (de + buf.load (de + 4) 2)
    else .ok none := by
  rw [scan_block]
  rfl

/-- The loop computes what `scan_block` is. -/
theorem scan_block_eq_found {c : Cursor}
    (h : loop (more bs) (fun c => some (turn buf name c)) fuel (.de de) = some c) :
    scan_block bs buf name de = found (some c) := by
  induction fuel generalizing de with
  | zero => simp [loop_zero] at h
  | succ fuel ih =>
    have hexit : Exits (more bs) (fun c => some (turn buf name c)) (.de de) := ⟨_, _, h⟩
    rw [scan_block_de]
    by_cases hlt : de < bs
    · rw [if_pos hlt]
      rw [loop_succ, if_pos (more_de.mpr hlt), Option.bind_some, turn_de] at h
      by_cases hm : Matches buf name de
      · rw [if_pos hm] at h ⊢
        rw [← Met.eq_of_exit .start rfl h]
        rfl
      · rw [if_neg hm] at h ⊢
        by_cases h0 : buf.load (de + 4) 2 = 0
        · -- this entry would be the next one for ever
          refine absurd hexit (not_exits_of_fixed (more_de.mpr hlt) ?_)
          rw [turn_de, if_neg hm, h0, Nat.add_zero]
        · rw [if_neg h0]
          exact ih h
    · rw [loop_of_exit (by simpa [more] using hlt)] at h
      rw [if_neg hlt, ← h]
      rfl

theorem exits_of_scan_block (h : scan_block bs buf name de ≠ .error .stuck) :
    Exits (more bs) (fun c => some (turn buf name c)) (.de de) := by
  fun_induction scan_block bs buf name de with
  | case1 de hlt hm =>
    have hm : Matches buf name de := hm
    refine .of_turn (more_de.mpr hlt) rfl ⟨1, .returned (buf.load de 4), ?_⟩
    rw [turn_de, if_pos hm, loop_of_exit rfl]
  | case2 de hlt hm h0 => exact absurd rfl h
  | case3 de hlt hm h0 ih =>
    have hm : ¬ Matches buf name de := hm
    refine .of_turn (more_de.mpr hlt) rfl ?_
    rw [turn_de, if_neg hm]
    exact ih h
  | case4 de hlt => exact ⟨1, _, loop_of_exit (by simpa [more] using hlt)⟩

theorem scan_for_of_exits (h : Exits (more bs) (fun c => some (turn buf name c)) (.de 0)) :
    ∃ c, scan_for (bs + 2) bs buf name = some c :=
  Exits.bound (left bs) (fun _ hc => turn_left hc) h

/-! ## All blocks -/

/-- A search with bounded loops that is not stuck is the search of the model. -/
theorem search_scan_for
    (h : search (fun buf => found (scan_for fuel bs buf name)) bufs ≠ .error .stuck) :
    search (fun buf => scan_block bs buf name 0) bufs =
      search (fun buf => found (scan_for fuel bs buf name)) bufs := by
  induction bufs with
  | nil => rfl
  | cons buf bufs ih =>
    rw [search] at h ⊢
    cases hscan : scan_for fuel bs buf name with
    | none =>
      rw [hscan] at h
      exact absurd rfl h
    | some c =>
      rw [hscan] at h
      rw [search, scan_block_eq_found hscan, hscan]
      cases c with
      | de off => exact ih h
      | returned ino => rfl

theorem search_of_scan_block
    (h : search (fun buf => scan_block bs buf name 0) bufs ≠ .error .stuck) :
    search (fun buf => found (scan_for (bs + 2) bs buf name)) bufs ≠ .error .stuck := by
  induction bufs with
  | nil => exact h
  | cons buf bufs ih =>
    rw [search] at h ⊢
    have hscan : scan_block bs buf name 0 ≠ .error .stuck := by
      intro hstuck
      rw [hstuck] at h
      exact h rfl
    obtain ⟨c, hc⟩ := scan_for_of_exits (exits_of_scan_block hscan)
    rw [scan_block_eq_found hc] at h
    rw [hc]
    cases c with
    | de off => exact ih h
    | returned ino => exact h

/-- The model is stuck where `find_dir_entry` does not return, and only there. -/
theorem terminates_iff_run : Terminates d fs dir name ↔
    (Prog.run answer d (find_dir_entry fs dir name)).1 ≠ .error .stuck := by
  rw [Terminates, find_dir_entry, run_find_in_blocks]
  simp only [run_find_for]
  constructor
  · rintro ⟨fuel, h⟩
    rwa [search_scan_for h]
  · intro h
    exact ⟨_, search_of_scan_block h⟩

/-- The name is not in a block when the search comes to the end of the block. -/
theorem scan_block_eq_none : scan_block bs buf name 0 = .ok none ↔
    ∃ de, Comes bs buf name de ∧ bs ≤ de := by
  constructor
  · intro h
    have hne : scan_block bs buf name 0 ≠ .error .stuck := by simp [h]
    obtain ⟨c, hc⟩ := scan_for_of_exits (exits_of_scan_block hne)
    obtain ⟨hmet, hend⟩ := loop_met hc
    rw [scan_block_eq_found hc] at h
    cases c with
    | de de => exact ⟨de, met_iff.mp hmet, by simpa [more] using hend⟩
    | returned ino => cases h
  · rintro ⟨de, hde, hle⟩
    have hdone : more bs (.de de) = false := by simpa [more] using hle
    have hmet := met_iff.mpr hde
    obtain ⟨c, hc⟩ := scan_for_of_exits (hmet.exits ⟨1, _, loop_of_exit hdone⟩)
    rw [scan_block_eq_found hc, ← hmet.eq_of_exit hdone hc]
    rfl

theorem scan_block_ne_stuck : scan_block bs buf name 0 ≠ .error .stuck ↔
    ∀ de, Comes bs buf name de → de < bs → ¬ Matches buf name de → buf.load (de + 4) 2 ≠ 0 := by
  rw [← exits_iff_rec_len]
  refine ⟨exits_of_scan_block, fun h hstuck => ?_⟩
  obtain ⟨c, hc⟩ := scan_for_of_exits h
  rw [scan_block_eq_found hc] at hstuck
  cases c <;> cases hstuck

/-- The next block is searched when the name is not in this one. -/
theorem forall_entryMet_cons {P : Mem → ℕ → Prop} :
    (∀ buf' de, EntryMet bs name (buf :: bufs) buf' de → P buf' de) ↔
      (∀ de, Comes bs buf name de → de < bs → P buf de) ∧
        (scan_block bs buf name 0 = .ok none →
          ∀ buf' de, EntryMet bs name bufs buf' de → P buf' de) := by
  rw [scan_block_eq_none]
  constructor
  · intro h
    refine ⟨fun de hde hlt => h buf de (.here hde hlt), ?_⟩
    rintro ⟨de, hde, hend⟩ buf' de' hmet
    exact h buf' de' (.later hde hend hmet)
  · rintro ⟨hblock, hrest⟩ buf' de' hmet
    cases hmet with
    | here hde hlt => exact hblock de' hde hlt
    | later hde hend hmet => exact hrest ⟨_, hde, hend⟩ buf' de' hmet

/-- In the entries without the name that the search comes to, `rec_len` is not 0. -/
def GetsAhead (bs : ℕ) (name : List UInt8) (bufs : List Mem) : Prop :=
  ∀ buf de, EntryMet bs name bufs buf de → ¬ Matches buf name de → buf.load (de + 4) 2 ≠ 0

theorem search_iff : search (fun buf => scan_block bs buf name 0) bufs ≠ .error .stuck ↔
    GetsAhead bs name bufs := by
  induction bufs with
  | nil =>
    refine iff_of_true (by simp [search]) ?_
    intro buf de h
    cases h
  | cons buf bufs ih =>
    rw [search, GetsAhead, forall_entryMet_cons, ← scan_block_ne_stuck, ← GetsAhead, ← ih]
    rcases scan_block bs buf name 0 with e | _ | ino <;> simp [bind, Except.bind]

/-- **When a search of a directory ends**: when in each entry without the name that it comes
to `rec_len` is not 0. -/
theorem find_dir_entry_terminates_iff : Terminates d fs dir name ↔
    ∀ buf de, EntryMet fs.block_size name (dir_buffers d dir) buf de →
      ¬ Matches buf name de → buf.load (de + 4) 2 ≠ 0 := by
  rw [terminates_iff_run, find_dir_entry, run_find_in_blocks, search_iff]
  rfl

/-- A directory whose only block is block 6. -/
def one_block : ext2_inode := ⟨fun i => if i = 1 then 0x41 else if i = 40 then 6 else 0⟩

/-- **In a block of zeros the search never ends**: its first entry is not in use, and the
next one starts 0 bytes behind it. -/
theorem zeroed_block_not_terminates : one_block.i_block 0 = 6 ∧ one_block.i_block 1 = 0 ∧
    ¬ Terminates (BlockReads.boot fun _ => 0) (BlockReads.blank_fs 0) one_block [97] := by
  refine ⟨by decide, by decide, ?_⟩
  rw [terminates_iff_run, find_dir_entry, run_find_in_blocks, search_iff]
  intro h
  have hblocks : (List.range 12).map one_block.i_block = 6 :: List.replicate 11 0 := by decide
  rw [hblocks, buffers, if_neg (by decide)] at h
  refine h _ 0 (.here .first (by decide)) ?_ ?_
  · rintro ⟨hino, -⟩
    exact hino (by decide)
  · decide

/-! ## What is found -/

/-- A directory whose blocks have their entries one behind the other: its blocks come first
in `i_block`, and each is a chain of entries up to its end. -/
structure WellFormedDir (disk : Mem) (dir : ext2_inode) : Prop where
  blocks_lt : ∀ b ∈ dir_blocks dir, b < 2147483648
  no_hole : ((List.range 12).map dir.i_block).Pairwise fun b b' => b = 0 → b' = 0
  chain : ∀ b ∈ dir_blocks dir, Chain (block disk b) 0

theorem run_find_dir_entry (hd : Working d) (hbs : fs.block_size = 1024)
    (hdir : WellFormedDir d.disk dir) (hname : Fits name) :
    (Prog.run answer d (find_dir_entry fs dir name)).1 =
      (first_named (dir_entries d.disk dir) name).mapError .err := by
  rw [find_dir_entry, hbs]
  exact run_working hd (find_in_blocks_ends hdir.blocks_lt hdir.no_hole hdir.chain hname.no_nul
    hname.ne_nil hname.length_le)

theorem first_named_eq_ok {es : List (ℕ × List UInt8)} : first_named es name = .ok ino ↔
    ∃ es₁ e es₂, es = es₁ ++ e :: es₂ ∧ Named name e ∧ e.1 = ino ∧ ∀ e' ∈ es₁, ¬ Named name e' := by
  rw [first_named]
  constructor
  · intro h
    cases hfind : es.find? fun e => Named name e with
    | none => simp [hfind] at h
    | some e =>
      obtain ⟨hnamed, es₁, es₂, hes, hbefore⟩ := List.find?_eq_some_iff_append.mp hfind
      refine ⟨es₁, e, es₂, hes, by simpa using hnamed, ?_, by simpa using hbefore⟩
      simpa [hfind] using h
  · rintro ⟨es₁, e, es₂, rfl, hnamed, rfl, hbefore⟩
    have hnone : es₁.find? (fun e => Named name e) = none := by simpa using hbefore
    rw [List.find?_append, hnone, List.find?_cons_of_pos (by simpa using hnamed)]
    rfl

theorem first_named_eq_error {es : List (ℕ × List UInt8)} : first_named es name = .error (-1) ↔
    ∀ e ∈ es, ¬ Named name e := by
  rw [first_named]
  cases hfind : es.find? fun e => Named name e with
  | none => simpa using hfind
  | some e =>
    have hnamed : Named name e := by simpa using List.find?_some hfind
    simpa using ⟨e.1, e.2, List.mem_of_find?_eq_some hfind, hnamed⟩

/-- An entry that is not in use makes no difference. -/
theorem first_named_filter {es : List (ℕ × List UInt8)} :
    first_named (es.filter fun e => e.1 ≠ 0) name = first_named es name := by
  have htest : (fun e : ℕ × List UInt8 => decide (decide (e.1 ≠ 0) = true ∧ decide (Named name e)
      = true)) = fun e => decide (Named name e) := by
    funext e
    by_cases h0 : e.1 = 0 <;> simp [Named, h0]
  rw [first_named, List.find?_filter, htest, first_named]

/-- **`find_dir_entry` returns the inode of the first entry in use with the name**, and -1 when
there is none; entries that are not in use could as well not be there. -/
theorem find_dir_entry_first (hd : Working d) (hbs : fs.block_size = 1024)
    (hdir : WellFormedDir d.disk dir) (hname : Fits name) :
    (∀ ino, (Prog.run answer d (find_dir_entry fs dir name)).1 = .ok ino ↔
      ∃ es₁ e es₂, dir_entries d.disk dir = es₁ ++ e :: es₂ ∧ Named name e ∧ e.1 = ino ∧
        ∀ e' ∈ es₁, ¬ Named name e') ∧
    ((Prog.run answer d (find_dir_entry fs dir name)).1 = .error (.err (-1)) ↔
      ∀ e ∈ dir_entries d.disk dir, ¬ Named name e) ∧
    (Prog.run answer d (find_dir_entry fs dir name)).1 =
      (first_named ((dir_entries d.disk dir).filter fun e => e.1 ≠ 0) name).mapError .err := by
  rw [run_find_dir_entry hd hbs hdir hname, first_named_filter]
  refine ⟨fun ino => ?_, ?_, rfl⟩
  · rw [← first_named_eq_ok]
    cases first_named (dir_entries d.disk dir) name <;> simp [Except.mapError]
  · rw [← first_named_eq_error]
    cases first_named (dir_entries d.disk dir) name <;> simp [Except.mapError]

theorem small_dir_wellFormed : WellFormedDir small small_root where
  blocks_lt := by
    rw [small_blocks]
    decide
  no_hole := small_directory.no_hole
  chain := small_directory.chain

/-- The only entry of the small disk is found. -/
theorem find_dir_entry_small :
    (Prog.run answer (BlockReads.boot small) (find_dir_entry small_fs small_root [46])).1 = .ok 2 := by
  have hname : Fits [46] := ⟨by decide, by decide, by decide⟩
  have hbs : small_fs.block_size = 1024 := rfl
  have h := find_dir_entry_first (d := BlockReads.boot small) (fun _ => rfl) hbs
    small_dir_wellFormed hname
  refine (h.1 2).mpr ⟨[], (2, [46]), [], small_entries, ⟨by decide, rfl⟩, rfl, by simp⟩

end Loos.DirScan
