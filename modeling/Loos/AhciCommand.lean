/-
`driver/ahci.c`: the command that `do_ahci_read` and `do_ahci_write` build.

The two are the same text but for the command byte. A loop fills all entries of the table but
the last, and takes the sectors of an entry off `count`, which the frame is then made from; and
an entry has 8 KiB, of which `buf` moves on by 4 KiB. So what is right for every count is what
is computed before the loop, and the sum of the lengths ([`setup_spec`]). All of the command is
right where the loop does not run ([`command_iff`]).
-/
import Loos.Hba
import Loos.Lib.Loop
import Mathlib.Algebra.BigOperators.Group.Finset.Basic

set_option autoImplicit false

namespace Loos.AhciCommand

open SysLib Hba

/-! ## The structures of `ahci.h` -/

structure HBA_CMD_HEADER where
  cfl : ℕ
  w : ℕ
  prdtl : ℕ

structure HBA_PRDT_ENTRY where
  dba : ℕ
  dbau : ℕ
  dbc : ℕ
  i : ℕ

structure FIS_REG_H2D where
  fis_type : ℕ
  pmport : ℕ
  c : ℕ
  command : ℕ
  featurel : ℕ
  lba0 : ℕ
  lba1 : ℕ
  lba2 : ℕ
  device : ℕ
  lba3 : ℕ
  lba4 : ℕ
  lba5 : ℕ
  featureh : ℕ
  countl : ℕ
  counth : ℕ
  icc : ℕ
  control : ℕ

structure HBA_CMD_TBL where
  cfis : FIS_REG_H2D
  prdt_entry : ℕ → HBA_PRDT_ENTRY

/-- The two functions. -/
inductive Direction where
  | read
  | write

/-- `ATA_CMD_READ_DMA_EXT` and `ATA_CMD_WRITE_DMA_EXT` -/
def Direction.command : Direction → ℕ
  | .read => 0x25
  | .write => 0x35

/-! ## The command -/

/-- `cmdheader`; `w` is 0 in both functions. -/
def setup_header (count : ℕ) : HBA_CMD_HEADER where
  cfl := 20 / 4
  w := 0
  prdtl := (((count + 2 ^ 32 - 1) % 2 ^ 32) >>> 4 % 2 ^ 16 + 1) % 2 ^ 16

/-- `memset` of the table and of the entries behind the first. -/
def clear_table (prdtl : ℕ) (tbl : HBA_CMD_TBL) : HBA_CMD_TBL where
  cfis := ⟨0, 0, 0, 0, 0, 0, 0, 0, 0, 0, 0, 0, 0, 0, 0, 0, 0⟩
  prdt_entry i := if i < prdtl then ⟨0, 0, 0, 0⟩ else tbl.prdt_entry i

/-- The variables of the loop over the entries. -/
structure Prdt where
  entry : ℕ → HBA_PRDT_ENTRY
  i : ℕ
  buf : ℕ
  count : ℕ

/-- The body of the loop. -/
def prdt_body (s : Prdt) : Prdt where
  entry := Function.update s.entry s.i ⟨s.buf % 2 ^ 32, s.buf >>> 32 % 2 ^ 32, 8 * 1024 - 1, 1⟩
  i := s.i + 1
  buf := (s.buf + 0x1000) % 2 ^ 64
  count := (s.count + 2 ^ 32 - 16) % 2 ^ 32

/-- The last entry; its `dbau` is not assigned. -/
def last_entry (s : Prdt) : ℕ → HBA_PRDT_ENTRY :=
  Function.update s.entry s.i { s.entry s.i with
    dba := s.buf % 2 ^ 32
    dbc := (s.count <<< 9 % 2 ^ 32 + 2 ^ 32 - 1) % 2 ^ 32 % 2 ^ 22
    i := 1 }

/-- `cmdfis`, in a table that was cleared. -/
def setup_fis (dir : Direction) (start count : ℕ) (fis : FIS_REG_H2D) : FIS_REG_H2D :=
  let startl := start % 2 ^ 32
  let starth := start >>> 32 % 2 ^ 32
  { fis with
    fis_type := 0x27
    c := 1
    command := dir.command
    lba0 := startl % 2 ^ 8
    lba1 := startl >>> 8 % 2 ^ 8
    lba2 := startl >>> 16 % 2 ^ 8
    device := 1 <<< 6
    lba3 := startl >>> 24 % 2 ^ 8
    lba4 := starth % 2 ^ 8
    lba5 := starth >>> 8 % 2 ^ 8
    countl := count &&& 0xFF
    counth := count >>> 8 &&& 0xFF }

/-- The table, with the `count` that the loop leaves in the frame. -/
def setup_table (dir : Direction) (start count buf prdtl : ℕ) (tbl : HBA_CMD_TBL) :
    HBA_CMD_TBL :=
  let tbl := clear_table prdtl tbl
  let s := prdt_body^[prdtl - 1] ⟨tbl.prdt_entry, 0, buf, count⟩
  ⟨setup_fis dir start s.count tbl.cfis, last_entry s⟩

/-! ## The call -/

/-- The headers of the command list, and the tables behind them. -/
structure Slots where
  cmdheader : ℕ → HBA_CMD_HEADER
  cmdtbl : ℕ → HBA_CMD_TBL

/-- The command of one slot is built. -/
def Slots.setup (m : Slots) (dir : Direction) (slot start count buf : ℕ) : Slots where
  cmdheader := Function.update m.cmdheader slot (setup_header count)
  cmdtbl := Function.update m.cmdtbl slot
    (setup_table dir start count buf (setup_header count).prdtl (m.cmdtbl slot))

/-- What the registers show during a call: `tfd` at each read of it, `ci` and `is` in each
turn of the last loop, and `is` behind it. -/
structure Reads where
  abar : HBA_MEM
  port_num : ℕ
  tfd : ℕ → ℕ
  turns : List (ℕ × ℕ)
  is : ℕ

/-- What a call returns, and the slot whose command it built. -/
structure Call where
  ret : ℤ
  slots : Slots
  built : Option ℕ

/-- `HBA_PxIS_TFES` -/
def HBA_PxIS_TFES : ℕ := 1 <<< 30

/-- The loop that waits until the port is no longer busy, at most 1000000 turns. -/
def spin (tfd : ℕ → ℕ) : Option ℕ :=
  loop (fun n => decide (tfd n &&& (0x80 ||| 0x08) ≠ 0 ∧ n < 1000000)) (fun n => some (n + 1))
    1000001 0

/-- The loop that waits for completion, and the check behind it; `none` while the command is
pending. -/
def wait (slot is : ℕ) : List (ℕ × ℕ) → Option ℤ
  | [] => none
  | turn :: turns =>
    if turn.1 &&& 1 <<< slot = 0 then some (if is &&& HBA_PxIS_TFES ≠ 0 then -1 else 0)
    else if turn.2 &&& HBA_PxIS_TFES ≠ 0 then some (-1)
    else wait slot is turns

/-- Both functions. -/
def do_ahci (dir : Direction) (r : Reads) (m : Slots) (start count buf : ℕ) : Option Call :=
  let slot := find_cmdslot r.abar (r.abar.ports r.port_num)
  if slot = -1 then some ⟨-1, m, none⟩
  else
    let m := m.setup dir slot.toNat start count buf
    (spin r.tfd).bind fun n =>
      if n = 1000000 then some ⟨-1, m, some slot.toNat⟩
      else (wait slot.toNat r.is r.turns).map fun ret => ⟨ret, m, some slot.toNat⟩

def do_ahci_read : Reads → Slots → ℕ → ℕ → ℕ → Option Call := do_ahci .read

def do_ahci_write : Reads → Slots → ℕ → ℕ → ℕ → Option Call := do_ahci .write

/-! ## What a command means -/

/-- The first address of the region. -/
def HBA_PRDT_ENTRY.base (e : HBA_PRDT_ENTRY) : ℕ := e.dba + 2 ^ 32 * e.dbau

/-- The bytes of the region. -/
def HBA_PRDT_ENTRY.bytes (e : HBA_PRDT_ENTRY) : ℕ := e.dbc + 1

/-- The sector that the frame names. -/
def FIS_REG_H2D.lba (f : FIS_REG_H2D) : ℕ :=
  f.lba0 + 2 ^ 8 * f.lba1 + 2 ^ 16 * f.lba2 + 2 ^ 24 * f.lba3 + 2 ^ 32 * f.lba4 + 2 ^ 40 * f.lba5

/-- The number of sectors in the frame. -/
def FIS_REG_H2D.sectors (f : FIS_REG_H2D) : ℕ := f.countl + 2 ^ 8 * f.counth

/-- **The command is well formed**: it is for `count` sectors from `start` on, and its regions
follow each other from the address `base` on. -/
structure WellFormed (start count base : ℕ) (hdr : HBA_CMD_HEADER) (tbl : HBA_CMD_TBL) :
    Prop where
  lba : tbl.cfis.lba = start
  sectors : tbl.cfis.sectors = count
  prdtl : hdr.prdtl = (count + 15) / 16
  first : (tbl.prdt_entry 0).base = base
  next : ∀ i, i + 1 < hdr.prdtl →
    (tbl.prdt_entry (i + 1)).base = (tbl.prdt_entry i).base + (tbl.prdt_entry i).bytes
  total : ∑ i ∈ Finset.range hdr.prdtl, (tbl.prdt_entry i).bytes = 512 * count

variable {dir : Direction} {r : Reads} {m : Slots} {start count buf n slot : ℕ} {c : Call}
  {tbl : HBA_CMD_TBL} {s : Prdt}

/-! ## What is right for every count -/

/-- The loop after `n` turns. -/
structure Filled (entry : ℕ → HBA_PRDT_ENTRY) (buf count n : ℕ) (s : Prdt) : Prop where
  i_eq : s.i = n
  buf_eq : s.buf = (buf + 0x1000 * n) % 2 ^ 64
  count_eq : s.count = count - 16 * n
  done : ∀ i < n, s.entry i =
    ⟨(buf + 0x1000 * i) % 2 ^ 32, (buf + 0x1000 * i) / 2 ^ 32 % 2 ^ 32, 8191, 1⟩
  rest : ∀ i, n ≤ i → s.entry i = entry i

theorem Filled.step {entry : ℕ → HBA_PRDT_ENTRY} (h : Filled entry buf count n s)
    (hcount : 16 * (n + 1) ≤ count) (hlt : count < 2 ^ 32) :
    Filled entry buf count (n + 1) (prdt_body s) := by
  obtain ⟨hi, hbuf, hcnt, hdone, hrest⟩ := h
  refine ⟨congrArg (· + 1) hi, ?_, ?_, fun i hlt => ?_, fun i hle => ?_⟩
  · rw [prdt_body, hbuf]
    dsimp only
    omega
  · rw [prdt_body, hcnt]
    dsimp only
    omega
  · rw [prdt_body, hi]
    dsimp only
    rcases Nat.lt_succ_iff_lt_or_eq.mp hlt with hlt | rfl
    · rw [Function.update_of_ne (Nat.ne_of_lt hlt)]
      exact hdone i hlt
    · rw [Function.update_self, hbuf, Nat.shiftRight_eq_div_pow, HBA_PRDT_ENTRY.mk.injEq]
      refine ⟨?_, ?_, rfl, rfl⟩
      · omega
      · omega
  · rw [prdt_body, hi]
    dsimp only
    rw [Function.update_of_ne (by omega)]
    exact hrest i (by omega)

theorem filled_iterate {entry : ℕ → HBA_PRDT_ENTRY} (hcount : 16 * n ≤ count)
    (hlt : count < 2 ^ 32) (hbuf : buf < 2 ^ 64) :
    Filled entry buf count n (prdt_body^[n] ⟨entry, 0, buf, count⟩) := by
  induction n with
  | zero => exact ⟨rfl, (Nat.mod_eq_of_lt hbuf).symm, rfl, by simp, fun _ _ => rfl⟩
  | succ n ih =>
    rw [Function.iterate_succ_apply']
    exact (ih (by omega)).step hcount hlt

/-- The number of entries. -/
theorem prdtl_eq (h1 : 1 ≤ count) (hcount : count ≤ 65535) :
    (setup_header count).prdtl = (count + 15) / 16 := by
  rw [setup_header, Nat.shiftRight_eq_div_pow]
  dsimp only
  omega

/-- The entries of the table: all but the last have 8 KiB and lie 4 KiB apart, and the last has
the rest, with the upper half of its address 0. -/
structure Entries (count buf : ℕ) (tbl : HBA_CMD_TBL) : Prop where
  done : ∀ i, i + 1 < (count + 15) / 16 → tbl.prdt_entry i =
    ⟨(buf + 0x1000 * i) % 2 ^ 32, (buf + 0x1000 * i) / 2 ^ 32 % 2 ^ 32, 8191, 1⟩
  last : ∀ i, i + 1 = (count + 15) / 16 → tbl.prdt_entry i =
    ⟨(buf + 0x1000 * i) % 2 ^ 32, 0, 512 * (count - 16 * i) - 1, 1⟩

theorem lba_setup_fis (hstart : start < 2 ^ 48) (fis : FIS_REG_H2D) :
    (setup_fis dir start count fis).lba = start := by
  simp only [setup_fis, FIS_REG_H2D.lba, Nat.shiftRight_eq_div_pow]
  omega

theorem sectors_setup_fis (hcount : count < 2 ^ 16) (fis : FIS_REG_H2D) :
    (setup_fis dir start count fis).sectors = count := by
  have hlow : count &&& 0xFF = count % 2 ^ 8 := Nat.and_two_pow_sub_one_eq_mod count 8
  have hhigh : count >>> 8 &&& 0xFF = count / 2 ^ 8 % 2 ^ 8 := shiftRight_and_mask count 8 8
  simp only [setup_fis, FIS_REG_H2D.sectors, hlow, hhigh]
  omega

/-- **The table**, for every count: the sector, the entries, and the sectors of the last entry as
the number of sectors. -/
theorem setup_table_spec (dir : Direction) (tbl : HBA_CMD_TBL) (hstart : start < 2 ^ 48)
    (h1 : 1 ≤ count) (hcount : count ≤ 65535) (hbuf : buf < 2 ^ 64) :
    let tbl' := setup_table dir start count buf (setup_header count).prdtl tbl
    tbl'.cfis.lba = start ∧ tbl'.cfis.sectors = count - 16 * ((count + 15) / 16 - 1) ∧
      Entries count buf tbl' := by
  intro tbl'
  set n := (count + 15) / 16 - 1 with hn
  have hprdtl : (setup_header count).prdtl = n + 1 := by
    rw [prdtl_eq h1 hcount]
    omega
  set cleared := clear_table (n + 1) tbl with hcleared
  set s := prdt_body^[n] ⟨cleared.prdt_entry, 0, buf, count⟩ with hs
  have htbl : tbl' = ⟨setup_fis dir start s.count cleared.cfis, last_entry s⟩ := by
    dsimp only [tbl']
    rw [hprdtl]
    rfl
  have hfilled : Filled cleared.prdt_entry buf count n s :=
    filled_iterate (by omega) (by omega) hbuf
  obtain ⟨hi, hb, hc, hdone, hrest⟩ := hfilled
  rw [htbl]
  refine ⟨lba_setup_fis hstart _, ?_, fun i hlt => ?_, fun i he => ?_⟩
  · rw [← hc]
    exact sectors_setup_fis (by omega) _
  · dsimp only [last_entry]
    rw [Function.update_of_ne (by omega)]
    exact hdone i (by omega)
  · have hlast : i = n := by omega
    -- the entry as `memset` left it
    have hzero : s.entry n = ⟨0, 0, 0, 0⟩ := by
      rw [hrest n (le_refl _)]
      exact if_pos (Nat.lt_succ_self _)
    dsimp only [last_entry]
    rw [hlast, hi, Function.update_self, hzero, hb, hc, Nat.shiftLeft_eq, HBA_PRDT_ENTRY.mk.injEq]
    refine ⟨?_, rfl, ?_, rfl⟩
    · omega
    · omega

/-- The lengths add up for every count. -/
theorem Entries.total (h : Entries count buf tbl) (h1 : 1 ≤ count) :
    ∑ i ∈ Finset.range ((count + 15) / 16), (tbl.prdt_entry i).bytes = 512 * count := by
  obtain ⟨n, hn⟩ : ∃ n, (count + 15) / 16 = n + 1 := ⟨(count + 15) / 16 - 1, by omega⟩
  have hfull : ∀ i ∈ Finset.range n, (tbl.prdt_entry i).bytes = 8192 := by
    intro i hi
    rw [h.done i (by have := Finset.mem_range.mp hi; omega)]
    rfl
  rw [hn, Finset.sum_range_succ, Finset.sum_const_nat hfull, Finset.card_range, h.last n hn.symm,
    HBA_PRDT_ENTRY.bytes]
  dsimp only
  omega

/-! ## The main result -/

/-- What a call builds is the header and the table for its arguments. -/
theorem built_eq (hrun : do_ahci dir r m start count buf = some c) (hbuilt : c.built = some slot) :
    c.slots.cmdheader slot = setup_header count ∧ c.slots.cmdtbl slot =
      setup_table dir start count buf (setup_header count).prdtl (m.cmdtbl slot) := by
  have hset : c.slots = m.setup dir slot start count buf := by
    rw [do_ahci] at hrun
    dsimp only at hrun
    split_ifs at hrun with hslot
    · obtain rfl := Option.some.inj hrun
      cases hbuilt
    · obtain ⟨n, -, hrun⟩ := Option.bind_eq_some_iff.mp hrun
      split_ifs at hrun with hhung
      · obtain rfl := Option.some.inj hrun
        rw [← Option.some.inj hbuilt]
      · obtain ⟨ret, -, rfl⟩ := Option.map_eq_some_iff.mp hrun
        rw [← Option.some.inj hbuilt]
  rw [hset]
  exact ⟨Function.update_self .., Function.update_self ..⟩

/-- **The command** is well formed exactly if it has at most 16 sectors, as many as one entry
has room for, and `buf` is below 4 GiB: the number of entries, the sector and the sum of the
lengths are right for every count. With the lower half of the address for `buf` the 16 sectors
are the whole condition. -/
theorem command_iff (hstart : start < 2 ^ 48) (h1 : 1 ≤ count) (hcount : count ≤ 65535)
    (hbuf : buf < 2 ^ 64) (hrun : do_ahci dir r m start count buf = some c)
    (hbuilt : c.built = some slot) :
    (WellFormed start count buf (c.slots.cmdheader slot) (c.slots.cmdtbl slot) ↔
      count ≤ 16 ∧ buf < 2 ^ 32) ∧
    (WellFormed start count (buf % 2 ^ 32) (c.slots.cmdheader slot) (c.slots.cmdtbl slot) ↔
      count ≤ 16) := by
  obtain ⟨hhdr, htbl⟩ := built_eq hrun hbuilt
  have hprdtl := prdtl_eq h1 hcount
  obtain ⟨hlba, hsectors, hentries⟩ := setup_table_spec dir (m.cmdtbl slot) hstart h1 hcount hbuf
  rw [hhdr, htbl]
  -- with the sectors of one entry, the loop does not run
  have hone : count ≤ 16 → ∀ base, WellFormed start count base (setup_header count)
      (setup_table dir start count buf (setup_header count).prdtl (m.cmdtbl slot)) ↔
        buf % 2 ^ 32 = base := by
    intro hle base
    have hlast := hentries.last 0 (by omega)
    have hbase : ((setup_table dir start count buf (setup_header count).prdtl
        (m.cmdtbl slot)).prdt_entry 0).base = buf % 2 ^ 32 := by
      rw [hlast, HBA_PRDT_ENTRY.base]
      rfl
    refine ⟨fun h => hbase.symm.trans h.first, fun he => ⟨hlba, ?_, hprdtl, hbase.trans he,
      fun i hi => by omega, ?_⟩⟩
    · rw [hsectors]
      omega
    · have htotal := hentries.total h1
      rw [← hprdtl] at htotal
      exact htotal
  have hmany : ∀ base, WellFormed start count base (setup_header count)
      (setup_table dir start count buf (setup_header count).prdtl (m.cmdtbl slot)) →
        count ≤ 16 := by
    intro base h
    have hall := h.sectors
    rw [hsectors] at hall
    omega
  refine ⟨⟨fun h => ?_, fun h => ?_⟩, fun h => hmany _ h, fun h => (hone h _).mpr rfl⟩
  · have hle := hmany _ h
    have hlow := (hone hle _).mp h
    exact ⟨hle, by omega⟩
  · exact (hone h.1 _).mpr (Nat.mod_eq_of_lt h.2)

/-- A port with a free slot that completes the command at once. -/
def idle : Reads where
  abar := ⟨0xF00, 2, fun _ => ⟨0x113, 0, 0⟩⟩
  port_num := 1
  tfd := fun _ => 0x50
  turns := [(0, 0)]
  is := 0

/-- Slots without a command. -/
def no_commands : Slots where
  cmdheader := fun _ => ⟨0, 0, 0⟩
  cmdtbl := fun _ => clear_table 0 ⟨⟨0, 0, 0, 0, 0, 0, 0, 0, 0, 0, 0, 0, 0, 0, 0, 0, 0⟩,
    fun _ => ⟨0, 0, 0, 0⟩⟩

/-- Two sectors from sector 5 on. -/
theorem command_two_sectors : ∃ c, do_ahci_read idle no_commands 5 2 0x10000 = some c ∧
    c.ret = 0 ∧ c.built = some 0 ∧
    WellFormed 5 2 0x10000 (c.slots.cmdheader 0) (c.slots.cmdtbl 0) := by
  have heval : (do_ahci_read idle no_commands 5 2 0x10000).map (fun c => (c.ret, c.built)) =
      some (0, some 0) := by decide +kernel
  obtain ⟨c, hc, he⟩ := Option.map_eq_some_iff.mp heval
  obtain ⟨hret, hbuilt⟩ := Prod.mk.inj he
  refine ⟨c, hc, hret, hbuilt, ?_⟩
  exact (command_iff (by norm_num) (by norm_num) (by norm_num) (by norm_num) hc hbuilt).1.mpr
    ⟨by norm_num, by norm_num⟩

/-- With 17 sectors the frame asks for one, and the second region begins within the first. With
two sectors for `ahci_buf`, which is in the window, the upper half of its address is lost. -/
theorem command_not_wellFormed :
    (∃ c, do_ahci_read idle no_commands 5 17 0x10000 = some c ∧ c.built = some 0 ∧
      (c.slots.cmdtbl 0).cfis.sectors = 1 ∧ ((c.slots.cmdtbl 0).prdt_entry 0).bytes = 8192 ∧
      ((c.slots.cmdtbl 0).prdt_entry 1).base = 0x11000 ∧
      ¬ WellFormed 5 17 0x10000 (c.slots.cmdheader 0) (c.slots.cmdtbl 0)) ∧
    ∃ c, do_ahci_write idle no_commands 5 2 0x9000000090000000 = some c ∧ c.built = some 0 ∧
      ((c.slots.cmdtbl 0).prdt_entry 0).base = 0x90000000 ∧
      ¬ WellFormed 5 2 0x9000000090000000 (c.slots.cmdheader 0) (c.slots.cmdtbl 0) := by
  constructor
  · have heval : (do_ahci_read idle no_commands 5 17 0x10000).map (fun c => (c.built,
        (c.slots.cmdtbl 0).cfis.sectors, ((c.slots.cmdtbl 0).prdt_entry 0).bytes,
        ((c.slots.cmdtbl 0).prdt_entry 1).base)) = some (some 0, 1, 8192, 0x11000) := by
      decide +kernel
    obtain ⟨c, hc, he⟩ := Option.map_eq_some_iff.mp heval
    simp only [Prod.mk.injEq] at he
    obtain ⟨hbuilt, hsectors, hbytes, hbase⟩ := he
    refine ⟨c, hc, hbuilt, hsectors, hbytes, hbase, fun h => ?_⟩
    have hall := h.sectors
    omega
  · have heval : (do_ahci_write idle no_commands 5 2 0x9000000090000000).map (fun c => (c.built,
        ((c.slots.cmdtbl 0).prdt_entry 0).base)) = some (some 0, 0x90000000) := by
      decide +kernel
    obtain ⟨c, hc, he⟩ := Option.map_eq_some_iff.mp heval
    obtain ⟨hbuilt, hbase⟩ := Prod.mk.inj he
    refine ⟨c, hc, hbuilt, hbase, fun h => ?_⟩
    have hfirst := h.first
    omega

end Loos.AhciCommand
