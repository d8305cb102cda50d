/-
`driver/ahci.c`: the search for the disk's port and for a free command slot.

Both are loops over the bits of a register. `find_cmdslot` shifts its bits down as it goes,
but counts the slots with four of the five bits of `CAP.NCS`, and not from zero. The loop of
`ahic_probe_port` leaves `pi` where it is, so that bit 0 speaks for all ports.
-/
import Loos.Lib.Bits
import Mathlib.Data.List.Basic
import Mathlib.Tactic.Common

set_option autoImplicit false

namespace Loos.Hba

open SysLib

/-! ## The registers -/

/-- The registers of a port that are read here. -/
structure HBA_PORT where
  ssts : ℕ
  sact : ℕ
  ci : ℕ

/-- The registers of the controller that are read here. -/
structure HBA_MEM where
  cap : ℕ
  pi : ℕ
  ports : ℕ → HBA_PORT

def HBA_PORT_IPM_ACTIVE : ℕ := 1
def HBA_PORT_DET_PRESENT : ℕ := 3

/-- `get_bits_range` of `lolibc/bits.h` -/
def get_bits_range (x s len : ℕ) : ℕ := x >>> s &&& (2 ^ len - 1)

/-! ## `find_cmdslot` -/

/-- The loop of `find_cmdslot`, with the turns to come. -/
def scan_slots : ℕ → ℕ → ℕ → ℤ
  | 0, _, _ => -1
  | n + 1, i, slots => if slots &&& 1 = 0 then i else scan_slots n (i + 1) (slots >>> 1)

def find_cmdslot (abar : HBA_MEM) (port : HBA_PORT) : ℤ :=
  scan_slots (get_bits_range abar.cap 8 4) 0 (port.sact ||| port.ci)

/-- The slot is set neither in SACT nor in CI. -/
def Free (port : HBA_PORT) (i : ℕ) : Prop :=
  port.sact.testBit i = false ∧ port.ci.testBit i = false

instance (port : HBA_PORT) (i : ℕ) : Decidable (Free port i) :=
  inferInstanceAs (Decidable (_ ∧ _))

/-- The number of command slots: `CAP.NCS`, the bits 12 to 8, counts from zero. -/
def slotCount (abar : HBA_MEM) : ℕ := abar.cap / 2 ^ 8 % 2 ^ 5 + 1

/-- `r` is the least slot that is free, or -1 if none is. -/
def IsLeastFree (abar : HBA_MEM) (port : HBA_PORT) (r : ℤ) : Prop :=
  (∃ i < slotCount abar, r = i ∧ Free port i ∧ ∀ j < i, ¬ Free port j) ∨
    r = -1 ∧ ∀ i < slotCount abar, ¬ Free port i

variable {abar : HBA_MEM} {port : HBA_PORT}

/-- The scan ends at the first bit that is clear. -/
theorem scan_slots_spec (n i slots : ℕ) :
    (∃ j < n, scan_slots n i slots = (i + j : ℕ) ∧ slots.testBit j = false ∧
      ∀ l < j, slots.testBit l = true) ∨
    scan_slots n i slots = -1 ∧ ∀ l < n, slots.testBit l = true := by
  induction n generalizing i slots with
  | zero => exact .inr ⟨rfl, by simp⟩
  | succ n ih =>
    have hbit : slots &&& 1 = 0 ↔ slots.testBit 0 = false := by
      rw [Nat.and_one_is_mod, Nat.testBit_zero]
      simp
    rw [scan_slots]
    split_ifs with h0
    · exact .inl ⟨0, n.succ_pos, rfl, hbit.mp h0, by simp⟩
    · -- the bits above, one place down
      have hfirst : slots.testBit 0 = true := by simpa using hbit.not.mp h0
      have hall : ∀ m, (∀ l < m, (slots >>> 1).testBit l = true) →
          ∀ l < m + 1, slots.testBit l = true := by
        intro m hm l hl
        cases l with
        | zero => exact hfirst
        | succ l =>
          have hrest := hm l (by omega)
          rwa [Nat.testBit_shiftRight, Nat.add_comm] at hrest
      rcases ih (i + 1) (slots >>> 1) with ⟨j, hj, hret, hclear, hset⟩ | ⟨hret, hset⟩
      · refine .inl ⟨j + 1, by omega, ?_, ?_, hall j hset⟩
        · rw [hret, Nat.add_right_comm, Nat.add_assoc]
        · rwa [Nat.testBit_shiftRight, Nat.add_comm] at hclear
      · exact .inr ⟨hret, hall n hset⟩

theorem free_iff {i : ℕ} : Free port i ↔ (port.sact ||| port.ci).testBit i = false := by
  rw [Free, Nat.testBit_or, Bool.or_eq_false_iff]

/-- The slots that `find_cmdslot` looks at, and no others. -/
theorem find_cmdslot_spec (abar : HBA_MEM) (port : HBA_PORT) :
    (∃ i < abar.cap / 2 ^ 8 % 2 ^ 4, find_cmdslot abar port = i ∧ Free port i ∧
      ∀ j < i, ¬ Free port j) ∨
    find_cmdslot abar port = -1 ∧ ∀ i < abar.cap / 2 ^ 8 % 2 ^ 4, ¬ Free port i := by
  have hcount : get_bits_range abar.cap 8 4 = abar.cap / 2 ^ 8 % 2 ^ 4 := shiftRight_and_mask ..
  have hbusy : ∀ {l}, (port.sact ||| port.ci).testBit l = true → ¬ Free port l := by
    intro l hl
    rw [free_iff, hl]
    simp
  rw [find_cmdslot, hcount]
  rcases scan_slots_spec (abar.cap / 2 ^ 8 % 2 ^ 4) 0 (port.sact ||| port.ci) with
    ⟨i, hi, hret, hclear, hset⟩ | ⟨hret, hset⟩
  · exact .inl ⟨i, hi, by rw [hret, Nat.zero_add], free_iff.mpr hclear, fun j hj => hbusy (hset j hj)⟩
  · exact .inr ⟨hret, fun j hj => hbusy (hset j hj)⟩

/-- **`find_cmdslot`** finds the least free slot, or rightly none, exactly if a slot below the
bits 11 to 8 of CAP is free, or no slot at all is. -/
theorem find_cmdslot_iff : IsLeastFree abar port (find_cmdslot abar port) ↔
    (∃ i < abar.cap / 2 ^ 8 % 2 ^ 4, Free port i) ∨ ∀ i < slotCount abar, ¬ Free port i := by
  have hle : abar.cap / 2 ^ 8 % 2 ^ 4 < slotCount abar := by
    unfold slotCount
    omega
  rcases find_cmdslot_spec abar port with
    ⟨i, hi, hret, hfree, hleast⟩ | ⟨hret, hbusy⟩
  · exact ⟨fun _ => .inl ⟨i, hi, hfree⟩, fun _ => .inl ⟨i, hi.trans hle, hret, hfree, hleast⟩⟩
  · rw [hret]
    constructor
    · rintro (⟨i, -, hi, -⟩ | ⟨-, hall⟩)
      · omega
      · exact .inr hall
    · rintro (⟨i, hi, hfree⟩ | hall)
      · exact absurd hfree (hbusy i hi)
      · exact .inr ⟨rfl, hall⟩

/-- A controller with one slot, which is free. -/
theorem one_slot_not_found :
    ¬ IsLeastFree ⟨0, 1, fun _ => ⟨0x113, 0, 0⟩⟩ ⟨0x113, 0, 0⟩
      (find_cmdslot ⟨0, 1, fun _ => ⟨0x113, 0, 0⟩⟩ ⟨0x113, 0, 0⟩) := by
  rintro (⟨i, -, hi, -⟩ | ⟨-, hall⟩)
  · have hret : find_cmdslot ⟨0, 1, fun _ => ⟨0x113, 0, 0⟩⟩ ⟨0x113, 0, 0⟩ = -1 := rfl
    omega
  · exact hall 0 (by decide) (by decide)

/-! ## `ahic_probe_port` -/

/-- The variables of `ahic_probe_port`, and the ports whose status it has read. -/
structure Probe where
  port_no : ℤ
  port_num : ℕ
  status : List ℕ

/-- The body of the loop. -/
def probe_body (abar : HBA_MEM) (s : Probe) (i : ℕ) : Probe :=
  if abar.pi &&& 1 = 0 then s
  else
    let ssts := (abar.ports i).ssts
    let ipm := ssts >>> 8 &&& 0x0F
    let det := ssts &&& 0x0F
    if det ≠ HBA_PORT_DET_PRESENT ∨ ipm ≠ HBA_PORT_IPM_ACTIVE then
      { s with status := s.status ++ [i] }
    else
      { port_no := if s.port_num + 1 = 2 then i else s.port_no
        port_num := s.port_num + 1
        status := s.status ++ [i] }

def ahic_probe_port (abar : HBA_MEM) : Probe :=
  (List.range 32).foldl (probe_body abar) ⟨-1, 0, []⟩

/-- DET and IPM show a device. -/
def Active (port : HBA_PORT) : Prop :=
  port.ssts % 2 ^ 4 = HBA_PORT_DET_PRESENT ∧ port.ssts / 2 ^ 8 % 2 ^ 4 = HBA_PORT_IPM_ACTIVE

instance (port : HBA_PORT) : Decidable (Active port) := inferInstanceAs (Decidable (_ ∧ _))

/-- The ports that are implemented and have a device, in increasing order. -/
def disks (abar : HBA_MEM) : List ℕ :=
  (List.range 32).filter fun i => abar.pi.testBit i && decide (Active (abar.ports i))

/-- The second of the list, or -1. -/
def second : List ℕ → ℤ
  | _ :: i :: _ => i
  | _ => -1

/-- The second disk is returned, and no status was read of a port that is not implemented. -/
structure ProbesRight (abar : HBA_MEM) (s : Probe) : Prop where
  port : s.port_no = second (disks abar)
  reads : ∀ i ∈ s.status, abar.pi.testBit i = true

theorem second_eq_neg_one {l : List ℕ} : second l = -1 ↔ l.length < 2 := by
  match l with
  | [] => simp [second]
  | [_] => simp [second]
  | _ :: i :: t => 
    simp only [second, List.length_cons]
    omega

theorem second_append {l : List ℕ} {i : ℕ} :
    second (l ++ [i]) = if l.length + 1 = 2 then (i : ℤ) else second l := by
  match l with
  | [] => rfl
  | [_] => rfl
  | _ :: _ :: t => simp [second]

/-- The ports with a device, implemented or not. -/
def devices (abar : HBA_MEM) (n : ℕ) : List ℕ :=
  (List.range n).filter fun i => decide (Active (abar.ports i))

theorem devices_succ (n : ℕ) : devices abar (n + 1) =
    if Active (abar.ports n) then devices abar n ++ [n] else devices abar n := by
  rw [devices, List.range_succ, List.filter_append, List.filter_singleton]
  split_ifs with h
  · rw [decide_eq_true h]
    rfl
  · rw [decide_eq_false h]
    exact List.append_nil _

/-- With bit 0 set every port is taken for implemented. -/
theorem probe_all (h0 : abar.pi.testBit 0 = true) (n : ℕ) :
    (List.range n).foldl (probe_body abar) ⟨-1, 0, []⟩ =
      ⟨second (devices abar n), (devices abar n).length, List.range n⟩ := by
  have hpi : ¬ abar.pi &&& 1 = 0 := by
    rw [Nat.testBit_zero] at h0
    rw [Nat.and_one_is_mod, of_decide_eq_true h0]
    decide
  induction n with
  | zero => rfl
  | succ n ih =>
    have hactive : (¬ ((abar.ports n).ssts &&& 0x0F ≠ HBA_PORT_DET_PRESENT ∨
        (abar.ports n).ssts >>> 8 &&& 0x0F ≠ HBA_PORT_IPM_ACTIVE)) ↔ Active (abar.ports n) := by
      have hdet : (abar.ports n).ssts &&& 0x0F = (abar.ports n).ssts % 2 ^ 4 :=
        Nat.and_two_pow_sub_one_eq_mod _ 4
      have hipm : (abar.ports n).ssts >>> 8 &&& 0x0F = (abar.ports n).ssts / 2 ^ 8 % 2 ^ 4 :=
        shiftRight_and_mask _ 4 8
      rw [hdet, hipm, not_or, not_not, not_not, Active]
    rw [List.range_succ, List.foldl_append, ih, List.foldl_cons, List.foldl_nil, probe_body,
      if_neg hpi, devices_succ]
    by_cases hdev : Active (abar.ports n)
    · rw [if_neg (hactive.mpr hdev), if_pos hdev, second_append, List.length_append]
      rfl
    · rw [if_pos (not_not.mp (hactive.not.mpr hdev)), if_neg hdev]

/-- With bit 0 clear no port is looked at. -/
theorem probe_none (h0 : abar.pi.testBit 0 = false) (l : List ℕ) (s : Probe) :
    l.foldl (probe_body abar) s = s := by
  have hpi : abar.pi &&& 1 = 0 := by
    rw [Nat.testBit_zero] at h0
    have hmod := of_decide_eq_false h0
    rw [Nat.and_one_is_mod]
    omega
  induction l with
  | nil => rfl
  | cons i l ih => rw [List.foldl_cons, probe_body, if_pos hpi, ih]

/-- **`ahic_probe_port`** returns the second disk, and reads the status of implemented ports
only, exactly if all 32 ports are implemented, or the first is not and there is no second
disk. -/
theorem ahic_probe_port_iff : ProbesRight abar (ahic_probe_port abar) ↔
    (∀ i < 32, abar.pi.testBit i = true) ∨
      abar.pi.testBit 0 = false ∧ (disks abar).length < 2 := by
  cases h0 : abar.pi.testBit 0 with
  | true =>
    rw [ahic_probe_port, probe_all h0]
    constructor
    · exact fun h => .inl fun i hi => h.reads i (List.mem_range.mpr hi)
    · rintro (hall | ⟨hno, -⟩)
      · refine ⟨congrArg second ?_, fun i hi => hall i (List.mem_range.mp hi)⟩
        refine List.filter_congr fun i hi => ?_
        rw [hall i (List.mem_range.mp hi), Bool.true_and]
      · cases hno
  | false =>
    rw [ahic_probe_port, probe_none h0]
    constructor
    · exact fun h => .inr ⟨rfl, second_eq_neg_one.mp h.port.symm⟩
    · rintro (hall | ⟨-, hlen⟩)
      · have hset := hall 0 (by decide)
        rw [h0] at hset
        cases hset
      · exact ⟨(second_eq_neg_one.mpr hlen).symm, by simp⟩

/-- Two disks behind the ports 1 and 3, which are the ports that are implemented. -/
theorem second_disk_not_found :
    ¬ ProbesRight ⟨0, 0xA, fun _ => ⟨0x113, 0, 0⟩⟩
      (ahic_probe_port ⟨0, 0xA, fun _ => ⟨0x113, 0, 0⟩⟩) := by
  intro h
  have hport := h.port
  revert hport
  decide

end Loos.Hba
