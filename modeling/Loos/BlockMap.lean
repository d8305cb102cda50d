/-
The steps of `get_physical_block`.

The function takes a logical block apart by three subtractions and by divisions in between, in
32 bits. It is written here once more with a note before each subtraction and product and
before each use of an index; without its notes it is the one of `Ext2`
([`erase_get_physical_block`]). The indices that it uses for a block are the way to a leaf: the
pointers of an inode are the roots of a row of trees, twelve of them leaves ([`slot_eq`]).
-/
import Loos.Ext2
import Loos.Lib.Forest
import Mathlib.Tactic.GCongr

set_option autoImplicit false

namespace Loos.BlockMap

open SysLib Ahci Ext2

/-! ## Steps -/

/-- An index into an array of `n` words, the use of `len` bytes at `off` of an array of `size`,
and the arithmetic of `uint32_t`. -/
inductive Step where
  | index (i n : ℕ)
  | range (off len size : ℕ)
  | add (a b : ℕ)
  | sub (a b : ℕ)
  | mul (a b : ℕ)
deriving DecidableEq

/-- Nothing is out of bounds, and nothing wraps. -/
def Step.Safe : Step → Prop
  | index i n => i < n
  | range off len size => off + len ≤ size
  | add a b => a + b < 4294967296
  | sub a b => b ≤ a
  | mul a b => a * b < 4294967296

instance : (s : Step) → Decidable s.Safe
  | .index _ _ => inferInstanceAs (Decidable (_ < _))
  | .range _ _ _ => inferInstanceAs (Decidable (_ ≤ _))
  | .add _ _ => inferInstanceAs (Decidable (_ < _))
  | .sub _ _ => inferInstanceAs (Decidable (_ ≤ _))
  | .mul _ _ => inferInstanceAs (Decidable (_ < _))

/-- The index, if the step uses one. -/
def Step.index? : Step → Option ℕ
  | index i _ => some i
  | _ => none

/-- A program that notes its steps. -/
abbrev NotedProg (α : Type) := Prog (Step ⊕ BlockRead) (ℤ × Mem) Stop α

def note (s : Step) : NotedProg Unit := .ask (.inl s) fun _ => .ret ()

def read_block (block_offset : ℕ) : NotedProg Mem :=
  .ask (.inr ⟨block_offset, none⟩) fun r => .ret r.2

/-! ## The code -/

/-- `get_physical_block`. -/
def get_physical_block (block_size : ℕ) (inode : ext2_inode) (logical_block : ℕ) :
    NotedProg ℕ := do
  let ptrs_per_block := block_size / 4
  if logical_block < 12 then do
    note (.index logical_block 15)
    .ret (inode.i_block logical_block)
  else do
    note (.sub logical_block 12)
    let logical_block := logical_block - 12
    if logical_block < ptrs_per_block then do
      note (.index 12 15)
      let buffer ← read_block (inode.i_block 12)
      note (.index logical_block ptrs_per_block)
      .ret (buffer.load (4 * logical_block) 4)
    else do
      note (.sub logical_block ptrs_per_block)
      let logical_block := logical_block - ptrs_per_block
      note (.mul ptrs_per_block ptrs_per_block)
      if logical_block < ptrs_per_block * ptrs_per_block % 4294967296 then do
        note (.index 13 15)
        let first_level ← read_block (inode.i_block 13)
        note (.index (logical_block / ptrs_per_block) ptrs_per_block)
        let second_level ← read_block (first_level.load (4 * (logical_block / ptrs_per_block)) 4)
        note (.index (logical_block % ptrs_per_block) ptrs_per_block)
        .ret (second_level.load (4 * (logical_block % ptrs_per_block)) 4)
      else do
        note (.mul ptrs_per_block ptrs_per_block)
        note (.sub logical_block (ptrs_per_block * ptrs_per_block % 4294967296))
        let logical_block := logical_block - ptrs_per_block * ptrs_per_block % 4294967296
        note (.index 14 15)
        note (.mul ptrs_per_block ptrs_per_block)
        let idx1 := logical_block / (ptrs_per_block * ptrs_per_block % 4294967296)
        let idx2 := logical_block / ptrs_per_block % ptrs_per_block
        let idx3 := logical_block % ptrs_per_block
        let first_level ← read_block (inode.i_block 14)
        note (.index idx1 ptrs_per_block)
        let second_level ← read_block (first_level.load (4 * idx1) 4)
        note (.index idx2 ptrs_per_block)
        let third_level ← read_block (second_level.load (4 * idx2) 4)
        note (.index idx3 ptrs_per_block)
        .ret (third_level.load (4 * idx3) 4)

/-- The steps of a call. -/
def steps (d : Dev) (bs : ℕ) (inode : ext2_inode) (lb : ℕ) : List Step :=
  Prog.notes answer d (get_physical_block bs inode lb)

/-- The pointer that is used for a logical block: the indices on the way to it, in `i_block` and
in the index blocks. -/
def slot (d : Dev) (bs : ℕ) (inode : ext2_inode) (lb : ℕ) : List ℕ :=
  (steps d bs inode lb).filterMap Step.index?

/-- The pointers of an inode with `p` pointers in an index block. -/
inductive Slot (p : ℕ) : List ℕ → Prop
  | direct {i : ℕ} (hi : i < 12) : Slot p [i]
  | single {i : ℕ} (hi : i < p) : Slot p [12, i]
  | double {i j : ℕ} (hi : i < p) (hj : j < p) : Slot p [13, i, j]
  | triple {i j k : ℕ} (hi : i < p) (hj : j < p) (hk : k < p) : Slot p [14, i, j, k]

/-- The powers of two from 1024 to 16384. -/
def BlockSize (bs : ℕ) : Prop := ∃ k ≤ 4, bs = 1024 * 2 ^ k

variable {d : Dev} {bs lb p : ℕ} {inode : ext2_inode} {α : Type}

/-! ## The function of `Ext2` -/

@[simp] theorem erase_note (s : Step) (f : Unit → NotedProg α) :
    (note s >>= f).erase = (f ()).erase := rfl

@[simp] theorem erase_read_block (b : ℕ) (f : Mem → NotedProg α) :
    (read_block b >>= f).erase = read_index b >>= fun buf => (f buf).erase := rfl

theorem erase_get_physical_block :
    (get_physical_block bs inode lb).erase = Ext2.get_physical_block bs inode lb := by
  simp only [get_physical_block, Ext2.get_physical_block, Prog.erase_ite, erase_note,
    erase_read_block, Prog.erase]

/-! ## The notes -/

theorem notes_note (s : Step) (f : Unit → NotedProg α) :
    Prog.notes answer d (note s >>= f) = s :: Prog.notes answer d (f ()) := rfl

theorem notes_read_block (b : ℕ) (f : Mem → NotedProg α) :
    Prog.notes answer d (read_block b >>= f) =
      Prog.notes answer (answer d ⟨b, none⟩).2 (f (answer d ⟨b, none⟩).1.2) := rfl

/-- The steps are the same whatever is on the disk. -/
theorem steps_eq : steps d bs inode lb =
    let p := bs / 4
    if lb < 12 then [.index lb 15] else
      .sub lb 12 :: if lb - 12 < p then [.index 12 15, .index (lb - 12) p] else
        let x := lb - 12 - p
        .sub (lb - 12) p :: .mul p p :: if x < p * p % 4294967296 then
            [.index 13 15, .index (x / p) p, .index (x % p) p]
          else
            let y := x - p * p % 4294967296
            [.mul p p, .sub x (p * p % 4294967296), .index 14 15, .mul p p,
              .index (y / (p * p % 4294967296)) p, .index (y / p % p) p, .index (y % p) p] := by
  simp only [steps, get_physical_block, Prog.notes_ite, notes_note, notes_read_block, Prog.notes]

/-! ## The pointers as trees -/

/-- The depths of the trees below the 15 pointers of an inode. -/
def depths : List ℕ := List.replicate 12 0 ++ [1, 2, 3]

theorem leaves_depths : Forest.leaves p depths = 12 + p + p ^ 2 + p ^ 3 := by
  simp [depths, Forest.leaves]
  ring

/-- The sizes of the index blocks. -/
theorem BlockSize.ptrs (h : BlockSize bs) :
    256 ≤ bs / 4 ∧ bs / 4 ≤ 4096 ∧ bs / 4 * (bs / 4) < 4294967296 := by
  have hsizes : ∀ k ≤ 4, 256 ≤ 1024 * 2 ^ k / 4 ∧ 1024 * 2 ^ k / 4 ≤ 4096 ∧
      1024 * 2 ^ k / 4 * (1024 * 2 ^ k / 4) < 4294967296 := by decide
  obtain ⟨k, hk, rfl⟩ := h
  exact hsizes k hk

/-- The way to a leaf below the second of the index pointers. -/
theorem path_double {x : ℕ} (hx : x < p * p) :
    Forest.path p 12 [1, 2, 3] (p + x) = [13, x / p, x % p] ∧ x / p < p := by
  have hdiv : x / p < p := Nat.div_lt_of_lt_mul hx
  rw [Forest.path_of_ge (by simp), pow_one, Nat.add_sub_cancel_left,
    Forest.path_of_lt (by rwa [pow_two])]
  simp [Forest.digits, Nat.mod_eq_of_lt hdiv, hdiv]

/-- The way to a leaf below the third of them. -/
theorem path_triple {x : ℕ} (hx : x < p ^ 3) :
    Forest.path p 12 [1, 2, 3] (p + (p * p + x)) = [14, x / (p * p), x / p % p, x % p] ∧
      x / (p * p) < p := by
  have hdiv : x / (p * p) < p := by
    apply Nat.div_lt_of_lt_mul
    calc x < p ^ 3 := hx
      _ = p * p * p := by ring
  rw [Forest.path_of_ge (by simp), pow_one, Nat.add_sub_cancel_left,
    Forest.path_of_ge (by rw [pow_two]; omega), pow_two, Nat.add_sub_cancel_left,
    Forest.path_of_lt hx]
  simp [Forest.digits, pow_two, Nat.mod_eq_of_lt hdiv, hdiv]

/-- The steps of a call where no product wraps, and the way to the leaf with that number. -/
theorem steps_path (hpos : 0 < bs / 4) (hsq : bs / 4 * (bs / 4) < 4294967296)
    (hlb : lb < 12 + bs / 4 + (bs / 4) ^ 2 + (bs / 4) ^ 3) :
    slot d bs inode lb = Forest.path (bs / 4) 0 depths lb ∧ ∀ s ∈ steps d bs inode lb, s.Safe := by
  rw [slot, steps_eq, depths, Forest.path_replicate]
  generalize bs / 4 = p at *
  simp only [Nat.mod_eq_of_lt hsq]
  have hmod : ∀ x, x % p < p := fun x => Nat.mod_lt x hpos
  by_cases h12 : lb < 12
  · simp [h12, Step.index?, Step.Safe]
    omega
  obtain ⟨x, rfl⟩ := Nat.exists_eq_add_of_le (show 12 ≤ lb by omega)
  simp only [if_neg h12, Nat.add_sub_cancel_left, Nat.zero_add]
  by_cases hsingle : x < p
  · rw [Forest.path_of_lt (by simpa using hsingle)]
    simp [hsingle, List.filterMap_cons, Step.index?, Step.Safe, Forest.digits,
      Nat.mod_eq_of_lt hsingle]
  obtain ⟨x, rfl⟩ := Nat.exists_eq_add_of_le (show p ≤ x by omega)
  simp only [if_neg hsingle, Nat.add_sub_cancel_left]
  by_cases hdouble : x < p * p
  · obtain ⟨hpath, hdiv⟩ := path_double hdouble
    simp [hpath, hdouble, List.filterMap_cons, Step.index?, Step.Safe, hdiv, hmod, hsq]
  obtain ⟨x, rfl⟩ := Nat.exists_eq_add_of_le (show p * p ≤ x by omega)
  have hcube : x < p ^ 3 := by
    rw [pow_two] at hlb
    omega
  obtain ⟨hpath, hdiv⟩ := path_triple hcube
  simp [hpath, List.filterMap_cons, Step.index?, Step.Safe, hdiv, hmod, hsq]

/-- **The way to a logical block** is the one to the leaf with its number. -/
theorem slot_eq (h : BlockSize bs) (hlb : lb < Forest.leaves (bs / 4) depths) :
    slot d bs inode lb = Forest.path (bs / 4) 0 depths lb := by
  obtain ⟨hpos, -, hsq⟩ := h.ptrs
  rw [leaves_depths] at hlb
  exact (steps_path (by omega) hsq hlb).1

end Loos.BlockMap
