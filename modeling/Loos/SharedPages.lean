/-
Segments that share a page.

`elf_loader` gives every segment fresh pages of zeros, for a range that is rounded to the
alignment and goes on for four more pages when the segment is writable. The pages that an
earlier segment has there are lost, and its bytes in them read as zeros from then on. A
segment comes out whole exactly when those bytes were zeros anyway ([`present_iff`]).

The argument is about the order of the segments only. What one segment leaves is
[`placed_own`] and [`placed_other`]; the segments behind it clear what they touch
([`foldl_other`]), since their own bytes are elsewhere.
-/
import Loos.LoadFile

set_option autoImplicit false

namespace Loos.SharedPages

open SysLib Kern PageTable Ext2 ElfLoader Image LoadImage LoadFile

def USER_STACK_BOTTOM : ℕ := 0x7FF00000

/-! ## Executables -/

/-- **A well-formed executable** that fits in `elf_buf`: its headers and segments are in the
file, and the segments are apart, below the stack, and aligned to powers of two. -/
structure WellFormed (file : List UInt8) : Prop where
  fits : file.length ≤ elf_buf_size
  header : 64 ≤ file.length
  table : (Elf_Ehdr.ofBytes (bytesOf file)).e_phoff +
    Elf_Phdr_size * (Elf_Ehdr.ofBytes (bytesOf file)).e_phnum ≤ file.length
  data : ∀ s ∈ loads (bytesOf file), s.p_offset + s.p_filesz ≤ file.length
  sizes : ∀ s ∈ loads (bytesOf file), s.p_filesz ≤ s.p_memsz
  low : ∀ s ∈ loads (bytesOf file), s.p_vaddr + s.p_memsz ≤ USER_STACK_BOTTOM
  align : ∀ s ∈ loads (bytesOf file), ∃ k, s.p_align = 2 ^ k
  disjoint : (loads (bytesOf file)).Pairwise fun s t =>
    s.p_vaddr + s.p_memsz ≤ t.p_vaddr ∨ t.p_vaddr + t.p_memsz ≤ s.p_vaddr

/-- The byte at `y` of a segment: the bytes of the file, then zeros. -/
def segmentByte (buf : Mem) (s : Elf_Phdr) (y : ℕ) : UInt8 :=
  if y < s.p_vaddr + s.p_filesz then buf (s.p_offset + (y - s.p_vaddr)) else 0

/-- The segment is in the address space, byte for byte. -/
def Present (buf : Mem) (s : Elf_Phdr) (v : View) : Prop :=
  ∀ y, s.p_vaddr ≤ y → y < s.p_vaddr + s.p_memsz → v y = some (segmentByte buf s y)

/-- The bytes of the file that `s` has in the range of `t` are zeros. -/
def Spared (buf : Mem) (s t : Elf_Phdr) : Prop :=
  ∀ y, s.p_vaddr ≤ y → y < s.p_vaddr + s.p_filesz → t.start ≤ y → y < t.end_ →
    buf (s.p_offset + (y - s.p_vaddr)) = 0

/-! ## The range of a segment -/

/-- A segment that can be loaded below the stack. -/
structure Good (s : Elf_Phdr) : Prop where
  sizes : s.p_filesz ≤ s.p_memsz
  nonempty : s.p_filesz ≠ 0
  low : s.p_vaddr + s.p_memsz ≤ USER_STACK_BOTTOM
  align : ∃ k, s.p_align = 2 ^ k
  align_lt : s.p_align < 2 ^ 64

/-- What the rounding gives: whole pages around the segment, which reach beyond `2^47` only
when they start at 0. -/
structure Rounded (s : Elf_Phdr) : Prop where
  start_page : s.start % PGSIZE = 0
  end_page : s.end_ % PGSIZE = 0
  start_le : s.start ≤ s.p_vaddr
  le_end : s.p_vaddr + s.p_memsz ≤ s.end_
  end_le : s.end_ + PGSIZE ≤ 2 ^ 64
  low : s.end_ ≤ MAXVA ∨ s.start = 0

variable {buf : Mem} {s t : Elf_Phdr} {v : View} {y : ℕ} {L : List Elf_Phdr}

theorem pg_size_eq (h : Good s) : ∃ k, 14 ≤ k ∧ k < 64 ∧ s.pg_size = 2 ^ k := by
  obtain ⟨k, hk⟩ := h.align
  have hlt := h.align_lt
  rw [hk] at hlt
  have hk64 : k < 64 := (Nat.pow_lt_pow_iff_right (by omega)).mp hlt
  rw [Elf_Phdr.pg_size, hk]
  by_cases hsmall : PGSIZE > 2 ^ k
  · rw [if_pos hsmall]
    exact ⟨14, Nat.le_refl _, by omega, rfl⟩
  · rw [if_neg hsmall]
    refine ⟨k, ?_, hk64, rfl⟩
    by_contra hlow
    have hlt : 2 ^ k < 2 ^ 14 := Nat.pow_lt_pow_right (by omega) (by omega)
    unfold PGSIZE at hsmall
    omega

theorem pg_size_pos (s : Elf_Phdr) : 0 < s.pg_size := by
  rw [Elf_Phdr.pg_size]
  unfold PGSIZE
  split_ifs <;> omega

theorem ALIGN_bounds (a : ℕ) {to_ : ℕ} (h : 0 < to_) : ALIGN a to_ ≤ a ∧ a < ALIGN a to_ + to_ := by
  have hdiv := Nat.div_add_mod' a to_
  have hmod := Nat.mod_lt a h
  rw [ALIGN]
  omega

/-- Nothing overflows on the way to `end`. -/
theorem Good.end_eq (h : Good s) : ∃ e ≤ 4,
    s.end_ = ALIGN (s.p_vaddr + s.p_memsz - 1) s.pg_size + s.pg_size + e * PGSIZE := by
  obtain ⟨k, -, hk64, hpg⟩ := pg_size_eq h
  obtain ⟨hsizes, hne, hlow, -, -⟩ := h
  unfold USER_STACK_BOTTOM at hlow
  have hpos := pg_size_pos s
  have hle : s.pg_size ≤ 2 ^ 63 := by
    rw [hpg]
    exact Nat.pow_le_pow_right (by omega) (by omega)
  obtain ⟨e, he⟩ : ∃ e, e = if s.Writable then 4 else 0 := ⟨_, rfl⟩
  have he4 : e ≤ 4 := by
    rw [he]
    split <;> omega
  have hextra : (if s.Writable then 4 * PGSIZE else 0) = e * PGSIZE := by
    rw [he]
    split <;> rfl
  -- the last byte of the segment
  have hlast : (s.p_vaddr + s.p_memsz + 2 ^ 64 - 1) % 2 ^ 64 = s.p_vaddr + s.p_memsz - 1 := by omega
  have hdown := (ALIGN_bounds (s.p_vaddr + s.p_memsz - 1) hpos).1
  refine ⟨e, he4, ?_⟩
  rw [Elf_Phdr.end_, hlast, hextra]
  apply Nat.mod_eq_of_lt
  unfold PGSIZE
  omega

theorem Good.rounded (h : Good s) : Rounded s := by
  obtain ⟨k, hk14, hk64, hpg⟩ := pg_size_eq h
  obtain ⟨e, he4, hend⟩ := h.end_eq
  obtain ⟨hsizes, hne, hlow, -, -⟩ := h
  unfold USER_STACK_BOTTOM at hlow
  have hpos := pg_size_pos s
  have hle : ∀ n, k ≤ n → s.pg_size ≤ 2 ^ n := by
    intro n hn
    rw [hpg]
    exact Nat.pow_le_pow_right (by omega) hn
  -- the alignment is a number of pages
  have hpages : s.pg_size = 2 ^ (k - 14) * PGSIZE := by
    rw [hpg, show PGSIZE = 2 ^ 14 by norm_num, ← pow_add, Nat.sub_add_cancel hk14]
  have hmod : ∀ a, ALIGN a s.pg_size % PGSIZE = 0 := by
    intro a
    rw [ALIGN, hpages, ← Nat.mul_assoc]
    exact Nat.mul_mod_left _ _
  obtain ⟨hstart_le, -⟩ := ALIGN_bounds s.p_vaddr hpos
  obtain ⟨hdown, hup⟩ := ALIGN_bounds (s.p_vaddr + s.p_memsz - 1) hpos
  have hle63 := hle 63 (by omega)
  refine ⟨hmod _, ?_, hstart_le, by omega, ?_, ?_⟩
  · have hpg0 : s.pg_size % PGSIZE = 0 := by
      rw [hpages]
      exact Nat.mul_mod_left _ _
    have hlast := hmod (s.p_vaddr + s.p_memsz - 1)
    rw [hend]
    unfold PGSIZE at *
    omega
  · rw [hend]
    unfold PGSIZE
    omega
  · by_cases hsmall : k < 47
    · left
      have hle46 := hle 46 (by omega)
      rw [hend]
      unfold MAXVA PGSIZE
      omega
    · -- the alignment is larger than every address of the segment
      right
      have hbig : 2 ^ 47 ≤ s.pg_size := by
        rw [hpg]
        exact Nat.pow_le_pow_right (by omega) (by omega)
      rw [Elf_Phdr.start, ALIGN, Nat.div_eq_of_lt (by omega), Nat.zero_mul]

/-- The pages that are visited for a segment are the pages of its range. -/
theorem visits_iff (h : Rounded s) (hy : y < USER_STACK_BOTTOM) :
    Visits s.start s.end_ y ↔ s.start ≤ y ∧ y < s.end_ := by
  obtain ⟨hstart, hend, -, -, hend_le, hlow⟩ := h
  have hup : PGROUNDUP s.end_ = s.end_ := by
    rw [PGROUNDUP_eq hend_le]
    unfold PGSIZE at *
    omega
  unfold USER_STACK_BOTTOM at hy
  rw [Visits, hup]
  constructor
  · rintro ⟨i, hi, hpage⟩
    -- below `2^47` the cursor is the address; else the range starts at 0 and covers all
    rcases hlow with hlow | hzero
    · rw [Nat.mod_eq_of_lt (by omega)] at hpage
      unfold PGSIZE at *
      omega
    · by_cases hend47 : s.end_ ≤ MAXVA
      · rw [Nat.mod_eq_of_lt (by omega)] at hpage
        unfold PGSIZE at *
        omega
      · unfold MAXVA at hend47
        omega
  · rintro ⟨hle, hlt⟩
    refine ⟨(y - s.start) / PGSIZE, ?_, ?_⟩
    · have := Nat.div_mul_le_self (y - s.start) PGSIZE
      omega
    · have := Nat.div_mul_le_self (y - s.start) PGSIZE
      rw [Nat.mod_eq_of_lt (by unfold MAXVA; omega)]
      unfold PGSIZE at *
      omega

/-! ## One segment -/

theorem zeroed_eq (h : Rounded s) (hy : y < USER_STACK_BOTTOM) :
    zeroed s.start s.end_ v y = if s.start ≤ y ∧ y < s.end_ then some 0 else v y := by
  classical
  have hlow : y < MAXVA := by
    unfold USER_STACK_BOTTOM MAXVA at *
    omega
  rw [zeroed]
  apply if_congr _ rfl rfl
  rw [visits_iff h hy]
  exact and_iff_right hlow

/-- All bytes of the segment are mapped, so all are copied. -/
theorem reach_zeroed (h : Good s) :
    reach (zeroed s.start s.end_ v) s.p_vaddr s.p_filesz = s.p_filesz := by
  have hr := h.rounded
  obtain ⟨hsizes, -, hlow, -, -⟩ := h
  apply reach_eq (Nat.le_refl _) _ (.inl rfl)
  intro i hi
  have h1 := hr.start_le
  have h2 := hr.le_end
  rw [zeroed_eq hr (by omega), if_pos (by omega)]
  simp

/-- What a segment leaves at its own addresses. -/
theorem placed_own (h : Good s) (h1 : s.p_vaddr ≤ y) (h2 : y < s.p_vaddr + s.p_memsz) :
    placed buf s v y = some (segmentByte buf s y) := by
  have hr := h.rounded
  have hstart := hr.start_le
  have hend := hr.le_end
  have hlow := h.low
  rw [placed, copied, reach_zeroed h, segmentByte]
  by_cases hfile : y < s.p_vaddr + s.p_filesz
  · rw [if_pos ⟨h1, hfile⟩, if_pos hfile]
  · rw [if_neg fun hc => hfile hc.2, if_neg hfile, zeroed_eq hr (by omega), if_pos (by omega)]

/-- What it leaves elsewhere: zeros in its range. -/
theorem placed_other (h : Good s) (hy : y < USER_STACK_BOTTOM)
    (hout : ¬ (s.p_vaddr ≤ y ∧ y < s.p_vaddr + s.p_memsz)) :
    placed buf s v y = if s.start ≤ y ∧ y < s.end_ then some 0 else v y := by
  have hsizes := h.sizes
  rw [placed, copied, reach_zeroed h, if_neg (by omega), zeroed_eq h.rounded hy]

/-! ## All segments -/

/-- The segments behind: whoever has `y` in his range clears it. -/
theorem foldl_other (hgood : ∀ t ∈ L, Good t) (hy : y < USER_STACK_BOTTOM)
    (hout : ∀ t ∈ L, ¬ (t.p_vaddr ≤ y ∧ y < t.p_vaddr + t.p_memsz)) :
    L.foldl (fun v t => placed buf t v) v y =
      if ∃ t ∈ L, t.start ≤ y ∧ y < t.end_ then some 0 else v y := by
  -- from the first segment on; each one either clears `y` or leaves it
  induction L generalizing v with
  | nil =>
    rw [if_neg (by simp)]
    rfl
  | cons t L ih =>
    rw [List.foldl_cons, ih (fun t' ht' => hgood t' (List.mem_cons_of_mem _ ht'))
      (fun t' ht' => hout t' (List.mem_cons_of_mem _ ht')),
      placed_other (hgood t List.mem_cons_self) hy (hout t List.mem_cons_self)]
    by_cases hrest : ∃ t' ∈ L, t'.start ≤ y ∧ y < t'.end_
    · obtain ⟨t', ht', hin⟩ := hrest
      rw [if_pos ⟨t', ht', hin⟩, if_pos ⟨t', List.mem_cons_of_mem _ ht', hin⟩]
    · rw [if_neg hrest]
      apply if_congr _ rfl rfl
      constructor
      · intro hin
        exact ⟨t, List.mem_cons_self, hin⟩
      · rintro ⟨t', ht', hin⟩
        rcases List.mem_cons.mp ht' with rfl | ht'
        · exact hin
        · exact absurd ⟨t', ht', hin⟩ hrest

/-- The first segment is whole in the end if those behind it spare its bytes. -/
theorem first_present_iff (hs : Good s) (hgood : ∀ t ∈ L, Good t)
    (hdisjoint : ∀ t ∈ L, s.p_vaddr + s.p_memsz ≤ t.p_vaddr ∨ t.p_vaddr + t.p_memsz ≤ s.p_vaddr) :
    Present buf s (L.foldl (fun v t => placed buf t v) (placed buf s v)) ↔
      ∀ t ∈ L, Spared buf s t := by
  have hfinal : ∀ y, s.p_vaddr ≤ y → y < s.p_vaddr + s.p_memsz →
      L.foldl (fun v t => placed buf t v) (placed buf s v) y =
        if ∃ t ∈ L, t.start ≤ y ∧ y < t.end_ then some 0 else some (segmentByte buf s y) := by
    intro y h1 h2
    have hlow := hs.low
    rw [foldl_other hgood (by omega), placed_own hs h1 h2]
    intro t ht hin
    rcases hdisjoint t ht with hd | hd
    · omega
    · omega
  -- a cleared byte is right if it is zero anyway, and a byte behind the file is
  constructor
  · intro hpresent t ht y h1 h2 h3 h4
    have hsizes := hs.sizes
    have hbyte := hpresent y h1 (by omega)
    rw [hfinal y h1 (by omega), if_pos ⟨t, ht, h3, h4⟩, segmentByte, if_pos h2] at hbyte
    exact (Option.some.inj hbyte).symm
  · intro hspared y h1 h2
    rw [hfinal y h1 h2]
    split_ifs with hcleared
    · obtain ⟨t, ht, h3, h4⟩ := hcleared
      rw [segmentByte]
      split_ifs with hfile
      · rw [hspared t ht y h1 hfile h3 h4]
      · rfl
    · rfl

/-- **The segments are whole exactly when every one spares those before it.** -/
theorem foldl_present_iff (hgood : ∀ t ∈ L, Good t) (hdisjoint : L.Pairwise fun s t =>
      s.p_vaddr + s.p_memsz ≤ t.p_vaddr ∨ t.p_vaddr + t.p_memsz ≤ s.p_vaddr) :
    (∀ s ∈ L, Present buf s (L.foldl (fun v t => placed buf t v) v)) ↔
      L.Pairwise (Spared buf) := by
  induction L generalizing v with
  | nil => simp
  | cons s L ih =>
    obtain ⟨hhead, htail⟩ := List.pairwise_cons.mp hdisjoint
    have hrest := fun t ht => hgood t (List.mem_cons_of_mem s ht)
    rw [List.forall_mem_cons, List.pairwise_cons, List.foldl_cons, ih hrest htail,
      first_present_iff (hgood s List.mem_cons_self) hrest hhead]

/-! ## The loader -/

variable {found : Option ext2_inode} {file : List UInt8} {m : Machine}

theorem bytes_filled {old : Mem} {off n : ℕ} (hw : WellFormed file) (h : off + n ≤ file.length) :
    (filled old file).load off n = (bytesOf file).load off n := by
  have hfits := hw.fits
  apply Mem.load_congr
  intro x h1 h2
  apply filled_of_lt
  rw [brought]
  omega

theorem header_filled (old : Mem) {off : ℕ} (hw : WellFormed file)
    (h : off + Elf_Phdr_size ≤ file.length) :
    Elf_Phdr.ofBytes (filled old file) off = Elf_Phdr.ofBytes (bytesOf file) off := by
  have hload : ∀ a n, a + n ≤ 56 →
      (filled old file).load (off + a) n = (bytesOf file).load (off + a) n := by
    intro a n hfit
    apply bytes_filled hw
    unfold Elf_Phdr_size at h
    omega
  have hfirst := hload 0 4 (by omega)
  rw [Nat.add_zero] at hfirst
  simp only [Elf_Phdr.ofBytes]
  rw [hfirst, hload 4 4 (by omega), hload 8 8 (by omega), hload 16 8 (by omega),
    hload 32 8 (by omega), hload 40 8 (by omega), hload 48 8 (by omega)]

/-- The header `i` ends before the table does. -/
theorem le_of_table {e_phoff n i bound : ℕ} (h : e_phoff + Elf_Phdr_size * n ≤ bound) (hi : i < n) :
    e_phoff + Elf_Phdr_size * i + Elf_Phdr_size ≤ bound := by
  have := Nat.mul_le_mul_left Elf_Phdr_size (Nat.succ_le_of_lt hi)
  rw [Nat.mul_succ] at this
  omega

/-- The place of the headers is found in `elf_buf`. -/
theorem table_filled (old : Mem) (hw : WellFormed file) :
    (Elf_Ehdr.ofBytes (filled old file)).e_phoff = (Elf_Ehdr.ofBytes (bytesOf file)).e_phoff ∧
      (Elf_Ehdr.ofBytes (filled old file)).e_phnum =
        (Elf_Ehdr.ofBytes (bytesOf file)).e_phnum := by
  have hlen := hw.header
  have hphoff : (filled old file).load 32 8 = (bytesOf file).load 32 8 :=
    bytes_filled hw (by omega)
  have hphnum : (filled old file).load 56 2 = (bytesOf file).load 56 2 :=
    bytes_filled hw (by omega)
  exact ⟨hphoff, hphnum⟩

/-- The headers of the file are found there as well. -/
theorem loads_filled (old : Mem) (hw : WellFormed file) :
    loads (filled old file) = loads (bytesOf file) := by
  obtain ⟨hphoff, hphnum⟩ := table_filled old hw
  have htable := hw.table
  obtain ⟨header, hheader⟩ : ∃ header, header = Elf_Ehdr.ofBytes (bytesOf file) := ⟨_, rfl⟩
  rw [← hheader] at htable hphoff hphnum
  rw [loads, loads, hphoff, hphnum, ← hheader, loadsAt, loadsAt, List.map_map, List.map_map]
  apply congrArg
  apply List.map_congr_left
  intro i hi
  apply header_filled old hw
  exact le_of_table htable (List.mem_range.mp hi)

theorem reach_le (v : View) (dst len : ℕ) : reach v dst len ≤ len := by
  rw [reach]
  cases hfind : (List.range len).find? fun i => (v (dst + i)).isNone with
  | none => exact Nat.le_refl _
  | some i =>
    have := List.mem_range.mp (List.mem_of_find?_eq_some hfind)
    exact Nat.le_of_lt this

/-- The bytes of a segment are found there as well. -/
theorem placed_filled (old : Mem) (hw : WellFormed file) (hs : s ∈ loads (bytesOf file)) (v : View) :
    placed (filled old file) s v = placed (bytesOf file) s v := by
  have hfits := hw.fits
  have hdata := hw.data s hs
  apply copied_congr
  intro i hi
  have := reach_le (zeroed s.start s.end_ v) s.p_vaddr s.p_filesz
  apply filled_of_lt
  rw [brought]
  omega

theorem foldl_filled (old : Mem) (hw : WellFormed file) (v : View) :
    (loads (bytesOf file)).foldl (fun v s => placed (filled old file) s v) v =
      (loads (bytesOf file)).foldl (fun v s => placed (bytesOf file) s v) v := by
  apply List.foldl_ext
  intro v s hs
  exact placed_filled old hw hs v

/-- When the loader returns the entry point, the segments were placed one after the other. -/
theorem loaded_image (hw : WellFormed file) (hm : Ready found file m) {entry : ℕ} {v : View}
    (hr : result (elf_loader found m) = some (.loaded entry v)) :
    v = (loads (bytesOf file)).foldl (fun v s => placed (bytesOf file) s v) (fun _ => none) ∧
      ∀ s ∈ loads (bytesOf file), Good s := by
  have heval : Prog.eval (shown (filled m.elf_buf file)) (load_image fun _ => none) =
      .ok (entry, v) := by
    have hsome := elf_loader_outcome hm hr
    generalize Prog.eval (shown (filled m.elf_buf file)) (load_image fun _ => none) = e at hsome
    cases e with
    | error e => cases hsome
    | ok x =>
      obtain ⟨rfl, rfl⟩ := Outcome.loaded.inj hsome
      rfl
  obtain ⟨-, rfl, hok⟩ := eval_load_image_ok heval
  rw [loads_filled m.elf_buf hw] at hok ⊢
  -- the bounds are those of the file; the alignment fits its field
  refine ⟨foldl_filled m.elf_buf hw _, ?_⟩
  intro s hs
  have halign : s.p_align < 2 ^ 64 := by
    obtain ⟨off, -, rfl⟩ := List.mem_map.mp (List.mem_filter.mp hs).1
    have := Mem.load_lt (bytesOf file) (off + 48) 8
    rwa [show (256 : ℕ) ^ 8 = 2 ^ 64 by norm_num] at this
  exact ⟨hw.sizes s hs, (hok s hs).2, hw.low s hs, hw.align s hs, halign⟩

/-- **After `elf_loader` has returned the entry point, all segments are whole exactly when
every one of them spares those before it**: what these have in its rounded range is zero. -/
theorem present_iff (hw : WellFormed file) (hm : Ready found file m) {entry : ℕ} {v : View}
    (hr : result (elf_loader found m) = some (.loaded entry v)) :
    (∀ s ∈ loads (bytesOf file), Present (bytesOf file) s v) ↔
      (loads (bytesOf file)).Pairwise (Spared (bytesOf file)) := by
  obtain ⟨rfl, hgood⟩ := loaded_image hw hm hr
  exact foldl_present_iff hgood hw.disjoint

/-! ## Two segments -/

/-- A program with two segments of one byte, at `v1` and `v2`. -/
def two_segments (v1 v2 : ℕ) : List UInt8 :=
  small_ehdr v1 2 ++ small_phdr PT_LOAD 176 v1 1 ++ small_phdr PT_LOAD 177 v2 1 ++ [0x41, 0x42]

/-- The second segment begins right behind the first, in the same page. -/
def shared : List UInt8 := two_segments 0x100b0 0x100b1

/-- The second segment is in the page behind. -/
def apart : List UInt8 := two_segments 0x100b0 0x140b1

theorem shared_loads : loads (bytesOf shared) =
    [⟨1, 5, 176, 0x100b0, 1, 1, 0x4000⟩, ⟨1, 5, 177, 0x100b1, 1, 1, 0x4000⟩] := by
  decide +kernel

theorem apart_loads : loads (bytesOf apart) =
    [⟨1, 5, 176, 0x100b0, 1, 1, 0x4000⟩, ⟨1, 5, 177, 0x140b1, 1, 1, 0x4000⟩] := by
  decide +kernel

theorem two_length (v1 v2 : ℕ) : (two_segments v1 v2).length = 178 := by
  simp [two_segments, small_ehdr, small_phdr, le, elf_magic]

theorem two_wellFormed {v1 v2 : ℕ}
    (hphoff : (Elf_Ehdr.ofBytes (bytesOf (two_segments v1 v2))).e_phoff = 64)
    (hphnum : (Elf_Ehdr.ofBytes (bytesOf (two_segments v1 v2))).e_phnum = 2)
    (hloads : loads (bytesOf (two_segments v1 v2)) =
      [⟨1, 5, 176, v1, 1, 1, 0x4000⟩, ⟨1, 5, 177, v2, 1, 1, 0x4000⟩])
    (hlt : v1 < v2) (hlow : v2 < USER_STACK_BOTTOM) : WellFormed (two_segments v1 v2) where
  fits := by
    rw [two_length]
    decide
  header := by
    rw [two_length]
    decide
  table := by
    rw [two_length, hphoff, hphnum]
    decide
  data := by
    rw [hloads, two_length]
    simp
  sizes := by
    rw [hloads]
    simp
  low := by
    rw [hloads]
    simp
    omega
  align := by
    rw [hloads]
    have hpow : ∃ k, 0x4000 = 2 ^ k := ⟨14, rfl⟩
    simp [hpow]
  disjoint := by
    rw [hloads]
    simp
    omega

theorem shared_wellFormed : WellFormed shared :=
  two_wellFormed (by decide +kernel) (by decide +kernel) shared_loads (by decide) (by decide)

theorem apart_wellFormed : WellFormed apart :=
  two_wellFormed (by decide +kernel) (by decide +kernel) apart_loads (by decide) (by decide)

theorem shared_small : shared.length ≤ 1024 := by
  rw [shared, two_length]
  decide

theorem apart_small : apart.length ≤ 1024 := by
  rw [apart, two_length]
  decide

theorem apart_present : ∃ v,
    result (elf_loader (some (small_inode apart)) (small_machine apart fun _ => 0)) =
      some (.loaded 0x100b0 v) ∧
    ∀ s ∈ loads (bytesOf apart), Present (bytesOf apart) s v := by
  have hret : (load_elf (filled (fun _ => 0) apart) small_task).toOption.map Prod.fst =
      some 0x100b0 := by
    decide +kernel
  obtain ⟨v, hv⟩ := small_loaded apart_small hret (by decide)
  refine ⟨v, hv, ?_⟩
  apply (present_iff apart_wellFormed (small_ready _ apart_small) hv).mpr
  rw [apart_loads, List.pairwise_pair]
  -- the range of the second segment starts at 0x14000
  intro y h1 h2 h3 h4
  have hstart : 0x14000 ≤ y := h3
  have hend : y < 0x100b1 := h2
  omega

/-- The first segment is lost: its byte is `0x41` in the file, and 0 in memory. -/
theorem shared_lost : WellFormed shared ∧
    Ready (some (small_inode shared)) shared (small_machine shared fun _ => 0) ∧ ∃ v,
    result (elf_loader (some (small_inode shared)) (small_machine shared fun _ => 0)) =
      some (.loaded 0x100b0 v) ∧
    ¬ ∀ s ∈ loads (bytesOf shared), Present (bytesOf shared) s v := by
  have hready := small_ready (fun _ => 0) shared_small
  have hret : (load_elf (filled (fun _ => 0) shared) small_task).toOption.map Prod.fst =
      some 0x100b0 := by
    decide +kernel
  obtain ⟨v, hv⟩ := small_loaded shared_small hret (by decide)
  refine ⟨shared_wellFormed, hready, v, hv, ?_⟩
  obtain ⟨hview, hgood⟩ := loaded_image shared_wellFormed hready hv
  rw [hview, foldl_present_iff hgood shared_wellFormed.disjoint, shared_loads, List.pairwise_pair]
  intro hspared
  have hzero := hspared 0x100b0 (by decide) (by decide) (by decide) (by decide)
  exact absurd hzero (by decide +kernel)

end Loos.SharedPages
