/-
What an earlier file leaves in `elf_buf`.

`elf_buf` is never cleared, and how much `read` brought is not looked at: where a file ends,
the loader goes on with the bytes of the file before. When every byte it looks at comes from
the file itself, the outcome is the same in all kernels ([`Covered.noninterference`]), and so
it is for every complete executable ([`covered_of_wellFormed`]). A file that ends in its header
can be loaded or not, depending on what was loaded before ([`short_interferes`]), unless a
byte that it has rules it out.
-/
import Loos.SharedPages

set_option autoImplicit false

namespace Loos.StaleBytes

open SysLib Kern PageTable Cstring Ext2 ElfLoader Image LoadImage LoadFile SharedPages

/-- **Two kernels that have `file` under the path come to the same outcome**: both fail, or
both return the same entry point and leave the same bytes in the address space. -/
def Noninterference (file : List UInt8) : Prop :=
  ∀ (found₁ found₂ : Option ext2_inode) (m₁ m₂ : Machine) (o₁ o₂ : Outcome),
    Ready found₁ file m₁ → Ready found₂ file m₂ → result (elf_loader found₁ m₁) = some o₁ →
    result (elf_loader found₂ m₂) = some o₂ → o₁ = o₂

/-- What is looked at was brought by `read`. -/
def Inside (file : List UInt8) (q : Look) : Prop := ∀ i < q.len, q.off + i < brought file

/-- The loader looks at the bytes of the file only. -/
def Covered (file : List UInt8) : Prop :=
  ∀ q ∈ Prog.questions (shown (bytesOf file)) (load_image fun _ => none), Inside file q

/-- The bytes of the header that are compared, and what they may be. -/
def checked : List (ℕ × List UInt8) :=
  [(0, [0x7f]), (1, [69]), (2, [76]), (3, [70]), (4, [2]), (16, [2, 3]), (17, [0]), (18, [2]),
    (19, [1])]

/-- A byte that the file has rules it out. -/
def Refused (file : List UInt8) : Prop :=
  ∃ c ∈ checked, c.1 < brought file ∧ bytesOf file c.1 ∉ c.2

variable {found : Option ext2_inode} {file : List UInt8} {buf : Mem} {off len : ℕ}

/-! ## Files that are enough -/

theorem shown_filled {q : Look} (old : Mem) (h : Inside file q) :
    shown (bytesOf file) q = shown (filled old file) q := by
  funext i
  rw [shown, shown]
  split_ifs with hi
  · exact (filled_of_lt (h i hi)).symm
  · rfl

/-- The program sees the same in the file and in `elf_buf`. -/
theorem Covered.eval_eq (h : Covered file) (old : Mem) :
    Prog.eval (shown (filled old file)) (load_image fun _ => none) =
      Prog.eval (shown (bytesOf file)) (load_image fun _ => none) := by
  symm
  apply Prog.eval_congr
  intro q hq
  exact shown_filled old (h q hq)

theorem Covered.noninterference (h : Covered file) : Noninterference file := by
  intro found₁ found₂ m₁ m₂ o₁ o₂ hm₁ hm₂ ho₁ ho₂
  rw [elf_loader_outcome hm₁ ho₁, elf_loader_outcome hm₂ ho₂, h.eval_eq, h.eval_eq]

theorem inside_of_le (h : off + len ≤ brought file) : Inside file ⟨off, len⟩ := by
  intro i hi
  dsimp only at *
  omega

theorem inside_get {α : Type} {f : ℕ → ElfProg α} (h : off + len ≤ brought file)
    (hf : ∀ q ∈ Prog.questions (shown buf) (f (buf.load off len)), Inside file q) :
    ∀ q ∈ Prog.questions (shown buf) (get off len >>= f), Inside file q := by
  rw [LoadImage.get, Prog.ask_bind, Prog.questions, List.forall_mem_cons, shown_load]
  exact ⟨inside_of_le h, hf⟩

theorem inside_require {α : Type} {c : Prop} [Decidable c] {f : Unit → ElfProg α}
    (hf : c → ∀ q ∈ Prog.questions (shown buf) (f ()), Inside file q) :
    ∀ q ∈ Prog.questions (shown buf) (require c >>= f), Inside file q := by
  rw [require]
  split_ifs with hc
  · exact hf hc
  · simp [Prog.questions]

theorem inside_match_magic {α : Type} {magic : List UInt8} {f : Unit → ElfProg α}
    (h : off + magic.length ≤ brought file)
    (hf : ∀ q ∈ Prog.questions (shown buf) (f ()), Inside file q) :
    ∀ q ∈ Prog.questions (shown buf) (match_magic off magic >>= f), Inside file q := by
  induction magic generalizing off with
  | nil => exact hf
  | cons c magic ih =>
    rw [List.length_cons] at h
    rw [match_magic, Prog.bind_assoc]
    apply inside_get (by omega)
    rw [Prog.bind_assoc]
    apply inside_require
    intro _
    exact ih (by omega)

/-- What is left of a look that was inside. -/
theorem Inside.mono {n : ℕ} (h : Inside file ⟨off, len⟩) (hn : n ≤ len) : Inside file ⟨off, n⟩ := by
  intro i hi
  exact h i (Nat.lt_of_lt_of_le hi hn)

theorem inside_read_header (h : 58 ≤ brought file) :
    ∀ q ∈ Prog.questions (shown buf) read_header, Inside file q := by
  rw [read_header]
  apply inside_match_magic (by simp [elf_magic]; omega)
  apply inside_get (by omega)
  apply inside_require
  intro _
  apply inside_get (by unfold EI_CLASS; omega)
  apply inside_require
  intro _
  apply inside_get (by omega)
  apply inside_require
  intro _
  apply inside_get (by omega)
  apply inside_require
  intro _
  apply inside_get (by omega)
  simp [Prog.questions]

/-- A segment whose header and whose bytes are there. -/
theorem inside_load_at {v : View} (h : off + Elf_Phdr_size ≤ brought file)
    (hdata : Inside file
      ⟨(Elf_Phdr.ofBytes buf off).p_offset, (Elf_Phdr.ofBytes buf off).p_filesz⟩) :
    ∀ q ∈ Prog.questions (shown buf) (load_at off v), Inside file q := by
  unfold Elf_Phdr_size at h
  rw [load_at]
  apply inside_get (by omega)
  apply inside_get (by omega)
  apply inside_require
  intro _
  apply inside_require
  intro _
  rw [Prog.questions, List.forall_mem_cons, shown_header]
  refine ⟨inside_of_le h, ?_⟩
  dsimp only
  rw [Prog.questions, List.forall_mem_cons]
  constructor
  · -- as many bytes as are mapped, and no more than the segment has
    exact hdata.mono (reach_le _ _ _)
  · split_ifs
    · simp [Prog.questions]
    · simp [Prog.questions]

theorem mem_loadsAt_head {offs : List ℕ} (h : (Elf_Phdr.ofBytes buf off).p_type = PT_LOAD) :
    Elf_Phdr.ofBytes buf off ∈ loadsAt buf (off :: offs) := by
  rw [loadsAt, List.mem_filter]
  exact ⟨List.mem_cons_self, decide_eq_true h⟩

theorem mem_loadsAt_tail {offs : List ℕ} {s : Elf_Phdr} (h : s ∈ loadsAt buf offs) :
    s ∈ loadsAt buf (off :: offs) := by
  rw [loadsAt, List.mem_filter] at *
  exact ⟨List.mem_cons_of_mem _ h.1, h.2⟩

theorem inside_load_all {offs : List ℕ} {v : View}
    (h : ∀ off ∈ offs, off + Elf_Phdr_size ≤ brought file)
    (hdata : ∀ s ∈ loadsAt buf offs, Inside file ⟨s.p_offset, s.p_filesz⟩) :
    ∀ q ∈ Prog.questions (shown buf) (load_all offs v), Inside file q := by
  -- one header after the other, and the segment behind each `PT_LOAD`
  induction offs generalizing v with
  | nil => simp [load_all, Prog.questions]
  | cons off offs ih =>
    have hoff := h off List.mem_cons_self
    have hrest : ∀ v, ∀ q ∈ Prog.questions (shown buf) (load_all offs v), Inside file q := by
      intro v
      apply ih
      · intro off' hoff'
        exact h off' (List.mem_cons_of_mem off hoff')
      · intro s hs
        exact hdata s (mem_loadsAt_tail hs)
    rw [load_all]
    apply inside_get
    · unfold Elf_Phdr_size at hoff
      omega
    split_ifs with hload
    · apply Prog.questions_bind
      · exact inside_load_at hoff (hdata _ (mem_loadsAt_head hload))
      · intro v' _
        exact hrest v'
    · exact hrest v

/-- All parts of a complete executable were brought. -/
theorem brought_of_wellFormed (h : WellFormed file) : 64 ≤ brought file ∧
    (Elf_Ehdr.ofBytes (bytesOf file)).e_phoff +
      Elf_Phdr_size * (Elf_Ehdr.ofBytes (bytesOf file)).e_phnum ≤ brought file ∧
    ∀ s ∈ loads (bytesOf file), Inside file ⟨s.p_offset, s.p_filesz⟩ := by
  have hbrought : brought file = file.length := Nat.min_eq_right h.fits
  refine ⟨hbrought ▸ h.header, hbrought ▸ h.table, ?_⟩
  intro s hs
  exact inside_of_le (hbrought ▸ h.data s hs)

/-- **A complete executable is enough.** -/
theorem covered_of_wellFormed (h : WellFormed file) : Covered file := by
  obtain ⟨hheader, htable, hdata⟩ := brought_of_wellFormed h
  rw [Covered, load_image_eq]
  apply Prog.questions_bind (inside_read_header (by omega))
  intro offs hoffs
  obtain ⟨-, -, rfl⟩ := eval_read_header_ok hoffs
  apply Prog.questions_bind
  · apply inside_load_all _ hdata
    intro off hoff
    obtain ⟨i, hi, rfl⟩ := List.mem_map.mp hoff
    exact le_of_table htable (List.mem_range.mp hi)
  · intro v _
    apply inside_get (by omega)
    apply inside_require
    intro _
    simp [Prog.questions]

/-! ## Files with a wrong header -/

/-- The bytes of a header that can be loaded. -/
def Matches (buf : Mem) : Prop := ∀ c ∈ checked, buf c.1 ∈ c.2

theorem magic_iff : (∀ i < elf_magic.length, buf i = elf_magic.getD i 0) ↔
    buf 0 = 0x7f ∧ buf 1 = 69 ∧ buf 2 = 76 ∧ buf 3 = 70 := by
  constructor
  · intro h
    exact ⟨h 0 (by decide), h 1 (by decide), h 2 (by decide), h 3 (by decide)⟩
  · rintro ⟨h0, h1, h2, h3⟩ i hi
    match i, (hi : i < 4) with
    | 0, _ => exact h0
    | 1, _ => exact h1
    | 2, _ => exact h2
    | 3, _ => exact h3

/-- The loader compares these bytes and no others. -/
theorem accepts_iff : Accepts buf ↔ Matches buf := by
  have h16 := UInt8.toNat_lt (buf 16)
  have h17 := UInt8.toNat_lt (buf 17)
  have h18 := UInt8.toNat_lt (buf 18)
  have h19 := UInt8.toNat_lt (buf 19)
  rw [Accepts, Matches, checked, magic_iff, load_two, load_two]
  simp only [List.forall_mem_cons]
  simp only [List.mem_cons, List.not_mem_nil, or_false, false_implies, implies_true, and_true,
    ← UInt8.toNat_inj]
  unfold EM_LOONGARCH EI_CLASS ELFCLASS ET_EXEC ET_DYN
  simp only [UInt8.toNat_ofNat, Nat.reduceMod, Nat.reducePow, Nat.reduceAdd] at *
  omega

theorem Refused.not_accepts (h : Refused file) (old : Mem) : ¬ Accepts (filled old file) := by
  obtain ⟨c, hc, hlt, hwrong⟩ := h
  intro haccepts
  apply hwrong
  rw [← filled_of_lt hlt]
  exact accepts_iff.mp haccepts c hc

theorem Refused.noninterference (h : Refused file) : Noninterference file := by
  intro found₁ found₂ m₁ m₂ o₁ o₂ hm₁ hm₂ ho₁ ho₂
  rw [elf_loader_outcome hm₁ ho₁, elf_loader_outcome hm₂ ho₂,
    eval_load_image_of_not_accepts (h.not_accepts _),
    eval_load_image_of_not_accepts (h.not_accepts _)]

/-! ## Files that end in their header -/

/-- A header without program headers is no success. -/
theorem load_elf_no_headers {s : Task} (h : Accepts buf) (hphnum : buf.load 56 2 = 0) :
    outcome (load_elf buf s) = some .failed := by
  rw [load_elf_of_accepts h, if_neg (not_not.mpr hphnum)]
  rfl

/-- A segment of another type is skipped. -/
theorem load_elf_skip {s : Task} (h : Accepts buf) (hphnum : buf.load 56 2 = 1)
    (htype : buf.load (buf.load 32 8) 4 ≠ PT_LOAD) : load_elf buf s = .ok (buf.load 24 8, s) := by
  have htype : (Elf_Phdr.ofBytes buf (buf.load 32 8)).p_type ≠ PT_LOAD := htype
  have hsegments : load_segments buf [Elf_Phdr.ofBytes buf (buf.load 32 8)] s = .ok (true, s) := by
    rw [load_segments, if_neg htype, load_segments]
  rw [load_elf_of_accepts h, hphnum, if_pos Nat.one_ne_zero, List.range_one, List.map_singleton,
    List.map_singleton, Nat.mul_zero, Nat.add_zero, hsegments]
  rfl

variable {old : Mem}

theorem accepts_filled (h : ¬ Refused file) (hold : Matches old) : Accepts (filled old file) := by
  rw [accepts_iff]
  intro c hc
  by_cases hlt : c.1 < brought file
  · rw [filled_of_lt hlt]
    by_contra hwrong
    exact h ⟨c, hc, hlt, hwrong⟩
  · rw [filled_of_le (by omega)]
    exact hold c hc

/-- Behind the file there is what `elf_buf` held. -/
theorem load_filled (h : brought file ≤ off) : (filled old file).load off len = old.load off len := by
  apply Mem.load_congr
  intro x hx _
  exact filled_of_le (by omega)

theorem entry_ne (h : buf 31 = 0) : buf.load 24 8 ≠ ERROR := by
  have hlow := Mem.load_lt buf 24 7
  rw [Mem.load_succ, h]
  unfold ERROR
  norm_num at hlow ⊢
  omega

/-- A program without segments to load. -/
def empty_program (phnum : ℕ) : List UInt8 := small_ehdr 0x10000 phnum ++ small_phdr 0 0 0 0

theorem matches_empty : ∀ phnum ∈ [0, 1], Matches (bytesOf (empty_program phnum)) := by
  unfold Matches
  decide +kernel

/-- **What a short file is loaded as depends on the program before it**, if no byte of its own
rules it out. -/
theorem short_interferes (hlen : file.length < 32) (h : ¬ Refused file) : ¬ Noninterference file := by
  have hfits : brought file < 32 := by
    rw [brought]
    omega
  have hsmall : file.length ≤ 1024 := by omega
  have haccepts : ∀ phnum ∈ [0, 1], Accepts (filled (bytesOf (empty_program phnum)) file) := by
    intro phnum hphnum
    exact accepts_filled h (matches_empty phnum hphnum)
  -- after one program it fails, after the other it is loaded
  have hfailed : result (elf_loader (some (small_inode file))
      (small_machine file (bytesOf (empty_program 0)))) = some .failed := by
    rw [small_result _ hsmall]
    apply load_elf_no_headers (haccepts 0 (by simp))
    rw [load_filled (by omega)]
    decide +kernel
  have hskip : load_elf (filled (bytesOf (empty_program 1)) file) small_task = .ok
      ((filled (bytesOf (empty_program 1)) file).load 24 8, small_task) := by
    apply load_elf_skip (haccepts 1 (by simp))
    · rw [load_filled (by omega)]
      decide +kernel
    · have hphoff : (filled (bytesOf (empty_program 1)) file).load 32 8 = 64 := by
        rw [load_filled (by omega)]
        decide +kernel
      rw [hphoff, load_filled (by omega)]
      decide +kernel
  obtain ⟨v, hloaded⟩ := small_loaded hsmall (congrArg (fun r => r.toOption.map Prod.fst) hskip)
    (entry_ne (by rw [filled_of_le (by omega)]; decide +kernel))
  intro hsame
  have := hsame _ _ _ _ _ _ (small_ready _ hsmall) (small_ready _ hsmall) hfailed hloaded
  cases this

/-- An empty file is loaded as the program before it. -/
theorem empty_interferes : ¬ Noninterference [] := by
  apply short_interferes (by decide)
  rintro ⟨c, -, hlt, -⟩
  simp [brought] at hlt

/-- **What was loaded before is without effect if the loader looks at the bytes of the file
only, or if one of them rules the file out.** A file that ends in front of the last byte of
its entry point has no other way. -/
theorem noninterference_when (file : List UInt8) :
    (Covered file ∨ Refused file → Noninterference file) ∧
      (file.length < 32 → (Noninterference file ↔ Refused file)) := by
  refine ⟨?_, ?_⟩
  · rintro (hcovered | hrefused)
    · exact hcovered.noninterference
    · exact hrefused.noninterference
  · intro hlen
    constructor
    · intro hsame
      by_contra hrefused
      exact short_interferes hlen hrefused hsame
    · exact Refused.noninterference

theorem apart_noninterference : Noninterference apart :=
  (noninterference_when apart).1 (.inl (covered_of_wellFormed apart_wellFormed))

end Loos.StaleBytes
