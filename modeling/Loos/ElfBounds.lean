/-
The bytes of `elf_buf` that `elf_loader` reads.

The loader compares neither the program headers nor the ranges of the segments with the number
of bytes that `read` brought. [`read_image`] is [`load_image`] with the reads of the source:
`p_vaddr`, `p_offset` and `p_filesz` are read of every program header, also of one that is
skipped.

A file in which everything is there is read inside its bounds. Any other is read outside them,
or it is not refused for it, unless the loader returns -1 for another reason and before it comes
to what is missing ([`ErrorFirst`]).
-/
import Loos.StaleBytes

set_option autoImplicit false

namespace Loos.ElfBounds

open SysLib Kern PageTable Ext2 ElfLoader Image LoadImage LoadFile SharedPages StaleBytes

/-! ## The reads -/

/-- The loop over the program headers, which are read up to `p_filesz` before their type is
looked at. -/
noncomputable def read_all : List ℕ → View → ElfProg View
  | [], v => .ret v
  | off :: rest, v =>
    -- `dst`, `src` and `len`, whether they are used or not
    .ask ⟨off, 40⟩ fun b =>
      if b.load 0 4 = PT_LOAD then do
        let v ← load_at off v
        read_all rest v
      else read_all rest v

/-- The loader with all its reads. -/
noncomputable def read_image (v : View) : ElfProg (ℕ × View) := do
  let offs ← read_header
  let v ← read_all offs v
  let e_entry ← get 24 8
  require (e_entry ≠ ERROR)
  .ret (e_entry, v)

/-- The header, the program headers and the bytes of all segments were brought by `read`. -/
structure Fits (file : List UInt8) (buf : Mem) : Prop where
  header : Inside file ⟨0, 58⟩
  table : Inside file ⟨(Elf_Ehdr.ofBytes buf).e_phoff,
    Elf_Phdr_size * (Elf_Ehdr.ofBytes buf).e_phnum⟩
  segments : ∀ s ∈ loads buf, Inside file ⟨s.p_offset, s.p_filesz⟩

/-- **The loader reads nothing but what `read` brought, and returns -1 when that is not all.**
The reads are those of a machine that has the pages; a `panic` only ends them earlier. -/
structure Bounded (found : Option ext2_inode) (file : List UInt8) (m : Machine) : Prop where
  reads : ∀ q ∈ Prog.questions (shown (filled m.elf_buf file)) (read_image fun _ => none),
    Inside file q
  refuses : ¬ Fits file (filled m.elf_buf file) → ∃ m', elf_loader found m = .ok (ERROR, m')

/-! ## Another reason to return -1 -/

/-- A page for `y` was taken for one of the segments. -/
def MapsTo (mapped : List Elf_Phdr) (y : ℕ) : Prop :=
  y < MAXVA ∧ ∃ s ∈ mapped, Visits s.start s.end_ y

/-- The assertions about a segment hold. -/
def Sized (segment : Elf_Phdr) : Prop :=
  segment.p_filesz ≤ segment.p_memsz ∧ segment.p_filesz ≠ 0

/-- **The loop comes to a reason to return -1, and everything before it is there**: a segment
that starts where no page was taken, or at last the entry point. -/
def ErrorFirst (file : List UInt8) (buf : Mem) : List ℕ → List Elf_Phdr → Prop
  | [], _ => (Elf_Ehdr.ofBytes buf).e_entry = ERROR
  | off :: rest, mapped =>
    let segment := Elf_Phdr.ofBytes buf off
    if segment.p_type = PT_LOAD then
      let mapped := segment :: mapped
      -- the bytes up to the first one that is not mapped, and only then the test of `p_vaddr`
      Inside file ⟨off, Elf_Phdr_size⟩ ∧ Sized segment ∧
        (∀ i < segment.p_filesz, (∀ j ≤ i, MapsTo mapped (segment.p_vaddr + j)) →
          segment.p_offset + i < brought file) ∧
        (MapsTo mapped segment.p_vaddr → ErrorFirst file buf rest mapped)
    else Inside file ⟨off, 40⟩ ∧ ErrorFirst file buf rest mapped

/-- The loader returns -1 before it comes to something that is missing. -/
structure FailsFirst (file : List UInt8) (buf : Mem) : Prop where
  header : Inside file ⟨0, 58⟩
  accepts : Accepts buf
  phnum : (Elf_Ehdr.ofBytes buf).e_phnum ≠ 0
  first : ErrorFirst file buf ((List.range (Elf_Ehdr.ofBytes buf).e_phnum).map fun i =>
    (Elf_Ehdr.ofBytes buf).e_phoff + Elf_Phdr_size * i) []

variable {found : Option ext2_inode} {file : List UInt8} {buf : Mem} {m : Machine} {off : ℕ}
  {offs : List ℕ} {v : View} {mapped : List Elf_Phdr} {segment : Elf_Phdr} {y : ℕ}

/-! ## The same program -/

theorem shown_type : (shown buf ⟨off, 40⟩).load 0 4 = (Elf_Phdr.ofBytes buf off).p_type := by
  apply Mem.load_eq
  intro i hi
  rw [shown, if_pos (by dsimp only; omega), Nat.zero_add]

/-- The loop comes to the same, whatever is read of the headers that are skipped. -/
theorem eval_read_all (buf : Mem) (offs : List ℕ) (v : View) :
    Prog.eval (shown buf) (read_all offs v) = Prog.eval (shown buf) (load_all offs v) := by
  induction offs generalizing v with
  | nil => rfl
  | cons off offs ih =>
    rw [read_all, Prog.eval, shown_type, load_all, eval_get_bind]
    have htype : buf.load off 4 = (Elf_Phdr.ofBytes buf off).p_type := rfl
    rw [htype]
    by_cases hload : (Elf_Phdr.ofBytes buf off).p_type = PT_LOAD
    · rw [if_pos hload, if_pos hload, Prog.eval_bind, Prog.eval_bind]
      simp only [ih]
    · rw [if_neg hload, if_neg hload]
      exact ih v

/-- **[`read_image`] comes to what [`load_image`] comes to**, and so to what `elf_loader` does. -/
theorem eval_read_image (buf : Mem) (v : View) :
    Prog.eval (shown buf) (read_image v) = Prog.eval (shown buf) (load_image v) := by
  rw [read_image, load_image_eq, Prog.eval_bind, Prog.eval_bind]
  simp only [Prog.eval_bind, eval_read_all]

/-! ## Files that fit -/

theorem inside_iff_le {len : ℕ} (hlen : 0 < len) : Inside file ⟨off, len⟩ ↔ off + len ≤ brought file := by
  constructor
  · intro h
    have := h (len - 1) (by dsimp only; omega)
    dsimp only at this
    omega
  · exact inside_of_le

theorem inside_read_all (h : ∀ off ∈ offs, off + Elf_Phdr_size ≤ brought file)
    (hdata : ∀ s ∈ loadsAt buf offs, Inside file ⟨s.p_offset, s.p_filesz⟩) :
    ∀ q ∈ Prog.questions (shown buf) (read_all offs v), Inside file q := by
  induction offs generalizing v with
  | nil => simp [read_all, Prog.questions]
  | cons off offs ih =>
    have hoff := h off List.mem_cons_self
    have hrest : ∀ v, ∀ q ∈ Prog.questions (shown buf) (read_all offs v), Inside file q := by
      intro v
      apply ih
      · intro off' hoff'
        exact h off' (List.mem_cons_of_mem off hoff')
      · intro s hs
        exact hdata s (mem_loadsAt_tail hs)
    rw [read_all, Prog.questions, List.forall_mem_cons, shown_type]
    constructor
    · apply inside_of_le
      unfold Elf_Phdr_size at hoff
      omega
    split_ifs with hload
    · apply Prog.questions_bind
      · exact inside_load_at hoff (hdata _ (mem_loadsAt_head hload))
      · intro v' _
        exact hrest v'
    · exact hrest v

theorem Fits.reads (h : Fits file buf) :
    ∀ q ∈ Prog.questions (shown buf) (read_image v), Inside file q := by
  have hheader := (inside_iff_le (by omega)).mp h.header
  rw [read_image]
  apply Prog.questions_bind (inside_read_header (by omega))
  intro offs hoffs
  obtain ⟨-, hphnum, rfl⟩ := eval_read_header_ok hoffs
  have hphnum : 0 < (Elf_Ehdr.ofBytes buf).e_phnum := Nat.pos_of_ne_zero hphnum
  have htable := (inside_iff_le (by unfold Elf_Phdr_size; omega)).mp h.table
  apply Prog.questions_bind
  · apply inside_read_all _ h.segments
    intro off hoff
    obtain ⟨i, hi, rfl⟩ := List.mem_map.mp hoff
    exact le_of_table htable (List.mem_range.mp hi)
  · intro v _
    apply inside_get (by omega)
    apply inside_require
    intro _
    simp [Prog.questions]

/-- **A complete executable fits**, whatever `elf_buf` held. -/
theorem fits_of_wellFormed (old : Mem) (h : WellFormed file) : Fits file (filled old file) := by
  obtain ⟨hheader, htable, hdata⟩ := brought_of_wellFormed h
  obtain ⟨hphoff, hphnum⟩ := table_filled old h
  refine ⟨inside_of_le (by omega), ?_, ?_⟩
  · rw [hphoff, hphnum]
    exact inside_of_le htable
  · intro s hs
    rw [loads_filled old h] at hs
    exact hdata s hs

/-! ## One segment -/

/-- The bytes that are mapped after a segment: those before, and its own pages. -/
theorem zeroed_ne_none_iff (hv : ∀ y, v y ≠ none ↔ MapsTo mapped y) :
    zeroed segment.start segment.end_ v y ≠ none ↔ MapsTo (segment :: mapped) y := by
  rw [zeroed, MapsTo, List.exists_mem_cons_iff]
  have hold := hv y
  rw [MapsTo] at hold
  by_cases hvisits : y < MAXVA ∧ Visits segment.start segment.end_ y
  · rw [if_pos hvisits]
    simp [hvisits]
  · rw [if_neg hvisits, hold]
    tauto

theorem placed_ne_none_iff (hv : ∀ y, v y ≠ none ↔ MapsTo mapped y) :
    placed buf segment v y ≠ none ↔ MapsTo (segment :: mapped) y := by
  rw [← zeroed_ne_none_iff hv, placed, copied]
  split_ifs with hcopied
  · -- a byte that was written was mapped
    obtain ⟨hle, hlt⟩ := hcopied
    have hreach := lt_reach_iff.mp (Nat.sub_lt_left_of_lt_add hle hlt)
    have hmapped := hreach.2 _ (Nat.le_refl _)
    rw [Nat.add_sub_cancel' hle] at hmapped
    simp [hmapped]
  · rfl

/-- The bytes of a segment that are read. -/
theorem inside_data_iff (hv : ∀ y, v y ≠ none ↔ MapsTo mapped y) :
    Inside file ⟨segment.p_offset,
        reach (zeroed segment.start segment.end_ v) segment.p_vaddr segment.p_filesz⟩ ↔
      ∀ i < segment.p_filesz, (∀ j ≤ i, MapsTo (segment :: mapped) (segment.p_vaddr + j)) →
        segment.p_offset + i < brought file := by
  simp only [Inside, lt_reach_iff, zeroed_ne_none_iff hv, and_imp]

theorem questions_get {α : Type} {len : ℕ} (f : ℕ → ElfProg α) :
    Prog.questions (shown buf) (get off len >>= f) =
      ⟨off, len⟩ :: Prog.questions (shown buf) (f (buf.load off len)) := by
  rw [LoadImage.get, Prog.ask_bind, Prog.questions, shown_load]
  rfl

/-- The reads for a segment whose assertions hold. -/
theorem questions_load_at (hs : segment = Elf_Phdr.ofBytes buf off) (hsized : Sized segment) :
    Prog.questions (shown buf) (load_at off v) = [⟨off + 32, 8⟩, ⟨off + 40, 8⟩, ⟨off, Elf_Phdr_size⟩,
      ⟨segment.p_offset,
        reach (zeroed segment.start segment.end_ v) segment.p_vaddr segment.p_filesz⟩] := by
  have hfilesz : buf.load (off + 32) 8 = segment.p_filesz := by rw [hs]; rfl
  have hmemsz : buf.load (off + 40) 8 = segment.p_memsz := by rw [hs]; rfl
  rw [load_at, questions_get, questions_get, hfilesz, hmemsz, require, if_pos hsized.1,
    Prog.ret_bind, require, if_pos hsized.2, Prog.ret_bind, Prog.questions, shown_header, ← hs]
  dsimp only
  rw [Prog.questions]
  split_ifs
  · rfl
  · rfl

/-- All of them are inside when the header and the bytes that are copied are. -/
theorem inside_segment_iff (hs : segment = Elf_Phdr.ofBytes buf off) (hsized : Sized segment)
    (hv : ∀ y, v y ≠ none ↔ MapsTo mapped y) :
    (∀ q ∈ ⟨off, 40⟩ :: Prog.questions (shown buf) (load_at off v), Inside file q) ↔
      Inside file ⟨off, Elf_Phdr_size⟩ ∧
        ∀ i < segment.p_filesz, (∀ j ≤ i, MapsTo (segment :: mapped) (segment.p_vaddr + j)) →
          segment.p_offset + i < brought file := by
  rw [questions_load_at hs hsized, ← inside_data_iff hv]
  simp only [List.forall_mem_cons, List.not_mem_nil, false_implies, implies_true, and_true]
  constructor
  · rintro ⟨-, -, -, hheader, hdata⟩
    exact ⟨hheader, hdata⟩
  · rintro ⟨hheader, hdata⟩
    have hle := (inside_iff_le (by decide)).mp hheader
    unfold Elf_Phdr_size at hle
    exact ⟨inside_of_le (by omega), inside_of_le (by omega), inside_of_le (by omega), hheader,
      hdata⟩

/-- The three ends of a segment that does not panic. -/
inductive Ends (buf : Mem) (segment : Elf_Phdr) (root : ℕ) (v : View) :
    Except Halt (Bool × Task) → Prop
  | assertion (h : ¬ Sized segment) : Ends buf segment root v (.error .assertion)
  | unmapped (h : Sized segment) (hv : placed buf segment v segment.p_vaddr = none) (s : Task) :
      Ends buf segment root v (.ok (false, s))
  | ok (h : Sized segment) (hv : placed buf segment v segment.p_vaddr ≠ none) (s : Task)
      (hroot : s.proc.pgtbl = root) (T D : List ℕ) (hheld : Held s.kern root T D)
      (hview : view s.kern.mem root = placed buf segment v) :
      Ends buf segment root v (.ok (true, s))

variable {s : Task} {T D : List ℕ}

theorem orPanic_bind_ne {α β : Type} {r : Option α} {f : α → Except Halt β}
    (hf : ∀ a, f a ≠ .error .assertion) : (orPanic r >>= f) ≠ .error .assertion := by
  cases r with
  | none => simp
  | some a => exact hf a

/-- Behind the assertions only a `panic` halts the machine. -/
theorem load_segment_sized (buf : Mem) (s : Task) (hsized : Sized segment) :
    load_segment buf segment s ≠ .error .assertion := by
  rw [load_segment, assert_bind, if_pos hsized.1, assert_bind, if_pos hsized.2]
  apply orPanic_bind_ne
  intro a
  apply orPanic_bind_ne
  intro c
  apply orPanic_bind_ne
  intro paddr
  simp

theorem load_segment_not_sized (hsized : ¬ Sized segment) :
    load_segment buf segment s = .error .assertion := by
  rw [load_segment, assert_bind, assert_bind]
  split_ifs with hle h0
  · exact absurd ⟨hle, h0⟩ hsized
  · rfl
  · rfl

theorem load_segment_ends (hs : segment = Elf_Phdr.ofBytes buf off)
    (h : Held s.kern s.proc.pgtbl T D) (hpanic : load_segment buf segment s ≠ .error .panic) :
    Ends buf segment s.proc.pgtbl (view s.kern.mem s.proc.pgtbl) (load_segment buf segment s) := by
  by_cases hsized : Sized segment
  case neg =>
    rw [load_segment_not_sized hsized]
    exact .assertion hsized
  have hagrees := load_segment_agrees buf off segment hs h
  have hassert := load_segment_sized buf s hsized
  rw [eval_load_at segment hs] at hagrees
  generalize load_segment buf segment s = r at *
  by_cases hplaced : placed buf segment (view s.kern.mem s.proc.pgtbl) segment.p_vaddr = none
  · rw [if_neg (by simp [hplaced])] at hagrees
    cases hagrees with
    | panic => exact absurd rfl hpanic
    | assertion => exact absurd rfl hassert
    | unmapped s' => exact .unmapped hsized hplaced s'
  · rw [if_pos ⟨hsized.1, hsized.2, Option.isSome_iff_ne_none.mpr hplaced⟩] at hagrees
    generalize he : Except.ok (placed buf segment (view s.kern.mem s.proc.pgtbl)) = e at hagrees
    cases hagrees with
    | panic => exact absurd rfl hpanic
    | assertion => exact absurd rfl hassert
    | unmapped s' => cases he
    | ok s' hroot T' D' hheld =>
      exact .ok hsized hplaced s' hroot T' D' hheld (Except.ok.inj he).symm

/-! ## The loop -/

/-- From here on the loader returns -1. -/
def Returns (buf : Mem) (r : Except Halt (Bool × Task)) : Prop :=
  ∃ x, r = .ok x ∧ (x.1 = true → (Elf_Ehdr.ofBytes buf).e_entry = ERROR)

/-- **The loop reads what is there and the loader returns -1, exactly when it comes to another
reason first.** -/
theorem errorFirst_iff (file : List UInt8) (h : Held s.kern s.proc.pgtbl T D)
    (hv : ∀ y, view s.kern.mem s.proc.pgtbl y ≠ none ↔ MapsTo mapped y)
    (hpanic : load_segments buf (offs.map (Elf_Phdr.ofBytes buf)) s ≠ .error .panic) :
    ErrorFirst file buf offs mapped ↔
      (∀ q ∈ Prog.questions (shown buf) (read_all offs (view s.kern.mem s.proc.pgtbl)),
        Inside file q) ∧ Returns buf (load_segments buf (offs.map (Elf_Phdr.ofBytes buf)) s) := by
  -- one header after the other: the loop goes on with the bytes that the segment left
  induction offs generalizing s T D mapped with
  | nil => simp [ErrorFirst, read_all, Prog.questions, load_segments, Returns]
  | cons off offs ih =>
    rw [List.map_cons, load_segments] at hpanic ⊢
    rw [ErrorFirst, read_all, Prog.questions, shown_type]
    dsimp only
    by_cases hload : (Elf_Phdr.ofBytes buf off).p_type = PT_LOAD
    · rw [if_pos hload] at hpanic
      rw [if_pos hload, if_pos hload, if_pos hload]
      have hone : load_segment buf (Elf_Phdr.ofBytes buf off) s ≠ .error .panic := by
        intro hone
        rw [hone] at hpanic
        exact hpanic rfl
      have heval := @eval_load_at buf off (view s.kern.mem s.proc.pgtbl) _ rfl
      have hends := load_segment_ends rfl h hone
      generalize load_segment buf (Elf_Phdr.ofBytes buf off) s = r at *
      cases hends with
      | assertion hsized =>
        -- the machine halts, which is no return
        apply iff_of_false
        · rintro ⟨-, hs, -⟩
          exact hsized hs
        · rintro ⟨-, x, hx, -⟩
          cases hx
      | unmapped hsized hnone s' =>
        -- the loader returns, and nothing is read of what is left
        have hstart : ¬ MapsTo (Elf_Phdr.ofBytes buf off :: mapped)
            (Elf_Phdr.ofBytes buf off).p_vaddr := by
          rw [← placed_ne_none_iff hv, hnone]
          simp
        have hreturns : Returns buf (.ok (false, s')) := ⟨_, rfl, by simp⟩
        rw [if_neg (by simp [hnone])] at heval
        rw [Prog.questions_bind_error heval, inside_segment_iff rfl hsized hv]
        constructor
        · rintro ⟨hheader, -, hdata, -⟩
          exact ⟨⟨hheader, hdata⟩, hreturns⟩
        · rintro ⟨⟨hheader, hdata⟩, -⟩
          exact ⟨hheader, hsized, hdata, fun hmapped => absurd hmapped hstart⟩
      | ok hsized hsome s' hroot T' D' hheld hview =>
        -- the pages of the segment are mapped for those behind it
        have hstart := (placed_ne_none_iff hv).mp hsome
        rw [if_pos ⟨hsized.1, hsized.2, Option.isSome_iff_ne_none.mpr hsome⟩, ← hview] at heval
        rw [Prog.questions_bind_ok heval, ← List.cons_append, List.forall_mem_append,
          inside_segment_iff rfl hsized hv]
        have hv' : ∀ y, view s'.kern.mem s.proc.pgtbl y ≠ none ↔
            MapsTo (Elf_Phdr.ofBytes buf off :: mapped) y := by
          intro y
          rw [hview]
          exact placed_ne_none_iff hv
        rw [← hroot] at hheld hv' ⊢
        have hrest := ih hheld hv' hpanic
        constructor
        · rintro ⟨hheader, -, hdata, hfirst⟩
          obtain ⟨hreads, hreturns⟩ := hrest.mp (hfirst hstart)
          exact ⟨⟨⟨hheader, hdata⟩, hreads⟩, hreturns⟩
        · rintro ⟨⟨⟨hheader, hdata⟩, hreads⟩, hreturns⟩
          exact ⟨hheader, hsized, hdata, fun _ => hrest.mpr ⟨hreads, hreturns⟩⟩
    · rw [if_neg hload] at hpanic
      rw [if_neg hload, if_neg hload, if_neg hload, ih h hv hpanic, List.forall_mem_cons, and_assoc]

/-! ## The loader -/

/-- The loader returns -1 when the header is accepted and the loop leads to it. -/
theorem load_elf_returns_iff : (∃ s', load_elf buf s = .ok (ERROR, s')) ↔
    Accepts buf ∧ (Elf_Ehdr.ofBytes buf).e_phnum ≠ 0 ∧
      Returns buf (load_segments buf (((List.range (Elf_Ehdr.ofBytes buf).e_phnum).map fun i =>
        (Elf_Ehdr.ofBytes buf).e_phoff + Elf_Phdr_size * i).map (Elf_Phdr.ofBytes buf)) s) := by
  constructor
  · rintro ⟨s', hs'⟩
    obtain ⟨haccepts, hphnum, b, hsegments, hret⟩ := load_elf_ok hs'
    refine ⟨haccepts, hphnum, _, hsegments, ?_⟩
    rintro rfl
    exact hret.symm
  · rintro ⟨haccepts, hphnum, ⟨b, s'⟩, hsegments, hentry⟩
    have hne : buf.load 56 2 ≠ 0 := hphnum
    refine ⟨s', ?_⟩
    rw [load_elf_of_accepts haccepts, if_pos hne]
    refine (congrArg (· >>= _) hsegments).trans ?_
    cases b with
    | false => rfl
    | true => exact congrArg (fun e => Except.ok (e, s')) (hentry rfl)

/-- The number of program headers is read of a header that is accepted. -/
theorem mem_questions_read_header (h : Accepts buf) :
    ⟨56, 2⟩ ∈ Prog.questions (shown buf) read_header := by
  obtain ⟨hmagic, hmachine, hclass, htype⟩ := h
  have heval : Prog.eval (shown buf) (match_magic 0 elf_magic) = .ok () := by
    rw [← Prog.bind_ret (match_magic 0 elf_magic), eval_match_magic, if_pos (by simpa using hmagic)]
    rfl
  rw [read_header, Prog.questions_bind_ok heval, questions_get, require, if_pos hmachine,
    Prog.ret_bind, questions_get, require, if_pos (load_one.mpr hclass), Prog.ret_bind,
    questions_get, require, if_pos htype, Prog.ret_bind, questions_get]
  simp

/-- Of a program that is accepted, all reads are inside when the header is and those of the
loop are. -/
theorem inside_read_image_iff (haccepts : Accepts buf)
    (hphnum : (Elf_Ehdr.ofBytes buf).e_phnum ≠ 0) :
    (∀ q ∈ Prog.questions (shown buf) (read_image v), Inside file q) ↔
      Inside file ⟨0, 58⟩ ∧ ∀ q ∈ Prog.questions (shown buf) (read_all
        ((List.range (Elf_Ehdr.ofBytes buf).e_phnum).map fun i =>
          (Elf_Ehdr.ofBytes buf).e_phoff + Elf_Phdr_size * i) v), Inside file q := by
  have hne : buf.load 56 2 ≠ 0 := hphnum
  have heval := eval_read_header_of_accepts haccepts
  rw [if_pos hne] at heval
  rw [read_image, Prog.questions_bind_ok heval, List.forall_mem_append]
  constructor
  · rintro ⟨hheader, hloop⟩
    -- `e_phnum` is the last field of the header that is read
    have hlast := (inside_iff_le (by omega)).mp (hheader _ (mem_questions_read_header haccepts))
    refine ⟨inside_of_le hlast, ?_⟩
    intro q hq
    exact hloop q (Prog.mem_questions_bind hq _)
  · rintro ⟨hheader, hloop⟩
    have hle := (inside_iff_le (by omega)).mp hheader
    refine ⟨inside_read_header (by omega), ?_⟩
    apply Prog.questions_bind hloop
    intro v' _
    apply inside_get (by omega)
    apply inside_require
    intro _
    simp [Prog.questions]

theorem load_elf_failsFirst_iff (file : List UInt8) (buf : Mem) (s : Task)
    (h : Held s.kern s.proc.pgtbl T D)
    (hview : view s.kern.mem s.proc.pgtbl = fun _ => none)
    (hpanic : load_elf buf s ≠ .error .panic) :
    FailsFirst file buf ↔
      (∀ q ∈ Prog.questions (shown buf) (read_image fun _ => none), Inside file q) ∧
        ∃ s', load_elf buf s = .ok (ERROR, s') := by
  have hempty : ∀ y, view s.kern.mem s.proc.pgtbl y ≠ none ↔ MapsTo [] y := by
    intro y
    rw [hview]
    simp [MapsTo]
  rw [load_elf_returns_iff]
  by_cases hheader : Accepts buf ∧ (Elf_Ehdr.ofBytes buf).e_phnum ≠ 0
  case neg =>
    apply iff_of_false
    · intro hfails
      exact hheader ⟨hfails.accepts, hfails.phnum⟩
    · rintro ⟨-, haccepts, hphnum, -⟩
      exact hheader ⟨haccepts, hphnum⟩
  obtain ⟨haccepts, hphnum⟩ := hheader
  have hne : buf.load 56 2 ≠ 0 := hphnum
  rw [load_elf_of_accepts haccepts, if_pos hne] at hpanic
  have hloop := errorFirst_iff file h hempty fun hloop => hpanic (by rw [hloop]; rfl)
  rw [hview] at hloop
  rw [inside_read_image_iff haccepts hphnum]
  constructor
  · rintro ⟨hheader, -, -, hfirst⟩
    obtain ⟨hreads, hreturns⟩ := hloop.mp hfirst
    exact ⟨⟨hheader, hreads⟩, haccepts, hphnum, hreturns⟩
  · rintro ⟨⟨hheader, hreads⟩, -, -, hreturns⟩
    exact ⟨hheader, haccepts, hphnum, hloop.mpr ⟨hreads, hreturns⟩⟩

/-- The machine around the loader returns what the loader returns. -/
theorem map_returns_iff (r : Except Halt (ℕ × Task)) (g : ℕ × Task → Machine) :
    (∃ m', r.map (fun e => (e.1, g e)) = .ok (ERROR, m')) ↔ ∃ s', r = .ok (ERROR, s') := by
  cases r with
  | error e => exact iff_of_false (fun ⟨_, h⟩ => nomatch h) (fun ⟨_, h⟩ => nomatch h)
  | ok x =>
    constructor
    · rintro ⟨m', hm'⟩
      obtain ⟨hret, -⟩ := Prod.mk.inj (Except.ok.inj hm')
      exact ⟨x.2, congrArg (fun ret => Except.ok (ret, x.2)) hret⟩
    · rintro ⟨s', hs'⟩
      obtain rfl := Except.ok.inj hs'
      exact ⟨_, rfl⟩

/-- **A loader that does not panic reads what is there and returns -1, exactly when it comes to
another reason first.** -/
theorem failsFirst_iff (h : Ready found file m) (hp : elf_loader found m ≠ .error .panic) :
    FailsFirst file (filled m.elf_buf file) ↔
      (∀ q ∈ Prog.questions (shown (filled m.elf_buf file)) (read_image fun _ => none),
        Inside file q) ∧ ∃ m', elf_loader found m = .ok (ERROR, m') := by
  cases hpage : kmalloc m.task.kern 128 with
  | none =>
    -- no page for the inode is a panic
    obtain ⟨fd, files, hopen, hfd⟩ := h.opens
    rw [elf_loader, hopen, orPanic_some, if_neg hfd, hpage] at hp
    exact absurd rfl hp
  | some page =>
    obtain ⟨T, hspace, hfresh⟩ := h.space
    obtain ⟨hspace', hfresh'⟩ := space_after_kmalloc hspace hfresh h.empty hpage
    obtain ⟨hheld, hview⟩ := Held.of_empty hspace' hfresh' h.empty
    obtain ⟨sys, hrun⟩ := elf_loader_run h hpage
    have hiff := load_elf_failsFirst_iff file (filled m.elf_buf file)
      { m.task with kern := page.2 } hheld hview
    rw [hrun] at hp ⊢
    rw [map_returns_iff]
    apply hiff
    intro hpanic
    rw [hpanic] at hp
    exact hp rfl

/-- **The loader stays inside the file and refuses it when something is missing, exactly when
nothing is missing, or when it does not panic and comes to another reason to return -1 first.** -/
theorem bounded_iff (h : Ready found file m) :
    (elf_loader found m = .error .panic →
      (Bounded found file m ↔ Fits file (filled m.elf_buf file))) ∧
    (elf_loader found m ≠ .error .panic →
      (Bounded found file m ↔
        Fits file (filled m.elf_buf file) ∨ FailsFirst file (filled m.elf_buf file))) := by
  have hfits : Fits file (filled m.elf_buf file) → Bounded found file m := by
    intro hfits
    exact ⟨hfits.reads, fun hmissing => absurd hfits hmissing⟩
  constructor
  · -- a machine that has halted returns nothing
    intro hpanic
    refine ⟨?_, hfits⟩
    intro hbounded
    by_contra hmissing
    obtain ⟨m', hm'⟩ := hbounded.refuses hmissing
    rw [hpanic] at hm'
    cases hm'
  · intro hpanic
    constructor
    · intro hbounded
      by_cases hmissing : Fits file (filled m.elf_buf file)
      · exact .inl hmissing
      · exact .inr ((failsFirst_iff h hpanic).mpr
          ⟨hbounded.reads, hbounded.refuses hmissing⟩)
    · rintro (hall | hfails)
      · exact hfits hall
      · obtain ⟨hreads, hreturns⟩ := (failsFirst_iff h hpanic).mp hfails
        exact ⟨hreads, fun _ => hreturns⟩

theorem bounded_apart :
    Bounded (some (small_inode apart)) apart (small_machine apart fun _ => 0) := by
  obtain ⟨v, hloaded, -⟩ := apart_present
  apply ((bounded_iff (small_ready _ apart_small)).2 _).mpr
  · exact .inl (fits_of_wellFormed _ apart_wellFormed)
  · intro hpanic
    rw [hpanic] at hloaded
    cases hloaded

/-- A file that ends where its only program header should begin. -/
def header_only : List UInt8 := small_ehdr 0x10000 1

/-- It is loaded all the same: the header is looked for behind its end. -/
theorem header_only_not_bounded :
    Ready (some (small_inode header_only)) header_only (small_machine header_only fun _ => 0) ∧
      ¬ Bounded (some (small_inode header_only)) header_only
        (small_machine header_only fun _ => 0) := by
  have hsmall : header_only.length ≤ 1024 := by decide
  have hret : (load_elf (filled (fun _ => 0) header_only) small_task).toOption.map Prod.fst =
      some 0x10000 := by
    decide +kernel
  obtain ⟨v, hloaded⟩ := small_loaded hsmall hret (by decide)
  refine ⟨small_ready _ hsmall, ?_⟩
  intro hbounded
  have hmissing : ¬ Fits header_only (filled (fun _ => 0) header_only) := by
    intro hfits
    exact absurd (hfits.table 0 (by decide +kernel)) (by decide +kernel)
  obtain ⟨m', hm'⟩ := hbounded.refuses hmissing
  rw [hm'] at hloaded
  cases hloaded

end Loos.ElfBounds
