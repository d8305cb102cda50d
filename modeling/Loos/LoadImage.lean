/-
What `elf_loader` makes of the bytes in `elf_buf`.

[`load_image`] is the loader without the machine: a program that looks at bytes of `elf_buf`
and builds the bytes of the address space. It fails where an assertion does or where the
loader returns -1. Every look is a question, so the looks of a run can be listed; a field is
looked at when the loader depends on it.

[`load_elf_agrees`] connects the two: unless the machine runs out of pages, `elf_loader`
comes to what the program comes to.
-/
import Loos.ElfLoader
import Loos.Image

set_option autoImplicit false

namespace Loos.LoadImage

open SysLib Kern PageTable AddrSpace Cstring ElfLoader Image

/-! ## The program -/

/-- A look at `len` bytes of `elf_buf`. -/
structure Look where
  off : ℕ
  len : ℕ
deriving DecidableEq

/-- A program that looks at `elf_buf`, and fails or comes to a value. -/
abbrev ElfProg (α : Type) := Prog Look Mem Unit α

/-- The bytes that a look shows. -/
def shown (elf_buf : Mem) (q : Look) : Mem := fun i => if i < q.len then elf_buf (q.off + i) else 0

/-- A number of `len` bytes. -/
def get (off len : ℕ) : ElfProg ℕ := .ask ⟨off, len⟩ fun b => .ret (b.load 0 len)

def require (c : Prop) [Decidable c] : ElfProg Unit := if c then .ret () else .stop ()

/-- The comparison with `elf_magic`, up to the first byte that differs. -/
def match_magic : ℕ → List UInt8 → ElfProg Unit
  | _, [] => .ret ()
  | off, c :: magic => do
    let b ← get off 1
    require (b = c.toNat)
    match_magic (off + 1) magic

/-- A segment `PT_LOAD` with its program header at `off`. -/
noncomputable def load_at (off : ℕ) (v : View) : ElfProg View := do
  let filesz ← get (off + 32) 8
  let memsz ← get (off + 40) 8
  require (filesz ≤ memsz)
  require (filesz ≠ 0)
  .ask ⟨off, Elf_Phdr_size⟩ fun b =>
    let segment := Elf_Phdr.ofBytes b 0
    let v := zeroed segment.start segment.end_ v
    .ask ⟨segment.p_offset, reach v segment.p_vaddr segment.p_filesz⟩ fun data =>
      if (copied segment.p_vaddr segment.p_filesz data v segment.p_vaddr).isSome then
        .ret (copied segment.p_vaddr segment.p_filesz data v)
      else .stop ()

/-- The segments with their program headers at the given offsets. -/
noncomputable def load_all : List ℕ → View → ElfProg View
  | [], v => .ret v
  | off :: rest, v => do
    let p_type ← get off 4
    if p_type = PT_LOAD then do
      let v ← load_at off v
      load_all rest v
    else load_all rest v

/-- The loader: entry point and bytes. -/
noncomputable def load_image (v : View) : ElfProg (ℕ × View) := do
  match_magic 0 elf_magic
  let e_machine ← get 18 2
  require (e_machine = EM_LOONGARCH)
  let e_class ← get EI_CLASS 1
  require (e_class = ELFCLASS.toNat)
  let e_type ← get 16 2
  require (e_type = ET_EXEC ∨ e_type = ET_DYN)
  let e_phnum ← get 56 2
  require (e_phnum ≠ 0)
  let e_phoff ← get 32 8
  let v ← load_all ((List.range e_phnum).map fun i => e_phoff + Elf_Phdr_size * i) v
  let e_entry ← get 24 8
  -- an entry point that cannot be told from -1 is no success
  require (e_entry ≠ ERROR)
  .ret (e_entry, v)

/-- The part in front of the segments: the offsets of the program headers. -/
def read_header : ElfProg (List ℕ) := do
  match_magic 0 elf_magic
  let e_machine ← get 18 2
  require (e_machine = EM_LOONGARCH)
  let e_class ← get EI_CLASS 1
  require (e_class = ELFCLASS.toNat)
  let e_type ← get 16 2
  require (e_type = ET_EXEC ∨ e_type = ET_DYN)
  let e_phnum ← get 56 2
  require (e_phnum ≠ 0)
  let e_phoff ← get 32 8
  .ret ((List.range e_phnum).map fun i => e_phoff + Elf_Phdr_size * i)

theorem load_image_eq (v : View) :
    load_image v = (do
      let offs ← read_header
      let v ← load_all offs v
      let e_entry ← get 24 8
      require (e_entry ≠ ERROR)
      .ret (e_entry, v)) := by
  simp only [read_header, Prog.bind_assoc, Prog.ret_bind]
  rfl

/-! ## What the program comes to -/

variable {elf_buf : Mem} {off len : ℕ} {v : View} {c : Prop} [Decidable c]

theorem shown_load : (shown elf_buf ⟨off, len⟩).load 0 len = elf_buf.load off len := by
  apply Mem.load_eq
  intro i hi
  rw [shown, Nat.zero_add, if_pos hi]

@[simp] theorem eval_get_bind {α : Type} (f : ℕ → ElfProg α) :
    Prog.eval (shown elf_buf) (get off len >>= f) =
      Prog.eval (shown elf_buf) (f (elf_buf.load off len)) := by
  rw [← shown_load]
  rfl

@[simp] theorem eval_require_bind {α : Type} (f : Unit → ElfProg α) :
    Prog.eval (shown elf_buf) (require c >>= f) =
      if c then Prog.eval (shown elf_buf) (f ()) else .error () := by
  rw [require]
  split_ifs
  · rfl
  · rfl

/-- A header in what is shown of it. -/
theorem shown_header :
    Elf_Phdr.ofBytes (shown elf_buf ⟨off, Elf_Phdr_size⟩) 0 = Elf_Phdr.ofBytes elf_buf off := by
  have hload : ∀ a n, a + n ≤ Elf_Phdr_size →
      (shown elf_buf ⟨off, Elf_Phdr_size⟩).load a n = elf_buf.load (off + a) n := by
    intro a n h
    apply Mem.load_eq
    intro i hi
    rw [shown, if_pos (by dsimp only; omega), Nat.add_assoc]
  unfold Elf_Phdr_size at hload
  simp only [Elf_Phdr.ofBytes, Elf_Phdr_size, Nat.zero_add]
  rw [hload 0 4 (by omega), hload 4 4 (by omega), hload 8 8 (by omega), hload 16 8 (by omega),
    hload 32 8 (by omega), hload 40 8 (by omega), hload 48 8 (by omega), Nat.add_zero]

/-- Only the bytes that can be copied are looked at. -/
theorem copied_congr {dst n : ℕ} {src src' : Mem} (h : ∀ i < reach v dst n, src i = src' i) :
    copied dst n src v = copied dst n src' v := by
  funext y
  rw [copied, copied]
  split_ifs with hy
  · rw [h _ (by omega)]
  · rfl

/-- The bytes after a segment was loaded. -/
noncomputable def placed (elf_buf : Mem) (segment : Elf_Phdr) (v : View) : View :=
  copied segment.p_vaddr segment.p_filesz (fun i => elf_buf (segment.p_offset + i))
    (zeroed segment.start segment.end_ v)

theorem eval_load_at (segment : Elf_Phdr) (hs : segment = Elf_Phdr.ofBytes elf_buf off) :
    Prog.eval (shown elf_buf) (load_at off v) =
      if segment.p_filesz ≤ segment.p_memsz ∧ segment.p_filesz ≠ 0 ∧
          (placed elf_buf segment v segment.p_vaddr).isSome then
        .ok (placed elf_buf segment v)
      else .error () := by
  have hfilesz : elf_buf.load (off + 32) 8 = segment.p_filesz := by rw [hs]; rfl
  have hmemsz : elf_buf.load (off + 40) 8 = segment.p_memsz := by rw [hs]; rfl
  rw [load_at, eval_get_bind, eval_get_bind, eval_require_bind, eval_require_bind, hfilesz, hmemsz]
  -- the conditions of the source, in its order
  by_cases hle : segment.p_filesz ≤ segment.p_memsz
  · by_cases h0 : segment.p_filesz ≠ 0
    · rw [if_pos hle, if_pos h0, Prog.eval, shown_header, ← hs]
      have hplaced : copied segment.p_vaddr segment.p_filesz
          (shown elf_buf ⟨segment.p_offset,
            reach (zeroed segment.start segment.end_ v) segment.p_vaddr segment.p_filesz⟩)
          (zeroed segment.start segment.end_ v) = placed elf_buf segment v := by
        apply copied_congr
        intro i hi
        rw [shown, if_pos hi]
      dsimp only
      rw [Prog.eval, hplaced]
      by_cases hsome : (placed elf_buf segment v segment.p_vaddr).isSome
      · rw [if_pos hsome, if_pos ⟨hle, h0, hsome⟩]
        rfl
      · rw [if_neg hsome, if_neg fun h => hsome h.2.2]
        rfl
    · rw [if_pos hle, if_neg h0, if_neg fun h => h0 h.2.1]
  · rw [if_neg hle, if_neg fun h => hle h.1]

/-! ## The loader comes to the same -/

@[simp] theorem assert_bind {α : Type} (f : Unit → Except Halt α) :
    (assert c >>= f) = if c then f () else .error .assertion := by
  rw [assert]
  split_ifs
  · rfl
  · rfl

@[simp] theorem orPanic_some {α β : Type} (a : α) (f : α → Except Halt β) :
    (orPanic (some a) >>= f) = f a := rfl

@[simp] theorem orPanic_none {α β : Type} (f : α → Except Halt β) :
    (orPanic (none : Option α) >>= f) = .error .panic := rfl

/-- The loop ended with `r`, and the program comes to `e`: the same bytes, or both fail. A
`panic` agrees with everything. -/
inductive Agrees (root : ℕ) : Except Halt (Bool × Task) → Except Unit View → Prop
  | panic (e : Except Unit View) : Agrees root (.error .panic) e
  | assertion : Agrees root (.error .assertion) (.error ())
  | unmapped (s : Task) : Agrees root (.ok (false, s)) (.error ())
  | ok (s : Task) (hroot : s.proc.pgtbl = root) (T D : List ℕ) (hheld : Held s.kern root T D) :
      Agrees root (.ok (true, s)) (.ok (view s.kern.mem root))

variable {s : Task} {T D : List ℕ}

theorem segment_perm_ok : PermOk SEGMENT_PERM := by
  apply FlagPerm.permOk
  exact ⟨by decide, by decide⟩

theorem Elf_Phdr.p_vaddr_lt (buf : Mem) (off : ℕ) :
    (Elf_Phdr.ofBytes buf off).p_vaddr < 2 ^ 64 := by
  have := Mem.load_lt buf (off + 16) 8
  rwa [show (256 : ℕ) ^ 8 = 2 ^ 64 by norm_num] at this

/-- **One segment.** -/
theorem load_segment_agrees (elf_buf : Mem) (off : ℕ) (segment : Elf_Phdr)
    (hs : segment = Elf_Phdr.ofBytes elf_buf off) (h : Held s.kern s.proc.pgtbl T D) :
    Agrees s.proc.pgtbl (load_segment elf_buf segment s)
      (Prog.eval (shown elf_buf) (load_at off (view s.kern.mem s.proc.pgtbl))) := by
  rw [eval_load_at segment hs, load_segment, assert_bind]
  by_cases hle : segment.p_filesz ≤ segment.p_memsz
  · rw [if_pos hle, assert_bind]
    by_cases h0 : segment.p_filesz ≠ 0
    · rw [if_pos h0]
      -- fresh pages, then the bytes, then the test of the first page
      cases ha : alloc_vm s.kern s.proc segment.start segment.end_ SEGMENT_PERM with
      | none => exact .panic _
      | some a =>
        obtain ⟨hroot, ⟨T₁, D₁, hheld₁⟩, hview₁⟩ := alloc_vm_view h segment_perm_ok ha
        have hvaddr : segment.p_vaddr < 2 ^ 64 := by
          rw [hs]
          exact Elf_Phdr.p_vaddr_lt elf_buf off
        obtain ⟨r, hr, hheld₂, -, hview₂⟩ := copy_to_va_view segment.p_filesz
          (fun i => elf_buf (segment.p_offset + i)) hheld₁ hvaddr
        obtain ⟨paddr, hpaddr, hiff⟩ := hheld₂.va_to_pa segment.p_vaddr
        have hplaced : view r.2.mem s.proc.pgtbl =
            placed elf_buf segment (view s.kern.mem s.proc.pgtbl) := by
          rw [hview₂, hview₁, placed]
        rw [orPanic_some, hroot, hr, orPanic_some, hpaddr, orPanic_some, ← hplaced]
        by_cases hmapped : paddr = 0
        · have hnone := hiff.mp hmapped
          rw [if_neg (by simp [hnone]), hmapped]
          exact .unmapped _
        · have hsome := hiff.not.mp hmapped
          rw [if_pos ⟨hle, h0, Option.isSome_iff_ne_none.mpr hsome⟩, decide_eq_true hmapped]
          exact .ok _ hroot T₁ D₁ hheld₂
    · rw [if_neg h0, if_neg fun h => h0 h.2.1]
      exact .assertion
  · rw [if_neg hle, if_neg fun h => hle h.1]
    exact .assertion

theorem eval_bind_error {α β : Type} {p : ElfProg α} {f : α → ElfProg β}
    (h : Prog.eval (shown elf_buf) p = .error ()) :
    Prog.eval (shown elf_buf) (p >>= f) = .error () := by
  rw [Prog.eval_bind, h]
  rfl

theorem eval_bind_ok {α β : Type} {p : ElfProg α} {f : α → ElfProg β} {a : α}
    (h : Prog.eval (shown elf_buf) p = .ok a) :
    Prog.eval (shown elf_buf) (p >>= f) = Prog.eval (shown elf_buf) (f a) := by
  rw [Prog.eval_bind, h]
  rfl

/-- **The loop over the segments.** -/
theorem load_segments_agrees (elf_buf : Mem) (offs : List ℕ) (h : Held s.kern s.proc.pgtbl T D) :
    Agrees s.proc.pgtbl (load_segments elf_buf (offs.map (Elf_Phdr.ofBytes elf_buf)) s)
      (Prog.eval (shown elf_buf) (load_all offs (view s.kern.mem s.proc.pgtbl))) := by
  -- the step lemma says how one segment ends; only an `ok` goes on
  induction offs generalizing s T D with
  | nil => exact .ok s rfl T D h
  | cons off offs ih =>
    rw [List.map_cons, load_segments, load_all, eval_get_bind]
    have htype : elf_buf.load off 4 = (Elf_Phdr.ofBytes elf_buf off).p_type := rfl
    rw [htype]
    by_cases hload : (Elf_Phdr.ofBytes elf_buf off).p_type = PT_LOAD
    · rw [if_pos hload, if_pos hload]
      have hone := load_segment_agrees elf_buf off _ rfl h
      generalize hr : load_segment elf_buf (Elf_Phdr.ofBytes elf_buf off) s = r at hone
      generalize he : Prog.eval (shown elf_buf)
        (load_at off (view s.kern.mem s.proc.pgtbl)) = e at hone
      cases hone with
      | panic => exact .panic _
      | assertion =>
        rw [eval_bind_error he]
        exact .assertion
      | unmapped s' =>
        rw [eval_bind_error he]
        exact .unmapped s'
      | ok s' hroot T' D' hheld =>
        rw [eval_bind_ok he, ← hroot]
        rw [← hroot] at hheld
        exact ih hheld
    · rw [if_neg hload, if_neg hload]
      exact ih h

theorem load_one {c : UInt8} : elf_buf.load off 1 = c.toNat ↔ elf_buf off = c := by
  rw [Mem.load, Mem.load, Nat.mul_zero, Nat.add_zero, UInt8.toNat_inj]

theorem load_two : elf_buf.load off 2 = (elf_buf off).toNat + 256 * (elf_buf (off + 1)).toNat := rfl

theorem eval_match_magic {α : Type} (magic : List UInt8) (f : Unit → ElfProg α) :
    Prog.eval (shown elf_buf) (match_magic off magic >>= f) =
      if ∀ i < magic.length, elf_buf (off + i) = magic.getD i 0 then
        Prog.eval (shown elf_buf) (f ())
      else .error () := by
  -- one byte after the other; the first that differs ends it
  induction magic generalizing off with
  | nil =>
    rw [if_pos (by simp)]
    rfl
  | cons c magic ih =>
    rw [match_magic, Prog.bind_assoc, eval_get_bind, Prog.bind_assoc, eval_require_bind]
    by_cases hc : elf_buf off = c
    · rw [if_pos (load_one.mpr hc), ih]
      apply if_congr _ rfl rfl
      constructor
      · intro h i hi
        cases i with
        | zero => exact hc
        | succ i =>
          have := h i (by simpa using hi)
          rw [List.getD_cons_succ, ← this, Nat.add_right_comm, Nat.add_assoc]
      · intro h i hi
        have := h (i + 1) (by simpa using hi)
        rwa [List.getD_cons_succ, ← Nat.add_assoc, Nat.add_right_comm] at this
    · rw [if_neg fun h => hc (load_one.mp h), if_neg]
      intro h
      exact hc (h 0 (by simp))

/-- What came out of the loader: it failed, or it returned the entry point and left these
bytes. -/
inductive Outcome where
  | failed
  | loaded (entry : ℕ) (image : View)

/-- A `panic` is no outcome. -/
def outcome : Except Halt (ℕ × Task) → Option Outcome
  | .error .panic => none
  | .error .assertion => some .failed
  | .ok (ret, s) =>
    if ret = ERROR then some .failed else some (.loaded ret (view s.kern.mem s.proc.pgtbl))

def Outcome.ofEval : Except Unit (ℕ × View) → Outcome
  | .error _ => .failed
  | .ok (entry, image) => .loaded entry image

/-- The end of the loader after its loop. -/
theorem finish_agrees {root entry : ℕ} {r : Except Halt (Bool × Task)} {e : Except Unit View}
    (h : Agrees root r e) :
    outcome (r >>= fun r => .ok (if r.1 then entry else ERROR, r.2)) = none ∨
      outcome (r >>= fun r => .ok (if r.1 then entry else ERROR, r.2)) = some (.ofEval
        (e >>= fun v => if entry ≠ ERROR then .ok (entry, v) else .error ())) := by
  cases h with
  | panic e => exact .inl rfl
  | assertion => exact .inr rfl
  | unmapped s => exact .inr rfl
  | ok s hroot T D hheld =>
    right
    show (if entry = ERROR then some Outcome.failed
      else some (.loaded entry (view s.kern.mem s.proc.pgtbl))) = some (.ofEval
        (if entry ≠ ERROR then .ok (entry, view s.kern.mem root) else .error ()))
    by_cases hentry : entry = ERROR
    · rw [if_pos hentry, if_neg (not_not.mpr hentry)]
      rfl
    · rw [if_neg hentry, if_pos hentry, hroot]
      rfl

/-- The header passes the comparisons of the loader. -/
def Accepts (buf : Mem) : Prop :=
  (∀ i < elf_magic.length, buf i = elf_magic.getD i 0) ∧ buf.load 18 2 = EM_LOONGARCH ∧
    buf EI_CLASS = ELFCLASS ∧ (buf.load 16 2 = ET_EXEC ∨ buf.load 16 2 = ET_DYN)

/-- The loader without the names of the fields. -/
theorem load_elf_eq : load_elf elf_buf s = (do
    assert (memcmp 4 elf_buf (fun i => elf_magic.getD i 0) = 0)
    assert (elf_buf.load 18 2 = EM_LOONGARCH)
    assert (elf_buf EI_CLASS = ELFCLASS)
    assert (elf_buf.load 16 2 = ET_EXEC ∨ elf_buf.load 16 2 = ET_DYN)
    if memcmp 4 elf_buf (fun i => elf_magic.getD i 0) ≠ 0 then .ok (ERROR, s)
    else
      assert (elf_buf.load 56 2 ≠ 0)
      let r ← load_segments elf_buf ((List.range (elf_buf.load 56 2)).map fun i =>
        Elf_Phdr.ofBytes elf_buf (elf_buf.load 32 8 + Elf_Phdr_size * i)) s
      .ok (if r.1 then elf_buf.load 24 8 else ERROR, r.2)) := rfl

/-- With such a header, the loader goes on to the program headers. -/
theorem load_elf_of_accepts (h : Accepts elf_buf) : load_elf elf_buf s =
    if elf_buf.load 56 2 ≠ 0 then
      load_segments elf_buf (((List.range (elf_buf.load 56 2)).map fun i =>
        elf_buf.load 32 8 + Elf_Phdr_size * i).map (Elf_Phdr.ofBytes elf_buf)) s >>=
          fun r => .ok (if r.1 then elf_buf.load 24 8 else ERROR, r.2)
    else .error .assertion := by
  obtain ⟨hmagic, hmachine, hclass, htype⟩ := h
  have hmemcmp : memcmp 4 elf_buf (fun i => elf_magic.getD i 0) = 0 := memcmp_eq_zero.mpr hmagic
  -- the second comparison with the magic number cannot fail any more
  rw [load_elf_eq, assert_bind, if_pos hmemcmp, assert_bind, if_pos hmachine, assert_bind,
    if_pos hclass, assert_bind, if_pos htype, if_neg (not_not.mpr hmemcmp), assert_bind,
    List.map_map]
  rfl

theorem load_elf_of_not_accepts (h : ¬ Accepts elf_buf) :
    load_elf elf_buf s = .error .assertion := by
  rw [load_elf_eq, assert_bind, assert_bind, assert_bind, assert_bind]
  split_ifs with hmemcmp hmachine hclass htype hne
  · exact absurd hmemcmp hne
  · exact absurd ⟨memcmp_eq_zero.mp hmemcmp, hmachine, hclass, htype⟩ h
  all_goals rfl

/-- A loader that returns has accepted the header and gone through the segments. -/
theorem load_elf_ok {r : ℕ × Task} (h : load_elf elf_buf s = .ok r) :
    Accepts elf_buf ∧ elf_buf.load 56 2 ≠ 0 ∧ ∃ b,
      load_segments elf_buf (((List.range (elf_buf.load 56 2)).map fun i =>
        elf_buf.load 32 8 + Elf_Phdr_size * i).map (Elf_Phdr.ofBytes elf_buf)) s = .ok (b, r.2) ∧
      r.1 = if b then elf_buf.load 24 8 else ERROR := by
  by_cases haccepts : Accepts elf_buf
  case neg =>
    rw [load_elf_of_not_accepts haccepts] at h
    cases h
  rw [load_elf_of_accepts haccepts] at h
  by_cases hphnum : elf_buf.load 56 2 ≠ 0
  case neg =>
    rw [if_neg hphnum] at h
    cases h
  rw [if_pos hphnum] at h
  obtain ⟨⟨b, s'⟩, hsegments, hr⟩ := bind_eq_ok h
  obtain rfl := Except.ok.inj hr
  exact ⟨haccepts, hphnum, b, hsegments, rfl⟩

theorem eval_read_header_of_accepts (h : Accepts elf_buf) :
    Prog.eval (shown elf_buf) read_header =
      if elf_buf.load 56 2 ≠ 0 then
        .ok ((List.range (elf_buf.load 56 2)).map fun i =>
          elf_buf.load 32 8 + Elf_Phdr_size * i)
      else .error () := by
  obtain ⟨hmagic, hmachine, hclass, htype⟩ := h
  rw [read_header, eval_match_magic, if_pos (by simpa using hmagic), eval_get_bind,
    eval_require_bind, if_pos hmachine, eval_get_bind, eval_require_bind,
    if_pos (load_one.mpr hclass), eval_get_bind, eval_require_bind, if_pos htype, eval_get_bind,
    eval_require_bind, eval_get_bind]
  rfl

theorem eval_read_header_of_not_accepts (h : ¬ Accepts elf_buf) :
    Prog.eval (shown elf_buf) read_header = .error () := by
  rw [read_header, eval_match_magic]
  simp only [eval_get_bind, eval_require_bind, Nat.zero_add]
  split_ifs with hmagic hmachine hclass htype
  · exact absurd ⟨hmagic, hmachine, load_one.mp hclass, htype⟩ h
  all_goals rfl

/-- The offsets are those of a header that is accepted. -/
theorem eval_read_header_ok {offs : List ℕ} (h : Prog.eval (shown elf_buf) read_header = .ok offs) :
    Accepts elf_buf ∧ elf_buf.load 56 2 ≠ 0 ∧
      offs = (List.range (elf_buf.load 56 2)).map fun i =>
        elf_buf.load 32 8 + Elf_Phdr_size * i := by
  by_cases haccepts : Accepts elf_buf
  · rw [eval_read_header_of_accepts haccepts] at h
    by_cases hphnum : elf_buf.load 56 2 ≠ 0
    · rw [if_pos hphnum] at h
      exact ⟨haccepts, hphnum, (Except.ok.inj h).symm⟩
    · rw [if_neg hphnum] at h
      cases h
  · rw [eval_read_header_of_not_accepts haccepts] at h
    cases h

theorem eval_load_image_of_accepts (h : Accepts elf_buf) :
    Prog.eval (shown elf_buf) (load_image v) =
      if elf_buf.load 56 2 ≠ 0 then
        Prog.eval (shown elf_buf) (load_all ((List.range (elf_buf.load 56 2)).map fun i =>
          elf_buf.load 32 8 + Elf_Phdr_size * i) v) >>= fun v =>
            if elf_buf.load 24 8 ≠ ERROR then .ok (elf_buf.load 24 8, v) else .error ()
      else .error () := by
  have hheader := eval_read_header_of_accepts h
  rw [load_image_eq]
  by_cases hphnum : elf_buf.load 56 2 ≠ 0
  · rw [if_pos hphnum] at hheader ⊢
    rw [eval_bind_ok hheader, Prog.eval_bind]
    simp only [eval_get_bind, eval_require_bind, Prog.eval]
  · rw [if_neg hphnum] at hheader ⊢
    exact eval_bind_error hheader

theorem eval_load_image_of_not_accepts (h : ¬ Accepts elf_buf) :
    Prog.eval (shown elf_buf) (load_image v) = .error () := by
  rw [load_image_eq]
  exact eval_bind_error (eval_read_header_of_not_accepts h)

/-- **The loader comes to what the program comes to**, unless it panics. -/
theorem load_elf_agrees (elf_buf : Mem) (h : Held s.kern s.proc.pgtbl T D) :
    outcome (load_elf elf_buf s) = none ∨ outcome (load_elf elf_buf s) = some (.ofEval
      (Prog.eval (shown elf_buf) (load_image (view s.kern.mem s.proc.pgtbl)))) := by
  by_cases haccepts : Accepts elf_buf
  · rw [load_elf_of_accepts haccepts, eval_load_image_of_accepts haccepts]
    by_cases hphnum : elf_buf.load 56 2 ≠ 0
    · rw [if_pos hphnum, if_pos hphnum]
      exact finish_agrees (load_segments_agrees elf_buf _ h)
    · rw [if_neg hphnum, if_neg hphnum]
      exact .inr rfl
  · rw [load_elf_of_not_accepts haccepts, eval_load_image_of_not_accepts haccepts]
    exact .inr rfl

/-! ## What is loaded -/

/-- The segments `PT_LOAD` among the program headers at the given offsets. -/
def loadsAt (elf_buf : Mem) (offs : List ℕ) : List Elf_Phdr :=
  (offs.map (Elf_Phdr.ofBytes elf_buf)).filter fun s => s.p_type = PT_LOAD

/-- The segments `PT_LOAD` of the program in `elf_buf`. -/
def loads (elf_buf : Mem) : List Elf_Phdr :=
  loadsAt elf_buf ((List.range (Elf_Ehdr.ofBytes elf_buf).e_phnum).map fun i =>
    (Elf_Ehdr.ofBytes elf_buf).e_phoff + Elf_Phdr_size * i)

/-- When all segments could be loaded, they were loaded one after the other. -/
theorem eval_load_all_ok {offs : List ℕ} {v' : View}
    (h : Prog.eval (shown elf_buf) (load_all offs v) = .ok v') :
    v' = (loadsAt elf_buf offs).foldl (fun v s => placed elf_buf s v) v ∧
      ∀ s ∈ loadsAt elf_buf offs, s.p_filesz ≤ s.p_memsz ∧ s.p_filesz ≠ 0 := by
  -- what the segments before left is the view that the next one starts from
  induction offs generalizing v with
  | nil => exact ⟨(Except.ok.inj h).symm, by simp [loadsAt]⟩
  | cons off offs ih =>
    rw [load_all, eval_get_bind] at h
    have htype : elf_buf.load off 4 = (Elf_Phdr.ofBytes elf_buf off).p_type := rfl
    rw [htype] at h
    by_cases hload : (Elf_Phdr.ofBytes elf_buf off).p_type = PT_LOAD
    · rw [if_pos hload] at h
      have hone := eval_load_at (v := v) (Elf_Phdr.ofBytes elf_buf off) rfl
      have hloads : loadsAt elf_buf (off :: offs) =
          Elf_Phdr.ofBytes elf_buf off :: loadsAt elf_buf offs := by
        rw [loadsAt, List.map_cons, List.filter_cons_of_pos (by simpa using hload)]
        rfl
      split_ifs at hone with hok
      · rw [eval_bind_ok hone] at h
        obtain ⟨hv', hall⟩ := ih h
        rw [hloads, List.foldl_cons, List.forall_mem_cons]
        exact ⟨hv', ⟨hok.1, hok.2.1⟩, hall⟩
      · rw [eval_bind_error hone] at h
        cases h
    · rw [if_neg hload] at h
      have hloads : loadsAt elf_buf (off :: offs) = loadsAt elf_buf offs := by
        rw [loadsAt, List.map_cons, List.filter_cons_of_neg (by simpa using hload)]
        rfl
      rw [hloads]
      exact ih h

/-- When the program was loaded, its segments were. -/
theorem eval_load_image_ok {entry : ℕ} {v' : View}
    (h : Prog.eval (shown elf_buf) (load_image v) = .ok (entry, v')) :
    entry = (Elf_Ehdr.ofBytes elf_buf).e_entry ∧
      v' = (loads elf_buf).foldl (fun v s => placed elf_buf s v) v ∧
      ∀ s ∈ loads elf_buf, s.p_filesz ≤ s.p_memsz ∧ s.p_filesz ≠ 0 := by
  by_cases haccepts : Accepts elf_buf
  case neg =>
    rw [eval_load_image_of_not_accepts haccepts] at h
    cases h
  by_cases hphnum : elf_buf.load 56 2 ≠ 0
  case neg =>
    rw [eval_load_image_of_accepts haccepts, if_neg hphnum] at h
    cases h
  rw [eval_load_image_of_accepts haccepts, if_pos hphnum] at h
  generalize hall : Prog.eval (shown elf_buf) (load_all
    ((List.range (elf_buf.load 56 2)).map fun i => elf_buf.load 32 8 + Elf_Phdr_size * i) v) = r at h
  cases r with
  | error e => cases h
  | ok v₁ =>
    have hok : ∀ f : View → Except Unit (ℕ × View), (.ok v₁ >>= f) = f v₁ := fun _ => rfl
    rw [hok] at h
    split_ifs at h with hentry
    obtain ⟨rfl, rfl⟩ := Prod.mk.inj (Except.ok.inj h)
    exact ⟨rfl, eval_load_all_ok hall⟩

end Loos.LoadImage
