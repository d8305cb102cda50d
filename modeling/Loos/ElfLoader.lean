/-
`src/core/exec.c`: `elf_loader`.

The file is read into `elf_buf`, a static array that is never cleared, and how many bytes
`read` brought is not looked at. A segment is then loaded in three steps: fresh pages for a
range that is rounded to the alignment, the bytes of the file, and a test that the start of
the segment is mapped.

An offset into `elf_buf` is a natural number; what lies behind the array is given with it,
and the loader does not write there. An assertion that fails halts the machine, and so does
a `panic`; [`Halt`] keeps the two apart.
-/
import Loos.AddrSpace
import Loos.FileReads

set_option autoImplicit false

namespace Loos.ElfLoader

open SysLib Kern PageTable AddrSpace Cstring Ext2 Ext2Fs FileReads

/-! ## The file format -/

/-- `sizeof(elf_buf)` -/
def elf_buf_size : ℕ := 20 * 1024 * 1024

/-- `elf_magic` -/
def elf_magic : List UInt8 := [0x7f, 69, 76, 70]

def EI_CLASS : ℕ := 4
def ELFCLASS : UInt8 := 2
def EM_LOONGARCH : ℕ := 258
def ET_EXEC : ℕ := 2
def ET_DYN : ℕ := 3
def PT_LOAD : ℕ := 1
def PF_W : ℕ := 2
def PF_R : ℕ := 4

/-- `Elf64_Ehdr`, the fields that are used. -/
structure Elf_Ehdr where
  e_ident : Mem
  e_type : ℕ
  e_machine : ℕ
  e_entry : ℕ
  e_phoff : ℕ
  e_phnum : ℕ

/-- The header at the start of a buffer. -/
def Elf_Ehdr.ofBytes (buf : Mem) : Elf_Ehdr where
  e_ident := buf
  e_type := buf.load 16 2
  e_machine := buf.load 18 2
  e_entry := buf.load 24 8
  e_phoff := buf.load 32 8
  e_phnum := buf.load 56 2

/-- `Elf64_Phdr`; `p_paddr` is only logged. -/
structure Elf_Phdr where
  p_type : ℕ
  p_flags : ℕ
  p_offset : ℕ
  p_vaddr : ℕ
  p_filesz : ℕ
  p_memsz : ℕ
  p_align : ℕ
deriving DecidableEq

/-- The program header at `off` of a buffer. -/
def Elf_Phdr.ofBytes (buf : Mem) (off : ℕ) : Elf_Phdr where
  p_type := buf.load off 4
  p_flags := buf.load (off + 4) 4
  p_offset := buf.load (off + 8) 8
  p_vaddr := buf.load (off + 16) 8
  p_filesz := buf.load (off + 32) 8
  p_memsz := buf.load (off + 40) 8
  p_align := buf.load (off + 48) 8

/-- `sizeof(Elf64_Phdr)` -/
def Elf_Phdr_size : ℕ := 56

/-! ## The address range of a segment -/

/-- `ALIGN`, which rounds down. -/
def ALIGN (val to_ : ℕ) : ℕ := val / to_ * to_

namespace Elf_Phdr

variable (segment : Elf_Phdr)

def pg_size : ℕ := if PGSIZE > segment.p_align then PGSIZE else segment.p_align

/-- The segment is readable and writable. -/
def Writable : Prop := segment.p_flags &&& PF_R ≠ 0 ∧ segment.p_flags &&& PF_W ≠ 0

instance : Decidable segment.Writable := inferInstanceAs (Decidable (_ ∧ _))

def start : ℕ := ALIGN segment.p_vaddr segment.pg_size

/-- `end`, four pages later when the segment is writable. -/
def end_ : ℕ :=
  (ALIGN ((segment.p_vaddr + segment.p_memsz + 2 ^ 64 - 1) % 2 ^ 64) segment.pg_size +
    segment.pg_size + if segment.Writable then 4 * PGSIZE else 0) % 2 ^ 64

/-- `p->bss` behind the segment, when it was `bss` before. -/
def set_bss (bss : ℕ) : ℕ :=
  if segment.Writable then (segment.p_vaddr + segment.p_memsz) % 2 ^ 64 else bss

end Elf_Phdr

/-! ## The loader -/

/-- Why the machine halts: an assertion, or a `panic` (or a call that does not return). -/
inductive Halt where
  | assertion
  | panic
deriving DecidableEq

def assert (c : Prop) [Decidable c] : Except Halt Unit :=
  if c then .ok () else .error .assertion

/-- A function that panics with `none`. -/
def orPanic {α : Type} (r : Option α) : Except Halt α := r.elim (.error .panic) .ok

/-- What the loader writes: the machine, and the mappings and `bss` of the new process. -/
structure Task where
  kern : Kern
  proc : Space
  bss : ℕ

/-- `PTE_P|PTE_W|PTE_MATL|PTE_D|PTE_V` -/
def SEGMENT_PERM : ℕ := 0x193

/-- `return -1`, as a `uintptr_t`. -/
def ERROR : ℕ := 2 ^ 64 - 1

/-- The body of the loop of `elf_loader` for a segment `PT_LOAD`; with `false` the loader
returns -1. -/
def load_segment (elf_buf : Mem) (segment : Elf_Phdr) (s : Task) : Except Halt (Bool × Task) := do
  assert (segment.p_filesz ≤ segment.p_memsz)
  assert (segment.p_filesz ≠ 0)
  let a ← orPanic (alloc_vm s.kern s.proc segment.start segment.end_ SEGMENT_PERM)
  let c ← orPanic (copy_to_va a.kern a.proc.pgtbl segment.p_vaddr
    (fun i => elf_buf (segment.p_offset + i)) segment.p_filesz)
  let paddr ← orPanic (va_to_pa c.2 a.proc.pgtbl segment.p_vaddr)
  .ok (decide (paddr ≠ 0), ⟨c.2, a.proc, segment.set_bss s.bss⟩)

/-- The loop of `elf_loader` over the segments that are left. -/
def load_segments (elf_buf : Mem) : List Elf_Phdr → Task → Except Halt (Bool × Task)
  | [], s => .ok (true, s)
  | segment :: rest, s =>
    if segment.p_type = PT_LOAD then do
      let r ← load_segment elf_buf segment s
      if r.1 then load_segments elf_buf rest r.2 else .ok (false, r.2)
    else load_segments elf_buf rest s

/-- `elf_loader` once the file is in `elf_buf`. -/
def load_elf (elf_buf : Mem) (s : Task) : Except Halt (ℕ × Task) := do
  let header := Elf_Ehdr.ofBytes elf_buf
  assert (memcmp 4 header.e_ident (fun i => elf_magic.getD i 0) = 0)
  assert (header.e_machine = EM_LOONGARCH)
  assert (header.e_ident EI_CLASS = ELFCLASS)
  assert (header.e_type = ET_EXEC ∨ header.e_type = ET_DYN)
  if memcmp 4 header.e_ident (fun i => elf_magic.getD i 0) ≠ 0 then .ok (ERROR, s)
  else
    let segments := (List.range header.e_phnum).map fun i =>
      Elf_Phdr.ofBytes elf_buf (header.e_phoff + Elf_Phdr_size * i)
    assert (header.e_phnum ≠ 0)
    let r ← load_segments elf_buf segments s
    .ok (if r.1 then header.e_entry else ERROR, r.2)

/-- The kernel as the loader sees it. -/
structure Machine where
  sys : Sys
  elf_buf : Mem
  task : Task

/-- `elf_loader`; `found` is what `ext2_path_lookup` finds under the path. -/
def elf_loader (found : Option ext2_inode) (m : Machine) : Except Halt (ℕ × Machine) := do
  let opened ← orPanic (m.sys.files.openat 0 found 0)
  if opened.1 = -1 then .ok (ERROR, { m with sys := { m.sys with files := opened.2 } })
  else
    -- the page in which `open` keeps the inode
    let page ← orPanic (kmalloc m.task.kern 128)
    let r ← orPanic (read { m.sys with files := opened.2 } opened.1 m.elf_buf elf_buf_size)
    let closed ← orPanic (r.2.2.files.close opened.1)
    let e ← load_elf r.2.1 { m.task with kern := page.2 }
    .ok (e.1, ⟨{ r.2.2 with files := closed.2 }, r.2.1, e.2⟩)

end Loos.ElfLoader
