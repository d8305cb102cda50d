/-
`elf_loader` on a file that can be opened.

The bytes of the file go to the start of `elf_buf`, and behind them `elf_buf` keeps what it
held. From there on the loader comes to what [`load_image`] makes of that buffer, and the
new process starts without a mapping.
-/
import Loos.LoadImage

set_option autoImplicit false

namespace Loos.LoadFile

open SysLib Kern PageTable AddrSpace Ext2 Ext2Fs FileContent FileReads ElfLoader Image LoadImage

/-- The bytes of a file, and zeros behind its end. -/
def bytesOf (file : List UInt8) : Mem := fun i => file.getD i 0

/-- As many bytes of a file as `elf_buf` has room for. -/
def brought (file : List UInt8) : ℕ := min elf_buf_size file.length

/-- `elf_buf` with a file in front of what it held. -/
def filled (old : Mem) (file : List UInt8) : Mem := old.put 0 (brought file) (bytesOf file)

/-- **A kernel in which the path leads to `file`**, as the driver sees it, with a descriptor
left for it, and a new process to load it into. Nothing is said about `elf_buf`. -/
structure Ready (found : Option ext2_inode) (file : List UInt8) (m : Machine) : Prop where
  inode : ∃ inode, found = some inode ∧ seen m.sys.dev.disk inode = file
  working : Working m.sys.dev
  block_size : m.sys.block_size = 1024
  stdin : (m.sys.files.fds STDIN).alloc ≠ 0
  opens : ∃ fd files, m.sys.files.openat 0 found 0 = some (fd, files) ∧ fd ≠ -1
  space : ∃ T, SpaceOk m.task.kern.mem m.task.proc T ∧ Fresh m.task.kern T
  empty : m.task.proc.mapping_list = []

/-- What came out of `elf_loader`. -/
def result (r : Except Halt (ℕ × Machine)) : Option Outcome :=
  outcome (r.map fun x => (x.1, x.2.task))

variable {found : Option ext2_inode} {file : List UInt8} {m : Machine}

theorem filled_of_lt {old : Mem} {i : ℕ} (h : i < brought file) :
    filled old file i = bytesOf file i := by
  rw [filled, Mem.put, if_pos (by omega), Nat.sub_zero]

theorem filled_of_le {old : Mem} {i : ℕ} (h : brought file ≤ i) : filled old file i = old i :=
  Mem.put_apply_of_disjoint (.inr (by omega))

/-! ## The calls around the loader -/

/-- A descriptor that was just opened can be closed. -/
theorem close_isSome {f g : Files ext2_inode} {fd : ℤ} {flags : ℕ}
    (h : f.open found flags = some (fd, g)) (hfd : fd ≠ -1) : ∃ r, g.close fd = some r := by
  obtain ⟨he, -⟩ | ⟨i, slot, rfl, hi, -, -, halloc, -, htable⟩ := open_spec h
  · exact absurd he hfd
  have hentry : g.entry i = ⟨slot, 1⟩ := by
    rw [Files.entry, htable, Int.toNat_natCast, set_entry_self]
  have hbusy : (g.entry i).busy ≠ 0 := by simp [hentry]
  have hvalid : g.fd_invaild i = false := fd_invaild_of_valid ⟨by omega, by simpa using hi, hbusy⟩
  have hslot : g.fd_to_fds i = some slot := by
    rw [Files.fd_to_fds, if_neg hbusy, hentry]
  rw [close_eq hvalid, Files.add_ref, hslot, Option.map_some, Option.bind_some]
  split_ifs
  · -- the slot is still allocated, so `free_fds` does not panic
    rw [hentry, free_fds, if_neg (by simp [halloc])]
    exact ⟨_, rfl⟩
  · exact ⟨_, rfl⟩

/-- What `read` puts into `elf_buf`. -/
theorem read_filled {inode : ext2_inode} {disk : Mem} (hseen : seen disk inode = file) (old : Mem) :
    old.put 0 (min (elf_buf_size % 4294967296) inode.i_size) (seenByte disk inode) =
      filled old file := by
  have hlen : inode.i_size = file.length := by rw [← hseen, length_seen]
  have hmod : elf_buf_size % 4294967296 = elf_buf_size := by decide
  funext i
  rw [filled, brought, Mem.put, Mem.put, hmod, hlen]
  split_ifs with hi
  · have hlt : i < inode.i_size := by omega
    rw [bytesOf, ← hseen, seen, Nat.sub_zero]
    simp [hlt]
  · rfl

/-- The new process after a page was taken. -/
theorem space_after_kmalloc {k k' : Kern} {p : Space} {T : List ℕ} {page : ℕ}
    (h : SpaceOk k.mem p T) (hf : Fresh k T) (hempty : p.mapping_list = [])
    (hk : kmalloc k 128 = some (page, k')) : SpaceOk k'.mem p T ∧ Fresh k' T := by
  have hpages := (kmalloc_eq_some hk).1
  have hpage : KPage page := hf.kpage page (by rw [hpages]; exact List.mem_cons_self)
  apply h.after_kmalloc (by simpa [Space.owned, hempty] using hf) hpages
  intro P hP hne
  exact samePage_kmalloc hk hpage.aligned hP.aligned hne

/-- The calls around the loader succeed as long as there is a page for the inode. -/
theorem elf_loader_run {page : ℕ × Kern} (h : Ready found file m)
    (hpage : kmalloc m.task.kern 128 = some page) :
    ∃ sys, elf_loader found m =
      (load_elf (filled m.elf_buf file) { m.task with kern := page.2 }).map fun e =>
        (e.1, ⟨sys, filled m.elf_buf file, e.2⟩) := by
  obtain ⟨⟨inode, rfl, hseen⟩, hworking, hbs, hstdin, ⟨fd, files, hopen, hfd⟩, -, -⟩ := h
  obtain ⟨slot, hbound, hslot⟩ := open_bound (s := { m.sys with files := files }) hopen hfd
  obtain ⟨d, hread, -, -⟩ := read_file_put hbound (fun he => hstdin (hslot.mp he)) hbs hworking
    m.elf_buf elf_buf_size
  obtain ⟨closed, hclose⟩ := close_isSome hopen hfd
  rw [read_filled hseen] at hread
  rw [elf_loader, hopen, orPanic_some, if_neg hfd, hpage, orPanic_some, hread, orPanic_some,
    hclose, orPanic_some]
  cases load_elf (filled m.elf_buf file) { m.task with kern := page.2 } with
  | error e => exact ⟨m.sys, rfl⟩
  | ok x => exact ⟨_, rfl⟩

theorem elf_loader_eq {page : ℕ × Kern} (h : Ready found file m)
    (hpage : kmalloc m.task.kern 128 = some page) :
    result (elf_loader found m) =
      outcome (load_elf (filled m.elf_buf file) { m.task with kern := page.2 }) := by
  obtain ⟨sys, hrun⟩ := elf_loader_run h hpage
  rw [hrun]
  cases load_elf (filled m.elf_buf file) { m.task with kern := page.2 } with
  | error e => rfl
  | ok x => rfl

/-- **`elf_loader` loads what is in `elf_buf` now**, unless it panics. -/
theorem elf_loader_result (h : Ready found file m) :
    result (elf_loader found m) = none ∨ result (elf_loader found m) = some (.ofEval
      (Prog.eval (shown (filled m.elf_buf file)) (load_image fun _ => none))) := by
  cases hpage : kmalloc m.task.kern 128 with
  | none =>
    left
    obtain ⟨fd, files, hopen, hfd⟩ := h.opens
    rw [elf_loader, hopen, orPanic_some, if_neg hfd, hpage]
    rfl
  | some page =>
    obtain ⟨T, hspace, hfresh⟩ := h.space
    obtain ⟨hspace', hfresh'⟩ := space_after_kmalloc hspace hfresh h.empty hpage
    obtain ⟨hheld, hview⟩ := Held.of_empty hspace' hfresh' h.empty
    have hagrees := load_elf_agrees (filled m.elf_buf file)
      (s := { m.task with kern := page.2 }) hheld
    rw [hview] at hagrees
    rw [elf_loader_eq h hpage]
    exact hagrees

theorem elf_loader_outcome (h : Ready found file m) {o : Outcome}
    (ho : result (elf_loader found m) = some o) :
    o = .ofEval (Prog.eval (shown (filled m.elf_buf file)) (load_image fun _ => none)) := by
  obtain hnone | hsome := elf_loader_result h
  · rw [ho] at hnone
    cases hnone
  · rw [ho] at hsome
    exact Option.some.inj hsome

/-! ## A kernel with a small file -/

/-- A disk whose block 6 starts with `file`. -/
def small_disk (file : List UInt8) : Mem := fun x =>
  if 6144 ≤ x then file.getD (x - 6144) 0 else 0

/-- A file of up to 1024 bytes in block 6. -/
def small_inode (file : List UInt8) : ext2_inode := ⟨fun i =>
  if i = 4 then UInt8.ofNat file.length
  else if i = 5 then UInt8.ofNat (file.length / 256)
  else if i = 40 then 6
  else 0⟩

/-- The first pages behind 2 GiB. -/
def small_page (i : ℕ) : ℕ := MAIN_KERNEL_DMW ||| (0x80000000 + i * PGSIZE)

def small_kern : Kern := ⟨fun _ => 0, (List.range 12).map small_page⟩

/-- A kernel with the file, in whose `elf_buf` there is `old`, and with a new process. -/
def small_machine (file : List UInt8) (old : Mem) : Machine where
  sys := ⟨⟨fs_init, fdtable_alloc⟩, ⟨small_disk file, fun _ => 0, fun _ => .done, fun _ _ => 0, 0⟩,
    1024, fun _ _ => [], 0⟩
  elf_buf := old
  task := ⟨((pgtbl_create small_kern).getD (0, small_kern)).2,
    ⟨((pgtbl_create small_kern).getD (0, small_kern)).1, []⟩, 0⟩

theorem small_fresh : Fresh small_kern [] :=
  fresh_row (by decide) (by decide) (by decide) (by decide)

theorem small_size (h : file.length ≤ 1024) : (small_inode file).i_size = file.length := by
  have hlow : (UInt8.ofNat file.length).toNat = file.length % 256 := UInt8.toNat_ofNat'
  have hhigh : (UInt8.ofNat (file.length / 256)).toNat = file.length / 256 % 256 :=
    UInt8.toNat_ofNat'
  simp only [ext2_inode.i_size, Mem.load, small_inode, Nat.reduceAdd, Nat.reduceEqDiff, if_true,
    if_false, hlow, hhigh, UInt8.toNat_zero]
  omega

theorem small_seen (h : file.length ≤ 1024) :
    seen (small_disk file) (small_inode file) = file := by
  have hblock : (small_inode file).i_block 0 = 6 := rfl
  apply List.ext_getElem
  · simp [small_size h]
  · intro i h1 h2
    have hfirst : i / 1024 = 0 := by omega
    have hmod : 6 * 2 % 4294967296 * 512 + i % 1024 = 6144 + i := by omega
    simp only [seen, List.getElem_map, List.getElem_range, seenByte, fileByte, hfirst, mapped,
      Nat.reduceLT, if_true, hblock, driverBlock, hmod, small_disk]
    rw [if_neg (by decide), if_pos (by omega), Nat.add_sub_cancel_left, List.getD_eq_getElem _ _ h2]

theorem small_ready (old : Mem) (h : file.length ≤ 1024) :
    Ready (some (small_inode file)) file (small_machine file old) where
  inode := ⟨_, rfl, small_seen h⟩
  working := fun _ => rfl
  block_size := rfl
  stdin := (by decide : (1 : ℤ) ≠ 0)
  opens := ⟨3, _, rfl, by decide⟩
  space := by
    obtain ⟨⟨root, k⟩, hc⟩ : ∃ r, pgtbl_create small_kern = some r := ⟨_, rfl⟩
    refine ⟨[root], ?_, ?_⟩
    · rw [small_machine, hc]
      exact SpaceOk.create small_fresh hc
    · rw [small_machine, hc]
      exact small_fresh.of_pages (N := [root]) (pgtbl_create_spec small_fresh hc).1
  empty := rfl

/-- The task that the loader starts with in [`small_machine`], which has a page for the inode. -/
def small_task : Task :=
  { (small_machine [] fun _ => 0).task with
    kern := ((kmalloc (small_machine [] fun _ => 0).task.kern 128).getD (0, small_kern)).2 }

theorem small_result (old : Mem) (h : file.length ≤ 1024) :
    result (elf_loader (some (small_inode file)) (small_machine file old)) =
      outcome (load_elf (filled old file) small_task) :=
  elf_loader_eq (small_ready old h) rfl

/-- The entry point is returned, if it is returned. -/
theorem small_loaded {old : Mem} {entry : ℕ} (h : file.length ≤ 1024)
    (hret : (load_elf (filled old file) small_task).toOption.map Prod.fst = some entry)
    (hentry : entry ≠ ERROR) : ∃ v,
      result (elf_loader (some (small_inode file)) (small_machine file old)) =
        some (.loaded entry v) := by
  rw [small_result old h]
  cases hr : load_elf (filled old file) small_task with
  | error e =>
    rw [hr] at hret
    cases hret
  | ok x =>
    rw [hr] at hret
    obtain rfl : x.1 = entry := Option.some.inj hret
    refine ⟨view x.2.kern.mem x.2.proc.pgtbl, ?_⟩
    exact if_neg hentry

/-! ## Small programs -/

/-- A number of `n` bytes. -/
def le (n v : ℕ) : List UInt8 := (List.range n).map fun i => UInt8.ofNat (v / 256 ^ i)

/-- The header of a program, with the program headers right behind it. -/
def small_ehdr (entry phnum : ℕ) : List UInt8 :=
  elf_magic ++ [ELFCLASS] ++ List.replicate 11 0 ++ le 2 ET_EXEC ++ le 2 EM_LOONGARCH ++ le 4 1 ++
    le 8 entry ++ le 8 64 ++ le 8 0 ++ le 4 0 ++ le 2 64 ++ le 2 56 ++ le 2 phnum ++ le 6 0

/-- The header of a segment that can be read and executed. -/
def small_phdr (p_type offset vaddr size : ℕ) : List UInt8 :=
  le 4 p_type ++ le 4 5 ++ le 8 offset ++ le 8 vaddr ++ le 8 vaddr ++ le 8 size ++ le 8 size ++
    le 8 0x4000

end Loos.LoadFile
