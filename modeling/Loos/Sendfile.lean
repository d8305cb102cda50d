/-
`sys_sendfile`.

The loop copies a byte at a time until `read` returns 0. But `read` starts at the first byte
of the file each time, so it returns 0 at once or never; and for a bad descriptor it returns
-1, which is not 0 either. What `write` returns is not looked at. So the loop ends for an
empty file only ([`sendfile_works_iff`]).
-/
import Loos.FdCalls
import Loos.FreadSteps
import Loos.Lib.Loop

set_option autoImplicit false

namespace Loos.Sendfile

open SysLib Ahci Ext2 Ext2Fs FileContent FileReads FdCalls

/-! ## The code -/

/-- The variables of the loop, what was written so far, and whether `break` was reached. -/
structure Sending where
  sys : FileReads.Sys
  buf : Mem
  total_len : ℕ
  written : List UInt8
  ended : Bool

/-- One turn of the loop. -/
def turn (out_fd in_fd : ℤ) (s : Sending) : Option Sending :=
  (FileReads.read s.sys in_fd s.buf 1).bind fun r =>
    if r.1 = 0 then some { s with sys := r.2.2, buf := r.2.1, ended := true }
    else (write r.2.2.files out_fd r.2.1 r.1).map fun w =>
      { sys := r.2.2, buf := r.2.1, total_len := (s.total_len + r.1) % 18446744073709551616,
        written := s.written ++ w.2, ended := s.ended }

/-- A register as an `int`. -/
def toInt (a : BitVec 64) : ℤ := (a.setWidth 32).toInt

/-- `sys_sendfile` with the offset 0, when `n` tests of the loop are enough. -/
def sys_sendfile (n : ℕ) (s : FileReads.Sys) (buf : Mem) (out_fd in_fd : BitVec 64) :
    Option (ℕ × List UInt8) :=
  (loop (fun s => !s.ended) (turn (toInt out_fd) (toInt in_fd)) n
    ⟨s, buf, 0, [], false⟩).map fun s' => (s'.total_len, s'.written)

/-- It returns. For bad descriptors it returns an error and writes nothing; else it writes what
is left of the file, and returns how much that is. -/
def Works (s : FileReads.Sys) (buf : Mem) (out_fd in_fd : BitVec 64) : Prop :=
  ∃ n total written, sys_sendfile n s buf out_fd in_fd = some (total, written) ∧
    (s.files.fd_invaild (toInt out_fd) = true ∨ s.files.fd_invaild (toInt in_fd) = true →
      signed total < 0 ∧ written = []) ∧
    (s.files.fd_invaild (toInt out_fd) = false → ∀ slot inode,
      Bound s (toInt in_fd) slot inode →
        written = (content s.dev.disk inode).drop (s.files.fds slot).f_pos ∧
          total = written.length)

variable {s : FileReads.Sys} {d : Dev} {inode : ext2_inode} {buf buf' : Mem} {fd : ℤ}
  {bs count bytes_read n slot : ℕ} {out_fd in_fd : BitVec 64}

/-! ## One byte -/

/-- The number that `ext2_fread` returns does not depend on the disk. -/
theorem fread_loop_size (hle : bytes_read ≤ count)
    (h : (Prog.run answer d (fread_loop bs inode count buf bytes_read)).1 = .ok (buf', n)) :
    n = count := by
  induction hk : count - bytes_read using Nat.strong_induction_on generalizing d buf bytes_read with
  | _ k ih =>
  subst hk
  rw [fread_loop] at h
  split at h
  · next hlt =>
    split at h
    · cases h
    · next h0 =>
      have hmod := Nat.mod_lt bytes_read (Nat.pos_of_ne_zero h0)
      obtain ⟨b, d₁, hblock⟩ := FreadSteps.run_get_physical_block_ok d bs inode (bytes_read / bs)
      dsimp only at h
      rw [Prog.run_bind, hblock] at h
      dsimp only at h
      -- a hole or a block, the loop goes on behind it
      split at h
      · exact ih _ (by omega) (by omega) h rfl
      · exact ih _ (by omega) (by omega) h rfl
  · have hret := Except.ok.inj h
    have : bytes_read = n := congrArg Prod.snd hret
    omega

/-- `read` of one byte from a file. -/
theorem read_one {r : ℕ × Mem × FileReads.Sys} (h : Bound s fd slot inode) (hslot : slot ≠ STDIN)
    (hread : FileReads.read s fd buf 1 = some r) :
    r.1 = min 1 inode.i_size ∧ r.2.2.files = s.files := by
  rw [FileReads.read, if_neg (by simp [h.valid]), h.slot_eq, Option.bind_some, if_neg hslot,
    h.inode_eq, Option.bind_some] at hread
  dsimp only at hread
  split at hread
  · next buf' size hok =>
    obtain rfl := Option.some.inj hread
    exact ⟨fread_loop_size (Nat.zero_le _) hok, rfl⟩
  · cases hread

/-- An empty file is read without the disk. -/
theorem read_empty (h : Bound s fd slot inode) (hslot : slot ≠ STDIN) (h0 : inode.i_size = 0) :
    FileReads.read s fd buf 1 = some (0, buf, s) := by
  have hfread : ext2_fread s.block_size inode buf (1 % 4294967296) = .ret (buf, 0) := by
    rw [ext2_fread, h0, fread_loop]
    rfl
  rw [FileReads.read, if_neg (by simp [h.valid]), h.slot_eq, Option.bind_some, if_neg hslot,
    h.inode_eq, Option.bind_some, hfread]
  rfl

/-! ## The loop -/

/-- A loop in which `read` never returns 0 does not end. -/
theorem not_returns (Inv : FileReads.Sys → Prop) (hs : Inv s)
    (hread : ∀ v b r, Inv v → FileReads.read v (toInt in_fd) b 1 = some r →
      r.1 ≠ 0 ∧ Inv r.2.2) :
    sys_sendfile n s buf out_fd in_fd = none := by
  rw [sys_sendfile, Option.map_eq_none_iff]
  by_contra hne
  obtain ⟨s', hs'⟩ := Option.ne_none_iff_exists'.mp hne
  -- the loop ends when `read` has returned 0, and it never does
  obtain ⟨⟨-, hgoes⟩, hend⟩ := loop_inv (fun s' : Sending => Inv s'.sys ∧ s'.ended = false)
    (fun v v' hv _ hturn => by
      obtain ⟨r, hr, hturn⟩ := Option.bind_eq_some_iff.mp hturn
      obtain ⟨hne, hinv⟩ := hread _ _ _ hv.1 hr
      rw [if_neg hne] at hturn
      obtain ⟨w, -, rfl⟩ := Option.map_eq_some_iff.mp hturn
      exact ⟨hinv, hv.2⟩) ⟨hs, rfl⟩ hs'
  rw [hgoes] at hend
  cases hend

/-- `read` of a bad descriptor returns -1 every time. -/
theorem not_returns_invalid (hv : s.files.fd_invaild (toInt in_fd) = true) :
    sys_sendfile n s buf out_fd in_fd = none := by
  refine not_returns (fun v => v.files.fd_invaild (toInt in_fd) = true) hv fun v b r hv hr => ?_
  rw [FileReads.read, if_pos hv] at hr
  obtain rfl := Option.some.inj hr
  exact ⟨by simp, hv⟩

/-- `read` of a file that has a byte returns the first one every time. -/
theorem not_returns_file (h : Bound s (toInt in_fd) slot inode) (hslot : slot ≠ STDIN)
    (h0 : inode.i_size ≠ 0) : sys_sendfile n s buf out_fd in_fd = none := by
  -- there is no position in the file that `read` would move
  refine not_returns (fun v => Bound v (toInt in_fd) slot inode) h fun v b r hv hr => ?_
  obtain ⟨hone, hfiles⟩ := read_one hv hslot hr
  refine ⟨by omega, ?_, ?_, ?_⟩
  all_goals rw [hfiles]
  · exact hv.valid
  · exact hv.slot_eq
  · exact hv.inode_eq

theorem returns_empty (h : Bound s (toInt in_fd) slot inode) (hslot : slot ≠ STDIN)
    (h0 : inode.i_size = 0) : sys_sendfile 2 s buf out_fd in_fd = some (0, []) := by
  have hturn : turn (toInt out_fd) (toInt in_fd) ⟨s, buf, 0, [], false⟩ =
      some ⟨s, buf, 0, [], true⟩ := by
    rw [turn, read_empty h hslot h0]
    rfl
  rw [sys_sendfile, loop_of_turn rfl hturn, loop_of_exit rfl]
  rfl

/-- More tests of the loop do not change the end. -/
theorem sys_sendfile_unique {r r' : ℕ × List UInt8} {m : ℕ}
    (h : sys_sendfile n s buf out_fd in_fd = some r)
    (h' : sys_sendfile m s buf out_fd in_fd = some r') : r = r' := by
  obtain ⟨s₁, h₁, rfl⟩ := Option.map_eq_some_iff.mp h
  obtain ⟨s₂, h₂, rfl⟩ := Option.map_eq_some_iff.mp h'
  obtain ⟨hmet, hend⟩ := loop_met h₁
  rw [hmet.eq_of_exit hend h₂]

/-! ## Main results -/

/-- **`sys_sendfile` works exactly for an empty file and two good descriptors.** -/
theorem sendfile_works_iff (s : FileReads.Sys) (buf : Mem) (out_fd in_fd : BitVec 64)
    (hfile : s.files.fd_invaild (toInt in_fd) = false →
      ∃ slot inode, Bound s (toInt in_fd) slot inode ∧ slot ≠ STDIN) :
    Works s buf out_fd in_fd ↔ s.files.fd_invaild (toInt out_fd) = false ∧
      ∃ slot inode, Bound s (toInt in_fd) slot inode ∧ inode.i_size = 0 := by
  constructor
  · rintro ⟨n, total, written, hret, hbad, -⟩
    cases hin : s.files.fd_invaild (toInt in_fd) with
    | true =>
      rw [not_returns_invalid hin] at hret
      cases hret
    | false =>
      obtain ⟨slot, inode, hbound, hslot⟩ := hfile hin
      by_cases h0 : inode.i_size = 0
      · refine ⟨?_, slot, inode, hbound, h0⟩
        -- 0 is no error
        by_contra hout
        have hzero := (Prod.mk.inj (sys_sendfile_unique hret (returns_empty hbound hslot h0))).1
        have := (hbad (.inl (by simpa using hout))).1
        rw [hzero] at this
        exact absurd this (by decide)
      · rw [not_returns_file hbound hslot h0] at hret
        cases hret
  · -- the first `read` returns 0, and there is nothing to send
    rintro ⟨hout, slot, inode, hbound, h0⟩
    obtain ⟨slot', inode', hbound', hslot⟩ := hfile hbound.valid
    have hsame : slot = slot' := Option.some.inj (hbound.slot_eq.symm.trans hbound'.slot_eq)
    rw [← hsame] at hslot
    refine ⟨2, 0, [], returns_empty hbound hslot h0, fun hbad => ?_, fun _ slot₁ inode₁ h₁ => ?_⟩
    · rw [hout, hbound.valid] at hbad
      simp at hbad
    · obtain rfl : slot = slot₁ := Option.some.inj (hbound.slot_eq.symm.trans h₁.slot_eq)
      obtain rfl : inode = inode₁ := Option.some.inj (hbound.inode_eq.symm.trans h₁.inode_eq)
      have hnil : content s.dev.disk inode = [] :=
        List.eq_nil_of_length_eq_zero (by rw [length_content, h0])
      rw [hnil, List.drop_nil]
      exact ⟨rfl, rfl⟩

/-! ## Two files -/

/-- An empty file. -/
def empty : ext2_inode := ⟨fun _ => 0⟩

/-- A process that has opened the empty file. -/
def empty_reader : FileReads.Sys :=
  { reader with
    files := (Files.open ⟨fs_init, fdtable_alloc⟩ (some empty) 0).elim ⟨fs_init, fdtable_alloc⟩
      Prod.snd }

theorem empty_opened :
    Files.open ⟨fs_init, fdtable_alloc⟩ (some empty) 0 = some (3, empty_reader.files) := by
  have hret : (Files.open ⟨fs_init, fdtable_alloc⟩ (some empty) 0).map Prod.fst = some 3 := by
    decide +kernel
  obtain ⟨⟨fd, files⟩, hopen, rfl⟩ := Option.map_eq_some_iff.mp hret
  rw [empty_reader, hopen]
  rfl

theorem empty_bound : ∃ slot, Bound empty_reader (toInt 3) slot empty ∧ slot ≠ STDIN := by
  obtain ⟨slot, hbound, hslot⟩ := open_bound empty_opened (by decide)
  exact ⟨slot, hbound, fun h => absurd (hslot.mp h) (by decide)⟩

/-- The empty file is sent to the standard output. -/
theorem sendfile_works_empty : Works empty_reader (fun _ => 0) 1 3 := by
  obtain ⟨slot, hbound, hslot⟩ := empty_bound
  refine (sendfile_works_iff empty_reader (fun _ => 0) 1 3 fun _ =>
    ⟨slot, empty, hbound, hslot⟩).mpr ⟨by decide +kernel, slot, empty, hbound, by decide⟩

/-- **A file of one letter is sent for ever.** -/
theorem sendfile_letter : (∃ slot, Bound reader (toInt 3) slot letter ∧ slot ≠ STDIN) ∧
    ¬ Works reader (fun _ => 0) 1 3 := by
  obtain ⟨slot, hbound, hslot⟩ := open_bound (s := reader) opened_eq (by decide)
  have hne : slot ≠ STDIN := fun h => absurd (hslot.mp h) (by decide)
  refine ⟨⟨slot, hbound, hne⟩, ?_⟩
  rintro ⟨n, total, written, hret, -⟩
  have hnone : sys_sendfile n reader (fun _ => 0) 1 3 = none :=
    not_returns_file hbound hne (by decide +kernel)
  rw [hnone] at hret
  cases hret

end Loos.Sendfile
