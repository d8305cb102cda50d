/-
Reading a file to its end.

`open` sets `f_pos` to 0 and nothing looks at it again: `read` does not advance it, and
`ext2_fread` starts at byte 0. So every `read` on a descriptor brings the same bytes, the
first of the file. It cannot be told from reading on only where these bytes are also the
next ones ([`reads_on_iff`]); a loop that reads until 0 never ends on a file that has a byte.

One more thing can happen to a descriptor from `open`. When the slot of the standard input
has been freed, `open` takes it, and then `read` asks the console.
-/
import Loos.Ext2Fs
import Loos.FileContent

set_option autoImplicit false

namespace Loos.FileReads

open SysLib Ahci Ext2 Ext2Fs FileContent

/-- What the calls read: the descriptors of the process, the mounted file system with its
disk, and the console. `console k n` is the string that the call number `k` of `getstr(n)`
returns. -/
structure Sys where
  files : Files ext2_inode
  dev : Dev
  block_size : ℕ
  console : ℕ → ℕ → List UInt8
  lines : ℕ

/-- `read`: the returned value and `buf`. `none` is a call that does not return. -/
def read (s : Sys) (fd : ℤ) (buf : Mem) (count : ℕ) : Option (ℕ × Mem × Sys) :=
  if s.files.fd_invaild fd then some (18446744073709551615, buf, s)
  else
    (s.files.fd_to_fds fd).bind fun index =>
      if index = STDIN then
        let str := s.console s.lines count
        some (str.length, buf.put 0 str.length fun i => str.getD i 0,
          { s with lines := s.lines + 1 })
      else
        -- a null pointer is not followed; `count` becomes a `uint32_t`
        (s.files.fds index).f_inode.bind fun inode =>
          let r := Prog.run answer s.dev
            (ext2_fread s.block_size inode buf (count % 4294967296))
          match r.1 with
          | .ok (buf', size) => some (size, buf', { s with dev := r.2 })
          | .error _ => none

/-- The first `n` bytes of a buffer. -/
def bytes (buf : Mem) (n : ℕ) : List UInt8 := (List.range n).map buf

/-- A sequence of `read` calls on `fd`, each with its buffer and count: the bytes that each
call returns. -/
def reads : Sys → ℤ → List (Mem × ℕ) → Option (List (List UInt8))
  | _, _, [] => some []
  | s, fd, (buf, count) :: calls =>
    (read s fd buf count).bind fun r =>
      (reads r.2.2 fd calls).map fun outs => bytes r.2.1 r.1 :: outs

/-- Every call returns as many bytes as are left, up to its count, and all of them together
are the first bytes of the content. -/
structure ReadsOn (content : List UInt8) (ns : List ℕ) (outs : List (List UInt8)) : Prop where
  counts : ∀ ns₁ n ns₂ outs₁ out outs₂, ns = ns₁ ++ n :: ns₂ → outs = outs₁ ++ out :: outs₂ →
    ns₁.length = outs₁.length → out.length = min n (content.length - outs₁.flatten.length)
  data : outs.flatten <+: content

/-- What the call number `k`, with the count `n`, gets: a string from the console when `open`
took the slot of the standard input, else the first bytes of the file. -/
def got (f : Files ext2_inode) (s : Sys) (inode : ext2_inode) (k n : ℕ) : List UInt8 :=
  if (f.fds STDIN).alloc = 0 then s.console (s.lines + k) n
  else (seen s.dev.disk inode).take (n % 4294967296)

/-- From the call `k` on, with `off` bytes read so far: every call gets what comes next. -/
def Continues (got : ℕ → ℕ → List UInt8) (content : List UInt8) : ℕ → ℕ → List ℕ → Prop
  | _, _, [] => True
  | k, off, n :: ns =>
    got k n = (content.drop off).take n ∧
      Continues got content (k + 1) (off + (got k n).length) ns

def decideContinues (got : ℕ → ℕ → List UInt8) (content : List UInt8) :
    ∀ k off ns, Decidable (Continues got content k off ns)
  | _, _, [] => .isTrue trivial
  | k, off, n :: ns =>
    have := decideContinues got content (k + 1) (off + (got k n).length) ns
    inferInstanceAs (Decidable (_ ∧ _))

instance (got : ℕ → ℕ → List UInt8) (content : List UInt8) (k off : ℕ) (ns : List ℕ) :
    Decidable (Continues got content k off ns) := decideContinues got content k off ns

variable {f : Files ext2_inode} {s : Sys} {inode : ext2_inode} {fd : ℤ} {flags slot : ℕ}

/-! ## One call -/

/-- What a descriptor from `open` is bound to. -/
structure Bound (s : Sys) (fd : ℤ) (slot : ℕ) (inode : ext2_inode) : Prop where
  valid : s.files.fd_invaild fd = false
  slot_eq : s.files.fd_to_fds fd = some slot
  inode_eq : (s.files.fds slot).f_inode = some inode

theorem alloc_fds_first {fds fds' : ℕ → ext2_file ext2_inode} {index : ℕ}
    (h : alloc_fds fds = some (index, fds')) : index = STDIN ↔ (fds STDIN).alloc = 0 := by
  obtain ⟨j, hj, hr⟩ := Option.map_eq_some_iff.mp h
  obtain ⟨rfl, -⟩ := Prod.mk.inj hr
  obtain ⟨hfree, -, hbefore⟩ := List.find?_range_eq_some.mp hj
  constructor
  · intro h0
    rw [h0] at hfree
    simpa using hfree
  · intro h0
    by_contra hne
    have := hbefore STDIN (by simp only [STDIN] at hne ⊢; omega)
    simp [h0] at this

theorem open_bound (h : f.open (some inode) flags = some (fd, s.files)) (hfd : fd ≠ -1) :
    ∃ slot, Bound s fd slot inode ∧ (slot = STDIN ↔ (f.fds STDIN).alloc = 0) := by
  unfold Files.open at h
  dsimp only at h
  split at h
  · exact absurd (Prod.mk.inj (Option.some.inj h)).1.symm hfd
  · next i hi =>
    obtain ⟨⟨slot, fds⟩, hslot, hr⟩ := Option.map_eq_some_iff.mp h
    obtain ⟨rfl, hfiles⟩ := Prod.mk.inj hr
    have hentry : s.files.entry i = ⟨slot, 1⟩ := by
      rw [← hfiles]
      exact set_entry_self f i slot
    have hbusy : (s.files.entry i).busy ≠ 0 := by simp [hentry]
    refine ⟨slot, ⟨?_, ?_, ?_⟩, alloc_fds_first hslot⟩
    · apply fd_invaild_of_valid
      exact ⟨by omega, by simpa using (first_unused_some hi).1, hbusy⟩
    · rw [Files.fd_to_fds, if_neg hbusy, hentry]
    · rw [← hfiles]
      simp

theorem bytes_string (buf : Mem) (str : List UInt8) :
    bytes (buf.put 0 str.length fun i => str.getD i 0) str.length = str := by
  apply List.ext_getElem
  · simp [bytes]
  · intro i h1 h2
    simp [bytes, Mem.put, h2]

/-- `read` from the slot of the standard input. -/
theorem read_console (h : Bound s fd STDIN inode) (buf : Mem) (count : ℕ) :
    ∃ buf', read s fd buf count = some ((s.console s.lines count).length, buf',
        { s with lines := s.lines + 1 }) ∧
      bytes buf' (s.console s.lines count).length = s.console s.lines count := by
  refine ⟨_, ?_, bytes_string buf _⟩
  rw [read, if_neg (by simp [h.valid]), h.slot_eq, Option.bind_some, if_pos rfl]

theorem bytes_seen (disk : Mem) (buf : Mem) (count : ℕ) :
    bytes (buf.put 0 (min count inode.i_size) (seenByte disk inode)) (min count inode.i_size) =
      (seen disk inode).take count := by
  rw [seen, ← List.map_take, List.take_range, bytes]
  apply List.map_congr_left
  intro i hi
  have := List.mem_range.mp hi
  rw [Mem.put, if_pos (by omega), Nat.sub_zero]

/-- `read` from a file puts its first bytes into `buf`, and changes nothing but the disk
driver. -/
theorem read_file_put (h : Bound s fd slot inode) (hslot : slot ≠ STDIN)
    (hbs : s.block_size = 1024) (hd : Working s.dev) (buf : Mem) (count : ℕ) :
    ∃ d, read s fd buf count = some (min (count % 4294967296) inode.i_size,
        buf.put 0 (min (count % 4294967296) inode.i_size) (seenByte s.dev.disk inode),
        { s with dev := d }) ∧ Working d ∧ d.disk = s.dev.disk := by
  let p : DiskProg (Mem × ℕ) := ext2_fread s.block_size inode buf (count % 4294967296)
  have hends : p.Ends (Delivers s.dev.disk) _ := hbs ▸ ext2_fread_ends buf (count % 4294967296)
  have hrun := run_working hd hends
  obtain ⟨hd', hdisk⟩ := run_stays hd p
  refine ⟨(Prog.run answer s.dev p).2, ?_, hd', hdisk⟩
  rw [read, if_neg (by simp [h.valid]), h.slot_eq, Option.bind_some, if_neg hslot, h.inode_eq,
    Option.bind_some]
  simp only [p] at hrun
  simp only [hrun, p]

theorem read_file (h : Bound s fd slot inode) (hslot : slot ≠ STDIN) (hbs : s.block_size = 1024)
    (hd : Working s.dev) (buf : Mem) (count : ℕ) :
    ∃ n buf' d, read s fd buf count = some (n, buf', { s with dev := d }) ∧
      bytes buf' n = (seen s.dev.disk inode).take (count % 4294967296) ∧ Working d ∧
      d.disk = s.dev.disk := by
  obtain ⟨d, hread, hd', hdisk⟩ := read_file_put h hslot hbs hd buf count
  exact ⟨_, _, d, hread, bytes_seen s.dev.disk buf _, hd', hdisk⟩

/-! ## Sequences of calls -/

/-- What the calls get, from the call `k` on. -/
def gotten (got : ℕ → ℕ → List UInt8) : ℕ → List ℕ → List (List UInt8)
  | _, [] => []
  | k, n :: ns => got k n :: gotten got (k + 1) ns

theorem gotten_shift (g : ℕ → ℕ → List UInt8) (a k : ℕ) (ns : List ℕ) :
    gotten (fun k n => g (a + k) n) k ns = gotten g (a + k) ns := by
  induction ns generalizing k with
  | nil => rfl
  | cons n ns ih => rw [gotten, gotten, ih, Nat.add_assoc]

theorem reads_console (h : Bound s fd STDIN inode) (calls : List (Mem × ℕ)) :
    reads s fd calls = some (gotten s.console s.lines (calls.map Prod.snd)) := by
  induction calls generalizing s with
  | nil => rfl
  | cons c calls ih =>
    obtain ⟨buf', hread, hbytes⟩ := read_console h c.1 c.2
    have hnext : Bound { s with lines := s.lines + 1 } fd STDIN inode :=
      ⟨h.valid, h.slot_eq, h.inode_eq⟩
    rw [reads, hread, Option.bind_some, ih hnext, Option.map_some, hbytes]
    rfl

theorem reads_file (h : Bound s fd slot inode) (hslot : slot ≠ STDIN) (hbs : s.block_size = 1024)
    (hd : Working s.dev) (calls : List (Mem × ℕ)) (k : ℕ) :
    reads s fd calls = some (gotten
      (fun _ n => (seen s.dev.disk inode).take (n % 4294967296)) k (calls.map Prod.snd)) := by
  induction calls generalizing s k with
  | nil => rfl
  | cons c calls ih =>
    obtain ⟨n, buf', d, hread, hbytes, hd', hdisk⟩ := read_file h hslot hbs hd c.1 c.2
    have hnext : Bound { s with dev := d } fd slot inode := ⟨h.valid, h.slot_eq, h.inode_eq⟩
    have hrest := ih hnext hbs hd' (k + 1)
    rw [reads, hread, Option.bind_some, hrest, Option.map_some, hbytes, hdisk]
    rfl

/-! ## Reading on -/

/-- [`ReadsOn`] behind the bytes `pre`. -/
structure ReadsFrom (content pre : List UInt8) (ns : List ℕ) (outs : List (List UInt8)) :
    Prop where
  counts : ∀ ns₁ n ns₂ outs₁ out outs₂, ns = ns₁ ++ n :: ns₂ → outs = outs₁ ++ out :: outs₂ →
    ns₁.length = outs₁.length →
    out.length = min n (content.length - (pre ++ outs₁.flatten).length)
  data : pre ++ outs.flatten <+: content

/-- The first call gets what comes behind `pre`, and the others go on behind that. -/
theorem readsFrom_cons {content pre out : List UInt8} {n : ℕ} {ns : List ℕ}
    {outs : List (List UInt8)} (hpre : pre <+: content) :
    ReadsFrom content pre (n :: ns) (out :: outs) ↔
      out = (content.drop pre.length).take n ∧ ReadsFrom content (pre ++ out) ns outs := by
  obtain ⟨rest, rfl⟩ := hpre
  have hdrop : (pre ++ rest).drop pre.length = rest := by simp
  rw [hdrop]
  constructor
  · rintro ⟨hcounts, hdata⟩
    have hlen := hcounts [] n ns [] out outs rfl rfl rfl
    rw [List.flatten_cons, List.prefix_append_right_inj] at hdata
    -- the length of the first output is known, and the data is a prefix
    have hout : out = rest.take n := by
      have htake := List.prefix_iff_eq_take.mp ((List.prefix_append _ _).trans hdata)
      rw [hlen] at htake
      simp only [List.flatten_nil, List.append_nil, List.length_append,
        Nat.add_sub_cancel_left] at htake
      rw [htake, ← List.take_eq_take_min]
    refine ⟨hout, ?_, ?_⟩
    · intro ns₁ m ns₂ outs₁ o outs₂ hns houts hl
      have := hcounts (n :: ns₁) m ns₂ (out :: outs₁) o outs₂ (by rw [hns]; rfl)
        (by rw [houts]; rfl) (by simp [hl])
      simpa using this
    · rw [List.append_assoc]
      exact (List.prefix_append_right_inj pre).mpr hdata
  · rintro ⟨hout, hcounts, hdata⟩
    refine ⟨?_, ?_⟩
    · intro ns₁ m ns₂ outs₁ o outs₂ hns houts hl
      -- the call in question is the first one, or one behind it
      cases ns₁ with
      | nil =>
        obtain rfl := List.eq_nil_of_length_eq_zero hl.symm
        obtain ⟨rfl, -⟩ := List.cons.inj hns
        obtain ⟨rfl, -⟩ := List.cons.inj houts
        rw [hout]
        simp
      | cons n' ns₁ =>
        cases outs₁ with
        | nil => cases hl
        | cons o' outs₁ =>
          obtain ⟨rfl, hns'⟩ := List.cons.inj hns
          obtain ⟨rfl, houts'⟩ := List.cons.inj houts
          have := hcounts ns₁ m ns₂ outs₁ o outs₂ hns' houts' (by simpa using hl)
          simpa using this
    · rw [List.flatten_cons, ← List.append_assoc]
      exact hdata

theorem readsFrom_iff {got : ℕ → ℕ → List UInt8} {content pre : List UInt8} {ns : List ℕ}
    (hpre : pre <+: content) (k : ℕ) :
    ReadsFrom content pre ns (gotten got k ns) ↔ Continues got content k pre.length ns := by
  -- the calls behind the first go on from the longer prefix
  induction ns generalizing pre k with
  | nil =>
    refine iff_of_true ⟨?_, by simpa [gotten] using hpre⟩ trivial
    intro ns₁ n ns₂ outs₁ out outs₂ hns
    simp at hns
  | cons n ns ih =>
    rw [gotten, readsFrom_cons hpre, Continues]
    constructor
    · rintro ⟨hout, hrest⟩
      have hpre' : pre ++ got k n <+: content := (List.prefix_append _ _).trans hrest.data
      have := (ih hpre' (k + 1)).mp hrest
      rw [List.length_append] at this
      exact ⟨hout, this⟩
    · rintro ⟨hout, hrest⟩
      have hpre' : pre ++ got k n <+: content := by
        obtain ⟨rest, rfl⟩ := hpre
        rw [hout, List.drop_left]
        exact (List.prefix_append_right_inj pre).mpr (List.take_prefix _ _)
      rw [← List.length_append] at hrest
      exact ⟨hout, (ih hpre' (k + 1)).mpr hrest⟩

/-- The calls on a descriptor from `open`. -/
theorem reads_eq (hopen : f.open (some inode) flags = some (fd, s.files)) (hfd : fd ≠ -1)
    (hbs : s.block_size = 1024) (hd : Working s.dev) (calls : List (Mem × ℕ)) :
    reads s fd calls = some (gotten (got f s inode) 0 (calls.map Prod.snd)) := by
  obtain ⟨slot, hbound, hslot⟩ := open_bound hopen hfd
  by_cases h0 : (f.fds STDIN).alloc = 0
  · obtain rfl := hslot.mpr h0
    have hgot : got f s inode = fun k n => s.console (s.lines + k) n := by
      funext k n
      rw [got, if_pos h0]
    rw [hgot, gotten_shift, Nat.add_zero]
    exact reads_console hbound calls
  · have hgot : got f s inode = fun _ n => (seen s.dev.disk inode).take (n % 4294967296) := by
      funext k n
      rw [got, if_neg h0]
    rw [hgot]
    exact reads_file hbound (fun h => h0 (hslot.mp h)) hbs hd calls 0

/-- **Calls of `read` go through the file exactly when each gets, from where it always
starts, what comes next.** -/
theorem reads_on_iff (hopen : f.open (some inode) flags = some (fd, s.files)) (hfd : fd ≠ -1)
    (hbs : s.block_size = 1024) (hd : Working s.dev) (calls : List (Mem × ℕ)) :
    (∃ outs, reads s fd calls = some outs ∧
        ReadsOn (content s.dev.disk inode) (calls.map Prod.snd) outs) ↔
      Continues (got f s inode) (content s.dev.disk inode) 0 0 (calls.map Prod.snd) := by
  have hreads := reads_eq hopen hfd hbs hd calls
  have hiff : ReadsFrom (content s.dev.disk inode) [] (calls.map Prod.snd)
      (gotten (got f s inode) 0 (calls.map Prod.snd)) ↔
        Continues (got f s inode) (content s.dev.disk inode) 0 0 (calls.map Prod.snd) :=
    readsFrom_iff List.nil_prefix 0
  rw [← hiff]
  constructor
  · rintro ⟨outs, houts, hon⟩
    obtain rfl := Option.some.inj (hreads.symm.trans houts)
    exact ⟨hon.counts, hon.data⟩
  · intro h
    exact ⟨_, hreads, ⟨h.counts, h.data⟩⟩

/-! ## A file of one byte -/

/-- Block 6 starts with the letter a. -/
def disk : Mem := fun x => if x = 6144 then 97 else 0

/-- Its only block is block 6. -/
def letter : ext2_inode := ⟨fun i => if i = 1 then 0x81 else if i = 4 then 1 else
  if i = 40 then 6 else 0⟩

/-- The descriptors after `open` of the file, the first one that is not the console's. -/
def opened : Files ext2_inode :=
  (Files.open ⟨fs_init, fdtable_alloc⟩ (some letter) 0).elim ⟨fs_init, fdtable_alloc⟩ Prod.snd

def reader : Sys :=
  ⟨opened, ⟨disk, fun _ => 0, fun _ => .done, fun _ _ => 0, 0⟩, 1024, fun _ _ => [], 0⟩

theorem opened_eq : Files.open ⟨fs_init, fdtable_alloc⟩ (some letter) 0 = some (3, opened) := by
  have hret : (Files.open ⟨fs_init, fdtable_alloc⟩ (some letter) 0).map Prod.fst = some 3 := by
    decide +kernel
  obtain ⟨⟨fd, files⟩, hopen, rfl⟩ := Option.map_eq_some_iff.mp hret
  rw [opened, hopen]
  rfl

theorem letter_seen : seen disk letter = [97] ∧ content disk letter = [97] := by decide +kernel

/-- One call gets the file. -/
theorem reads_on_once : ∃ outs, reads reader 3 [(fun _ => 0, 5)] = some outs ∧
    ReadsOn (content disk letter) [5] outs :=
  (reads_on_iff opened_eq (by decide) rfl (fun _ => rfl) [(fun _ => 0, 5)]).mpr
    (by decide +kernel)

/-- **The second call gets the letter again**, and not the 0 bytes that are left. -/
theorem reads_again : reads reader 3 [(fun _ => 0, 1), (fun _ => 0, 1)] = some [[97], [97]] ∧
    content disk letter = [97] ∧ ¬ ∃ outs,
      reads reader 3 [(fun _ => 0, 1), (fun _ => 0, 1)] = some outs ∧
        ReadsOn (content disk letter) [1, 1] outs := by
  have hreads := reads_eq opened_eq (by decide) rfl (fun _ => rfl)
    [(fun _ => 0, 1), (fun _ => 0, 1)] (s := reader)
  have hgot : gotten (got ⟨fs_init, fdtable_alloc⟩ reader letter) 0 [1, 1] = [[97], [97]] := by
    decide +kernel
  rw [List.map_cons, List.map_cons, List.map_nil, hgot] at hreads
  refine ⟨hreads, letter_seen.2, ?_⟩
  rintro ⟨outs, houts, hon⟩
  obtain rfl := Option.some.inj (hreads.symm.trans houts)
  have hlen := hon.data.length_le
  rw [letter_seen.2] at hlen
  exact absurd hlen (by decide)

end Loos.FileReads
