/-
`sys_chdir`, and the paths of `sys_openat`.

`sys_chdir` appends a path to `cwd` as it is, and never looks at the disk. Only the exact
path ".." is taken in another way: it cuts `cwd` at its last slash. That is the parent when
a name is cut off, but `cwd` may end with a slash, with "." or with ".." from the calls
before.

A string is the list of its characters without the terminating 0.
-/
import Loos.DirTree
import Loos.Ext2Fs

set_option autoImplicit false

namespace Loos.Chdir

open SysLib Ahci Ext2 Ext2Fs Cstring PathLookup Resolution DirTree

/-! ## The code -/

/-- `get_path` -/
def get_path (cwd ref_path : List UInt8) : List UInt8 :=
  if ref_path.headD 0 ≠ slash then
    (if strcmp cwd [slash] ≠ 0 then cwd ++ [slash] else cwd) ++ ref_path
  else ref_path

/-- The loop of `sys_chdir`, from the index `i` down, and the test behind it. -/
def cut_last (newpath : List UInt8) : ℕ → List UInt8
  | 0 => [slash]
  | i + 1 => if newpath.getD (i + 1) 0 = slash then newpath.take (i + 1) else cut_last newpath i

/-- `sys_chdir`: the new `cwd`. -/
def sys_chdir (cwd path : List UInt8) : List UInt8 :=
  if strcmp path dotdot = 0 then cut_last cwd cwd.length
  else if path.headD 0 = slash then path
  else (if strcmp cwd [slash] ≠ 0 then cwd ++ [slash] else cwd) ++ path

/-- `sys_openat`, on the disk `d` and with the descriptors `f`; `none` where the lookup panics. -/
def sys_openat (d : Dev) (fs : ext2_fs) (f : Files ext2_inode) (cwd : List UInt8) (dirfd : ℤ)
    (ref_path : List UInt8) (flags : ℕ) : Option (ℤ × Files ext2_inode) :=
  match (Prog.run answer d (ext2_path_lookup fs (get_path cwd ref_path))).1 with
  | .ok inode => f.openat dirfd (some inode) flags
  | .error (.err _) => f.openat dirfd none flags
  | .error .stuck => none

/-! ## What the calls are about -/

/-- A path that does not begin at the root. -/
structure Relative (q : List UInt8) : Prop where
  no_nul : 0 ∉ q
  no_slash : q.headD 0 ≠ slash

/-- The strings of `sys_chdir(p)`, of `sys_openat(q)` behind it and of
`sys_openat(p + "/" + q)` before it are in their buffers. -/
structure Fits (cwd p q : List UInt8) : Prop where
  path : p.length < 256
  newpath : (sys_chdir cwd p).length < 256
  after : (get_path (sys_chdir cwd p) q).length < 256
  before : (get_path cwd (p ++ slash :: q)).length < 256

/-- "/bin" -/
def bin : List UInt8 := [slash, 98, 105, 110]

/-- The strings that `cwd` can be: those of `proc_init` and `user_init`, and what `sys_chdir`
makes of them with the paths of directories. -/
inductive Cwd (disk : Mem) (fs : ext2_fs) : List UInt8 → Prop
  | root : Cwd disk fs [slash]
  | bin (h : LeadsToDir disk fs (parts bin)) : Cwd disk fs bin
  | chdir {cwd p : List UInt8} (hcwd : Cwd disk fs cwd) (h0 : 0 ∉ p)
      (hdir : LeadsToDir disk fs (parts (get_path cwd p))) (hpath : p.length < 256)
      (hnewpath : (sys_chdir cwd p).length < 256) : Cwd disk fs (sys_chdir cwd p)

/-- `sys_chdir(p)` and then `sys_openat(q)` does what `sys_openat(p + "/" + q)` does. -/
def Same (d : Dev) (fs : ext2_fs) (cwd p q : List UInt8) : Prop :=
  ∀ f dirfd flags, sys_openat d fs f (sys_chdir cwd p) dirfd q flags
    = sys_openat d fs f cwd dirfd (p ++ slash :: q) flags

/-- Where `p` is taken right. An empty `p` leaves `cwd`, but `p + "/" + q` begins at the root.
A ".." takes off the last part of `cwd`; when that is no name, the directory that is meant is
the one that is left only at the root. -/
def Sound (disk : Mem) (fs : ext2_fs) (cwd p : List UInt8) : Prop :=
  (p = [] → resolution disk fs cwd = load_inode disk fs EXT2_ROOT_INO) ∧
  (p = dotdot → ∀ pre last, cwd = pre ++ slash :: last → slash ∉ last →
    (last = [] ∨ last = dot → resolution disk fs cwd = load_inode disk fs EXT2_ROOT_INO) ∧
    (last = dotdot → resolution disk fs pre = load_inode disk fs EXT2_ROOT_INO))

variable {d : Dev} {disk : Mem} {fs : ext2_fs} {cwd p q pre last : List UInt8}

/-! ## Paths by their parts -/

theorem strcmp_eq (h0 : 0 ∉ p) {s : List UInt8} (hs : 0 ∉ s) (hlen : s.length < MAX_STR_LEN) :
    strcmp p s = 0 ↔ p = s := by
  have htake : p.takeWhile (· ≠ 0) = p := by
    rw [List.takeWhile_eq_self_iff]
    intro c hc
    have hc0 : c ≠ 0 := by
      rintro rfl
      exact h0 hc
    simpa using hc0
  rw [strcmp_eq_zero hs hlen, htake]

theorem strcmp_root (h0 : 0 ∉ cwd) : strcmp cwd [slash] = 0 ↔ cwd = [slash] :=
  strcmp_eq h0 (by decide) (by decide)

theorem strcmp_dotdot (h0 : 0 ∉ p) : strcmp p dotdot = 0 ↔ p = dotdot :=
  strcmp_eq h0 (by decide) (by decide)

theorem parts_nil : parts [] = [] := rfl

/-- A path behind `cwd`, with a slash between them unless `cwd` is one. -/
theorem parts_behind (h0 : 0 ∉ cwd) :
    parts ((if strcmp cwd [slash] ≠ 0 then cwd ++ [slash] else cwd) ++ q)
      = parts cwd ++ parts q := by
  by_cases h : strcmp cwd [slash] = 0
  · rw [if_neg (not_not.mpr h), (strcmp_root h0).mp h]
    exact parts_slash
  · rw [if_pos h, List.append_assoc]
    exact parts_append cwd q

theorem parts_get_path (h0 : 0 ∉ cwd) (hq : q.headD 0 ≠ slash) :
    parts (get_path cwd q) = parts cwd ++ parts q := by
  rw [get_path, if_pos hq, parts_behind h0]

/-- What `p` stands for in `p + "/" + q`. -/
def target (cwd p : List UInt8) : List (List UInt8) :=
  if p = [] then [] else if p.headD 0 = slash then parts p else parts cwd ++ parts p

theorem parts_before (h0 : 0 ∉ cwd) :
    parts (get_path cwd (p ++ slash :: q)) = target cwd p ++ parts q := by
  cases p with
  | nil =>
    rw [List.nil_append, get_path, if_neg (by simp), parts_slash]
    rfl
  | cons c p =>
    rw [target, if_neg (List.cons_ne_nil c p)]
    by_cases hc : c = slash
    · rw [get_path, if_neg (by simp [hc]), if_pos (by simp [hc]), parts_append]
    · rw [parts_get_path h0 (by simpa using hc), if_neg (by simpa using hc), parts_append,
        List.append_assoc]

/-- Every path but ".." is appended, or replaces `cwd`. -/
theorem parts_chdir (h0 : 0 ∉ cwd) (hp : 0 ∉ p) (hne : p ≠ dotdot) :
    parts (sys_chdir cwd p)
      = if p.headD 0 = slash then parts p else parts cwd ++ parts p := by
  rw [sys_chdir, if_neg fun h => hne ((strcmp_dotdot hp).mp h)]
  by_cases hc : p.headD 0 = slash
  · rw [if_pos hc, if_pos hc]
  · rw [if_neg hc, if_neg hc, parts_behind h0]

/-- The loop stops at the last slash, or at the first character. -/
theorem cut_last_eq (h : slash ∉ last) {i : ℕ} (hi : pre.length ≤ i) :
    cut_last (pre ++ slash :: last) i = if pre = [] then [slash] else pre := by
  induction i with
  | zero =>
    obtain rfl : pre = [] := List.eq_nil_of_length_eq_zero (by omega)
    rfl
  | succ i ih =>
    rw [cut_last]
    by_cases hlast : pre.length = i + 1
    · have hne : pre ≠ [] := by
        rintro rfl
        cases hlast
      rw [if_neg hne, ← hlast, List.getD_append_right _ _ _ _ (le_refl _), Nat.sub_self,
        List.getD_cons_zero, if_pos rfl, List.take_left]
    · -- behind the last slash, or behind the end
      have hbyte : (pre ++ slash :: last).getD (i + 1) 0 ≠ slash := by
        rw [List.getD_append_right _ _ _ _ hi,
          show i + 1 - pre.length = i - pre.length + 1 by omega, List.getD_cons_succ]
        intro hbyte
        rcases Nat.lt_or_ge (i - pre.length) last.length with hlt | hge
        · rw [List.getD_eq_getElem _ _ hlt] at hbyte
          exact h (hbyte ▸ List.getElem_mem hlt)
        · rw [List.getD_eq_default _ _ hge] at hbyte
          exact absurd hbyte (by decide)
      rw [if_neg hbyte, ih (by omega)]

theorem sys_chdir_dotdot (h : slash ∉ last) :
    sys_chdir (pre ++ slash :: last) dotdot = if pre = [] then [slash] else pre := by
  rw [sys_chdir, if_pos ((strcmp_dotdot (by decide)).mpr rfl)]
  exact cut_last_eq h (by rw [List.length_append]; omega)

theorem parts_dotdot (h : slash ∉ last) :
    parts (sys_chdir (pre ++ slash :: last) dotdot) = parts pre := by
  rw [sys_chdir_dotdot h]
  split_ifs with hpre
  · rw [hpre]
    exact parts_slash
  · rfl

/-- A path with a slash, cut at its last one. -/
theorem exists_last_slash (h : slash ∈ cwd) :
    ∃ pre last, cwd = pre ++ slash :: last ∧ slash ∉ last := by
  obtain ⟨rest, front, hrev, hnot⟩ := List.eq_append_cons_of_mem (List.mem_reverse.mpr h)
  refine ⟨front.reverse, rest.reverse, ?_, by simpa using hnot⟩
  rw [← List.reverse_reverse cwd, hrev]
  simp

theorem last_slash_unique {pre' last' : List UInt8} (h : slash ∉ last) (h' : slash ∉ last')
    (heq : pre ++ slash :: last = pre' ++ slash :: last') : pre = pre' ∧ last = last' := by
  -- a longer front would have the other slash in the last part
  have hfront : ∀ {a a' l l' : List UInt8}, slash ∉ l →
      (∃ as, a' = a ++ as ∧ slash :: l = as ++ slash :: l') → a = a' ∧ l = l' := by
    rintro a a' l l' hl ⟨as, rfl, has⟩
    cases as with
    | nil => exact ⟨(List.append_nil a).symm, (List.cons.inj has).2⟩
    | cons c as =>
      apply absurd _ hl
      rw [(List.cons.inj has).2]
      exact List.mem_append_right _ List.mem_cons_self
  rcases List.append_eq_append_iff.mp heq with has | has
  · exact hfront h has
  · obtain ⟨hpre, hlast⟩ := hfront h' has
    exact ⟨hpre.symm, hlast.symm⟩

/-! ## The strings that `cwd` can be -/

/-- What holds of `cwd` after every call. -/
structure CwdOk (disk : Mem) (fs : ext2_fs) (cwd : List UInt8) : Prop where
  head : ∃ rest, cwd = slash :: rest
  no_nul : 0 ∉ cwd
  dir : LeadsToDir disk fs (parts cwd)

/-- What is left of a directory's path when a part is cut off is one too. -/
theorem CwdOk.cut (h : CwdOk disk fs (pre ++ slash :: last)) (hlast : slash ∉ last) :
    LeadsToDir disk fs (parts pre) := by
  have hdir := h.dir
  rw [parts_append, parts_of_notMem hlast] at hdir
  split_ifs at hdir
  · rwa [List.append_nil] at hdir
  · exact hdir.of_snoc

theorem CwdOk.chdir (h : CwdOk disk fs cwd) (h0 : 0 ∉ p)
    (hdir : LeadsToDir disk fs (parts (get_path cwd p))) : CwdOk disk fs (sys_chdir cwd p) := by
  obtain ⟨rest, hrest⟩ := h.head
  by_cases hp : p = dotdot
  · obtain ⟨pre, last, rfl, hlast⟩ :=
      exists_last_slash (show slash ∈ cwd by rw [hrest]; exact List.mem_cons_self)
    rw [hp]
    refine ⟨?_, ?_, by rw [parts_dotdot hlast]; exact h.cut hlast⟩
    all_goals rw [sys_chdir_dotdot hlast]
    · cases pre with
      | nil => exact ⟨[], rfl⟩
      | cons c pre => exact ⟨pre, congrArg (· :: pre) (List.cons.inj hrest).1⟩
    · split_ifs
      · decide
      · exact fun hm => h.no_nul (List.mem_append_left _ hm)
  · -- the new string is the one that names the directory
    have heq : sys_chdir cwd p = get_path cwd p := by
      rw [sys_chdir, if_neg fun hc => hp ((strcmp_dotdot h0).mp hc), get_path]
      by_cases hc : p.headD 0 = slash
      · rw [if_pos hc, if_neg (not_not.mpr hc)]
      · rw [if_neg hc, if_pos hc]
    rw [heq]
    refine ⟨?_, ?_, hdir⟩
    all_goals rw [get_path]
    · by_cases hc : p.headD 0 = slash
      · rw [if_neg (not_not.mpr hc)]
        cases p with
        | nil => exact absurd hc (by decide)
        | cons c p => exact ⟨p, congrArg (· :: p) hc⟩
      · rw [if_pos hc, hrest]
        split_ifs <;> exact ⟨_, rfl⟩
    · have hnul := h.no_nul
      split_ifs
      · simp only [List.mem_append, List.mem_singleton, hnul, h0, or_false, false_or]
        decide
      · simp only [List.mem_append, hnul, h0, or_self, not_false_eq_true]
      · exact h0

/-- **Every `cwd`** names a directory. -/
theorem Cwd.ok (links : WellLinked disk fs) (h : Cwd disk fs cwd) : CwdOk disk fs cwd := by
  induction h with
  | root =>
    obtain ⟨dir, hroot⟩ := links.root
    exact ⟨⟨[], rfl⟩, by decide, dir, follow_nil.trans hroot.load, hroot.isDir⟩
  | bin hbin => exact ⟨⟨_, rfl⟩, by decide, hbin⟩
  | chdir hcwd h0 hdir hpath hnewpath ih => exact ih.chdir h0 hdir

/-! ## What `sys_openat` does -/

theorem sys_openat_eq (wf : WellFormed d.disk fs) (hd : Working d) (f : Files ext2_inode)
    (dirfd : ℤ) (flags : ℕ) (h0 : 0 ∉ get_path cwd q) (hlen : (get_path cwd q).length < 256) :
    sys_openat d fs f cwd dirfd q flags
      = f.openat dirfd (follow d.disk fs (parts (get_path cwd q))).toOption flags := by
  have hnames : ∀ n ∈ parts (get_path cwd q), n.length ≤ EXT2_NAME_LEN := by
    intro n hn
    have := part_length_le hn
    exact Nat.le_of_lt_succ (this.trans_lt hlen)
  rw [sys_openat, run_lookup wf hd h0 hnames, resolution_eq_follow]
  cases follow d.disk fs (parts (get_path cwd q)) <;> rfl

/-- A process without files. -/
def no_files : Files ext2_inode := ⟨fun _ => ext2_file.zero, fun _ => ⟨0, 0⟩⟩

/-- What `openat` does shows which inode was found. -/
theorem openat_inj {a b : Option ext2_inode}
    (h : no_files.openat 0 a 0 = no_files.openat 0 b 0) : a = b := by
  have hfile : ∀ inode, ∃ f : Files ext2_inode,
      no_files.openat 0 (some inode) 0 = some (0, f) ∧ (f.fds 0).f_inode = some inode := by
    intro inode
    refine ⟨_, rfl, ?_⟩
    simp [no_files]
  cases a with
  | none =>
    cases b with
    | none => rfl
    | some b =>
      obtain ⟨f, hf, -⟩ := hfile b
      rw [hf] at h
      cases h
  | some a =>
    obtain ⟨f, hf, hinode⟩ := hfile a
    cases b with
    | none =>
      rw [hf] at h
      cases h
    | some b =>
      obtain ⟨f', hf', hinode'⟩ := hfile b
      rw [hf, hf'] at h
      obtain rfl : f = f' := congrArg Prod.snd (Option.some.inj h)
      exact hinode.symm.trans hinode'

theorem notMem_get_path (hcwd : 0 ∉ cwd) (hq : 0 ∉ q) : 0 ∉ get_path cwd q := by
  rw [get_path]
  split_ifs
  · simp only [List.mem_append, List.mem_singleton, hcwd, hq, or_false, false_or]
    decide
  · simp only [List.mem_append, hcwd, hq, or_self, not_false_eq_true]
  · exact hq

/-- The calls agree on every `q` when they agree on the directory that `q` starts from; the
empty `q` shows which one it is. -/
theorem same_iff (wf : WellFormed d.disk fs) (hd : Working d) (hcwd : 0 ∉ cwd) (hp : 0 ∉ p)
    (hnew : 0 ∉ sys_chdir cwd p) (hfits : Fits cwd p []) :
    (∀ q, Relative q → Fits cwd p q → Same d fs cwd p q)
      ↔ (follow d.disk fs (parts (sys_chdir cwd p))).toOption
        = (follow d.disk fs (target cwd p)).toOption := by
  have hafter : ∀ q f dirfd flags, Relative q → Fits cwd p q →
      sys_openat d fs f (sys_chdir cwd p) dirfd q flags = f.openat dirfd
        (follow d.disk fs (parts (sys_chdir cwd p) ++ parts q)).toOption flags := by
    intro q f dirfd flags hq hfit
    rw [sys_openat_eq wf hd f dirfd flags (notMem_get_path hnew hq.no_nul) hfit.after,
      parts_get_path hnew hq.no_slash]
  have hbefore : ∀ q f dirfd flags, Relative q → Fits cwd p q →
      sys_openat d fs f cwd dirfd (p ++ slash :: q) flags = f.openat dirfd
        (follow d.disk fs (target cwd p ++ parts q)).toOption flags := by
    intro q f dirfd flags hq hfit
    have h0 : 0 ∉ p ++ slash :: q := by
      simp only [List.mem_append, List.mem_cons, hp, hq.no_nul, or_false, false_or]
      decide
    rw [sys_openat_eq wf hd f dirfd flags (notMem_get_path hcwd h0) hfit.before,
      parts_before hcwd]
  constructor
  · intro hsame
    have hnil : Relative [] := ⟨List.not_mem_nil, by decide⟩
    have hone := hsame [] hnil hfits no_files 0 0
    rw [hafter [] _ _ _ hnil hfits, hbefore [] _ _ _ hnil hfits, parts_nil, List.append_nil,
      List.append_nil] at hone
    exact openat_inj hone
  · intro hdir q hq hfit f dirfd flags
    rw [hafter q f dirfd flags hq hfit, hbefore q f dirfd flags hq hfit, follow_append,
      follow_append, toOption_bind _ hdir]

/-! ## When the directory is the right one -/

theorem toOption_inj {α ε : Type} {a : α} {x : Except ε α} :
    (Except.ok a : Except ε α).toOption = x.toOption ↔ x = .ok a :=
  eq_comm.trans toOption_eq_some

theorem parts_slash_of (hlast : slash ∉ last) :
    parts (pre ++ slash :: last) = parts pre ++ if last = [] then [] else [last] := by
  rw [parts_append, parts_of_notMem hlast]

/-- Of a directory and its own `..`. -/
theorem up_self_iff (links : WellLinked disk fs) {names : List (List UInt8)} {n : ℕ}
    {dir : ext2_inode} (h : follow disk fs names = .ok dir) (hat : DirAt disk fs n dir) :
    child disk fs dir dotdot = .ok dir
      ↔ follow disk fs names = load_inode disk fs EXT2_ROOT_INO := by
  obtain ⟨root, hroot⟩ := links.root
  rw [h, hroot.load, Except.ok.injEq]
  constructor
  · intro hup
    obtain rfl := root_of_up_self links hat hup
    exact Except.ok.inj (hat.load.symm.trans hroot.load)
  · rintro rfl
    exact up_of_root links hroot

/-- **A ".."** cuts off the last part of `cwd`: this is the parent for a name, and otherwise
only at the root. -/
theorem dotdot_iff (links : WellLinked disk fs) (hcwd : CwdOk disk fs (pre ++ slash :: last))
    (hlast : slash ∉ last) :
    follow disk fs (parts (pre ++ slash :: last) ++ [dotdot]) = follow disk fs (parts pre) ↔
      (last = [] ∨ last = dot →
        resolution disk fs (pre ++ slash :: last) = load_inode disk fs EXT2_ROOT_INO) ∧
      (last = dotdot → resolution disk fs pre = load_inode disk fs EXT2_ROOT_INO) := by
  obtain ⟨dir, hpre, hdir⟩ := hcwd.cut hlast
  obtain ⟨n, hat⟩ := follow_dirAt hpre hdir
  obtain ⟨sub, hsub, hsubdir⟩ := hcwd.dir
  rw [follow_snoc hsub, resolution_eq_follow, resolution_eq_follow]
  by_cases hempty : last = []
  · -- the same directory, which is cut instead of its parent
    have hparts : parts (pre ++ slash :: last) = parts pre := by
      rw [parts_slash_of hlast, if_pos hempty, List.append_nil]
    rw [hparts] at hsub ⊢
    obtain rfl := Except.ok.inj (hsub.symm.trans hpre)
    rw [hpre, up_self_iff links hpre hat, hpre, hempty]
    simp [dot, dotdot]
  have hparts : parts (pre ++ slash :: last) = parts pre ++ [last] := by
    rw [parts_slash_of hlast, if_neg hempty]
  rw [hparts, follow_snoc hpre] at hsub
  rw [hparts, hpre, follow_snoc hpre, hsub]
  by_cases hdot : last = dot
  · rw [hdot, child_dot links hat] at hsub
    obtain rfl := Except.ok.inj hsub
    rw [up_self_iff links hpre hat, hpre, hdot]
    simp [dot, dotdot]
  by_cases hdotdot : last = dotdot
  · -- the parent, and the parent's parent
    rw [hdotdot] at hsub ⊢
    obtain ⟨root, hroot⟩ := links.root
    simp only [show ¬(dotdot = [] ∨ dotdot = dot) by decide, false_implies, true_and,
      true_implies, hroot.load]
    constructor
    · intro hup
      obtain rfl := root_of_up_up links hat hsubdir hsub hup
      rw [← hat.load, hroot.load]
    · intro hr
      obtain rfl := Except.ok.inj hr
      rw [up_of_root links hroot] at hsub
      obtain rfl := Except.ok.inj hsub
      exact up_of_root links hroot
  · rw [up_of_child links hat hsub hsubdir hdot hdotdot]
    simp [hempty, hdot, hdotdot]

/-- **The two directories.** -/
theorem sound_iff (links : WellLinked disk fs) (hcwd : CwdOk disk fs cwd) (hp : 0 ∉ p) :
    (follow disk fs (parts (sys_chdir cwd p))).toOption
        = (follow disk fs (target cwd p)).toOption ↔ Sound disk fs cwd p := by
  by_cases hempty : p = []
  · obtain ⟨dir, hdir, -⟩ := hcwd.dir
    have hchdir : parts (sys_chdir cwd []) = parts cwd := by
      rw [parts_chdir hcwd.no_nul List.not_mem_nil (by decide), if_neg (by decide), parts_nil,
        List.append_nil]
    rw [hempty, hchdir, target, if_pos rfl, hdir, toOption_inj, follow_nil, Sound,
      resolution_eq_follow, hdir]
    constructor
    · intro hroot
      exact ⟨fun _ => hroot.symm, fun h => absurd h (by decide)⟩
    · intro hall
      exact (hall.1 rfl).symm
  by_cases hdotdot : p = dotdot
  · obtain ⟨rest, hrest⟩ := hcwd.head
    obtain ⟨pre, last, rfl, hlast⟩ :=
      exists_last_slash (show slash ∈ cwd by rw [hrest]; exact List.mem_cons_self)
    obtain ⟨dir, hdir, -⟩ := hcwd.cut hlast
    have htarget : target (pre ++ slash :: last) dotdot
        = parts (pre ++ slash :: last) ++ [dotdot] := by
      rw [target, if_neg (by decide), if_neg (by decide), parts_of_notMem (p := dotdot) (by decide),
        if_neg (by decide)]
    rw [hdotdot, parts_dotdot hlast, htarget, hdir, toOption_inj, ← hdir,
      dotdot_iff links hcwd hlast, Sound]
    constructor
    · rintro hall
      refine ⟨fun h => absurd h (by decide), fun _ pre' last' heq hlast' => ?_⟩
      obtain ⟨rfl, rfl⟩ := last_slash_unique hlast hlast' heq
      exact hall
    · rintro ⟨-, hall⟩
      exact hall rfl pre last rfl hlast
  · rw [parts_chdir hcwd.no_nul hp hdotdot, target, if_neg hempty]
    exact iff_of_true rfl ⟨fun h => absurd h hempty, fun h => absurd h hdotdot⟩

/-- **When `sys_chdir` and `sys_openat` agree with the path as a whole**: for every relative
path that fits exactly when `p` is sound for `cwd`. That the empty path fits is that any does. -/
theorem chdir_openat_iff (wf : WellFormed d.disk fs) (links : WellLinked d.disk fs)
    (hd : Working d) (hcwd : Cwd d.disk fs cwd) (hp : 0 ∉ p)
    (hdir : LeadsToDir d.disk fs (parts (get_path cwd p))) (hfits : Fits cwd p []) :
    (∀ q, Relative q → Fits cwd p q → Same d fs cwd p q) ↔ Sound d.disk fs cwd p := by
  have hok := hcwd.ok links
  have hnew : 0 ∉ sys_chdir cwd p := (hok.chdir hp hdir).no_nul
  rw [same_iff wf hd hok.no_nul hp hnew hfits, sound_iff links hok hp]

/-! ## A disk with one directory -/

/-- The disk `small` with the entries `.`, `..` and `a` in the root. The directory `a` is the
inode 3 and has the block 7. -/
def one_dir : Mem := fun x =>
  if x = 6144 + 4 then 12
  else if x = 6144 + 5 then 0
  else if x = 6144 + 12 then 2
  else if x = 6144 + 16 then 12
  else if x = 6144 + 18 then 2
  else if x = 6144 + 20 then 46
  else if x = 6144 + 21 then 46
  else if x = 6144 + 24 then 3
  else if x = 6144 + 28 then 0xE8
  else if x = 6144 + 29 then 0x03
  else if x = 6144 + 30 then 1
  else if x = 6144 + 32 then 97
  else if x = 5120 + 256 then 0xED
  else if x = 5120 + 257 then 0x41
  else if x = 5120 + 256 + 40 then 7
  else if x = 7168 then 3
  else if x = 7168 + 4 then 12
  else if x = 7168 + 6 then 1
  else if x = 7168 + 8 then 46
  else if x = 7168 + 12 then 2
  else if x = 7168 + 16 then 0xF4
  else if x = 7168 + 17 then 0x03
  else if x = 7168 + 18 then 2
  else if x = 7168 + 20 then 46
  else if x = 7168 + 21 then 46
  else small x

def one_fs : ext2_fs := ⟨ext2_superblock.ofBytes (block one_dir 1), 1024⟩

def one_root : ext2_inode := ext2_inode.ofBytes one_dir (5120 + 128)

def one_a : ext2_inode := ext2_inode.ofBytes one_dir (5120 + 256)

theorem one_load_root : load_inode one_dir one_fs 2 = .ok one_root := rfl

theorem one_load_a : load_inode one_dir one_fs 3 = .ok one_a := rfl

theorem one_root_entries :
    dir_entries one_dir one_root = [(2, dot), (2, dotdot), (3, [97])] := by
  have hblocks : dir_blocks one_root = [6] := by decide +kernel
  rw [dir_entries, hblocks, List.flatMap_singleton, entries, dif_pos (by decide +kernel),
    entries, dif_pos (by decide +kernel), entries, dif_pos (by decide +kernel), entries,
    dif_neg (by decide +kernel)]
  decide +kernel

theorem one_a_entries : dir_entries one_dir one_a = [(3, dot), (2, dotdot)] := by
  have hblocks : dir_blocks one_a = [7] := by decide +kernel
  rw [dir_entries, hblocks, List.flatMap_singleton, entries, dif_pos (by decide +kernel),
    entries, dif_pos (by decide +kernel), entries, dif_neg (by decide +kernel)]
  decide +kernel

/-- The two inodes of the disk. -/
theorem one_reachable {n : ℕ} (hn : Reachable one_dir one_fs n) : n = 2 ∨ n = 3 := by
  induction hn with
  | root => exact Or.inl rfl
  | entry hn hload hdir he huse ih =>
    rcases ih with rfl | rfl
    · obtain rfl := Except.ok.inj (one_load_root.symm.trans hload)
      rw [one_root_entries] at he
      simp only [List.mem_cons, List.not_mem_nil, or_false] at he
      rcases he with rfl | rfl | rfl <;> decide
    · obtain rfl := Except.ok.inj (one_load_a.symm.trans hload)
      rw [one_a_entries] at he
      simp only [List.mem_cons, List.not_mem_nil, or_false] at he
      rcases he with rfl | rfl <;> decide

/-- What holds of both holds of every inode. -/
theorem one_cases {P : ℕ → ext2_inode → Prop} (hroot : P 2 one_root) (ha : P 3 one_a) :
    ∀ n inode, Reachable one_dir one_fs n → load_inode one_dir one_fs n = .ok inode →
      P n inode := by
  intro n inode hn hload
  rcases one_reachable hn with rfl | rfl
  · rwa [← Except.ok.inj (one_load_root.symm.trans hload)]
  · rwa [← Except.ok.inj (one_load_a.symm.trans hload)]

theorem one_wellFormed : WellFormed one_dir one_fs where
  superblock := rfl
  magic := by decide +kernel
  log_block_size := by decide +kernel
  block_size := rfl
  blocks_count := by decide +kernel
  inode_size_le := by decide +kernel
  inode_size_dvd := by decide +kernel
  per_group_pos := by decide +kernel
  per_group_le := by decide +kernel
  descriptors := by
    intro n hn hle
    have hcount : one_fs.sb.s_inodes_count = 8 := by decide +kernel
    have hgroup : one_fs.sb.s_inodes_per_group = 8 := by decide +kernel
    have hfirst : one_fs.sb.s_first_data_block = 1 := by decide +kernel
    have hblocks : one_fs.sb.s_blocks_count = 16 := by decide +kernel
    rw [hgroup, hfirst, hblocks]
    omega
  tables := by
    intro n hn hle
    have hcount : one_fs.sb.s_inodes_count = 8 := by decide +kernel
    have hgroup : one_fs.sb.s_inodes_per_group = 8 := by decide +kernel
    have hblocks : one_fs.sb.s_blocks_count = 16 := by decide +kernel
    have hsize : one_fs.sb.s_inode_size = 128 := by decide +kernel
    have htable : inode_table one_dir one_fs 0 = 5 := by decide +kernel
    rw [inode_offset, hgroup, hblocks, hsize, show (n - 1) / 8 = 0 by omega, htable]
    omega
  types := one_cases (by decide +kernel) (by decide +kernel)
  directories := by
    refine one_cases (fun _ => ⟨?_, by decide +kernel, ?_⟩) (fun _ => ⟨?_, by decide +kernel, ?_⟩)
    · decide +kernel
    · rw [show dir_blocks one_root = [6] by decide +kernel]
      intro b hb
      rw [List.mem_singleton.mp hb]
      refine .entry (by decide +kernel) (by decide +kernel) (fun _ => by decide +kernel) ?_
      refine .entry (by decide +kernel) (by decide +kernel) (fun _ => by decide +kernel) ?_
      refine .entry (by decide +kernel) (by decide +kernel) (fun _ => by decide +kernel) ?_
      exact .last
    · decide +kernel
    · rw [show dir_blocks one_a = [7] by decide +kernel]
      intro b hb
      rw [List.mem_singleton.mp hb]
      refine .entry (by decide +kernel) (by decide +kernel) (fun _ => by decide +kernel) ?_
      refine .entry (by decide +kernel) (by decide +kernel) (fun _ => by decide +kernel) ?_
      exact .last

theorem one_root_at : DirAt one_dir one_fs 2 one_root :=
  ⟨.root, one_load_root, by decide +kernel⟩

theorem one_a_at : DirAt one_dir one_fs 3 one_a := by
  refine ⟨?_, one_load_a, by decide +kernel⟩
  refine .entry (e := (3, [97])) .root one_load_root one_root_at.isDir ?_ (by decide)
  rw [one_root_entries]
  decide

theorem one_wellLinked : WellLinked one_dir one_fs where
  root := ⟨one_root, one_root_at⟩
  unique := by
    intro n dir h
    refine one_cases (P := fun n dir => ∀ e ∈ dir_entries one_dir dir,
      ∀ e' ∈ dir_entries one_dir dir, e.1 ≠ 0 → e'.1 ≠ 0 → e.2 = e'.2 → e.1 = e'.1)
      ?_ ?_ n dir h.reachable h.load
    · rw [one_root_entries]
      decide
    · rw [one_a_entries]
      decide
  self := by
    intro n dir h
    refine one_cases (P := fun n dir => (n, dot) ∈ dir_entries one_dir dir) ?_ ?_ n dir
      h.reachable h.load
    · rw [one_root_entries]
      decide
    · rw [one_a_entries]
      decide
  root_up := by
    intro dir h
    rw [← Except.ok.inj (one_load_root.symm.trans h.load), one_root_entries]
    decide
  up := by
    intro n dir e sub h he hdot hdotdot hsub
    refine one_cases (P := fun n dir => e ∈ dir_entries one_dir dir →
      (n, dotdot) ∈ dir_entries one_dir sub) ?_ ?_ n dir h.reachable h.load he
    · -- the one name in the root is that of `a`
      rw [one_root_entries]
      intro he
      simp only [List.mem_cons, List.not_mem_nil, or_false] at he
      rcases he with rfl | rfl | rfl
      · exact absurd rfl hdot
      · exact absurd rfl hdotdot
      · rw [← Except.ok.inj (one_load_a.symm.trans hsub.load), one_a_entries]
        decide
    · rw [one_a_entries]
      intro he
      simp only [List.mem_cons, List.not_mem_nil, or_false] at he
      rcases he with rfl | rfl
      · exact absurd rfl hdot
      · exact absurd rfl hdotdot

/-- The disk as the driver has it. -/
def one_dev : Dev := ⟨one_dir, fun _ => 0, fun _ => .done, fun _ _ => 0, 0⟩

theorem one_follow_a : follow one_dir one_fs [[97]] = .ok one_a := by
  have hroot : follow one_dir one_fs [] = .ok one_root := follow_nil.trans one_load_root
  have hentry : (3, [97]) ∈ dir_entries one_dir one_root := by
    rw [one_root_entries]
    decide
  have hchild := child_of_entry one_wellLinked one_root_at hentry (by decide)
  exact (follow_snoc hroot).trans (hchild.trans one_load_a)

theorem one_leads_a : LeadsToDir one_dir one_fs [[97]] := ⟨one_a, one_follow_a, one_a_at.isDir⟩

theorem one_up : follow one_dir one_fs [[97], dotdot] = .ok one_root := by
  have hentry : (2, dotdot) ∈ dir_entries one_dir one_a := by
    rw [one_a_entries]
    decide
  have hchild := child_of_entry one_wellLinked one_a_at hentry (by decide)
  exact (follow_snoc one_follow_a).trans (hchild.trans one_load_root)

theorem leadsToDir_of_parts {names : List (List UInt8)} (h : LeadsToDir disk fs names)
    (hparts : parts p = names) : LeadsToDir disk fs (parts p) := hparts ▸ h

theorem one_fits {cwd p : List UInt8} (h : p.length < 256 ∧ (sys_chdir cwd p).length < 256 ∧
    (get_path (sys_chdir cwd p) []).length < 256 ∧ (get_path cwd (p ++ [slash])).length < 256) :
    Fits cwd p [] := ⟨h.1, h.2.1, h.2.2.1, h.2.2.2⟩

/-- `chdir("a")` in the root is sound. -/
theorem chdir_openat_one : Sound one_dir one_fs [slash] [97] ∧
    ∀ q, Relative q → Fits [slash] [97] q → Same one_dev one_fs [slash] [97] q := by
  have hsound : Sound one_dir one_fs [slash] [97] :=
    ⟨fun h => absurd h (by decide), fun h => absurd h (by decide)⟩
  exact ⟨hsound, (chdir_openat_iff (d := one_dev) one_wellFormed one_wellLinked (fun _ => rfl)
    .root (by decide) (leadsToDir_of_parts one_leads_a (by decide +kernel))
    (one_fits (by decide +kernel))).mpr hsound⟩

/-- Behind `chdir("/a/")` the path ".." is the root, but `chdir("..")` stays in "/a". -/
theorem chdir_dotdot_behind_slash :
    let cwd := [slash, 97, slash]
    Cwd one_dir one_fs cwd ∧ LeadsToDir one_dir one_fs (parts (get_path cwd dotdot))
      ∧ Relative [] ∧ Fits cwd dotdot [] ∧ sys_chdir cwd dotdot = [slash, 97]
      ∧ ¬ Same one_dev one_fs cwd dotdot [] := by
  have hcwd : Cwd one_dir one_fs (sys_chdir [slash] [slash, 97, slash]) :=
    .chdir .root (by decide) (leadsToDir_of_parts one_leads_a (by decide +kernel)) (by decide)
      (by decide +kernel)
  rw [show sys_chdir [slash] [slash, 97, slash] = [slash, 97, slash] by decide +kernel] at hcwd
  refine ⟨hcwd, leadsToDir_of_parts ⟨one_root, one_up, one_root_at.isDir⟩ (by decide +kernel),
    ⟨by decide, by decide⟩, one_fits (by decide +kernel), by decide +kernel, fun hsame => ?_⟩
  have hafter : sys_openat one_dev one_fs no_files (sys_chdir [slash, 97, slash] dotdot) 0 [] 0
      = no_files.openat 0 (some one_a) 0 := by
    rw [sys_openat_eq one_wellFormed (fun _ => rfl) no_files 0 0 (by decide +kernel)
      (by decide +kernel), show parts (get_path (sys_chdir [slash, 97, slash] dotdot) []) = [[97]]
      by decide +kernel, show follow one_dev.disk one_fs [[97]] = _ from one_follow_a]
    rfl
  have hbefore : sys_openat one_dev one_fs no_files [slash, 97, slash] 0 (dotdot ++ [slash]) 0
      = no_files.openat 0 (some one_root) 0 := by
    rw [sys_openat_eq one_wellFormed (fun _ => rfl) no_files 0 0 (by decide +kernel)
      (by decide +kernel), show parts (get_path [slash, 97, slash] (dotdot ++ [slash]))
      = [[97], dotdot] by decide +kernel,
      show follow one_dev.disk one_fs [[97], dotdot] = _ from one_up]
    rfl
  have hone : some one_a = some one_root :=
    openat_inj (hafter.symm.trans ((hsame no_files 0 0).trans hbefore))
  have hblock : one_a.i_block 0 = one_root.i_block 0 :=
    congrArg (fun inode => inode.i_block 0) (Option.some.inj hone)
  exact absurd hblock (by decide +kernel)

end Loos.Chdir
