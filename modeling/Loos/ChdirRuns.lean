/-
`cwd` over sequences of `sys_chdir` calls.

`sys_chdir` does not look at the disk and always returns 0. So `cwd` names a directory after a
call if the path that was passed names one. A ".." is cut off `cwd` itself, and what is left of
the path of a directory is the path of a directory. With any other path `cwd` is a name without
a directory, and the caller is not told ([`chdir_runs_iff`]).

A path names a directory when all of its components are directories, from the root on.
-/
import Loos.LookupTypes
import Loos.PathParts
import Loos.StringBuffers
import Mathlib.Data.List.Infix

set_option autoImplicit false

namespace Loos.ChdirRuns

open SysLib Ahci Ext2 PathLookup DirTree LookupTypes StringBuffers
open Chdir (get_path cut_last)

/-- A string as it is passed to a call. -/
structure CString where
  chars : List UInt8
  no_nul : 0 ∉ chars

/-- The path names a directory. -/
def NamesDir (d : Dev) (fs : ext2_fs) (path : List UInt8) : Prop :=
  ∀ names, names <+: components path →
    ∃ inode, (Prog.run answer d (walk fs names)).1 = .ok inode ∧ file_type inode = EXT2_S_IFDIR

/-- The `cwd` of a process that names a directory. -/
structure Existing (d : Dev) (fs : ext2_fs) (cwd : List UInt8) : Prop where
  no_nul : 0 ∉ cwd
  length_lt : cwd.length < PATH_SIZE
  dir : NamesDir d fs cwd

/-- `sys_chdir` returns 0 and goes to a directory if the path, from `cwd` on, names one; if not
it returns an error and stays. -/
structure Right (d : Dev) (fs : ext2_fs) (cwd : List UInt8) (path : CString) : Prop where
  goes : NamesDir d fs (get_path cwd path.chars) →
    ∃ cwd', sys_chdir cwd path.chars = some (0, cwd') ∧ NamesDir d fs cwd'
  stays : ¬ NamesDir d fs (get_path cwd path.chars) →
    ∃ ret, ret ≠ 0 ∧ sys_chdir cwd path.chars = some (ret, cwd)

/-- The strings of the call fit, and the path names a directory. -/
def ToDir (d : Dev) (fs : ext2_fs) (cwd : List UInt8) (path : CString) : Prop :=
  ChdirFits cwd path.chars ∧ NamesDir d fs (get_path cwd path.chars)

/-- `cwd` after a call. -/
def step (cwd : List UInt8) (path : CString) : Option (List UInt8) :=
  (sys_chdir cwd path.chars).map Prod.snd

variable {d : Dev} {fs : ext2_fs} {cwd p q : List UInt8} {path : CString}

/-! ## Paths of directories -/

/-- The lookup of such a path finds the directory. -/
theorem NamesDir.lookup (h : NamesDir d fs p) : ∃ inode,
    (Prog.run answer d (ext2_path_lookup fs p)).1 = .ok inode ∧
      file_type inode = EXT2_S_IFDIR := by
  rw [ext2_path_lookup_eq]
  exact h _ (List.prefix_refl _)

/-- What is left of the path of a directory is one too. -/
theorem NamesDir.of_prefix (h : NamesDir d fs p) (hpre : components q <+: components p) :
    NamesDir d fs q := fun names hnames => h names (hnames.trans hpre)

/-- In a path that fits an array no part is cut. -/
theorem components_short (h0 : 0 ∉ p) (hlen : p.length < PATH_SIZE) : components p = parts p :=
  components_eq h0 fun _ hn => Nat.le_of_lt_succ (Nat.lt_of_le_of_lt (part_length_le hn) hlen)

/-- The loop of `sys_chdir` in a path without a slash. -/
theorem cut_last_of_notMem (h : slash ∉ p) (i : ℕ) : cut_last p i = [slash] := by
  induction i with
  | zero => rfl
  | succ i ih =>
    have hbyte : p.getD (i + 1) 0 ≠ slash := by
      intro hbyte
      rcases Nat.lt_or_ge (i + 1) p.length with hlt | hge
      · rw [List.getD_eq_getElem _ _ hlt] at hbyte
        exact h (hbyte ▸ List.getElem_mem hlt)
      · rw [List.getD_eq_default _ _ hge] at hbyte
        exact absurd hbyte (by decide)
    rw [cut_last, if_neg hbyte, ih]

/-- **Cutting the last part off** leaves the path of a directory. -/
theorem Existing.cut (h : Existing d fs cwd) : Existing d fs (cut_last cwd cwd.length) := by
  have hlen : (cut_last cwd cwd.length).length < PATH_SIZE := by
    have := length_cut_last cwd cwd.length
    have := h.length_lt
    simp only [PATH_SIZE] at this ⊢
    omega
  -- a path without a slash is cut down to the root
  by_cases hslash : slash ∈ cwd
  · obtain ⟨pre, last, rfl, hlast⟩ := Chdir.exists_last_slash hslash
    have hcut : cut_last (pre ++ slash :: last) (pre ++ slash :: last).length =
        if pre = [] then [slash] else pre :=
      Chdir.cut_last_eq hlast (by rw [List.length_append]; omega)
    have h0 : 0 ∉ cut_last (pre ++ slash :: last) (pre ++ slash :: last).length := by
      rw [hcut]
      split_ifs
      · decide
      · exact fun hm => h.no_nul (List.mem_append_left _ hm)
    refine ⟨h0, hlen, h.dir.of_prefix ?_⟩
    rw [components_short h0 hlen, components_short h.no_nul h.length_lt, parts_append, hcut]
    split_ifs with hpre
    · rw [hpre, parts_slash]
      exact List.prefix_append _ _
    · exact List.prefix_append _ _
  · rw [cut_last_of_notMem hslash]
    refine ⟨by decide, by decide, h.dir.of_prefix ?_⟩
    have hroot : components [slash] = [] := by
      rw [components_short (by decide) (by decide), parts_slash]
      rfl
    rw [hroot]
    exact List.nil_prefix

/-! ## One call -/

/-- A call that leads to a directory. -/
theorem sys_chdir_toDir (hcwd : Existing d fs cwd) (h : ToDir d fs cwd path) :
    ∃ cwd', sys_chdir cwd path.chars = some (0, cwd') ∧ Existing d fs cwd' := by
  obtain ⟨hfits, hdir⟩ := h
  obtain ⟨hcall, hlen⟩ := sys_chdir_of_fits hcwd.length_lt hfits
  refine ⟨_, hcall, ?_⟩
  by_cases hup : Cstring.strcmp path.chars dotdot = 0
  · have hcut : Chdir.sys_chdir cwd path.chars = cut_last cwd cwd.length := by
      rw [Chdir.sys_chdir, if_pos hup]
    rw [hcut]
    exact hcwd.cut
  · -- the new string is the path that was looked at
    rw [chdir_eq_get_path hup] at hlen ⊢
    exact ⟨Chdir.notMem_get_path hcwd.no_nul path.no_nul, hlen, hdir⟩

/-- **A call does the right thing exactly when it leads to a directory.** -/
theorem right_iff (hcwd : Existing d fs cwd) :
    Right d fs cwd path ↔ ToDir d fs cwd path := by
  constructor
  · intro h
    -- the returned value is 0, if the strings fit
    have hret : ∀ ret cwd', sys_chdir cwd path.chars = some (ret, cwd') →
        ChdirFits cwd path.chars ∧ ret = 0 := by
      intro ret cwd' hcall
      obtain ⟨hfits, heq⟩ := (sys_chdir_eq_some hcwd.length_lt).mp hcall
      exact ⟨hfits, (Prod.mk.inj heq).1.symm⟩
    by_cases hdir : NamesDir d fs (get_path cwd path.chars)
    · obtain ⟨cwd', hcall, -⟩ := h.goes hdir
      exact ⟨(hret 0 cwd' hcall).1, hdir⟩
    · -- the call should return an error, and never does
      obtain ⟨ret, hne, hcall⟩ := h.stays hdir
      exact absurd (hret ret cwd hcall).2 hne
  · intro h
    refine ⟨fun _ => ?_, fun hn => absurd h.2 hn⟩
    obtain ⟨cwd', hcall, hcwd'⟩ := sys_chdir_toDir hcwd h
    exact ⟨cwd', hcall, hcwd'.dir⟩

theorem existing_step {cwd' : List UInt8} (hcwd : Existing d fs cwd) (h : ToDir d fs cwd path)
    (hstep : step cwd path = some cwd') : Existing d fs cwd' := by
  obtain ⟨cwd₁, hcall, hcwd₁⟩ := sys_chdir_toDir hcwd h
  rw [step, hcall, Option.map_some] at hstep
  exact Option.some.inj hstep ▸ hcwd₁

/-! ## Runs -/

/-- After every call of the sequence `cwd` names a directory. -/
def AlwaysDir (d : Dev) (fs : ext2_fs) (cwd : List UInt8) (paths : List CString) : Prop :=
  ∀ before after cwd', paths = before ++ after → run step cwd before = some cwd' →
    NamesDir d fs cwd'

theorem alwaysDir (hcwd : Existing d fs cwd) {paths : List CString}
    (h : Meets step (ToDir d fs) cwd paths) : AlwaysDir d fs cwd paths := by
  rintro before after cwd' rfl hrun
  exact (run_invariant (ToDir d fs) (Existing d fs)
    (fun _ _ _ hs hok hstep => existing_step hs hok hstep) hcwd h.of_append hrun).dir

/-- **The calls of a sequence do the right thing, and `cwd` always names a directory, exactly
when every call leads to a directory.** -/
theorem chdir_runs_iff (d : Dev) (fs : ext2_fs) (hcwd : Existing d fs cwd)
    (paths : List CString) :
    Meets step (Right d fs) cwd paths ∧ AlwaysDir d fs cwd paths ↔
      Meets step (ToDir d fs) cwd paths := by
  have hiff : Meets step (Right d fs) cwd paths ↔ Meets step (ToDir d fs) cwd paths :=
    meets_congr (Existing d fs) (fun _ _ _ hs hok hstep => existing_step hs hok hstep)
      (fun _ _ hs => right_iff hs) hcwd
  rw [hiff]
  exact ⟨And.left, fun h => ⟨h, alwaysDir hcwd h⟩⟩

/-! ## Two sequences -/

theorem namesDir_of_inits (h : ∀ names ∈ (components p).inits,
    (Prog.run answer d (walk fs names)).1.toOption.map file_type = some EXT2_S_IFDIR) :
    NamesDir d fs p := by
  intro names hnames
  obtain ⟨inode, hinode, htype⟩ :=
    Option.map_eq_some_iff.mp (h names ((List.mem_inits _ _).mpr hnames))
  exact ⟨inode, toOption_eq_some.mp hinode, htype⟩

theorem one_root_existing : Existing Chdir.one_dev Chdir.one_fs [slash] :=
  ⟨by decide, by decide, namesDir_of_inits (by decide +kernel)⟩

/-- "/a" -/
def path_a : CString := ⟨[slash, 97], by decide⟩

/-- ".." -/
def path_up : CString := ⟨dotdot, by decide⟩

/-- "/b" -/
def path_b : CString := ⟨[slash, 98], by decide⟩

/-- From the root to its directory and back. -/
theorem chdir_runs_one :
    Meets step (Right Chdir.one_dev Chdir.one_fs) [slash] [path_a, path_up] ∧
      AlwaysDir Chdir.one_dev Chdir.one_fs [slash] [path_a, path_up] := by
  have hdown : step [slash] path_a = some [slash, 97] := by decide +kernel
  have hup : step [slash, 97] path_up = some [slash] := by decide +kernel
  refine (chdir_runs_iff _ _ one_root_existing _).mpr (.cons ?_ hdown (.cons ?_ hup trivial))
  · exact ⟨⟨by decide, fun _ => by decide +kernel⟩, namesDir_of_inits (by decide +kernel)⟩
  · exact ⟨⟨by decide, fun h => absurd (by decide +kernel) h⟩,
      namesDir_of_inits (by decide +kernel)⟩

/-- **`chdir` to a path that leads nowhere returns 0**, and `cwd` is that path. -/
theorem chdir_nowhere : Existing Chdir.one_dev Chdir.one_fs [slash] ∧
    step [slash] path_b = some path_b.chars ∧
    ¬ (Meets step (Right Chdir.one_dev Chdir.one_fs) [slash] [path_b] ∧
      AlwaysDir Chdir.one_dev Chdir.one_fs [slash] [path_b]) := by
  have hstep : step [slash] path_b = some path_b.chars := by decide +kernel
  refine ⟨one_root_existing, hstep, fun h => ?_⟩
  obtain ⟨inode, hinode, -⟩ := (h.2 [path_b] [] path_b.chars rfl
    (by rw [run_cons, hstep]; rfl)).lookup
  have hfails : (Prog.run answer Chdir.one_dev
      (ext2_path_lookup Chdir.one_fs path_b.chars)).1.toOption = none := by decide +kernel
  rw [toOption_eq_some.mpr hinode] at hfails
  cases hfails

end Loos.ChdirRuns
