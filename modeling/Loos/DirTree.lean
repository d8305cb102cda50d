/-
Directories as a tree.

On a disk made by `mkfs` a directory has itself under `.` and the directory that it is
in under `..` ([`WellLinked`]); the root is its own parent. So every directory has a depth,
and only the root is the parent of itself or of its parent ([`root_of_up_self`],
[`root_of_up_up`]).

`follow` is the meaning of a path by its parts, so that paths can be taken apart where a
slash is.
-/
import Loos.Resolution

set_option autoImplicit false

namespace Loos.DirTree

open SysLib Ahci Ext2 PathLookup Resolution

/-- "." -/
def dot : List UInt8 := [46]

/-- ".." -/
def dotdot : List UInt8 := [46, 46]

/-- `dir` is the directory with the number `n`, and a path leads to it. -/
structure DirAt (disk : Mem) (fs : ext2_fs) (n : ℕ) (dir : ext2_inode) : Prop where
  reachable : Reachable disk fs n
  load : load_inode disk fs n = .ok dir
  isDir : IsDir dir

/-- In a directory a name leads to one inode. `.` is the directory itself and `..` the one
that it is in. -/
structure WellLinked (disk : Mem) (fs : ext2_fs) : Prop where
  root : ∃ dir, DirAt disk fs EXT2_ROOT_INO dir
  unique : ∀ n dir, DirAt disk fs n dir → ∀ e ∈ dir_entries disk dir, ∀ e' ∈ dir_entries disk dir,
    e.1 ≠ 0 → e'.1 ≠ 0 → e.2 = e'.2 → e.1 = e'.1
  self : ∀ n dir, DirAt disk fs n dir → (n, dot) ∈ dir_entries disk dir
  root_up : ∀ dir, DirAt disk fs EXT2_ROOT_INO dir →
    (EXT2_ROOT_INO, dotdot) ∈ dir_entries disk dir
  up : ∀ n dir e sub, DirAt disk fs n dir → e ∈ dir_entries disk dir → e.2 ≠ dot → e.2 ≠ dotdot →
    DirAt disk fs e.1 sub → (n, dotdot) ∈ dir_entries disk sub

variable {disk : Mem} {fs : ext2_fs} {n m k : ℕ} {dir sub : ext2_inode} {name : List UInt8}

/-! ## Entries -/

theorem DirAt.ne_zero (h : DirAt disk fs n dir) : n ≠ 0 := by
  rintro rfl
  have hload := h.load
  rw [load_inode, if_pos (Or.inl rfl)] at hload
  cases hload

/-- What is found under a name is its only entry. -/
theorem child_of_entry (tree : WellLinked disk fs) (h : DirAt disk fs n dir)
    (he : (m, name) ∈ dir_entries disk dir) (hm : m ≠ 0) :
    child disk fs dir name = load_inode disk fs m := by
  rw [child, if_pos h.isDir, first_named]
  cases hfind : (dir_entries disk dir).find? fun e => Named name e with
  | none =>
    rw [List.find?_eq_none] at hfind
    exact absurd (decide_eq_true (show Named name (m, name) from ⟨hm, rfl⟩)) (hfind _ he)
  | some e =>
    have hnamed : Named name e := by simpa using List.find?_some hfind
    have hsame := tree.unique n dir h e (List.mem_of_find?_eq_some hfind) _ he hnamed.1 hm hnamed.2
    show load_inode disk fs e.1 = _
    rw [hsame]

theorem entry_of_child (h : DirAt disk fs n dir) (hc : child disk fs dir name = .ok sub) :
    ∃ m, (m, name) ∈ dir_entries disk dir ∧ Reachable disk fs m
      ∧ load_inode disk fs m = .ok sub := by
  rw [child, if_pos h.isDir, first_named] at hc
  cases hfind : (dir_entries disk dir).find? fun e => Named name e with
  | none =>
    rw [hfind] at hc
    cases hc
  | some e =>
    rw [hfind] at hc
    have hnamed : Named name e := by simpa using List.find?_some hfind
    have hmem := List.mem_of_find?_eq_some hfind
    exact ⟨e.1, hnamed.2 ▸ hmem, .entry h.reachable h.load h.isDir hmem hnamed.1, hc⟩

theorem child_dot (tree : WellLinked disk fs) (h : DirAt disk fs n dir) :
    child disk fs dir dot = .ok dir := by
  rw [child_of_entry tree h (tree.self n dir h) h.ne_zero, h.load]

/-- An inode is that of one directory only. -/
theorem DirAt.number (tree : WellLinked disk fs) (h : DirAt disk fs n dir)
    (h' : DirAt disk fs m dir) : n = m :=
  tree.unique n dir h _ (tree.self n dir h) _ (tree.self m dir h') h.ne_zero h'.ne_zero rfl

/-- The parent of what is entered under a name other than `.` and `..`. -/
theorem up_of_child (tree : WellLinked disk fs) (h : DirAt disk fs n dir)
    (hc : child disk fs dir name = .ok sub) (hdir : IsDir sub) (hdot : name ≠ dot)
    (hdotdot : name ≠ dotdot) : child disk fs sub dotdot = .ok dir := by
  obtain ⟨m, he, hm, hload⟩ := entry_of_child h hc
  have hsub : DirAt disk fs m sub := ⟨hm, hload, hdir⟩
  rw [child_of_entry tree hsub (tree.up n dir _ sub h he hdot hdotdot hsub) h.ne_zero, h.load]

theorem up_of_root (tree : WellLinked disk fs) (h : DirAt disk fs EXT2_ROOT_INO dir) :
    child disk fs dir dotdot = .ok dir := by
  rw [child_of_entry tree h (tree.root_up dir h) h.ne_zero, h.load]

/-! ## Depth -/

/-- The directory `n` is `k` names below the root. -/
inductive Depth (disk : Mem) (fs : ext2_fs) : ℕ → ℕ → Prop
  | root : Depth disk fs 0 EXT2_ROOT_INO
  | entry {k n : ℕ} {dir sub : ext2_inode} {e : ℕ × List UInt8} (hn : Depth disk fs k n)
      (hdir : DirAt disk fs n dir) (he : e ∈ dir_entries disk dir) (hdot : e.2 ≠ dot)
      (hdotdot : e.2 ≠ dotdot) (hsub : DirAt disk fs e.1 sub) : Depth disk fs (k + 1) e.1

/-- The entry `..` leads one step up. -/
theorem Depth.up (tree : WellLinked disk fs) (h : Depth disk fs (k + 1) n)
    (hdir : DirAt disk fs n dir) :
    ∃ m, Depth disk fs k m ∧ m ≠ 0 ∧ (m, dotdot) ∈ dir_entries disk dir := by
  cases h with
  | @entry k n' dir' sub e hn hdir' he hdot hdotdot hsub =>
    exact ⟨n', hn, hdir'.ne_zero, tree.up n' dir' e dir hdir' he hdot hdotdot hdir⟩

/-- Every directory has a depth: `.` keeps it and `..` takes one off. -/
theorem depth_of_reachable (tree : WellLinked disk fs) (h : Reachable disk fs n) :
    ∀ dir, DirAt disk fs n dir → ∃ k, Depth disk fs k n := by
  induction h with
  | root => exact fun _ _ => ⟨0, .root⟩
  | @entry n dir e hn hload hdir he huse ih =>
    intro sub hsub
    have hat : DirAt disk fs n dir := ⟨hn, hload, hdir⟩
    obtain ⟨k, hk⟩ := ih dir hat
    by_cases hdot : e.2 = dot
    · have : e.1 = n := tree.unique n dir hat e he _ (tree.self n dir hat) huse hat.ne_zero hdot
      rw [this]
      exact ⟨k, hk⟩
    by_cases hdotdot : e.2 = dotdot
    · cases k with
      | zero =>
        cases hk
        have : e.1 = EXT2_ROOT_INO :=
          tree.unique _ dir hat e he _ (tree.root_up dir hat) huse hat.ne_zero hdotdot
        rw [this]
        exact ⟨0, .root⟩
      | succ k =>
        obtain ⟨m, hm, hm0, hup⟩ := hk.up tree hat
        have : e.1 = m := tree.unique n dir hat e he _ hup huse hm0 hdotdot
        rw [this]
        exact ⟨k, hm⟩
    · exact ⟨k + 1, .entry hk hat he hdot hdotdot hsub⟩

/-- The number under `..` is that of a directory one step up, or of the root for the root. -/
theorem Depth.of_child (tree : WellLinked disk fs) (hk : Depth disk fs k n)
    (h : DirAt disk fs n dir) (hsub : DirAt disk fs m sub)
    (hc : child disk fs dir dotdot = .ok sub) : Depth disk fs (k - 1) m := by
  have hnumber : ∀ j, j ≠ 0 → (j, dotdot) ∈ dir_entries disk dir → m = j := by
    intro j hj he
    obtain ⟨i, hi, hreach, hload⟩ := entry_of_child h hc
    have hat : DirAt disk fs i sub := ⟨hreach, hload, hsub.isDir⟩
    exact (hsub.number tree hat).trans (tree.unique n dir h _ hi _ he hat.ne_zero hj rfl)
  cases k with
  | zero =>
    cases hk
    rw [hnumber _ h.ne_zero (tree.root_up dir h)]
    exact .root
  | succ k =>
    obtain ⟨j, hj, hj0, he⟩ := hk.up tree h
    rw [hnumber j hj0 he]
    exact hj

theorem depth_zero (h : Depth disk fs 0 n) : n = EXT2_ROOT_INO := by
  cases h
  rfl

/-- **Only the root is its own parent.** -/
theorem root_of_up_self (tree : WellLinked disk fs) (h : DirAt disk fs n dir)
    (hc : child disk fs dir dotdot = .ok dir) : n = EXT2_ROOT_INO := by
  obtain ⟨k, hk⟩ := depth_of_reachable tree h.reachable dir h
  induction k with
  | zero => exact depth_zero hk
  | succ k ih => exact ih (hk.of_child tree h h hc)

/-- **Only the root is the parent of its parent.** -/
theorem root_of_up_up (tree : WellLinked disk fs) (h : DirAt disk fs n dir) (hsub : IsDir sub)
    (hc : child disk fs dir dotdot = .ok sub) (hc' : child disk fs sub dotdot = .ok dir) :
    n = EXT2_ROOT_INO := by
  obtain ⟨m, -, hreach, hload⟩ := entry_of_child h hc
  have hat : DirAt disk fs m sub := ⟨hreach, hload, hsub⟩
  obtain ⟨k, hk⟩ := depth_of_reachable tree h.reachable dir h
  -- two steps up is the same directory
  induction k using Nat.twoStepInduction with
  | zero => exact depth_zero hk
  | one => exact depth_zero ((hk.of_child tree h hat hc).of_child tree hat h hc')
  | more k ih _ => exact ih ((hk.of_child tree h hat hc).of_child tree hat h hc')

/-! ## Paths by their parts -/

/-- The inode that the names lead to from the root. -/
def follow (disk : Mem) (fs : ext2_fs) (names : List (List UInt8)) : Except ℤ ext2_inode := do
  let root ← load_inode disk fs EXT2_ROOT_INO
  names.foldlM (child disk fs) root

theorem resolution_eq_follow (disk : Mem) (fs : ext2_fs) (path : List UInt8) :
    resolution disk fs path = follow disk fs (parts path) := rfl

variable {names names' : List (List UInt8)}

theorem follow_nil : follow disk fs [] = load_inode disk fs EXT2_ROOT_INO := by
  rw [follow]
  cases load_inode disk fs EXT2_ROOT_INO <;> rfl

theorem follow_append : follow disk fs (names ++ names')
    = follow disk fs names >>= fun dir => names'.foldlM (child disk fs) dir := by
  rw [follow, follow, bind_assoc]
  simp only [List.foldlM_append]

theorem follow_snoc (h : follow disk fs names = .ok dir) :
    follow disk fs (names ++ [name]) = child disk fs dir name := by
  rw [follow_append, h]
  show [name].foldlM (child disk fs) dir = _
  rw [List.foldlM_cons]
  cases child disk fs dir name <;> rfl

theorem foldlM_loaded (h : Loaded disk fs dir)
    (hf : names.foldlM (child disk fs) dir = .ok sub) : Loaded disk fs sub := by
  induction names generalizing dir with
  | nil =>
    cases hf
    exact h
  | cons name names ih =>
    rw [List.foldlM_cons] at hf
    cases hc : child disk fs dir name with
    | error e =>
      rw [hc] at hf
      cases hf
    | ok next =>
      rw [hc] at hf
      exact ih (child_loaded h hc) hf

theorem follow_dirAt (h : follow disk fs names = .ok dir) (hdir : IsDir dir) :
    ∃ n, DirAt disk fs n dir := by
  rw [follow] at h
  cases hroot : load_inode disk fs EXT2_ROOT_INO with
  | error e =>
    rw [hroot] at h
    cases h
  | ok root =>
    rw [hroot] at h
    obtain ⟨n, hn, hload⟩ := foldlM_loaded ⟨_, .root, hroot⟩ h
    exact ⟨n, hn, hload, hdir⟩

/-- The names lead to a directory. -/
def LeadsToDir (disk : Mem) (fs : ext2_fs) (names : List (List UInt8)) : Prop :=
  ∃ dir, follow disk fs names = .ok dir ∧ IsDir dir

/-- On the way to a directory there are directories only. -/
theorem LeadsToDir.of_snoc (h : LeadsToDir disk fs (names ++ [name])) :
    LeadsToDir disk fs names := by
  obtain ⟨sub, hsub, -⟩ := h
  rw [follow_append] at hsub
  cases hf : follow disk fs names with
  | error e =>
    rw [hf] at hsub
    cases hsub
  | ok dir =>
    refine ⟨dir, hf, ?_⟩
    by_contra hdir
    have herr : child disk fs dir name = .error (-ENOTDIR) := if_neg hdir
    rw [← follow_append, follow_snoc hf, herr] at hsub
    cases hsub

end Loos.DirTree
