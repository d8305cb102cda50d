/-
The walk of `ext2_path_lookup`.

Parsing does not depend on what is read. So the lookup first splits the path and
then takes one step for each component, from the root on: the current inode must be
a directory, the component is searched in it, and the inode that is found is loaded.

The components are the parts between slashes, each cut to pieces of the size of the array
`component` ([`components_eq_pieces`]); as long as the parts fit they are the parts themselves.
-/
import Loos.Ext2
import Loos.Lib.Pieces
import Mathlib.Data.List.TakeWhile

set_option autoImplicit false

namespace Loos.PathLookup

open SysLib Ahci Ext2

/-- The components that the loop of `ext2_path_lookup` gets, one after the other. -/
def components : List UInt8 → List (List UInt8)
  | [] => []
  | c :: p =>
    if hc : c = 0 then []
    else
      let r := parse_path_component (c :: p)
      have : r.2.length < (c :: p).length := parse_path_component_lt hc
      if r.1.length = 0 then components r.2 else r.1 :: components r.2
termination_by path => path.length
decreasing_by all_goals exact this

/-- From a directory to the inode of one of its entries. -/
def enter (fs : ext2_fs) (dir : ext2_inode) (name : List UInt8) : DiskProg ext2_inode :=
  if dir.i_mode &&& EXT2_S_IFDIR = 0 then .stop (.err (-ENOTDIR))
  else do
    let next_ino ← find_dir_entry fs dir name
    ext2_get_inode fs next_ino

/-- From the root through all components. -/
def walk (fs : ext2_fs) (names : List (List UInt8)) : DiskProg ext2_inode := do
  let root ← ext2_get_inode fs EXT2_ROOT_INO
  names.foldlM (enter fs) root

variable {fs : ext2_fs} {path p q r : List UInt8} {c : UInt8} {len : ℕ}

theorem lookup_loop_eq (path : List UInt8) (ino : ext2_inode) :
    lookup_loop fs path ino = (components path).foldlM (enter fs) ino := by
  -- the cases are those of the loop: the end, a stray slash, no directory, a component
  fun_induction lookup_loop fs path ino with
  | case1 ino =>
    rw [components]
    rfl
  | case2 ino p =>
    rw [components, dif_pos rfl]
    rfl
  | case3 ino c p hc r this hlen ih =>
    rw [ih, components, dif_neg hc]
    simp only [r] at hlen ⊢
    rw [if_pos hlen]
  | case4 ino c p hc r this hlen hdir =>
    rw [components, dif_neg hc]
    simp only [r] at hlen ⊢
    rw [if_neg hlen, List.foldlM_cons, enter, if_pos hdir]
    rfl
  | case5 ino c p hc r this hlen hdir ih =>
    rw [components, dif_neg hc]
    simp only [r] at hlen ih ⊢
    rw [if_neg hlen, List.foldlM_cons, enter, if_neg hdir, Prog.bind_assoc]
    simp only [ih]

/-- **The lookup is the walk along the components.** -/
theorem ext2_path_lookup_eq (fs : ext2_fs) (path : List UInt8) :
    ext2_path_lookup fs path = walk fs (components path) := by
  rw [ext2_path_lookup, walk]
  refine congrArg _ (funext fun root => ?_)
  by_cases h : path.headD 0 = 0
  · rw [if_pos h]
    cases path with
    | nil =>
      rw [components]
      rfl
    | cons c p =>
      have hc : c = 0 := h
      rw [components, dif_pos hc]
      rfl
  · rw [if_neg h, lookup_loop_eq]

/-- The walk can be cut at any name. -/
theorem walk_append (names names' : List (List UInt8)) :
    walk fs (names ++ names') = walk fs names >>= fun dir => names'.foldlM (enter fs) dir := by
  rw [walk, walk, Prog.bind_assoc]
  simp only [List.foldlM_append]

/-! ## The parts of a path -/

/-- The parts of a path between slashes, the empty ones dropped. -/
def parts (path : List UInt8) : List (List UInt8) := (path.splitOn slash).filter (· ≠ [])

theorem parts_slash : parts (slash :: p) = parts p := by
  have : (slash :: p).splitOn slash = [] :: p.splitOn slash := by
    simp [List.splitOn_eq_splitOnP, List.splitOnP_cons_eq_if_modifyHead]
  rw [parts, this, List.filter_cons_of_neg (by simp), parts]

/-- A path can be taken apart at any of its slashes. -/
theorem parts_append (p q : List UInt8) : parts (p ++ slash :: q) = parts p ++ parts q := by
  rw [parts, List.splitOn_append_cons_self, List.filter_append, parts, parts]

/-- What has no slash in it is one part, or none. -/
theorem parts_of_notMem (h : slash ∉ p) : parts p = if p = [] then [] else [p] := by
  have hone : p.splitOn slash = [p] := by
    rw [List.splitOn_eq_splitOnP]
    refine List.splitOnP_eq_singleton fun x hx => ?_
    rw [beq_eq_false_iff_ne]
    rintro rfl
    exact h hx
  rw [parts, hone]
  split_ifs with hp <;> simp [hp]

theorem parts_dropWhile : parts (p.dropWhile (· = slash)) = parts p := by
  induction p with
  | nil => rfl
  | cons c p ih =>
    by_cases hs : c = slash
    · subst hs
      rw [List.dropWhile_cons_of_pos (by simp), ih, parts_slash]
    · rw [List.dropWhile_cons_of_neg (by simpa using hs)]

/-- What stands between slashes is out of the path, and no slash is in it. -/
theorem of_mem_splitOn {part : List UInt8} (hp : part ∈ path.splitOn slash) :
    part.Sublist path ∧ slash ∉ part := by
  rw [List.splitOn_eq_splitOnP] at hp
  induction path generalizing part with
  | nil =>
    rw [List.splitOnP_nil, List.mem_singleton] at hp
    simp [hp]
  | cons x path ih =>
    rw [List.splitOnP_cons_eq_if_modifyHead] at hp
    split at hp
    · rcases List.mem_cons.mp hp with rfl | hp
      · simp
      · exact (ih hp).imp_left fun h => h.cons x
    · rename_i hx
      obtain ⟨r, rs, hr⟩ := List.exists_cons_of_ne_nil (List.splitOnP_ne_nil (· == slash) path)
      rw [hr, List.modifyHead_cons] at hp
      rcases List.mem_cons.mp hp with rfl | hp
      · have hpart := ih (hr ▸ List.mem_cons_self)
        refine ⟨hpart.1.cons_cons x, ?_⟩
        rw [List.mem_cons, not_or]
        exact ⟨fun h => hx (by simp [h]), hpart.2⟩
      · exact (ih (hr ▸ List.mem_cons_of_mem _ hp)).imp_left fun h => h.cons x

/-- A part is no longer than the path. -/
theorem part_length_le {part : List UInt8} (h : part ∈ parts path) :
    part.length ≤ path.length :=
  (of_mem_splitOn (List.mem_filter.mp h).1).1.length_le

theorem of_mem_parts {part : List UInt8} (h : part ∈ parts path) :
    part ≠ [] ∧ slash ∉ part ∧ part ⊆ path := by
  obtain ⟨hsplit, hne⟩ := List.mem_filter.mp h
  obtain ⟨hsub, hslash⟩ := of_mem_splitOn hsplit
  exact ⟨by simpa using hne, hslash, hsub.subset⟩

/-! ## The components -/

/-- The copying stops after 255 bytes of a name. -/
theorem copy_component_take (h0 : 0 ∉ q) (hlen : len ≤ EXT2_NAME_LEN) :
    copy_component len q = ((q.takeWhile (· ≠ slash)).take (EXT2_NAME_LEN - len),
      (q.takeWhile (· ≠ slash)).drop (EXT2_NAME_LEN - len) ++ q.dropWhile (· ≠ slash)) := by
  induction q generalizing len with
  | nil => simp [copy_component]
  | cons c q ih =>
    simp only [List.mem_cons, not_or] at h0
    by_cases hs : c = slash
    · simp [copy_component, hs]
    · rw [List.takeWhile_cons_of_pos (by simpa using hs),
        List.dropWhile_cons_of_pos (by simpa using hs), copy_component]
      -- the byte is copied while there is room for it and for the final 0
      by_cases hlt : len < EXT2_NAME_LEN
      · rw [if_pos ⟨Ne.symm h0.1, hs, hlt⟩, ih h0.2 hlt,
          show EXT2_NAME_LEN - len = EXT2_NAME_LEN - (len + 1) + 1 by omega]
        rfl
      · rw [if_neg fun h => hlt h.2.2, show EXT2_NAME_LEN - len = 0 by omega]
        simp [List.takeWhile_append_dropWhile]

/-- The text up to the next slash, cut where the array is full. -/
theorem exists_parse (h0 : 0 ∉ p) : ∃ part rest, slash ∉ part ∧ rest.headD slash = slash ∧
    0 ∉ part ++ rest ∧ parts (part ++ rest) = parts p ∧
      parse_path_component p =
        (part.take EXT2_NAME_LEN, part.drop EXT2_NAME_LEN ++ rest) := by
  have hdrop : 0 ∉ p.dropWhile (· = slash) := fun hm => h0 ((List.dropWhile_suffix _).subset hm)
  refine ⟨(p.dropWhile (· = slash)).takeWhile (· ≠ slash),
    (p.dropWhile (· = slash)).dropWhile (· ≠ slash), ?_, ?_, ?_, ?_, ?_⟩
  · intro hm
    simpa using List.mem_takeWhile_imp hm
  · -- behind a part the path ends, or there is a slash
    cases hr : (p.dropWhile (· = slash)).dropWhile (· ≠ slash) with
    | nil => rfl
    | cons c r =>
      have hne : (p.dropWhile (· = slash)).dropWhile (· ≠ slash) ≠ [] := by
        rw [hr]
        exact List.cons_ne_nil c r
      have hhead := List.head_dropWhile_not (· ≠ slash) hne
      simp only [hr, List.head_cons] at hhead
      simpa using hhead
  · rwa [List.takeWhile_append_dropWhile]
  · rw [List.takeWhile_append_dropWhile, parts_dropWhile]
  · exact copy_component_take hdrop (Nat.zero_le _)

/-- What stands before the first slash is the first part. -/
theorem parts_glue (hp : slash ∉ p) (hr : r.headD slash = slash) :
    parts (p ++ r) = (if p = [] then [] else [p]) ++ parts r := by
  cases r with
  | nil => rw [List.append_nil, parts_of_notMem hp]; simp [parts]
  | cons c r =>
    obtain rfl : c = slash := hr
    rw [parts_append, parts_of_notMem hp, parts_slash]

theorem flatMap_pieces_glue (hp : slash ∉ p) (hr : r.headD slash = slash) :
    (parts (p ++ r)).flatMap (pieces EXT2_NAME_LEN) =
      pieces EXT2_NAME_LEN p ++ (parts r).flatMap (pieces EXT2_NAME_LEN) := by
  rw [parts_glue hp hr]
  split_ifs with h
  · simp [h]
  · simp

/-- **The components are the pieces of the parts.** -/
theorem components_eq_pieces (h0 : 0 ∉ path) :
    components path = (parts path).flatMap (pieces EXT2_NAME_LEN) := by
  fun_induction components path with
  | case1 => rfl
  | case2 p => exact absurd h0 (by simp)
  | case3 c p hc r this hr ih =>
    obtain ⟨part, rest, -, -, h0', hparts, hparse⟩ := exists_parse h0
    simp only [r, hparse, List.length_eq_zero_iff, List.take_eq_nil_iff] at hr ih ⊢
    -- no name: what was left of the path are slashes
    obtain rfl : part = [] := hr.resolve_left (by decide)
    rw [← hparts]
    exact ih h0'
  | case4 c p hc r this hr ih =>
    obtain ⟨part, rest, hslash, hrest, h0', hparts, hparse⟩ := exists_parse h0
    simp only [r, hparse, List.length_eq_zero_iff] at hr ih ⊢
    have hne : part ≠ [] := by
      rintro rfl
      exact hr (List.take_nil)
    have hslash' : slash ∉ part.drop EXT2_NAME_LEN := fun hm => hslash (List.mem_of_mem_drop hm)
    have h0'' : 0 ∉ part.drop EXT2_NAME_LEN ++ rest := by
      intro hm
      refine h0' (List.mem_append.mpr ?_)
      exact (List.mem_append.mp hm).imp_left List.mem_of_mem_drop
    -- the rest of a long part is the next component
    rw [ih h0'', ← hparts, flatMap_pieces_glue hslash' hrest, flatMap_pieces_glue hslash hrest,
      pieces_of_ne_nil (by decide) hne]
    rfl

theorem components_eq_parts_iff (h0 : 0 ∉ path) :
    components path = parts path ↔ ∀ part ∈ parts path, part.length ≤ EXT2_NAME_LEN := by
  rw [components_eq_pieces h0, flatMap_pieces_eq_iff fun part h => (of_mem_parts h).1]

/-- **The loop of the lookup gets the parts between the slashes**, as long as they fit
the array `component`. -/
theorem components_eq (h0 : 0 ∉ path) (hlen : ∀ n ∈ parts path, n.length ≤ EXT2_NAME_LEN) :
    components path = parts path := (components_eq_parts_iff h0).mpr hlen

end Loos.PathLookup
