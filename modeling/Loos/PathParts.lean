/-
How `ext2_path_lookup` takes paths apart.

A name ends at a slash, at the end of the path, or when the array `component` is full, and
the lookup cannot tell which it was: it goes on in the middle of a part of more than 255
bytes as if there were a slash. So a path with a long part is taken for another one
([`faithful_iff`]). The path that `get_path` puts together is too short for that: it is taken apart
into the components of `cwd` and those of the path behind it ([`lookup_behind_cwd`]).
-/
import Loos.BlockReads
import Loos.Chdir

set_option autoImplicit false

namespace Loos.PathParts

open SysLib Ahci Ext2 PathLookup Resolution
open Chdir (get_path parts_get_path notMem_get_path)

/-! ## What the components should be -/

/-- The components of the path are its parts. No path with other parts has these components, and
a path with a part that no entry can have as its name leads to nothing. -/
structure Faithful (path : List UInt8) : Prop where
  components_eq : components path = parts path
  determined : ∀ path', 0 ∉ path' → components path' = components path →
    parts path' = parts path
  not_accepted : (∃ part ∈ parts path, EXT2_NAME_LEN < part.length) →
    ∀ d fs inode, (Prog.run answer d (ext2_path_lookup fs path)).1 ≠ .ok inode

/-- Every part fits into `component`, and one that another part follows does not fill it. -/
structure ShortParts (path : List UInt8) : Prop where
  length_le : ∀ part ∈ parts path, part.length ≤ EXT2_NAME_LEN
  length_lt : ∀ part ∈ (parts path).dropLast, part.length < EXT2_NAME_LEN

instance (path : List UInt8) : Decidable (ShortParts path) :=
  decidable_of_iff ((∀ part ∈ parts path, part.length ≤ EXT2_NAME_LEN) ∧
    ∀ part ∈ (parts path).dropLast, part.length < EXT2_NAME_LEN)
    ⟨fun h => ⟨h.1, h.2⟩, fun h => ⟨h.1, h.2⟩⟩

variable {path : List UInt8}

/-! ## Where they are -/

/-- The path with these parts. -/
def join (names : List (List UInt8)) : List UInt8 := names.flatMap fun name => slash :: name

theorem parts_join {names : List (List UInt8)} (h : ∀ name ∈ names, name ≠ [] ∧ slash ∉ name) :
    parts (join names) = names := by
  induction names with
  | nil => rfl
  | cons name names ih =>
    rw [List.forall_mem_cons] at h
    have hhead : (join names).headD slash = slash := by cases names <;> rfl
    rw [join, List.flatMap_cons, List.cons_append, parts_slash, ← join, parts_glue h.1.2 hhead,
      if_neg h.1.1, ih h.2]
    rfl

theorem notMem_join {names : List (List UInt8)} (h : ∀ name ∈ names, 0 ∉ name) :
    0 ∉ join names := by
  intro hm
  obtain ⟨name, hname, hm⟩ := List.mem_flatMap.mp hm
  exact (List.mem_cons.mp hm).elim (by decide) (h name hname)

/-- A part that fills the array and the next part are taken apart like a single long one. -/
theorem exists_confused (h0 : 0 ∉ path) (hle : ∀ part ∈ parts path, part.length ≤ EXT2_NAME_LEN)
    {part : List UInt8} (hpart : part ∈ (parts path).dropLast)
    (hfull : part.length = EXT2_NAME_LEN) :
    ∃ path', 0 ∉ path' ∧ components path' = components path ∧ parts path' ≠ parts path := by
  obtain ⟨pre, next, post, hsplit, hmerged⟩ :=
    exists_merged (by decide) (fun part h => (of_mem_parts h).1) hle hpart hfull
  have hall : ∀ name ∈ parts path, name ≠ [] ∧ slash ∉ name ∧ 0 ∉ name := by
    intro name hname
    obtain ⟨hne, hslash, hsub⟩ := of_mem_parts hname
    exact ⟨hne, hslash, fun hz => h0 (hsub hz)⟩
  -- put together they are no path's name on a disk, but parts of a path all the same
  have hnames : ∀ name ∈ pre ++ (part ++ next) :: post, name ≠ [] ∧ slash ∉ name ∧ 0 ∉ name := by
    rw [hsplit] at hall
    simp only [List.forall_mem_append, List.forall_mem_cons] at hall ⊢
    obtain ⟨hpre, hp, hn, hpost⟩ := hall
    exact ⟨hpre, by simp [hp, hn], hpost⟩
  have hparts := parts_join fun name hname => ⟨(hnames name hname).1, (hnames name hname).2.1⟩
  have h0' := notMem_join fun name hname => (hnames name hname).2.2
  refine ⟨join (pre ++ (part ++ next) :: post), h0', ?_, fun h => ?_⟩
  · rw [components_eq_pieces h0', hparts, hmerged, (components_eq_parts_iff h0).mpr hle]
  · have hlen := congrArg List.length (hparts.symm.trans (h.trans hsplit))
    simp at hlen

/-- **The components are the parts of the path, and of no other path**, exactly if every part
fits and those with another part behind them leave a byte of the array free. -/
theorem faithful_iff (h0 : 0 ∉ path) : Faithful path ↔ ShortParts path := by
  constructor
  · intro h
    have hle := (components_eq_parts_iff h0).mp h.components_eq
    refine ⟨hle, fun part hpart => Nat.lt_of_le_of_ne ?_ fun hfull => ?_⟩
    · exact hle part ((List.dropLast_sublist _).subset hpart)
    · obtain ⟨path', h0', hsame, hne⟩ := exists_confused h0 hle hpart hfull
      exact hne (h.determined path' h0' hsame)
  · intro h
    have hcomp := (components_eq_parts_iff h0).mpr h.length_le
    refine ⟨hcomp, ?_, ?_⟩
    · intro path' h0' hsame
      rw [components_eq_pieces h0', hcomp] at hsame
      -- a long part of the other path would show as a full one here
      have hshort : ∀ part ∈ parts path', part.length ≤ EXT2_NAME_LEN := fun part hpart =>
        length_le_of_flatMap (by decide) (hsame ▸ h.length_lt) hpart
      rw [← hsame, (flatMap_pieces_eq_iff fun part hpart => (of_mem_parts hpart).1).mpr hshort]
    · rintro ⟨part, hpart, hlong⟩
      exact absurd (h.length_le part hpart) (Nat.not_le.mpr hlong)

/-- The path `/./`. -/
theorem faithful_dot : Faithful [slash, 46, slash] :=
  (faithful_iff (by decide)).mpr (by decide +kernel)

/-- The root, inode 2, has one entry: its name is 255 times `a`, and it is for the directory with
the inode 3, which has the entry `a` for the root. -/
def nested : Mem := fun x =>
  if x = 1024 then 8
  else if x = 1024 + 4 then 16
  else if x = 1024 + 20 then 1
  else if x = 1024 + 40 then 8
  else if x = 1024 + 56 then 0x53
  else if x = 1024 + 57 then 0xEF
  else if x = 1024 + 88 then 128
  else if x = 2048 + 8 then 5
  else if x = 5120 + 128 then 0xED
  else if x = 5120 + 129 then 0x41
  else if x = 5120 + 128 + 40 then 6
  else if x = 5120 + 256 then 0xED
  else if x = 5120 + 257 then 0x41
  else if x = 5120 + 256 + 40 then 7
  else if x = 6144 then 3
  else if x = 6144 + 5 then 4
  else if x = 6144 + 6 then 255
  else if 6144 + 8 ≤ x ∧ x < 6144 + 8 + 255 then 97
  else if x = 7168 then 2
  else if x = 7168 + 5 then 4
  else if x = 7168 + 6 then 1
  else if x = 7168 + 8 then 97
  else 0

def nested_fs : ext2_fs := ⟨ext2_superblock.ofBytes (block nested 1), 1024⟩

/-- A slash and 256 times `a`. -/
def long_path : List UInt8 := slash :: List.replicate 256 97

/-- **A name of 256 bytes is accepted**: it is taken for a name of 255 bytes and one of a
single byte, so it leads to what is behind these. -/
theorem long_path_accepted :
    parts long_path = [List.replicate 256 97] ∧
      components long_path = [List.replicate 255 97, [97]] ∧
      components long_path = components (slash :: List.replicate 255 97 ++ [slash, 97]) ∧
      (Prog.run answer (BlockReads.boot nested)
        (ext2_path_lookup nested_fs long_path)).1.toOption.map ext2_inode.i_mode = some 0x41ED ∧
      ¬ Faithful long_path := by
  refine ⟨by decide +kernel, by decide +kernel, by decide +kernel, by decide +kernel, fun h => ?_⟩
  have hcomponents : components long_path ≠ parts long_path := by decide +kernel
  exact hcomponents h.components_eq

/-! ## Paths behind `cwd` -/

/-- The lookup of the path of `get_path`: that of `ref_path` alone if this starts at the root, and
otherwise that of `cwd`, with the loop going on from there through `ref_path`. -/
structure GoesOn (d : Dev) (fs : ext2_fs) (cwd ref_path : List UInt8) : Prop where
  absolute : ref_path.headD 0 = slash →
    Prog.run answer d (ext2_path_lookup fs (get_path cwd ref_path)) =
      Prog.run answer d (ext2_path_lookup fs ref_path)
  error : ref_path.headD 0 ≠ slash → ∀ e d',
    Prog.run answer d (ext2_path_lookup fs cwd) = (.error e, d') →
      Prog.run answer d (ext2_path_lookup fs (get_path cwd ref_path)) = (.error e, d')
  relative : ref_path.headD 0 ≠ slash → ∀ inode d',
    Prog.run answer d (ext2_path_lookup fs cwd) = (.ok inode, d') →
      Prog.run answer d (ext2_path_lookup fs (get_path cwd ref_path)) =
        Prog.run answer d' (lookup_loop fs ref_path inode)

section Cwd

variable {fs : ext2_fs} {cwd ref_path : List UInt8}

/-- The components behind `cwd` are those of `cwd` and then those of `ref_path`. -/
theorem components_get_path (hcwd : 0 ∉ cwd) (href : 0 ∉ ref_path)
    (hrel : ref_path.headD 0 ≠ slash) (hlen : (get_path cwd ref_path).length < 256) :
    components (get_path cwd ref_path) = components cwd ++ components ref_path := by
  have hparts := parts_get_path hcwd hrel
  -- a part is no longer than the buffer
  have hshort : ∀ part ∈ parts cwd ++ parts ref_path, part.length ≤ EXT2_NAME_LEN := by
    intro part hpart
    rw [← hparts] at hpart
    exact Nat.le_of_lt_succ (Nat.lt_of_le_of_lt (part_length_le hpart) hlen)
  rw [List.forall_mem_append] at hshort
  rw [components_eq hcwd hshort.1, components_eq href hshort.2, ← hparts]
  exact components_eq (notMem_get_path hcwd href) fun part hpart =>
    Nat.le_of_lt_succ (Nat.lt_of_le_of_lt (part_length_le hpart) hlen)

theorem lookup_get_path (hcwd : 0 ∉ cwd) (href : 0 ∉ ref_path) (hrel : ref_path.headD 0 ≠ slash)
    (hlen : (get_path cwd ref_path).length < 256) :
    ext2_path_lookup fs (get_path cwd ref_path) =
      ext2_path_lookup fs cwd >>= lookup_loop fs ref_path := by
  rw [ext2_path_lookup_eq, ext2_path_lookup_eq, components_get_path hcwd href hrel hlen,
    walk_append]
  exact congrArg _ (funext fun dir => (lookup_loop_eq ref_path dir).symm)

/-- **A path behind `cwd` is looked up from the inode of `cwd`**, whatever the disk is. -/
theorem lookup_behind_cwd (d : Dev) (fs : ext2_fs) (hcwd : 0 ∉ cwd) (href : 0 ∉ ref_path)
    (hlen : (get_path cwd ref_path).length < 256) : GoesOn d fs cwd ref_path := by
  constructor
  · intro habs
    rw [get_path, if_neg (not_not.mpr habs)]
  · intro hrel e d' hrun
    rw [lookup_get_path hcwd href hrel hlen, Prog.run_bind, hrun]
  · intro hrel inode d' hrun
    rw [lookup_get_path hcwd href hrel hlen, Prog.run_bind, hrun]

/-- From the directory `/.` to the entry `.` in it. -/
theorem lookup_behind_dot : GoesOn (BlockReads.boot small) small_fs [slash, 46] [46, slash] :=
  lookup_behind_cwd _ _ (by decide) (by decide) (by decide +kernel)

end Cwd

end Loos.PathParts
