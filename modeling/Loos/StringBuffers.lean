/-
The strings of a process and the buffers they are put into.

A process has its `cwd` in 256 bytes and its `name` in 32; `sys_chdir` and `get_path` put paths
together in 256 bytes on the stack. `strcpy` and `strcat` do not ask how long a buffer is. So
what keeps a string inside of it has to be known of the arguments and of `cwd`, which gets
longer with every relative path ([`strings_fit_iff`]).

In the functions here a string that does not fit with its terminating 0 is `none`.
-/
import Loos.Chdir
import Loos.Lib.ByteMem
import Loos.Lib.Runs

set_option autoImplicit false

namespace Loos.StringBuffers

open SysLib Ext2 Cstring DirTree
open Chdir (cut_last bin)

/-! ## The code -/

/-- The arrays `path`, `newpath` and `buf` of the calls, and `cwd`. -/
def PATH_SIZE : ℕ := 256

/-- The array `name`. -/
def NAME_SIZE : ℕ := 32

/-- `strcpy` into an array of `size` bytes. -/
def strcpy (size : ℕ) (src : List UInt8) : Option (List UInt8) :=
  if src.length < size then some src else none

/-- `strcat` to the string `dst` in an array of `size` bytes. -/
def strcat (size : ℕ) (dst src : List UInt8) : Option (List UInt8) :=
  if dst.length + src.length < size then some (dst ++ src) else none

/-- `argstr(n, buf, max)`, which copies `max` bytes: a string that is as long has no 0 there. -/
def argstr (arg : List UInt8) (max : ℕ) : Option (List UInt8) :=
  if arg.length < max then some arg else none

/-- What `get_path` and `sys_chdir` do with a path that does not begin at the root: `cwd`, a
slash unless `cwd` is one, and the path. -/
def append_path (cwd path : List UInt8) : Option (List UInt8) :=
  (strcpy PATH_SIZE cwd).bind fun buf =>
    (if strcmp cwd [slash] ≠ 0 then strcat PATH_SIZE buf [slash] else some buf).bind fun buf =>
      strcat PATH_SIZE buf path

/-- `get_path` -/
def get_path (cwd ref_path : List UInt8) : Option (List UInt8) :=
  if ref_path.headD 0 ≠ slash then append_path cwd ref_path else strcpy PATH_SIZE ref_path

/-- `newpath` in `sys_chdir`. -/
def newpath (cwd path : List UInt8) : Option (List UInt8) :=
  if strcmp path dotdot = 0 then
    (strcpy PATH_SIZE cwd).bind fun buf => strcpy PATH_SIZE (cut_last buf cwd.length)
  else if path.headD 0 = slash then strcpy PATH_SIZE path
  else append_path cwd path

/-- `sys_chdir`: the returned value and `cwd`. -/
def sys_chdir (cwd arg : List UInt8) : Option (ℤ × List UInt8) := do
  let path ← argstr arg PATH_SIZE
  let newpath ← newpath cwd path
  let cwd ← strcpy PATH_SIZE newpath
  some (0, cwd)

/-- The strings in a `struct task_struct`. -/
structure Strings where
  name : List UInt8
  cwd : List UInt8

/-- `exec`, the strings of the new task `np`: its name comes before the program is loaded. -/
def exec (np : Strings) (path : List UInt8) (argv0 : Option (List UInt8)) : Option Strings := do
  let name ← strcpy NAME_SIZE (argv0.getD path)
  some { np with name := name }

/-- `sys_execve` by the task `p`, with the new task `np`; `loaded` when `elf_loader` succeeds. -/
def sys_execve (p np : Strings) (filename : List UInt8) (argv0 : Option (List UInt8))
    (loaded : Bool) : Option Strings := do
  let buf ← get_path p.cwd filename
  let np ← exec np buf argv0
  if loaded then do
    let name ← strcpy NAME_SIZE buf
    let cwd ← strcpy PATH_SIZE p.cwd
    some { name := name, cwd := cwd }
  else some np

/-- `fork`, the strings of the child. -/
def fork (p : Strings) : Option Strings := do
  let name ← strcpy NAME_SIZE p.name
  let cwd ← strcpy PATH_SIZE p.cwd
  some { name := name, cwd := cwd }

/-! ## Runs -/

/-- A call by the task `p`; a new task has the slot `np`. -/
inductive Event where
  | chdir (p : ℕ) (path : List UInt8)
  | openat (p : ℕ) (path : List UInt8)
  | execve (p np : ℕ) (filename : List UInt8) (argv0 : Option (List UInt8)) (loaded : Bool)
  | clone (p np : ℕ)

/-- The strings after a call; `none` when a string has run over the end of its array. -/
def step (s : ℕ → Strings) : Event → Option (ℕ → Strings)
  | .chdir p path => (sys_chdir (s p).cwd path).map fun r =>
      Function.update s p { s p with cwd := r.2 }
  | .openat p path => (get_path (s p).cwd path).map fun _ => s
  | .execve p np filename argv0 loaded =>
      (sys_execve (s p) (s np) filename argv0 loaded).map fun t => Function.update s np t
  | .clone p np => (fork (s p)).map fun t => Function.update s np t

/-- "k" -/
def kernel_name : List UInt8 := [107]

/-- "sh" -/
def sh : List UInt8 := [115, 104]

/-- After `proc_init` and `user_init`, which makes the task 1. -/
def init : ℕ → Strings := fun i =>
  if i = 0 then ⟨kernel_name, [slash]⟩ else if i = 1 then ⟨sh, bin⟩ else ⟨[], [slash]⟩

/-- Every string of the call fits into its array. -/
def Fits (s : ℕ → Strings) (e : Event) : Prop := (step s e).isSome

/-- The number of characters of a path behind `cwd`, or of an absolute one. -/
def joined (cwd path : List UInt8) : ℕ :=
  if path.headD 0 = slash then path.length
  else (if strcmp cwd [slash] = 0 then cwd.length else cwd.length + 1) + path.length

/-- What keeps the strings of a call in their arrays. -/
def Short (s : ℕ → Strings) : Event → Prop
  | .chdir p path =>
      path.length < 256 ∧ (strcmp path dotdot ≠ 0 → joined (s p).cwd path < 256)
  | .openat p path => joined (s p).cwd path < 256
  | .execve p _ filename argv0 loaded =>
      joined (s p).cwd filename < 256 ∧
        argv0.elim (joined (s p).cwd filename) List.length < 32 ∧
        (loaded = true → joined (s p).cwd filename < 32)
  | .clone _ _ => True

variable {cwd path src dst : List UInt8} {argv0 : Option (List UInt8)} {size : ℕ}
  {s s' : ℕ → Strings} {e : Event} {es : List Event} {t np : Strings}

/-! ## The stores -/

theorem strcpy_of_lt (h : src.length < size) : strcpy size src = some src := if_pos h

theorem strcpy_of_ge (h : size ≤ src.length) : strcpy size src = none :=
  if_neg (Nat.not_lt.mpr h)

/-- The loop of `strcpy`, and the 0 behind it. -/
def copy_string : Mem → ℕ → List UInt8 → Mem
  | m, dst, [] => m.poke dst 0
  | m, dst, c :: src => copy_string (m.poke dst c) (dst + 1) src

theorem copy_string_of_gt (m : Mem) {a x : ℕ} (h : a + src.length < x) :
    copy_string m a src x = m x := by
  induction src generalizing m a with
  | nil =>
    rw [copy_string, Mem.poke, if_neg]
    exact Nat.ne_of_gt h
  | cons c src ih =>
    rw [List.length_cons] at h
    rw [copy_string, ih _ (by omega), Mem.poke, if_neg (by omega)]

theorem copy_string_end (m : Mem) (a : ℕ) : copy_string m a src (a + src.length) = 0 := by
  induction src generalizing m a with
  | nil => exact if_pos rfl
  | cons c src ih =>
    rw [copy_string, List.length_cons, show a + (src.length + 1) = a + 1 + src.length by omega]
    exact ih (m.poke a c) (a + 1)

/-- **A string that fits is one that alters nothing behind its array**, whatever is there. -/
theorem strcpy_isSome_iff (a : ℕ) :
    (strcpy size src).isSome ↔ ∀ m x, a + size ≤ x → copy_string m a src x = m x := by
  constructor
  · -- the 0 goes to the last byte of the array at most
    intro h m x hx
    by_cases hlt : src.length < size
    · exact copy_string_of_gt m (by omega)
    · rw [strcpy_of_ge (by omega)] at h
      cases h
  · intro h
    by_contra hnone
    have hge : size ≤ src.length := by
      by_contra hlt
      exact hnone (by rw [strcpy_of_lt (by omega)]; rfl)
    -- the 0 goes behind the array
    have := h (fun _ => 1) (a + src.length) (by omega)
    rw [copy_string_end] at this
    exact absurd this (by decide)

/-- A string is made of a string that fits and another one behind it. -/
theorem strcpy_strcat : ((strcpy size dst).bind fun buf => strcat size buf src) =
    if dst.length + src.length < size then some (dst ++ src) else none := by
  by_cases hdst : dst.length < size
  · rw [strcpy_of_lt hdst, Option.bind_some, strcat]
  · rw [strcpy_of_ge (by omega), Option.bind_none, if_neg (by omega)]

/-- `cwd`, with a slash behind it unless it is one. -/
def front (cwd : List UInt8) : List UInt8 :=
  if strcmp cwd [slash] ≠ 0 then cwd ++ [slash] else cwd

theorem append_path_eq : append_path cwd path =
    if (front cwd).length + path.length < PATH_SIZE then some (front cwd ++ path) else none := by
  rw [append_path, front]
  -- the root has a slash of its own
  by_cases hroot : strcmp cwd [slash] = 0
  · simp only [hroot, ne_eq, not_true_eq_false, if_false, Option.bind_some]
    exact strcpy_strcat
  · simp only [hroot, ne_eq, not_false_eq_true, if_true]
    rw [← Option.bind_assoc, strcpy_strcat, List.length_append]
    split
    · rw [Option.bind_some, strcat, List.length_append]
    · rw [Option.bind_none, if_neg (by omega)]

theorem joined_relative (h : path.headD 0 ≠ slash) :
    joined cwd path = (front cwd).length + path.length := by
  rw [joined, if_neg h, front]
  by_cases hroot : strcmp cwd [slash] = 0
  · simp [hroot]
  · simp [hroot]

/-- **`get_path`** puts the path together, if it fits. -/
theorem get_path_eq : get_path cwd path =
    if joined cwd path < PATH_SIZE then some (Chdir.get_path cwd path) else none := by
  rw [get_path, Chdir.get_path]
  by_cases hpath : path.headD 0 = slash
  · rw [if_neg (not_not.mpr hpath), joined, if_pos hpath, if_neg (not_not.mpr hpath), strcpy]
  · rw [if_pos hpath, joined_relative hpath, if_pos hpath]
    exact append_path_eq

theorem length_get_path : (Chdir.get_path cwd path).length = joined cwd path := by
  rw [Chdir.get_path]
  by_cases hpath : path.headD 0 = slash
  · rw [if_neg (not_not.mpr hpath), joined, if_pos hpath]
  · rw [if_pos hpath, List.length_append, joined_relative hpath, front]

theorem length_cut_last (path : List UInt8) (i : ℕ) :
    (cut_last path i).length ≤ max 1 path.length := by
  induction i with
  | zero => exact Nat.le_max_left _ _
  | succ i ih =>
    rw [cut_last]
    split
    · -- what is in front of the last slash, or the root
      rw [List.length_take]
      omega
    · exact ih

/-- The path that `sys_chdir` makes of ".." fits. -/
theorem newpath_dotdot (hcwd : cwd.length < PATH_SIZE) (h : strcmp path dotdot = 0) :
    newpath cwd path = some (Chdir.sys_chdir cwd path) ∧
      (Chdir.sys_chdir cwd path).length < PATH_SIZE := by
  have hcut : (cut_last cwd cwd.length).length < PATH_SIZE := by
    have := length_cut_last cwd cwd.length
    simp only [PATH_SIZE] at hcwd ⊢
    omega
  rw [newpath, Chdir.sys_chdir, if_pos h, if_pos h, strcpy_of_lt hcwd, Option.bind_some,
    strcpy_of_lt hcut]
  exact ⟨rfl, hcut⟩

/-- Every other path is taken as `get_path` takes it. -/
theorem chdir_eq_get_path (h : strcmp path dotdot ≠ 0) :
    Chdir.sys_chdir cwd path = Chdir.get_path cwd path := by
  rw [Chdir.sys_chdir, if_neg h, Chdir.get_path]
  by_cases habs : path.headD 0 = slash
  · rw [if_pos habs, if_neg (not_not.mpr habs)]
  · rw [if_neg habs, if_pos habs]

theorem newpath_eq (h : strcmp path dotdot ≠ 0) : newpath cwd path = get_path cwd path := by
  rw [newpath, if_neg h, get_path]
  by_cases habs : path.headD 0 = slash
  · rw [if_pos habs, if_neg (not_not.mpr habs)]
  · rw [if_neg habs, if_pos habs]

/-- The strings of `sys_chdir` fit. -/
def ChdirFits (cwd path : List UInt8) : Prop :=
  path.length < PATH_SIZE ∧ (strcmp path dotdot ≠ 0 → joined cwd path < PATH_SIZE)

/-- **`sys_chdir`** makes the `cwd` that it means to make, if the strings fit. -/
theorem sys_chdir_of_fits (hcwd : cwd.length < PATH_SIZE) (h : ChdirFits cwd path) :
    sys_chdir cwd path = some (0, Chdir.sys_chdir cwd path) ∧
      (Chdir.sys_chdir cwd path).length < PATH_SIZE := by
  have hnew : newpath cwd path = some (Chdir.sys_chdir cwd path) ∧
      (Chdir.sys_chdir cwd path).length < PATH_SIZE := by
    by_cases hup : strcmp path dotdot = 0
    · exact newpath_dotdot hcwd hup
    · have hjoined := h.2 hup
      rw [newpath_eq hup, get_path_eq, if_pos hjoined, chdir_eq_get_path hup, length_get_path]
      exact ⟨rfl, hjoined⟩
  refine ⟨?_, hnew.2⟩
  simp only [sys_chdir, argstr, Option.bind_eq_bind]
  rw [if_pos h.1, Option.bind_some, hnew.1, Option.bind_some, strcpy_of_lt hnew.2,
    Option.bind_some]

theorem sys_chdir_of_not_fits (h : ¬ ChdirFits cwd path) : sys_chdir cwd path = none := by
  simp only [sys_chdir, argstr, Option.bind_eq_bind]
  by_cases hlen : path.length < PATH_SIZE
  · have hup : strcmp path dotdot ≠ 0 := fun hup => h ⟨hlen, fun hne => absurd hup hne⟩
    rw [if_pos hlen, Option.bind_some, newpath_eq hup, get_path_eq,
      if_neg fun hjoined => h ⟨hlen, fun _ => hjoined⟩, Option.bind_none]
  · rw [if_neg hlen, Option.bind_none]

/-! ## The calls -/

/-- The strings of a task are in their arrays. -/
structure Stored (t : Strings) : Prop where
  name : t.name.length < NAME_SIZE
  cwd : t.cwd.length < PATH_SIZE

theorem strcpy_eq_some {r : List UInt8} :
    strcpy size src = some r ↔ src.length < size ∧ src = r := by
  rw [strcpy, Option.ite_none_right_eq_some, Option.some.injEq]

theorem sys_chdir_eq_some {r : ℤ × List UInt8} (hcwd : cwd.length < PATH_SIZE) :
    sys_chdir cwd path = some r ↔
      ChdirFits cwd path ∧ (0, Chdir.sys_chdir cwd path) = r := by
  by_cases h : ChdirFits cwd path
  · rw [(sys_chdir_of_fits hcwd h).1, Option.some.injEq]
    simp [h]
  · rw [sys_chdir_of_not_fits h]
    simp [h]

theorem get_path_eq_some {r : List UInt8} :
    get_path cwd path = some r ↔ joined cwd path < PATH_SIZE ∧ Chdir.get_path cwd path = r := by
  rw [get_path_eq, Option.ite_none_right_eq_some, Option.some.injEq]

theorem exec_eq_some {r : Strings} : exec np path argv0 = some r ↔
    (argv0.getD path).length < NAME_SIZE ∧ { np with name := argv0.getD path } = r := by
  simp only [exec, Option.bind_eq_bind, Option.bind_eq_some_iff, strcpy_eq_some,
    Option.some.injEq]
  constructor
  · rintro ⟨name, ⟨hlt, rfl⟩, rfl⟩
    exact ⟨hlt, rfl⟩
  · rintro ⟨hlt, rfl⟩
    exact ⟨_, ⟨hlt, rfl⟩, rfl⟩

/-- `sys_execve` up to the program, and behind it when the program is loaded. -/
theorem sys_execve_eq_some {loaded : Bool} {r : Strings} (hcwd : t.cwd.length < PATH_SIZE) :
    sys_execve t np path argv0 loaded = some r ↔
      joined t.cwd path < PATH_SIZE ∧
        (argv0.getD (Chdir.get_path t.cwd path)).length < NAME_SIZE ∧
        (loaded = true → joined t.cwd path < NAME_SIZE) ∧
        (if loaded then ⟨Chdir.get_path t.cwd path, t.cwd⟩
          else { np with name := argv0.getD (Chdir.get_path t.cwd path) }) = r := by
  cases loaded with
  | false =>
    simp only [sys_execve, Option.bind_eq_bind, Option.bind_eq_some_iff, get_path_eq_some,
      exec_eq_some, Bool.false_eq_true, if_false, Option.some.injEq, false_imp_iff, true_and]
    constructor
    · rintro ⟨buf, ⟨hjoined, rfl⟩, np', ⟨hname, rfl⟩, rfl⟩
      exact ⟨hjoined, hname, rfl⟩
    · rintro ⟨hjoined, hname, rfl⟩
      exact ⟨_, ⟨hjoined, rfl⟩, _, ⟨hname, rfl⟩, rfl⟩
  | true =>
    -- the path becomes the name of the task as well, whatever `argv` says
    simp only [sys_execve, Option.bind_eq_bind, Option.bind_eq_some_iff, get_path_eq_some,
      exec_eq_some, if_true, strcpy_eq_some, Option.some.injEq, true_imp_iff]
    constructor
    · rintro ⟨buf, ⟨hjoined, rfl⟩, np', ⟨hname, rfl⟩, name, ⟨hbuf, rfl⟩, cwd, ⟨-, rfl⟩, rfl⟩
      rw [length_get_path] at hbuf
      exact ⟨hjoined, hname, hbuf, rfl⟩
    · rintro ⟨hjoined, hname, hbuf, rfl⟩
      rw [← length_get_path] at hbuf
      exact ⟨_, ⟨hjoined, rfl⟩, _, ⟨hname, rfl⟩, _, ⟨hbuf, rfl⟩, _, ⟨hcwd, rfl⟩, rfl⟩

theorem fork_stored (h : Stored t) : fork t = some t := by
  simp only [fork, Option.bind_eq_bind]
  rw [strcpy_of_lt h.name, Option.bind_some, strcpy_of_lt h.cwd, Option.bind_some]

/-- The strings of a call fit exactly when they are short. -/
theorem fits_iff_short (hs : ∀ i, Stored (s i)) : Fits s e ↔ Short s e := by
  rw [Fits]
  cases e with
  | chdir p path =>
    rw [step, Option.isSome_map, Option.isSome_iff_exists]
    simp only [sys_chdir_eq_some (hs p).cwd]
    simp [Short, ChdirFits, PATH_SIZE]
  | openat p path =>
    rw [step, Option.isSome_map, Option.isSome_iff_exists]
    simp only [get_path_eq_some]
    simp [Short, PATH_SIZE]
  | execve p np filename argv0 loaded =>
    rw [step, Option.isSome_map, Option.isSome_iff_exists]
    simp only [sys_execve_eq_some (hs p).cwd]
    have hname : (argv0.getD (Chdir.get_path (s p).cwd filename)).length =
        argv0.elim (joined (s p).cwd filename) List.length := by
      cases argv0 with
      | none => exact length_get_path
      | some name => rfl
    simp [Short, PATH_SIZE, NAME_SIZE, hname]
  | clone p np =>
    rw [step, fork_stored (hs p)]
    simp [Short]

/-- What a call leaves in the arrays of one task, and the others as they were. -/
theorem stored_update {i : ℕ} (hs : ∀ i, Stored (s i)) (ht : Stored t) (j : ℕ) :
    Stored (Function.update s i t j) := by
  rcases eq_or_ne j i with rfl | hne
  · rwa [Function.update_self]
  · rw [Function.update_of_ne hne]
    exact hs j

theorem stored_step (hs : ∀ i, Stored (s i)) (h : step s e = some s') : ∀ i, Stored (s' i) := by
  cases e with
  | chdir p path =>
    obtain ⟨r, hr, rfl⟩ := Option.map_eq_some_iff.mp h
    obtain ⟨hfits, rfl⟩ := (sys_chdir_eq_some (hs p).cwd).mp hr
    exact stored_update hs ⟨(hs p).name, (sys_chdir_of_fits (hs p).cwd hfits).2⟩
  | openat p path =>
    obtain ⟨-, -, rfl⟩ := Option.map_eq_some_iff.mp h
    exact hs
  | execve p np filename argv0 loaded =>
    obtain ⟨t, ht, rfl⟩ := Option.map_eq_some_iff.mp h
    obtain ⟨hjoined, hname, hbuf, rfl⟩ := (sys_execve_eq_some (hs p).cwd).mp ht
    refine stored_update hs ?_
    cases loaded with
    | false => exact ⟨hname, (hs np).cwd⟩
    | true => exact ⟨length_get_path.trans_lt (hbuf rfl), (hs p).cwd⟩
  | clone p np =>
    obtain ⟨t, ht, rfl⟩ := Option.map_eq_some_iff.mp h
    rw [fork_stored (hs p)] at ht
    exact stored_update hs (Option.some.inj ht ▸ hs p)

/-! ## Main results -/

theorem stored_init (i : ℕ) : Stored (init i) := by
  unfold init
  split_ifs <;> exact ⟨by decide, by decide⟩

/-- **The strings of a run fit exactly when the strings of every call are short.** -/
theorem strings_fit_iff (es : List Event) : Meets step Fits init es ↔ Meets step Short init es :=
  meets_congr (fun s => ∀ i, Stored (s i)) (fun _ _ _ hs _ h => stored_step hs h)
    (fun _ _ hs => fits_iff_short hs) stored_init

/-- "/bin/" and 28 characters "a": a path of 33 characters. -/
def long_name : List UInt8 := bin ++ slash :: List.replicate 28 97

/-- **The path of a program overruns its name**: `execve` of the path, with "a" for `argv[0]`. -/
theorem long_name_overruns :
    ¬ Meets step Fits init [.execve 1 2 long_name (some [97]) true] := by
  intro h
  have := ((fits_iff_short stored_init).mp h.1).2.2 rfl
  rw [← length_get_path] at this
  exact absurd this (by decide +kernel)

end Loos.StringBuffers
