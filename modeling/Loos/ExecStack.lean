/-
The stack that `exec` builds.

The strings are put at the bottom of the stack, from `USER_STACK_BOTTOM` on; at the top there are
the frame of the new task's `swtch`, the argument vector and the trap frame below it. Every
store goes through the page table, into pages that `alloc_vm` has just mapped, so what the
process sees afterwards is a sequence of writes to its address space
([`exec_stack_view`]). No two of them meet while the strings end below the trap frame,
and then all that was written is there.

`strcpy` of the name writes to `struct task_struct`, which is not in the new space.
-/
import Loos.Lib.Writes
import Loos.UserMem
import Loos.Isolation

set_option autoImplicit false

namespace Loos.ExecStack

open SysLib SysLib.Cells Kern PageTable AddrSpace Image ElfLoader LoadFile SharedPages Growth
open UserMem

/-! ## The layout -/

/-- The number of bytes of some strings, with the zeros behind them. -/
def total (strs : List (List UInt8)) : ℕ := (strs.map fun s => s.length + 1).sum

/-- Where the copy of the string `i` is. -/
def copy_at (strs : List (List UInt8)) (i : ℕ) : ℕ := USER_STACK_BOTTOM + total (strs.take i)

/-- Where the trap frame is. -/
def trapframe : ℕ := ustack - sizeof_trapframe

/-- The parts of the stack: the copies of the strings, the argument vector with its null pointers,
the trap frame and the context. -/
def parts (argv envp : List (List UInt8)) : List (ℕ × ℕ) :=
  ((List.range (argv ++ envp).length).map fun i =>
      (copy_at (argv ++ envp) i, ((argv ++ envp).getD i []).length + 1)) ++
    [(ustack, 8 * (argv.length + envp.length + 3)), (trapframe, sizeof_trapframe),
      (context, sizeof_context)]

/-- The strings fit between the bottom of the stack and the trap frame. -/
structure Fits (argv envp : List (List UInt8)) : Prop where
  argc : argv.length ≤ ARGS_MAX
  envc : envp.length ≤ ENVS_MAX
  size : total (argv ++ envp) ≤ USER_STACK_TOP - USER_STACK_BOTTOM - 728

/-- A word of the address space. -/
def HoldsWord (v : View) (a w : ℕ) : Prop := Holds v a (le 8 w)

/-- **What a new process finds on its stack.** -/
structure Stack (v : View) (argv envp : List (List UInt8)) (exec_helper entry : ℕ) : Prop where
  argc : HoldsWord v ustack argv.length
  args : ∀ i (hi : i < argv.length),
    HoldsWord v (ustack + 8 * (1 + i)) (copy_at (argv ++ envp) i) ∧
      Holds v (copy_at (argv ++ envp) i) (argv[i] ++ [0])
  args_end : HoldsWord v (ustack + 8 * (1 + argv.length)) 0
  envs : ∀ i (hi : i < envp.length),
    HoldsWord v (ustack + 8 * (2 + argv.length + i)) (copy_at (argv ++ envp) (argv.length + i)) ∧
      Holds v (copy_at (argv ++ envp) (argv.length + i)) (envp[i] ++ [0])
  envs_end : HoldsWord v (ustack + 8 * (2 + argv.length + envp.length)) 0
  context_sp : HoldsWord v (context + 16) trapframe
  context_ra : HoldsWord v context exec_helper
  trapframe_sp : HoldsWord v (trapframe + 16) ustack
  trapframe_prmd : HoldsWord v (trapframe + 248) 4
  trapframe_era : HoldsWord v (trapframe + 256) entry
  apart : (parts argv envp).Pairwise Separate
  inside : ∀ r ∈ parts argv envp, USER_STACK_BOTTOM ≤ r.1 ∧ r.1 + r.2 ≤ USER_STACK_TOP

/-! ## The writes -/

/-- A word as a write. -/
def word_write (w : ℕ × ℕ) : Write UInt8 := (w.1, le 8 w.2)

/-- What the loop over some strings writes: the pointer `bp` to `slot`, the string to `bp`. -/
def string_writes : List (List UInt8) → ℕ → ℕ → List (Write UInt8)
  | [], _, _ => []
  | str :: rest, slot, bp =>
    word_write (slot, bp) :: (bp, str ++ [0]) ::
      string_writes rest (slot + 8) (bp + str.length + 1)

/-- What `exec` writes to the stack. -/
def stack_writes (exec_helper entry : ℕ) (argv envp : List (List UInt8)) : List (Write UInt8) :=
  string_writes argv (ustack + 8) USER_STACK_BOTTOM ++
    (string_writes envp (ustack + 8 * (argv.length + 2)) (USER_STACK_BOTTOM + total argv) ++
      (exec_words exec_helper entry argv.length envp.length).map word_write)

/-- The whole stack is mapped. -/
def Mapped (v : View) : Prop := ∀ y, USER_STACK_BOTTOM ≤ y → y < USER_STACK_TOP → v y ≠ none

variable {k k' : Kern} {root : ℕ} {T D : List ℕ} {v : View} {a slot bp : ℕ} {w : ℕ × ℕ}
  {ws : List (ℕ × ℕ)} {strs argv envp : List (List UInt8)} {exec_helper entry : ℕ}

theorem length_le (n w : ℕ) : (le n w).length = n := by simp [le]

theorem Mapped.overwrites (h : Mapped v) (ws : List (Write UInt8)) : Mapped (overwrites v ws) :=
  fun y h1 h2 => overwrites_ne_none (h y h1 h2)

/-- `copy_to_va` to the stack. -/
theorem copy_to_stack {src : Mem} {l : List UInt8} {r : ℤ × Kern} (h : Held k root T D)
    (hm : Mapped (view k.mem root)) (hlow : USER_STACK_BOTTOM ≤ a)
    (hhigh : a + l.length ≤ USER_STACK_TOP) (hsrc : ∀ i, (hi : i < l.length) → src i = l[i])
    (hr : copy_to_va k root (a % 2 ^ 64) src l.length = some r) :
    Held r.2 root T D ∧ view r.2.mem root = overwrite (view k.mem root) (a, l) := by
  have ha : a < 2 ^ 64 := by
    unfold USER_STACK_TOP at hhigh
    omega
  rw [Nat.mod_eq_of_lt ha] at hr
  obtain ⟨r', hr', hheld, -, hview⟩ := copy_to_va_view l.length src h ha
  obtain rfl := Option.some.inj (hr'.symm.trans hr)
  refine ⟨hheld, ?_⟩
  -- all of it is mapped, so the copy does not end early
  have hreach : reach (view k.mem root) a l.length = l.length :=
    reach_eq (le_refl _) (fun i hi => hm _ (by omega) (by omega)) (.inl rfl)
  rw [hview]
  funext y
  rw [copied, hreach, overwrite]
  dsimp only
  split_ifs with hin
  · rw [List.getElem?_eq_getElem (by omega), hsrc _ (by omega)]
  · rfl

theorem put_word_view (h : Held k root T D) (hm : Mapped (view k.mem root))
    (hlow : USER_STACK_BOTTOM ≤ w.1) (hhigh : w.1 + 8 ≤ USER_STACK_TOP)
    (hs : put_word root k w = some k') :
    Held k' root T D ∧ view k'.mem root = overwrite (view k.mem root) (word_write w) := by
  obtain ⟨r, hr, rfl⟩ := Option.map_eq_some_iff.mp hs
  have hlen := length_le 8 w.2
  refine copy_to_stack (l := le 8 w.2) h hm hlow (by rw [hlen]; exact hhigh) ?_ (by rw [hlen]; exact hr)
  intro i hi
  rw [bytesOf, List.getD_eq_getElem _ _ hi]

theorem put_string_view {str : List UInt8} (h : Held k root T D) (hm : Mapped (view k.mem root))
    (hlow : USER_STACK_BOTTOM ≤ bp) (hhigh : bp + str.length + 1 ≤ USER_STACK_TOP)
    (hs : put_string root k bp str = some k') :
    Held k' root T D ∧ view k'.mem root = overwrite (view k.mem root) (bp, str ++ [0]) := by
  obtain ⟨r, hr, rfl⟩ := Option.map_eq_some_iff.mp hs
  have hlen : (str ++ [0]).length = str.length + 1 := by simp
  refine copy_to_stack (l := str ++ [0]) h hm hlow (by rw [hlen]; omega) ?_
    (by rw [hlen]; exact hr)
  intro i hi
  rw [bytesOf, List.getElem_append]
  split_ifs with hlt
  · exact List.getD_eq_getElem _ _ hlt
  · rw [List.getElem_singleton]
    exact List.getD_eq_default _ _ (Nat.le_of_not_lt hlt)

theorem put_words_view (h : Held k root T D) (hm : Mapped (view k.mem root))
    (hws : ∀ w ∈ ws, USER_STACK_BOTTOM ≤ w.1 ∧ w.1 + 8 ≤ USER_STACK_TOP)
    (hs : ws.foldlM (put_word root) k = some k') :
    Held k' root T D ∧ view k'.mem root = overwrites (view k.mem root) (ws.map word_write) := by
  induction ws generalizing k with
  | nil =>
    obtain rfl : k = k' := by simpa using hs
    exact ⟨h, rfl⟩
  | cons w ws ih =>
    rw [List.foldlM_cons, Option.bind_eq_bind, Option.bind_eq_some_iff] at hs
    obtain ⟨k₁, h₁, h₂⟩ := hs
    obtain ⟨hlow, hhigh⟩ := hws w List.mem_cons_self
    obtain ⟨hheld, hview⟩ := put_word_view h hm hlow hhigh h₁
    have hm₁ : Mapped (view k₁.mem root) := by
      rw [hview]
      exact hm.overwrites [word_write w]
    obtain ⟨hheld', hview'⟩ := ih hheld hm₁ (fun w' hw' => hws w' (List.mem_cons_of_mem _ hw')) h₂
    refine ⟨hheld', ?_⟩
    rw [hview', hview, List.map_cons, overwrites_cons]

theorem total_cons (str : List UInt8) (strs : List (List UInt8)) :
    total (str :: strs) = str.length + 1 + total strs := by
  rw [total, List.map_cons, List.sum_cons, total]

theorem total_append (strs strs' : List (List UInt8)) :
    total (strs ++ strs') = total strs + total strs' := by
  rw [total, List.map_append, List.sum_append, total, total]

/-- The loop over some strings, with room for the pointers and the strings. -/
theorem put_strings_view {s : Kern × ℕ} (h : Held k root T D) (hm : Mapped (view k.mem root))
    (hslot : USER_STACK_BOTTOM ≤ slot) (hslots : slot + 8 * strs.length ≤ USER_STACK_TOP)
    (hbp : USER_STACK_BOTTOM ≤ bp) (hend : bp + total strs ≤ USER_STACK_TOP)
    (hs : put_strings root strs slot (k, bp) = some s) :
    s.2 = bp + total strs ∧ Held s.1 root T D ∧
      view s.1.mem root = overwrites (view k.mem root) (string_writes strs slot bp) := by
  induction strs generalizing k slot bp with
  | nil =>
    obtain rfl := Option.some.inj hs
    exact ⟨rfl, h, rfl⟩
  | cons str rest ih =>
    -- first the pointer, then the string, then the next slot
    rw [total_cons] at hend ⊢
    rw [List.length_cons] at hslots
    obtain ⟨k₁, h₁, hs⟩ := Option.bind_eq_some_iff.mp hs
    obtain ⟨k₂, h₂, hs⟩ := Option.bind_eq_some_iff.mp hs
    obtain ⟨hheld₁, hview₁⟩ := put_word_view h hm hslot (by dsimp only; omega) h₁
    have hm₁ : Mapped (view k₁.mem root) := by
      rw [hview₁]
      exact hm.overwrites [word_write (slot, bp)]
    obtain ⟨hheld₂, hview₂⟩ := put_string_view hheld₁ hm₁ hbp (by omega) h₂
    have hm₂ : Mapped (view k₂.mem root) := by
      rw [hview₂]
      exact hm₁.overwrites [(bp, str ++ [0])]
    have hslot' : USER_STACK_BOTTOM ≤ slot + 8 := by omega
    have hbp' : USER_STACK_BOTTOM ≤ bp + str.length + 1 := by omega
    obtain ⟨hend', hheld, hview⟩ := ih hheld₂ hm₂ hslot' (by omega) hbp' (by omega) hs
    refine ⟨by omega, hheld, ?_⟩
    rw [hview, hview₂, hview₁, string_writes, overwrites_cons, overwrites_cons]

/-! ## Where the writes go -/

/-- The addresses of the parts. -/
theorem layout : USER_STACK_BOTTOM + 0xF0000 = USER_STACK_TOP ∧ context + 248 = USER_STACK_TOP ∧
    ustack + 216 = context ∧ trapframe + 264 = ustack ∧ USER_STACK_TOP < MAXVA := by
  decide

theorem exec_words_eq (exec_helper entry argc envc : ℕ) : exec_words exec_helper entry argc envc =
    [(ustack + 8 * (argc + 2 + envc), 0), (ustack + 8 * (argc + 1), 0), (ustack, argc),
      (context + 16, trapframe), (context, exec_helper), (trapframe + 16, ustack),
      (trapframe + 248, 0x4), (trapframe + 256, entry)] := rfl

theorem exec_words_mem {argc envc : ℕ} (hargc : argc ≤ ARGS_MAX) (henvc : envc ≤ ENVS_MAX)
    (hw : w ∈ exec_words exec_helper entry argc envc) :
    trapframe ≤ w.1 ∧ w.1 + 8 ≤ USER_STACK_TOP ∧ (w.1 = ustack ∨ w.1 = ustack + 8 * (argc + 1) ∨
      w.1 = ustack + 8 * (argc + 2 + envc) ∨ w.1 + 8 ≤ ustack ∨ context ≤ w.1) := by
  obtain ⟨-, hcontext, hustack, htrapframe, -⟩ := layout
  unfold ARGS_MAX at hargc
  unfold ENVS_MAX at henvc
  rw [exec_words_eq] at hw
  simp only [List.mem_cons, List.not_mem_nil, or_false] at hw
  rcases hw with rfl | rfl | rfl | rfl | rfl | rfl | rfl | rfl <;> dsimp only <;> omega

theorem exec_words_apart {argc envc : ℕ} (hargc : argc ≤ ARGS_MAX) (henvc : envc ≤ ENVS_MAX) :
    ((exec_words exec_helper entry argc envc).map word_write).Pairwise
      fun w w' => Separate w.range w'.range := by
  obtain ⟨-, hcontext, hustack, htrapframe, -⟩ := layout
  unfold ARGS_MAX at hargc
  unfold ENVS_MAX at henvc
  rw [exec_words_eq, List.pairwise_map]
  simp only [List.pairwise_cons, List.forall_mem_cons, Separate, Write.range, word_write, length_le,
    List.not_mem_nil, false_imp_iff, implies_true, List.Pairwise.nil, and_true]
  omega

/-- A loop over some strings writes to its slots and to the room for the strings. -/
theorem string_writes_mem {w : Write UInt8} (hw : w ∈ string_writes strs slot bp) :
    (slot ≤ w.1 ∧ w.1 + w.2.length ≤ slot + 8 * strs.length) ∨
      (bp ≤ w.1 ∧ w.1 + w.2.length ≤ bp + total strs) := by
  induction strs generalizing slot bp with
  | nil => cases hw
  | cons str rest ih =>
    rw [total_cons, List.length_cons]
    rcases List.mem_cons.mp hw with rfl | hw
    · left
      simp only [word_write, length_le]
      omega
    rcases List.mem_cons.mp hw with rfl | hw
    · right
      simp only [List.length_append, List.length_singleton]
      omega
    · rcases ih hw with h | h
      · exact .inl (by omega)
      · exact .inr (by omega)

theorem string_writes_apart (h : bp + total strs ≤ slot) :
    (string_writes strs slot bp).Pairwise fun w w' => Separate w.range w'.range := by
  induction strs generalizing slot bp with
  | nil => exact .nil
  | cons str rest ih =>
    rw [total_cons] at h
    have hroom : bp + str.length + 1 + total rest ≤ slot + 8 := by omega
    have hrest := ih hroom
    refine .cons ?_ (.cons ?_ hrest)
    · -- the pointer and what comes behind it
      intro w hw
      unfold Separate Write.range
      simp only [word_write, length_le]
      rcases List.mem_cons.mp hw with rfl | hw
      · simp only [List.length_append, List.length_singleton]
        omega
      · rcases string_writes_mem hw with h | h <;> omega
    · intro w hw
      unfold Separate Write.range
      simp only [List.length_append, List.length_singleton]
      rcases string_writes_mem hw with h | h <;> omega

/-- No two stores of `exec` meet. -/
theorem stack_writes_apart (hf : Fits argv envp) :
    (stack_writes exec_helper entry argv envp).Pairwise fun w w' => Separate w.range w'.range := by
  obtain ⟨hargc, henvc, hsize⟩ := hf
  obtain ⟨hbottom, hcontext, hustack, htrapframe, -⟩ := layout
  rw [total_append] at hsize
  have hargs : argv.length ≤ 8 := hargc
  have henvs : envp.length ≤ 16 := henvc
  refine List.pairwise_append.mpr ⟨string_writes_apart (by omega), ?_, ?_⟩
  · -- the variables and the words
    refine List.pairwise_append.mpr ⟨string_writes_apart (by omega),
      exec_words_apart hargc henvc, ?_⟩
    intro w hw w' hw'
    obtain ⟨word, hword, rfl⟩ := List.mem_map.mp hw'
    have hwords := exec_words_mem hargc henvc hword
    unfold Separate Write.range
    simp only [word_write, length_le]
    rcases string_writes_mem hw with h | h <;> omega
  · -- the arguments, and what comes behind them
    intro w hw w' hw'
    unfold Separate Write.range
    rcases List.mem_append.mp hw' with hw' | hw'
    · rcases string_writes_mem hw with h | h <;> rcases string_writes_mem hw' with h' | h' <;> omega
    · obtain ⟨word, hword, rfl⟩ := List.mem_map.mp hw'
      have hwords := exec_words_mem hargc henvc hword
      simp only [word_write, length_le]
      rcases string_writes_mem hw with h | h <;> omega

/-- The copy of each string and the pointer to it are among the writes. -/
theorem mem_string_writes (slot bp : ℕ) {i : ℕ} (hi : i < strs.length) :
    word_write (slot + 8 * i, bp + total (strs.take i)) ∈ string_writes strs slot bp ∧
      (bp + total (strs.take i), strs[i] ++ [0]) ∈ string_writes strs slot bp := by
  induction strs generalizing slot bp i with
  | nil => cases hi
  | cons str rest ih =>
    cases i with
    | zero =>
      simp only [List.take_zero, List.getElem_cons_zero, Nat.mul_zero, Nat.add_zero]
      exact ⟨List.mem_cons_self, List.mem_cons_of_mem _ List.mem_cons_self⟩
    | succ i =>
      rw [List.length_cons] at hi
      obtain ⟨hptr, hstr⟩ := ih (slot + 8) (bp + str.length + 1) (Nat.lt_of_succ_lt_succ hi)
      rw [List.take_succ_cons, total_cons, List.getElem_cons_succ]
      rw [show slot + 8 * (i + 1) = slot + 8 + 8 * i by omega,
        show bp + (str.length + 1 + total (rest.take i)) =
          bp + str.length + 1 + total (rest.take i) by omega]
      exact ⟨List.mem_cons_of_mem _ (List.mem_cons_of_mem _ hptr),
        List.mem_cons_of_mem _ (List.mem_cons_of_mem _ hstr)⟩

/-- **What `exec_stack` does to the address space.** -/
theorem exec_stack_view (h : Held k root T D) (hm : Mapped (view k.mem root))
    (hf : Fits argv envp)
    (hs : exec_stack exec_helper entry argv envp root k = some k') :
    view k'.mem root =
      overwrites (view k.mem root) (stack_writes exec_helper entry argv envp) := by
  obtain ⟨hargc, henvc, hsize⟩ := hf
  obtain ⟨hbottom, hcontext, hustack, htrapframe, -⟩ := layout
  have hargs : argv.length ≤ 8 := hargc
  have henvs : envp.length ≤ 16 := henvc
  rw [total_append] at hsize
  rw [exec_stack, if_neg (by omega)] at hs
  obtain ⟨⟨k₁, bp₁⟩, h₁, hrest⟩ := Option.bind_eq_some_iff.mp hs
  obtain ⟨⟨k₂, bp₂⟩, h₂, hwords⟩ := Option.bind_eq_some_iff.mp hrest
  -- the arguments, the variables and the words, one behind the other
  obtain ⟨hbp₁, hheld₁, hview₁⟩ := put_strings_view h hm (by omega) (by omega) (le_refl _)
    (by omega) h₁
  dsimp only at hbp₁ hheld₁ hview₁ h₂
  subst hbp₁
  have hm₁ : Mapped (view k₁.mem root) := by
    rw [hview₁]
    exact hm.overwrites _
  obtain ⟨-, hheld₂, hview₂⟩ := put_strings_view hheld₁ hm₁ (by omega) (by omega) (by omega)
    (by omega) h₂
  dsimp only at hheld₂ hview₂ hwords
  have hm₂ : Mapped (view k₂.mem root) := by
    rw [hview₂]
    exact hm₁.overwrites _
  obtain ⟨-, hview⟩ := put_words_view hheld₂ hm₂ (fun w hw => by
    have := exec_words_mem hargc henvc hw
    omega) hwords
  rw [hview, hview₂, hview₁, stack_writes, overwrites_append, overwrites_append]

/-! ## The parts -/

theorem total_take_succ {i : ℕ} (hi : i < strs.length) :
    total (strs.take (i + 1)) = total (strs.take i) + (strs[i].length + 1) := by
  rw [List.take_succ_eq_append_getElem hi, total_append]
  simp [total]

theorem total_take_le (strs : List (List UInt8)) {i j : ℕ} (h : i ≤ j) :
    total (strs.take i) ≤ total (strs.take j) := by
  obtain ⟨d, rfl⟩ := Nat.exists_eq_add_of_le h
  rw [List.take_add, total_append]
  exact Nat.le_add_right _ _

/-- The copies lie one behind the other below the end of all. -/
theorem copy_at_end {i j : ℕ} (hi : i < strs.length) (hj : i < j) :
    copy_at strs i + (strs[i].length + 1) ≤ copy_at strs j ∧
      copy_at strs i + (strs[i].length + 1) ≤ USER_STACK_BOTTOM + total strs := by
  have hstep := total_take_succ hi
  have hle := total_take_le strs (show i + 1 ≤ j by omega)
  have hall := total_take_le strs (show i + 1 ≤ strs.length by omega)
  rw [List.take_length] at hall
  unfold copy_at
  omega

/-- A part is a copy, below the trap frame, or one of the three above. -/
theorem parts_mem {r : ℕ × ℕ} (hf : Fits argv envp)
    (hr : r ∈ (List.range (argv ++ envp).length).map fun i =>
      (copy_at (argv ++ envp) i, ((argv ++ envp).getD i []).length + 1)) :
    USER_STACK_BOTTOM ≤ r.1 ∧ r.1 + r.2 ≤ trapframe := by
  obtain ⟨hbottom, hcontext, hustack, htrapframe, -⟩ := layout
  have hsize := hf.size
  obtain ⟨i, hi, rfl⟩ := List.mem_map.mp hr
  have hi := List.mem_range.mp hi
  obtain ⟨-, hend⟩ := copy_at_end hi (Nat.lt_succ_self i)
  rw [List.getD_eq_getElem _ _ hi]
  refine ⟨Nat.le_add_right _ _, ?_⟩
  dsimp only
  omega

theorem parts_separate (hf : Fits argv envp) : (parts argv envp).Pairwise Separate := by
  obtain ⟨-, hcontext, hustack, htrapframe, -⟩ := layout
  have hargs : argv.length ≤ 8 := hf.argc
  have henvs : envp.length ≤ 16 := hf.envc
  refine List.pairwise_append.mpr ⟨?_, ?_, ?_⟩
  · -- the copies among each other
    refine List.pairwise_map.mpr (List.pairwise_lt_range.imp_of_mem ?_)
    intro i j hi hj hij
    have hi := List.mem_range.mp hi
    rw [List.getD_eq_getElem _ _ hi]
    exact .inl (copy_at_end hi hij).1
  · simp only [List.pairwise_cons, List.forall_mem_cons, Separate, sizeof_context,
      sizeof_trapframe, List.not_mem_nil, false_imp_iff, implies_true, List.Pairwise.nil, and_true]
    omega
  · -- the copies end below the trap frame
    intro r hr r' hr'
    have hbelow := (parts_mem hf hr).2
    left
    simp only [List.mem_cons, List.not_mem_nil, or_false] at hr'
    rcases hr' with rfl | rfl | rfl <;> dsimp only <;> omega

theorem parts_inside (hf : Fits argv envp) : ∀ r ∈ parts argv envp,
    USER_STACK_BOTTOM ≤ r.1 ∧ r.1 + r.2 ≤ USER_STACK_TOP := by
  obtain ⟨hbottom, hcontext, hustack, htrapframe, -⟩ := layout
  have hargs : argv.length ≤ 8 := hf.argc
  have henvs : envp.length ≤ 16 := hf.envc
  intro r hr
  rcases List.mem_append.mp hr with hr | hr
  · obtain ⟨hlow, hbelow⟩ := parts_mem hf hr
    exact ⟨hlow, by omega⟩
  · simp only [List.mem_cons, List.not_mem_nil, or_false] at hr
    rcases hr with rfl | rfl | rfl <;>
      simp only [sizeof_context, sizeof_trapframe] <;> omega

/-- **What `exec_stack` has written is all there.** -/
theorem stack_of_writes (hf : Fits argv envp) :
    Stack (overwrites v (stack_writes exec_helper entry argv envp)) argv envp exec_helper entry := by
  have hall : ∀ w ∈ stack_writes exec_helper entry argv envp,
      Holds (overwrites v (stack_writes exec_helper entry argv envp)) w.1 w.2 := fun w hw =>
    holds_overwrites (stack_writes_apart hf) hw
  have hargs : ∀ w ∈ string_writes argv (ustack + 8) USER_STACK_BOTTOM,
      Holds (overwrites v (stack_writes exec_helper entry argv envp)) w.1 w.2 := fun w hw =>
    hall w (List.mem_append_left _ hw)
  have henvs : ∀ w ∈ string_writes envp (ustack + 8 * (argv.length + 2))
        (USER_STACK_BOTTOM + total argv),
      Holds (overwrites v (stack_writes exec_helper entry argv envp)) w.1 w.2 := fun w hw =>
    hall w (List.mem_append_right _ (List.mem_append_left _ hw))
  have hwords : ∀ w ∈ exec_words exec_helper entry argv.length envp.length,
      HoldsWord (overwrites v (stack_writes exec_helper entry argv envp)) w.1 w.2 := fun w hw =>
    hall (word_write w)
      (List.mem_append_right _ (List.mem_append_right _ (List.mem_map_of_mem hw)))
  rw [exec_words_eq] at hwords
  generalize overwrites v (stack_writes exec_helper entry argv envp) = u at *
  refine ⟨?_, ?_, ?_, ?_, ?_, ?_, ?_, ?_, ?_, ?_, parts_separate hf, parts_inside hf⟩
  · exact hwords (ustack, argv.length) (by simp)
  · intro i hi
    obtain ⟨hptr, hstr⟩ := mem_string_writes (ustack + 8) USER_STACK_BOTTOM hi
    have hcopy : copy_at (argv ++ envp) i = USER_STACK_BOTTOM + total (argv.take i) := by
      rw [copy_at, List.take_append_of_le_length (by omega)]
    rw [hcopy, show ustack + 8 * (1 + i) = ustack + 8 + 8 * i by omega]
    exact ⟨hargs _ hptr, hargs _ hstr⟩
  · rw [Nat.add_comm 1]
    exact hwords (ustack + 8 * (argv.length + 1), 0) (by simp)
  · intro i hi
    obtain ⟨hptr, hstr⟩ := mem_string_writes (ustack + 8 * (argv.length + 2))
      (USER_STACK_BOTTOM + total argv) hi
    have hcopy : copy_at (argv ++ envp) (argv.length + i) =
        USER_STACK_BOTTOM + total argv + total (envp.take i) := by
      rw [copy_at, List.take_length_add_append, total_append, Nat.add_assoc]
    rw [hcopy, show ustack + 8 * (2 + argv.length + i) =
      ustack + 8 * (argv.length + 2) + 8 * i by omega]
    exact ⟨henvs _ hptr, henvs _ hstr⟩
  · rw [Nat.add_comm 2]
    exact hwords (ustack + 8 * (argv.length + 2 + envp.length), 0) (by simp)
  · exact hwords (context + 16, trapframe) (by simp)
  · exact hwords (context, exec_helper) (by simp)
  · exact hwords (trapframe + 16, ustack) (by simp)
  · exact hwords (trapframe + 248, 0x4) (by simp)
  · exact hwords (trapframe + 256, entry) (by simp)

/-! ## Main result -/

/-- The loader returns the entry point of the header, if not -1. -/
theorem load_elf_entry {buf : Mem} {s s' : Task} (hs : load_elf buf s = .ok (entry, s'))
    (hne : entry ≠ ERROR) : entry = (Elf_Ehdr.ofBytes buf).e_entry := by
  obtain ⟨-, -, b, -, hentry⟩ := LoadImage.load_elf_ok hs
  cases b with
  | true => exact hentry
  | false => exact absurd hentry hne

/-- `alloc_vm` maps the whole stack. -/
theorem mapped_of_alloc_vm : Mapped (zeroed USER_STACK_BOTTOM USER_STACK_TOP v) := by
  intro y hlow hhigh
  have hend : PGROUNDUP USER_STACK_TOP = USER_STACK_TOP := by decide
  have hvisits : y < MAXVA ∧ Visits USER_STACK_BOTTOM USER_STACK_TOP y := by
    unfold Visits
    rw [hend]
    unfold USER_STACK_BOTTOM USER_STACK_TOP MAXVA PGSIZE at *
    refine ⟨by omega, (y - 0x7FF00000) / 0x4000, by omega, by omega⟩
  rw [zeroed, if_pos hvisits]
  exact Option.some_ne_none _

/-- **The stack of a new program.** After `exec` has succeeded, the argument vector, the strings and
the two frames are where the program and the kernel look for them, apart from each other. -/
theorem exec_stack_holds {p : Space} {buf : Mem} (hf : Fresh k []) (hfits : Fits argv envp)
    (hs : exec exec_helper k (some buf) argv envp = some (k', some p)) :
    Stack (view k'.mem p.pgtbl) argv envp exec_helper (Elf_Ehdr.ofBytes buf).e_entry := by
  obtain ⟨⟨root, k₁⟩, hc, hrest⟩ := Option.bind_eq_some_iff.mp hs
  obtain ⟨e, he, hrest⟩ := Option.bind_eq_some_iff.mp hrest
  have hcreate : Builds k k₁ ⟨root, []⟩ [root] (pas ⟨root, []⟩) [root] := .create hf hc
  obtain ⟨T₁, N₁, hload⟩ := load_loads (s := ⟨k₁, ⟨root, []⟩, 0⟩) hcreate.held he
  split at hrest
  · -- a program that cannot be loaded is no success
    obtain ⟨f, -, hnone⟩ := Option.map_eq_some_iff.mp hrest
    cases (Prod.mk.inj hnone).2
  · next hne =>
    obtain ⟨r, hr, hrest⟩ := Option.bind_eq_some_iff.mp hrest
    obtain ⟨k₂, hstack, hkp⟩ := Option.map_eq_some_iff.mp hrest
    obtain ⟨rfl, hp⟩ := Prod.mk.inj hkp
    obtain rfl := Option.some.inj hp
    obtain ⟨hroot, ⟨T₂, D₂, hheld⟩, hview⟩ :=
      alloc_vm_view hload.held LoadImage.segment_perm_ok hr
    have hm : Mapped (view r.kern.mem r.proc.pgtbl) := by
      rw [hroot, hview]
      exact mapped_of_alloc_vm
    rw [exec_stack_view (hroot ▸ hheld) hm hfits hstack,
      ← load_elf_entry (toOption_eq_some.mp he) hne]
    exact stack_of_writes hfits

/-- A shell with one argument and one variable. -/
theorem exec_stack_holds_shell : ∃ k' p,
    exec 0 (Vm.spare 400) (some Isolation.program) [[115, 104]] [[72, 61, 47]] =
        some (k', some p) ∧
      Stack (view k'.mem p.pgtbl) [[115, 104]] [[72, 61, 47]] 0
        (Elf_Ehdr.ofBytes Isolation.program).e_entry := by
  have hfresh : Fresh (Vm.spare 400) [] := Vm.spare_fresh (by norm_num)
  have hlen : (Vm.spare 400).pages.length = 400 := by simp [Vm.spare]
  have hfits : Fits [[115, 104]] [[72, 61, 47]] := ⟨by decide, by decide, by decide⟩
  obtain ⟨k', p, -, hexec, -⟩ := Isolation.exec_isSome 0 hfresh (by omega) Isolation.load_program
    (by decide) hfits.argc hfits.envc
  exact ⟨k', p, hexec, exec_stack_holds hfresh hfits hexec⟩

end Loos.ExecStack
