/-
`malloc` and `free` over whole runs.

A run is any sequence of calls in which every freed pointer is live, with
writes of the clients inside their blocks. What is live, what is freed and not
yet reused, and which chunks were cut for which request, are ghosts of the run.

Two slips of the code show only in runs. `malloc` takes a chunk of the unsorted
bin out of the list by moving the head, wherever in the list it was found. And
it reuses a small chunk for any size of the same bin, but bins are 15 wide
while chunks are cut in steps of 16. The conditions [`HeadFits`] and
[`RoundsAlike`] say when a call stays clear of either, and the main results say
what holds in every run that does.
-/
import Loos.HeapLists
import Loos.Lib.Runs

set_option autoImplicit false

namespace Loos.HeapRuns

open SysLib Kern Stdlib

/-! ## States and events -/

/-- The allocator; the live blocks, the chunks that are free, the chunks cut so
far with their first requests, and the pages taken. -/
structure Sys where
  heap : Heap
  live : List Block
  freed : List ℕ
  cut : List Block
  pages : List ℕ

/-- Before the first call. -/
def init (k : Kern) : Sys := ⟨Heap.init k, [], [], [], []⟩

/-- A call, or a write of a client. -/
inductive Event where
  | malloc (size : ℕ)
  | free (ptr : ℕ)
  | write (x : ℕ) (c : UInt8)

/-- The state after `malloc` returned the chunk `c` for `size` bytes. -/
def Sys.allocated (s : Sys) (h : Heap) (c size : ℕ) : Sys :=
  { heap := h
    live := ⟨c, size⟩ :: s.live
    freed := s.freed.filter fun x => decide (x ≠ c)
    cut := if ∃ r ∈ s.cut, r.chunk = c then s.cut else ⟨c, size⟩ :: s.cut
    pages := taken s.heap.kern h.kern ++ s.pages }

/-- One event; `none` if it is not possible or ends in a `panic`. -/
def step (s : Sys) : Event → Option Sys
  | .malloc size =>
    if size < 2 ^ 64 then
      (malloc s.heap size).map fun r =>
        if r.1 = 0 then { s with heap := r.2 }
        else s.allocated r.2 (r.1 - chunk_info_size) size
    else none
  | .free ptr =>
    if ∃ b ∈ s.live, b.ptr = ptr then
      some { s with
        heap := free s.heap ptr
        live := s.live.filter fun b => decide (b.ptr ≠ ptr)
        freed := (ptr - chunk_info_size) :: s.freed }
    else none
  | .write x c =>
    if ∃ b ∈ s.live, b.ptr ≤ x ∧ x < b.ptr + b.size then
      some { s with heap := { s.heap with kern :=
        { s.heap.kern with mem := s.heap.kern.mem.poke x c } } }
    else none

/-- The event is a call. -/
def Event.IsCall : Event → Prop
  | .write _ _ => False
  | _ => True

/-! ## What a heap should be -/

/-- Live blocks share no byte, and every one lies in a page of `kmalloc`. -/
structure BlocksOk (s : Sys) : Prop where
  apart : s.live.Pairwise Block.Apart
  inPage : ∀ b ∈ s.live, ∃ P ∈ s.pages, b.In P

/-- The free lists are finite chains without a repetition, hold no live chunk
and have lost no freed one. -/
def FreeListsOk (s : Sys) : Prop :=
  ∃ L : ℕ → List ℕ,
    (∀ i < 11, Chain (next s.heap.kern.mem) (s.heap.fastbin i) (L i)) ∧
    Chain (next s.heap.kern.mem) s.heap.unsorted_bin (L 11) ∧
    ((List.range 12).flatMap L).Nodup ∧
    (∀ b ∈ s.live, b.chunk ∉ (List.range 12).flatMap L) ∧
    ∀ c ∈ s.freed, c ∈ (List.range 12).flatMap L

/-! ## When a call is clear of the slips -/

/-- The size plus the header does not wrap. -/
def SizeOk (size : ℕ) : Prop := size + chunk_info_size < 2 ^ 64

/-- The chunk `i` links behind `c`; null stays null. -/
def nth (m : Mem) (c : ℕ) : ℕ → ℕ
  | 0 => c
  | i + 1 => if c = 0 then 0 else nth m (next m c) i

/-- If any of the first 101 chunks of the unsorted bin fits, the first one does. -/
def HeadFits (h : Heap) (size : ℕ) : Prop :=
  0xa0 ≤ size → ∀ i ≤ 100, nth h.kern.mem h.unsorted_bin i ≠ 0 →
    fits h.kern.mem size (nth h.kern.mem h.unsorted_bin i) → fits h.kern.mem size h.unsorted_bin

/-- If the fastbin of the size has a chunk, then the size is at most the multiple
of 16 with the bin's number, or that chunk was cut for more than this multiple. -/
def RoundsAlike (s : Sys) (size : ℕ) : Prop :=
  size < 0xa0 → ∀ r ∈ s.cut, r.chunk = s.heap.fastbin (size / 0xF) →
    size ≤ 16 * (size / 0xF) ∨ 16 * (size / 0xF) < r.size

instance (size : ℕ) : Decidable (SizeOk size) := inferInstanceAs (Decidable (_ < _))

instance (h : Heap) (size : ℕ) : Decidable (HeadFits h size) :=
  inferInstanceAs (Decidable (_ → ∀ i ≤ 100, _))

instance (s : Sys) (size : ℕ) : Decidable (RoundsAlike s size) :=
  inferInstanceAs (Decidable (_ → ∀ r ∈ s.cut, _))

/-- The condition for the free lists. -/
def ListsClear (s : Sys) : Event → Prop
  | .malloc size => SizeOk size ∧ HeadFits s.heap size
  | _ => True

/-- The condition for the blocks. -/
def BlocksClear (s : Sys) : Event → Prop
  | .malloc size => SizeOk size ∧ HeadFits s.heap size ∧ RoundsAlike s size
  | _ => True

instance (s : Sys) : ∀ e, Decidable (ListsClear s e)
  | .malloc size => inferInstanceAs (Decidable (SizeOk size ∧ HeadFits s.heap size))
  | .free _ => .isTrue trivial
  | .write _ _ => .isTrue trivial

instance (s : Sys) : ∀ e, Decidable (BlocksClear s e)
  | .malloc size =>
    inferInstanceAs (Decidable (SizeOk size ∧ HeadFits s.heap size ∧ RoundsAlike s size))
  | .free _ => .isTrue trivial
  | .write _ _ => .isTrue trivial

/-! ## The search -/

theorem search_none {m : Mem} {size n c : ℕ}
    (hn : ∀ i ≤ n, nth m c i ≠ 0 → ¬ fits m size (nth m c i)) :
    (search m size n c).2 = false ∧
      ((search m size n c).1 = 0 ∨ ¬ fits m size (search m size n c).1) := by
  induction n generalizing c with
  | zero =>
    refine ⟨rfl, ?_⟩
    by_cases h0 : c = 0
    · exact .inl h0
    · exact .inr (hn 0 le_rfl h0)
  | succ n ih =>
    rw [search]
    by_cases h0 : c = 0
    · rw [if_pos h0]
      exact ⟨rfl, .inl rfl⟩
    · have hmiss : ¬ fits m size c := hn 0 (Nat.zero_le _) h0
      rw [if_neg h0, if_neg hmiss]
      refine ih fun i hi => ?_
      have := hn (i + 1) (by omega)
      rwa [nth, if_neg h0] at this

/-- A request for the unsorted bin clear of the slip: the first chunk serves it,
or a new one does. -/
theorem large_chunk_eq {h : Heap} {size : ℕ} (hs : 0xa0 ≤ size) (hsize : SizeOk size)
    (hf : HeadFits h size) :
    large_chunk h size =
      if h.unsorted_bin ≠ 0 ∧ fits h.kern.mem size h.unsorted_bin then
        some (h.unsorted_bin, { h with unsorted_bin := next h.kern.mem h.unsorted_bin })
      else apply_alloc h (room size + chunk_info_size) := by
  have hroom : (size + chunk_info_size) % 2 ^ 64 = room size + chunk_info_size := by
    unfold SizeOk at hsize
    rw [room, if_neg (by omega), Nat.mod_eq_of_lt hsize]
  by_cases hhit : h.unsorted_bin ≠ 0 ∧ fits h.kern.mem size h.unsorted_bin
  · have hsearch : search h.kern.mem size 100 h.unsorted_bin = (h.unsorted_bin, true) := by
      rw [search, if_neg hhit.1, if_pos hhit.2]
    rw [if_pos hhit, large_chunk, hsearch]
    simp only [if_true, hhit.1, hhit.2, not_true_eq_false, or_self, if_false]
  · have hnone : ∀ i ≤ 100, nth h.kern.mem h.unsorted_bin i ≠ 0 →
        ¬ fits h.kern.mem size (nth h.kern.mem h.unsorted_bin i) := by
      intro i hi h0 hfit
      refine hhit ⟨fun hz => h0 ?_, hf hs i hi h0 hfit⟩
      rw [hz]
      cases i <;> rfl
    obtain ⟨hfalse, hmiss⟩ := search_none hnone
    rw [if_neg hhit, large_chunk, hfalse]
    simp only [Bool.false_eq_true, if_false]
    rw [if_pos hmiss, hroom]

theorem small_chunk_eq {h : Heap} {size : ℕ} (hs : size < 0xa0) :
    small_chunk h size =
      if h.fastbin (size / 0xF) ≠ 0 then
        some (h.fastbin (size / 0xF), { h with
          fastbin := Function.update h.fastbin (size / 0xF)
            (next h.kern.mem (h.fastbin (size / 0xF))) })
      else apply_alloc h (room size + chunk_info_size) := by
  rw [small_chunk, fix_size_eq hs, room, if_pos hs]

/-- The list of the size without its first chunk. -/
def popped (h : Heap) (size : ℕ) : Heap :=
  if size ≥ 0xa0 then { h with unsorted_bin := next h.kern.mem h.unsorted_bin }
  else { h with
    fastbin := Function.update h.fastbin (size / 0xF)
      (next h.kern.mem (h.fastbin (size / 0xF))) }

/-- The first chunk of the list of the size can serve the request. -/
def Hit (h : Heap) (size : ℕ) : Prop :=
  h.head (binOf size) ≠ 0 ∧ (0xa0 ≤ size → fits h.kern.mem size (h.head (binOf size)))

/-- **All that `malloc` does** when it is clear of the slip in the search. -/
theorem malloc_eq {h : Heap} {size : ℕ} (hsize : SizeOk size) (hf : HeadFits h size) :
    (Hit h size ∧ malloc h size = some (h.head (binOf size) + chunk_info_size,
      { popped h size with kern := h.kern.write (h.head (binOf size) + 8) size })) ∨
    (¬ Hit h size ∧ malloc h size = (apply_alloc h (room size + chunk_info_size)).map fun r =>
      if r.1 = 0 then (0, r.2)
      else (r.1 + chunk_info_size, { r.2 with kern := r.2.kern.write (r.1 + 8) size })) := by
  by_cases hs : 0xa0 ≤ size
  · have hhead := head_large h hs
    by_cases hhit : Hit h size
    · refine .inl ⟨hhit, ?_⟩
      obtain ⟨h0, hfit⟩ := hhit
      rw [malloc, if_pos hs, large_chunk_eq hs hsize hf, hhead,
        if_pos ⟨hhead ▸ h0, hhead ▸ hfit hs⟩, Option.map_some, if_neg (hhead ▸ h0), popped,
        if_pos hs]
    · refine .inr ⟨hhit, ?_⟩
      rw [malloc, if_pos hs, large_chunk_eq hs hsize hf, if_neg]
      rintro ⟨h0, hfit⟩
      exact hhit ⟨hhead ▸ h0, fun _ => hhead ▸ hfit⟩
  · have hs' : size < 0xa0 := by omega
    have hhead := head_small h hs'
    by_cases hhit : Hit h size
    · refine .inl ⟨hhit, ?_⟩
      obtain ⟨h0, -⟩ := hhit
      rw [malloc, if_neg hs, small_chunk_eq hs', hhead, if_pos (hhead ▸ h0), Option.map_some,
        if_neg (hhead ▸ h0), popped, if_neg hs]
    · refine .inr ⟨hhit, ?_⟩
      rw [malloc, if_neg hs, small_chunk_eq hs', if_neg]
      exact fun h0 => hhit ⟨hhead ▸ h0, fun h1 => absurd h1 hs⟩

theorem popped_head (h : Heap) (size : ℕ) :
    (popped h size).head (binOf size) = next h.kern.mem (h.head (binOf size)) ∧
      ∀ b ≤ 11, b ≠ binOf size → (popped h size).head b = h.head b := by
  by_cases hs : 0xa0 ≤ size
  · rw [popped, if_pos hs, head_large _ hs, head_large _ hs]
    refine ⟨rfl, fun b _ hne => ?_⟩
    have hb : binOf size = 11 := by rw [binOf, if_neg (by omega)]
    rw [hb] at hne
    rw [Heap.head, Heap.head, if_neg hne, if_neg hne]
  · have hs' : size < 0xa0 := by omega
    rw [popped, if_neg hs, head_small _ hs', head_small _ hs']
    refine ⟨Function.update_self .., fun b _ hne => ?_⟩
    have hb : binOf size = size / 0xF := by rw [binOf, if_pos hs']
    rw [hb] at hne
    rw [Heap.head, Heap.head]
    split
    · rfl
    · exact Function.update_of_ne hne ..

/-! ## The invariant -/

/-- The chunks lie apart, and the free chunks are those of the lists. -/
structure Inv (s : Sys) : Prop where
  arena : Arena s.heap s.pages s.cut
  lists : ∃ L, Lists s.heap L s.cut s.live ∧ ∀ c, c ∈ s.freed ↔ ∃ b ≤ 11, c ∈ L b

/-- Every live block has room in its chunk. -/
def RoomOk (s : Sys) : Prop :=
  ∀ b ∈ s.live, ∀ r ∈ s.cut, r.chunk = b.chunk → b.size ≤ room r.size

variable {s s' : Sys} {e : Event} {es : List Event} {size ptr : ℕ}

theorem popped_same (h : Heap) (size : ℕ) : (popped h size).kern = h.kern ∧
    (popped h size).p_start = h.p_start ∧ (popped h size).p_end = h.p_end := by
  unfold popped
  split <;> exact ⟨rfl, rfl, rfl⟩

/-- **A hit**: the first chunk of the list serves the request. -/
theorem Inv.recycle (h : Inv s) (hsize : SizeOk size) (hit : Hit s.heap size) :
    let c := s.heap.head (binOf size)
    let s' := s.allocated
      { popped s.heap size with kern := s.heap.kern.write (c + 8) size } c size
    Inv s' ∧ (RoomOk s → RoundsAlike s size → RoomOk s') := by
  intro c s'
  obtain ⟨ha, L, hl, hfreed⟩ := h
  obtain ⟨h0, hfit⟩ := hit
  have hb := binOf_le size
  obtain ⟨t, hL, -⟩ := hl.head_mem hb h0
  have hcL : c ∈ L (binOf size) := by
    rw [hL]
    exact List.mem_cons_self
  obtain ⟨hcut, -, -⟩ := hl.listed _ hb c hcL
  have hcuts : s'.cut = s.cut := if_pos hcut
  have hpages : s'.pages = s.pages :=
    congrArg (· ++ s.pages) (taken_eq (show s.heap.kern.pages = [] ++ s'.heap.kern.pages from rfl))
  obtain ⟨hk, hps, hpe⟩ := popped_same s.heap size
  obtain ⟨hhead, hother⟩ := popped_head s.heap size
  have hlists : Lists s'.heap (Function.update L (binOf size) t) s.cut (⟨c, size⟩ :: s.live) :=
    hl.pop ha hb hL hhead hother rfl (by unfold SizeOk at hsize; omega) rfl
      fun h1 => (hfit h1).1
  refine ⟨⟨?_, Function.update L (binOf size) t, hcuts ▸ hlists, fun x => ?_⟩, fun hroom hr => ?_⟩
  · rw [hcuts, hpages]
    exact ha.congr rfl hps hpe
  · show x ∈ s.freed.filter _ ↔ _
    rw [List.mem_filter, hfreed, decide_eq_true_eq]
    constructor
    · rintro ⟨⟨b, hb', hx⟩, hne⟩
      refine ⟨b, hb', ?_⟩
      by_cases he : b = binOf size
      · subst he
        rw [hL] at hx
        rw [Function.update_self]
        exact (List.mem_cons.mp hx).resolve_left hne
      · rwa [Function.update_of_ne he]
    · rintro ⟨b, hb', hx⟩
      -- the recycled chunk is live now, so no list has it
      refine ⟨⟨b, hb', ?_⟩, fun e => (hlists.listed b hb' x hx).2.2 _ List.mem_cons_self e.symm⟩
      by_cases he : b = binOf size
      · subst he
        rw [Function.update_self] at hx
        rw [hL]
        exact List.mem_cons_of_mem _ hx
      · rwa [Function.update_of_ne he] at hx
  · intro b hbm r hrm he
    rw [hcuts] at hrm
    rcases List.mem_cons.mp hbm with rfl | hbm
    · -- the size class of the chunk has not changed since it was cut
      obtain ⟨hbin, hlarge⟩ := hlists.sameBin r hrm
      have hhdr : chunkSize s'.heap.kern.mem r.chunk = size := by
        rw [he]
        exact (hlists.live_cut _ List.mem_cons_self).2
      rw [hhdr] at hbin hlarge
      dsimp only at he ⊢
      by_cases hs : 0xa0 ≤ size
      · exact (hlarge hs).trans (le_room _)
      · have hs' : size < 0xa0 := by omega
        have hrs : r.size < 0xa0 ∧ r.size / 0xF = size / 0xF := by
          rw [binOf, binOf, if_pos hs'] at hbin
          by_cases hr : r.size < 0xa0
          · rw [if_pos hr] at hbin
            exact ⟨hr, hbin⟩
          · rw [if_neg hr] at hbin
            omega
        refine (le_room_iff hs' hrs.1 hrs.2).mpr (hr hs' r hrm ?_)
        rw [he]
        exact head_small _ hs'
    · exact hroom b hbm r hrm he

/-- **A miss**: a new chunk serves the request. -/
theorem Inv.cut_new {c : ℕ} {h₁ : Heap} (h : Inv s) (hsize : SizeOk size)
    (hc : apply_alloc s.heap (room size + chunk_info_size) = some (c, h₁)) :
    let s' := s.allocated { h₁ with kern := h₁.kern.write (c + 8) size } c size
    c ≠ 0 ∧ Inv s' ∧ (RoomOk s → RoomOk s') := by
  intro s'
  obtain ⟨ha, L, hl, hfreed⟩ := h
  obtain ⟨ha₁, hfast, huns, hsame⟩ := ha.apply_alloc_spec hc
  have hpos := (ha₁.chunk_pos List.mem_cons_self).1
  -- the chunk is new
  have hnew : ∀ r ∈ s.cut, r.chunk ≠ c := fun r hr he => by
    have hap := (List.pairwise_cons.mp ha₁.apart).1 r hr
    unfold Block.Apart Block.ptr Block.full chunk_info_size at hap
    dsimp only at hap
    omega
  have hcuts : s'.cut = ⟨c, size⟩ :: s.cut := if_neg fun ⟨r, hr, he⟩ => hnew r hr he
  have hlists : Lists s'.heap L (⟨c, size⟩ :: s.cut) (⟨c, size⟩ :: s.live) :=
    hl.cut_new hsame ha₁ (fun b _ => by
      show (if b = 11 then h₁.unsorted_bin else h₁.fastbin b) = s.heap.head b
      rw [hfast, huns]
      rfl) rfl (by unfold SizeOk at hsize; omega)
  refine ⟨by dsimp only at hpos; omega, ⟨?_, L, hcuts ▸ hlists, fun x => ?_⟩, fun hroom => ?_⟩
  · rw [hcuts]
    exact ha₁.congr rfl rfl rfl
  · show x ∈ s.freed.filter _ ↔ _
    rw [List.mem_filter, hfreed, decide_eq_true_eq, and_iff_left_iff_imp]
    rintro ⟨b, hb, hx⟩ rfl
    obtain ⟨⟨r, hr, he⟩, -⟩ := hl.listed b hb x hx
    exact hnew r hr he
  · intro b hbm r hrm he
    rw [hcuts] at hrm
    rcases List.mem_cons.mp hbm with rfl | hbm <;> rcases List.mem_cons.mp hrm with rfl | hrm
    · exact le_room size
    · exact absurd he (hnew r hrm)
    · obtain ⟨⟨r', hr', he'⟩, -⟩ := hl.live_cut b hbm
      exact absurd (he'.trans he.symm) (hnew r' hr')
    · exact hroom b hbm r hrm he

theorem Inv.malloc (h : Inv s) (hsize : SizeOk size) (hf : HeadFits s.heap size)
    (hs : step s (.malloc size) = some s') :
    Inv s' ∧ (RoomOk s → RoundsAlike s size → RoomOk s') := by
  simp only [step] at hs
  rw [if_pos (by unfold SizeOk at hsize; omega)] at hs
  rcases malloc_eq hsize hf with ⟨hit, heq⟩ | ⟨-, heq⟩
  · rw [heq, Option.map_some] at hs
    dsimp only at hs
    rw [if_neg (by unfold chunk_info_size; omega), Nat.add_sub_cancel] at hs
    rw [← Option.some.inj hs]
    exact h.recycle hsize hit
  · rw [heq, Option.map_map] at hs
    obtain ⟨⟨c, h₁⟩, hc, rfl⟩ := Option.map_eq_some_iff.mp hs
    obtain ⟨h0, hinv, hroom⟩ := h.cut_new hsize hc
    simp only [Function.comp_apply, if_neg h0]
    rw [if_neg (by unfold chunk_info_size; omega), Nat.add_sub_cancel]
    exact ⟨hinv, fun hr _ => hroom hr⟩

/-- A list's first chunk is a 64-bit address. -/
theorem Inv.head_lt (ha : Arena s.heap s.pages s.cut) {L : ℕ → List ℕ}
    (hl : Lists s.heap L s.cut s.live) {b : ℕ} (hb : b ≤ 11) : s.heap.head b < 2 ^ 64 := by
  by_cases h0 : s.heap.head b = 0
  · rw [h0]
    norm_num
  · obtain ⟨t, hL, -⟩ := hl.head_mem hb h0
    obtain ⟨⟨r, hr, he⟩, -⟩ := hl.listed b hb _ (by rw [hL]; exact List.mem_cons_self)
    rw [← he]
    exact ha.chunk_lt hr

/-- `free` finds the header of a chunk and files it under the size that it finds there. -/
theorem free_files {h : Heap} {pages : List ℕ} {cut : List Block} {r : Block} {size : ℕ}
    (ha : Arena h pages cut) (hr : r ∈ cut) (hsize : chunkSize h.kern.mem r.chunk = size) :
    (free h r.ptr).kern = h.kern.write r.chunk (h.head (binOf size)) ∧
      (free h r.ptr).p_start = h.p_start ∧ (free h r.ptr).p_end = h.p_end ∧
      (free h r.ptr).head (binOf size) = r.chunk ∧
      ∀ b ≤ 11, b ≠ binOf size → (free h r.ptr).head b = h.head b := by
  have hchunk : (r.ptr + 2 ^ 64 - chunk_info_size) % 2 ^ 64 = r.chunk := by
    have := (ha.chunk_pos hr).2
    unfold Block.full Block.ptr chunk_info_size at *
    dsimp only at *
    omega
  by_cases hs : size ≥ 0xa0
  · rw [free, hchunk, hsize, if_pos hs, head_large _ hs, head_large _ hs]
    refine ⟨rfl, rfl, rfl, rfl, fun b _ hne => ?_⟩
    have hb : binOf size = 11 := by rw [binOf, if_neg (by omega)]
    rw [hb] at hne
    rw [Heap.head, Heap.head, if_neg hne, if_neg hne]
  · have hs' : size < 0xa0 := by omega
    rw [free, hchunk, hsize, if_neg hs, head_small _ hs', head_small _ hs']
    refine ⟨rfl, rfl, rfl, Function.update_self .., fun b _ hne => ?_⟩
    have hb : binOf size = size / 0xF := by rw [binOf, if_pos hs']
    rw [hb] at hne
    rw [Heap.head, Heap.head]
    split
    · rfl
    · exact Function.update_of_ne hne ..

/-- A live block is filed under the size that it was asked for. -/
theorem free_spec {l : Block} (ha : Arena s.heap s.pages s.cut) {L : ℕ → List ℕ}
    (hl : Lists s.heap L s.cut s.live) (hlm : l ∈ s.live) :
    (free s.heap l.ptr).kern = s.heap.kern.write l.chunk (s.heap.head (binOf l.size)) ∧
      (free s.heap l.ptr).p_start = s.heap.p_start ∧ (free s.heap l.ptr).p_end = s.heap.p_end ∧
      (free s.heap l.ptr).head (binOf l.size) = l.chunk ∧
      ∀ b ≤ 11, b ≠ binOf l.size → (free s.heap l.ptr).head b = s.heap.head b := by
  obtain ⟨⟨r, hr, he⟩, hsize⟩ := hl.live_cut l hlm
  have hptr : l.ptr = r.ptr := by rw [Block.ptr, Block.ptr, he]
  rw [hptr, ← he]
  exact free_files ha hr (he ▸ hsize)

theorem Inv.free (h : Inv s) (hs : step s (.free ptr) = some s') :
    Inv s' ∧ (RoomOk s → RoomOk s') := by
  simp only [step] at hs
  split at hs
  · next hptr =>
    obtain ⟨l, hlm, rfl⟩ := hptr
    obtain rfl := Option.some.inj hs
    obtain ⟨ha, L, hl, hfreed⟩ := h
    obtain ⟨hk, hps, hpe, hhead, hother⟩ := free_spec ha hl hlm
    have hb := binOf_le l.size
    have hmem : (Stdlib.free s.heap l.ptr).kern.mem =
        s.heap.kern.mem.store64 l.chunk (s.heap.head (binOf l.size)) := by rw [hk, write_mem]
    have hlists := hl.push ha hlm hhead hother hmem (head_lt ha hl hb)
    have harena : Arena (Stdlib.free s.heap l.ptr) s.pages s.cut :=
      ha.congr (by rw [hk, write_pages]) hps hpe
    refine ⟨⟨harena,
      Function.update L (binOf l.size) (l.chunk :: L (binOf l.size)), hlists, fun x => ?_⟩,
      fun hroom b hbm => hroom b (List.mem_filter.mp hbm).1⟩
    rw [List.mem_cons, hfreed, Block.ptr, Nat.add_sub_cancel]
    constructor
    · rintro (rfl | ⟨b, hb', hx⟩)
      · exact ⟨_, hb, by rw [Function.update_self]; exact List.mem_cons_self⟩
      · refine ⟨b, hb', ?_⟩
        by_cases he : b = binOf l.size
        · subst he
          rw [Function.update_self]
          exact List.mem_cons_of_mem _ hx
        · rwa [Function.update_of_ne he]
    · rintro ⟨b, hb', hx⟩
      by_cases he : b = binOf l.size
      · subst he
        rw [Function.update_self, List.mem_cons] at hx
        exact hx.imp_right fun hx => ⟨_, hb', hx⟩
      · rw [Function.update_of_ne he] at hx
        exact .inr ⟨b, hb', hx⟩
  · cases hs

/-- A client's write inside its block meets no header, if the block has room. -/
theorem Inv.write {x : ℕ} {c : UInt8} (h : Inv s) (hroom : RoomOk s)
    (hs : step s (.write x c) = some s') : Inv s' ∧ RoomOk s' := by
  simp only [step] at hs
  split at hs
  · next hx =>
    obtain ⟨l, hlm, hlo, hhi⟩ := hx
    obtain rfl := Option.some.inj hs
    obtain ⟨ha, L, hl, hfreed⟩ := h
    obtain ⟨⟨r, hr, he⟩, -⟩ := hl.live_cut l hlm
    have hle := hroom l hlm r hr he
    have hsame : SameHeaders s.cut s.heap.kern.mem (s.heap.kern.mem.poke x c) :=
      ha.sameHeaders_data hr fun y hy => by
        rw [Mem.poke, if_neg]
        rintro rfl
        refine hy ?_
        unfold Block.ptr at *
        omega
    exact ⟨⟨ha.congr rfl rfl rfl, L, hl.congr hsame fun _ _ => rfl, hfreed⟩, hroom⟩
  · cases hs

/-! ## Runs -/

theorem Inv.init {k : Kern} (hf : Fresh k []) : Inv (init k) ∧ RoomOk (init k) := by
  refine ⟨⟨⟨hf.nodup, hf.kpage, ⟨rfl, rfl⟩, fun r hr => absurd hr List.not_mem_nil,
    List.Pairwise.nil⟩, fun _ => [], ⟨fun b _ => ?_, fun b _ c hc => absurd hc List.not_mem_nil,
    List.nodup_nil, fun l hl => absurd hl List.not_mem_nil,
    fun r hr => absurd hr List.not_mem_nil⟩, fun c => ?_⟩, fun b hb => absurd hb List.not_mem_nil⟩
  · show (if b = 11 then 0 else 0) = 0
    rw [ite_self]
  · simp [HeapRuns.init]

/-- In a run of calls clear of the slip in the search. -/
theorem Inv.of_calls {k : Kern} (hf : Fresh k []) (hcall : ∀ e ∈ es, e.IsCall)
    (hok : Meets step ListsClear (HeapRuns.init k) es)
    (hrun : run step (HeapRuns.init k) es = some s) : Inv s := by
  have hcalls : Meets step (fun _ e => e.IsCall) (HeapRuns.init k) es :=
    .of_forall_mem fun e he _ => hcall e he
  refine run_invariant (fun s e => e.IsCall ∧ ListsClear s e) Inv
    (fun s e s' hs he hstep => ?_) (Inv.init hf).1 (hcalls.and hok) hrun
  cases e with
  | malloc size => exact (hs.malloc he.2.1 he.2.2 hstep).1
  | free ptr => exact (hs.free hstep).1
  | write x c => exact absurd he.1 id

/-- In a run clear of both slips. -/
theorem Inv.of_run {k : Kern} (hf : Fresh k [])
    (hok : Meets step BlocksClear (HeapRuns.init k) es)
    (hrun : run step (HeapRuns.init k) es = some s) : Inv s ∧ RoomOk s := by
  refine run_invariant BlocksClear (fun s => Inv s ∧ RoomOk s) (fun s e s' hs he hstep => ?_)
    (Inv.init hf) hok hrun
  cases e with
  | malloc size =>
    obtain ⟨hinv, hroom⟩ := hs.1.malloc he.1 he.2.1 hstep
    exact ⟨hinv, hroom hs.2 he.2.2⟩
  | free ptr =>
    obtain ⟨hinv, hroom⟩ := hs.1.free hstep
    exact ⟨hinv, hroom hs.2⟩
  | write x c => exact hs.1.write hs.2 hstep

/-- What the invariant says about the blocks. -/
theorem Inv.blocksOk (h : Inv s) (hroom : RoomOk s) : BlocksOk s := by
  obtain ⟨ha, L, hl, -⟩ := h
  have hcut : ∀ b ∈ s.live, ∃ r ∈ s.cut, r.chunk = b.chunk ∧ b.size ≤ room r.size := by
    intro b hb
    obtain ⟨⟨r, hr, he⟩, -⟩ := hl.live_cut b hb
    exact ⟨r, hr, he, hroom b hb r hr he⟩
  refine ⟨?_, fun b hb => ?_⟩
  · have hnd : s.live.Pairwise fun b b' => b.chunk ≠ b'.chunk := List.pairwise_map.mp hl.live_nodup
    refine hnd.imp_of_mem fun {b b'} hb hb' hne => ?_
    obtain ⟨r, hr, he, hle⟩ := hcut b hb
    obtain ⟨r', hr', he', hle'⟩ := hcut b' hb'
    refine ((ha.eq_or_apart hr hr').resolve_left fun e => hne ?_).mono he.symm he'.symm hle hle'
    rw [← he, ← he', e]
  · obtain ⟨r, hr, he, hle⟩ := hcut b hb
    obtain ⟨P, hP, ⟨hlo, hhi⟩, -⟩ := ha.inPage r hr
    refine ⟨P, hP, ?_⟩
    unfold Block.full Block.ptr at *
    unfold Block.In Block.ptr
    dsimp only at *
    omega

/-- What the invariant says about the free lists. -/
theorem Inv.freeListsOk (h : Inv s) : FreeListsOk s := by
  obtain ⟨-, L, hl, hfreed⟩ := h
  have hmem : ∀ c, c ∈ (List.range 12).flatMap L ↔ ∃ b ≤ 11, c ∈ L b := by
    intro c
    simp only [List.mem_flatMap, List.mem_range]
    exact exists_congr fun b => and_congr_left fun _ => by omega
  refine ⟨L, fun i hi => ?_, hl.chain 11 le_rfl, ?_, fun b hb hc => ?_, fun c hc => ?_⟩
  · have := hl.chain i (by omega)
    rwa [Heap.head, if_neg (by omega)] at this
  · refine List.nodup_flatMap.mpr ⟨fun b hb => ?_, ?_⟩
    · exact (hl.chain b (by have := List.mem_range.mp hb; omega)).nodup
    · refine List.nodup_range.imp_of_mem fun {b b'} hb hb' hne c hc hc' => hne ?_
      have hb := List.mem_range.mp hb
      have hb' := List.mem_range.mp hb'
      exact hl.eq_bin (by omega) (by omega) hc hc'
  · obtain ⟨b', hb', hx⟩ := (hmem b.chunk).mp hc
    exact (hl.listed b' hb' _ hx).2.2 b hb rfl
  · exact (hmem c).mpr ((hfreed c).mp hc)

/-! ## Main results -/

/-- A heap page for the examples. -/
def onePage : Kern := ⟨fun _ => 0, [0x9000000080000000]⟩

theorem onePage_fresh : Fresh onePage [] := by
  refine ⟨by decide, fun p hp => ?_⟩
  rw [onePage] at hp
  rw [List.mem_singleton.mp hp]
  exact ⟨⟨0x80000000, by norm_num, by norm_num, by decide⟩, by norm_num⟩

/-- **The free lists stay whole** in a run of calls whose requests do not wrap
and find a fitting large chunk only at the head of the unsorted bin. -/
theorem malloc_free_lists {k : Kern} (hf : Fresh k []) (hcall : ∀ e ∈ es, e.IsCall)
    (hok : Meets step ListsClear (HeapRuns.init k) es)
    (hrun : run step (HeapRuns.init k) es = some s) : FreeListsOk s :=
  (Inv.of_calls hf hcall hok hrun).freeListsOk

/-- Two large chunks, of which the one that fits is at the head. -/
theorem malloc_free_lists_head :
    ∃ s, run step (HeapRuns.init onePage) [.malloc 200, .malloc 400, .free 0x90000000800000E8,
        .free 0x9000000080000010, .malloc 200] = some s ∧ FreeListsOk s := by
  have heval : (run step (HeapRuns.init onePage) [.malloc 200, .malloc 400,
      .free 0x90000000800000E8, .free 0x9000000080000010, .malloc 200]).isSome := by
    decide +kernel
  obtain ⟨s, hs⟩ := Option.isSome_iff_exists.mp heval
  refine ⟨s, hs, malloc_free_lists onePage_fresh (fun e he => ?_) (by decide +kernel) hs⟩
  simp only [List.mem_cons, List.not_mem_nil, or_false] at he
  rcases he with rfl | rfl | rfl | rfl | rfl <;> trivial

/-- Freed in the other order, the chunk that fits is the second one. The list
loses its head instead, and the chunk that is live again stays in it. -/
theorem malloc_free_lists_broken :
    ∃ s, run step (HeapRuns.init onePage) [.malloc 200, .malloc 400, .free 0x9000000080000010,
        .free 0x90000000800000E8, .malloc 200] = some s ∧ ¬ FreeListsOk s := by
  have heval : (run step (HeapRuns.init onePage) [.malloc 200, .malloc 400,
      .free 0x9000000080000010, .free 0x90000000800000E8, .malloc 200]).map
      (fun s => (s.heap.unsorted_bin, s.live))
      = some (0x9000000080000000, [⟨0x9000000080000000, 200⟩]) := by decide +kernel
  obtain ⟨s, hs, he⟩ := Option.map_eq_some_iff.mp heval
  obtain ⟨hbin, hlive⟩ := Prod.mk.inj he
  refine ⟨s, hs, ?_⟩
  rintro ⟨L, -, hchain, -, hfree, -⟩
  rw [hbin] at hchain
  obtain ⟨t, hL, -⟩ := Chain.eq_cons hchain (by norm_num)
  refine hfree ⟨0x9000000080000000, 200⟩ (by rw [hlive]; exact List.mem_cons_self) ?_
  exact List.mem_flatMap.mpr ⟨11, by simp, by rw [hL]; exact List.mem_cons_self⟩

end Loos.HeapRuns
