/-
The alignment of `malloc`'s chunks, over all runs of calls.

`apply_alloc` cuts a chunk where the last one ends. A small request is rounded up to a multiple
of 16 before it is cut and a request from `0xa0` bytes on is not, so a chunk is where the sizes
of the large requests cut from its page so far put it ([`Inv.bump`]). A chunk that is recycled
is one that was cut ([`Filed`]), even where the search of the unsorted bin unlinks the wrong
chunk, and where a pointer is freed twice.
-/
import Loos.HeapRuns

set_option autoImplicit false

namespace Loos.HeapAlign

open SysLib Kern Stdlib

/-! ## Runs -/

/-- The allocator, the chunks cut so far and the pages taken, the pointers that `malloc`
returned, and the sum of the large requests cut from the newest page. -/
structure Sys where
  heap : Heap
  cut : List Block
  pages : List ℕ
  returned : List ℕ
  unrounded : ℕ

/-- Before the first call. -/
def init (k : Kern) : Sys := ⟨Heap.init k, [], [], [], 0⟩

/-- A call of `malloc`, or of `free` with a pointer that `malloc` returned at some time. -/
inductive Event where
  | malloc (size : ℕ)
  | free (ptr : ℕ)

/-- `malloc` finds no chunk for the request. -/
def Cuts (h : Heap) (size : ℕ) : Prop :=
  (size < 0xa0 → h.fastbin (size / 0xF) = 0) ∧
    (0xa0 ≤ size → (search h.kern.mem size 100 h.unsorted_bin).1 = 0 ∨
      ¬ fits h.kern.mem size (search h.kern.mem size 100 h.unsorted_bin).1)

/-- The rest of the newest page has room for the request and its header. -/
def SamePage (h : Heap) (size : ℕ) : Prop :=
  h.p_start + (room size + chunk_info_size) < h.p_end

instance (h : Heap) (size : ℕ) : Decidable (Cuts h size) :=
  inferInstanceAs (Decidable ((_ → _) ∧ (_ → _ ∨ _)))

instance (h : Heap) (size : ℕ) : Decidable (SamePage h size) :=
  inferInstanceAs (Decidable (_ < _))

/-- What the request adds to the large requests of its page. -/
def large (size : ℕ) : ℕ := if size ≥ 0xa0 then size else 0

/-- The state after `malloc` returned `p` for `size` bytes. -/
def Sys.allocated (s : Sys) (h : Heap) (p size : ℕ) : Sys :=
  { heap := h
    cut := if Cuts s.heap size then ⟨p - chunk_info_size, size⟩ :: s.cut else s.cut
    pages := taken s.heap.kern h.kern ++ s.pages
    returned := p :: s.returned
    unrounded := if Cuts s.heap size then
        (if SamePage s.heap size then s.unrounded else 0) + large size
      else s.unrounded }

/-- The step function; a request has at most a page less the header. -/
def step (s : Sys) : Event → Option Sys
  | .malloc size =>
    if size + chunk_info_size ≤ PG_SIZE then
      (malloc s.heap size).map fun r => s.allocated r.2 r.1 size
    else none
  | .free ptr => if ptr ∈ s.returned then some { s with heap := free s.heap ptr } else none

/-- Every chunk, in use or in a list, and every pointer that was returned is at a multiple of
8. -/
structure Aligned (s : Sys) : Prop where
  cut : ∀ b ∈ s.cut, b.chunk % 8 = 0
  listed : ∀ b ≤ 11, ∀ i, HeapRuns.nth s.heap.kern.mem (s.heap.head b) i % 8 = 0
  returned : ∀ p ∈ s.returned, p % 8 = 0

/-- Where a chunk is cut behind others, the large requests cut from the page before it add up
to a multiple of 8. -/
def Clear (s : Sys) : Event → Prop
  | .malloc size => Cuts s.heap size → SamePage s.heap size → s.unrounded % 8 = 0
  | .free _ => True

instance (s : Sys) : ∀ e, Decidable (Clear s e)
  | .malloc size =>
    inferInstanceAs (Decidable (Cuts s.heap size → SamePage s.heap size → s.unrounded % 8 = 0))
  | .free _ => .isTrue trivial

/-! ## The lists -/

/-- The chunks of `F` are linked among themselves, and every list begins at one of them. -/
structure Filed (h : Heap) (F : Set ℕ) : Prop where
  head : ∀ b ≤ 11, h.head b = 0 ∨ h.head b ∈ F
  next : ∀ c ∈ F, next h.kern.mem c = 0 ∨ next h.kern.mem c ∈ F

/-- What holds in every state: the lists are made of chunks that were cut, and the cursor is
where the large requests put it. -/
structure Inv (s : Sys) : Prop where
  arena : Arena s.heap s.pages s.cut
  filed : ∃ F, Filed s.heap F ∧ ∀ c ∈ F, ∃ r ∈ s.cut, r.chunk = c
  returned : ∀ p ∈ s.returned, ∃ r ∈ s.cut, p = r.ptr
  bump : s.heap.p_start % 8 = s.unrounded % 8

variable {h h' : Heap} {F : Set ℕ} {size p c n : ℕ} {s s' : Sys} {e : Event} {es : List Event}
  {pages : List ℕ} {cut : List Block} {k : Kern}

/-- Every chunk of a list is one of `F`. -/
theorem nth_filed {m : Mem} (hnext : ∀ c ∈ F, next m c = 0 ∨ next m c ∈ F) (hc : c = 0 ∨ c ∈ F)
    (i : ℕ) : HeapRuns.nth m c i = 0 ∨ HeapRuns.nth m c i ∈ F := by
  induction i generalizing c with
  | zero => exact hc
  | succ i ih =>
    rw [HeapRuns.nth]
    split
    · exact .inl rfl
    · next h0 => exact ih (hnext c (hc.resolve_left h0))

/-- Where the search ends, and whether it began at a chunk. -/
theorem search_filed {m : Mem} (size n : ℕ) (hnext : ∀ c ∈ F, next m c = 0 ∨ next m c ∈ F)
    (hc : c = 0 ∨ c ∈ F) :
    ((search m size n c).1 = 0 ∨ (search m size n c).1 ∈ F) ∧
      ((search m size n c).2 = true → c ∈ F) := by
  induction n generalizing c with
  | zero => exact ⟨hc, by simp [search]⟩
  | succ n ih =>
    rw [search]
    split_ifs with h0 hfit
    · exact ⟨.inl rfl, by simp⟩
    · exact ⟨hc, fun _ => hc.resolve_left h0⟩
    · have hin := hc.resolve_left h0
      exact ⟨(ih (hnext c hin)).1, fun _ => hin⟩

/-- A search that unlinks has found a chunk that fits. -/
theorem search_found {m : Mem} (h : (search m size n c).2 = true) :
    (search m size n c).1 ≠ 0 ∧ fits m size (search m size n c).1 := by
  induction n generalizing c with
  | zero => simp [search] at h
  | succ n ih =>
    rw [search] at h ⊢
    split_ifs at h ⊢ with h0 hfit
    · exact ⟨h0, hfit⟩
    · exact ih h

/-! ## What `malloc` does -/

/-- `malloc` where it has to cut a chunk. -/
theorem malloc_of_cuts (hcuts : Cuts h size) (hsize : size + chunk_info_size ≤ PG_SIZE) :
    malloc h size = (apply_alloc h (room size + chunk_info_size)).map fun r =>
      if r.1 = 0 then (0, r.2)
      else (r.1 + chunk_info_size, { r.2 with kern := r.2.kern.write (r.1 + 8) size }) := by
  by_cases hs : 0xa0 ≤ size
  · have hmiss := hcuts.2 hs
    have hkept : (search h.kern.mem size 100 h.unsorted_bin).2 = false := by
      rw [Bool.eq_false_iff]
      intro hfound
      exact hmiss.elim (search_found hfound).1 fun hno => hno (search_found hfound).2
    have hroom : (size + chunk_info_size) % 2 ^ 64 = room size + chunk_info_size := by
      rw [room, if_neg (by omega), Nat.mod_eq_of_lt (lt_of_le_of_lt hsize (by norm_num))]
    rw [malloc, if_pos hs, large_chunk, hkept]
    simp only [Bool.false_eq_true, if_false]
    rw [if_pos hmiss, hroom]
  · rw [malloc, if_neg hs, HeapRuns.small_chunk_eq (by omega), if_neg]
    exact not_not.mpr (hcuts.1 (by omega))

/-- The unsorted bin without its first chunk, or the fastbin without it. -/
theorem Filed.popped (hf : Filed h F) (hhead : h.head (binOf size) ∈ F) :
    ∀ b ≤ 11, (HeapRuns.popped h size).head b = 0 ∨ (HeapRuns.popped h size).head b ∈ F := by
  obtain ⟨hown, hother⟩ := HeapRuns.popped_head h size
  intro b hb
  by_cases he : b = binOf size
  · rw [he, hown]
    exact hf.next _ hhead
  · rw [hother b hb he]
    exact hf.head b hb

/-- A large request that finds a chunk; the list is left as it is, or loses its head. -/
theorem large_chunk_of_not_cuts (hf : Filed h F) (hs : 0xa0 ≤ size) (hcuts : ¬ Cuts h size) :
    ∃ c h₁, c ∈ F ∧ c ≠ 0 ∧ large_chunk h size = some (c, h₁) ∧
      (h₁ = h ∨ h₁ = HeapRuns.popped h size ∧ h.head (binOf size) ∈ F) := by
  have hhit : ¬ ((search h.kern.mem size 100 h.unsorted_bin).1 = 0 ∨
      ¬ fits h.kern.mem size (search h.kern.mem size 100 h.unsorted_bin).1) := fun hmiss =>
    hcuts ⟨fun hlt => absurd hs (by omega), fun _ => hmiss⟩
  have h11 := hf.head 11 (le_refl _)
  rw [← show binOf size = 11 by rw [binOf, if_neg (by omega)], head_large _ hs] at h11
  obtain ⟨hin, hbegan⟩ := search_filed size 100 hf.next h11
  have hne := fun h0 => hhit (.inl h0)
  rw [head_large _ hs, HeapRuns.popped, if_pos hs]
  cases hfound : (search h.kern.mem size 100 h.unsorted_bin).2 with
  | false =>
    refine ⟨_, h, hin.resolve_left hne, hne, ?_, .inl rfl⟩
    rw [large_chunk, hfound]
    simp only [Bool.false_eq_true, if_false]
    rw [if_neg hhit]
  | true =>
    refine ⟨_, _, hin.resolve_left hne, hne, ?_, .inr ⟨rfl, hbegan hfound⟩⟩
    rw [large_chunk, hfound]
    simp only [if_true]
    rw [if_neg hhit]

/-- `malloc` where it recycles a chunk: only a head moves, to another chunk of the lists. -/
theorem malloc_of_not_cuts (hf : Filed h F) (hcuts : ¬ Cuts h size) :
    ∃ c h', c ∈ F ∧ malloc h size = some (c + chunk_info_size, h') ∧
      h'.kern = h.kern.write (c + 8) size ∧ h'.p_start = h.p_start ∧ h'.p_end = h.p_end ∧
      ∀ b ≤ 11, h'.head b = 0 ∨ h'.head b ∈ F := by
  obtain ⟨hkern, hps, hpe⟩ := HeapRuns.popped_same h size
  by_cases hs : 0xa0 ≤ size
  · obtain ⟨c, h₁, hc, h0, hlarge, hh₁⟩ := large_chunk_of_not_cuts hf hs hcuts
    refine ⟨c, { h₁ with kern := h₁.kern.write (c + 8) size }, hc, ?_, ?_⟩
    · rw [malloc, if_pos hs, hlarge, Option.map_some, if_neg h0]
    · rcases hh₁ with rfl | ⟨rfl, hhead⟩
      · exact ⟨rfl, rfl, rfl, hf.head⟩
      · exact ⟨congrArg (fun k : Kern => k.write (c + 8) size) hkern, hps, hpe, hf.popped hhead⟩
  · have h0 : h.fastbin (size / 0xF) ≠ 0 := fun h0 =>
      hcuts ⟨fun _ => h0, fun hle => absurd hle hs⟩
    have hhead := head_small h (show size < 0xa0 by omega)
    have hin : h.head (binOf size) ∈ F :=
      (hf.head _ (binOf_le size)).resolve_left fun hz => h0 (hhead ▸ hz)
    refine ⟨h.head (binOf size), { HeapRuns.popped h size with
      kern := h.kern.write (h.head (binOf size) + 8) size }, hin, ?_, rfl, hps, hpe,
      hf.popped hin⟩
    rw [malloc, if_neg hs, HeapRuns.small_chunk_eq (by omega), if_pos h0, Option.map_some,
      if_neg h0, hhead, HeapRuns.popped, if_neg hs]

/-! ## One call -/

/-- The chunks that were cut are at multiples of 8. -/
def CutAligned (s : Sys) : Prop := ∀ b ∈ s.cut, b.chunk % 8 = 0

/-- The lists and the pointers are those of chunks that were cut. -/
theorem Inv.aligned_iff (h : Inv s) : Aligned s ↔ CutAligned s := by
  obtain ⟨-, ⟨F, hf, hF⟩, hret, -⟩ := h
  refine ⟨Aligned.cut, fun hcut => ⟨hcut, fun b hb i => ?_, fun p hp => ?_⟩⟩
  · rcases nth_filed hf.next (hf.head b hb) i with h0 | hin
    · rw [h0]
    · obtain ⟨r, hr, he⟩ := hF _ hin
      rw [← he]
      exact hcut r hr
  · obtain ⟨r, hr, rfl⟩ := hret p hp
    have := hcut r hr
    unfold Block.ptr chunk_info_size
    omega

theorem room_mod (size : ℕ) : room size % 8 = large size % 8 := by
  unfold room large
  split_ifs <;> omega

/-- Where `apply_alloc` cuts, and where the next chunk of the page will be. -/
theorem cut_at {h₁ : Heap} (ha : Arena h pages cut)
    (hc : apply_alloc h (room size + chunk_info_size) = some (c, h₁)) :
    (SamePage h size → c = h.p_start) ∧ (¬ SamePage h size → c % 8 = 0) ∧
      h₁.p_start = c + (room size + chunk_info_size) := by
  rw [apply_alloc] at hc
  split_ifs at hc with hbig hfull
  · obtain ⟨⟨P, k⟩, hk, he⟩ := Option.map_eq_some_iff.mp hc
    obtain ⟨rfl, rfl⟩ := Prod.mk.inj he
    have hP : KPage P := ha.kpage P <| by
      rw [(kmalloc_eq_some hk).1]
      exact List.mem_append_right _ List.mem_cons_self
    have haligned := hP.aligned
    refine ⟨fun hsame => absurd hsame (by unfold SamePage; omega), fun _ => ?_, rfl⟩
    unfold PGSIZE at haligned
    dsimp only
    omega
  · obtain ⟨rfl, rfl⟩ := Prod.mk.inj (Option.some.inj hc)
    exact ⟨fun _ => rfl, fun hnew => absurd hnew (by unfold SamePage; omega), rfl⟩

/-- **A chunk is cut.** -/
theorem Inv.cut_new {h₁ : Heap} (h : Inv s) (hsize : size < 2 ^ 64) (hcuts : Cuts s.heap size)
    (hc : apply_alloc s.heap (room size + chunk_info_size) = some (c, h₁)) :
    let s' := s.allocated { h₁ with kern := h₁.kern.write (c + 8) size } (c + chunk_info_size) size
    c ≠ 0 ∧ Inv s' ∧ (CutAligned s' ↔ CutAligned s ∧ Clear s (.malloc size)) := by
  intro s'
  obtain ⟨ha, ⟨F, hf, hF⟩, hret, hbump⟩ := h
  obtain ⟨ha₁, hfast, hunsorted, hsame⟩ := ha.apply_alloc_spec hc
  obtain ⟨hbehind, hfresh, hcursor⟩ := cut_at ha hc
  obtain ⟨-, hnext, -⟩ := size_written ha₁ ⟨_, List.mem_cons_self, rfl⟩ hsize h₁.kern.mem
  have hcut : s'.cut = ⟨c, size⟩ :: s.cut := by
    dsimp only [s', Sys.allocated]
    rw [if_pos hcuts, Nat.add_sub_cancel]
  have hunrounded : s'.unrounded =
      (if SamePage s.heap size then s.unrounded else 0) + large size := if_pos hcuts
  -- the remainder of the chunk's address
  have hplace : c % 8 = (if SamePage s.heap size then s.unrounded else 0) % 8 := by
    split_ifs with hpage
    · rw [hbehind hpage, hbump]
    · rw [hfresh hpage]
  refine ⟨Nat.pos_iff_ne_zero.mp (ha₁.chunk_pos List.mem_cons_self).1,
    ⟨?_, ⟨F, ⟨?_, ?_⟩, ?_⟩, ?_, ?_⟩, ?_⟩
  · rw [hcut]
    exact ha₁.congr rfl rfl rfl
  · have hhead : ∀ b, s'.heap.head b = s.heap.head b := by
      intro b
      dsimp only [s', Sys.allocated, Heap.head]
      rw [hfast, hunsorted]
    intro b hb
    rw [hhead b]
    exact hf.head b hb
  · intro x hx
    obtain ⟨r, hr, rfl⟩ := hF x hx
    have hlink : next s'.heap.kern.mem r.chunk = next s.heap.kern.mem r.chunk :=
      (hnext r (List.mem_cons_of_mem _ hr)).trans (hsame.next hr)
    rw [hlink]
    exact hf.next _ hx
  · intro x hx
    obtain ⟨r, hr, he⟩ := hF x hx
    rw [hcut]
    exact ⟨r, List.mem_cons_of_mem _ hr, he⟩
  · intro p hp
    rw [hcut]
    rcases List.mem_cons.mp hp with rfl | hp
    · exact ⟨_, List.mem_cons_self, rfl⟩
    · obtain ⟨r, hr, he⟩ := hret p hp
      exact ⟨r, List.mem_cons_of_mem _ hr, he⟩
  · have hroom := room_mod size
    have hend : s'.heap.p_start = c + (room size + chunk_info_size) := hcursor
    rw [hend, hunrounded]
    unfold chunk_info_size
    omega
  · rw [CutAligned, hcut, List.forall_mem_cons, hplace, and_comm]
    refine and_congr_right fun _ => ?_
    rw [Clear, forall_prop_of_true hcuts]
    split_ifs with hpage
    · rw [forall_prop_of_true hpage]
    · exact ⟨fun _ hsame => absurd hsame hpage, fun _ => rfl⟩

/-- **A chunk is recycled.** -/
theorem Inv.recycle (h : Inv s) (hsize : size < 2 ^ 64) (hcuts : ¬ Cuts s.heap size)
    (hm : malloc s.heap size = some (p, h')) : Inv (s.allocated h' p size) ∧
      (CutAligned (s.allocated h' p size) ↔ CutAligned s ∧ Clear s (.malloc size)) := by
  obtain ⟨ha, ⟨F, hf, hF⟩, hret, hbump⟩ := h
  obtain ⟨c, h'', hc, hm', hkern, hps, hpe, hhead⟩ := malloc_of_not_cuts hf hcuts
  obtain ⟨rfl, rfl⟩ := Prod.mk.inj (Option.some.inj (hm.symm.trans hm'))
  obtain ⟨r, hr, rfl⟩ := hF c hc
  obtain ⟨-, hnext, -⟩ := size_written ha ⟨r, hr, rfl⟩ hsize s.heap.kern.mem
  have hcut : (s.allocated h' (r.chunk + chunk_info_size) size).cut = s.cut := if_neg hcuts
  have hpages : (s.allocated h' (r.chunk + chunk_info_size) size).pages = s.pages := by
    have htaken : taken s.heap.kern h'.kern = [] := taken_eq (N := []) (by rw [hkern]; rfl)
    dsimp only [Sys.allocated]
    rw [htaken, List.nil_append]
  refine ⟨⟨?_, ⟨F, ⟨hhead, ?_⟩, ?_⟩, ?_, ?_⟩, ?_⟩
  · rw [hcut, hpages]
    exact ha.congr (by rw [show (s.allocated h' _ size).heap = h' from rfl, hkern]; rfl) hps hpe
  · intro x hx
    obtain ⟨r', hr', rfl⟩ := hF x hx
    have hlink : next h'.kern.mem r'.chunk = next s.heap.kern.mem r'.chunk := by
      rw [hkern]
      exact hnext r' hr'
    dsimp only [Sys.allocated]
    rw [hlink]
    exact hf.next _ hx
  · rw [hcut]
    exact hF
  · intro p hp
    rw [hcut]
    rcases List.mem_cons.mp hp with rfl | hp
    · exact ⟨r, hr, rfl⟩
    · exact hret p hp
  · have hsum : (s.allocated h' (r.chunk + chunk_info_size) size).unrounded = s.unrounded :=
      if_neg hcuts
    rw [hsum, ← hbump]
    exact congrArg (· % 8) hps
  · rw [CutAligned, hcut]
    exact (and_iff_left fun hyes => absurd hyes hcuts).symm

theorem Inv.malloc (h : Inv s) (hs : step s (.malloc size) = some s') :
    Inv s' ∧ (CutAligned s' ↔ CutAligned s ∧ Clear s (.malloc size)) := by
  obtain ⟨hsize, hs⟩ := Option.ite_none_right_eq_some.mp hs
  obtain ⟨⟨p, h'⟩, hm, rfl⟩ := Option.map_eq_some_iff.mp hs
  have hlt : size < 2 ^ 64 := by
    unfold PG_SIZE PGSIZE at hsize
    omega
  by_cases hcuts : Cuts s.heap size
  · have hm' := hm
    rw [malloc_of_cuts hcuts hsize] at hm'
    obtain ⟨⟨c, h₁⟩, hc, he⟩ := Option.map_eq_some_iff.mp hm'
    obtain ⟨h0, hinv, hiff⟩ := h.cut_new hlt hcuts hc
    dsimp only at he
    rw [if_neg h0] at he
    obtain ⟨rfl, rfl⟩ := Prod.mk.inj he
    exact ⟨hinv, hiff⟩
  · exact h.recycle hlt hcuts hm

/-- A chunk is filed in a list, again perhaps. -/
theorem Inv.free {ptr : ℕ} (h : Inv s) (hs : step s (.free ptr) = some s') :
    Inv s' ∧ (CutAligned s' ↔ CutAligned s ∧ Clear s (.free ptr)) := by
  obtain ⟨hptr, hs⟩ := Option.ite_none_right_eq_some.mp hs
  obtain rfl := Option.some.inj hs
  obtain ⟨ha, ⟨F, hf, hF⟩, hret, hbump⟩ := h
  obtain ⟨r, hr, rfl⟩ := hret ptr hptr
  have hb := binOf_le (chunkSize s.heap.kern.mem r.chunk)
  obtain ⟨hkern, hps, hpe, hown, hother⟩ := HeapRuns.free_files ha hr rfl
  have hword : s.heap.head (binOf (chunkSize s.heap.kern.mem r.chunk)) < 2 ^ 64 := by
    rcases hf.head _ hb with h0 | hin
    · rw [h0]
      norm_num
    · obtain ⟨r', hr', he⟩ := hF _ hin
      rw [← he]
      exact ha.chunk_lt hr'
  obtain ⟨hlink, -, hlinks⟩ := next_written ha ⟨r, hr, rfl⟩ hword s.heap.kern.mem
  refine ⟨⟨?_, ⟨insert r.chunk F, ⟨fun b hb' => ?_, fun x hx => ?_⟩, fun x hx => ?_⟩, hret, ?_⟩,
    (and_iff_left trivial).symm⟩
  · exact ha.congr (by rw [hkern]; rfl) hps hpe
  · by_cases he : b = binOf (chunkSize s.heap.kern.mem r.chunk)
    · rw [he, hown]
      exact .inr (Set.mem_insert _ _)
    · rw [hother b hb' he]
      exact (hf.head b hb').imp_right (Set.mem_insert_of_mem _)
  · rw [hkern, write_mem]
    by_cases he : x = r.chunk
    · rw [he, hlink]
      exact (hf.head _ hb).imp_right (Set.mem_insert_of_mem _)
    · have hx := Set.mem_of_mem_insert_of_ne hx he
      obtain ⟨r', hr', rfl⟩ := hF x hx
      rw [hlinks r' hr' he]
      exact (hf.next _ hx).imp_right (Set.mem_insert_of_mem _)
  · rcases hx with rfl | hx
    · exact ⟨r, hr, rfl⟩
    · exact hF x hx
  · rw [hps]
    exact hbump

/-! ## The main result -/

theorem Inv.init (hf : Fresh k []) : Inv (init k) :=
  ⟨⟨hf.nodup, hf.kpage, ⟨rfl, rfl⟩, by simp [HeapAlign.init], List.Pairwise.nil⟩,
    ⟨∅, ⟨fun b _ => .inl (by simp [HeapAlign.init, Heap.init, Heap.head]), by simp⟩, by simp⟩,
    by simp [HeapAlign.init], rfl⟩

/-- **Alignment.** At the end of a run of calls every chunk and every pointer that was returned
is at a multiple of 8 exactly if, whenever a chunk was cut behind others, the large requests cut
from that page before it added up to a multiple of 8. -/
theorem heap_aligned_iff (hf : Fresh k []) (hrun : run step (init k) es = some s) :
    Aligned s ↔ Meets step Clear (init k) es := by
  have hinit := Inv.init hf
  have hstep : ∀ s e s', Inv s → step s e = some s' →
      Inv s' ∧ (CutAligned s' ↔ CutAligned s ∧ Clear s e) := by
    intro s e s' h hs
    cases e with
    | malloc size => exact h.malloc hs
    | free ptr => exact h.free hs
  have hinv : Inv s := run_invariant (fun _ _ => True) Inv
    (fun s e s' h _ hs => (hstep s e s' h hs).1) hinit (.of_forall_mem fun _ _ _ => trivial) hrun
  rw [hinv.aligned_iff, run_keeps_iff Inv CutAligned hstep hinit hrun]
  exact and_iff_right (by simp [CutAligned, HeapAlign.init])

/-- A chunk of 168 bytes is freed twice and serves two requests, one of 161 bytes. -/
theorem heap_aligned_reuse : ∃ s, run step (init HeapRuns.onePage) [.malloc 168, .malloc 24,
      .free 0x9000000080000010, .free 0x9000000080000010, .malloc 161, .malloc 1] = some s ∧
    s.returned.length = 4 ∧ Aligned s := by
  have heval : (run step (init HeapRuns.onePage) [.malloc 168, .malloc 24,
      .free 0x9000000080000010, .free 0x9000000080000010, .malloc 161, .malloc 1]).map
      (fun s => s.returned.length) = some 4 := by decide +kernel
  obtain ⟨s, hs, hlen⟩ := Option.map_eq_some_iff.mp heval
  exact ⟨s, hs, hlen, (heap_aligned_iff HeapRuns.onePage_fresh hs).mpr (by decide +kernel)⟩

/-- 161 bytes are not rounded, and the next chunk begins behind them. -/
theorem heap_unaligned : ∃ s, run step (init HeapRuns.onePage) [.malloc 161, .malloc 1] = some s ∧
    s.returned = [0x90000000800000C1, 0x9000000080000010] ∧ ¬ Aligned s := by
  have heval : (run step (init HeapRuns.onePage) [.malloc 161, .malloc 1]).map Sys.returned =
      some [0x90000000800000C1, 0x9000000080000010] := by decide +kernel
  obtain ⟨s, hs, hret⟩ := Option.map_eq_some_iff.mp heval
  refine ⟨s, hs, hret, fun haligned => ?_⟩
  have hptr := haligned.returned 0x90000000800000C1 (by rw [hret]; exact List.mem_cons_self)
  exact absurd hptr (by norm_num)

end Loos.HeapAlign
