/-
`malloc` and `free` as a client sees them.

The invariant of the allocator is about headers and free lists. A client only
wants to know that a call leaves the data of its live blocks alone ([`SameData`]),
that a new block is none of the old ones, and that it may write a word in a live
block. That is what this file takes from the invariant.
-/
import Loos.HeapRuns

set_option autoImplicit false

namespace Loos.HeapRuns

open SysLib Kern Stdlib

variable {s : Sys} {h' : Heap} {b b' : Block} {size p i j v x : ℕ}

/-- The data of the blocks is the same in both memories. -/
def SameData (live : List Block) (m m' : Mem) : Prop :=
  ∀ b ∈ live, ∀ x, b.ptr ≤ x → x < b.ptr + b.size → m' x = m x

/-- The allocator works, and every block has the room it was asked for. -/
structure Sound (s : Sys) : Prop where
  inv : Inv s
  room : RoomOk s

/-- The data of a live block is in no header. -/
theorem Sound.data_apart (h : Sound s) (hb : b ∈ s.live) (h1 : b.ptr ≤ x) (h2 : x < b.ptr + b.size)
    {r : Block} (hr : r ∈ s.cut) : x < r.chunk ∨ r.ptr ≤ x := by
  obtain ⟨ha, L, hl, -⟩ := h.inv
  obtain ⟨⟨r', hr', he⟩, -⟩ := hl.live_cut b hb
  have hle := h.room b hb r' hr' he
  rcases ha.eq_or_apart hr hr' with rfl | hap
  · unfold Block.ptr at *
    omega
  · unfold Block.Apart Block.ptr Block.full chunk_info_size at *
    dsimp only at *
    omega

/-- The data of a live block is in a page of the allocator. -/
theorem Sound.data_page (h : Sound s) (hb : b ∈ s.live) :
    ∃ P ∈ s.pages, P ≤ b.ptr ∧ b.ptr + b.size ≤ P + PG_SIZE := by
  obtain ⟨P, hP, hlo, hhi⟩ := (h.inv.blocksOk h.room).inPage b hb
  refine ⟨P, hP, ?_, hhi⟩
  unfold Block.ptr
  omega

/-- A write to the header of a chunk leaves all data alone. -/
theorem Sound.header_write (h : Sound s) {r : Block} (hr : r ∈ s.cut) {a : ℕ}
    (h1 : r.chunk ≤ a) (h2 : a + 8 ≤ r.ptr) (v : ℕ) :
    SameData s.live s.heap.kern.mem (s.heap.kern.mem.store64 a v) := by
  intro b hb x hx1 hx2
  apply Mem.store64_apply_of_disjoint
  have := h.data_apart hb hx1 hx2 hr
  omega

/-- `apply_alloc` writes to new pages only. -/
theorem Sound.apply_alloc_data (h : Sound s) {n c : ℕ}
    (hc : apply_alloc s.heap n = some (c, h')) :
    SameData s.live s.heap.kern.mem h'.kern.mem := by
  intro b hb x hx1 hx2
  rw [apply_alloc] at hc
  split_ifs at hc
  · obtain ⟨⟨P, k⟩, hk, he⟩ := Option.map_eq_some_iff.mp hc
    obtain ⟨-, rfl⟩ := Prod.mk.inj he
    obtain ⟨hpages, hmem⟩ := kmalloc_eq_some hk
    obtain ⟨Q, hQ, hlo, hhi⟩ := h.data_page hb
    have hnd := h.inv.arena.nodup
    have hP : P ∈ s.heap.kern.pages := by
      rw [hpages]
      exact List.mem_cons_self
    have hne : Q ≠ P := fun he => (List.nodup_append.mp hnd).2.2 Q hQ P hP he
    have hkQ := h.inv.arena.kpage Q (List.mem_append_left _ hQ)
    have hkP := h.inv.arena.kpage P (List.mem_append_right _ hP)
    have hd := Memblock.aligned_disjoint hkQ.aligned hkP.aligned hne
    dsimp only
    rw [hmem]
    apply Mem.fill_apply_of_disjoint
    unfold PG_SIZE at *
    omega
  · obtain ⟨-, rfl⟩ := Prod.mk.inj (Option.some.inj hc)
    rfl

/-- **`malloc` for a client.** The block is new, and the data of the others stays. -/
theorem Sound.malloc (h : Sound s) (hsize : SizeOk size) (hf : HeadFits s.heap size)
    (hr : RoundsAlike s size) (hm : Stdlib.malloc s.heap size = some (p, h')) :
    ∃ c, p = c + chunk_info_size ∧ Sound (s.allocated h' c size) ∧ (∀ b ∈ s.live, b.chunk ≠ c) ∧
      SameData s.live s.heap.kern.mem h'.kern.mem := by
  have hnew : ∀ c, Inv (s.allocated h' c size) → ∀ b ∈ s.live, b.chunk ≠ c := by
    rintro c hinv b hb he
    obtain ⟨-, L, hl, -⟩ := hinv
    have hdup := hl.live_nodup
    rw [Sys.allocated, List.map_cons, List.nodup_cons] at hdup
    exact hdup.1 (List.mem_map.mpr ⟨b, hb, he⟩)
  rcases malloc_eq hsize hf with ⟨hit, heq⟩ | ⟨-, heq⟩
  · -- a chunk is recycled: its header is written
    rw [heq] at hm
    obtain ⟨rfl, rfl⟩ := Prod.mk.inj (Option.some.inj hm)
    obtain ⟨hinv, hroom⟩ := h.inv.recycle hsize hit
    refine ⟨_, rfl, ⟨hinv, hroom h.room hr⟩, hnew _ hinv, ?_⟩
    obtain ⟨ha, L, hl, -⟩ := h.inv
    obtain ⟨t, hL, -⟩ := hl.head_mem (binOf_le size) hit.1
    obtain ⟨⟨r, hrc, he⟩, -⟩ := hl.listed _ (binOf_le size) (s.heap.head (binOf size))
      (by rw [hL]; exact List.mem_cons_self)
    rw [← he]
    exact h.header_write hrc (by omega) (by unfold Block.ptr chunk_info_size; omega) size
  · -- a chunk is cut behind the cursor or from a new page
    rw [heq] at hm
    obtain ⟨⟨c, h₁⟩, hc, he⟩ := Option.map_eq_some_iff.mp hm
    obtain ⟨h0, hinv, hroom⟩ := h.inv.cut_new hsize hc
    dsimp only at he
    rw [if_neg h0] at he
    obtain ⟨rfl, rfl⟩ := Prod.mk.inj he
    refine ⟨c, rfl, ⟨hinv, hroom h.room⟩, hnew c hinv, fun b hb x hx1 hx2 => ?_⟩
    rw [← h.apply_alloc_data hc b hb x hx1 hx2]
    apply Mem.store64_apply_of_disjoint
    have hsound : Sound _ := ⟨hinv, hroom h.room⟩
    have hcut : ∃ r ∈ (s.allocated { h₁ with kern := h₁.kern.write (c + 8) size } c size).cut,
        r.chunk = c := by
      obtain ⟨-, L, hl, -⟩ := hinv
      exact (hl.live_cut ⟨c, size⟩ List.mem_cons_self).1
    obtain ⟨r, hr, rfl⟩ := hcut
    have := hsound.data_apart (List.mem_cons_of_mem _ hb) hx1 hx2 hr
    unfold Block.ptr chunk_info_size at this
    omega

/-- **`free` for a client.** -/
theorem Sound.free (h : Sound s) (hb : b ∈ s.live) :
    Sound { s with
      heap := Stdlib.free s.heap b.ptr
      live := s.live.filter fun b' => decide (b'.ptr ≠ b.ptr)
      freed := (b.ptr - chunk_info_size) :: s.freed } ∧
    SameData s.live s.heap.kern.mem (Stdlib.free s.heap b.ptr).kern.mem := by
  have hstep : step s (.free b.ptr) = some _ := if_pos ⟨b, hb, rfl⟩
  obtain ⟨hinv, hroom⟩ := h.inv.free hstep
  refine ⟨⟨hinv, hroom h.room⟩, ?_⟩
  obtain ⟨ha, L, hl, -⟩ := h.inv
  obtain ⟨⟨r, hr, he⟩, -⟩ := hl.live_cut b hb
  rw [(free_spec ha hl hb).1, write_mem, ← he]
  exact h.header_write hr le_rfl (by unfold Block.ptr chunk_info_size; omega) _

/-- **A word written in a live block.** -/
theorem Sound.write (h : Sound s) (hb : b ∈ s.live) (h1 : b.ptr ≤ x) (h2 : x + 8 ≤ b.ptr + b.size)
    (v : ℕ) : Sound { s with heap := { s.heap with kern := s.heap.kern.write x v } } := by
  obtain ⟨ha, L, hl, hfreed⟩ := h.inv
  obtain ⟨⟨r, hr, he⟩, -⟩ := hl.live_cut b hb
  have hle := h.room b hb r hr he
  have hsame : SameHeaders s.cut s.heap.kern.mem (s.heap.kern.mem.store64 x v) :=
    ha.sameHeaders_data hr fun y hy => Mem.store64_apply_of_disjoint (by
      unfold Block.ptr at *
      omega)
  exact ⟨⟨ha.congr rfl rfl rfl, L, hl.congr hsame fun _ _ => rfl, hfreed⟩, h.room⟩

/-- The words of live blocks, after one of them has been written. -/
theorem Sound.load_store (h : Sound s) (hb : b ∈ s.live) (hb' : b' ∈ s.live)
    (hi : 8 * i + 8 ≤ b.size) (hj : 8 * j + 8 ≤ b'.size) (hv : v < 2 ^ 64) :
    (s.heap.kern.mem.store64 (b.ptr + 8 * i) v).load64 (b'.ptr + 8 * j) =
      if b'.ptr = b.ptr ∧ j = i then v else s.heap.kern.mem.load64 (b'.ptr + 8 * j) := by
  split_ifs with heq
  · rw [heq.1, heq.2]
    exact Mem.load64_store64_same hv
  · apply Mem.load64_store64_disjoint
    by_cases hptr : b'.ptr = b.ptr
    · have hji : j ≠ i := fun hji => heq ⟨hptr, hji⟩
      omega
    · have hne : b ≠ b' := fun he => hptr (he ▸ rfl)
      have : Std.Symm Block.Apart := ⟨fun _ _ => Block.Apart.symm⟩
      have hap := (h.inv.blocksOk h.room).apart.forall hb hb' hne
      unfold Block.Apart Block.ptr at *
      omega

end Loos.HeapRuns
