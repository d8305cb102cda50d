/-
Where `malloc`'s chunks lie.

`apply_alloc` cuts chunks from the front of one page after another. [`Arena`]
says that the chunks cut so far lie inside the pages taken for them, apart from
each other and behind the cursor, each with the room its first request asked
for. It says nothing about which chunks are in use.
-/
import Loos.Stdlib
import Mathlib.Data.List.Pairwise

set_option autoImplicit false

namespace Loos.Stdlib

open SysLib Kern

/-- A chunk, and a number of data bytes. -/
structure Block where
  chunk : ℕ
  size : ℕ
deriving DecidableEq

/-- What `malloc` returns for the chunk. -/
def Block.ptr (b : Block) : ℕ := b.chunk + chunk_info_size

/-- The blocks share no byte of header or data. -/
def Block.Apart (b c : Block) : Prop := b.ptr + b.size ≤ c.chunk ∨ c.ptr + c.size ≤ b.chunk

instance (b c : Block) : Decidable (b.Apart c) := inferInstanceAs (Decidable (_ ∨ _))

/-- The block with all the room its chunk was cut with. -/
def Block.full (b : Block) : Block := ⟨b.chunk, room b.size⟩

/-- The block lies in the page `P`. -/
def Block.In (b : Block) (P : ℕ) : Prop := P ≤ b.chunk ∧ b.ptr + b.size ≤ P + PG_SIZE

/-- The cursor stands in the newest page, if there is one. -/
def CursorIn (h : Heap) : List ℕ → Prop
  | [] => h.p_start = 0 ∧ h.p_end = 0
  | P :: _ => P ≤ h.p_start ∧ h.p_start ≤ h.p_end ∧ h.p_end = P + PG_SIZE

/-- **The arena.** The pages taken by the allocator, and the chunks `cut` from
them, each with the size of its first request. -/
structure Arena (h : Heap) (pages : List ℕ) (cut : List Block) : Prop where
  nodup : (pages ++ h.kern.pages).Nodup
  kpage : ∀ p ∈ pages ++ h.kern.pages, KPage p
  cursor : CursorIn h pages
  inPage : ∀ r ∈ cut, ∃ P ∈ pages, r.full.In P ∧
    (P + PG_SIZE = h.p_end → r.full.ptr + room r.size ≤ h.p_start)
  apart : cut.Pairwise fun r r' => r.full.Apart r'.full

/-- The headers of the chunks are the same in both memories. -/
def SameHeaders (cut : List Block) (m m' : Mem) : Prop :=
  ∀ r ∈ cut, ∀ x, r.chunk ≤ x → x < r.ptr → m' x = m x

variable {h h' : Heap} {pages : List ℕ} {cut : List Block} {m m' : Mem}

theorem SameHeaders.next {r : Block} (hs : SameHeaders cut m m') (hr : r ∈ cut) :
    next m' r.chunk = next m r.chunk :=
  Mem.load64_congr fun x h1 h2 => hs r hr x h1 (by
    unfold Block.ptr chunk_info_size
    omega)

theorem SameHeaders.chunkSize {r : Block} (hs : SameHeaders cut m m') (hr : r ∈ cut) :
    chunkSize m' r.chunk = chunkSize m r.chunk :=
  Mem.load64_congr fun x h1 h2 => hs r hr x (by omega) (by
    unfold Block.ptr chunk_info_size
    omega)

theorem Block.Apart.symm {b c : Block} (hbc : b.Apart c) : c.Apart b := Or.symm hbc

/-- Smaller blocks in chunks that lie apart lie apart. -/
theorem Block.Apart.mono {b c b' c' : Block} (hbc : b.Apart c) (hb : b'.chunk = b.chunk)
    (hc : c'.chunk = c.chunk) (hbs : b'.size ≤ b.size) (hcs : c'.size ≤ c.size) : b'.Apart c' := by
  unfold Block.Apart Block.ptr at *
  omega

/-- Where the room of a chunk ends. -/
theorem Block.full_end (r : Block) :
    r.full.ptr + room r.size = r.chunk + (room r.size + chunk_info_size) := by
  unfold Block.full Block.ptr
  dsimp only
  omega

theorem Block.full_in {r : Block} {P : ℕ} (hlo : P ≤ r.chunk)
    (hhi : r.chunk + (room r.size + chunk_info_size) ≤ P + PG_SIZE) : r.full.In P :=
  ⟨hlo, r.full_end.trans_le hhi⟩

/-- Blocks in different pages lie apart. -/
theorem Block.In.apart {b c : Block} {P Q : ℕ} (hb : b.In P) (hc : c.In Q) (hP : KPage P)
    (hQ : KPage Q) (hne : P ≠ Q) : b.Apart c := by
  have hd := Memblock.aligned_disjoint hP.aligned hQ.aligned hne
  obtain ⟨hb1, hb2⟩ := hb
  obtain ⟨hc1, hc2⟩ := hc
  unfold PG_SIZE at *
  unfold Block.Apart
  omega

namespace Arena

/-- The chunks of the arena are distinct, so a chunk determines its first request. -/
theorem eq_or_apart (ha : Arena h pages cut) {r r' : Block} (hr : r ∈ cut) (hr' : r' ∈ cut) :
    r = r' ∨ r.full.Apart r'.full := by
  by_cases he : r = r'
  · exact .inl he
  · have : Std.Symm fun r r' : Block => r.full.Apart r'.full := ⟨fun _ _ => Block.Apart.symm⟩
    exact .inr (ha.apart.forall hr hr' he)

theorem chunk_pos (ha : Arena h pages cut) {r : Block} (hr : r ∈ cut) :
    0 < r.chunk ∧ r.full.ptr + room r.size < 2 ^ 64 := by
  obtain ⟨P, hP, ⟨hlo, hhi⟩, -⟩ := ha.inPage r hr
  have hb := (ha.kpage P (List.mem_append_left _ hP)).bounds
  unfold Block.full Block.ptr PG_SIZE at *
  unfold MAIN_KERNEL_DMW at hb
  dsimp only at *
  omega

theorem chunk_lt (ha : Arena h pages cut) {r : Block} (hr : r ∈ cut) : r.chunk < 2 ^ 64 := by
  have hend := (ha.chunk_pos hr).2
  rw [r.full_end] at hend
  omega

/-- A write inside the room of one chunk, behind its header, is outside all headers. -/
theorem sameHeaders_data (ha : Arena h pages cut) {r : Block} (hr : r ∈ cut)
    (hm : ∀ x, ¬ (r.ptr ≤ x ∧ x < r.ptr + room r.size) → m' x = m x) : SameHeaders cut m m' := by
  intro r' hr' x h1 h2
  refine hm x fun hx => ?_
  rcases ha.eq_or_apart hr hr' with rfl | hap
  · omega
  · unfold Block.Apart Block.ptr Block.full chunk_info_size at *
    dsimp only at *
    omega

/-- The headers of different chunks lie apart. -/
theorem header_apart (ha : Arena h pages cut) {c : ℕ} (hc : ∃ r ∈ cut, r.chunk = c) {r : Block}
    (hr : r ∈ cut) (hne : r.chunk ≠ c) :
    r.chunk + chunk_info_size ≤ c ∨ c + chunk_info_size ≤ r.chunk := by
  obtain ⟨r', hr', rfl⟩ := hc
  have hap := (ha.eq_or_apart hr hr').resolve_left fun e => hne (e ▸ rfl)
  unfold Block.Apart Block.ptr Block.full at hap
  dsimp only at hap
  omega

/-- Only the cursor and the pages matter. -/
theorem congr (ha : Arena h pages cut) (hp : h'.kern.pages = h.kern.pages)
    (hs : h'.p_start = h.p_start) (he : h'.p_end = h.p_end) : Arena h' pages cut := by
  refine ⟨by rw [hp]; exact ha.nodup, by rw [hp]; exact ha.kpage, ?_, by rw [hs, he]; exact ha.inPage,
    ha.apart⟩
  have := ha.cursor
  cases pages with
  | nil => exact ⟨hs.trans this.1, he.trans this.2⟩
  | cons P rest => exact ⟨by rw [hs]; exact this.1, by rw [hs, he]; exact this.2.1,
      by rw [he]; exact this.2.2⟩

/-- A chunk at the start of a new page. -/
theorem cut_new_page {r P : ℕ} {k : Kern} (ha : Arena h pages cut)
    (hk : kmalloc h.kern PG_SIZE = some (P, k)) (hsize : room r + chunk_info_size ≤ PG_SIZE) :
    Arena { h with kern := k, p_start := P + (room r + chunk_info_size), p_end := P + PG_SIZE }
        (P :: pages) (⟨P, r⟩ :: cut) ∧
      SameHeaders cut h.kern.mem k.mem := by
  obtain ⟨hpages, hmem⟩ := kmalloc_eq_some hk
  have hnd := ha.nodup
  have hkp := ha.kpage
  rw [hpages] at hnd hkp
  have hP : KPage P := hkp P (List.mem_append_right _ List.mem_cons_self)
  have hold : ∀ Q ∈ pages, KPage Q ∧ Q ≠ P := fun Q hQ =>
    ⟨hkp Q (List.mem_append_left _ hQ),
      fun e => (List.nodup_append.mp hnd).2.2 Q hQ P List.mem_cons_self e⟩
  have hfull : Block.In (Block.full ⟨P, r⟩) P :=
    Block.full_in le_rfl (Nat.add_le_add_left hsize P)
  refine ⟨⟨(List.perm_middle.nodup_iff).mp hnd,
    fun Q hQ => hkp Q (List.perm_middle.mem_iff.mpr hQ),
    ⟨Nat.le_add_right _ _, Nat.add_le_add_left hsize P, rfl⟩, fun b hb => ?_, ?_⟩, ?_⟩
  · rcases List.mem_cons.mp hb with rfl | hb
    · exact ⟨P, List.mem_cons_self, hfull, fun _ => (Block.full_end _).le⟩
    · obtain ⟨Q, hQ, hin, -⟩ := ha.inPage b hb
      exact ⟨Q, List.mem_cons_of_mem P hQ, hin,
        fun he => absurd (Nat.add_right_cancel he) (hold Q hQ).2⟩
  · refine List.pairwise_cons.mpr ⟨fun b hb => ?_, ha.apart⟩
    obtain ⟨Q, hQ, hin, -⟩ := ha.inPage b hb
    exact hfull.apart hin hP (hold Q hQ).1 (hold Q hQ).2.symm
  · intro b hb x h1 h2
    obtain ⟨Q, hQ, ⟨hlo, hhi⟩, -⟩ := ha.inPage b hb
    have hd := Memblock.aligned_disjoint (hold Q hQ).1.aligned hP.aligned (hold Q hQ).2
    rw [hmem]
    refine Mem.fill_apply_of_disjoint ?_
    unfold Block.full Block.ptr PG_SIZE at *
    dsimp only at *
    omega

/-- A chunk from the rest of the newest page. -/
theorem cut_same_page {r : ℕ} (ha : Arena h pages cut)
    (hroom : h.p_start + (room r + chunk_info_size) < h.p_end) :
    Arena { h with p_start := h.p_start + (room r + chunk_info_size) } pages
      (⟨h.p_start, r⟩ :: cut) := by
  obtain ⟨P, rest, rfl, hlo, hle, hend⟩ :
      ∃ P rest, pages = P :: rest ∧ P ≤ h.p_start ∧ h.p_start ≤ h.p_end ∧ h.p_end = P + PG_SIZE := by
    have hcur := ha.cursor
    cases pages with
    | nil =>
      obtain ⟨h1, h2⟩ := hcur
      omega
    | cons P rest => exact ⟨P, rest, rfl, hcur⟩
  have hkP : KPage P := ha.kpage P List.mem_cons_self
  have hfull : Block.In (Block.full ⟨h.p_start, r⟩) P :=
    Block.full_in hlo (hroom.le.trans hend.le)
  refine ⟨ha.nodup, ha.kpage, ⟨by dsimp only; omega, by dsimp only; omega, hend⟩,
    fun b hb => ?_, List.pairwise_cons.mpr ⟨fun b hb => ?_, ha.apart⟩⟩
  · rcases List.mem_cons.mp hb with rfl | hb
    · exact ⟨P, List.mem_cons_self, hfull, fun _ => (Block.full_end _).le⟩
    · obtain ⟨Q, hQ, hin, hlast⟩ := ha.inPage b hb
      exact ⟨Q, hQ, hin, fun he => (hlast he).trans (Nat.le_add_right _ _)⟩
  · obtain ⟨Q, hQ, hin, hlast⟩ := ha.inPage b hb
    by_cases hQP : Q = P
    · -- behind the cursor
      exact .inr (hlast (by rw [hQP, hend]))
    · exact hfull.apart hin hkP (ha.kpage Q (List.mem_append_left _ hQ)) (Ne.symm hQP)

/-- **`apply_alloc`** for a request of `r` bytes cuts a chunk with room for it
that is apart from all earlier ones, and writes to no header. -/
theorem apply_alloc_spec {r c : ℕ} (ha : Arena h pages cut)
    (hc : apply_alloc h (room r + chunk_info_size) = some (c, h')) :
    Arena h' (taken h.kern h'.kern ++ pages) (⟨c, r⟩ :: cut) ∧
      h'.fastbin = h.fastbin ∧ h'.unsorted_bin = h.unsorted_bin ∧
      SameHeaders cut h.kern.mem h'.kern.mem := by
  rw [apply_alloc] at hc
  split at hc
  · cases hc
  · next hsize =>
    split at hc
    · obtain ⟨⟨P, k⟩, hk, he⟩ := Option.map_eq_some_iff.mp hc
      obtain ⟨rfl, rfl⟩ := Prod.mk.inj he
      obtain ⟨harena, hsame⟩ := ha.cut_new_page hk (Nat.le_of_not_gt hsize)
      rw [taken_eq (N := [P]) (kmalloc_eq_some hk).1]
      exact ⟨harena, rfl, rfl, hsame⟩
    · next hroom =>
      obtain ⟨rfl, rfl⟩ := Prod.mk.inj (Option.some.inj hc)
      rw [taken_eq (N := []) rfl]
      exact ⟨ha.cut_same_page (Nat.lt_of_not_ge hroom), rfl, rfl, fun _ _ _ _ _ => rfl⟩

end Arena

end Loos.Stdlib
