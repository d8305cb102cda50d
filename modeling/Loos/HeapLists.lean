/-
The free lists of `malloc`.

[`Lists`] says what the bins hold in a heap that works: every bin is a finite
chain of chunks cut earlier, every one filed under the size in its header, none
of them in use, and the header of a chunk never leaves the class of sizes that
its first request belongs to. What a call does is one of three things: a chunk
leaves the front of its bin ([`Lists.pop`]), a new chunk is cut
([`Lists.cut_new`]), or a chunk in use joins the front of its bin
([`Lists.push`]).
-/
import Loos.Arena

set_option autoImplicit false

namespace Loos.Stdlib

open SysLib Kern

/-- The list a chunk of this size belongs to; number 11 is the unsorted bin. -/
def binOf (size : ℕ) : ℕ := if size < 0xa0 then size / 0xF else 11

/-- The first chunk of a list. -/
def Heap.head (h : Heap) (b : ℕ) : ℕ := if b = 11 then h.unsorted_bin else h.fastbin b

/-- A chunk cut for `r` bytes whose last request had `size` bytes. -/
structure SameBin (r size : ℕ) : Prop where
  bin : binOf r = binOf size
  large : 0xa0 ≤ size → size ≤ r

/-- **The free lists** `L`, with the chunks `cut` so far and the blocks `live`. -/
structure Lists (h : Heap) (L : ℕ → List ℕ) (cut live : List Block) : Prop where
  chain : ∀ b ≤ 11, Chain (next h.kern.mem) (h.head b) (L b)
  listed : ∀ b ≤ 11, ∀ c ∈ L b, (∃ r ∈ cut, r.chunk = c) ∧
    binOf (chunkSize h.kern.mem c) = b ∧ ∀ l ∈ live, l.chunk ≠ c
  live_nodup : (live.map Block.chunk).Nodup
  live_cut : ∀ l ∈ live, (∃ r ∈ cut, r.chunk = l.chunk) ∧ chunkSize h.kern.mem l.chunk = l.size
  sameBin : ∀ r ∈ cut, SameBin r.size (chunkSize h.kern.mem r.chunk)

theorem binOf_le (size : ℕ) : binOf size ≤ 11 := by
  unfold binOf
  split <;> omega

theorem SameBin.refl (size : ℕ) : SameBin size size := ⟨rfl, fun _ => le_rfl⟩

theorem head_small (h : Heap) {size : ℕ} (hs : size < 0xa0) :
    h.head (binOf size) = h.fastbin (size / 0xF) := by
  rw [binOf, if_pos hs, Heap.head, if_neg (by omega)]

theorem head_large (h : Heap) {size : ℕ} (hs : 0xa0 ≤ size) :
    h.head (binOf size) = h.unsorted_bin := by
  rw [binOf, if_neg (by omega), Heap.head, if_pos rfl]

variable {h h' : Heap} {L : ℕ → List ℕ} {cut live : List Block} {pages : List ℕ} {m m' : Mem}

namespace Lists

/-- The lists only depend on the heads and on the headers of the chunks. -/
theorem congr (hl : Lists h L cut live) (hs : SameHeaders cut h.kern.mem h'.kern.mem)
    (hhead : ∀ b ≤ 11, h'.head b = h.head b) : Lists h' L cut live := by
  refine ⟨fun b hb => ?_, fun b hb c hc => ?_, hl.live_nodup, fun l hlm => ?_, fun r hr => ?_⟩
  · rw [hhead b hb]
    refine (hl.chain b hb).congr fun c hc => ?_
    obtain ⟨⟨r, hr, rfl⟩, -, -⟩ := hl.listed b hb c hc
    exact hs.next hr
  · obtain ⟨⟨r, hr, rfl⟩, hbin, hlive⟩ := hl.listed b hb c hc
    exact ⟨⟨r, hr, rfl⟩, by rw [hs.chunkSize hr]; exact hbin, hlive⟩
  · obtain ⟨⟨r, hr, he⟩, hsz⟩ := hl.live_cut l hlm
    refine ⟨⟨r, hr, he⟩, ?_⟩
    rw [← he, hs.chunkSize hr, he, hsz]
  · rw [hs.chunkSize hr]
    exact hl.sameBin r hr

/-- No chunk is in two lists. -/
theorem eq_bin (hl : Lists h L cut live) {b b' c : ℕ} (hb : b ≤ 11) (hb' : b' ≤ 11)
    (hc : c ∈ L b) (hc' : c ∈ L b') : b = b' :=
  (hl.listed b hb c hc).2.1.symm.trans (hl.listed b' hb' c hc').2.1

theorem head_mem (hl : Lists h L cut live) {b : ℕ} (hb : b ≤ 11) (h0 : h.head b ≠ 0) :
    ∃ t, L b = h.head b :: t ∧ Chain (next h.kern.mem) (next h.kern.mem (h.head b)) t :=
  Chain.eq_cons (hl.chain b hb) h0

end Lists

/-! ## Writes to a header -/

/-- A word of one header, and another word of it or a word of another header. -/
theorem words_apart (i j : ℕ) {c : ℕ} {r : Block} (ha : Arena h pages cut)
    (hc : ∃ r ∈ cut, r.chunk = c) (hr : r ∈ cut) (hi : i + 8 ≤ chunk_info_size)
    (hj : j + 8 ≤ chunk_info_size) (hij : r.chunk = c → i + 8 ≤ j ∨ j + 8 ≤ i) :
    r.chunk + i + 8 ≤ c + j ∨ c + j + 8 ≤ r.chunk + i := by
  by_cases he : r.chunk = c
  · have := hij he
    omega
  · have := ha.header_apart hc hr he
    omega

/-- The size of one chunk is written; the links stay, and the other sizes. -/
theorem size_written {c v : ℕ} (ha : Arena h pages cut) (hc : ∃ r ∈ cut, r.chunk = c)
    (hv : v < 2 ^ 64) (m : Mem) :
    chunkSize (m.store64 (c + 8) v) c = v ∧
      (∀ r ∈ cut, next (m.store64 (c + 8) v) r.chunk = next m r.chunk) ∧
      ∀ r ∈ cut, r.chunk ≠ c → chunkSize (m.store64 (c + 8) v) r.chunk = chunkSize m r.chunk := by
  refine ⟨Mem.load64_store64_same hv, fun r hr => Mem.load64_store64_disjoint ?_,
    fun r hr hne => Mem.load64_store64_disjoint ?_⟩
  · exact words_apart 0 8 ha hc hr (by decide) (by decide) fun _ => .inl (le_refl 8)
  · exact words_apart 8 8 ha hc hr (by decide) (by decide) fun he => absurd he hne

/-- The link of one chunk is written; the sizes stay, and the other links. -/
theorem next_written {c v : ℕ} (ha : Arena h pages cut) (hc : ∃ r ∈ cut, r.chunk = c)
    (hv : v < 2 ^ 64) (m : Mem) :
    next (m.store64 c v) c = v ∧
      (∀ r ∈ cut, chunkSize (m.store64 c v) r.chunk = chunkSize m r.chunk) ∧
      ∀ r ∈ cut, r.chunk ≠ c → next (m.store64 c v) r.chunk = next m r.chunk := by
  refine ⟨Mem.load64_store64_same hv, fun r hr => Mem.load64_store64_disjoint ?_,
    fun r hr hne => Mem.load64_store64_disjoint ?_⟩
  · exact words_apart 8 0 ha hc hr (by decide) (by decide) fun _ => .inr (le_refl 8)
  · exact words_apart 0 0 ha hc hr (by decide) (by decide) fun he => absurd he hne

/-! ## The three changes -/

namespace Lists

/-- **A chunk is recycled**: it leaves the front of its list and gets the size
of the request. -/
theorem pop {b c size : ℕ} {t : List ℕ} (hl : Lists h L cut live) (ha : Arena h pages cut)
    (hb : b ≤ 11) (hL : L b = c :: t) (hhead : h'.head b = next h.kern.mem c)
    (hother : ∀ b' ≤ 11, b' ≠ b → h'.head b' = h.head b')
    (hmem : h'.kern.mem = h.kern.mem.store64 (c + 8) size) (hv : size < 2 ^ 64)
    (hbin : binOf size = b) (hfit : 0xa0 ≤ size → size ≤ chunkSize h.kern.mem c) :
    Lists h' (Function.update L b t) cut (⟨c, size⟩ :: live) := by
  have hcL : c ∈ L b := by
    rw [hL]
    exact List.mem_cons_self
  obtain ⟨hcut, hcbin, hclive⟩ := hl.listed b hb c hcL
  obtain ⟨hsz, hnext, hsizes⟩ := size_written ha hcut hv h.kern.mem
  have hchain := hl.chain b hb
  have hnd := hchain.nodup
  rw [hL] at hchain hnd
  -- the chunks that stay listed are other chunks
  have hmemt : ∀ b' ≤ 11, ∀ x ∈ Function.update L b t b', x ∈ L b' ∧ x ≠ c := by
    intro b' hb' x hx
    by_cases he : b' = b
    · subst he
      rw [Function.update_self] at hx
      exact ⟨by rw [hL]; exact List.mem_cons_of_mem c hx,
        fun e => (List.nodup_cons.mp hnd).1 (e ▸ hx)⟩
    · rw [Function.update_of_ne he] at hx
      refine ⟨hx, fun e => he ?_⟩
      subst e
      exact hl.eq_bin hb' hb hx hcL
  refine ⟨fun b' hb' => ?_, fun b' hb' x hx => ?_, ?_, fun l hlm => ?_, fun r hr => ?_⟩
  · have hlinks : ∀ x ∈ Function.update L b t b', next h'.kern.mem x = next h.kern.mem x := by
      intro x hx
      obtain ⟨⟨r, hr, rfl⟩, -, -⟩ := hl.listed b' hb' x (hmemt b' hb' x hx).1
      rw [hmem, hnext r hr]
    by_cases he : b' = b
    · subst he
      rw [Function.update_self] at hlinks ⊢
      rw [hhead]
      exact hchain.2.2.congr hlinks
    · rw [Function.update_of_ne he] at hlinks ⊢
      rw [hother b' hb' he]
      exact (hl.chain b' hb').congr hlinks
  · obtain ⟨hxL, hxc⟩ := hmemt b' hb' x hx
    obtain ⟨⟨r, hr, rfl⟩, hxbin, hxlive⟩ := hl.listed b' hb' x hxL
    refine ⟨⟨r, hr, rfl⟩, ?_, fun l hlm => ?_⟩
    · rw [hmem, hsizes r hr hxc]
      exact hxbin
    · rcases List.mem_cons.mp hlm with rfl | hlm
      · exact Ne.symm hxc
      · exact hxlive l hlm
  · rw [List.map_cons, List.nodup_cons]
    refine ⟨fun hc => ?_, hl.live_nodup⟩
    obtain ⟨l, hlm, he⟩ := List.mem_map.mp hc
    exact hclive l hlm he
  · rcases List.mem_cons.mp hlm with rfl | hlm
    · exact ⟨hcut, by rw [hmem]; exact hsz⟩
    · obtain ⟨⟨r, hr, he⟩, hls⟩ := hl.live_cut l hlm
      refine ⟨⟨r, hr, he⟩, ?_⟩
      rw [hmem, ← he, hsizes r hr (he ▸ hclive l hlm), he, hls]
  · by_cases hrc : r.chunk = c
    · rw [hmem, hrc, hsz]
      obtain ⟨hrb, hrl⟩ := hl.sameBin r hr
      rw [hrc, hcbin] at hrb
      refine ⟨hrb.trans hbin.symm, fun h0 => (hfit h0).trans (hrc ▸ hrl ?_)⟩
      rw [hrc]
      exact h0.trans (hfit h0)
    · rw [hmem, hsizes r hr hrc]
      exact hl.sameBin r hr

/-- **A new chunk is cut** for the request. -/
theorem cut_new {c size : ℕ} {h₁ : Heap} (hl : Lists h L cut live)
    (hs : SameHeaders cut h.kern.mem h₁.kern.mem) (ha : Arena h₁ pages (⟨c, size⟩ :: cut))
    (hhead : ∀ b ≤ 11, h'.head b = h.head b)
    (hmem : h'.kern.mem = h₁.kern.mem.store64 (c + 8) size) (hv : size < 2 ^ 64) :
    Lists h' L (⟨c, size⟩ :: cut) (⟨c, size⟩ :: live) := by
  have hl₁ : Lists { h₁ with fastbin := h.fastbin, unsorted_bin := h.unsorted_bin } L cut live :=
    hl.congr hs fun b _ => rfl
  obtain ⟨hsz, hnext, hsizes⟩ :=
    size_written ha ⟨_, List.mem_cons_self, rfl⟩ hv h₁.kern.mem
  -- no earlier chunk is the new one
  have hne : ∀ r ∈ cut, r.chunk ≠ c := fun r hr he => by
    have hap := (List.pairwise_cons.mp ha.apart).1 r hr
    unfold Block.Apart Block.ptr Block.full chunk_info_size at hap
    dsimp only at hap
    omega
  refine ⟨fun b hb => ?_, fun b hb x hx => ?_, ?_, fun l hlm => ?_, fun r hr => ?_⟩
  · rw [hhead b hb]
    refine (hl₁.chain b hb).congr fun x hx => ?_
    obtain ⟨⟨r, hr, rfl⟩, -, -⟩ := hl₁.listed b hb x hx
    rw [hmem]
    exact hnext r (List.mem_cons_of_mem _ hr)
  · obtain ⟨⟨r, hr, rfl⟩, hbin, hlive⟩ := hl₁.listed b hb x hx
    refine ⟨⟨r, List.mem_cons_of_mem _ hr, rfl⟩, ?_, fun l hlm => ?_⟩
    · rw [hmem, hsizes r (List.mem_cons_of_mem _ hr) (hne r hr)]
      exact hbin
    · rcases List.mem_cons.mp hlm with rfl | hlm
      · exact Ne.symm (hne r hr)
      · exact hlive l hlm
  · rw [List.map_cons, List.nodup_cons]
    refine ⟨fun hc => ?_, hl.live_nodup⟩
    obtain ⟨l, hlm, he⟩ := List.mem_map.mp hc
    obtain ⟨⟨r, hr, hre⟩, -⟩ := hl.live_cut l hlm
    exact hne r hr (hre.trans he)
  · rcases List.mem_cons.mp hlm with rfl | hlm
    · exact ⟨⟨_, List.mem_cons_self, rfl⟩, by rw [hmem]; exact hsz⟩
    · obtain ⟨⟨r, hr, he⟩, hls⟩ := hl₁.live_cut l hlm
      refine ⟨⟨r, List.mem_cons_of_mem _ hr, he⟩, ?_⟩
      rw [hmem, ← he, hsizes r (List.mem_cons_of_mem _ hr) (hne r hr), he]
      exact hls
  · rcases List.mem_cons.mp hr with rfl | hr
    · rw [hmem, hsz]
      exact SameBin.refl size
    · rw [hmem, hsizes r (List.mem_cons_of_mem _ hr) (hne r hr)]
      exact hl₁.sameBin r hr

/-- **A chunk in use is freed**: it joins the front of the list of its size. -/
theorem push {l : Block} (hl : Lists h L cut live) (ha : Arena h pages cut) (hlm : l ∈ live)
    (hhead : h'.head (binOf l.size) = l.chunk)
    (hother : ∀ b ≤ 11, b ≠ binOf l.size → h'.head b = h.head b)
    (hmem : h'.kern.mem = h.kern.mem.store64 l.chunk (h.head (binOf l.size)))
    (hv : h.head (binOf l.size) < 2 ^ 64) :
    Lists h' (Function.update L (binOf l.size) (l.chunk :: L (binOf l.size))) cut
      (live.filter fun l' => decide (l'.ptr ≠ l.ptr)) := by
  obtain ⟨hcut, hsize⟩ := hl.live_cut l hlm
  obtain ⟨hlink, hsizes, hnext⟩ := next_written ha hcut hv h.kern.mem
  have hpos : l.chunk ≠ 0 := by
    obtain ⟨r, hr, he⟩ := hcut
    have := (ha.chunk_pos hr).1
    omega
  -- the listed chunks are not in use, so they are other chunks
  have hne : ∀ b ≤ 11, ∀ x ∈ L b, x ≠ l.chunk := fun b hb x hx e =>
    (hl.listed b hb x hx).2.2 l hlm e.symm
  have hstay : ∀ l' ∈ live.filter fun l' => decide (l'.ptr ≠ l.ptr),
      l' ∈ live ∧ l'.chunk ≠ l.chunk := by
    intro l' hl'
    obtain ⟨h1, h2⟩ := List.mem_filter.mp hl'
    exact ⟨h1, fun e => of_decide_eq_true h2 (by rw [Block.ptr, Block.ptr, e])⟩
  have hlinks : ∀ b ≤ 11, ∀ x ∈ L b, next h'.kern.mem x = next h.kern.mem x := by
    intro b hb x hx
    have hxc := hne b hb x hx
    obtain ⟨⟨r, hr, rfl⟩, -, -⟩ := hl.listed b hb x hx
    rw [hmem, hnext r hr hxc]
  have hsizes' : ∀ r ∈ cut, chunkSize h'.kern.mem r.chunk = chunkSize h.kern.mem r.chunk := by
    intro r hr
    rw [hmem, hsizes r hr]
  refine ⟨fun b hb => ?_, fun b hb x hx => ?_, ?_, fun l' hl' => ?_, fun r hr => ?_⟩
  · by_cases he : b = binOf l.size
    · subst he
      rw [Function.update_self, hhead]
      exact (hl.chain _ hb).push hpos (by rw [hmem]; exact hlink) (hlinks _ hb)
    · rw [Function.update_of_ne he, hother b hb he]
      exact (hl.chain b hb).congr (hlinks b hb)
  · have hx' : x ∈ L b ∨ (b = binOf l.size ∧ x = l.chunk) := by
      by_cases he : b = binOf l.size
      · subst he
        rw [Function.update_self, List.mem_cons] at hx
        exact hx.symm.imp_right fun h => ⟨rfl, h⟩
      · rw [Function.update_of_ne he] at hx
        exact .inl hx
    rcases hx' with hx | ⟨rfl, rfl⟩
    · obtain ⟨⟨r, hr, rfl⟩, hbin, hlive⟩ := hl.listed b hb x hx
      exact ⟨⟨r, hr, rfl⟩, by rw [hsizes' r hr]; exact hbin, fun l' hl' => hlive l' (hstay l' hl').1⟩
    · obtain ⟨r, hr, he⟩ := hcut
      refine ⟨⟨r, hr, he⟩, ?_, fun l' hl' => (hstay l' hl').2⟩
      rw [← he, hsizes' r hr, he, hsize]
  · exact hl.live_nodup.sublist (List.filter_sublist.map Block.chunk)
  · obtain ⟨⟨r, hr, he⟩, hls⟩ := hl.live_cut l' (hstay l' hl').1
    exact ⟨⟨r, hr, he⟩, by rw [← he, hsizes' r hr, he, hls]⟩
  · rw [hsizes' r hr]
    exact hl.sameBin r hr

end Lists

end Loos.Stdlib
