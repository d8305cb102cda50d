/-
`mm/n_vm.c`, `copy_from_va_str`, over any page table.

The outer loop goes from page to page and the inner one from byte to byte; they share `max`
and `dst`. In every state of the two the bytes before the cursor have been stored, and none
of them was NUL ([`Reading`]); a turn of the outer loop goes on to the next page, or ends at
a NUL ([`Found`]) or at a page that is not mapped ([`Hole`]).

The tables are walked in the memory that the copy writes to, so the buffer must not hold a
word of them ([`copy_over_entry`]).
-/
import Loos.UserCopy

set_option autoImplicit false

namespace Loos.StrCopy

open SysLib Kern PageTable Paged UserCopy

/-! ## The code -/

/-- The state of the inner loop of `copy_from_va_str`. -/
structure StrPage where
  mem : Mem
  p : ℕ
  dst : ℕ
  n : ℕ
  max : ℕ
  got_null : Bool

/-- The body of the inner loop; `got_null` is also set where it `break`s. -/
def str_byte (s : StrPage) : Option StrPage :=
  some (if s.mem s.p = 0 then { s with mem := s.mem.poke s.dst 0, got_null := true }
    else { s with
      mem := s.mem.poke s.dst (s.mem s.p)
      n := s.n - 1
      max := s.max - 1
      p := (s.p + 1) % 2 ^ 64
      dst := (s.dst + 1) % 2 ^ 64 })

/-- The inner loop. -/
def str_page (s : StrPage) : Option StrPage :=
  loop (fun s => decide (s.n > 0 ∧ s.got_null = false)) str_byte (s.n + 1) s

/-- The state of the outer loop; `ret` is set by the `return` inside it. -/
structure StrLoop where
  kern : Kern
  dst : ℕ
  srcva : ℕ
  max : ℕ
  got_null : Bool
  ret : Option ℤ

/-- The body of the outer loop. -/
def copy_from_va_str_body (pagetable : ℕ) (s : StrLoop) : Option StrLoop :=
  let va0 := PGROUNDDOWN s.srcva
  (va_to_pa s.kern pagetable va0).bind fun pa0 =>
    if pa0 = 0 then some { s with ret := some (-1) }
    else
      let n := if PGSIZE - (s.srcva - va0) > s.max then s.max else PGSIZE - (s.srcva - va0)
      (str_page ⟨s.kern.mem, PA2VA (pa0 + (s.srcva - va0)), s.dst, n, s.max, false⟩).map fun t =>
        { s with
          kern := { s.kern with mem := t.mem }
          dst := t.dst
          srcva := (va0 + PGSIZE) % 2 ^ 64
          max := t.max
          got_null := t.got_null }

/-- `copy_from_va_str`. Every turn stores a byte or is the last, so `max` bounds the turns. -/
def copy_from_va_str (k : Kern) (pagetable dst srcva max : ℕ) : Option (ℤ × Kern) :=
  (loop (fun s => decide (s.got_null = false ∧ s.max > 0 ∧ s.ret = none))
    (copy_from_va_str_body pagetable) (max + 1) ⟨k, dst, srcva, max, false, none⟩).map fun s =>
      (s.ret.getD (if s.got_null then 0 else -1), s.kern)

/-! ## The inner loop -/

/-- The inner loop after `j` bytes, none of them NUL. -/
structure Bytes (m : Mem) (p dst n max j : ℕ) (s : StrPage) : Prop where
  le : j ≤ n
  bytes : ∀ i < j, m (p + i) ≠ 0
  n_eq : s.n = n - j
  p_eq : s.p = (p + j) % 2 ^ 64
  dst_eq : s.dst = (dst + j) % 2 ^ 64
  max_eq : s.max = max - j
  mem : s.got_null = false ∧ s.mem = m.put dst j (fun i => m (p + i)) ∨
    s.got_null = true ∧ j < n ∧ m (p + j) = 0 ∧ s.mem = m.put dst (j + 1) fun i => m (p + i)

variable {m : Mem} {p dst n max j : ℕ} {s : StrPage}

theorem Bytes.step (h : Bytes m p dst n max j s) (hp : p + n ≤ 2 ^ 64) (hdst : dst + n ≤ 2 ^ 64)
    (hapart : ∀ i < n, p + i < dst ∨ dst + n ≤ p + i) (hn : s.n > 0) (hnull : s.got_null = false) :
    ∃ s' j', str_byte s = some s' ∧ Bytes m p dst n max j' s' ∧
      (if s'.got_null then 0 else s'.n) < s.n := by
  obtain ⟨hle, hbytes, hn_eq, hp_eq, hdst_eq, hmax_eq, hmem⟩ := h
  obtain ⟨-, hmem⟩ := hmem.resolve_right fun h => by rw [hnull] at h; exact absurd h.1 (by simp)
  have hp' : s.p = p + j := by omega
  have hdst' : s.dst = dst + j := by omega
  -- the byte at the cursor has not been written to
  have hread : s.mem s.p = m (p + j) := by
    rw [hp', hmem]
    exact Mem.put_apply_of_disjoint (by have := hapart j (by omega); omega)
  by_cases h0 : m (p + j) = 0
  · refine ⟨{ s with mem := s.mem.poke s.dst 0, got_null := true }, j, ?_, ?_, ?_⟩
    · rw [str_byte, hread, if_pos h0]
    · refine ⟨hle, hbytes, hn_eq, hp_eq, hdst_eq, hmax_eq, .inr ⟨rfl, by omega, h0, ?_⟩⟩
      dsimp only
      rw [hdst', hmem, ← h0]
      exact Mem.put_poke
    · exact hn
  · refine ⟨_, j + 1, by rw [str_byte, hread, if_neg h0], ?_, ?_⟩
    · refine ⟨by omega, fun i hi => ?_, ?_, ?_, ?_, ?_, .inl ⟨hnull, ?_⟩⟩
      · rcases Nat.lt_succ_iff_lt_or_eq.mp hi with hi | rfl
        · exact hbytes i hi
        · exact h0
      · dsimp only
        omega
      · dsimp only
        omega
      · dsimp only
        omega
      · dsimp only
        omega
      · dsimp only
        rw [hdst', hmem]
        have hpoke : (m.put dst j fun i => m (p + i)).poke (dst + j) (m (p + j)) =
            m.put dst (j + 1) fun i => m (p + i) := Mem.put_poke
        exact hpoke
    · dsimp only
      rw [hnull]
      simp only [Bool.false_eq_true, if_false]
      omega

/-- **The inner loop** ends behind the first NUL, or has stored all the bytes. -/
theorem str_page_spec (hn : 0 < n) (hp : p + n ≤ 2 ^ 64) (hdst : dst + n ≤ 2 ^ 64)
    (hapart : ∀ i < n, p + i < dst ∨ dst + n ≤ p + i) :
    ∃ s j, str_page ⟨m, p, dst, n, max, false⟩ = some s ∧ Bytes m p dst n max j s ∧
      (s.got_null = false → j = n) := by
  have hinit : Bytes m p dst n max 0 ⟨m, p, dst, n, max, false⟩ :=
    ⟨Nat.zero_le _, by simp, rfl, by dsimp only; omega, by dsimp only; omega, rfl,
      .inl ⟨rfl, Mem.put_zero.symm⟩⟩
  obtain ⟨s, hs, ⟨j, hj⟩, hdone⟩ := loop_spec
    (c := fun s : StrPage => decide (s.n > 0 ∧ s.got_null = false)) (f := str_byte) (n := n + 1)
    (fun s => ∃ j, Bytes m p dst n max j s) (fun s => if s.got_null then 0 else s.n)
    (fun s hinv hc => by
      obtain ⟨j, hj⟩ := hinv
      obtain ⟨hn, hnull⟩ := of_decide_eq_true hc
      obtain ⟨s', j', hs', hj', hlt⟩ := hj.step hp hdst hapart hn hnull
      refine ⟨s', hs', ⟨j', hj'⟩, ?_⟩
      rw [hnull]
      exact hlt)
    ⟨0, hinit⟩ (by simp)
  refine ⟨s, j, hs, hj, fun hnull => ?_⟩
  have hdone := of_decide_eq_false hdone
  have hle := hj.le
  have hn_eq := hj.n_eq
  by_contra hne
  exact hdone ⟨by omega, hnull⟩

/-! ## The outer loop -/

variable {k : Kern} {root dst va max n : ℕ}

/-- The bytes behind the virtual address `va`. -/
def source (m : Mem) (root va : ℕ) : Mem := gather PGSIZE (page m root) m va

/-- The first `n` bytes from `va` are mapped, and none of them is NUL. -/
def Text (m : Mem) (root va n : ℕ) : Prop :=
  ∀ i < n, Mapped m root (va + i) ∧ source m root va i ≠ 0

/-- The outer loop goes on behind the first `n` bytes. -/
structure Reading (k : Kern) (root dst va max n : ℕ) (s : StrLoop) : Prop where
  le : n ≤ max
  text : Text k.mem root va n
  max_eq : s.max = max - n
  dst_eq : s.dst = (dst + n) % 2 ^ 64
  srcva : s.max = 0 ∨ s.srcva = va + n
  going : s.got_null = false ∧ s.ret = none
  mem : s.kern.mem = k.mem.put dst n (source k.mem root va)
  pages : s.kern.pages = k.pages

/-- It has found the NUL behind the first `n` bytes. -/
structure Found (k : Kern) (root dst va max n : ℕ) (s : StrLoop) : Prop where
  lt : n < max
  text : Text k.mem root va n
  null : Mapped k.mem root (va + n) ∧ source k.mem root va n = 0
  stopped : s.got_null = true ∧ s.ret = none
  mem : s.kern.mem = k.mem.put dst (n + 1) (source k.mem root va)
  pages : s.kern.pages = k.pages

/-- It has come to a page that is not mapped behind the first `n` bytes. -/
structure Hole (k : Kern) (root dst va max n : ℕ) (s : StrLoop) : Prop where
  lt : n < max
  text : Text k.mem root va n
  hole : ¬ Mapped k.mem root (va + n)
  stopped : s.ret = some (-1)
  mem : s.kern.mem = k.mem.put dst n (source k.mem root va)
  pages : s.kern.pages = k.pages

/-- A turn at a page that is not mapped. -/
theorem Reading.stop {s : StrLoop} (h : Reading k root dst va max n s) (hmax : s.max > 0)
    (hb : Buffer k.mem root dst max) (hva : va < 2 ^ 64) (hno : ¬ Mapped k.mem root (va + n)) :
    ∃ s', copy_from_va_str_body root s = some s' ∧ Hole k root dst va max n s' := by
  obtain ⟨hle, htext, hmax_eq, -, hsrcva, -, hmem, hpages⟩ := h
  have hcur : s.srcva = va + n := hsrcva.resolve_left (by omega)
  have ht : SameTables k.mem s.kern.mem root := hmem ▸ hb.sameTables hle _
  have hpa := ht.va_to_pa (cursor_lt hva fun i hi => (htext i hi).1)
  rw [if_neg hno] at hpa
  refine ⟨{ s with ret := some (-1) }, ?_, by omega, htext, hno, rfl, hmem, hpages⟩
  rw [copy_from_va_str_body, hcur, hpa]
  rfl

/-- A turn at a page that is mapped: up to a NUL, or to the end of the page or the buffer. -/
theorem Reading.step {s : StrLoop} (h : Reading k root dst va max n s) (hmax : s.max > 0)
    (hb : Buffer k.mem root dst max) (hnz : ∀ va, Mapped k.mem root va → phys k.mem root va ≠ 0)
    (hmapped : Mapped k.mem root (va + n)) :
    ∃ s' n', copy_from_va_str_body root s = some s' ∧
      (Reading k root dst va max n' s' ∧ s'.max < s.max ∨ Found k root dst va max n' s') := by
  obtain ⟨hle, htext, hmax_eq, hdst_eq, hsrcva, ⟨-, hret⟩, hmem, hpages⟩ := h
  have hcur : s.srcva = va + n := hsrcva.resolve_left (by omega)
  have hlow : va + n < 2 ^ 64 := lt_trans hmapped.1 (by norm_num)
  have ht : SameTables k.mem s.kern.mem root := hmem ▸ hb.sameTables hle _
  have hpa := ht.va_to_pa hlow
  rw [if_pos hmapped] at hpa
  obtain ⟨hoff, hturn⟩ := turn_eq hlow s.max
  obtain ⟨hfit, hpos, hcle, -⟩ := chunk_spec (P := PGSIZE) (y := va + n) (by norm_num) hmax
  set c := chunk PGSIZE (va + n) s.max
  set P := PA2VA (phys k.mem root (va + n)) + (va + n) % PGSIZE with hP
  have hbuf := hb.le
  have hptr : s.dst = dst + n := by omega
  have hP64 : P + c ≤ 2 ^ 64 := by
    have hphys : phys k.mem root (va + n) < 2 ^ 50 := PA2PTE_lt _
    rw [hP, PA2VA_eq (by omega)]
    unfold MAIN_KERNEL_DMW PGSIZE at *
    omega
  -- the bytes of the page are those of the string, and lie outside the buffer
  have hplace : ∀ i < c, place k.mem root (va + (n + i)) = some (P + i) := by
    intro i hi
    rw [← Nat.add_assoc]
    exact at_add (place_eq_some hmapped) (by omega)
  have hout : ∀ i < c, P + i < dst ∨ dst + max ≤ P + i := by
    intro i hi
    by_contra hin
    exact hb.outside (P + i) (by omega) (by omega) (place_inPages (hplace i hi))
  have hsource : ∀ i < c, s.kern.mem (P + i) = source k.mem root va (n + i) := by
    intro i hi
    rw [source, gather_of_at (hplace i hi), hmem]
    exact Mem.put_apply_of_disjoint (by have := hout i hi; omega)
  have hrest : ∀ i < c, Mapped k.mem root (va + (n + i)) := by
    intro i hi
    rw [← Nat.add_assoc]
    exact mapped_rest hmapped (by omega)
  have hapart : ∀ i < c, P + i < s.dst ∨ s.dst + c ≤ P + i := by
    intro i hi
    have := hout i hi
    omega
  have hend : s.dst + c ≤ 2 ^ 64 := by omega
  obtain ⟨t, j, hstr, hbytes, hall⟩ :
      ∃ t j, str_page ⟨s.kern.mem, P, s.dst, c, s.max, false⟩ = some t ∧
        Bytes s.kern.mem P s.dst c s.max j t ∧ (t.got_null = false → j = c) :=
    str_page_spec hpos hP64 hend hapart
  have hbody : copy_from_va_str_body root s = some { s with
      kern := { s.kern with mem := t.mem }
      dst := t.dst
      srcva := (PGROUNDDOWN (va + n) + PGSIZE) % 2 ^ 64
      max := t.max
      got_null := t.got_null } := by
    rw [copy_from_va_str_body, hcur, hpa, Option.bind_some]
    simp only [hnz _ hmapped, if_false, hoff, hturn, PA2VA_phys_add]
    rw [hstr, Option.map_some]
  obtain ⟨hjle, hbytes, -, -, htdst, htmax, htmem⟩ := hbytes
  have htext' : Text k.mem root va (n + j) := by
    intro i hi
    by_cases hin : i < n
    · exact htext i hin
    · obtain ⟨i, rfl⟩ := Nat.exists_eq_add_of_le (Nat.le_of_not_lt hin)
      refine ⟨hrest i (by omega), ?_⟩
      rw [← hsource i (by omega)]
      exact hbytes i (by omega)
  have hput : ∀ w ≤ c, (s.kern.mem.put s.dst w fun i => s.kern.mem (P + i)) =
      k.mem.put dst (n + w) (source k.mem root va) := by
    intro w hw
    rw [← Mem.put_append fun _ _ => rfl, ← hmem, hptr]
    exact Mem.put_congr fun i hi => hsource i (by omega)
  refine ⟨_, n + j, hbody, ?_⟩
  rcases htmem with ⟨hnull, htmem⟩ | ⟨hnull, hlt, h0, htmem⟩
  · -- the whole piece was stored
    obtain rfl := hall hnull
    refine .inl ⟨⟨by omega, htext', by dsimp only; omega, by dsimp only; omega, ?_,
      ⟨hnull, hret⟩, htmem.trans (hput _ (le_refl _)), hpages⟩, by dsimp only; omega⟩
    dsimp only
    rw [← Nat.add_assoc, htmax]
    exact next_cursor hmapped.1 hmax
  · refine .inr ⟨by omega, htext', ⟨hrest j hlt, ?_⟩, ⟨hnull, hret⟩,
      htmem.trans (hput (j + 1) hlt), hpages⟩
    rw [← hsource j hlt]
    exact h0

/-- The loop ends, in one of three ways: all of `max` was read, or a NUL was found, or a page
was not mapped. -/
theorem copy_from_va_str_ends (hb : Buffer k.mem root dst max)
    (hnz : ∀ va, Mapped k.mem root va → phys k.mem root va ≠ 0) (hva : va < 2 ^ 64)
    (hdst : dst < 2 ^ 64) : ∃ s n, copy_from_va_str k root dst va max =
        some (s.ret.getD (if s.got_null then 0 else -1), s.kern) ∧
      (Reading k root dst va max max s ∨ Found k root dst va max n s ∨
        Hole k root dst va max n s) := by
  have hinit : Reading k root dst va max 0 ⟨k, dst, va, max, false, none⟩ :=
    ⟨Nat.zero_le _, by intro i hi; omega, rfl, (Nat.mod_eq_of_lt hdst).symm, .inr rfl, ⟨rfl, rfl⟩,
      Mem.put_zero.symm, rfl⟩
  -- only a loop that goes on has bytes to come
  obtain ⟨s, hs, ⟨n, hn⟩, hdone⟩ := loop_spec
    (c := fun s : StrLoop => decide (s.got_null = false ∧ s.max > 0 ∧ s.ret = none))
    (f := copy_from_va_str_body root) (n := max + 1)
    (fun s => ∃ n, Reading k root dst va max n s ∨ Found k root dst va max n s ∨
      Hole k root dst va max n s)
    (fun s => if s.got_null = false ∧ s.ret = none then s.max else 0)
    (fun s hinv hc => by
      obtain ⟨hnull, hmax, hret⟩ := of_decide_eq_true hc
      obtain ⟨n, hread | hfound | hhole⟩ := hinv
      · rw [if_pos ⟨hnull, hret⟩]
        by_cases hmapped : Mapped k.mem root (va + n)
        · obtain ⟨s', n', hs', hnext⟩ := hread.step hmax hb hnz hmapped
          refine ⟨s', hs', ⟨n', hnext.imp And.left .inl⟩, ?_⟩
          rcases hnext with ⟨hread', hlt⟩ | hfound
          · rwa [if_pos hread'.going]
          · rw [if_neg (by rw [hfound.stopped.1]; simp)]
            exact hmax
        · obtain ⟨s', hs', hhole⟩ := hread.stop hmax hb hva hmapped
          refine ⟨s', hs', ⟨n, .inr (.inr hhole)⟩, ?_⟩
          rw [if_neg (by rw [hhole.stopped]; simp)]
          exact hmax
      · rw [hfound.stopped.1] at hnull
        cases hnull
      · rw [hhole.stopped] at hret
        cases hret)
    ⟨0, .inl hinit⟩ (by simp)
  refine ⟨s, n, by rw [copy_from_va_str, hs, Option.map_some], ?_⟩
  rcases hn with hread | hrest
  · left
    have hall : n = max := by
      have hle := hread.le
      have hmax_eq := hread.max_eq
      by_contra hne
      exact of_decide_eq_false hdone ⟨hread.going.1, by omega, hread.going.2⟩
    rwa [hall] at hread
  · exact .inr hrest

/-! ## The main result -/

/-- Within `max` bytes from `va` there is a NUL, and every page up to it is mapped. -/
def Terminated (m : Mem) (root va max : ℕ) : Prop :=
  ∃ n < max, (∀ i ≤ n, Mapped m root (va + i)) ∧ source m root va n = 0

theorem Found.terminated {s : StrLoop} (h : Found k root dst va max n s) :
    Terminated k.mem root va max := by
  refine ⟨n, h.lt, fun i hi => ?_, h.null.2⟩
  rcases Nat.lt_or_eq_of_le hi with hi | rfl
  · exact (h.text i hi).1
  · exact h.null.1

/-- A text that goes on to the end, or to a page that is not mapped, has no NUL before. -/
theorem not_terminated (htext : Text m root va n)
    (hend : n = max ∨ ¬ Mapped m root (va + n)) : ¬ Terminated m root va max := by
  rintro ⟨i, hi, hmapped, h0⟩
  by_cases hin : i < n
  · exact (htext i hin).2 h0
  · rcases hend with rfl | hno
    · exact hin hi
    · exact hno (hmapped n (Nat.le_of_not_lt hin))

/-- **`copy_from_va_str`.** Over a table whose mapped pages are not page 0, into a buffer
outside them that has no word of the tables, the call returns, and returns 0 exactly if there
is a NUL within `max` bytes before any page that is not mapped; then the buffer has the string
and its NUL. Whatever is returned, it has stored the first bytes of the source, at most `max`,
and nothing else. -/
theorem copy_from_va_str_spec (hb : Buffer k.mem root dst max)
    (hnz : ∀ va, Mapped k.mem root va → phys k.mem root va ≠ 0) (hva : va < 2 ^ 64)
    (hdst : dst < 2 ^ 64) : ∃ ret k' w, copy_from_va_str k root dst va max = some (ret, k') ∧
      (ret = 0 ∧ Terminated k.mem root va max ∨ ret = -1 ∧ ¬ Terminated k.mem root va max) ∧
      (ret = 0 → ∃ n, w = n + 1 ∧ Text k.mem root va n ∧ source k.mem root va n = 0) ∧
      w ≤ max ∧ (∀ i < w, Mapped k.mem root (va + i)) ∧
      k'.mem = k.mem.put dst w (source k.mem root va) ∧ k'.pages = k.pages := by
  obtain ⟨s, n, hs, hread | hfound | hhole⟩ := copy_from_va_str_ends hb hnz hva hdst
  · rw [hread.going.2, hread.going.1] at hs
    refine ⟨-1, s.kern, max, hs, .inr ⟨rfl, not_terminated hread.text (.inl rfl)⟩,
      fun h => absurd h (by decide), le_refl _, fun i hi => (hread.text i hi).1, hread.mem,
      hread.pages⟩
  · rw [hfound.stopped.2, hfound.stopped.1] at hs
    refine ⟨0, s.kern, n + 1, hs, .inl ⟨rfl, hfound.terminated⟩, fun _ => ⟨n, rfl, hfound.text,
      hfound.null.2⟩, hfound.lt, fun i hi => ?_, hfound.mem, hfound.pages⟩
    rcases Nat.lt_succ_iff_lt_or_eq.mp hi with hi | rfl
    · exact (hfound.text i hi).1
    · exact hfound.null.1
  · rw [hhole.stopped] at hs
    refine ⟨-1, s.kern, n, hs, .inr ⟨rfl, not_terminated hhole.text (.inr hhole.hole)⟩,
      fun h => absurd h (by decide), Nat.le_of_lt hhole.lt, fun i hi => (hhole.text i hi).1,
      hhole.mem, hhole.pages⟩

/-! ## A string across the end of a page -/

/-- The last word of the first virtual page of `two_pages` is `@@@@@@@@`. -/
def lettered : Mem :=
  two_pages.store64 (MAIN_KERNEL_DMW + 0x13ff8) 0x4040404040404040

theorem lettered_words {slot : ℕ} (h : slot ∈ slots two_pages va 2 (PA2VA 0x4000)) :
    lettered.load64 slot = two_pages.load64 slot := by
  have hle := two_pages_slots h
  exact Mem.load64_store64_disjoint (by omega)

theorem lettered_twoPages : TwoPages lettered 0x4000 0x10000 0x18000 := by
  obtain ⟨hleaf, haligned, hlt, hnonzero, hne⟩ := two_pages_twoPages
  refine ⟨fun va => ?_, haligned, hlt, hnonzero, hne⟩
  rw [← hleaf va]
  exact entry_congr fun slot hslot => lettered_words hslot

/-- The four characters and the NUL behind them. -/
theorem lettered_terminated : Terminated lettered 0x4000 16380 8 := by
  have hmapped : ∀ i ≤ 4, Mapped lettered 0x4000 (16380 + i) := by
    intro i hi
    apply lettered_twoPages.mapped.mpr
    unfold PGSIZE
    omega
  refine ⟨4, by decide, hmapped, ?_⟩
  have hplace := place_eq_some (hmapped 4 (le_refl _))
  rw [lettered_twoPages.phys (by decide)] at hplace
  rw [source, gather_of_at hplace]
  decide +kernel

theorem copy_lettered : ∃ k' n, copy_from_va_str ⟨lettered, []⟩ 0x4000
      (MAIN_KERNEL_DMW + 0x24000) 16380 8 = some (0, k') ∧
    Text lettered 0x4000 16380 n ∧ source lettered 0x4000 16380 n = 0 ∧
    k'.mem = lettered.put (MAIN_KERNEL_DMW + 0x24000) (n + 1) (source lettered 0x4000 16380) := by
  have hbuf : Buffer lettered 0x4000 (MAIN_KERNEL_DMW + 0x24000) 8 := by
    refine ⟨by decide, fun x hlo hhi hin => ?_, fun va _ slot hslot => .inl ?_⟩
    · have hpages := lettered_twoPages.inPages hin
      unfold PGSIZE at *
      omega
    · rw [slots_congr fun slot hslot => lettered_words hslot] at hslot
      have hle := two_pages_slots hslot
      omega
  have hnz : ∀ va, Mapped lettered 0x4000 va → phys lettered 0x4000 va ≠ 0 :=
    fun va hva => lettered_twoPages.distinct.1 va hva
  obtain ⟨ret, k', w, hrun, hret, htext, -, -, hmem, -⟩ :=
    copy_from_va_str_spec (k := ⟨lettered, []⟩) hbuf hnz
      (show 16380 < 2 ^ 64 by decide) (by decide)
  obtain rfl : ret = 0 := (hret.resolve_right fun h => h.2 lettered_terminated).1
  obtain ⟨n, rfl, hn, h0⟩ := htext rfl
  exact ⟨k', n, hrun, hn, h0, hmem⟩

/-- The four characters are stored over the entry of the page that the string goes on in: -1
is returned, though there is a NUL. -/
theorem copy_over_entry : (∀ va, Mapped lettered 0x4000 va → phys lettered 0x4000 va ≠ 0) ∧
    (∀ x, MAIN_KERNEL_DMW + 0xc008 ≤ x → x < MAIN_KERNEL_DMW + 0xc008 + 8 →
      ¬ InPages lettered 0x4000 x) ∧
    Terminated lettered 0x4000 16380 8 ∧
    ∃ k', copy_from_va_str ⟨lettered, []⟩ 0x4000 (MAIN_KERNEL_DMW + 0xc008) 16380 8 =
      some (-1, k') := by
  refine ⟨fun va hva => lettered_twoPages.distinct.1 va hva, fun x hlo hhi hin => ?_,
    lettered_terminated, ?_⟩
  · have hpages := lettered_twoPages.inPages hin
    unfold PGSIZE at *
    omega
  · have heval : (copy_from_va_str ⟨lettered, []⟩ 0x4000 (MAIN_KERNEL_DMW + 0xc008) 16380 8).map
        Prod.fst = some (-1) := by decide +kernel
    obtain ⟨⟨ret, k'⟩, hr, he⟩ := Option.map_eq_some_iff.mp heval
    obtain rfl : ret = -1 := he
    exact ⟨k', hr⟩

end Loos.StrCopy
