/-
`mm/n_vm.c`, the end of an address space: `free_pagetable` and `pgtbl_free`.

`kfree` overwrites the page it receives, and `free_pagetable` reads its entries
from memory while it frees. So the code is run here with a log of what it reads
and frees, and the log is compared with the traversal of the table as it was
before the call ([`free_pagetable_spec`]): no entry is overwritten before it is
read, because no table is shared and data pages are not tables.
-/
import Loos.AddrSpace
import Loos.Lib.Postorder

set_option autoImplicit false

namespace Loos.AddrSpace

open SysLib Kern PageTable

/-! ## The code -/

/-- A read of a table entry, or a page passed to `kfree`. -/
abbrev Ev := Radix.Visit ℕ (Fin PTENTRIES)

/-- The machine, and what was read and freed so far. -/
structure Freeing where
  kern : Kern
  log : List Ev

/-- `kfree`, logged. -/
def Freeing.kfree (s : Freeing) (pa : ℕ) : Option Freeing :=
  (s.kern.kfree pa).map fun k => ⟨k, s.log ++ [.drop pa]⟩

/-- The entry `pgtbl[i]` was read, logged. -/
def Freeing.read (s : Freeing) (pgtbl : ℕ) (i : Fin PTENTRIES) : Freeing :=
  { s with log := s.log ++ [.read pgtbl i] }

/-- `free_pagetable` -/
def free_pagetable : ℕ → Freeing → ℕ → Option Freeing
  | 0, s, pgtbl => s.kfree pgtbl
  | level + 1, s, pgtbl =>
    ((List.finRange PTENTRIES).foldlM (fun s i =>
      if rd s.kern.mem pgtbl i ≠ 0 then
        free_pagetable level (s.read pgtbl i) (rd s.kern.mem pgtbl i)
      else some (s.read pgtbl i)) s).bind fun s => s.kfree pgtbl

/-- `pgtbl_free`; the records and list cells that it frees are not page memory. -/
def pgtbl_free (k : Kern) (p : Space) : Option Freeing :=
  (p.mapping_list.foldlM (fun (s : Freeing) info => s.kfree (PA2VA info.pa)) ⟨k, []⟩).bind
    fun s => free_pagetable 2 s p.pgtbl

/-! ## What freeing does -/

/-- From `s` to `s'` the accesses `v` were made. -/
structure Frees (s s' : Freeing) (v : List Ev) : Prop where
  log : s'.log = s.log ++ v
  pages : s'.kern.pages = (Radix.drops v).reverse ++ s.kern.pages
  frame : ∀ P, KPage P → P ∉ Radix.drops v → SamePage s.kern.mem s'.kern.mem P

variable {s s' s₁ s₂ : Freeing} {v v' : List Ev} {k k' : Kern} {p : Space} {T : List ℕ} {m : Mem}

theorem Frees.refl (s : Freeing) : Frees s s [] :=
  ⟨by simp, rfl, fun _ _ _ => SamePage.refl _ _⟩

theorem Frees.trans (h : Frees s s₁ v) (h' : Frees s₁ s₂ v') : Frees s s₂ (v ++ v') := by
  refine ⟨by rw [h'.log, h.log, List.append_assoc], ?_, fun P hP hn => ?_⟩
  · rw [h'.pages, h.pages, Radix.drops_append, List.reverse_append, List.append_assoc]
  · rw [Radix.drops_append, List.mem_append, not_or] at hn
    exact (h.frame P hP hn.1).trans (h'.frame P hP hn.2)

theorem Frees.read (s : Freeing) (pgtbl : ℕ) (i : Fin PTENTRIES) :
    Frees s (s.read pgtbl i) [.read pgtbl i] :=
  ⟨rfl, rfl, fun _ _ _ => SamePage.refl _ _⟩

/-- `kfree` of a page of the window: its bytes are junk now, no others are. -/
theorem Frees.kfree {pa : ℕ} (s : Freeing) (hpa : KPage pa) :
    ∃ s', s.kfree pa = some s' ∧ Frees s s' [.drop pa] := by
  have hk := kfree_of_aligned (k := s.kern) hpa.aligned
  refine ⟨_, by rw [Freeing.kfree, hk, Option.map_some], rfl, rfl, fun P hP hn => ?_⟩
  exact (kfree_spec hk).2 P hP.aligned (by simpa using hn)

/-- A loop whose body only extends the log only extends the log. -/
theorem foldlM_log {β : Type} {f : Freeing → β → Option Freeing} {l : List β}
    (hf : ∀ s b s', f s b = some s' → s.log <+: s'.log) (h : l.foldlM f s = some s') :
    s.log <+: s'.log := by
  induction l generalizing s with
  | nil =>
    obtain rfl : s = s' := by simpa using h
    exact List.prefix_refl _
  | cons b l ih =>
    rw [List.foldlM_cons, Option.bind_eq_bind, Option.bind_eq_some_iff] at h
    obtain ⟨s₁, h₁, h₂⟩ := h
    exact (hf s b s₁ h₁).trans (ih h₂)

theorem Freeing.kfree_log {pa : ℕ} (h : s.kfree pa = some s') : s'.log = s.log ++ [.drop pa] := by
  obtain ⟨k, -, rfl⟩ := Option.map_eq_some_iff.mp h
  rfl

/-- `free_pagetable` only extends the log, whatever the memory holds. -/
theorem free_pagetable_log {level pgtbl : ℕ} (h : free_pagetable level s pgtbl = some s') :
    s.log <+: s'.log := by
  induction level generalizing s s' pgtbl with
  | zero => exact ⟨_, (Freeing.kfree_log h).symm⟩
  | succ level ih =>
    obtain ⟨s₁, h₁, h₂⟩ := Option.bind_eq_some_iff.mp h
    refine (foldlM_log (fun s i s' hs => ?_) h₁).trans ⟨_, (Freeing.kfree_log h₂).symm⟩
    split at hs
    · exact (List.prefix_append _ _).trans (ih hs)
    · obtain rfl := Option.some.inj hs
      exact List.prefix_append _ _

/-- The first page that `pgtbl_free` frees is the one of the first record. -/
theorem pgtbl_free_head {r : Mapping} {l : List Mapping} (hl : p.mapping_list = r :: l)
    (h : pgtbl_free k p = some s) : PA2VA r.pa ∈ Radix.drops s.log := by
  obtain ⟨s₂, h₁, h₂⟩ := Option.bind_eq_some_iff.mp h
  rw [hl, List.foldlM_cons, Option.bind_eq_bind, Option.bind_eq_some_iff] at h₁
  obtain ⟨s₁, h₀, h₁⟩ := h₁
  have hlog : s₁.log <+: s.log :=
    (foldlM_log (fun s b s' hs => ⟨_, (Freeing.kfree_log hs).symm⟩) h₁).trans
      (free_pagetable_log h₂)
  rw [Radix.mem_drops]
  refine hlog.subset ?_
  rw [Freeing.kfree_log h₀]
  exact List.mem_singleton_self _

/-! ## `free_pagetable` -/

/-- The loop over the entries of the table `a`, for the entries `is`. What the loop
has yet to read is as in `m`. -/
theorem free_entries_spec {level a : ℕ} {is : List (Fin PTENTRIES)}
    (ih : ∀ {b : ℕ} {s : Freeing}, Radix.Sep (rd m) b level →
      (∀ P, Radix.Node (rd m) b level P → KPage P ∧ SamePage m s.kern.mem P) →
      ∃ s', free_pagetable level s b = some s' ∧
        Frees s s' (Radix.trace (rd m) (List.finRange PTENTRIES) level b))
    (hsep : Radix.Sep (rd m) a (level + 1)) (hnd : is.Nodup) (hpa : KPage a)
    (ha : ∀ i ∈ is, rd s.kern.mem a i = rd m a i)
    (hbelow : ∀ i ∈ is, ∀ P, Radix.Node (rd m) (rd m a i) level P →
      KPage P ∧ SamePage m s.kern.mem P) :
    ∃ s', is.foldlM (fun s i =>
        if rd s.kern.mem a i ≠ 0 then free_pagetable level (s.read a i) (rd s.kern.mem a i)
        else some (s.read a i)) s = some s' ∧
      Frees s s' (is.flatMap fun i => .read a i ::
        if rd m a i = 0 then []
        else Radix.trace (rd m) (List.finRange PTENTRIES) level (rd m a i)) := by
  induction is generalizing s with
  | nil => exact ⟨s, rfl, Frees.refl s⟩
  | cons i is ihis =>
    obtain ⟨hi, hnd⟩ := List.nodup_cons.mp hnd
    have hrd : rd s.kern.mem a i = rd m a i := ha i List.mem_cons_self
    have hrest : ∀ j ∈ is, rd s.kern.mem a j = rd m a j :=
      fun j hj => ha j (List.mem_cons_of_mem i hj)
    rw [List.foldlM_cons, Option.bind_eq_bind, hrd, List.flatMap_cons]
    have hread := Frees.read s a i
    by_cases h0 : rd m a i = 0
    · obtain ⟨s', hs', hf⟩ := ihis (s := s.read a i) hnd hrest
        fun j hj => hbelow j (List.mem_cons_of_mem i hj)
      refine ⟨s', by rw [if_neg (not_not.mpr h0), Option.bind_some, hs'], ?_⟩
      rw [if_pos h0]
      exact hread.trans hf
    · obtain ⟨s₁, hs₁, hf₁⟩ := ih (s := s.read a i) (hsep.below h0) (hbelow i List.mem_cons_self)
      -- what was just freed is neither this table nor below a later entry
      have hdrops : ∀ P, P ∈ Radix.drops (Radix.trace (rd m) (List.finRange PTENTRIES) level
          (rd m a i)) ↔ Radix.Node (rd m) (rd m a i) level P := fun P => by
        rw [Radix.drops_trace, Radix.mem_postorder List.mem_finRange h0]
      obtain ⟨s', hs', hf⟩ := ihis (s := s₁) hnd
        (fun j hj => ((hf₁.frame a hpa (by rw [hdrops]; exact hsep.root_not_below)).rd j).trans
          (hrest j hj))
        fun j hj P hP => by
          obtain ⟨hkP, hsP⟩ := hbelow j (List.mem_cons_of_mem i hj) P hP
          refine ⟨hkP, hsP.trans (hf₁.frame P hkP ?_)⟩
          rw [hdrops]
          exact fun hPi => hi (hsep.below_disjoint hPi hP ▸ hj)
      refine ⟨s', by rw [if_pos h0, hs₁, Option.bind_some, hs'], ?_⟩
      rw [if_neg h0]
      exact (hread.trans hf₁).trans hf

/-- **`free_pagetable`** makes the accesses of the traversal of the table as it
was before the call. -/
theorem free_pagetable_spec {level a : ℕ} (hsep : Radix.Sep (rd m) a level)
    (hnode : ∀ P, Radix.Node (rd m) a level P → KPage P ∧ SamePage m s.kern.mem P) :
    ∃ s', free_pagetable level s a = some s' ∧
      Frees s s' (Radix.trace (rd m) (List.finRange PTENTRIES) level a) := by
  have hself : ∀ d, Radix.Node (rd m) a d a := fun d => ⟨hsep.root, [], Nat.zero_le _, rfl⟩
  induction level generalizing a s with
  | zero => exact Frees.kfree s (hnode a (hself 0)).1
  | succ level ih =>
    obtain ⟨hka, hsa⟩ := hnode a (hself _)
    obtain ⟨s₁, hs₁, hf₁⟩ := free_entries_spec (s := s)
      (fun hsep hnode => ih hsep hnode fun d => ⟨hsep.root, [], Nat.zero_le _, rfl⟩) hsep
      (List.nodup_finRange PTENTRIES) hka (fun i _ => hsa.rd i)
      fun i _ P hP => hnode P (hP.above hsep.root)
    obtain ⟨s₂, hs₂, hf₂⟩ := Frees.kfree s₁ hka
    exact ⟨s₂, by rw [free_pagetable, hs₁, Option.bind_some, hs₂], hf₁.trans hf₂⟩

/-! ## `pgtbl_free` -/

/-- The loop that frees the data pages. -/
theorem free_records_spec {l : List Mapping} (hl : ∀ r ∈ l, KPage r.pa) :
    ∃ s', l.foldlM (fun (s : Freeing) info => s.kfree (PA2VA info.pa)) s = some s' ∧
      Frees s s' (l.map fun r => .drop r.pa) := by
  induction l generalizing s with
  | nil => exact ⟨s, rfl, Frees.refl s⟩
  | cons r l ih =>
    have hr := hl r List.mem_cons_self
    obtain ⟨s₁, hs₁, hf₁⟩ := Frees.kfree s hr
    obtain ⟨s₂, hs₂, hf₂⟩ := ih (s := s₁) fun r' hr' => hl r' (List.mem_cons_of_mem r hr')
    refine ⟨s₂, ?_, hf₁.trans hf₂⟩
    rw [List.foldlM_cons, Option.bind_eq_bind, hr.PA2VA_self, hs₁, Option.bind_some, hs₂]

/-- The accesses of `pgtbl_free`: the data pages, then the table. -/
def freeLog (m : Mem) (p : Space) : List Ev :=
  (p.mapping_list.map fun r => .drop r.pa) ++
    Radix.trace (rd m) (List.finRange PTENTRIES) 2 p.pgtbl

theorem drops_records (l : List Mapping) :
    Radix.drops (l.map fun r => (.drop r.pa : Ev)) = l.map Mapping.pa := by
  induction l with
  | nil => rfl
  | cons r l ih => rw [List.map_cons, Radix.drops_drop, ih, List.map_cons]

theorem drops_freeLog (m : Mem) (p : Space) : Radix.drops (freeLog m p) =
    p.mapping_list.map Mapping.pa ++
      Radix.postorder (rd m) (List.finRange PTENTRIES) 2 p.pgtbl := by
  rw [freeLog, Radix.drops_append, Radix.drops_trace, drops_records]

/-- The table pages are freed, each once. -/
theorem postorder_perm {root : ℕ} (h : PtOk m root T) (hnd : T.Nodup) :
    (Radix.postorder (rd m) (List.finRange PTENTRIES) 2 root).Perm T := by
  refine (List.perm_ext_iff_of_nodup
    (h.sep.nodup_postorder List.mem_finRange (List.nodup_finRange _)) hnd).mpr fun x => ?_
  rw [Radix.mem_postorder List.mem_finRange h.sep.root, h.node]

/-- `pgtbl_free` frees the tables and the pages of the records, each once, as long as they
are all different; what the entries say does not matter. -/
theorem pgtbl_free_frees (h : PtOk k.mem p.pgtbl T) (hnd : (p.owned T).Nodup)
    (hpage : ∀ r ∈ p.mapping_list, KPage r.pa) :
    ∃ s, pgtbl_free k p = some s ∧ Frees ⟨k, []⟩ s (freeLog k.mem p) ∧
      (Radix.drops (freeLog k.mem p)).Perm (p.owned T) := by
  obtain ⟨hT, -, hapart⟩ := List.nodup_append.mp hnd
  obtain ⟨s₁, hs₁, hf₁⟩ := free_records_spec (s := ⟨k, []⟩) hpage
  obtain ⟨s₂, hs₂, hf₂⟩ := free_pagetable_spec (s := s₁) h.sep fun P hP => by
    have hPT := (h.node P).mpr hP
    refine ⟨h.kpage P hPT, hf₁.frame P (h.kpage P hPT) ?_⟩
    rw [drops_records]
    exact fun hd => hapart P hPT P hd rfl
  refine ⟨s₂, by rw [pgtbl_free, hs₁, Option.bind_some, hs₂], hf₁.trans hf₂, ?_⟩
  rw [drops_freeLog, Space.owned]
  exact List.perm_append_comm.trans ((postorder_perm h hT).append_right _)

/-- **`pgtbl_free`** of a well-formed space returns, frees the pages of the
space, each once, and reads no page that it has freed. -/
theorem pgtbl_free_spec (h : SpaceOk k.mem p T) :
    ∃ s, pgtbl_free k p = some s ∧ Frees ⟨k, []⟩ s (freeLog k.mem p) ∧
      (Radix.drops (freeLog k.mem p)).Perm (p.owned T) ∧
      (freeLog k.mem p).Pairwise Radix.Visit.Safe := by
  obtain ⟨hT, -, hapart⟩ := List.nodup_append.mp h.nodup
  obtain ⟨s, hs, hfrees, hperm⟩ := pgtbl_free_frees h.table h.nodup fun r hr => (h.recs r hr).page
  refine ⟨s, hs, hfrees, hperm, ?_⟩
  refine List.pairwise_append.mpr ⟨?_, h.table.sep.trace_safe List.mem_finRange
    (List.nodup_finRange _), fun e he e' he' x i hx hr => ?_⟩
  · refine List.pairwise_map.mpr (List.pairwise_of_forall fun r r' x i _ => ?_)
    intro he
    cases he
  · -- a data page is no table
    obtain ⟨r, hr', rfl⟩ := List.mem_map.mp he
    rw [hr] at he'
    rw [← Radix.Visit.drop.inj hx] at he'
    have htable := (postorder_perm h.table hT).mem_iff.mp (Radix.read_mem_postorder he')
    exact hapart r.pa htable r.pa (List.mem_map_of_mem hr') rfl

end Loos.AddrSpace
