/-
Mapping a page again.

`__map_single_page` puts the flags that the entry has into the new entry, beside `perm`. So
the flags of a leaf entry are those of every mapping of its page so far ([`remap_flags`]):
they are `perm` exactly if no earlier mapping gave a right that `perm` does not have.

A history is any sequence of `__map_single_page`, `__map_pages` and `alloc_vm` calls, on any
addresses: from `2^47` on the walkers see an address modulo `2^47`.
-/
import Loos.Translate
import Loos.Image
import Loos.Vm

set_option autoImplicit false

namespace Loos.Remap

open SysLib Kern PageTable AddrSpace

/-! ## Histories -/

/-- A call that maps pages. -/
inductive Event where
  | single (va pa perm : ℕ)
  | pages (va size pa perm : ℕ)
  | alloc (start end_ perm : ℕ)

/-- The rights that the call asks for. -/
def Event.perm : Event → ℕ
  | .single _ _ perm => perm
  | .pages _ _ _ perm => perm
  | .alloc _ _ perm => perm

/-- A cursor that goes from `start` in steps of a page while it is below `stop` comes to the
page of `y`. -/
def Turns (start stop y : ℕ) : Prop :=
  ∃ i, start + i * PGSIZE < stop ∧ y / PGSIZE = (start + i * PGSIZE) % MAXVA / PGSIZE

/-- The call maps the page of `y`. -/
def Event.Covers (y : ℕ) : Event → Prop
  | .single va _ _ => y / PGSIZE = va % MAXVA / PGSIZE
  | .pages va size _ _ =>
    Turns (PGROUNDDOWN va) (PGROUNDDOWN ((va + size + 2 ^ 64 - 1) % 2 ^ 64) + 1) y
  | .alloc start end_ _ => Turns start (PGROUNDUP end_) y

/-- The machine and the address space whose table is built. -/
structure State where
  kern : Kern
  proc : Space

def step (s : State) : Event → Option State
  | .single va pa perm =>
    (map_single_page s.kern s.proc.pgtbl va pa perm).map fun k => { s with kern := k }
  | .pages va size pa perm =>
    (map_pages s.kern s.proc.pgtbl va size pa perm).map fun k => { s with kern := k }
  | .alloc start end_ perm =>
    (alloc_vm s.kern s.proc start end_ perm).map fun a => ⟨a.kern, a.proc⟩

/-- `perm` is made of the bits of `PTE_FLAGS`. -/
def FlagBits (perm : ℕ) : Prop := perm &&& FLAGMASK = perm

theorem FlagBits.lt {perm : ℕ} (h : FlagBits perm) : perm < 2 ^ 64 := by
  rw [← h]
  exact lt_of_le_of_lt Nat.and_le_right (by norm_num)

/-! ## Rights gained -/

variable {k k' k₀ k₁ : Kern} {root va pa perm b : ℕ} {m m₁ m' : Mem} {V W : ℕ → Prop}

/-- From `m` to `m'` the pages of `V` gained the rights `perm`, and no other page did. -/
def Gains (m m' : Mem) (root perm : ℕ) (V : ℕ → Prop) : Prop :=
  ∀ y < MAXVA, ∀ b, (PTE_FLAGS (leaf m' root y)).testBit b = true ↔
    (PTE_FLAGS (leaf m root y)).testBit b = true ∨ V y ∧ perm.testBit b = true

theorem Gains.refl (h : ∀ y, ¬ V y) : Gains m m root perm V := by
  intro y _ b
  constructor
  · exact .inl
  · rintro (hb | ⟨hV, -⟩)
    · exact hb
    · exact absurd hV (h y)

theorem Gains.congr (h : Gains m m' root perm V) (hVW : ∀ y, V y ↔ W y) :
    Gains m m' root perm W := by
  intro y hy b
  rw [h y hy b, hVW]

/-- The rights of two steps together. -/
theorem Gains.trans (h : Gains m m₁ root perm V) (h' : Gains m₁ m' root perm W) :
    Gains m m' root perm fun y => V y ∨ W y := by
  intro y hy b
  rw [h' y hy b, h y hy b]
  tauto

/-- One entry: its flags are the old ones and `perm`. -/
theorem testBit_newEntry {e : ℕ} (hperm : FlagBits perm) :
    (PTE_FLAGS (newEntry e pa perm)).testBit b = true ↔
      (PTE_FLAGS e).testBit b = true ∨ perm.testBit b = true := by
  have hflags : PTE_FLAGS perm = perm := hperm
  rw [newEntry_flags, hflags, Nat.testBit_or, Bool.or_eq_true]

/-- **One mapping** gives its rights to one page. -/
theorem gains_single (h : Translate.Inv root k) (hperm : FlagBits perm)
    (hk : map_single_page k root va pa perm = some k') :
    Translate.Inv root k' ∧
      Gains k.mem k'.mem root perm fun y => y / PGSIZE = va % MAXVA / PGSIZE := by
  obtain ⟨T, hok, hf⟩ := h
  obtain ⟨N, -, hg, hw⟩ := map_single_page_spec hok hf hperm.lt hk
  refine ⟨⟨T ++ N, hg.ok, hg.fresh hf⟩, fun y hy b => ?_⟩
  rw [Image.leaf_enter hw hy]
  by_cases hpage : y / PGSIZE = va % MAXVA / PGSIZE
  · rw [if_pos hpage, testBit_newEntry hperm]
    exact or_congr_right (and_iff_right hpage).symm
  · rw [if_neg hpage]
    exact (or_iff_left fun h => hpage h.1).symm

/-- **A loop of mappings**, with the cursor that goes up by a page in every turn. -/
theorem loop_gains {σ : Type} (cursor : σ → ℕ) (kern : σ → Kern) (Ok : σ → Prop)
    {c : σ → Bool} {f : σ → Option σ} {stop n : ℕ} {s s' : σ} (h : loop c f n s = some s')
    (hc : ∀ s, c s = true ↔ cursor s < stop) (hstop : stop + PGSIZE ≤ 2 ^ 64)
    (hbody : ∀ s s', Ok s → f s = some s' → Ok s' ∧ cursor s' = (cursor s + PGSIZE) % 2 ^ 64 ∧
      Gains (kern s).mem (kern s').mem root perm fun y => y / PGSIZE = cursor s % MAXVA / PGSIZE)
    (hs : Ok s) :
    Ok s' ∧ Gains (kern s).mem (kern s').mem root perm (Turns (cursor s) stop) := by
  -- after `i` turns the cursor is `i` pages on, and those pages have their rights
  obtain ⟨⟨hok, i, hcur, hbelow, hgains⟩, hexit⟩ := loop_inv
    (fun t => Ok t ∧ ∃ i, cursor t = cursor s + i * PGSIZE ∧
      (∀ j < i, cursor s + j * PGSIZE < stop) ∧
      Gains (kern s).mem (kern t).mem root perm fun y =>
        ∃ j < i, y / PGSIZE = (cursor s + j * PGSIZE) % MAXVA / PGSIZE)
    (fun t t' ht hct hft => by
      obtain ⟨hok, i, hcur, hbelow, hgains⟩ := ht
      have hlt : cursor t < stop := (hc t).mp hct
      obtain ⟨hok', hcur', hgains'⟩ := hbody t t' hok hft
      refine ⟨hok', i + 1, ?_, fun j hj => ?_, ?_⟩
      · rw [hcur', Nat.mod_eq_of_lt (by omega), hcur, Nat.succ_mul]
        omega
      · rcases Nat.lt_succ_iff_lt_or_eq.mp hj with hj | rfl
        · exact hbelow j hj
        · rwa [← hcur]
      · refine (hgains.trans hgains').congr fun y => ?_
        rw [hcur, Nat.exists_lt_succ_right])
    ⟨hs, 0, by omega, by omega, Gains.refl (by omega)⟩ h
  have hdone : stop ≤ cursor s' := by
    rw [← Bool.not_eq_true, hc] at hexit
    omega
  refine ⟨hok, hgains.congr fun y => ?_⟩
  constructor
  · rintro ⟨j, hj, he⟩
    exact ⟨j, hbelow j hj, he⟩
  · rintro ⟨j, hj, he⟩
    refine ⟨j, ?_, he⟩
    by_contra hge
    have := Nat.mul_le_mul_right PGSIZE (Nat.le_of_not_lt hge)
    omega

/-! ## The three calls -/

/-- One turn of `alloc_vm`, on a table of its own root. -/
theorem gains_alloc_body {s s' : AllocLoop} (h : Translate.Inv root s.kern)
    (hroot : s.proc.pgtbl = root) (hperm : FlagBits perm) (hb : alloc_vm_body perm s = some s') :
    (Translate.Inv root s'.kern ∧ s'.proc.pgtbl = root) ∧
      s'.caddr = (s.caddr + PGSIZE) % 2 ^ 64 ∧ Gains s.kern.mem s'.kern.mem root perm fun y =>
        y / PGSIZE = s.caddr % MAXVA / PGSIZE := by
  obtain ⟨T, hok, hf⟩ := h
  obtain ⟨page, k₁, k', hk, hpages, hmap, rfl⟩ := alloc_vm_body_cases hb
  rw [hroot] at hmap
  -- the new page is none of the tables, so they are as before
  have htables : ∀ P ∈ T, SamePage s.kern.mem (k₁.memset page 0 PGSIZE).mem P := by
    intro P hP
    refine zeroed_other hf hk (hok.kpage P hP) ?_
    exact (List.nodup_append.mp hf.nodup).2.2 P hP page (by rw [hpages]; exact List.mem_cons_self)
  have hf₁ : Fresh (k₁.memset page 0 PGSIZE) T := by
    refine ⟨?_, fun P hP => hf.kpage P (by rw [hpages]; exact List.mem_cons_of_mem _ hP)⟩
    have hnd := hf.nodup
    rw [hpages] at hnd
    exact hnd.sublist ((List.sublist_cons_self page _).append_left T)
  obtain ⟨hinv, hgains⟩ := gains_single ⟨T, hok.congr htables, hf₁⟩ hperm hmap
  refine ⟨⟨hinv, hroot⟩, rfl, fun y hy b => ?_⟩
  rw [hgains y hy b, show leaf (k₁.memset page 0 PGSIZE).mem root y = leaf s.kern.mem root y from
    hok.walk_congr htables (by simp)]

theorem gains_alloc_vm {p : Space} {start end_ : ℕ} {a : AllocLoop}
    (h : Translate.Inv p.pgtbl k) (hperm : FlagBits perm)
    (hk : alloc_vm k p start end_ perm = some a) :
    (Translate.Inv p.pgtbl a.kern ∧ a.proc.pgtbl = p.pgtbl) ∧
      Gains k.mem a.kern.mem p.pgtbl perm (Turns start (PGROUNDUP end_)) := by
  have hloop := loop_gains AllocLoop.caddr AllocLoop.kern
    (fun s => Translate.Inv p.pgtbl s.kern ∧ s.proc.pgtbl = p.pgtbl) hk
    (fun _ => decide_eq_true_iff) (Image.PGROUNDUP_le end_)
    (fun _ _ hs hb => gains_alloc_body hs.1 hs.2 hperm hb) ⟨h, rfl⟩
  exact hloop

theorem PGROUNDDOWN_aligned (a : ℕ) : PGROUNDDOWN a % PGSIZE = 0 := by
  rw [PGROUNDDOWN, and_page_mask]
  exact Nat.mul_mod_left _ _

/-- The loop of `__map_pages` does not end if the last page is the last of all. -/
theorem map_pages_loop_last {stop : ℕ} {s s' : MapLoop} (hal : s.vac % PGSIZE = 0)
    (hlt : s.vac < 2 ^ 64) (hstop : stop % PGSIZE = 0)
    (h : map_pages_loop root perm stop s = some s') : stop + 1 + PGSIZE ≤ 2 ^ 64 := by
  rw [map_pages_loop] at h
  obtain ⟨⟨hal', hlt'⟩, hexit⟩ := loop_inv (fun s => s.vac % PGSIZE = 0 ∧ s.vac < 2 ^ 64)
    (fun t t' ht _ hft => by
      obtain ⟨k, -, rfl⟩ := Option.map_eq_some_iff.mp hft
      obtain ⟨hal, hlt⟩ := ht
      dsimp only
      unfold PGSIZE at *
      omega) ⟨hal, hlt⟩ h
  have hdone : ¬ s'.vac ≤ stop := of_decide_eq_false hexit
  unfold PGSIZE at *
  omega

theorem gains_map_pages {size : ℕ} (h : Translate.Inv root k) (hperm : FlagBits perm)
    (hk : map_pages k root va size pa perm = some k') :
    Translate.Inv root k' ∧ Gains k.mem k'.mem root perm (Turns (PGROUNDDOWN va)
      (PGROUNDDOWN ((va + size + 2 ^ 64 - 1) % 2 ^ 64) + 1)) := by
  obtain ⟨s, hs, rfl⟩ := Option.map_eq_some_iff.mp hk
  have hlast := map_pages_loop_last (PGROUNDDOWN_aligned va) (PGROUNDDOWN_lt va)
    (PGROUNDDOWN_aligned _) hs
  have hloop := loop_gains MapLoop.vac MapLoop.kern (fun s => Translate.Inv root s.kern) hs
    (fun t => decide_eq_true_iff.trans Nat.lt_succ_iff.symm) hlast (fun t t' ht hb => by
      obtain ⟨k₁, hk₁, rfl⟩ := Option.map_eq_some_iff.mp hb
      obtain ⟨hinv, hgains⟩ := gains_single ht hperm hk₁
      exact ⟨hinv, rfl, hgains⟩) h
  exact hloop

/-! ## Runs -/

variable {s s' : State} {e : Event} {es : List Event}

theorem step_gains (h : Translate.Inv s.proc.pgtbl s.kern) (hperm : FlagBits e.perm)
    (hs : step s e = some s') :
    (Translate.Inv s.proc.pgtbl s'.kern ∧ s'.proc.pgtbl = s.proc.pgtbl) ∧
      Gains s.kern.mem s'.kern.mem s.proc.pgtbl e.perm fun y => e.Covers y := by
  cases e with
  | single va pa perm =>
    rw [step] at hs
    obtain ⟨k', hk, rfl⟩ := Option.map_eq_some_iff.mp hs
    obtain ⟨hinv, hgains⟩ := gains_single h hperm hk
    exact ⟨⟨hinv, rfl⟩, hgains⟩
  | pages va size pa perm =>
    rw [step] at hs
    obtain ⟨k', hk, rfl⟩ := Option.map_eq_some_iff.mp hs
    obtain ⟨hinv, hgains⟩ := gains_map_pages h hperm hk
    exact ⟨⟨hinv, rfl⟩, hgains⟩
  | alloc start end_ perm =>
    rw [step] at hs
    obtain ⟨a, ha, rfl⟩ := Option.map_eq_some_iff.mp hs
    exact gains_alloc_vm h hperm ha

/-- The rights of a page after a history: those it had, and those of every call that covers it. -/
theorem run_gains (h : Translate.Inv s.proc.pgtbl s.kern) (hperm : ∀ e ∈ es, FlagBits e.perm)
    (hrun : run step s es = some s') :
    (Translate.Inv s.proc.pgtbl s'.kern ∧ s'.proc.pgtbl = s.proc.pgtbl) ∧ ∀ y < MAXVA, ∀ b,
      (PTE_FLAGS (leaf s'.kern.mem s.proc.pgtbl y)).testBit b = true ↔
        (PTE_FLAGS (leaf s.kern.mem s.proc.pgtbl y)).testBit b = true ∨
          ∃ e ∈ es, e.Covers y ∧ e.perm.testBit b = true := by
  induction es generalizing s with
  | nil =>
    obtain rfl : s = s' := by simpa using hrun
    exact ⟨⟨h, rfl⟩, fun y _ b => by simp⟩
  | cons e es ih =>
    obtain ⟨s₁, h₁, h₂⟩ := run_cons_eq_some.mp hrun
    obtain ⟨⟨hinv, hroot⟩, hgains⟩ := step_gains h (hperm e List.mem_cons_self) h₁
    rw [← hroot] at hinv
    have hrest := ih hinv (fun e' he' => hperm e' (List.mem_cons_of_mem e he')) h₂
    rw [hroot] at hrest
    refine ⟨hrest.1, fun y hy b => ?_⟩
    rw [hrest.2 y hy b, hgains y hy b, or_assoc]
    simp only [List.mem_cons, exists_eq_or_imp]

/-! ## The main result -/

/-- The rights of two words together are those of the second if the first adds none. -/
theorem or_eq_right_iff {x y : ℕ} :
    x ||| y = y ↔ ∀ b, x.testBit b = true → y.testBit b = true := by
  constructor
  · intro h b hb
    rw [← h, Nat.testBit_or, hb, Bool.true_or]
  · intro h
    apply Nat.eq_of_testBit_eq
    intro b
    rw [Nat.testBit_or]
    cases hx : x.testBit b with
    | false => exact Bool.false_or _
    | true => rw [h b hx, Bool.or_self]

/-- **Mapping a page again adds rights.** After `__map_single_page`, in a table with any history,
a flag is set in the leaf entry exactly if `perm` has it or an earlier call that mapped the page
had it; so the flags are `perm` exactly if no such call had one that `perm` does not have. -/
theorem remap_flags {pgtbl : ℕ} (hf : Fresh k₀ []) (hc : pgtbl_create k₀ = some (pgtbl, k))
    (hes : ∀ e ∈ es, FlagBits e.perm) (hrun : run step ⟨k, ⟨pgtbl, []⟩⟩ es = some s)
    (hva : va < MAXVA) (hperm : FlagBits perm)
    (hk : map_single_page s.kern pgtbl va pa perm = some k') :
    (∀ b, (PTE_FLAGS (leaf k'.mem pgtbl va)).testBit b = true ↔
      perm.testBit b = true ∨ ∃ e ∈ es, e.Covers va ∧ e.perm.testBit b = true) ∧
    (PTE_FLAGS (leaf k'.mem pgtbl va) = perm ↔ ∀ e ∈ es, e.Covers va → e.perm ||| perm = perm) := by
  obtain ⟨⟨hinv, -⟩, hhistory⟩ := run_gains (Translate.Inv.of_create hf hc) hes hrun
  obtain ⟨-, hgains⟩ := gains_single hinv hperm hk
  have hempty : leaf k.mem pgtbl va = 0 := (pgtbl_create_spec hf hc).2.2.1 _ (by simp [path])
  have hbits : ∀ b, (PTE_FLAGS (leaf k'.mem pgtbl va)).testBit b = true ↔
      perm.testBit b = true ∨ ∃ e ∈ es, e.Covers va ∧ e.perm.testBit b = true := by
    intro b
    have hpage : va / PGSIZE = va % MAXVA / PGSIZE := by rw [Nat.mod_eq_of_lt hva]
    rw [hgains va hva b, hhistory va hva b, and_iff_right hpage, or_comm]
    refine or_congr_right (or_iff_right ?_)
    rw [show leaf _ _ va = 0 from hempty, PTE_FLAGS, Nat.zero_and, Nat.zero_testBit]
    exact Bool.false_ne_true
  refine ⟨hbits, ?_⟩
  constructor
  · intro heq e he hcov
    rw [or_eq_right_iff]
    intro b hb
    rw [← heq, hbits b]
    exact .inr ⟨e, he, hcov, hb⟩
  · intro hall
    apply Nat.eq_of_testBit_eq
    intro b
    rw [Bool.eq_iff_iff, hbits b]
    refine or_iff_left_of_imp ?_
    rintro ⟨e, he, hcov, hb⟩
    exact or_eq_right_iff.mp (hall e he hcov) b hb

/-- A page mapped with `PTE_V`, then with `PTE_V` and `PTE_W`. -/
theorem remap_flags_more : ∃ pgtbl k s k', pgtbl_create (Vm.spare 8) = some (pgtbl, k) ∧
    run step ⟨k, ⟨pgtbl, []⟩⟩ [.alloc 0 0x4000 1] = some s ∧
      map_single_page s.kern pgtbl 0 0x80000000 0x101 = some k' ∧
      PTE_FLAGS (leaf k'.mem pgtbl 0) = 0x101 := by
  obtain ⟨⟨pgtbl, k⟩, hc⟩ : ∃ r, pgtbl_create (Vm.spare 8) = some r := ⟨_, rfl⟩
  have heval : ((pgtbl_create (Vm.spare 8)).bind fun r =>
      (run step ⟨r.2, ⟨r.1, []⟩⟩ [.alloc 0 0x4000 1]).bind fun s =>
        (map_single_page s.kern r.1 0 0x80000000 0x101).map fun _ => true) = some true := by
    decide +kernel
  rw [hc, Option.bind_some] at heval
  obtain ⟨s, hrun, hrest⟩ := Option.bind_eq_some_iff.mp heval
  obtain ⟨k', hk, -⟩ := Option.map_eq_some_iff.mp hrest
  refine ⟨pgtbl, k, s, k', hc, hrun, hk, ?_⟩
  have hes : ∀ e ∈ [Event.alloc 0 0x4000 1], FlagBits e.perm := by
    intro e he
    rw [List.mem_singleton.mp he]
    exact (by decide : (1 : ℕ) &&& FLAGMASK = 1)
  refine (remap_flags (Vm.spare_fresh (by norm_num)) hc hes hrun (by norm_num)
    (show FlagBits 0x101 from (by decide : (0x101 : ℕ) &&& FLAGMASK = 0x101)) hk).2.mpr ?_
  intro e he _
  rw [List.mem_singleton.mp he]
  exact (by decide : (1 : ℕ) ||| 0x101 = 0x101)

/-- A page mapped with `PTE_V` and `PTE_W`, then with `PTE_V` alone, is still writable. -/
theorem remap_keeps_rights : Fresh (Vm.spare 8) [] ∧ FlagBits 0x101 ∧ FlagBits 1 ∧
    ∃ pgtbl k s k', pgtbl_create (Vm.spare 8) = some (pgtbl, k) ∧
      run step ⟨k, ⟨pgtbl, []⟩⟩ [.alloc 0 0x4000 0x101] = some s ∧
      map_single_page s.kern pgtbl 0 0x80000000 1 = some k' ∧
      PTE_FLAGS (leaf k'.mem pgtbl 0) = 0x101 ∧ PTE_FLAGS (leaf k'.mem pgtbl 0) ≠ 1 := by
  refine ⟨Vm.spare_fresh (by norm_num), (by decide : (0x101 : ℕ) &&& FLAGMASK = 0x101),
    (by decide : (1 : ℕ) &&& FLAGMASK = 1), ?_⟩
  obtain ⟨⟨pgtbl, k⟩, hc⟩ : ∃ r, pgtbl_create (Vm.spare 8) = some r := ⟨_, rfl⟩
  have heval : ((pgtbl_create (Vm.spare 8)).bind fun r =>
      (run step ⟨r.2, ⟨r.1, []⟩⟩ [.alloc 0 0x4000 0x101]).bind fun s =>
        (map_single_page s.kern r.1 0 0x80000000 1).map fun k' =>
          PTE_FLAGS (leaf k'.mem r.1 0)) = some 0x101 := by
    decide +kernel
  rw [hc, Option.bind_some] at heval
  obtain ⟨s, hrun, hrest⟩ := Option.bind_eq_some_iff.mp heval
  obtain ⟨k', hk, hflags⟩ := Option.map_eq_some_iff.mp hrest
  exact ⟨pgtbl, k, s, k', hc, hrun, hk, hflags, by rw [hflags]; decide⟩

end Loos.Remap
