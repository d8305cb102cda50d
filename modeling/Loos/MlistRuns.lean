/-
The list of `mlist.c` against the sequence it stands for, over whole runs.

A run starts with `mlist_init` on a fresh heap and goes on with any calls; the
blocks come from `malloc` and go back to `free`. Next to the heap it keeps the
sequence, the elements that are freed and not yet handed out again, and what the
last call has returned and should have.

A call is clear of the forgotten links ([`Clear`]) if it adds, searches, or takes
the only element out. In the state after any other one the list is broken: the
walk from the side that was not updated still has the old length, and ends in the
freed element. So the list is a sequence all the time exactly in the runs of
clear calls.
-/
import Loos.Mlist
import Loos.Lib.Runs

set_option autoImplicit false

namespace Loos.Mlist

open SysLib Kern Stdlib

/-! ## States and events -/

/-- The heap and the list; the sequence; the freed elements; the last result, and
what it should be (`0` for `NULL` and for a call without a result). -/
structure Sys where
  heap : Heap
  list : ℕ
  seq : List ℕ
  freed : List ℕ
  ret : ℕ
  expected : ℕ

/-- A call. -/
inductive Event where
  | push (data : ℕ)
  | append (data : ℕ)
  | pop
  | remove (data : ℕ)
  | find (func : ℕ → Bool)

/-- `mlist_init` on a fresh heap. -/
def start (k : Kern) : Option Sys :=
  (Exec.mlist_init (Heap.init k)).map fun r => ⟨r.2, r.1, [], [], 0, 0⟩

/-- One call; `none` if it ends in a `panic` or an `assert`. A datum is a pointer,
and only one that is present is removed. -/
def step (s : Sys) : Event → Option Sys
  | .push d =>
    if d < 2 ^ 64 then
      (mlist_push s.heap s.list d).map fun h =>
        { s with
          heap := h
          seq := d :: s.seq
          freed := s.freed.filter fun x => decide (x ≠ head h s.list)
          ret := 0
          expected := 0 }
    else none
  | .append d =>
    if d < 2 ^ 64 then
      (mlist_append s.heap s.list d).map fun h =>
        { s with
          heap := h
          seq := s.seq ++ [d]
          freed := s.freed.filter fun x => decide (x ≠ tail h s.list)
          ret := 0
          expected := 0 }
    else none
  | .pop =>
    some { s with
      heap := (mlist_pop s.heap s.list).2
      seq := s.seq.tail
      freed := if mlist_is_empty s.heap s.list then s.freed else head s.heap s.list :: s.freed
      ret := (mlist_pop s.heap s.list).1
      expected := s.seq.headD 0 }
  | .remove d =>
    if d ∈ s.seq then
      (mlist_remove s.heap s.list d).map fun h =>
        { s with
          heap := h
          seq := s.seq.erase d
          freed := (seek s.heap (fun x => x == d) seek_max (head s.heap s.list)).getD 0 :: s.freed
          ret := 0
          expected := 0 }
    else none
  | .find func =>
    (mlist_find s.heap s.list func).map fun v =>
      { s with ret := v, expected := (s.seq.find? func).getD 0 }

/-- The elements that can be reached from the header. -/
inductive Reaches (h : Heap) (list : ℕ) : ℕ → Prop where
  | head (h0 : head h list ≠ 0) : Reaches h list (head h list)
  | tail (h0 : tail h list ≠ 0) : Reaches h list (tail h list)
  | next {e : ℕ} (he : Reaches h list e) (h0 : next h e ≠ 0) : Reaches h list (next h e)
  | prev {e : ℕ} (he : Reaches h list e) (h0 : prev h e ≠ 0) : Reaches h list (prev h e)

/-- **The list is the sequence**: from the head it is walked forwards, from the
tail backwards; both ends are `NULL` together; no freed element can be reached;
and the last call has returned what it should. -/
structure Refines (s : Sys) : Prop where
  next_walk : ∃ es, Chain (next s.heap) (head s.heap s.list) es ∧ es.map (data s.heap) = s.seq
  prev_walk : ∃ es, Chain (prev s.heap) (tail s.heap s.list) es ∧
    es.map (data s.heap) = s.seq.reverse
  empty : head s.heap s.list = 0 ↔ tail s.heap s.list = 0
  clean : ∀ e, Reaches s.heap s.list e → e ∉ s.freed
  result : s.ret = s.expected

/-- The call takes nothing out, or the only element. -/
def Clear (s : Sys) : Event → Prop
  | .pop | .remove _ => s.seq.length ≤ 1
  | _ => True

instance (s : Sys) : ∀ e, Decidable (Clear s e)
  | .push _ => .isTrue trivial
  | .append _ => .isTrue trivial
  | .pop => inferInstanceAs (Decidable (_ ≤ _))
  | .remove _ => inferInstanceAs (Decidable (_ ≤ _))
  | .find _ => .isTrue trivial

/-- The invariant of the runs of clear calls. -/
def Good (s : Sys) : Prop :=
  (∃ es, Repr s.heap s.list s.freed es s.seq) ∧ s.ret = s.expected

/-! ## The invariant -/

variable {s s' : Sys} {e : Event} {es : List Event} {h h' : Heap} {list elem d x : ℕ}
  {elems freed l : List ℕ}

theorem Repr.mem_of_reaches (hr : Repr h list freed elems l) (hx : Reaches h list x) : x ∈ elems := by
  have hstep : ∀ {nxt : ℕ → ℕ} {a : ℕ} {xs : List ℕ}, Chain nxt a xs →
      (a ≠ 0 → a ∈ xs) ∧ ∀ y ∈ xs, nxt y ≠ 0 → nxt y ∈ xs := by
    intro nxt a xs hc
    induction xs generalizing a with
    | nil => exact ⟨fun h0 => absurd hc h0, fun y hy => absurd hy List.not_mem_nil⟩
    | cons y xs ih =>
      obtain ⟨rfl, -, hrest⟩ := hc
      obtain ⟨hfirst, hnext⟩ := ih hrest
      refine ⟨fun _ => List.mem_cons_self, fun z hz h0 => List.mem_cons_of_mem a ?_⟩
      rcases List.mem_cons.mp hz with rfl | hz
      · exact hfirst h0
      · exact hnext z hz h0
  induction hx with
  | head h0 => exact (hstep hr.fwd).1 h0
  | tail h0 => exact List.mem_reverse.mp ((hstep hr.bwd).1 h0)
  | next _ h0 ih => exact (hstep hr.fwd).2 _ ih h0
  | prev _ h0 ih => exact List.mem_reverse.mp ((hstep hr.bwd).2 _ (List.mem_reverse.mpr ih) h0)

theorem Good.refines (hs : Good s) : Refines s := by
  obtain ⟨⟨es, hr⟩, hret⟩ := hs
  refine ⟨⟨es, hr.fwd, hr.vals⟩, ⟨es.reverse, hr.bwd, ?_⟩, ?_, fun x hx hf => ?_, hret⟩
  · rw [List.map_reverse, hr.vals]
  · rw [Chain.head_eq_zero hr.fwd, Chain.head_eq_zero hr.bwd, List.reverse_eq_nil_iff]
  · obtain ⟨g, -, hc, hfreed⟩ := hr.cells
    exact hfreed x hf (hc.elems x (hr.mem_of_reaches hx)).live

/-- When the only element has been taken out, the list is empty. -/
theorem Taken.empty (ht : Taken h h' list elem 0 0 freed [elem]) :
    Repr h' list (elem :: freed) [] [] := by
  obtain ⟨g, hg, hc, hfreed⟩ := ht.cells
  refine ⟨⟨g, hg, ?_, hfreed⟩, ht.first, ht.last, rfl⟩
  simpa using hc

theorem Repr.find (hr : Repr h list freed elems l) (func : ℕ → Bool) :
    mlist_find h list func = some ((l.find? func).getD 0) := by
  have hfind : l.find? func = (elems.find? fun e => func (data h e)).map (data h) := by
    rw [← hr.vals, List.find?_map]
    rfl
  unfold mlist_find
  by_cases h0 : head h list = 0
  · have hnil : elems = [] := (Chain.head_eq_zero hr.fwd).mp h0
    subst hnil
    rw [if_pos (by rw [mlist_is_empty, h0]; rfl), hfind]
    rfl
  · rw [if_neg (by simpa [mlist_is_empty] using h0), seek_chain hr.fwd hr.length_lt, hfind,
      Option.map_some]
    cases hfound : elems.find? fun e => func (data h e) with
    | none => rfl
    | some x =>
      have hx : x ≠ 0 := hr.fwd.ne_zero_of_mem (List.mem_of_find?_eq_some hfound)
      rw [Option.getD_some, if_neg hx]
      rfl

/-- A datum that is present is found, at the first element that has it. -/
theorem Repr.exists_elem (hr : Repr h list freed elems l) (hd : d ∈ l) :
    ∃ x, elems.find? (fun x => data h x == d) = some x := by
  rw [← Option.isSome_iff_exists, List.find?_isSome]
  rw [← hr.vals] at hd
  obtain ⟨x, hx, rfl⟩ := List.mem_map.mp hd
  exact ⟨x, hx, beq_self_eq_true _⟩

theorem Repr.pop_nil (hr : Repr h list freed [] l) : mlist_pop h list = (0, h) := by
  have h0 : head h list = 0 := hr.fwd
  unfold mlist_pop
  rw [if_pos (by rw [mlist_is_empty, h0]; rfl)]

theorem Repr.not_empty (hr : Repr h list freed (elem :: elems) l) :
    head h list = elem ∧ mlist_is_empty h list = false := by
  have hhead : head h list = elem := hr.fwd.1
  refine ⟨hhead, ?_⟩
  rw [mlist_is_empty, hhead]
  simpa using hr.fwd.2.1

/-- The links of a list of one element. -/
theorem Repr.single (hr : Repr h list freed [elem] l) : head h list = elem ∧ tail h list = elem ∧
    next h elem = 0 ∧ prev h elem = 0 ∧ l = [data h elem] :=
  ⟨hr.fwd.1, hr.bwd.1, hr.fwd.2.2, hr.bwd.2.2, hr.vals.symm⟩

theorem Good.of_step (hs : Good s) (hok : Clear s e) (h : step s e = some s') : Good s' := by
  obtain ⟨⟨es, hr⟩, -⟩ := hs
  cases e with
  | push d =>
    rw [step] at h
    split_ifs at h with hd
    obtain ⟨h', hm, rfl⟩ := Option.map_eq_some_iff.mp h
    obtain ⟨x, hx, hr'⟩ := hr.push hd hm
    subst hx
    exact ⟨⟨_, hr'⟩, rfl⟩
  | append d =>
    rw [step] at h
    split_ifs at h with hd
    obtain ⟨h', hm, rfl⟩ := Option.map_eq_some_iff.mp h
    obtain ⟨x, hx, hr'⟩ := hr.append hd hm
    subst hx
    exact ⟨⟨_, hr'⟩, rfl⟩
  | pop =>
    obtain rfl := Option.some.inj h
    have hlen : es.length ≤ 1 := by
      have hok : s.seq.length ≤ 1 := hok
      rwa [← hr.vals, List.length_map] at hok
    cases es with
    | nil =>
      have hseq : s.seq = [] := hr.vals.symm
      have hempty : mlist_is_empty s.heap s.list = true := by
        rw [mlist_is_empty, show head s.heap s.list = 0 from hr.fwd]
        rfl
      refine ⟨⟨[], ?_⟩, ?_⟩
      · dsimp only
        rw [hr.pop_nil, if_pos hempty]
        rwa [hseq] at hr ⊢
      · dsimp only
        rw [hr.pop_nil, hseq]
        rfl
    | cons x t =>
      obtain rfl : t = [] := by simpa using hlen
      obtain ⟨hdata, htaken⟩ := hr.pop_cons
      rw [if_pos rfl, if_pos rfl] at htaken
      obtain ⟨hhead, hempty⟩ := hr.not_empty
      have hseq : s.seq = [data s.heap x] := hr.single.2.2.2.2
      refine ⟨⟨[], ?_⟩, ?_⟩
      · dsimp only
        rw [if_neg (by simp [hempty]), hhead, hseq]
        exact htaken.empty
      · dsimp only
        rw [hdata, hseq]
        rfl
  | remove d =>
    rw [step] at h
    split_ifs at h with hd
    obtain ⟨h', hm, rfl⟩ := Option.map_eq_some_iff.mp h
    obtain ⟨x, hfind⟩ := hr.exists_elem hd
    have hlen : es.length ≤ 1 := by
      have hok : s.seq.length ≤ 1 := hok
      rwa [← hr.vals, List.length_map] at hok
    have hes : es = [x] := by
      have hx := List.mem_of_find?_eq_some hfind
      cases es with
      | nil => cases hx
      | cons y t =>
        obtain rfl : t = [] := by simpa using hlen
        rw [List.mem_singleton.mp hx]
    subst hes
    obtain ⟨h₁, hm₁, htaken⟩ := hr.remove_at hfind
    obtain rfl := Option.some.inj (hm₁.symm.trans hm)
    obtain ⟨hhead, htail, hnext, hprev, hseq⟩ := hr.single
    rw [hhead, htail, if_pos rfl, if_pos rfl, hnext, hprev] at htaken
    refine ⟨⟨[], ?_⟩, rfl⟩
    dsimp only
    rw [seek_chain hr.fwd hr.length_lt, hfind, hseq]
    have hdata : d = data s.heap x := by
      rw [hseq] at hd
      exact List.mem_singleton.mp hd
    rw [hdata, List.erase_cons_head]
    exact htaken.empty
  | find func =>
    rw [step, hr.find] at h
    obtain rfl := Option.some.inj h
    exact ⟨⟨es, hr⟩, rfl⟩

theorem Good.start {k : Kern} (hf : Fresh k []) (h : start k = some s) : Good s := by
  obtain ⟨⟨p, h₂⟩, hinit, rfl⟩ := Option.map_eq_some_iff.mp h
  rw [mlist_init_eq] at hinit
  obtain ⟨⟨q, h₁⟩, hmalloc, he⟩ := Option.map_eq_some_iff.mp hinit
  obtain ⟨rfl, rfl⟩ := Prod.mk.inj he
  have hsound : HeapRuns.Sound (HeapRuns.init k) :=
    ⟨(HeapRuns.Inv.init hf).1, (HeapRuns.Inv.init hf).2⟩
  have hfits : HeapRuns.HeadFits (HeapRuns.init k).heap Exec.mlist_size :=
    fun h => absurd h (by decide)
  have hrounds : HeapRuns.RoundsAlike (HeapRuns.init k) Exec.mlist_size :=
    fun _ r hr => absurd hr List.not_mem_nil
  obtain ⟨c, rfl, hsound₁, -, -⟩ := hsound.malloc (by decide) hfits hrounds hmalloc
  have hcells : Cells ((HeapRuns.init k).allocated h₁ c Exec.mlist_size) (c + chunk_info_size) [] := by
    refine ⟨hsound₁, ⟨_, List.mem_cons_self, rfl, rfl⟩, fun x hx => absurd hx List.not_mem_nil,
      fun r hr => .inr ?_⟩
    have hr : r ∈ [⟨c, Exec.mlist_size⟩] := hr
    rw [List.mem_singleton.mp hr]
    rfl
  obtain ⟨hc₁, hl₁, -⟩ := hcells.header_written (i := 0) (v := 0) (by decide) (by decide)
  obtain ⟨hc₂, hl₂, -⟩ := hc₁.header_written (i := 1) (v := 0) (by decide) (by decide)
  have hhead := (hl₂ 0 (by decide)).trans ((if_neg (by decide)).trans (hl₁ 0 (by decide)))
  have htail := hl₂ 1 (by decide)
  rw [if_pos rfl] at hhead htail
  exact ⟨⟨[], ⟨_, rfl, hc₂, fun x hx => absurd hx List.not_mem_nil⟩, hhead, htail, rfl⟩, rfl⟩

/-! ## The forgotten links -/

/-- The walk from a side whose end has not been moved is as long as before. -/
theorem Taken.prev_walk {u : ℕ} (ht : Taken h h' list elem u (tail h list) freed elems)
    (hr : Repr h list freed elems l) : Chain (prev h') (tail h' list) elems.reverse := by
  rw [ht.last]
  exact hr.bwd.congr fun y hy => ht.old y (List.mem_reverse.mp hy) 0 (by decide)

theorem Taken.next_walk {w : ℕ} (ht : Taken h h' list elem (head h list) w freed elems)
    (hr : Repr h list freed elems l) : Chain (next h') (head h' list) elems := by
  rw [ht.first]
  exact hr.fwd.congr fun y hy => ht.old y hy 1 (by decide)

theorem Refines.length_prev (hs : Refines s) {es : List ℕ}
    (hwalk : Chain (prev s.heap) (tail s.heap s.list) es) : es.length = s.seq.length := by
  obtain ⟨es', hc, hvals⟩ := hs.prev_walk
  obtain rfl := hc.unique hwalk
  have hlen := congrArg List.length hvals
  rwa [List.length_map, List.length_reverse] at hlen

theorem Refines.length_next (hs : Refines s) {es : List ℕ}
    (hwalk : Chain (next s.heap) (head s.heap s.list) es) : es.length = s.seq.length := by
  obtain ⟨es', hc, hvals⟩ := hs.next_walk
  obtain rfl := hc.unique hwalk
  have hlen := congrArg List.length hvals
  rwa [List.length_map] at hlen

/-- **Every other call breaks the list.** -/
theorem Good.broken (hs : Good s) (hok : ¬ Clear s e) (h : step s e = some s') : ¬ Refines s' := by
  obtain ⟨⟨es, hr⟩, -⟩ := hs
  have hlen : es.length = s.seq.length := by rw [← hr.vals, List.length_map]
  intro href
  cases e with
  | push d => exact hok trivial
  | append d => exact hok trivial
  | find func => exact hok trivial
  | pop =>
    have hlong : ¬ s.seq.length ≤ 1 := hok
    obtain rfl := Option.some.inj h
    cases es with
    | nil =>
      rw [← hlen] at hlong
      exact hlong (Nat.zero_le 1)
    | cons x t =>
      have ht : t ≠ [] := by
        rintro rfl
        rw [← hlen] at hlong
        exact hlong le_rfl
      -- `head` has moved on, but the walk backwards still ends in the freed element
      obtain ⟨-, htaken⟩ := hr.pop_cons
      rw [if_neg ht, if_neg ht] at htaken
      have hwalk := href.length_prev (htaken.prev_walk hr)
      dsimp only at hwalk
      rw [List.length_reverse, List.length_tail] at hwalk
      omega
  | remove d =>
    have hlong : ¬ s.seq.length ≤ 1 := hok
    rw [step] at h
    split_ifs at h with hd
    obtain ⟨h', hm, rfl⟩ := Option.map_eq_some_iff.mp h
    obtain ⟨x, hfind⟩ := hr.exists_elem hd
    obtain ⟨h₁, hm₁, htaken⟩ := hr.remove_at hfind
    obtain rfl := Option.some.inj (hm₁.symm.trans hm)
    have herase : (s.seq.erase d).length = s.seq.length - 1 := List.length_erase_of_mem hd
    by_cases hx : x = head s.heap s.list
    · -- the first element: the walk backwards has not changed
      have hnl : x ≠ tail s.heap s.list := by
        have hxm := List.mem_of_find?_eq_some hfind
        cases es with
        | nil => cases hxm
        | cons y t =>
          have hhead := hr.not_empty.1
          rw [hx, hhead]
          intro hlast
          rw [hr.first_eq_last.mp hlast] at hlen
          exact hlong (le_of_eq hlen.symm)
      rw [if_neg hnl] at htaken
      have hwalk := href.length_prev (htaken.prev_walk hr)
      dsimp only at hwalk
      rw [List.length_reverse, herase] at hwalk
      omega
    · -- any other one: the walk forwards has not changed
      rw [if_neg hx] at htaken
      have hwalk := href.length_next (htaken.next_walk hr)
      dsimp only at hwalk
      rw [herase] at hwalk
      omega

/-! ## Runs -/

theorem Good.of_run (hs : Good s) (hok : Meets step Clear s es) (hrun : run step s es = some s') :
    Good s' :=
  run_invariant Clear Good (fun _ _ _ hs hok h => hs.of_step hok h) hs hok hrun

/-- **When the list is the sequence.** In a run from `mlist_init`, the list is the
sequence in every state if and only if every call that takes an element out takes
out the only one. -/
theorem mlist_refines_iff {k : Kern} {s₀ : Sys} (hf : Fresh k []) (h0 : start k = some s₀)
    (hrun : run step s₀ es = some s) :
    (∀ es₁ es₂ s₁, es = es₁ ++ es₂ → run step s₀ es₁ = some s₁ → Refines s₁) ↔
      Meets step Clear s₀ es := by
  have hs : Good s₀ := Good.start hf h0
  clear h0 hf
  constructor
  · intro hall
    induction es generalizing s₀ with
    | nil => trivial
    | cons e es ih =>
      obtain ⟨s₁, h₁, h₂⟩ := run_cons_eq_some.mp hrun
      have hrun₁ : run step s₀ [e] = some s₁ := run_cons_eq_some.mpr ⟨s₁, h₁, rfl⟩
      have hclear : Clear s₀ e := by
        by_contra hok
        exact hs.broken hok h₁ (hall [e] es s₁ rfl hrun₁)
      refine ⟨hclear, fun s₂ hs₂ => ?_⟩
      obtain rfl := Option.some.inj (h₁.symm.trans hs₂)
      refine ih h₂ (hs.of_step hclear h₁) (fun es₁ es₂ s₂ he hs₂ => ?_)
      refine hall (e :: es₁) es₂ s₂ (by rw [he, List.cons_append]) ?_
      exact run_cons_eq_some.mpr ⟨s₁, h₁, hs₂⟩
  · rintro hok es₁ es₂ s₁ rfl h₁
    exact (hs.of_run hok.of_append h₁).refines

/-- A list filled from both ends, searched, and emptied twice by its last element. -/
def clear_calls : List Event :=
  [.push 7, .pop, .pop, .append 5, .remove 5, .push 3, .append 4, .push 3, .find (· == 4)]

theorem mlist_refines_clear_calls :
    ∃ s₀ s, start HeapRuns.onePage = some s₀ ∧ run step s₀ clear_calls = some s ∧
      s.seq = [3, 3, 4] ∧ s.ret = 4 ∧ ∀ es₁ es₂ s₁, clear_calls = es₁ ++ es₂ →
        run step s₀ es₁ = some s₁ → Refines s₁ := by
  have hstart : (start HeapRuns.onePage).isSome := by decide +kernel
  obtain ⟨s₀, h₀⟩ := Option.isSome_iff_exists.mp hstart
  have heval : ((start HeapRuns.onePage).bind fun s₀ => run step s₀ clear_calls).map
      (fun s => (s.seq, s.ret)) = some ([3, 3, 4], 4) := by decide +kernel
  have hmeets : ∀ s₀ ∈ start HeapRuns.onePage, Meets step Clear s₀ clear_calls := by decide +kernel
  rw [h₀, Option.bind_some] at heval
  obtain ⟨s, hs, he⟩ := Option.map_eq_some_iff.mp heval
  obtain ⟨hseq, hret⟩ := Prod.mk.inj he
  exact ⟨s₀, s, h₀, hs, hseq, hret,
    (mlist_refines_iff HeapRuns.onePage_fresh h₀ hs).mpr (hmeets s₀ h₀)⟩

/-- After two pushes and a pop the element that is left still has the freed one
in front of it. -/
theorem mlist_pop_dangling :
    ∃ s₀ s, start HeapRuns.onePage = some s₀ ∧ run step s₀ [.push 1, .push 2, .pop] = some s ∧
      s.seq = [1] ∧ ¬ Refines s := by
  have hstart : (start HeapRuns.onePage).isSome := by decide +kernel
  obtain ⟨s₀, h₀⟩ := Option.isSome_iff_exists.mp hstart
  have heval : ((start HeapRuns.onePage).bind fun s₀ => run step s₀ [.push 1, .push 2, .pop]).map
      (fun s => (s.seq, decide (head s.heap s.list ≠ 0),
        decide (prev s.heap (head s.heap s.list) ≠ 0),
        decide (prev s.heap (head s.heap s.list) ∈ s.freed))) =
      some ([1], true, true, true) := by decide +kernel
  rw [h₀, Option.bind_some] at heval
  obtain ⟨s, hs, he⟩ := Option.map_eq_some_iff.mp heval
  simp only [Prod.mk.injEq, decide_eq_true_eq] at he
  obtain ⟨hseq, hhead, hprev, hfreed⟩ := he
  refine ⟨s₀, s, h₀, hs, hseq, fun href => ?_⟩
  exact href.clean _ (.prev (.head hhead) hprev) hfreed

end Loos.Mlist
