/-
Runs of a deterministic transition function driven by a list of events.

`step s e = none` means that the event cannot happen in `s` (the machine has
halted, or the event is not enabled). A run that reaches such an event has no
final state, so a statement about every state a run reaches is a statement
about `run step s es = some s'`.

[`Meets`] is the guard of a conditional result: every event of the run is met
by the condition `Ok` in the state in which it happens. With `Ok` always true
[`run_invariant`] is the plain invariant rule.
-/
import Mathlib.Data.Option.Basic
import Mathlib.Tactic.Common

set_option autoImplicit false

namespace SysLib

variable {σ ε : Type*}

/-- The state after the events `es`, if every one of them can happen. -/
def run (step : σ → ε → Option σ) : σ → List ε → Option σ
  | s, [] => some s
  | s, e :: es => (step s e).bind fun s' => run step s' es

/-- Every event of the run from `s` meets `Ok` where it happens. -/
def Meets (step : σ → ε → Option σ) (Ok : σ → ε → Prop) : σ → List ε → Prop
  | _, [] => True
  | s, e :: es => Ok s e ∧ ∀ s', step s e = some s' → Meets step Ok s' es

/-- A state that some run from `s₀` reaches. -/
def Reachable (step : σ → ε → Option σ) (s₀ s : σ) : Prop :=
  ∃ es, run step s₀ es = some s

variable {step : σ → ε → Option σ} {Ok : σ → ε → Prop} {s s' : σ} {e : ε} {es es' : List ε}

@[simp] theorem run_nil : run step s [] = some s := rfl

theorem run_cons : run step s (e :: es) = (step s e).bind fun s' => run step s' es := rfl

theorem run_cons_eq_some :
    run step s (e :: es) = some s' ↔ ∃ s₁, step s e = some s₁ ∧ run step s₁ es = some s' := by
  rw [run_cons, Option.bind_eq_some_iff]

theorem run_append :
    run step s (es ++ es') = (run step s es).bind fun s₁ => run step s₁ es' := by
  induction es generalizing s with
  | nil => rfl
  | cons e es ih =>
    rw [List.cons_append, run_cons, run_cons, Option.bind_assoc]
    exact congrArg _ (funext fun s₁ => ih)

theorem run_append_eq_some :
    run step s (es ++ es') = some s' ↔
      ∃ s₁, run step s es = some s₁ ∧ run step s₁ es' = some s' := by
  rw [run_append, Option.bind_eq_some_iff]

/-- The condition along a run whose first step is known. -/
theorem Meets.cons (hok : Ok s e) (hs : step s e = some s') (h : Meets step Ok s' es) :
    Meets step Ok s (e :: es) := by
  refine ⟨hok, fun s₁ h₁ => ?_⟩
  obtain rfl : s' = s₁ := Option.some.inj (hs.symm.trans h₁)
  exact h

theorem Meets.append (h : Meets step Ok s es) (hrun : run step s es = some s')
    (h' : Meets step Ok s' es') : Meets step Ok s (es ++ es') := by
  induction es generalizing s with
  | nil =>
    obtain rfl : s = s' := by simpa using hrun
    exact h'
  | cons e es ih =>
    obtain ⟨s₁, h₁, h₂⟩ := run_cons_eq_some.mp hrun
    exact Meets.cons h.1 h₁ (ih (h.2 s₁ h₁) h₂)

theorem Meets.of_append (h : Meets step Ok s (es ++ es')) : Meets step Ok s es := by
  induction es generalizing s with
  | nil => trivial
  | cons e es ih => exact ⟨h.1, fun s₁ h₁ => ih (h.2 s₁ h₁)⟩

theorem Meets.of_run (h : Meets step Ok s (es ++ es')) (hrun : run step s es = some s') :
    Meets step Ok s' es' := by
  induction es generalizing s with
  | nil =>
    obtain rfl : s = s' := by simpa using hrun
    exact h
  | cons e es ih =>
    obtain ⟨s₁, h₁, h₂⟩ := run_cons_eq_some.mp hrun
    exact ih (h.2 s₁ h₁) h₂

/-- **The run rule.** What one admissible step preserves, an admissible run
preserves. -/
theorem run_invariant (Ok : σ → ε → Prop) (Inv : σ → Prop)
    (hstep : ∀ s e s', Inv s → Ok s e → step s e = some s' → Inv s')
    (hs : Inv s) (hok : Meets step Ok s es) (hrun : run step s es = some s') : Inv s' := by
  induction es generalizing s with
  | nil =>
    obtain rfl : s = s' := by simpa using hrun
    exact hs
  | cons e es ih =>
    obtain ⟨s₁, h₁, h₂⟩ := run_cons_eq_some.mp hrun
    exact ih (hstep s e s₁ hs hok.1 h₁) (hok.2 s₁ h₁) h₂

/-- A condition on the events alone. -/
theorem Meets.of_forall_mem (h : ∀ e ∈ es, ∀ s, Ok s e) : Meets step Ok s es := by
  induction es generalizing s with
  | nil => trivial
  | cons e es ih =>
    exact ⟨h e List.mem_cons_self s, fun _ _ => ih fun e' he' => h e' (List.mem_cons_of_mem e he')⟩

/-- Every event of the run, with the state it meets. -/
theorem meets_iff : Meets step Ok s es ↔ ∀ es₁ e es₂ s₁, es = es₁ ++ e :: es₂ →
    run step s es₁ = some s₁ → Ok s₁ e := by
  constructor
  · rintro h es₁ e es₂ s₁ rfl hrun
    exact (h.of_run hrun).1
  · intro h
    induction es generalizing s with
    | nil => trivial
    | cons e es ih =>
      refine ⟨h [] e es s rfl rfl, fun s₁ h₁ => ih fun es₁ e' es₂ s₂ he hrun => ?_⟩
      exact h (e :: es₁) e' es₂ s₂ (by rw [he, List.cons_append])
        (run_cons_eq_some.mpr ⟨s₁, h₁, hrun⟩)

/-- **The rule for two conditions.** Where an invariant of the runs that meet one of them makes
the conditions the same, the runs that meet them are the same. -/
theorem meets_congr {Ok' : σ → ε → Prop} (Inv : σ → Prop)
    (hstep : ∀ s e s', Inv s → Ok s e → step s e = some s' → Inv s')
    (h : ∀ s e, Inv s → (Ok' s e ↔ Ok s e)) (hs : Inv s) :
    Meets step Ok' s es ↔ Meets step Ok s es := by
  induction es generalizing s with
  | nil => exact Iff.rfl
  | cons e es ih =>
    rw [Meets, Meets, h s e hs]
    refine and_congr_right fun hok => forall_congr' fun s₁ => forall_congr' fun h₁ => ?_
    exact ih (hstep s e s₁ hs hok h₁)

/-- **The rule for a property that is lost for good.** Where a step keeps it exactly if the step
meets the condition, a run has it at its end exactly if all of its steps meet the condition. -/
theorem run_keeps_iff (Inv P : σ → Prop)
    (hstep : ∀ s e s', Inv s → step s e = some s' → Inv s' ∧ (P s' ↔ P s ∧ Ok s e))
    (hs : Inv s) (hrun : run step s es = some s') : P s' ↔ P s ∧ Meets step Ok s es := by
  induction es generalizing s with
  | nil =>
    obtain rfl : s = s' := by simpa using hrun
    exact (and_iff_left trivial).symm
  | cons e es ih =>
    obtain ⟨s₁, h₁, h₂⟩ := run_cons_eq_some.mp hrun
    obtain ⟨hs₁, hkeeps⟩ := hstep s e s₁ hs h₁
    rw [ih hs₁ h₂, hkeeps, and_assoc]
    refine and_congr_right fun _ => ⟨fun h => Meets.cons h.1 h₁ h.2, fun h => ⟨h.1, h.2 s₁ h₁⟩⟩

/-- A property of every state of a run: it holds at the start, and after every event. -/
theorem forall_reached_iff (P : σ → Prop) :
    (∀ before after s', es = before ++ after → run step s before = some s' → P s') ↔
      P s ∧ Meets step (fun s e => ∀ s', step s e = some s' → P s') s es := by
  constructor
  · intro h
    refine ⟨h [] es s rfl rfl, meets_iff.mpr fun es₁ e es₂ s₁ he hrun s' hs => ?_⟩
    refine h (es₁ ++ [e]) es₂ s' (by rw [he, List.append_assoc]; rfl) ?_
    exact run_append_eq_some.mpr ⟨s₁, hrun, run_cons_eq_some.mpr ⟨s', hs, rfl⟩⟩
  · rintro ⟨h₀, h⟩ before after s' rfl hrun
    exact run_invariant (fun s e => ∀ s', step s e = some s' → P s') P
      (fun _ _ s' _ hok hs => hok s' hs) h₀ h.of_append hrun

theorem Meets.and {Ok' : σ → ε → Prop} (h : Meets step Ok s es) (h' : Meets step Ok' s es) :
    Meets step (fun s e => Ok s e ∧ Ok' s e) s es := by
  induction es generalizing s with
  | nil => trivial
  | cons e es ih => exact ⟨⟨h.1, h'.1⟩, fun s₁ h₁ => ih (h.2 s₁ h₁) (h'.2 s₁ h₁)⟩

/-- A decidable condition is decidable over a whole run. -/
instance decidableMeets [∀ s e, Decidable (Ok s e)] :
    ∀ (s : σ) (es : List ε), Decidable (Meets step Ok s es)
  | _, [] => .isTrue trivial
  | s, e :: es =>
    match h : step s e with
    | none => decidable_of_iff (Ok s e)
        ⟨fun hok => ⟨hok, fun _ hs => nomatch h.symm.trans hs⟩, And.left⟩
    | some s₁ =>
      have := decidableMeets s₁ es
      decidable_of_iff (Ok s e ∧ Meets step Ok s₁ es)
        ⟨fun hok => ⟨hok.1, fun _ hs => Option.some.inj (h.symm.trans hs) ▸ hok.2⟩,
          fun hok => ⟨hok.1, hok.2 s₁ h⟩⟩

/-- The run rule without a condition on the events. -/
theorem Reachable.invariant {s₀ : σ} (Inv : σ → Prop) (h₀ : Inv s₀)
    (hstep : ∀ s e s', Inv s → step s e = some s' → Inv s')
    (h : Reachable step s₀ s) : Inv s := by
  obtain ⟨es, hes⟩ := h
  exact run_invariant (fun _ _ => True) Inv (fun s e s' hs _ => hstep s e s' hs) h₀
    (.of_forall_mem fun _ _ _ => trivial) hes

end SysLib
