/-
Bounded loops.

`loop fuel c body s` runs `body` while `c` holds. It is `none` when the body
fails or when the fuel is used up with `c` still true, so a result is the
result of the unbounded loop. [`loop_spec`] is the total rule (an invariant and
a decreasing measure give a result), [`loop_inv`] the partial one.

[`Exits`] says that some fuel is enough. A loop whose turns get ahead or change nothing
exits exactly when it comes to no state that a turn does not change ([`exits_iff`]).
-/
import Mathlib.Data.Option.Basic
import Mathlib.Tactic.Common

set_option autoImplicit false

namespace SysLib

variable {σ : Type*}

/-- `while (c) body`, for at most `fuel` tests of `c`. -/
def loop (c : σ → Bool) (body : σ → Option σ) : ℕ → σ → Option σ
  | 0, _ => none
  | fuel + 1, s => if c s then (body s).bind (loop c body fuel) else some s

-- unfolding a loop with a large bound is never what a unifier should try
attribute [irreducible] loop

variable {c : σ → Bool} {f : σ → Option σ} {n : ℕ} {s s' : σ}

theorem loop_zero : loop c f 0 s = none := by
  unfold loop
  rfl

theorem loop_succ :
    loop c f (n + 1) s = if c s then (f s).bind (loop c f n) else some s := by
  conv_lhs => unfold loop

/-- **The partial rule.** -/
theorem loop_inv (Inv : σ → Prop)
    (hf : ∀ s s', Inv s → c s = true → f s = some s' → Inv s')
    (hs : Inv s) (h : loop c f n s = some s') : Inv s' ∧ c s' = false := by
  induction n generalizing s with
  | zero => simp [loop_zero] at h
  | succ n ih =>
    rw [loop_succ] at h
    by_cases hc : c s = true
    · rw [if_pos hc, Option.bind_eq_some_iff] at h
      obtain ⟨s₁, h₁, h₂⟩ := h
      exact ih (hf s s₁ hs hc h₁) h₂
    · rw [if_neg hc] at h
      obtain rfl : s = s' := by simpa using h
      exact ⟨hs, by simpa using hc⟩

/-- **The total rule.** -/
theorem loop_spec (Inv : σ → Prop) (μ : σ → ℕ)
    (hf : ∀ s, Inv s → c s = true → ∃ s', f s = some s' ∧ Inv s' ∧ μ s' < μ s)
    (hs : Inv s) (hn : μ s < n) :
    ∃ s', loop c f n s = some s' ∧ Inv s' ∧ c s' = false := by
  induction n generalizing s with
  | zero => omega
  | succ n ih =>
    rw [loop_succ]
    by_cases hc : c s = true
    · obtain ⟨s₁, h₁, hs₁, hμ⟩ := hf s hs hc
      rw [if_pos hc, h₁, Option.bind_some]
      exact ih hs₁ (by omega)
    · rw [if_neg hc]
      exact ⟨s, rfl, hs, by simpa using hc⟩

/-- **The rule for two loops.** Related states stay related from turn to turn. -/
theorem loop_sim {τ : Type*} {d : τ → Bool} {g : τ → Option τ} {t : τ} (R : σ → τ → Prop)
    (hc : ∀ s t, R s t → c s = d t)
    (hf : ∀ s t, R s t → c s = true → Option.Rel R (f s) (g t)) (h : R s t) :
    Option.Rel R (loop c f n s) (loop d g n t) := by
  induction n generalizing s t with
  | zero =>
    rw [loop_zero, loop_zero]
    exact .none
  | succ n ih =>
    rw [loop_succ, loop_succ, ← hc s t h]
    by_cases hcs : c s = true
    · rw [if_pos hcs, if_pos hcs]
      have hturn := hf s t h hcs
      cases hfs : f s with
      | none =>
        rw [hfs] at hturn
        cases hgt : g t with
        | none => exact .none
        | some t' => rw [hgt] at hturn; cases hturn
      | some s' =>
        rw [hfs] at hturn
        cases hgt : g t with
        | none => rw [hgt] at hturn; cases hturn
        | some t' =>
          rw [hgt] at hturn
          cases hturn with
          | some hst => exact ih hst
    · rw [if_neg hcs, if_neg hcs]
      exact .some h

/-! ## Loops without a bound -/

/-- The loop from `s` comes to an end. -/
def Exits (c : σ → Bool) (f : σ → Option σ) (s : σ) : Prop := ∃ n s', loop c f n s = some s'

/-- The states in which the loop from `s₀` tests its condition. -/
inductive Met (c : σ → Bool) (f : σ → Option σ) (s₀ : σ) : σ → Prop
  | start : Met c f s₀ s₀
  | turn {s s' : σ} (hs : Met c f s₀ s) (hc : c s = true) (hf : f s = some s') : Met c f s₀ s'

/-- What a loop ends with is one of them, the last. -/
theorem loop_met (h : loop c f n s = some s') : Met c f s s' ∧ c s' = false :=
  loop_inv (Met c f s) (fun _ _ hmet hc hf => hmet.turn hc hf) .start h

/-- From a state that is met, what is met is met from the start. -/
theorem Met.trans {s₀ : σ} (h : Met c f s₀ s) (h' : Met c f s s') : Met c f s₀ s' := by
  induction h' with
  | start => exact h
  | turn _ hc hf ih => exact ih.turn hc hf

theorem loop_of_turn (hc : c s = true) (hf : f s = some s') :
    loop c f (n + 1) s = loop c f n s' := by
  rw [loop_succ, if_pos hc, hf, Option.bind_some]

theorem Exits.of_turn (hc : c s = true) (hf : f s = some s') (h : Exits c f s') : Exits c f s := by
  obtain ⟨n, r, hr⟩ := h
  exact ⟨n + 1, r, by rw [loop_of_turn hc hf, hr]⟩

/-- From every state on the way the loop leads to the same end. -/
theorem loop_of_met {s₀ r : σ} (h : loop c f n s₀ = some r) (hs : Met c f s₀ s) :
    ∃ m, loop c f m s = some r := by
  induction hs with
  | start => exact ⟨n, h⟩
  | turn _ hc hf ih =>
    obtain ⟨m, hm⟩ := ih
    cases m with
    | zero => simp [loop_zero] at hm
    | succ m => exact ⟨m, by rw [← hm, loop_of_turn hc hf]⟩

theorem Exits.of_met {s₀ : σ} (h : Exits c f s₀) (hs : Met c f s₀ s) : Exits c f s := by
  obtain ⟨n, r, hr⟩ := h
  obtain ⟨m, hm⟩ := loop_of_met hr hs
  exact ⟨m, r, hm⟩

theorem Met.exits {s₀ : σ} (hs : Met c f s₀ s) (h : Exits c f s) : Exits c f s₀ := by
  induction hs with
  | start => exact h
  | turn _ hc hf ih => exact ih (.of_turn hc hf h)

theorem loop_of_exit (hc : c s = false) : loop c f (n + 1) s = some s := by
  rw [loop_succ, hc]
  rfl

/-- The only state on the way in which the condition is false is the last one. -/
theorem Met.eq_of_exit {s₀ r : σ} (hs : Met c f s₀ s) (hc : c s = false)
    (h : loop c f n s₀ = some r) : s = r := by
  obtain ⟨m, hm⟩ := loop_of_met h hs
  cases m with
  | zero => simp [loop_zero] at hm
  | succ m =>
    rw [loop_of_exit hc] at hm
    exact Option.some.inj hm

/-- A turn that changes nothing is repeated for ever. -/
theorem not_exits_of_fixed (hc : c s = true) (hf : f s = some s) : ¬ Exits c f s := by
  rintro ⟨n, r, hr⟩
  induction n with
  | zero => simp [loop_zero] at hr
  | succ n ih => exact ih (by rw [← hr, loop_of_turn hc hf])

section Ahead

variable (μ : σ → ℕ) (hf : ∀ s, c s = true → ∃ s', f s = some s' ∧ (s' = s ∨ μ s' < μ s))
include hf

/-- Where every turn gets ahead or stays, a loop that ends does so within its measure. -/
theorem Exits.bound (h : Exits c f s) : ∃ s', loop c f (μ s + 1) s = some s' := by
  have hturn : ∀ s, Exits c f s → c s = true → ∃ s', f s = some s' ∧ Exits c f s' ∧ μ s' < μ s := by
    intro s h hc
    obtain ⟨s', hs', rfl | hlt⟩ := hf s hc
    · exact absurd h (not_exits_of_fixed hc hs')
    · exact ⟨s', hs', h.of_met (.turn .start hc hs'), hlt⟩
  obtain ⟨s', hs', -⟩ := loop_spec (Exits c f) μ hturn h (Nat.lt_succ_self (μ s))
  exact ⟨s', hs'⟩

/-- **Where every turn gets ahead or stays, a loop ends when it comes to no state that
stays.** -/
theorem exits_iff : Exits c f s ↔ ∀ s', Met c f s s' → c s' = true → f s' ≠ some s' := by
  constructor
  · intro h s' hs hc hfix
    exact not_exits_of_fixed hc hfix (h.of_met hs)
  · intro h
    have hturn : ∀ s₁, Met c f s s₁ → c s₁ = true →
        ∃ s₂, f s₁ = some s₂ ∧ Met c f s s₂ ∧ μ s₂ < μ s₁ := by
      intro s₁ hs hc
      obtain ⟨s₂, h₂, rfl | hlt⟩ := hf s₁ hc
      · exact absurd h₂ (h s₂ hs hc)
      · exact ⟨s₂, h₂, hs.turn hc h₂, hlt⟩
    obtain ⟨s', hs', -⟩ := loop_spec (Met c f s) μ hturn .start (Nat.lt_succ_self (μ s))
    exact ⟨_, s', hs'⟩

end Ahead

end SysLib
