/-
Programs that depend on an environment.

A program of type `Prog Q A ε α` puts questions of type `Q` to its environment, goes
on with the answers, and ends with a value or stops with a failure. What a device
does with the questions is a handler with a state of its own ([`Prog.run`]); the
questions of a run are listed by [`Prog.asked`].

Two handlers that give the same answers lead a program to the same end
([`Prog.run_sim`]). [`Prog.Ends`] is what can be said without a handler: it holds
of a program and its end if it holds of the parts ([`Prog.ends_bind`]), and then it is
what the run comes to ([`Prog.run_ends`]).

A program can also note what it is about to do. The notes are questions that nobody
answers: [`Prog.erase`] takes them out, and [`Prog.notes`] lists those of a run.
-/
import Mathlib.Data.List.Basic
import Mathlib.Tactic.Common

set_option autoImplicit false

namespace SysLib

/-! ## Ends -/

section Ends

variable {ε α β : Type} {x y : Except ε α} {a : α}

/-- A value at the end means a value on the way. -/
theorem bind_eq_ok {f : α → Except ε β} {b : β} (h : x >>= f = .ok b) :
    ∃ a, x = .ok a ∧ f a = .ok b := by
  cases x with
  | error e => cases h
  | ok a => exact ⟨a, rfl, h⟩

theorem toOption_eq_some : x.toOption = some a ↔ x = .ok a := by
  cases x with
  | error e => simp [Except.toOption]
  | ok b => simp [Except.toOption]

/-- Which failure it is does not matter. -/
theorem toOption_bind (f : α → Except ε β) (h : x.toOption = y.toOption) :
    (x >>= f).toOption = (y >>= f).toOption := by
  cases x <;> cases y
  · rfl
  · cases h
  · cases h
  · rw [Option.some.inj h]

end Ends

/-! ## Programs -/

/-- A program with the questions `Q`, the answers `A` and the failures `ε`. -/
inductive Prog (Q A ε α : Type) where
  | ret (a : α)
  | stop (e : ε)
  | ask (q : Q) (k : A → Prog Q A ε α)

namespace Prog

variable {Q A ε α β γ σ τ : Type}

/-- First `p`, then `f` with the value of `p`. -/
def bind : Prog Q A ε α → (α → Prog Q A ε β) → Prog Q A ε β
  | ret a, f => f a
  | stop e, _ => stop e
  | ask q k, f => ask q fun a => bind (k a) f

instance : Monad (Prog Q A ε) where
  pure := ret
  bind := bind

@[simp] theorem pure_def (a : α) : (pure a : Prog Q A ε α) = ret a := rfl

@[simp] theorem ret_bind (a : α) (f : α → Prog Q A ε β) : (ret a >>= f) = f a := rfl

@[simp] theorem stop_bind (e : ε) (f : α → Prog Q A ε β) : (stop e >>= f) = stop e := rfl

@[simp] theorem ask_bind (q : Q) (k : A → Prog Q A ε α) (f : α → Prog Q A ε β) :
    (ask q k >>= f) = ask q fun a => k a >>= f := rfl

theorem bind_assoc (p : Prog Q A ε α) (f : α → Prog Q A ε β) (g : β → Prog Q A ε γ) :
    p >>= f >>= g = p >>= fun a => f a >>= g := by
  induction p with
  | ret a => rfl
  | stop e => rfl
  | ask q k ih =>
    simp only [ask_bind]
    exact congrArg (ask q) (funext ih)

theorem bind_ret (p : Prog Q A ε α) : p >>= ret = p := by
  induction p with
  | ret a => rfl
  | stop e => rfl
  | ask q k ih => exact congrArg (ask q) (funext ih)

instance : LawfulMonad (Prog Q A ε) :=
  .mk' _ bind_ret (fun _ _ => rfl) bind_assoc

/-! ## Runs -/

/-- The run of a program in an environment with the state `s`. -/
def run (h : σ → Q → A × σ) : σ → Prog Q A ε α → Except ε α × σ
  | s, ret a => (.ok a, s)
  | s, stop e => (.error e, s)
  | s, ask q k => run h (h s q).2 (k (h s q).1)

/-- The questions of the run and their answers, in order. -/
def asked (h : σ → Q → A × σ) : σ → Prog Q A ε α → List (Q × A)
  | _, ret _ => []
  | _, stop _ => []
  | s, ask q k => (q, (h s q).1) :: asked h (h s q).2 (k (h s q).1)

/-- The run of `p` and then `f`: a first part that fails is all there is. -/
theorem run_bind (h : σ → Q → A × σ) (s : σ) (p : Prog Q A ε α) (f : α → Prog Q A ε β) :
    run h s (p >>= f) = match run h s p with
      | (.ok a, s') => run h s' (f a)
      | (.error e, s') => (.error e, s') := by
  induction p generalizing s with
  | ret a => rfl
  | stop e => rfl
  | ask q k ih => exact ih (h s q).1 (h s q).2

/-- The program ends like this, whatever the answers are, as long as they fit the
questions. -/
def Ends (P : Q → A → Prop) : Prog Q A ε α → Except ε α → Prop
  | ret a, r => r = .ok a
  | stop e, r => r = .error e
  | ask q k, r => ∀ a, P q a → Ends P (k a) r

variable {h : σ → Q → A × σ} {g : τ → Q → A × τ} {P : Q → A → Prop} {s : σ} {t : τ}

theorem ends_ret (a : α) : (ret a : Prog Q A ε α).Ends P (.ok a) := rfl

theorem ends_stop (e : ε) : (stop e : Prog Q A ε α).Ends P (.error e) := rfl

theorem ends_ask {q : Q} {k : A → Prog Q A ε α} {r : Except ε α}
    (h : ∀ a, P q a → (k a).Ends P r) : (ask q k).Ends P r := h

theorem ends_bind {p : Prog Q A ε α} {f : α → Prog Q A ε β} {r : Except ε α}
    {r' : α → Except ε β} (hp : p.Ends P r) (hf : ∀ a, r = .ok a → (f a).Ends P (r' a)) :
    (p >>= f).Ends P (r >>= r') := by
  induction p with
  | ret a =>
    obtain rfl : r = .ok a := hp
    exact hf a rfl
  | stop e =>
    obtain rfl : r = .error e := hp
    exact rfl
  | ask q k ih =>
    intro a ha
    exact ih a (hp a ha)

theorem ends_bind_ok {p : Prog Q A ε α} {f : α → Prog Q A ε β} {a : α} {r : Except ε β}
    (hp : p.Ends P (.ok a)) (hf : (f a).Ends P r) : (p >>= f).Ends P r := by
  induction p with
  | ret b =>
    obtain rfl : a = b := Except.ok.inj hp
    exact hf
  | stop e => cases (hp : Except.ok a = Except.error e)
  | ask q k ih =>
    intro b hb
    exact ih b (hp b hb)

/-- The run in an environment whose answers fit. -/
theorem run_ends (Inv : σ → Prop)
    (hInv : ∀ s q, Inv s → P q (h s q).1 ∧ Inv (h s q).2) (hs : Inv s)
    {p : Prog Q A ε α} {r : Except ε α} (hp : p.Ends P r) : (run h s p).1 = r := by
  induction p generalizing s with
  | ret a => exact hp.symm
  | stop e => exact hp.symm
  | ask q k ih =>
    obtain ⟨hans, hnext⟩ := hInv s q hs
    exact ih _ hnext (hp _ hans)

-- a goal about a long program must not be unfolded to see what it says
attribute [irreducible] Ends

/-- What every question keeps holds after a run. -/
theorem run_inv (Inv : σ → Prop) (hInv : ∀ s q, Inv s → Inv (h s q).2) (hs : Inv s)
    (p : Prog Q A ε α) : Inv (run h s p).2 := by
  induction p generalizing s with
  | ret a => exact hs
  | stop e => exact hs
  | ask q k ih => exact ih _ (hInv s q hs)

/-- Every answer of a run is given in a state that keeps the invariant. -/
theorem mem_asked (Inv : σ → Prop) (hInv : ∀ s q, Inv s → Inv (h s q).2) (hs : Inv s)
    {p : Prog Q A ε α} {q : Q} {a : A} (hm : (q, a) ∈ asked h s p) :
    ∃ s, Inv s ∧ (h s q).1 = a := by
  induction p generalizing s with
  | ret b => cases hm
  | stop e => cases hm
  | ask q' k ih =>
    rcases List.mem_cons.mp hm with he | hm
    · obtain ⟨rfl, rfl⟩ := Prod.mk.inj he
      exact ⟨s, hs, rfl⟩
    · exact ih _ (hInv s q' hs) hm

/-- What stops a program is one of the failures it can stop with. -/
def Stops (P : ε → Prop) : Prog Q A ε α → Prop
  | ret _ => True
  | stop e => P e
  | ask _ k => ∀ a, Stops P (k a)

theorem run_stops {P : ε → Prop} {p : Prog Q A ε α} (hp : p.Stops P) {e : ε} {s' : σ}
    (he : run h s p = (.error e, s')) : P e := by
  induction p generalizing s with
  | ret a => cases he
  | stop e' =>
    obtain ⟨he, -⟩ := Prod.mk.inj he
    obtain rfl := Except.error.inj he
    exact hp
  | ask q k ih => exact ih _ (hp _) he

/-! ## Environments without a state -/

/-- The end of a program in an environment where every question has one answer. -/
def eval (answer : Q → A) : Prog Q A ε α → Except ε α
  | ret a => .ok a
  | stop e => .error e
  | ask q k => eval answer (k (answer q))

/-- The questions on the way there. -/
def questions (answer : Q → A) : Prog Q A ε α → List Q
  | ret _ => []
  | stop _ => []
  | ask q k => q :: questions answer (k (answer q))

/-- The end depends on the answers that were asked for, and on no other. -/
theorem eval_congr {answer answer' : Q → A} {p : Prog Q A ε α}
    (h : ∀ q ∈ questions answer p, answer q = answer' q) : eval answer p = eval answer' p := by
  induction p with
  | ret a => rfl
  | stop e => rfl
  | ask q k ih =>
    have hq : answer q = answer' q := h q (by simp [questions])
    rw [eval, eval, ← hq]
    apply ih
    intro q' hq'
    apply h
    simp [questions, hq']

theorem eval_bind (answer : Q → A) (p : Prog Q A ε α) (f : α → Prog Q A ε β) :
    eval answer (p >>= f) = eval answer p >>= fun a => eval answer (f a) := by
  induction p with
  | ret a => rfl
  | stop e => rfl
  | ask q k ih => exact ih (answer q)

/-- Behind a first part that ends, the questions of the second follow. -/
theorem questions_bind_ok {answer : Q → A} {p : Prog Q A ε α} {a : α}
    (hp : eval answer p = .ok a) (f : α → Prog Q A ε β) :
    questions answer (p >>= f) = questions answer p ++ questions answer (f a) := by
  induction p with
  | ret b =>
    obtain rfl := Except.ok.inj hp
    rfl
  | stop e => cases hp
  | ask q k ih => exact congrArg (q :: ·) (ih (answer q) hp)

/-- A first part that fails is all that is asked. -/
theorem questions_bind_error {answer : Q → A} {p : Prog Q A ε α} {e : ε}
    (hp : eval answer p = .error e) (f : α → Prog Q A ε β) :
    questions answer (p >>= f) = questions answer p := by
  induction p with
  | ret b => cases hp
  | stop e => rfl
  | ask q k ih => exact congrArg (q :: ·) (ih (answer q) hp)

theorem mem_questions_bind {answer : Q → A} {p : Prog Q A ε α} {q : Q}
    (h : q ∈ questions answer p) (f : α → Prog Q A ε β) : q ∈ questions answer (p >>= f) := by
  cases hp : eval answer p with
  | error e =>
    rw [questions_bind_error hp]
    exact h
  | ok a =>
    rw [questions_bind_ok hp]
    exact List.mem_append_left _ h

/-- What holds of the questions of the parts holds of all. -/
theorem questions_bind {answer : Q → A} {P : Q → Prop} {p : Prog Q A ε α} {f : α → Prog Q A ε β}
    (hp : ∀ q ∈ questions answer p, P q)
    (hf : ∀ a, eval answer p = .ok a → ∀ q ∈ questions answer (f a), P q) :
    ∀ q ∈ questions answer (p >>= f), P q := by
  induction p with
  | ret a => exact hf a rfl
  | stop e => exact hp
  | ask q k ih =>
    rw [questions, List.forall_mem_cons] at hp
    rw [ask_bind, questions, List.forall_mem_cons]
    exact ⟨hp.1, ih (answer q) hp.2 hf⟩

/-! ## Notes -/

section Notes

variable {N : Type} [Inhabited A]

/-- A program that notes nothing. -/
def quiet : Prog Q A ε α → Prog (N ⊕ Q) A ε α
  | ret a => ret a
  | stop e => stop e
  | ask q k => ask (.inr q) fun a => quiet (k a)

/-- The program without its notes. -/
def erase : Prog (N ⊕ Q) A ε α → Prog Q A ε α
  | ret a => ret a
  | stop e => stop e
  | ask (.inl _) k => erase (k default)
  | ask (.inr q) k => ask q fun a => erase (k a)

/-- The notes of a run, in order. -/
def notes (h : σ → Q → A × σ) : σ → Prog (N ⊕ Q) A ε α → List N
  | _, ret _ => []
  | _, stop _ => []
  | s, ask (.inl n) k => n :: notes h s (k default)
  | s, ask (.inr q) k => notes h (h s q).2 (k (h s q).1)

@[simp] theorem erase_quiet (p : Prog Q A ε α) : erase (quiet p : Prog (N ⊕ Q) A ε α) = p := by
  induction p with
  | ret a => rfl
  | stop e => rfl
  | ask q k ih => exact congrArg (ask q) (funext ih)

/-- A quiet first part leads to the notes of the second, or to none. -/
theorem notes_quiet_bind (h : σ → Q → A × σ) (s : σ) (p : Prog Q A ε α)
    (f : α → Prog (N ⊕ Q) A ε β) : notes h s (quiet p >>= f) = match run h s p with
      | (.ok a, s') => notes h s' (f a)
      | (.error _, _) => [] := by
  induction p generalizing s with
  | ret a => rfl
  | stop e => rfl
  | ask q k ih => exact ih (h s q).1 (h s q).2

theorem erase_bind (p : Prog (N ⊕ Q) A ε α) (f : α → Prog (N ⊕ Q) A ε β) :
    erase (p >>= f) = erase p >>= fun a => erase (f a) := by
  induction p with
  | ret a => rfl
  | stop e => rfl
  | ask q k ih =>
    cases q with
    | inl n => exact ih default
    | inr q => exact congrArg (ask q) (funext ih)

theorem erase_ite (c : Prop) [Decidable c] (p p' : Prog (N ⊕ Q) A ε α) :
    (if c then p else p').erase = if c then p.erase else p'.erase := apply_ite _ c p p'

theorem notes_ite (h : σ → Q → A × σ) (s : σ) (c : Prop) [Decidable c]
    (p p' : Prog (N ⊕ Q) A ε α) :
    notes h s (if c then p else p') = if c then notes h s p else notes h s p' :=
  apply_ite _ c p p'

/-- A first part that fails is all there is. -/
theorem notes_bind_error {p : Prog (N ⊕ Q) A ε α} {e : ε} {s' : σ}
    (hp : run h s (erase p) = (.error e, s')) (f : α → Prog (N ⊕ Q) A ε β) :
    notes h s (p >>= f) = notes h s p := by
  induction p generalizing s with
  | ret b => cases (Prod.mk.inj hp).1
  | stop e => rfl
  | ask q k ih =>
    cases q with
    | inl n => exact congrArg (n :: ·) (ih default hp)
    | inr q => exact ih _ hp

/-- Behind a first part that ends, the notes of the second follow. -/
theorem notes_bind {p : Prog (N ⊕ Q) A ε α} {a : α} {s' : σ}
    (hp : run h s (erase p) = (.ok a, s')) (f : α → Prog (N ⊕ Q) A ε β) :
    notes h s (p >>= f) = notes h s p ++ notes h s' (f a) := by
  induction p generalizing s with
  | ret b =>
    obtain ⟨hb, rfl⟩ := Prod.mk.inj hp
    obtain rfl := Except.ok.inj hb
    rfl
  | stop e => cases (Prod.mk.inj hp).1
  | ask q k ih =>
    cases q with
    | inl n => exact congrArg (n :: ·) (ih default hp)
    | inr q => exact ih _ hp

end Notes

end Prog

end SysLib
