/-
Who holds what.

A fixed stock of resources is split between a free list and the holders, each
with a list of what it holds. [`Parts`] says that the split is a partition:
nothing is held twice, nothing held is free, and nothing of the stock is lost.
Taking from the front of the free list ([`Parts.take`]) and giving back
([`Parts.give`]) keep it.
-/
import Mathlib.Data.List.Perm.Basic
import Mathlib.Data.List.Nodup

set_option autoImplicit false

namespace SysLib

variable {α ι : Type*}

/-- The stock `all` is split into the lists `own a` of the holders and `free`. -/
structure Parts (all : List α) (own : ι → List α) (free : List α) : Prop where
  free_nodup : free.Nodup
  own_nodup : ∀ a, (own a).Nodup
  not_free : ∀ a, ∀ x ∈ own a, x ∉ free
  apart : ∀ a b x, x ∈ own a → x ∈ own b → a = b
  cover : ∀ x, x ∈ all ↔ x ∈ free ∨ ∃ a, x ∈ own a

variable {all free free' N : List α} {own own' : ι → List α} {a b : ι}

namespace Parts

theorem mem_all_of_own (h : Parts all own free) {x : α} (hx : x ∈ own a) : x ∈ all :=
  (h.cover x).mpr (.inr ⟨a, hx⟩)

theorem mem_all_of_free (h : Parts all own free) {x : α} (hx : x ∈ free) : x ∈ all :=
  (h.cover x).mpr (.inl hx)

theorem nodup_append (h : Parts all own free) (a : ι) : (own a ++ free).Nodup := by
  refine List.nodup_append.mpr ⟨h.own_nodup a, h.free_nodup, fun x hx y hy hxy => ?_⟩
  exact h.not_free a x hx (hxy ▸ hy)

/-- At first everything is free. -/
theorem init (hnd : all.Nodup) (hown : ∀ a : ι, own a = []) : Parts all own all := by
  refine ⟨hnd, fun a => by rw [hown]; exact List.nodup_nil, fun a x hx => ?_,
    fun a b x hx => ?_, fun x => ⟨.inl, ?_⟩⟩
  · rw [hown] at hx
    cases hx
  · rw [hown] at hx
    cases hx
  · rintro (hx | ⟨a, hx⟩)
    · exact hx
    · rw [hown] at hx
      cases hx

/-- The holder `a` takes `N` off the free list. -/
theorem take (h : Parts all own (N ++ free)) (hb : ∀ b, b ≠ a → own' b = own b)
    (ha : (own' a).Perm (own a ++ N)) : Parts all own' free := by
  have hmem : ∀ b x, x ∈ own' b ↔ x ∈ own b ∨ (b = a ∧ x ∈ N) := by
    intro b x
    by_cases hba : b = a
    · subst hba
      rw [ha.mem_iff, List.mem_append, and_iff_right rfl]
    · rw [hb b hba, or_iff_left fun hx => hba hx.1]
  obtain ⟨hN, hfree, hdis⟩ := List.nodup_append.mp h.free_nodup
  refine ⟨hfree, fun b => ?_, fun b x hx => ?_, fun b c x hx hy => ?_, fun x => ?_⟩
  · by_cases hba : b = a
    · subst hba
      rw [ha.nodup_iff]
      have := h.nodup_append b
      rw [← List.append_assoc] at this
      exact (List.nodup_append.mp this).1
    · rw [hb b hba]
      exact h.own_nodup b
  · rcases (hmem b x).mp hx with hx | ⟨-, hx⟩
    · exact fun hf => h.not_free b x hx (List.mem_append_right N hf)
    · exact fun hf => hdis x hx x hf rfl
  · rcases (hmem b x).mp hx with hx | ⟨rfl, hx⟩ <;> rcases (hmem c x).mp hy with hy | ⟨rfl, hy⟩
    · exact h.apart b c x hx hy
    · exact absurd (List.mem_append_left free hy) (h.not_free b x hx)
    · exact absurd (List.mem_append_left free hx) (h.not_free c x hy)
    · rfl
  · rw [h.cover, List.mem_append]
    constructor
    · rintro ((hx | hx) | ⟨b, hx⟩)
      · exact .inr ⟨a, (hmem a x).mpr (.inr ⟨rfl, hx⟩)⟩
      · exact .inl hx
      · exact .inr ⟨b, (hmem b x).mpr (.inl hx)⟩
    · rintro (hx | ⟨b, hx⟩)
      · exact .inl (.inr hx)
      · rcases (hmem b x).mp hx with hx | ⟨-, hx⟩
        exacts [.inr ⟨b, hx⟩, .inl (.inl hx)]

/-- The holder `a` gives `N` back. -/
theorem give (h : Parts all own free) (hb : ∀ b, b ≠ a → own' b = own b)
    (ha : (own a).Perm (N ++ own' a)) (hf : free'.Perm (N ++ free)) : Parts all own' free' := by
  have hsub : ∀ b x, x ∈ own' b → x ∈ own b := by
    intro b x hx
    by_cases hba : b = a
    · subst hba
      rw [ha.mem_iff]
      exact List.mem_append_right N hx
    · rwa [← hb b hba]
  have hN : ∀ x ∈ N, x ∈ own a := fun x hx => by
    rw [ha.mem_iff]
    exact List.mem_append_left _ hx
  have hnd := ha.nodup_iff.mp (h.own_nodup a)
  obtain ⟨hNnd, hnd', hdis⟩ := List.nodup_append.mp hnd
  refine ⟨?_, fun b => ?_, fun b x hx => ?_, fun b c x hx hy => h.apart b c x (hsub b x hx)
    (hsub c x hy), fun x => ?_⟩
  · rw [hf.nodup_iff]
    refine List.nodup_append.mpr ⟨hNnd, h.free_nodup, fun x hx y hy hxy => ?_⟩
    exact h.not_free a x (hN x hx) (hxy ▸ hy)
  · by_cases hba : b = a
    · subst hba
      exact hnd'
    · rw [hb b hba]
      exact h.own_nodup b
  · rw [hf.mem_iff, List.mem_append, not_or]
    refine ⟨fun hxN => ?_, h.not_free b x (hsub b x hx)⟩
    obtain rfl := h.apart b a x (hsub b x hx) (hN x hxN)
    exact hdis x hxN x hx rfl
  · rw [h.cover, hf.mem_iff, List.mem_append]
    constructor
    · rintro (hx | ⟨b, hx⟩)
      · exact .inl (.inr hx)
      · by_cases hba : b = a
        · subst hba
          rcases List.mem_append.mp (ha.mem_iff.mp hx) with hx | hx
          exacts [.inl (.inl hx), .inr ⟨b, hx⟩]
        · exact .inr ⟨b, by rwa [hb b hba]⟩
    · rintro ((hx | hx) | ⟨b, hx⟩)
      · exact .inr ⟨a, hN x hx⟩
      · exact .inl hx
      · exact .inr ⟨b, hsub b x hx⟩

end Parts

end SysLib
