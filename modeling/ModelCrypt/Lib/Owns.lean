/-
# Things that have one owner each

Owners may hold a thing each, and every thing in use is held by one of them.
An owner may pass on what it holds, let it go out of use, or take a new thing:
each of these keeps `Owns`. When no owner holds anything, nothing is in use.

Key definitions: `Owns`.
Key theorems: `Owns.unique`, `Owns.pass`, `Owns.drop`, `Owns.take`, `Owns.nothing`.
-/
import Mathlib.Logic.Equiv.Basic

namespace Lib

open Function

variable {ι β : Type} {own : ι → Option β} {live live' : β → Prop} {a a' : ι} {b : β}

/-- What is in use is what is held, and no two owners hold the same. -/
structure Owns (own : ι → Option β) (live : β → Prop) : Prop where
  held : ∀ b, live b ↔ ∃ a, own a = some b
  inj : ∀ a a' b, own a = some b → own a' = some b → a = a'

namespace Owns

theorem live_of (h : Owns own live) (ha : own a = some b) : live b := (h.held b).mpr ⟨a, ha⟩

/-- **A thing in use has one owner.** -/
theorem unique (h : Owns own live) (hb : live b) : ∃! a, own a = some b := by
  obtain ⟨a, ha⟩ := (h.held b).mp hb
  exact ⟨a, ha, fun a' ha' => h.inj a' a b ha' ha⟩

/-- When no owner holds anything, nothing is in use. -/
theorem nothing (h : Owns own live) (h0 : ∀ a, own a = none) (b : β) : ¬ live b := by
  intro hb
  obtain ⟨a, ha⟩ := (h.held b).mp hb
  rw [h0] at ha
  cases ha

theorem congr (h : Owns own live) (hl : ∀ b, live' b ↔ live b) : Owns own live' :=
  ⟨fun b => (hl b).trans (h.held b), h.inj⟩

/-- Owners that change their names hold what they held. -/
theorem comp (h : Owns own live) (e : Equiv.Perm ι) : Owns (own ∘ e) live where
  held b := by
    rw [h.held]
    constructor
    · rintro ⟨a, ha⟩
      exact ⟨e.symm a, by rwa [comp_apply, e.apply_symm_apply]⟩
    · rintro ⟨a, ha⟩
      exact ⟨e a, ha⟩
  inj a a' b ha ha' := e.injective (h.inj _ _ b ha ha')

variable [DecidableEq ι]

/-- **An owner that held nothing gets what another one held**: as if the two changed names. -/
theorem pass (h : Owns own live) (a' : ι) (ha : own a = none) :
    Owns (update (update own a (own a')) a' none) live := by
  have hswap : update (update own a (own a')) a' none = own ∘ Equiv.swap a a' := by
    funext c
    by_cases h1 : c = a'
    · rw [h1, update_self, comp_apply, Equiv.swap_apply_right, ha]
    · rw [update_of_ne h1]
      by_cases h2 : c = a
      · rw [h2, update_self, comp_apply, Equiv.swap_apply_left]
      · rw [update_of_ne h2, comp_apply, Equiv.swap_apply_of_ne_of_ne h2 h1]
  rw [hswap]
  exact h.comp _

/-- **What an owner held goes out of use.** -/
theorem drop (h : Owns own live) (ha : own a = some b) (hl : ∀ b', live' b' ↔ live b' ∧ b' ≠ b) :
    Owns (update own a none) live' where
  held b' := by
    rw [hl, h.held]
    constructor
    · rintro ⟨⟨c, hc⟩, hb⟩
      refine ⟨c, ?_⟩
      rw [update_of_ne, hc]
      rintro rfl
      exact hb (Option.some.inj (hc.symm.trans ha))
    · rintro ⟨c, hc⟩
      by_cases hca : c = a
      · rw [hca, update_self] at hc
        cases hc
      · rw [update_of_ne hca] at hc
        exact ⟨⟨c, hc⟩, fun hb => hca (h.inj c a b (hb ▸ hc) ha)⟩
  inj c c' b' hc hc' := by
    have hne (d : ι) (hd : update own a none d = some b') : d ≠ a := by
      rintro rfl
      rw [update_self] at hd
      cases hd
    rw [update_of_ne (hne c hc)] at hc
    rw [update_of_ne (hne c' hc')] at hc'
    exact h.inj c c' b' hc hc'

/-- **An owner that held nothing takes something that was not in use.** -/
theorem take (h : Owns own live) (ha : own a = none) (hb : ¬ live b) (hl : ∀ b', live' b' ↔ live b' ∨ b' = b) :
    Owns (update own a (some b)) live' := by
  -- an owner has what it had, or is the new one
  have hcase (c : ι) (b' : β) : update own a (some b) c = some b' ↔ own c = some b' ∨ c = a ∧ b' = b := by
    by_cases hca : c = a
    · rw [hca, update_self, ha]
      simp [eq_comm]
    · rw [update_of_ne hca]
      simp [hca]
  have hnot (c : ι) : own c ≠ some b := fun hc => hb (h.live_of hc)
  refine ⟨fun b' => ?_, fun c c' b' hc hc' => ?_⟩
  · rw [hl, h.held]
    simp only [hcase]
    constructor
    · rintro (⟨c, hc⟩ | rfl)
      · exact ⟨c, .inl hc⟩
      · exact ⟨a, .inr ⟨rfl, rfl⟩⟩
    · rintro ⟨c, hc | ⟨-, rfl⟩⟩
      · exact .inl ⟨c, hc⟩
      · exact .inr rfl
  · rw [hcase] at hc hc'
    rcases hc with hc | ⟨rfl, rfl⟩
    · rcases hc' with hc' | ⟨rfl, rfl⟩
      · exact h.inj c c' b' hc hc'
      · exact absurd hc (hnot c)
    · rcases hc' with hc' | ⟨rfl, -⟩
      · exact absurd hc' (hnot c')
      · rfl

end Owns
end Lib
