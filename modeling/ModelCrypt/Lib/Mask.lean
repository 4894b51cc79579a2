/-
# Byte strings with holes

A mask is what is known of a list: an element where it is known, a hole where
it is not. Two lists that the same mask shows are as long and agree outside
of its holes (`Shows.agree`). A layout is a front and a sequence of blocks,
each with a clear part and a hole behind it: `layout_shows` says what it
shows, `layout_hole` where its holes are.

Key definitions: `Mask`, `Shows`, `layout`.
Key theorems: `Shows.agree`, `layout_shows`, `layout_hole`.
-/
import Mathlib.Data.List.Forall2
import Mathlib.Tactic.Common

namespace Lib

/-- What is known of a list. -/
abbrev Mask (α : Type) : Type := List (Option α)

namespace Mask

variable {α : Type} {m m' : Mask α} {x y x' : List α} {pos : ℕ}

/-- The mask is right about the list, as far as it goes. -/
def Shows (m : Mask α) (x : List α) : Prop := List.Forall₂ (fun o c => ∀ d ∈ o, c = d) m x

theorem Shows.length (hx : Shows m x) : m.length = x.length := List.Forall₂.length_eq hx

theorem Shows.append (hx : Shows m x) (hx' : Shows m' x') : Shows (m ++ m') (x ++ x') := List.rel_append hx hx'

/-- Everything is known. -/
theorem shows_map (x : List α) : Shows (x.map some) x := by
  rw [Shows, List.forall₂_map_left_iff, List.forall₂_same]
  intro c _ d hd
  exact Option.mem_some_iff.mp hd

/-- Nothing is known but the length. -/
theorem shows_replicate (x : List α) : Shows (List.replicate x.length none) x := by
  induction x with
  | nil => exact .nil
  | cons c x ih => exact .cons (fun d hd => absurd hd (Option.not_mem_none d)) ih

theorem Shows.at (hx : Shows m x) {c : α} (hp : m[pos]? = some (some c)) : x[pos]? = some c := by
  obtain ⟨h1, he⟩ := List.getElem?_eq_some_iff.mp hp
  have h2 : pos < x.length := hx.length ▸ h1
  have h := List.Forall₂.get hx h1 h2 c (by rw [List.get_eq_getElem, he]; rfl)
  exact List.getElem?_eq_some_iff.mpr ⟨h2, h⟩

/-- **Two lists that one mask shows agree outside of its holes.** -/
theorem Shows.agree (hx : Shows m x) (hy : Shows m y) (hp : m[pos]? ≠ some none) : x[pos]? = y[pos]? := by
  rcases hm : m[pos]? with _ | _ | c
  · have hle := List.getElem?_eq_none_iff.mp hm
    rw [List.getElem?_eq_none (hx.length ▸ hle), List.getElem?_eq_none (hy.length ▸ hle)]
  · exact absurd hm hp
  · rw [hx.at hm, hy.at hm]

/-! ### Layouts -/

section Layout

variable {front : List α} {clear : ℕ → List α} {hole : ℕ → ℕ}

/-- A front, then `n` blocks: what is clear in each, and a hole. -/
def layout (front : List α) (clear : ℕ → List α) (hole : ℕ → ℕ) : ℕ → Mask α
  | 0 => front.map some
  | n + 1 => layout front clear hole n ++ ((clear n).map some ++ List.replicate (hole n) none)

theorem layout_length_succ (n : ℕ) :
    (layout front clear hole (n + 1)).length = (layout front clear hole n).length + (clear n).length + hole n := by
  rw [layout, List.length_append, List.length_append, List.length_map, List.length_replicate, Nat.add_assoc]

/-- A layout reads only the blocks it has. -/
theorem layout_congr {clear' : ℕ → List α} {hole' : ℕ → ℕ} {n : ℕ}
    (h : ∀ i < n, clear i = clear' i ∧ hole i = hole' i) : layout front clear hole n = layout front clear' hole' n := by
  induction n with
  | zero => rfl
  | succ n ih =>
    obtain ⟨hc, hh⟩ := h n (Nat.lt_succ_self n)
    rw [layout, layout, ih fun i hi => h i (Nat.lt_succ_of_lt hi), hc, hh]

/-- A layout shows what is put together from its front and its blocks, whatever is in the holes. -/
theorem layout_shows {f : ℕ → List α} {n : ℕ} (hf : ∀ i < n, ∃ z, f i = clear i ++ z ∧ z.length = hole i) :
    Shows (layout front clear hole n) (front ++ (List.range n).flatMap f) := by
  induction n with
  | zero =>
    rw [List.range_zero, List.flatMap_nil, List.append_nil]
    exact shows_map front
  | succ n ih =>
    obtain ⟨z, hz, hl⟩ := hf n (Nat.lt_succ_self n)
    rw [List.range_succ, List.flatMap_append, List.flatMap_singleton, ← List.append_assoc, hz]
    have hshow := (shows_map (clear n)).append (shows_replicate z)
    rw [hl] at hshow
    exact (ih fun i hi => hf i (Nat.lt_succ_of_lt hi)).append hshow

/-- The hole of a block. -/
def InHole (start : ℕ) (c : List α) (size pos : ℕ) : Prop := start + c.length ≤ pos ∧ pos < start + c.length + size

theorem block_hole {c : List α} {size : ℕ} :
    (c.map some ++ List.replicate size none : Mask α)[pos]? = some none ↔ c.length ≤ pos ∧ pos < c.length + size := by
  by_cases h : pos < c.length
  · rw [List.getElem?_append_left (by rwa [List.length_map]), List.getElem?_map, List.getElem?_eq_getElem h]
    constructor
    · intro he
      cases he
    · intro he
      omega
  · rw [List.getElem?_append_right (by rw [List.length_map]; omega), List.length_map, List.getElem?_replicate]
    split
    · exact ⟨fun _ => by omega, fun _ => rfl⟩
    · exact ⟨fun he => (by cases he), fun he => by omega⟩

theorem layout_mono (front : List α) (clear : ℕ → List α) (hole : ℕ → ℕ) {i n : ℕ} (h : i ≤ n) :
    (layout front clear hole i).length ≤ (layout front clear hole n).length := by
  induction h with
  | refl => exact Nat.le_refl _
  | step _ ih =>
    rw [layout_length_succ]
    omega

/-- **The holes of a layout** are the holes of its blocks. -/
theorem layout_hole {n : ℕ} : (layout front clear hole n)[pos]? = some none ↔
    ∃ i < n, InHole (layout front clear hole i).length (clear i) (hole i) pos := by
  induction n with
  | zero =>
    constructor
    · intro h
      rw [layout, List.getElem?_map] at h
      rcases hf : front[pos]? with _ | c <;> rw [hf] at h <;> cases h
    · rintro ⟨i, hi, -⟩
      exact absurd hi (Nat.not_lt_zero i)
  | succ n ih =>
    by_cases hp : pos < (layout front clear hole n).length
    · rw [layout, List.getElem?_append_left hp, ih]
      constructor
      · rintro ⟨i, hi, h⟩
        exact ⟨i, Nat.lt_succ_of_lt hi, h⟩
      · rintro ⟨i, hi, h⟩
        rcases Nat.lt_succ_iff_lt_or_eq.mp hi with hlt | rfl
        · exact ⟨i, hlt, h⟩
        · have := h.1
          omega
    · rw [layout, List.getElem?_append_right (Nat.not_lt.mp hp), block_hole]
      constructor
      · rintro ⟨h1, h2⟩
        exact ⟨n, Nat.lt_succ_self n, by omega, by omega⟩
      · rintro ⟨i, hi, h1, h2⟩
        rcases Nat.lt_succ_iff_lt_or_eq.mp hi with hlt | rfl
        · have hmono := layout_mono front clear hole (Nat.succ_le_of_lt hlt)
          rw [Nat.succ_eq_add_one, layout_length_succ] at hmono
          omega
        · constructor <;> omega

end Layout

end Mask
end Lib
