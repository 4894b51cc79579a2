/-
# Cutting a length into pieces

A length cut into pieces of a size: every piece is full but the last, and from
the last on there is nothing. `pieceCount` is how many there are, at least one.

Key definitions: `pieceSize`, `pieceCount`.
Key theorems: `sum_pieceSize`, `pieceSize_eq_zero`, `mem_piece_iff`.
-/
import Mathlib.Algebra.BigOperators.Group.Finset.Basic

namespace Lib

/-- The length of piece `i` of a length. -/
def pieceSize (size total i : ℕ) : ℕ := min size (total - i * size)

/-- How many pieces there are; no length is cut into one empty piece. -/
def pieceCount (size total : ℕ) : ℕ := max 1 ((total + size - 1) / size)

variable {size total i n x : ℕ}

theorem pieceCount_pos : 1 ≤ pieceCount size total := le_max_left ..

/-- A piece starts inside of the length exactly if it is one of them. -/
theorem start_lt_iff (hs : 0 < size) (ht : 0 < total) : i * size < total ↔ i < pieceCount size total := by
  have h : i < (total + size - 1) / size ↔ i * size < total := by
    rw [Nat.lt_iff_add_one_le, Nat.le_div_iff_mul_le hs, Nat.add_mul]
    omega
  rw [← h, pieceCount]
  by_cases h0 : i = 0
  · have : 1 ≤ (total + size - 1) / size := (Nat.le_div_iff_mul_le hs).mpr (by omega)
    omega
  · omega

/-- There is nothing after the last piece. -/
theorem pieceSize_eq_zero (hs : 0 < size) (hi : pieceCount size total ≤ i) : pieceSize size total i = 0 := by
  rw [pieceSize]
  by_cases ht : total = 0
  · simp [ht]
  · have := mt (start_lt_iff hs (Nat.pos_of_ne_zero ht)).mp (Nat.not_lt.mpr hi)
    omega

/-- The pieces of something are not empty. -/
theorem pieceSize_pos (hs : 0 < size) (ht : 0 < total) (hi : i < pieceCount size total) :
    0 < pieceSize size total i := by
  have := (start_lt_iff hs ht).mpr hi
  rw [pieceSize]
  omega

/-- A piece that is not the last one is full. -/
theorem pieceSize_full (hs : 0 < size) (hi : i + 1 < pieceCount size total) : pieceSize size total i = size := by
  have ht : 0 < total := by
    by_contra h0
    have : (total + size - 1) / size = 0 := Nat.div_eq_of_lt (by omega)
    rw [pieceCount, this] at hi
    omega
  have := (start_lt_iff hs ht).mpr hi
  rw [Nat.add_mul] at this
  rw [pieceSize]
  omega

/-- **The first pieces together**, by induction on how many. -/
theorem sum_pieceSize_range (size total n : ℕ) :
    ∑ i ∈ Finset.range n, pieceSize size total i = min (n * size) total := by
  induction n with
  | zero => simp
  | succ n ih =>
    rw [Finset.sum_range_succ, ih, pieceSize, Nat.add_mul]
    omega

/-- All the pieces together are the length. -/
theorem sum_pieceSize (hs : 0 < size) : ∑ i ∈ Finset.range (pieceCount size total), pieceSize size total i = total := by
  rw [sum_pieceSize_range, Nat.min_eq_right]
  by_cases ht : total = 0
  · simp [ht]
  · have := mt (start_lt_iff hs (Nat.pos_of_ne_zero ht)).mp (Nat.lt_irrefl _)
    omega

/-- **A position is in the piece of its quotient, and in no other.** -/
theorem mem_piece_iff (hs : 0 < size) :
    i * size ≤ x ∧ x < i * size + pieceSize size total i ↔ x < total ∧ i = x / size := by
  rw [pieceSize]
  constructor
  · rintro ⟨h1, h2⟩
    refine ⟨by omega, ?_⟩
    symm
    rw [Nat.div_eq_iff hs]
    omega
  · rintro ⟨hx, rfl⟩
    have := Nat.div_mul_le_self x size
    have hlt := Nat.lt_div_mul_add hs (a := x)
    omega

end Lib
