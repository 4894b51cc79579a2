/-
# Chunks are an exact partition of the plaintext

`ChunkCountFor` and both copies of `ChunkPlainSize` compute, in their widths,
the pieces of a length (`Lib.Cut`): the slices are disjoint, follow each other
and cover the plaintext, and no sum, product or cast on the way loses a value.

Key definitions: `Slicing`.
Key theorem: `slices_partition`.
-/
import ModelCrypt.Encrypt
import ModelCrypt.Lib.Cut
import ModelCrypt.Container

namespace ModelCrypt

open Lib

variable {z : SizeT} {P : UInt64} {C : UInt32}

/-- `ChunkPlainSize` gives the pieces of the plaintext. -/
theorem Decrypt.chunkPlainSize_piece (z : SizeT) (P : UInt64) (C i : UInt32) :
    Decrypt.chunkPlainSize z P C i = pieceSize C.toNat P.toNat i.toNat := Decrypt.chunkPlainSize_min z P C i

/-- `ChunkCountFor` counts the pieces. -/
theorem chunkCountFor_pieces (hP : P.toNat ≤ 2 ^ 36) (hC : 2 ^ 12 ≤ C.toNat) :
    (chunkCountFor P C).toNat = pieceCount C.toNat P.toNat := chunkCountFor_toNat hP hC

/-- The slices `[i * C, i * C + ChunkPlainSize(i))` of a plaintext of `P` bytes, with `n` of them. -/
structure Slicing (z : SizeT) (P : UInt64) (C : UInt32) (n : ℕ) : Prop where
  count : 1 ≤ n ∧ n ≤ 2 ^ 24
  agree : ∀ i, Encrypt.chunkPlainSize z P C i = Decrypt.chunkPlainSize z P C i
  /-- Every slice but the last is full, and so ends where the next one begins. -/
  full : ∀ i : UInt32, i.toNat + 1 < n → Decrypt.chunkPlainSize z P C i = C.toNat
  consecutive : ∀ i : UInt32, i.toNat + 1 < n →
    i.toNat * C.toNat + Decrypt.chunkPlainSize z P C i = (i.toNat + 1) * C.toNat
  disjoint : ∀ i j : UInt32, i.toNat < j.toNat → j.toNat < n →
    i.toNat * C.toNat + Decrypt.chunkPlainSize z P C i ≤ j.toNat * C.toNat
  /-- A byte is in the plaintext exactly if it is in a slice. -/
  cover : ∀ x, x < P.toNat ↔ ∃ i : UInt32, i.toNat < n ∧ i.toNat * C.toNat ≤ x ∧
    x < i.toNat * C.toNat + Decrypt.chunkPlainSize z P C i
  total : ∑ i ∈ Finset.range n, Decrypt.chunkPlainSize z P C (UInt32.ofNat i) = P.toNat
  nonempty : P ≠ 0 → ∀ i : UInt32, i.toNat < n → 0 < Decrypt.chunkPlainSize z P C i
  beyond : ∀ i : UInt32, n ≤ i.toNat → Decrypt.chunkPlainSize z P C i = 0
  /-- The sum and the cast in `ChunkCountFor`. -/
  sum : P ≠ 0 → (P + C.toUInt64 - 1).toNat = P.toNat + C.toNat - 1 ∧
    ((P + C.toUInt64 - 1) / C.toUInt64).toUInt32.toNat = ((P + C.toUInt64 - 1) / C.toUInt64).toNat
  /-- The product, the difference and the cast in `ChunkPlainSize`. -/
  offset : ∀ i : UInt32, (i.toUInt64 * C.toUInt64).toNat = i.toNat * C.toNat
  remaining : ∀ i : UInt32, i.toUInt64 * C.toUInt64 < P → P - i.toUInt64 * C.toUInt64 < C.toUInt64 →
    z.cast (P - i.toUInt64 * C.toUInt64).toNat = P.toNat - i.toNat * C.toNat

/-- **Chunk slicing is an exact partition of the plaintext**, for every admitted plaintext size and chunk size. -/
theorem slices_partition (z : SizeT) (P : UInt64) (C : UInt32) (hP : P ≤ mcMaxPlaintextSize) (hmin : kMinChunkSize ≤ C)
    (hmax : C ≤ kMaxChunkSize) : Slicing z P C (chunkCountFor P C).toNat := by
  have hP' : P.toNat ≤ 2 ^ 36 := UInt64.le_iff_toNat_le.mp hP
  have hC : 2 ^ 12 ≤ C.toNat := UInt32.le_iff_toNat_le.mp hmin
  have hC' : C.toNat ≤ 2 ^ 26 := UInt32.le_iff_toNat_le.mp hmax
  have hpos : 0 < C.toNat := by omega
  have hle := chunkCountFor_le hP' hC
  have hn := chunkCountFor_pieces hP' hC
  generalize hcount : (chunkCountFor P C).toNat = n at hle hn
  have hne : P ≠ 0 → 0 < P.toNat := fun h => Nat.pos_of_ne_zero fun h0 => h (UInt64.toNat_inj.mp h0)
  have hfull (i : UInt32) (hi : i.toNat + 1 < n) : Decrypt.chunkPlainSize z P C i = C.toNat := by
    rw [Decrypt.chunkPlainSize_piece]
    exact pieceSize_full hpos (hn ▸ hi)
  refine ⟨⟨hn ▸ pieceCount_pos, hle⟩, fun i => rfl, hfull, fun i hi => ?_, fun i j hij hj => ?_, fun x => ?_, ?_,
    fun h0 i hi => ?_,
    fun i hi => ?_, fun h0 => ?_, fun i => mul32_toNat i C, fun i hlt hr => ?_⟩
  · rw [hfull i hi, Nat.add_mul, Nat.one_mul]
  · rw [hfull i (by omega), ← Nat.succ_mul]
    exact Nat.mul_le_mul_right _ hij
  · simp only [Decrypt.chunkPlainSize_piece, mem_piece_iff hpos]
    constructor
    · intro hx
      have hlt : x / C.toNat < n := by
        rw [hn, ← start_lt_iff hpos (by omega)]
        exact (Nat.div_mul_le_self x C.toNat).trans_lt hx
      have hi : (UInt32.ofNat (x / C.toNat)).toNat = x / C.toNat := UInt32.toNat_ofNat_of_lt' (show _ < 2 ^ 32 by omega)
      exact ⟨UInt32.ofNat (x / C.toNat), by rw [hi]; exact hlt, hx, hi⟩
    · rintro ⟨i, -, hx, -⟩
      exact hx
  · have hsum : ∀ i ∈ Finset.range n, Decrypt.chunkPlainSize z P C (UInt32.ofNat i) = pieceSize C.toNat P.toNat i := by
      intro i hi
      have := Finset.mem_range.mp hi
      rw [Decrypt.chunkPlainSize_piece, UInt32.toNat_ofNat_of_lt' (show i < 2 ^ 32 by omega)]
    rw [Finset.sum_congr rfl hsum, hn, sum_pieceSize hpos]
  · rw [Decrypt.chunkPlainSize_piece]
    exact pieceSize_pos hpos (hne h0) (hn ▸ hi)
  · rw [Decrypt.chunkPlainSize_piece]
    exact pieceSize_eq_zero hpos (hn ▸ hi)
  · have hP0 := hne h0
    have hsum : (P + C.toUInt64 - 1).toNat = P.toNat + C.toNat - 1 := by
      rw [UInt64.toNat_sub, UInt64.toNat_add, UInt32.toNat_toUInt64]
      simp only [UInt64.toNat_one]
      omega
    refine ⟨hsum, ?_⟩
    have hdiv : (P.toNat + C.toNat - 1) / C.toNat ≤ n := by
      rw [hn]
      exact le_max_right ..
    rw [UInt64.toNat_toUInt32, UInt64.toNat_div, hsum, UInt32.toNat_toUInt64]
    exact Nat.mod_eq_of_lt (by omega)
  · have hz := z.max_ge
    have hsub : (P - i.toUInt64 * C.toUInt64).toNat = P.toNat - i.toNat * C.toNat := by
      rw [UInt64.toNat_sub_of_le _ _ (UInt64.le_of_lt hlt), mul32_toNat]
    rw [UInt64.lt_iff_toNat_lt, hsub, UInt32.toNat_toUInt64] at hr
    rw [hsub, SizeT.cast_of_le (by omega)]

/-- The largest plaintext in the smallest chunks. -/
theorem largest_partition : Slicing .bits32 mcMaxPlaintextSize kMinChunkSize (2 ^ 24) :=
  slices_partition .bits32 mcMaxPlaintextSize kMinChunkSize (by decide) (by decide) (by decide)

end ModelCrypt
