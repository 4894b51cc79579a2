/-
# Byte strings: slices, overwriting in place, and fixed-width integers

A buffer is a list of bytes. `slice` reads a run of it, `overwrite` replaces
one, and both are total: the bounds are the caller's business and appear as
hypotheses of the lemmas. `leNat` and `leBytes` are the little-endian value
and digits of a byte string, inverse to each other on strings of a fixed
length (`leNat_leBytes`, `leBytes_leNat`); `beBytes` is the big-endian form.

Key definitions: `slice`, `overwrite`, `ByteVec`, `padded`, `leBytes`, `leNat`.
Key theorems: `overwrite_frontier`, `slices_flatten`, `padded_eq_iff`, `leBytes_leNat`.
-/
import Mathlib.Data.List.Flatten
import Mathlib.Tactic.Ring
import Mathlib.Tactic.Linarith

namespace Lib

abbrev Bytes := List UInt8

/-- A byte string of a fixed length. -/
abbrev ByteVec (n : ℕ) := {b : Bytes // b.length = n}

@[simp] theorem byteVec_length {n : ℕ} (b : ByteVec n) : b.1.length = n := b.2

/-- The all-zero string. -/
def zeros (n : ℕ) : Bytes := List.replicate n 0

@[simp] theorem zeros_length (n : ℕ) : (zeros n).length = n := List.length_replicate

@[simp] theorem zeros_zero : zeros 0 = [] := rfl

theorem zeros_drop (n k : ℕ) : (zeros n).drop k = zeros (n - k) := List.drop_replicate ..

theorem zeros_append (m n : ℕ) : zeros m ++ zeros n = zeros (m + n) := List.replicate_append_replicate

/-- Filled up with zeros to `n` bytes. -/
def padded (n : ℕ) (x : Bytes) : Bytes := x ++ zeros (n - x.length)

theorem padded_append_zeros {n j : ℕ} {x : Bytes} (h : x.length + j ≤ n) : padded n (x ++ zeros j) = padded n x := by
  have hj : j + (n - (x ++ zeros j).length) = n - x.length := by
    rw [List.length_append, zeros_length]
    omega
  rw [padded, List.append_assoc, zeros_append, hj, padded]

/-- The longer of two strings with the same filling is the shorter one and zeros. -/
theorem eq_append_zeros {n : ℕ} {x y : Bytes} (h : padded n x = padded n y) (hle : x.length ≤ y.length)
    (hy : y.length ≤ n) : y = x ++ zeros (y.length - x.length) := by
  calc y = (padded n y).take y.length := (List.take_left' rfl).symm
    _ = (x ++ zeros (n - x.length)).take y.length := by rw [← h, padded]
    _ = x ++ zeros (y.length - x.length) := by
      rw [List.take_append, List.take_of_length_le hle, zeros, List.take_replicate, ← zeros,
        Nat.min_eq_left (by omega)]

/-- Strings that fit have the same filling exactly if one is the other and zeros. -/
theorem padded_eq_iff {n : ℕ} {x y : Bytes} (hx : x.length ≤ n) (hy : y.length ≤ n) :
    padded n x = padded n y ↔ ∃ j, y = x ++ zeros j ∨ x = y ++ zeros j := by
  constructor
  · intro h
    rcases Nat.le_total x.length y.length with hle | hle
    · exact ⟨_, .inl (eq_append_zeros h hle hy)⟩
    · exact ⟨_, .inr (eq_append_zeros h.symm hle hx)⟩
  · rintro ⟨j, rfl | rfl⟩
    · rw [List.length_append, zeros_length] at hy
      exact (padded_append_zeros hy).symm
    · rw [List.length_append, zeros_length] at hx
      exact padded_append_zeros hx

variable {α : Type}

/-! ### Slices -/

/-- `n` items from `off` on; fewer if the list ends before. -/
def slice (b : List α) (off n : ℕ) : List α := (b.drop off).take n

theorem slice_length (b : List α) (off n : ℕ) : (slice b off n).length = min n (b.length - off) := by
  simp [slice]

/-- Past the end there is nothing to take. -/
theorem slice_min (b : List α) (off n : ℕ) : slice b off (min n (b.length - off)) = slice b off n := by
  rw [slice, slice, ← List.length_drop, List.take_eq_take_iff, Nat.min_assoc, Nat.min_self]

theorem slice_length_of_le {b : List α} {off n : ℕ} (h : off + n ≤ b.length) :
    (slice b off n).length = n := by
  rw [slice_length]; omega

@[simp] theorem slice_zero (b : List α) (off : ℕ) : slice b off 0 = [] := by simp [slice]

theorem slice_all (b : List α) : slice b 0 b.length = b := by simp [slice]

theorem slice_take (b : List α) (n : ℕ) : slice b 0 n = b.take n := by simp [slice]

/-- Two adjacent slices are one. -/
theorem slice_append_slice (b : List α) (off n m : ℕ) :
    slice b off n ++ slice b (off + n) m = slice b off (n + m) := by
  rw [slice, slice, slice, List.take_add, List.drop_drop]

theorem slice_append_left {a b : List α} {off n : ℕ} (h : off + n ≤ a.length) :
    slice (a ++ b) off n = slice a off n := by
  have h1 : off ≤ a.length := by omega
  have h2 : n ≤ (a.drop off).length := by rw [List.length_drop]; omega
  rw [slice, slice, List.drop_append_of_le_length h1, List.take_append_of_le_length h2]

/-- A slice at the seam of an append. -/
theorem slice_at {a b c : List α} {off n : ℕ} (ho : off = a.length) (hn : n = b.length) :
    slice (a ++ (b ++ c)) off n = b := by
  subst ho hn
  simp [slice]

/-- A list cut into pieces of the given lengths, from `off` on. -/
def cut (b : List α) : ℕ → List ℕ → List (List α)
  | _, [] => []
  | off, n :: ns => slice b off n :: cut b (off + n) ns

theorem cut_flatten (b : List α) : ∀ (off : ℕ) (ns : List ℕ), (cut b off ns).flatten = slice b off ns.sum
  | off, [] => by simp [cut]
  | off, n :: ns => by
    rw [cut, List.flatten_cons, cut_flatten b (off + n) ns, slice_append_slice, List.sum_cons]

/-- Pieces put together are cut apart again. -/
theorem cut_pieces (rest : List α) : ∀ (pre : List α) (fs : List (List α)),
    cut (pre ++ (fs.flatten ++ rest)) pre.length (fs.map List.length) = fs
  | _, [] => rfl
  | pre, f :: fs => by
    have ih := cut_pieces rest (pre ++ f) fs
    simp only [List.append_assoc, List.length_append] at ih
    rw [List.flatten_cons, List.map_cons, cut, List.append_assoc, slice_at rfl rfl, ih]

/-! ### Overwriting in place -/

/-- The list with `d` written over it from `off` on. -/
def overwrite (b : List α) (off : ℕ) (d : List α) : List α :=
  b.take off ++ (d ++ b.drop (off + d.length))

theorem overwrite_length {b d : List α} {off : ℕ} (h : off + d.length ≤ b.length) :
    (overwrite b off d).length = b.length := by
  simp only [overwrite, List.length_append, List.length_take, List.length_drop]
  omega

theorem overwrite_nil (b : List α) (off : ℕ) : overwrite b off [] = b := by
  simp [overwrite]

/-- The later of two writes to one place is what stays, if it is the longer one. -/
theorem overwrite_overwrite {b d e : List α} {off : ℕ} (hd : off + d.length ≤ b.length)
    (hle : d.length ≤ e.length) : overwrite (overwrite b off d) off e = overwrite b off e := by
  have ht : (overwrite b off d).take off = b.take off := by
    rw [overwrite, List.take_append_of_le_length (by rw [List.length_take]; omega), List.take_take, Nat.min_self]
  have hk : off + e.length = (b.take off ++ d).length + (e.length - d.length) := by
    simp only [List.length_append, List.length_take]
    omega
  have hr : (overwrite b off d).drop (off + e.length) = b.drop (off + e.length) := by
    rw [overwrite, ← List.append_assoc, hk, List.drop_length_add_append, List.drop_drop]
    congr 1
    simp only [List.length_append, List.length_take]
    omega
  rw [overwrite, ht, hr, overwrite]

/-- Two writes, one right after the other, are one. -/
theorem overwrite_append {b d e : List α} {off : ℕ} (h : off ≤ b.length) :
    overwrite (overwrite b off d) (off + d.length) e = overwrite b off (d ++ e) := by
  have hlen : (b.take off ++ d).length = off + d.length := by
    simp only [List.length_append, List.length_take]
    omega
  have hsplit : overwrite b off d = (b.take off ++ d) ++ b.drop (off + d.length) := by
    rw [overwrite, List.append_assoc]
  rw [hsplit, ← hlen, overwrite, List.take_left, List.drop_length_add_append, List.drop_drop, overwrite]
  simp only [List.append_assoc, List.length_append, Nat.add_assoc]
  congr 4
  simp only [List.length_take]
  omega

/-- Writing right after what is done moves the frontier by what was written. -/
theorem overwrite_frontier (a b d : List α) :
    overwrite (a ++ b) a.length d = a ++ d ++ b.drop d.length := by
  simp [overwrite, List.drop_append]

/-- Writing at the frontier of a zeroed buffer. -/
theorem overwrite_zeros {a d : Bytes} {n off : ℕ} (h : off = a.length) :
    overwrite (a ++ zeros n) off d = (a ++ d) ++ zeros (n - d.length) := by
  subst h
  rw [overwrite_frontier, zeros_drop]

/-- Writing the body of a record first and its head after, at the frontier of a zeroed buffer. -/
theorem overwrite_record {a d e : Bytes} {n m : ℕ} (hn : d.length = n) (hm : n + e.length ≤ m) :
    overwrite (overwrite (a ++ zeros m) (a.length + n) e) a.length d =
      (a ++ (d ++ e)) ++ zeros (m - (d ++ e).length) := by
  have hz : zeros m = zeros n ++ zeros (m - n) := by
    rw [zeros, zeros, zeros, List.replicate_append_replicate]
    congr 1
    omega
  have hl : a.length + n = (a ++ zeros n).length := by rw [List.length_append, zeros_length]
  rw [hz, ← List.append_assoc, overwrite_zeros hl, List.append_assoc, List.append_assoc, overwrite_frontier, hn,
    List.drop_left' (zeros_length n), List.length_append, hn, Nat.sub_sub]
  simp only [List.append_assoc]

theorem slice_overwrite {b d : List α} {off : ℕ} (h : off + d.length ≤ b.length) :
    slice (overwrite b off d) off d.length = d := by
  have : off = (b.take off).length := by rw [List.length_take]; omega
  exact slice_at this rfl

theorem overwrite_prefix {b d : List α} (h : d.length ≤ b.length) :
    slice (overwrite b 0 d) 0 d.length = d :=
  slice_overwrite (by omega)

/-! ### Cutting a list into slices of one size -/

/-- The slices of size `c` from the `i`-th on put together are the list from `i * c` on. -/
theorem slices_flatten (b : List α) (c : ℕ) : ∀ n i : ℕ, b.length ≤ (i + n) * c →
    ((List.range' i n).map fun j => slice b (j * c) c).flatten = b.drop (i * c)
  | 0, i, h => by
    rw [List.drop_of_length_le (by simpa using h)]
    rfl
  | n + 1, i, h => by
    have ih := slices_flatten b c n (i + 1) (by rw [show i + 1 + n = i + (n + 1) by ring]; exact h)
    rw [List.range'_succ, List.map_cons, List.flatten_cons, ih, Nat.succ_mul, ← List.drop_drop]
    exact List.take_append_drop c _

/-! ### Little- and big-endian integers -/

/-- The `k` low base-256 digits of `n`, least significant first. -/
def leBytes : ℕ → ℕ → Bytes
  | 0, _ => []
  | k + 1, n => UInt8.ofNat n :: leBytes k (n / 256)

/-- The value of a little-endian byte string. -/
def leNat : Bytes → ℕ
  | [] => 0
  | x :: b => x.toNat + 256 * leNat b

/-- The `k` low base-256 digits of `n`, most significant first. -/
def beBytes (k n : ℕ) : Bytes := (leBytes k n).reverse

@[simp] theorem leBytes_length : ∀ k n, (leBytes k n).length = k
  | 0, _ => rfl
  | k + 1, n => by simp [leBytes, leBytes_length k]

@[simp] theorem beBytes_length (k n : ℕ) : (beBytes k n).length = k := by simp [beBytes]

theorem leNat_append : ∀ a b : Bytes, leNat (a ++ b) = leNat a + 256 ^ a.length * leNat b
  | [], b => by simp [leNat]
  | x :: a, b => by
    simp only [List.cons_append, leNat, leNat_append a b, List.length_cons, Nat.pow_succ]
    ring

theorem leNat_lt : ∀ b : Bytes, leNat b < 256 ^ b.length
  | [] => by simp [leNat]
  | x :: b => by
    have h1 := leNat_lt b
    have h2 := x.toNat_lt
    simp only [leNat, List.length_cons, Nat.pow_succ]
    omega

theorem leNat_leBytes : ∀ k n, n < 256 ^ k → leNat (leBytes k n) = n
  | 0, n, h => by simp only [Nat.pow_zero] at h; simp [leBytes, leNat]; omega
  | k + 1, n, h => by
    rw [Nat.pow_succ] at h
    have ih := leNat_leBytes k (n / 256) (by omega)
    simp only [leBytes, leNat, ih, UInt8.toNat_ofNat']
    omega

theorem leBytes_leNat : ∀ b : Bytes, leBytes b.length (leNat b) = b
  | [] => rfl
  | x :: b => by
    have h2 := x.toNat_lt
    have hd : (x.toNat + 256 * leNat b) / 256 = leNat b := by omega
    have hx : UInt8.ofNat (x.toNat + 256 * leNat b) = x := by
      apply UInt8.toNat_inj.mp
      rw [UInt8.toNat_ofNat']
      omega
    simp only [List.length_cons, leBytes, leNat, hd, hx, leBytes_leNat b]

/-- Numbers that fit in `k` bytes are told apart by their digits. -/
theorem leBytes_inj {k n m : ℕ} (hn : n < 256 ^ k) (hm : m < 256 ^ k)
    (h : leBytes k n = leBytes k m) : n = m := by
  rw [← leNat_leBytes k n hn, ← leNat_leBytes k m hm, h]

theorem beBytes_inj {k n m : ℕ} (hn : n < 256 ^ k) (hm : m < 256 ^ k)
    (h : beBytes k n = beBytes k m) : n = m :=
  leBytes_inj hn hm (List.reverse_inj.mp h)

end Lib
