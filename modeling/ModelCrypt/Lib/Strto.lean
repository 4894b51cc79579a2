/-
# Numerals as `strtoull` reads them

`strtoull(s, &end, 10)` of the C standard library, in the "C" locale: it skips
white space, takes a sign, reads as many digits as there are, and negates
modulo 2^64 after a minus sign. `end` is where it stopped, or the start if there
was no digit; `ERANGE` is set if the digits alone are out of range.

A `Numeral` is a text that is read to its end: blanks, a sign, and digits, the
first two of which may be missing. These are all the texts that are
(`exists_numeral`), and what is read is their value (`strtoull_numeral`).

Key definitions: `strtoull`, `Numeral`.
Key theorems: `strtoull_numeral`, `exists_numeral`.
-/
import Mathlib.Algebra.Group.Nat.Defs
import Mathlib.Data.List.TakeWhile

namespace Lib

/-- `isspace`. -/
def isSpace (c : Char) : Bool := c == ' ' || ('\t' ≤ c && c ≤ '\r')

/-- What digits say. -/
def decimal (ds : List Char) : ℕ := Nat.ofDigitChars 10 ds 0

/-- What `strtoull` returns, the text from `*end` on, and whether it sets `ERANGE`. -/
structure Converted where
  value : UInt64
  rest : List Char
  erange : Bool
  deriving DecidableEq, Repr

/-- Whether there is a minus sign, and what follows the sign. -/
def afterSign : List Char → Bool × List Char
  | '-' :: s => (true, s)
  | '+' :: s => (false, s)
  | s => (false, s)

/-- The digits of a number, negated or not, with what follows them. -/
def converted (neg : Bool) (ds rest : List Char) : Converted :=
  if decimal ds < 2 ^ 64 then ⟨if neg then -UInt64.ofNat (decimal ds) else UInt64.ofNat (decimal ds), rest, false⟩
  else ⟨UInt64.ofNat (2 ^ 64 - 1), rest, true⟩

/-- `strtoull(s, &end, 10)`. -/
def strtoull (s : List Char) : Converted :=
  let signed := afterSign (s.dropWhile isSpace)
  let ds := signed.2.takeWhile Char.isDigit
  if ds = [] then ⟨0, s, false⟩ else converted signed.1 ds (signed.2.dropWhile Char.isDigit)

/-! ### Numerals -/

/-- A text that is read to its end. -/
structure Numeral where
  blanks : List Char
  sign : List Char
  digits : List Char
  blank : ∀ c ∈ blanks, isSpace c = true
  signed : sign = [] ∨ sign = ['+'] ∨ sign = ['-']
  digit : ∀ c ∈ digits, c.isDigit = true
  nonempty : digits ≠ []

namespace Numeral

def text (n : Numeral) : List Char := n.blanks ++ (n.sign ++ n.digits)

/-- The value, if the digits are in range. -/
def value (n : Numeral) : UInt64 :=
  if n.sign = ['-'] then -UInt64.ofNat (decimal n.digits) else UInt64.ofNat (decimal n.digits)

/-- Digits alone. -/
def ofDigits (ds : List Char) (hd : ∀ c ∈ ds, c.isDigit = true) (h0 : ds ≠ []) : Numeral where
  blanks := []
  sign := []
  digits := ds
  blank _ h := by cases h
  signed := .inl rfl
  digit := hd
  nonempty := h0

end Numeral

/-- A digit is no blank and no sign. -/
theorem isDigit_bounds {c : Char} (h : c.isDigit = true) : isSpace c = false ∧ c ≠ '-' ∧ c ≠ '+' := by
  have hlow : 48 ≤ c.val.toNat := by
    have := (Bool.and_eq_true_iff.mp h).1
    simpa [UInt32.le_iff_toNat_le] using this
  have hne (d : Char) (hd : d.val.toNat < 48) : c ≠ d := by
    rintro rfl
    omega
  have hcr : ¬ c ≤ '\r' := by
    rw [Char.le_def, UInt32.le_iff_toNat_le]
    show ¬ c.val.toNat ≤ 13
    omega
  refine ⟨?_, hne '-' (by decide), hne '+' (by decide)⟩
  simp [isSpace, hne ' ' (by decide), hcr]

theorem afterSign_digits {ds : List Char} (hd : ∀ c ∈ ds, c.isDigit = true) : afterSign ds = (false, ds) := by
  cases ds with
  | nil => rfl
  | cons c ds =>
    obtain ⟨-, hm, hp⟩ := isDigit_bounds (hd c List.mem_cons_self)
    unfold afterSign
    split
    · rename_i h
      exact absurd (List.cons.inj h).1 hm
    · rename_i h
      exact absurd (List.cons.inj h).1 hp
    · rfl

/-- **What is read of a numeral is all of it**, as its value if the digits are in range. -/
theorem strtoull_numeral (n : Numeral) : strtoull n.text =
    if decimal n.digits < 2 ^ 64 then ⟨n.value, [], false⟩ else ⟨UInt64.ofNat (2 ^ 64 - 1), [], true⟩ := by
  have hblank : n.text.dropWhile isSpace = n.sign ++ n.digits := by
    rw [Numeral.text, List.dropWhile_append_of_pos n.blank]
    obtain ⟨c, ds, hc⟩ := List.exists_cons_of_ne_nil n.nonempty
    have hdigit := (isDigit_bounds (n.digit c (hc ▸ List.mem_cons_self))).1
    rcases n.signed with h | h | h <;> rw [h]
    · rw [hc, List.nil_append, List.dropWhile_cons_of_neg (by simp [hdigit])]
    · exact List.dropWhile_cons_of_neg (by decide)
    · exact List.dropWhile_cons_of_neg (by decide)
  have hsign : afterSign (n.sign ++ n.digits) = (decide (n.sign = ['-']), n.digits) := by
    rcases n.signed with h | h | h <;> rw [h]
    · exact afterSign_digits n.digit
    · rfl
    · rfl
  have htake : n.digits.takeWhile Char.isDigit = n.digits := List.takeWhile_eq_self_iff.mpr n.digit
  have hdrop : n.digits.dropWhile Char.isDigit = [] := List.dropWhile_eq_nil_iff.mpr n.digit
  simp only [strtoull, hblank, hsign, htake, hdrop, if_neg n.nonempty, converted, Numeral.value, decide_eq_true_eq]

/-- **A text that is read to its end is a numeral.** -/
theorem exists_numeral {s : List Char} (hs : s ≠ []) (h : (strtoull s).rest = []) : ∃ n : Numeral, n.text = s := by
  have hsplit : s.takeWhile isSpace ++ s.dropWhile isSpace = s := List.takeWhile_append_dropWhile
  obtain ⟨sign, hsign, hafter⟩ : ∃ sign, (sign = [] ∨ sign = ['+'] ∨ sign = ['-']) ∧
      sign ++ (afterSign (s.dropWhile isSpace)).2 = s.dropWhile isSpace := by
    generalize s.dropWhile isSpace = t
    unfold afterSign
    split
    · exact ⟨['-'], .inr (.inr rfl), rfl⟩
    · exact ⟨['+'], .inr (.inl rfl), rfl⟩
    · exact ⟨[], .inl rfl, rfl⟩
  have hdigits := List.takeWhile_append_dropWhile (p := Char.isDigit) (l := (afterSign (s.dropWhile isSpace)).2)
  unfold strtoull at h
  dsimp only at h
  split at h
  · exact absurd h hs
  · rename_i hne
    refine ⟨⟨s.takeWhile isSpace, sign, (afterSign (s.dropWhile isSpace)).2.takeWhile Char.isDigit,
      fun c hc => List.mem_takeWhile_imp hc, hsign, fun c hc => List.mem_takeWhile_imp hc, hne⟩, ?_⟩
    have hrest : (afterSign (s.dropWhile isSpace)).2.dropWhile Char.isDigit = [] := by
      unfold converted at h
      split at h <;> exact h
    rw [hrest, List.append_nil] at hdigits
    show s.takeWhile isSpace ++ (sign ++ (afterSign (s.dropWhile isSpace)).2.takeWhile Char.isDigit) = s
    rw [hdigits, hafter, hsplit]

end Lib
