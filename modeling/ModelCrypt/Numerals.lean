/-
# The numbers of the command line

`ParseU32` should accept the decimal numerals in its range and nothing else
(`ParsesDecimal`). It refuses a sign in front, but `strtoull` also skips white
space, and takes a sign behind it: a numeral with blanks in front is accepted too
(`BlankLed`), as the value it has modulo 2^64. On every other text the function
does what it should (`parseU32_decimal_iff`).

Key definitions: `ParsesDecimal`, `BlankLed`.
Key theorems: `parseU32_accepts_iff`, `parseU32_decimal_iff`.
-/
import ModelCrypt.Cli

namespace ModelCrypt.Cli

open Lib

variable {text : Text} {name : String} {min max out : UInt32}

/-- The text is a numeral whose digits are in range for `strtoull`, and its value is between the bounds. -/
structure InRange (text : Text) (min max : UInt32) (n : Numeral) : Prop where
  text_eq : n.text = text
  small : decimal n.digits < 2 ^ 64
  min_le : min.toUInt64 ≤ n.value
  le_max : n.value ≤ max.toUInt64

/-- No sign in front. -/
def Unsigned (text : Text) : Prop := text ≠ [] ∧ text.head? ≠ some '-' ∧ text.head? ≠ some '+'

/-- Past the first check, `ParseU32` goes by what `strtoull` returns. -/
theorem parseU32_unsigned (hnul : '\x00' ∉ text) (hu : Unsigned text) : parseU32 text name min max out =
    if (strtoull text).erange = true ∨ (strtoull text).rest ≠ [] then (some (.notANumber name text), out)
    else if (strtoull text).value < min.toUInt64 ∨ (strtoull text).value > max.toUInt64 then
      (some (.outOfRange name min max (strtoull text).value), out)
    else (none, (strtoull text).value.toUInt32) := by
  have hcut : text.takeWhile (· ≠ '\x00') = text := List.takeWhile_eq_self_iff.mpr fun c hc => by
    simp only [decide_eq_true_eq]
    rintro rfl
    exact hnul hc
  obtain ⟨h0, hm, hp⟩ := hu
  rw [parseU32, if_neg (by simp [h0, hm, hp]), hcut]

theorem parseU32_signed (hu : ¬ Unsigned text) :
    parseU32 text name min max out = (some (.notANumber name text), out) := by
  rw [parseU32, if_pos]
  unfold Unsigned at hu
  tauto

/-- An unsigned numeral in range is accepted, as its value. -/
theorem parseU32_numeral {n : Numeral} (hnul : '\x00' ∉ text) (hu : Unsigned text) (h : InRange text min max n) :
    parseU32 text name min max out = (none, n.value.toUInt32) := by
  have hs := strtoull_numeral n
  rw [h.text_eq, if_pos h.small] at hs
  rw [parseU32_unsigned hnul hu, hs, if_neg (by simp), if_neg]
  exact not_or.mpr ⟨UInt64.not_lt.mpr h.min_le, UInt64.not_lt.mpr h.le_max⟩

/-- **What ParseU32 accepts**: an unsigned numeral in range. -/
theorem parseU32_accepts_iff (hnul : '\x00' ∉ text) :
    (parseU32 text name min max out).1 = none ↔ Unsigned text ∧ ∃ n, InRange text min max n := by
  constructor
  · intro h
    by_cases hu : Unsigned text
    swap
    · rw [parseU32_signed hu] at h
      cases h
    rw [parseU32_unsigned hnul hu] at h
    by_cases hread : (strtoull text).erange = true ∨ (strtoull text).rest ≠ []
    · rw [if_pos hread] at h
      cases h
    rw [if_neg hread] at h
    by_cases hrange : (strtoull text).value < min.toUInt64 ∨ (strtoull text).value > max.toUInt64
    · rw [if_pos hrange] at h
      cases h
    obtain ⟨hr, hrest⟩ := not_or.mp hread
    obtain ⟨n, rfl⟩ := exists_numeral hu.1 (not_not.mp hrest)
    rw [strtoull_numeral] at hr hrange
    by_cases hsmall : decimal n.digits < 2 ^ 64
    · rw [if_pos hsmall] at hrange
      exact ⟨hu, n, rfl, hsmall, UInt64.not_lt.mp (not_or.mp hrange).1, UInt64.not_lt.mp (not_or.mp hrange).2⟩
    · rw [if_neg hsmall] at hr
      exact absurd rfl hr
  · rintro ⟨hu, n, hn⟩
    rw [parseU32_numeral hnul hu hn]

/-- A text that is not accepted leaves `*out`. -/
theorem parseU32_refused (h : (parseU32 text name min max out).1 ≠ none) :
    (parseU32 text name min max out).2 = out := by
  unfold parseU32 at h ⊢
  split
  · rfl
  · rename_i hu
    rw [if_neg hu] at h
    dsimp only at h ⊢
    split
    · rfl
    · rename_i hread
      rw [if_neg hread] at h
      split
      · rfl
      · rename_i hrange
        rw [if_neg hrange] at h
        exact absurd rfl h

/-! ### The decimal numerals -/

/-- What `ParseU32` should do: accept the decimal numerals between the bounds, as the number they say, and leave `*out`
as it is on all other texts. -/
structure ParsesDecimal (text : Text) (min max out : UInt32) (r : Option Diagnostic × UInt32) : Prop where
  accepts : r.1 = none ↔ text ≠ [] ∧ (∀ c ∈ text, c.isDigit = true) ∧ min.toNat ≤ decimal text ∧
    decimal text ≤ max.toNat
  stored : r.1 = none → r.2.toNat = decimal text
  unchanged : r.1 ≠ none → r.2 = out

/-- A numeral with blanks in front, whose value modulo 2^64 is between the bounds. -/
def BlankLed (text : Text) (min max : UInt32) : Prop := ∃ n, InRange text min max n ∧ n.blanks ≠ []

/-- Digits alone are a numeral in range, if their value is. -/
theorem inRange_digits (h0 : text ≠ []) (hd : ∀ c ∈ text, c.isDigit = true) (hmin : min.toNat ≤ decimal text)
    (hmax : decimal text ≤ max.toNat) : InRange text min max (.ofDigits text hd h0) := by
  have hsmall : decimal text < 2 ^ 64 := by
    have := max.toNat_lt
    omega
  have hvalue : (Numeral.ofDigits text hd h0).value.toNat = decimal text := by
    show (UInt64.ofNat (decimal text)).toNat = _
    rw [UInt64.toNat_ofNat', Nat.mod_eq_of_lt hsmall]
  refine ⟨rfl, hsmall, ?_, ?_⟩
  · rw [UInt64.le_iff_toNat_le, hvalue, UInt32.toNat_toUInt64]
    exact hmin
  · rw [UInt64.le_iff_toNat_le, hvalue, UInt32.toNat_toUInt64]
    exact hmax

theorem unsigned_digits (h0 : text ≠ []) (hd : ∀ c ∈ text, c.isDigit = true) : Unsigned text := by
  obtain ⟨c, s, rfl⟩ := List.exists_cons_of_ne_nil h0
  obtain ⟨-, hm, hp⟩ := isDigit_bounds (hd c List.mem_cons_self)
  exact ⟨h0, fun h => hm (Option.some.inj h), fun h => hp (Option.some.inj h)⟩

/-- An unsigned numeral without blanks is its digits, and their value. -/
theorem eq_digits {n : Numeral} (hu : Unsigned n.text) (hb : n.blanks = []) :
    n.text = n.digits ∧ n.value = UInt64.ofNat (decimal n.digits) := by
  unfold Numeral.text Numeral.value at *
  rw [hb] at hu ⊢
  rcases n.signed with h | h | h <;> rw [h] at hu ⊢
  · exact ⟨rfl, if_neg (by simp)⟩
  · exact absurd rfl hu.2.2
  · exact absurd rfl hu.2.1

/-- **ParseU32 does what it should, but on numerals with blanks in front** whose value modulo 2^64 is between the
bounds. -/
theorem parseU32_decimal_iff (text : Text) (name : String) (min max out : UInt32) (hnul : '\x00' ∉ text) :
    ParsesDecimal text min max out (parseU32 text name min max out) ↔ ¬ BlankLed text min max := by
  constructor
  · rintro h ⟨n, hn, hb⟩
    obtain ⟨c, bs, hc⟩ := List.exists_cons_of_ne_nil hb
    have hspace : isSpace c = true := n.blank c (hc ▸ List.mem_cons_self)
    have htext : text = c :: (bs ++ (n.sign ++ n.digits)) := by
      rw [← hn.text_eq, Numeral.text, hc, List.cons_append]
    have hne (d : Char) (hd : isSpace d = false) : text.head? ≠ some d := by
      rw [htext, List.head?_cons]
      rintro he
      rw [Option.some.inj he, hd] at hspace
      cases hspace
    have hu : Unsigned text := ⟨by simp [htext], hne '-' (by decide), hne '+' (by decide)⟩
    have hdigit := (h.accepts.mp (by rw [parseU32_numeral hnul hu hn])).2.1 c (htext ▸ List.mem_cons_self)
    rw [(isDigit_bounds hdigit).1] at hspace
    cases hspace
  · intro h
    have hdigits : (parseU32 text name min max out).1 = none ↔ text ≠ [] ∧ (∀ c ∈ text, c.isDigit = true) ∧
        min.toNat ≤ decimal text ∧ decimal text ≤ max.toNat := by
      rw [parseU32_accepts_iff hnul]
      constructor
      · rintro ⟨hu, n, hn⟩
        have hb : n.blanks = [] := by_contra fun hb => h ⟨n, hn, hb⟩
        obtain ⟨rfl, hsmall, hmin, hmax⟩ := hn
        obtain ⟨htext, hvalue⟩ := eq_digits hu hb
        have hnat : n.value.toNat = decimal n.text := by
          rw [hvalue, UInt64.toNat_ofNat', Nat.mod_eq_of_lt hsmall, htext]
        rw [UInt64.le_iff_toNat_le, hnat, UInt32.toNat_toUInt64] at hmin hmax
        exact ⟨hu.1, htext ▸ n.digit, hmin, hmax⟩
      · rintro ⟨h0, hd, hmin, hmax⟩
        exact ⟨unsigned_digits h0 hd, _, inRange_digits h0 hd hmin hmax⟩
    refine ⟨hdigits, fun ha => ?_, parseU32_refused⟩
    obtain ⟨h0, hd, hmin, hmax⟩ := hdigits.mp ha
    have hlt := max.toNat_lt
    rw [parseU32_numeral hnul (unsigned_digits h0 hd) (inRange_digits h0 hd hmin hmax)]
    show (UInt64.ofNat (decimal text)).toUInt32.toNat = _
    rw [UInt64.toNat_toUInt32, UInt64.toNat_ofNat', Nat.mod_eq_of_lt (a := decimal text) (by omega),
      Nat.mod_eq_of_lt (by omega)]

/-- A numeral that the function is right about. -/
theorem parseU32_4096 : ParsesDecimal ['4', '0', '9', '6'] 4096 67108864 0
    (parseU32 ['4', '0', '9', '6'] "--chunk-size" 4096 67108864 0) ↔ ¬ BlankLed ['4', '0', '9', '6'] 4096 67108864 :=
  parseU32_decimal_iff _ _ _ _ _ (by decide)

/-- A blank in front is accepted, and so is a minus sign behind it: -(2^64 - 4096) is 4096 modulo 2^64. -/
theorem parseU32_blank_accepted :
    parseU32 [' ', '4', '0', '9', '6'] "--chunk-size" 4096 67108864 0 = (none, 4096) ∧
    parseU32 [' ', '-', '1', '8', '4', '4', '6', '7', '4', '4', '0', '7', '3', '7', '0', '9', '5', '4', '7', '5',
      '2', '0']
      "--chunk-size" 4096 67108864 0 = (none, 4096) ∧
    ¬ ParsesDecimal [' ', '4', '0', '9', '6'] 4096 67108864 0
      (parseU32 [' ', '4', '0', '9', '6'] "--chunk-size" 4096 67108864 0) := by
  refine ⟨by decide +kernel, by decide +kernel, fun h => ?_⟩
  have hdigit := (h.accepts.mp (by decide +kernel)).2.1 ' ' List.mem_cons_self
  cases hdigit

end ModelCrypt.Cli
