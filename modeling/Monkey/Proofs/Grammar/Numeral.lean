import Monkey.Parser.Rules
import Monkey.Proofs.Grammar

/-!
# Integer literals

The rule for an integer literal reads the text of its token as a numeral of any kind. For the tokens
that program text is made of, which are rows of ASCII digits, that is the decimal value, as long as
there are not too many digits and the value is not too great.
-/

namespace Monkey

open Grammar

namespace Text

theorem toNat_of_isAsciiDigit {c : Char} (h : isAsciiDigit c = true) :
    48 ≤ c.toNat ∧ c.toNat ≤ 57 := by
  simpa [isAsciiDigit, Char.le_def, UInt32.le_iff_toNat_le] using h

theorem isNumeralBlank_of_isAsciiDigit {c : Char} (h : isAsciiDigit c = true) :
    isNumeralBlank c = false := by
  have hrange := toNat_of_isAsciiDigit h
  simp only [isNumeralBlank, isBlank, Bool.and_eq_false_iff]
  left
  simp
  omega

theorem digitValue?_of_isAsciiDigit {c : Char} (h : isAsciiDigit c = true) :
    digitValue? c = some (c.toNat - '0'.toNat) := by
  have hrange := toNat_of_isAsciiDigit h
  have hfind : (zeroDigits.find? fun z => z ≤ c.toNat && c.toNat < z + 10) = some 0x30 := by
    rw [zeroDigits, List.find?_cons_of_pos]
    simp
    omega
  rw [digitValue?, hfind]
  rfl

theorem dropWhile_eq_self {p : Char → Bool} {cs : List Char} (h : ∀ c ∈ cs, p c = false) :
    cs.dropWhile p = cs := by
  cases cs with
  | nil => rfl
  | cons c rest => simp [h c (by simp)]

theorem stripWhile_eq_self {p : Char → Bool} {cs : List Char} (h : ∀ c ∈ cs, p c = false) :
    stripWhile p cs = cs := by
  have hreverse : ∀ c ∈ cs.reverse, p c = false := fun c hc => h c (List.mem_reverse.mp hc)
  rw [stripWhile, dropWhile_eq_self h, dropWhile_eq_self hreverse, List.reverse_reverse]

theorem numeralDigits?_of_digits {cs : List Char} (hne : cs ≠ [])
    (h : ∀ c ∈ cs, isAsciiDigit c = true) :
    numeralDigits? cs = some (cs.map fun c => c.toNat - '0'.toNat) := by
  fun_induction numeralDigits? cs with
  | case1 => exact (hne rfl).elim
  | case2 c => simp [digitValue?_of_isAsciiDigit (h c (by simp))]
  | case3 c rest => exact absurd (h '_' (by simp)) (by decide)
  | case4 c rest hone hunderscore ih =>
    have hrest : rest ≠ [] := fun hnil => hone (by simp [hnil])
    simp [digitValue?_of_isAsciiDigit (h c (by simp)), ih hrest fun d hd => h d (by simp [hd])]

theorem valueOfDigits_map (text : String) :
    valueOfDigits (text.toList.map fun c => c.toNat - '0'.toNat) = decimalValue text := by
  rw [valueOfDigits, List.foldl_map, decimalValue]

theorem integer?_of_digits {text : String} (hne : text.toList ≠ [])
    (h : ∀ c ∈ text.toList, isAsciiDigit c = true) :
    integer? text = if text.length ≤ digitLimit then some (decimalValue text : Int) else none := by
  have hstrip : stripWhile isNumeralBlank text.toList = text.toList :=
    stripWhile_eq_self fun c hc => isNumeralBlank_of_isAsciiDigit (h c hc)
  have hunsigned : unsigned? text.toList
      = if text.length ≤ digitLimit then some (decimalValue text) else none := by
    simp only [unsigned?, numeralDigits?_of_digits hne h, Option.bind_eq_bind, Option.bind_some,
      valueOfDigits_map, List.length_map, String.length_toList]
    rfl
  have hsign : ∀ sign, isAsciiDigit sign = false → ∀ rest, text.toList ≠ sign :: rest := by
    intro sign hsign rest heq
    simp [h sign (by simp [heq])] at hsign
  rw [integer?, hstrip]
  split
  · rename_i rest heq
    exact absurd heq (hsign '-' (by decide) rest)
  · rename_i rest heq
    exact absurd heq (hsign '+' (by decide) rest)
  · rw [hunsigned]
    split <;> rfl

end Text

/-- A row of digits is refused as an integer literal exactly if it is too long or too great. -/
theorem Rule.integerValue?_of_isNumeral {text : String} (h : IsNumeral text) :
    integerValue? text = if text.length ≤ digitLimit ∧ decimalValue text ≤ valueLimit
      then some (decimalValue text : Int) else none := by
  have hdigits : ∀ c ∈ text.toList, Text.isAsciiDigit c = true := by
    intro c hc
    simpa [Text.isAsciiDigit] using h.2 c hc
  rw [integerValue?, Text.integer?_of_digits h.1 hdigits]
  by_cases hdigits : text.length ≤ digitLimit
  · have hlimit : ((decimalValue text : Int) ≤ maxInteger) ↔ decimalValue text ≤ valueLimit := by
      simp only [maxInteger, valueLimit]
      omega
    by_cases hvalue : decimalValue text ≤ valueLimit
    · simp [hdigits, hvalue, hlimit]
    · simpa [hdigits, hvalue] using mt hlimit.mp hvalue
  · simp [hdigits]

end Monkey
