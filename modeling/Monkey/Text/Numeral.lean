import Monkey.Text.Blank

/-!
# Decimal digits and numerals

Every script that writes numbers in base ten has its digits in ten neighbouring code points, from
zero to nine, so the table holds the zeros alone. A program's own integer tokens use the ASCII digits;
the other scripts matter where the text of some other token is read as a number.

A numeral is a run of decimal digits, of any script and mixed at will, in which a single underscore may
stand between two digits; one sign may precede it, and blanks may surround it. A numeral of more than
`maxDigits` digits is refused, leading zeros included, so that the time to read one stays bounded.
-/

namespace Monkey.Text

/-! ### Digits -/

/-- The digit zero of each script, in the order of code points. -/
def zeroDigits : List Nat :=
  [0x30, 0x660, 0x6f0, 0x7c0, 0x966, 0x9e6, 0xa66, 0xae6, 0xb66, 0xbe6,
   0xc66, 0xce6, 0xd66, 0xde6, 0xe50, 0xed0, 0xf20, 0x1040, 0x1090, 0x17e0,
   0x1810, 0x1946, 0x19d0, 0x1a80, 0x1a90, 0x1b50, 0x1bb0, 0x1c40, 0x1c50, 0xa620,
   0xa8d0, 0xa900, 0xa9d0, 0xa9f0, 0xaa50, 0xabf0, 0xff10, 0x104a0, 0x10d30, 0x11066,
   0x110f0, 0x11136, 0x111d0, 0x112f0, 0x11450, 0x114d0, 0x11650, 0x116c0, 0x11730, 0x118e0,
   0x11950, 0x11c50, 0x11d50, 0x11da0, 0x16a60, 0x16ac0, 0x16b50, 0x1d7ce, 0x1d7d8, 0x1d7e2,
   0x1d7ec, 0x1d7f6, 0x1e140, 0x1e2f0, 0x1e950, 0x1fbf0]

/-- The value of a decimal digit of any script, and nothing for a character that is none. -/
def digitValue? (c : Char) : Option Nat :=
  (zeroDigits.find? fun z => z ≤ c.toNat && c.toNat < z + 10).map fun z => c.toNat - z

/-- The ten digits that an integer token is made of. -/
def isAsciiDigit (c : Char) : Bool :=
  '0' ≤ c && c ≤ '9'

/-! ### Numerals -/

/-- The most digits a numeral may have. -/
def maxDigits : Nat := 4300

/-- Blanks around a numeral: the ASCII blanks HT to CR and the space, and every blank beyond ASCII.
    The ASCII separators U+001C to U+001F are not among them. -/
def isNumeralBlank (c : Char) : Bool :=
  isBlank c && !(0x1c ≤ c.toNat && c.toNat ≤ 0x1f)

/-- The digits of a numeral, most significant first; an underscore must stand between two digits. -/
def numeralDigits? : List Char → Option (List Nat)
  | [] => none
  | [c] => (digitValue? c).map fun d => [d]
  | c :: '_' :: rest => do
    let d ← digitValue? c
    let ds ← numeralDigits? rest
    return d :: ds
  | c :: rest => do
    let d ← digitValue? c
    let ds ← numeralDigits? rest
    return d :: ds

def valueOfDigits (digits : List Nat) : Nat :=
  digits.foldl (fun n d => 10 * n + d) 0

def unsigned? (cs : List Char) : Option Nat := do
  let digits ← numeralDigits? cs
  if digits.length ≤ maxDigits then some (valueOfDigits digits) else none

/-- The integer that a text denotes, if it is a numeral. -/
def integer? (text : String) : Option Int :=
  match stripWhile isNumeralBlank text.toList with
  | '-' :: rest => (unsigned? rest).map fun n => -(n : Int)
  | '+' :: rest => (unsigned? rest).map fun n => (n : Int)
  | cs => (unsigned? cs).map fun n => (n : Int)

end Monkey.Text
