/-!
# Blank characters

The characters that count as white space when a line typed by a user, a switch or a numeral is
trimmed. This is the white space of the Unicode standard together with the four ASCII separators
U+001C to U+001F; program text itself knows only four blanks, see `Monkey.Scanner`.

`trim` cuts blanks at both ends and nowhere else.
-/

namespace Monkey.Text

/-- Blank characters: the ASCII controls HT to CR and FS to US, the space, and the separators of
    the other scripts. -/
def isBlank (c : Char) : Bool :=
  let n := c.toNat
  (0x09 ≤ n && n ≤ 0x0d) || (0x1c ≤ n && n ≤ 0x20) || n == 0x85 || n == 0xa0 || n == 0x1680
    || (0x2000 ≤ n && n ≤ 0x200a) || n == 0x2028 || n == 0x2029 || n == 0x202f || n == 0x205f
    || n == 0x3000

/-- Drop the characters that satisfy `p` from both ends. -/
def stripWhile (p : Char → Bool) (cs : List Char) : List Char :=
  ((cs.dropWhile p).reverse.dropWhile p).reverse

def trim (text : String) : String :=
  String.ofList (stripWhile isBlank text.toList)

/-- A text of blanks only; the empty text is one. -/
def isBlankText (text : String) : Bool :=
  text.toList.all isBlank

/-- Trimming leaves nothing exactly of a text that holds blanks only. -/
theorem stripWhile_eq_nil_iff {p : Char → Bool} {cs : List Char} :
    stripWhile p cs = [] ↔ cs.all p = true := by
  have key : ∀ l : List Char, l.dropWhile p = [] ↔ l.all p = true := by
    intro l
    induction l with
    | nil => simp
    | cons c l ih => by_cases h : p c <;> simp [h, ih]
  constructor
  · intro h
    have h' : (cs.dropWhile p).reverse.dropWhile p = [] := by
      simpa [stripWhile] using h
    have hall := (key _).mp h'
    cases hd : cs.dropWhile p with
    | nil => exact (key _).mp hd
    | cons c l =>
      have hc : p c = false := by
        have := List.head?_dropWhile_not p cs
        simpa [hd] using this
      simp [hd, hc] at hall
  · intro h
    simp [stripWhile, (key _).mpr h]

end Monkey.Text
