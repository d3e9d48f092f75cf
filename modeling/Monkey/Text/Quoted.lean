import Monkey.Text.Printable

/-!
# Quoted text

The form in which a token's text is shown to a reader: between quotes, with every character that
could be mistaken or not be seen written as an escape. A text is put between apostrophes, and between
double quotes if it holds an apostrophe and no double quote. Backslashes, the quote in use, tabs and
line ends get their short escapes, and the remaining unprintable characters the shortest of the forms
`\xhh`, `\uhhhh` and `\Uhhhhhhhh`.
-/

namespace Monkey.Text

/-- A number in lower-case hexadecimal, filled up with zeros to at least `width` digits. -/
def hexDigits (width n : Nat) : List Char :=
  let digits := Nat.toDigits 16 n
  List.replicate (width - digits.length) '0' ++ digits

/-- The escape of an unprintable character. -/
def escapeUnprintable (c : Char) : List Char :=
  let n := c.toNat
  if n < 0x100 then '\\' :: 'x' :: hexDigits 2 n
  else if n < 0x10000 then '\\' :: 'u' :: hexDigits 4 n
  else '\\' :: 'U' :: hexDigits 8 n

/-- A character as it stands between two `quote` marks. -/
def escapeChar (quote c : Char) : List Char :=
  if c = '\\' || c = quote then ['\\', c]
  else if c = '\n' then ['\\', 'n']
  else if c = '\r' then ['\\', 'r']
  else if c = '\t' then ['\\', 't']
  else if isPrintable c then [c]
  else escapeUnprintable c

/-- The mark to put around a text: a double quote only where that saves an escape. -/
def quoteFor (cs : List Char) : Char :=
  if cs.contains '\'' && !cs.contains '"' then '"' else '\''

def quoted (text : String) : String :=
  let cs := text.toList
  let quote := quoteFor cs
  String.ofList (quote :: cs.flatMap (escapeChar quote) ++ [quote])

end Monkey.Text
