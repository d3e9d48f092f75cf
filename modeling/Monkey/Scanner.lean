import Monkey.Token
import Monkey.Text.Numeral
import Monkey.Text.Quoted

/-!
# Reading program text

A scanner stands at a place in a program text and has the rest of the text before it. Everything it
does is to move forward: each operation measures a stretch of the text and calls `advance`, which is
the one place that counts lines and columns.

* Between tokens lie blanks and comments; a comment runs from `#` to the end of its line.
* A token is the longest one that can start where the scanner stands: a word, a row of digits, a string
  (which runs to the next quote or else to the end of the text), an operator, or else one illegal
  character. So reading never fails and every token but the end takes at least one character.
* `tokenize` gives the tokens of a whole program, the end included.
-/

namespace Monkey

/-! ### Places in a text -/

/-- A place in a text: the number of characters before it, its line and its column. -/
structure Position where
  offset : Nat := 0
  line : Nat := 1
  column : Nat := 1
deriving DecidableEq, Repr

/-- The place after one more character. Only LF starts a new line. -/
def Position.next (p : Position) (c : Char) : Position :=
  if c = '\n' then ⟨p.offset + 1, p.line + 1, 1⟩ else ⟨p.offset + 1, p.line, p.column + 1⟩

def Position.after (p : Position) (cs : List Char) : Position :=
  cs.foldl Position.next p

/-! ### Classes of characters -/

def isLetter (c : Char) : Bool :=
  c = '_' || ('a' ≤ c && c ≤ 'z') || ('A' ≤ c && c ≤ 'Z')

def isWordChar (c : Char) : Bool :=
  isLetter c || Text.isAsciiDigit c

def isSpace (c : Char) : Bool :=
  c = ' ' || c = '\t' || c = '\r' || c = '\n'

/-! ### Measuring -/

/-- The length of the blanks and comments at the front of a text; the flag says whether the text starts
    inside a comment. -/
def gapLength : Bool → List Char → Nat
  | _, [] => 0
  | true, c :: rest => gapLength (c ≠ '\n') rest + 1
  | false, c :: rest =>
    if isSpace c then gapLength false rest + 1
    else if c = '#' then gapLength true rest + 1
    else 0

/-- The operators and delimiters, those of two characters first. -/
def operators : List TokenKind :=
  [.eq, .notEq, .assign, .plus, .minus, .bang, .asterisk, .slash, .lt, .gt, .comma, .semicolon, .colon,
   .lparen, .rparen, .lbrace, .rbrace, .lbracket, .rbracket]

/-- The longest operator at the front of a text. -/
def operatorAt? (cs : List Char) : Option TokenKind :=
  operators.find? fun kind => kind.text.toList.isPrefixOf cs

/-- A token without its place, and the length of the text it takes. A string takes its two quotes too,
    of which the closing one may lie beyond the end of the text. -/
structure Lexeme where
  kind : TokenKind
  literal : String
  width : Nat
deriving DecidableEq, Repr

/-- A lexeme that is spelled as its literal. -/
def Lexeme.plain (kind : TokenKind) (text : List Char) : Lexeme :=
  ⟨kind, String.ofList text, text.length⟩

/-- The token at the front of a text that starts with the character `c`. -/
def lexeme (c : Char) (rest : List Char) : Lexeme :=
  if c = '"' then
    let content := rest.takeWhile (· ≠ '"')
    ⟨.string, String.ofList content, content.length + 2⟩
  else if Text.isAsciiDigit c then
    .plain .int (c :: rest.takeWhile Text.isAsciiDigit)
  else if isLetter c then
    let word := c :: rest.takeWhile isWordChar
    .plain (wordKind (String.ofList word)) word
  else
    match operatorAt? (c :: rest) with
    | some kind => .plain kind kind.text.toList
    | none => .plain .illegal [c]

/-! ### The scanner -/

/-- A scanner: the text still to read, and the place where it starts. -/
structure Scanner where
  rest : List Char
  position : Position := {}
deriving DecidableEq, Repr

namespace Scanner

def ofText (source : String) : Scanner :=
  ⟨source.toList, {}⟩

/-- The character `n` places ahead, if the text reaches so far. -/
def peek? (s : Scanner) (n : Nat) : Option Char :=
  s.rest[n]?

/-- Move over `n` characters, or to the end of the text if fewer are left. -/
def advance (s : Scanner) (n : Nat) : Scanner :=
  ⟨s.rest.drop n, s.position.after (s.rest.take n)⟩

/-- The next `n` characters, or all if fewer are left, and the scanner behind them. -/
def take (s : Scanner) (n : Nat) : String × Scanner :=
  (String.ofList (s.rest.take n), s.advance n)

/-- The longest stretch of characters that satisfy `p`, and the scanner behind it. -/
def takeWhile (s : Scanner) (p : Char → Bool) : String × Scanner :=
  let word := s.rest.takeWhile p
  (String.ofList word, s.advance word.length)

def skipGap (s : Scanner) : Scanner :=
  s.advance (gapLength false s.rest)

/-- Read a word, which is empty if the scanner stands at no letter or digit. -/
def takeWord (s : Scanner) : String × Scanner :=
  s.takeWhile isWordChar

def takeNumber (s : Scanner) : String × Scanner :=
  s.takeWhile Text.isAsciiDigit

/-- Read the content of a string, the character the scanner stands at being taken for the opening
    quote. The closing quote is passed over too. -/
def takeString (s : Scanner) : String × Scanner :=
  let (content, behind) := (s.advance 1).takeWhile (· ≠ '"')
  (content, behind.advance 1)

/-- The token that marks the end of the text at the scanner's place. -/
def endToken (s : Scanner) : Token :=
  ⟨.eof, "", s.position.line, s.position.column⟩

/-- The next token, with its place, and the scanner behind it; nothing at the end of the text. -/
def nextToken? (s : Scanner) : Option (Token × Scanner) :=
  let here := s.skipGap
  match here.rest with
  | [] => none
  | c :: rest =>
    let found := lexeme c rest
    some (⟨found.kind, found.literal, here.position.line, here.position.column⟩,
      here.advance found.width)

/-- The next token, with its place, and the scanner behind it. At the end of the text this is the end
    token, however often it is asked for. -/
def nextToken (s : Scanner) : Token × Scanner :=
  s.nextToken?.getD (s.skipGap.endToken, s.skipGap)

def tokensWithin : Nat → Scanner → List Token × Scanner
  | 0, s => ([], s.skipGap)
  | fuel + 1, s =>
    match s.nextToken? with
    | none => ([], s.skipGap)
    | some (token, behind) =>
      let (tokens, last) := tokensWithin fuel behind
      (token :: tokens, last)

/-- All tokens up to the end of the text, the end token not included, and the scanner at the end. Each
    token takes a character, so there are no more tokens than characters. -/
def tokens (s : Scanner) : List Token × Scanner :=
  tokensWithin s.rest.length s

/-- All tokens up to the end of the text, the end token included, and the scanner at the end. -/
def tokenize (s : Scanner) : List Token × Scanner :=
  let (tokens, last) := s.tokens
  (tokens ++ [last.endToken], last)

end Scanner

def tokenize (source : String) : List Token :=
  (Scanner.ofText source).tokenize.1

/-- A token as it is listed: the name of its kind, its quoted literal and its place. -/
def Token.listing (token : Token) : String :=
  "Tok(" ++ token.kind.name ++ ", " ++ Text.quoted token.literal ++ ", " ++ toString token.line ++ ":"
    ++ toString token.column ++ ")"

end Monkey
