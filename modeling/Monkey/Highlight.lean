import Monkey.Scanner
import Monkey.Value

/-!
# Highlighting

The colours of a program text while it is being typed. The text is cut into lines at every LF. Each line is
read on its own and cut into fragments: one for each token, and between them blanks and comments. The
fragments of a line, joined, are the line.
-/

namespace Monkey

/-! ### Lines -/

/-- The lines of a text, without their line ends. A text with `n` line feeds has `n + 1` lines. -/
def Text.lineChars : List Char → List (List Char)
  | [] => [[]]
  | c :: rest =>
    match c, lineChars rest with
    | '\n', lines => [] :: lines
    | c, line :: lines => (c :: line) :: lines
    | c, [] => [[c]]

/-- The lines of a text, without their line ends. -/
def Text.lines (text : String) : List String :=
  (lineChars text.toList).map String.ofList

namespace Highlight

/-! ### Groups -/

/-- What a fragment of a program is, as far as its colour goes. -/
inductive Group where
  | keyword
  | boolean
  | number
  | string
  | identifier
  | builtin
  | operator
  | punctuation
  | comment
  | error
  | blank
deriving DecidableEq, Repr

/-- The style of a group; a group without one is shown as plain text. -/
def Group.style : Group → String
  | .keyword => "bold ansicyan"
  | .boolean => "ansicyan"
  | .number => "ansimagenta"
  | .string => "ansigreen"
  | .builtin => "bold ansiyellow"
  | .comment => "italic ansibrightblack"
  | .error => "bold ansired"
  | .identifier | .operator | .punctuation | .blank => ""

structure Fragment where
  group : Group
  text : String
deriving DecidableEq, Repr

def Fragment.style (fragment : Fragment) : String :=
  fragment.group.style

def groupOfKind : TokenKind → Group
  | .functionKw | .letKw | .ifKw | .elseKw | .returnKw => .keyword
  | .assign | .plus | .minus | .bang | .asterisk | .slash | .lt | .gt | .eq | .notEq => .operator
  | .trueKw | .falseKw => .boolean
  | .int => .number
  | .string => .string
  | .ident => .identifier
  | .illegal => .error
  | _ => .punctuation

/-- The group of a token: names of built-in functions stand out among the identifiers. -/
def groupOf (token : Token) : Group :=
  if token.kind = .ident ∧ (Builtin.ofName? token.literal).isSome then .builtin
  else groupOfKind token.kind

/-! ### Fragments of a line -/

/-- A token, the place where it starts, which on a single line is its column, and the place behind
    it. -/
structure Span where
  token : Token
  first : Nat
  behind : Nat
deriving DecidableEq, Repr

/-- The spans of at most `fuel` tokens. -/
def spansWithin : Nat → Scanner → List Span
  | 0, _ => []
  | fuel + 1, s =>
    match s.nextToken? with
    | none => []
    | some (token, last) =>
      ⟨token, token.column - 1, last.position.offset⟩ :: spansWithin fuel last

def spans (line : String) : List Span :=
  spansWithin line.toList.length (Scanner.ofText line)

def slice (cs : List Char) (first behind : Nat) : List Char :=
  (cs.drop first).take (behind - first)

/-- The fragments of what lies between two tokens: blanks, and a comment from its mark on. -/
def gapFragments (gap : List Char) : List Fragment :=
  let blanks := gap.takeWhile (· ≠ '#')
  let comment := gap.dropWhile (· ≠ '#')
  (if blanks.isEmpty then [] else [⟨.blank, String.ofList blanks⟩])
    ++ (if comment.isEmpty then [] else [⟨.comment, String.ofList comment⟩])

/-- The fragments of a line from a place on, given the spans of the tokens from there on. -/
def fragmentsFrom (cs : List Char) (place : Nat) : List Span → List Fragment
  | [] => gapFragments (cs.drop place)
  | span :: rest =>
    gapFragments (slice cs place span.first)
      ++ ⟨groupOf span.token, String.ofList (slice cs span.first span.behind)⟩
      :: fragmentsFrom cs span.behind rest

def emptyLine : List Fragment :=
  [⟨.blank, ""⟩]

def line (text : String) : List Fragment :=
  if text.isEmpty then emptyLine else fragmentsFrom text.toList 0 (spans text)

/-- The fragments of the line of a given number, counted from zero, in a text of several lines. -/
def lineAt (lines : List String) (number : Int) : List Fragment :=
  if number < 0 then emptyLine
  else
    match lines[number.toNat]? with
    | some text => line text
    | none => emptyLine

end Highlight

end Monkey
