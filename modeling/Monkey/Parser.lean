import Monkey.Node
import Monkey.Precedence
import Monkey.Scanner

/-!
# Parsers

A parser stands at a token, its current one, and may look at the one behind it. Behind the last token of
a program come end tokens for ever. A parse rule starts with its construct's first token as the current
one; it either gives a node and leaves the construct's last token current, or fails with one error where
it stands. Rules never record errors: who calls a rule decides what becomes of its failure, and the only
place that goes on after one is the sequence of statements in `Monkey.Parser.Rules`.
-/

namespace Monkey

/-! ### Failures -/

inductive ParseError where
  | unexpected (wanted got : TokenKind)
  | noPrefixRule (kind : TokenKind)
  | badInteger (literal : String)
deriving DecidableEq, Repr

def ParseError.message : ParseError → String
  | .unexpected wanted got =>
    "expected next token to be " ++ wanted.text ++ ", got " ++ got.text ++ " instead"
  | .noPrefixRule kind => "no prefix parse function for " ++ kind.text ++ " found"
  | .badInteger literal => "could not parse " ++ literal ++ " as integer"

/-! ### The parser and its place -/

/-- A parser: the tokens from the current one on, the place of the end token behind them, and the errors
    recorded so far. -/
structure Parser where
  tokens : List Token
  endLine : Nat := 1
  endColumn : Nat := 1
  errors : List ParseError := []
deriving DecidableEq, Repr

namespace Parser

def ofText (source : String) : Parser :=
  let (tokens, last) := (Scanner.ofText source).tokens
  { tokens, endLine := last.position.line, endColumn := last.position.column }

/-- The token that stands behind all others. -/
def endToken (p : Parser) : Token :=
  ⟨.eof, "", p.endLine, p.endColumn⟩

def current (p : Parser) : Token :=
  p.tokens.headD p.endToken

def peek (p : Parser) : Token :=
  p.tokens.tail.headD p.endToken

/-- Move on by one token; at the end there is nowhere to go. -/
def advance (p : Parser) : Parser :=
  { p with tokens := p.tokens.tail }

def record (p : Parser) (error : ParseError) : Parser :=
  { p with errors := p.errors ++ [error] }

end Parser

/-! ### Rules and their steps -/

/-- A parse rule: it moves the parser on and gives a result, or fails where it stands. -/
abbrev Rule := EStateM ParseError Parser

namespace Rule

def current : Rule Token := do
  return (← get).current

def peekKind : Rule TokenKind := do
  return (← get).peek.kind

def advance : Rule Unit :=
  modify Parser.advance

/-- Move on to the next token, which has to be of the given kind. -/
def expect (wanted : TokenKind) : Rule Unit := do
  let got ← peekKind
  if got = wanted then advance else throw (.unexpected wanted got)

/-- Move on to the next token if it is of the given kind, and say whether it was. -/
def accept (kind : TokenKind) : Rule Bool := do
  if (← peekKind) = kind then
    advance
    return true
  else
    return false

end Rule

end Monkey
