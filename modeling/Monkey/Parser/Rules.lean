import Monkey.Parser
import Monkey.Text.Numeral

/-!
# Parse rules

One rule for each construct of the language. The rules are open: what they need for the expressions
inside their construct is the parameter `expr`, which reads an expression up to the first operator that
binds no tighter than a given power. `Monkey.Parser.Program` closes the recursion.

Each rule follows the grammar:

* a statement is `let NAME = E`, `return E` or `E`, and takes a semicolon that follows it;
* a block is a sequence of statements between braces, the closing one of which may be missing at the end
  of the text;
* an expression is a prefix (a name, a literal, an operator with its operand, a parenthesised
  expression, a conditional, a function, an array or a hash) and what follows it: binary operators,
  calls and indices, as long as they bind tightly enough and no semicolon comes first.

A statement whose rule fails is dropped, its error is recorded, and the sequence goes on with the token
behind the one where the rule failed.
-/

namespace Monkey.Rule

/-! ### Names and literals -/

def identifier : Rule Node := do
  return .identifier (.ofToken (← current))

/-- The greatest value of an integer literal, 2^63 - 1. -/
def maxInteger : Int := 9223372036854775807

/-- The value of an integer literal, if it is a numeral and not too great. -/
def integerValue? (literal : String) : Option Int :=
  (Text.integer? literal).filter (· ≤ maxInteger)

def integerLiteral : Rule Node := do
  let token ← current
  match integerValue? token.literal with
  | some value => return .integer token value
  | none => throw (.badInteger token.literal)

def stringLiteral : Rule Node := do
  let token ← current
  return .string token token.literal

def booleanLiteral : Rule Node := do
  let token ← current
  return .boolean token (token.kind = .trueKw)

section Open

variable (expr : Precedence → Rule Node)

/-! ### Statements -/

def letStatement : Rule Node := do
  let token ← current
  expect .ident
  let target ← current
  expect .assign
  advance
  let value ← expr .lowest
  let _ ← accept .semicolon
  return .letStatement token (.ofToken target) value

def returnStatement : Rule Node := do
  let token ← current
  advance
  let value ← expr .lowest
  let _ ← accept .semicolon
  return .returnStatement token value

def expressionStatement : Rule Node := do
  let token ← current
  let expression ← expr .lowest
  let _ ← accept .semicolon
  return .expressionStatement token expression

/-- A statement of any form, which its first token tells. -/
def statement : Rule Node := do
  match (← current).kind with
  | .letKw => letStatement expr
  | .returnKw => returnStatement expr
  | _ => expressionStatement expr

/-- The statements up to a token that `closes` the sequence, which is left current. One that fails is
    dropped and its error recorded. Each round takes a token, so `fuel` may be their number. -/
def statementsWithin (closes : TokenKind → Bool) : Nat → Parser → List Node × Parser
  | 0, p => ([], p)
  | fuel + 1, p =>
    if closes p.current.kind then ([], p)
    else
      match statement expr p with
      | .ok node behind =>
        let (rest, last) := statementsWithin closes fuel behind.advance
        (node :: rest, last)
      | .error failure behind => statementsWithin closes fuel (behind.record failure).advance

/-- The statements up to a token that `closes` the sequence, which is left current. -/
def statements (closes : TokenKind → Bool) (p : Parser) : List Node × Parser :=
  statementsWithin expr closes p.tokens.length p

def closesBlock (kind : TokenKind) : Bool :=
  kind = .rbrace || kind = .eof

def closesProgram (kind : TokenKind) : Bool :=
  kind = .eof

/-- A block, which never fails. -/
def block : Rule Node := fun p =>
  let (body, last) := statements expr closesBlock p.advance
  .ok (.block p.current body) last

/-! ### Lists -/

/-- The expressions behind those already read, each after a comma; `fuel` bounds their number. -/
def moreExpressions : Nat → Rule (List Node)
  | 0 => return []
  | fuel + 1 => do
    if ← accept .comma then
      advance
      let item ← expr .lowest
      return item :: (← moreExpressions fuel)
    else
      return []

/-- Expressions with commas between them up to a token of kind `last`, which is left current. -/
def expressionList (last : TokenKind) : Rule (List Node) := do
  if ← accept last then
    return []
  else
    advance
    let item ← expr .lowest
    let rest ← moreExpressions expr (← get).tokens.length
    expect last
    return item :: rest

/-- The parameters behind those already read, each after a comma; `fuel` bounds their number. -/
def moreParameters : Nat → Rule (List Identifier)
  | 0 => return []
  | fuel + 1 => do
    if ← accept .comma then
      expect .ident
      let name ← current
      return .ofToken name :: (← moreParameters fuel)
    else
      return []

/-- The parameters of a function, from the opening parenthesis to the closing one. -/
def parameters : Rule (List Identifier) := do
  if ← accept .rparen then
    return []
  else
    expect .ident
    let name ← current
    let rest ← moreParameters (← get).tokens.length
    expect .rparen
    return .ofToken name :: rest

/-- One pair of a hash literal, from the token in front of it. -/
def hashPair : Rule (Node × Node) := do
  advance
  let key ← expr .lowest
  expect .colon
  advance
  let value ← expr .lowest
  return (key, value)

/-- The pairs of a hash literal up to its closing brace, which is left current; `fuel` bounds their
    number. -/
def hashPairs : Nat → Rule (List (Node × Node))
  | 0 => return []
  | fuel + 1 => do
    let pair ← hashPair expr
    if ← accept .rbrace then
      return [pair]
    else
      expect .comma
      return pair :: (← hashPairs fuel)

/-! ### Constructs that start an expression -/

/-- An operator in front of its operand. -/
def prefixExpression : Rule Node := do
  let token ← current
  advance
  let right ← expr .prefixed
  return .prefixed token token.literal right

/-- An expression in parentheses, which leave no trace in the tree. -/
def groupedExpression : Rule Node := do
  advance
  let expression ← expr .lowest
  expect .rparen
  return expression

/-- The alternative of a conditional, which is missing unless `else` follows. -/
def alternative : Rule Node := do
  if ← accept .elseKw then
    expect .lbrace
    block expr
  else
    return .missing

def conditional : Rule Node := do
  let token ← current
  expect .lparen
  advance
  let condition ← expr .lowest
  expect .rparen
  expect .lbrace
  let consequence ← block expr
  let otherwise ← alternative expr
  return .conditional token condition consequence otherwise

def functionLiteral : Rule Node := do
  let token ← current
  expect .lparen
  let names ← parameters
  expect .lbrace
  let body ← block expr
  return .function token names body

def arrayLiteral : Rule Node := do
  let token ← current
  let elements ← expressionList expr .rbracket
  return .array token elements

def hashLiteral : Rule Node := do
  let token ← current
  if ← accept .rbrace then
    return .hash token []
  else
    return .hash token (← hashPairs expr ((← get).tokens.length + 1))

/-! ### Constructs that continue an expression -/

def binaryExpression (left : Node) : Rule Node := do
  let token ← current
  advance
  let right ← expr token.kind.precedence
  return .binary token left token.literal right

def callExpression (callee : Node) : Rule Node := do
  let token ← current
  let arguments ← expressionList expr .rparen
  return .call token callee arguments

def indexExpression (left : Node) : Rule Node := do
  let token ← current
  advance
  let subscript ← expr .lowest
  expect .rbracket
  return .index token left subscript

/-! ### Expressions -/

/-- The rule for an expression that starts with a token of the given kind. -/
def prefixRule? : TokenKind → Option (Rule Node)
  | .ident => some identifier
  | .int => some integerLiteral
  | .string => some stringLiteral
  | .trueKw | .falseKw => some booleanLiteral
  | .bang | .minus => some (prefixExpression expr)
  | .lparen => some (groupedExpression expr)
  | .ifKw => some (conditional expr)
  | .functionKw => some (functionLiteral expr)
  | .lbracket => some (arrayLiteral expr)
  | .lbrace => some (hashLiteral expr)
  | _ => none

/-- The rule for a construct that a token of the given kind adds to the expression to its left. -/
def infixRule? : TokenKind → Option (Node → Rule Node)
  | .plus | .minus | .slash | .asterisk | .eq | .notEq | .lt | .gt => some (binaryExpression expr)
  | .lparen => some (callExpression expr)
  | .lbracket => some (indexExpression expr)
  | _ => none

/-- Continue an expression as long as the next token binds tighter than `power`; `fuel` bounds the
    number of times. -/
def continued (power : Precedence) : Nat → Node → Rule Node
  | 0, left => return left
  | fuel + 1, left => do
    let next ← peekKind
    if next ≠ .semicolon ∧ power.rank < next.precedence.rank then
      match infixRule? expr next with
      | some rule => do
        advance
        let longer ← rule left
        continued power fuel longer
      | none => return left
    else
      return left

/-- An expression: its start, and all that continues it and binds tighter than `power`. -/
def expressionWith (power : Precedence) : Rule Node := do
  let token ← current
  match prefixRule? expr token.kind with
  | some rule => do
    let left ← rule
    continued expr power (← get).tokens.length left
  | none => throw (.noPrefixRule token.kind)

end Open

end Monkey.Rule
