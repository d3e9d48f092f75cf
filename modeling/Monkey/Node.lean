import Monkey.Token

/-!
# Syntax trees

The nodes of a program's syntax tree. There is one type of node for statements, expressions and whole
programs, because evaluation and printing treat them alike and accept them in each other's place. A part
that is absent is a node too, `missing`: the alternative of a conditional without one is `missing` by
right, and any other missing part makes a tree that prints but cannot be evaluated. Operators are kept
as they are written, so a tree may hold one that no program text contains.

Each node keeps the token it was read from: its first token, or for a call, an index and a binary
operation the token of the bracket or the operator.
-/

namespace Monkey

/-- A name, with the token it was read from. -/
structure Identifier where
  token : Token
  name : String
deriving DecidableEq, Repr, Inhabited

/-- The identifier that a token spells. -/
def Identifier.ofToken (token : Token) : Identifier :=
  ⟨token, token.literal⟩

inductive Node where
  | missing
  | program (statements : List Node)
  | letStatement (token : Token) (target : Identifier) (value : Node)
  | returnStatement (token : Token) (value : Node)
  | expressionStatement (token : Token) (expression : Node)
  | block (token : Token) (statements : List Node)
  | identifier (name : Identifier)
  | integer (token : Token) (value : Int)
  | string (token : Token) (value : String)
  | boolean (token : Token) (value : Bool)
  | prefixed (token : Token) (operator : String) (right : Node)
  | binary (token : Token) (left : Node) (operator : String) (right : Node)
  | conditional (token : Token) (condition consequence alternative : Node)
  | function (token : Token) (parameters : List Identifier) (body : Node)
  | call (token : Token) (callee : Node) (arguments : List Node)
  | array (token : Token) (elements : List Node)
  | index (token : Token) (left subscript : Node)
  | hash (token : Token) (pairs : List (Node × Node))
deriving Repr, Inhabited

namespace Node

def isMissing : Node → Bool
  | .missing => true
  | _ => false

def isLet : Node → Bool
  | .letStatement .. => true
  | _ => false

def lastStatement? : Node → Option Node
  | .program statements => statements.getLast?
  | _ => none

/-- Whether a node stands for a value that an operator, a call or an index can be applied to. -/
def isExpression : Node → Bool
  | .identifier .. | .integer .. | .string .. | .boolean .. | .prefixed .. | .binary ..
  | .conditional .. | .function .. | .call .. | .array .. | .index .. | .hash .. => true
  | _ => false

mutual

/-- The literal of a node's token; a program has that of its first statement. -/
def tokenLiteral : Node → String
  | .missing => ""
  | .program statements => firstLiteral statements
  | .letStatement token .. | .returnStatement token .. | .expressionStatement token ..
  | .block token .. | .integer token .. | .string token .. | .boolean token .. | .prefixed token ..
  | .binary token .. | .conditional token .. | .function token .. | .call token .. | .array token ..
  | .index token .. | .hash token .. => token.literal
  | .identifier name => name.token.literal

/-- The literal of the first of some statements, which is empty if there are none. -/
def firstLiteral : List Node → String
  | [] => ""
  | statement :: _ => statement.tokenLiteral

end

end Node

end Monkey
