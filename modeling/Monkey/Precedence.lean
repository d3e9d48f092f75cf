import Monkey.Token

/-!
# Binding powers

How tightly an operator holds its operands. The part of an expression that a parse rule reads ends in
front of the first operator that binds no tighter than the rule asks for; operators of equal power group
to the left.
-/

namespace Monkey

inductive Precedence where
  | lowest
  | equals
  | lessGreater
  | sum
  | product
  | prefixed
  | call
  | index
deriving DecidableEq, Repr, Inhabited

namespace Precedence

/-- The place of a binding power in the order, counted from one. -/
def rank : Precedence → Nat
  | .lowest => 1
  | .equals => 2
  | .lessGreater => 3
  | .sum => 4
  | .product => 5
  | .prefixed => 6
  | .call => 7
  | .index => 8

def name : Precedence → String
  | .lowest => "LOWEST"
  | .equals => "EQUALS"
  | .lessGreater => "LESSGREATER"
  | .sum => "SUM"
  | .product => "PRODUCT"
  | .prefixed => "PREFIX"
  | .call => "CALL"
  | .index => "INDEX"

def all : List Precedence :=
  [.lowest, .equals, .lessGreater, .sum, .product, .prefixed, .call, .index]

def ofName? (name : String) : Option Precedence :=
  all.find? fun precedence => precedence.name == name

end Precedence

/-- The binding power of a token that continues an expression, and the lowest one for all others. -/
def TokenKind.precedence : TokenKind → Precedence
  | .eq | .notEq => .equals
  | .lt | .gt => .lessGreater
  | .plus | .minus => .sum
  | .asterisk | .slash => .product
  | .lparen => .call
  | .lbracket => .index
  | _ => .lowest

end Monkey
