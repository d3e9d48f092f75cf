import Monkey.Parser.Rules

/-!
# Parsing programs

The closed form of the expression rule, and the parse of a whole program text. Every part of a construct
starts behind the construct's first token, so constructs nest no deeper than there are tokens; that is
the depth `Rule.expression` asks for. Parsing a program never fails: it gives the statements that could
be read and the errors of those that could not.
-/

namespace Monkey

/-- An expression whose constructs nest at most `depth` deep; where they nest deeper the rule for the
    first token too deep is taken to be missing. -/
def Rule.expressionWithin : Nat → Precedence → Rule Node
  | 0, _ => do throw (.noPrefixRule (← current).kind)
  | depth + 1, power => Rule.expressionWith (expressionWithin depth) power

/-- An expression, up to the first operator that binds no tighter than `power`. -/
def Rule.expression (power : Precedence) : Rule Node := fun p =>
  Rule.expressionWithin p.tokens.length power p

/-- What parsing a program text gives: a program node, and the errors of the statements left out of it,
    in the order of the text. -/
structure Parsed where
  statements : List Node
  errors : List ParseError
deriving Repr

def Parsed.program (parsed : Parsed) : Node :=
  .program parsed.statements

def Parsed.messages (parsed : Parsed) : List String :=
  parsed.errors.map ParseError.message

/-- Parse all tokens from where a parser stands. -/
def Parser.program (p : Parser) : List Node × Parser :=
  Rule.statements Rule.expression Rule.closesProgram p

def parse (source : String) : Parsed :=
  let (statements, last) := (Parser.ofText source).program
  ⟨statements, last.errors⟩

end Monkey
