import Monkey.Node

/-!
# Syntax trees as text

The canonical text of a syntax tree: every operation and every index in parentheses, statements next to
each other without separators, strings without their quotes. An absent part leaves no trace where a
value, a condition, a right operand, an index or a body is due, and is spelled out in all other places:
as a left operand, as what is called or indexed, and as a member of a list.
-/

namespace Monkey.Node

/-- The text of a part in a place where absence is spelled out. -/
def spelled (part : Node) (text : String) : String :=
  if part.isMissing then "None" else text

def commaSeparated (texts : List String) : String :=
  ", ".intercalate texts

def parameterNames (parameters : List Identifier) : List String :=
  parameters.map Identifier.name

mutual

def text : Node → String
  | .missing => ""
  | .program statements | .block _ statements => String.join (memberTexts statements)
  | .letStatement token target value =>
    token.literal ++ " " ++ target.name ++ " = " ++ value.text ++ ";"
  | .returnStatement token value => token.literal ++ " " ++ value.text ++ ";"
  | .expressionStatement _ expression => expression.text
  | .identifier name => name.name
  | .integer token _ | .string token _ | .boolean token _ => token.literal
  | .prefixed _ operator right => "(" ++ operator ++ right.text ++ ")"
  | .binary _ left operator right =>
    "(" ++ spelled left left.text ++ " " ++ operator ++ " " ++ right.text ++ ")"
  | .conditional _ condition consequence alternative =>
    "if" ++ condition.text ++ " " ++ consequence.text
      ++ (if alternative.isMissing then "" else "else " ++ alternative.text)
  | .function token parameters body =>
    token.literal ++ "(" ++ commaSeparated (parameterNames parameters) ++ ") " ++ body.text
  | .call _ callee arguments =>
    spelled callee callee.text ++ "(" ++ commaSeparated (memberTexts arguments) ++ ")"
  | .array _ elements => "[" ++ commaSeparated (memberTexts elements) ++ "]"
  | .index _ left subscript => "(" ++ spelled left left.text ++ "[" ++ subscript.text ++ "])"
  | .hash _ pairs => "\x7b" ++ commaSeparated (pairTexts pairs) ++ "\x7d"

def memberTexts : List Node → List String
  | [] => []
  | member :: rest => spelled member member.text :: memberTexts rest

def pairTexts : List (Node × Node) → List String
  | [] => []
  | (key, value) :: rest =>
    (spelled key key.text ++ ":" ++ spelled value value.text) :: pairTexts rest

end

/-- The text of a function's body as it is shown with the function's value. -/
def bodyText (body : Node) : String :=
  spelled body body.text

end Monkey.Node
