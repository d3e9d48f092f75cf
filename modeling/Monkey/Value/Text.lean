import Monkey.Node.Text
import Monkey.Value

/-!
# Values as text

How a value is shown to the user, and how it is listed where strings and pending returns have to be told
from what they hold.
-/

namespace Monkey.Value

mutual

def inspect : Value → String
  | .null => "null"
  | .boolean value => if value then "true" else "false"
  | .builtin _ => "builtin function"
  | .integer _ value => toString value
  | .string _ text => text
  | .array _ elements => "[" ++ Node.commaSeparated (inspectAll elements) ++ "]"
  | .hash _ entries => "\x7b" ++ Node.commaSeparated (inspectEntries entries) ++ "\x7d"
  | .function _ parameters body _ =>
    "fn(" ++ Node.commaSeparated parameters ++ ") \x7b\n" ++ body.bodyText ++ "\n\x7d"
  | .returning _ value => value.inspect
  | .error _ fault => "ERROR: " ++ fault.message

def inspectAll : List Value → List String
  | [] => []
  | value :: rest => value.inspect :: inspectAll rest

def inspectEntries : List (HashKey × Value × Value) → List String
  | [] => []
  | (_, key, value) :: rest => (key.inspect ++ ": " ++ value.inspect) :: inspectEntries rest

end

/-- The text of a value in a listing: strings stand in quotes, which escape nothing, and built-in
    functions and pending returns in angle brackets. -/
def listing : Value → String
  | .string _ text => "\"" ++ text ++ "\""
  | .builtin which => "<builtin " ++ which.name ++ ">"
  | .returning _ value => "<return " ++ value.listing ++ ">"
  | value => value.inspect

end Monkey.Value
