import Monkey.Machine
import Monkey.Value.Text

/-!
# Built-in functions

`len` measures strings and arrays; `first`, `last` and `rest` take arrays apart and give null for an
empty one; `push` makes a new array with one more element; `puts` prints each argument on a line of its
own. No built-in function changes a value.
-/

namespace Monkey.Builtin

/-- The number of arguments a built-in function takes, if it is fixed. -/
def arity? : Builtin → Option Nat
  | .len | .first | .last | .rest => some 1
  | .push => some 2
  | .puts => none

def applyKnown (builtin : Builtin) (arguments : List Value) : Eval Value :=
  match builtin, arguments with
  | .puts, _ => do
    arguments.forM fun argument => Eval.print argument.inspect
    return .null
  | .len, [.string _ text] => Eval.integer text.length
  | .len, .array _ elements :: _ => Eval.integer elements.length
  | .len, argument :: _ => Eval.error (.argumentWithoutLength argument.kind)
  | .first, .array _ elements :: _ => return elements.headD .null
  | .last, .array _ elements :: _ => return elements.getLastD .null
  | .rest, .array _ [] :: _ => return .null
  | .rest, .array _ (_ :: elements) :: _ => Eval.array elements
  | .push, [.array _ elements, element] => Eval.array (elements ++ [element])
  | _, argument :: _ => Eval.error (.argumentNotArray builtin argument.kind)
  | _, [] => return .null

def apply (builtin : Builtin) (arguments : List Value) : Eval Value :=
  match builtin.arity? with
  | none => builtin.applyKnown arguments
  | some wanted =>
    if arguments.length = wanted then builtin.applyKnown arguments
    else Eval.error (.argumentCount arguments.length wanted)

end Monkey.Builtin
