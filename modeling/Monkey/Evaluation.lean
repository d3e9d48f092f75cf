import Monkey.Evaluation.Builtin
import Monkey.Evaluation.Operator

/-!
# Evaluation

Evaluating a node in an environment. Parts are evaluated from left to right; as soon as one is an error
the whole is that error and nothing more is evaluated. A pending return is a value like any other to
every node but three: a block ends at it and passes it on, while a program and a call end at it and take
the value it carries.

A block opens no scope, so a `let` inside it binds in the scope around it. A call opens a scope inside
the environment the function was made in.

Evaluation is defined in two steps. `Node.evalWith` follows the syntax tree, with the evaluation of the
bodies of called functions as a parameter; `Node.evalWithin` closes the recursion and halts where calls
nest deeper than its bound.
-/

namespace Monkey

/-- Go on unless a value is an error, in which case the value is the result. -/
@[inline] def Value.proceed (value : Value) (next : Eval Value) : Eval Value :=
  if value.isError then return value else next

/-- The value of a name: a binding of the environment, or else a built-in function. -/
def evalName (env : Env) (name : String) : Eval Value := do
  match ← Eval.lookup env name with
  | some value => return value
  | none =>
    match Builtin.ofName? name with
    | some builtin => return .builtin builtin
    | none => Eval.error (.unknownName name)

/-- The value of a call: `evalBody` evaluates the body of a function in the environment of the call.
    Arguments beyond the parameters are left out. -/
def applyWith (evalBody : Node → Env → Eval Value) (callee : Value) (arguments : List Value) :
    Eval Value :=
  match callee with
  | .function _ parameters body env =>
    if arguments.length < parameters.length then
      Eval.error (.missingArguments parameters.length arguments.length)
    else do
      let inner ← Eval.enclosed env (Assoc.insertAll (parameters.zip arguments) [])
      return (← evalBody body inner).unwrapped
  | .builtin builtin => builtin.apply arguments
  | _ => Eval.error (.notFunction callee.kind)

section

variable (evalBody : Node → Env → Eval Value) (env : Env)

mutual

/-- The value of a node, with `evalBody` for the bodies of called functions. -/
def Node.evalWith : Node → Eval Value
  | .missing => throw .missingNode
  | .program statements => do
    return (← evalSequence .null statements).unwrapped
  | .block _ statements => evalSequence .null statements
  | .expressionStatement _ expression => expression.evalWith
  | .letStatement _ target value => do
    let result ← value.evalWith
    result.proceed do
      Eval.bind env target.name result
      return .null
  | .returnStatement _ value => do
    let result ← value.evalWith
    result.proceed (Eval.returning result)
  | .identifier name => evalName env name.name
  | .integer _ value => Eval.integer value
  | .string _ value => Eval.string value
  | .boolean _ value => return .boolean value
  | .prefixed _ operator right => do
    let operand ← right.evalWith
    operand.proceed (applyPrefix operator operand)
  | .binary _ left operator right => do
    let first ← left.evalWith
    first.proceed do
      let second ← right.evalWith
      second.proceed (applyBinary operator first second)
  | .conditional _ condition consequence alternative => do
    let test ← condition.evalWith
    test.proceed do
      if test.isTruthy then consequence.evalWith
      else if alternative.isMissing then return .null
      else alternative.evalWith
  | .function _ parameters body => Eval.function (parameters.map Identifier.name) body env
  | .call _ callee arguments => do
    let function ← callee.evalWith
    function.proceed do
      match ← evalAll arguments with
      | .ok values => applyWith evalBody function values
      | .error failure => return failure
  | .array _ elements => do
    match ← evalAll elements with
    | .ok values => Eval.array values
    | .error failure => return failure
  | .index _ left subscript => do
    let first ← left.evalWith
    first.proceed do
      let second ← subscript.evalWith
      second.proceed (applyIndex first second)
  | .hash _ pairs => evalPairs [] pairs

/-- The value of the last of some statements, or of the first one that gives an error or a pending
    return, at which the sequence ends; `last` is the value if there are none. -/
def evalSequence (last : Value) : List Node → Eval Value
  | [] => return last
  | statement :: rest => do
    let result ← statement.evalWith
    if result.isReturning || result.isError then return result
    else evalSequence result rest

def evalAll : List Node → Eval (Except Value (List Value))
  | [] => return .ok []
  | expression :: rest => do
    let value ← expression.evalWith
    if value.isError then return .error value
    else
      match ← evalAll rest with
      | .ok values => return .ok (value :: values)
      | .error failure => return .error failure

/-- The hash with the given entries and the pairs that follow; each pair's key comes before its
    value. -/
def evalPairs (entries : List (HashKey × Value × Value)) : List (Node × Node) → Eval Value
  | [] => Eval.hash entries
  | (left, right) :: rest => do
    let key ← left.evalWith
    key.proceed do
      match key.hashKey? with
      | none => Eval.error (.unusableKey key.kind)
      | some hashKey => do
        let value ← right.evalWith
        value.proceed (evalPairs (Assoc.insert hashKey (key, value) entries) rest)

end

end

/-- The value of a node, with at most `depth` evaluations nested in one another: that of the node itself,
    and those of the bodies of called functions. -/
def Node.evalWithin : Nat → Node → Env → Eval Value
  | 0, _, _ => throw .tooDeep
  | depth + 1, node, env => node.evalWith (evalWithin depth) env

end Monkey
