import Monkey.Node

/-!
# Values

What programs compute with. A value has a kind and an identity. The null value, the two booleans and the
built-in functions exist once and are told apart by what they are; every other value is an object, made
at some point of an evaluation and told apart by its number. Two kinds of values are special: an error stands
for the failure of the evaluation that made it and never becomes data, and a pending return carries the result
of a `return` statement out to the enclosing call. Where a construct takes the value of a conditional with a
`return` in it, as an operand, an argument, an element or what a `let` binds, a pending return does become data.
-/

namespace Monkey

/-! ### Kinds of values -/

inductive Kind where
  | integer
  | boolean
  | string
  | null
  | array
  | hash
  | function
  | builtin
  | returning
  | error
deriving DecidableEq, Repr

def Kind.name : Kind → String
  | .integer => "INTEGER"
  | .boolean => "BOOLEAN"
  | .string => "STRING"
  | .null => "NULL"
  | .array => "ARRAY"
  | .hash => "HASH"
  | .function => "FUNCTION"
  | .builtin => "BUILTIN"
  | .returning => "RETURN_VALUE"
  | .error => "ERROR"

/-! ### Built-in functions -/

inductive Builtin where
  | len
  | first
  | last
  | rest
  | push
  | puts
deriving DecidableEq, Repr

namespace Builtin

/-- The name that a program calls a built-in function by. -/
def name : Builtin → String
  | .len => "len"
  | .first => "first"
  | .last => "last"
  | .rest => "rest"
  | .push => "push"
  | .puts => "puts"

def all : List Builtin :=
  [.len, .first, .last, .rest, .push, .puts]

def ofName? (name : String) : Option Builtin :=
  all.find? fun builtin => builtin.name == name

end Builtin

/-! ### Faults -/

/-- Why an evaluation fails. `other` is a failure that comes from outside, with its own words. -/
inductive Fault where
  | unknownName (name : String)
  | divisionByZero (dividend : Int)
  | unknownPrefix (operator : String) (right : Kind)
  | unknownBinary (left : Kind) (operator : String) (right : Kind)
  | kindMismatch (left : Kind) (operator : String) (right : Kind)
  | notFunction (kind : Kind)
  | missingArguments (wanted got : Nat)
  | argumentCount (got wanted : Nat)
  | argumentNotArray (builtin : Builtin) (got : Kind)
  | argumentWithoutLength (got : Kind)
  | unusableKey (kind : Kind)
  | other (message : String)
deriving DecidableEq, Repr

def Fault.message : Fault → String
  | .unknownName name => "identifier not found: " ++ name
  | .divisionByZero dividend => "division by zero: " ++ toString dividend ++ " / 0"
  | .unknownPrefix operator right => "unknown operator: " ++ operator ++ right.name
  | .unknownBinary left operator right =>
    "unknown operator: " ++ left.name ++ " " ++ operator ++ " " ++ right.name
  | .kindMismatch left operator right =>
    "type mismatch: " ++ left.name ++ " " ++ operator ++ " " ++ right.name
  | .notFunction kind => "not a function: " ++ kind.name
  | .missingArguments wanted got =>
    "wrong number of arguments: want=" ++ toString wanted ++ ", got=" ++ toString got
  | .argumentCount got wanted =>
    "wrong number of arguments. got=" ++ toString got ++ ", want=" ++ toString wanted
  | .argumentNotArray builtin got =>
    "argument to `" ++ builtin.name ++ "` must be ARRAY, got " ++ got.name
  | .argumentWithoutLength got =>
    "argument to `" ++ Builtin.len.name ++ "` not supported, got " ++ got.name
  | .unusableKey kind => "unusable as hash key: " ++ kind.name
  | .other message => message

/-! ### Values -/

/-- What an entry of a hash is found by: the kind and the content of its key. -/
inductive HashKey where
  | integer (value : Int)
  | boolean (value : Bool)
  | string (text : String)
deriving DecidableEq, Repr

/-- Where names are looked up: the number of the innermost scope, and those of the scopes around it,
    innermost first. -/
structure Env where
  scope : Nat
  outer : List Nat
deriving DecidableEq, Repr

/-- All scopes of an environment, innermost first. -/
def Env.chain (env : Env) : List Nat :=
  env.scope :: env.outer

/-- A value. An object's first component is its number. A hash holds its entries in the order in which
    their keys first came, each under its hash key and with the key and the value last given. A function
    holds the environment it was made in. -/
inductive Value where
  | null
  | boolean (value : Bool)
  | builtin (which : Builtin)
  | integer (id : Nat) (value : Int)
  | string (id : Nat) (text : String)
  | array (id : Nat) (elements : List Value)
  | hash (id : Nat) (entries : List (HashKey × Value × Value))
  | function (id : Nat) (parameters : List String) (body : Node) (env : Env)
  | returning (id : Nat) (value : Value)
  | error (id : Nat) (fault : Fault)
deriving Repr, Inhabited

/-- What makes a value the value it is. -/
inductive Identity where
  | null
  | boolean (value : Bool)
  | builtin (which : Builtin)
  | object (id : Nat)
deriving DecidableEq, Repr

namespace Value

def kind : Value → Kind
  | .null => .null
  | .boolean _ => .boolean
  | .builtin _ => .builtin
  | .integer .. => .integer
  | .string .. => .string
  | .array .. => .array
  | .hash .. => .hash
  | .function .. => .function
  | .returning .. => .returning
  | .error .. => .error

def identity : Value → Identity
  | .null => .null
  | .boolean value => .boolean value
  | .builtin which => .builtin which
  | .integer id _ | .string id _ | .array id _ | .hash id _ | .function id _ _ _ | .returning id _
  | .error id _ => .object id

def same (a b : Value) : Bool :=
  a.identity = b.identity

def isError : Value → Bool
  | .error .. => true
  | _ => false

def isReturning : Value → Bool
  | .returning .. => true
  | _ => false

/-- The value that a pending return carries, and any other value as it is. Only one `return` is taken
    off. -/
def unwrapped : Value → Value
  | .returning _ value => value
  | value => value

/-- Whether a value counts as true in a condition. All do but null and false, zero and empty ones
    included. -/
def isTruthy : Value → Bool
  | .null => false
  | .boolean value => value
  | _ => true

/-- What a value is found by as the key of a hash, if it can be one. -/
def hashKey? : Value → Option HashKey
  | .integer _ value => some (.integer value)
  | .boolean value => some (.boolean value)
  | .string _ text => some (.string text)
  | _ => none

end Value

end Monkey
