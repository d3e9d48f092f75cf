import Monkey.Assoc
import Monkey.Value

/-!
# The state of an evaluation

A machine holds every scope ever opened, the number of objects made so far, and the lines printed.
Scopes are never closed, because a function may still look names up in them; new ones go to the end, so
that a scope keeps its number. A binding is changed in one way only: `bind` sets a name in the innermost
scope of an environment.

An evaluation either gives a value or halts, and in both cases leaves the machine as far as it got.
-/

namespace Monkey

/-- The names bound in one scope, in the order in which they were first bound. -/
abbrev Bindings := List (String × Value)

structure Machine where
  scopes : Array Bindings := #[]
  objects : Nat := 0
  output : Array String := #[]
deriving Inhabited

namespace Machine

def bindings (m : Machine) (scope : Nat) : Bindings :=
  m.scopes.getD scope []

/-- The value of a name: that of the innermost scope that binds it. -/
def lookup (m : Machine) (env : Env) (name : String) : Option Value :=
  env.chain.findSome? fun scope => (m.bindings scope).lookup name

/-- Set a name in the innermost scope of an environment. -/
def bind (m : Machine) (env : Env) (name : String) (value : Value) : Machine :=
  { m with scopes := m.scopes.modify env.scope (Assoc.insert name value) }

/-- Open a scope that holds the given bindings inside the given ones. -/
def openScope (m : Machine) (outer : List Nat) (bindings : Bindings) : Env × Machine :=
  (⟨m.scopes.size, outer⟩, { m with scopes := m.scopes.push bindings })

/-- Open an empty scope that is inside no other. -/
def openSession (m : Machine) : Env × Machine :=
  m.openScope [] []

def newObject (m : Machine) : Nat × Machine :=
  (m.objects, { m with objects := m.objects + 1 })

def print (m : Machine) (line : String) : Machine :=
  { m with output := m.output.push line }

def printed (m : Machine) : String :=
  m.output.foldl (fun text line => text ++ line ++ "\n") ""

def clearOutput (m : Machine) : Machine :=
  { m with output := #[] }

end Machine

/-! ### Evaluations -/

/-- Why an evaluation halts without a value: calls are nested too deep, or a part of the syntax tree is
    missing. -/
inductive Halt where
  | tooDeep
  | missingNode
deriving DecidableEq, Repr

/-- An evaluation: it gives a value or halts, and changes the machine in either case. -/
abbrev Eval := EStateM Halt Machine

namespace Eval

def newObject : Eval Nat :=
  modifyGet Machine.newObject

def integer (value : Int) : Eval Value := do
  return .integer (← newObject) value

def string (text : String) : Eval Value := do
  return .string (← newObject) text

def array (elements : List Value) : Eval Value := do
  return .array (← newObject) elements

def hash (entries : List (HashKey × Value × Value)) : Eval Value := do
  return .hash (← newObject) entries

def function (parameters : List String) (body : Node) (env : Env) : Eval Value := do
  return .function (← newObject) parameters body env

def returning (value : Value) : Eval Value := do
  return .returning (← newObject) value

def error (fault : Fault) : Eval Value := do
  return .error (← newObject) fault

/-- The value of a name, if a scope of the environment binds it. -/
def lookup (env : Env) (name : String) : Eval (Option Value) := do
  return (← get).lookup env name

/-- Set a name in the innermost scope of an environment. -/
def bind (env : Env) (name : String) (value : Value) : Eval Unit :=
  modify fun m => m.bind env name value

/-- The environment whose innermost scope is new, holds the given bindings and lies inside `env`. -/
def enclosed (env : Env) (bindings : Bindings) : Eval Env :=
  modifyGet fun m => m.openScope env.chain bindings

def print (line : String) : Eval Unit :=
  modify fun m => m.print line

end Eval

end Monkey
