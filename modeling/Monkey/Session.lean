import Monkey.Evaluation
import Monkey.Parser.Program

/-!
# Running program texts

A program text is parsed and, unless it has parse errors, evaluated in an environment. Texts evaluated one
after the other in the same environment form a session: each sees what the ones before it bound, also
where one of them ended early or halted.
-/

namespace Monkey

/-- How deep evaluations may be nested in one another. -/
def depthLimit : Nat := 2500

inductive RunFailure where
  | parse (errors : List ParseError)
  | halt (reason : Halt)
deriving DecidableEq, Repr

/-- A run: it gives a result or fails, and changes the machine in either case. -/
abbrev Run := EStateM RunFailure Machine

def Node.eval (node : Node) (env : Env) : Eval Value :=
  node.evalWithin depthLimit env

def Eval.toRun {α : Type} (evaluation : Eval α) : Run α := fun m =>
  match evaluation m with
  | .ok result after => .ok result after
  | .error reason after => .error (.halt reason) after

/-- The program node of a text without parse errors, or else its parse errors. -/
def parseProgram (source : String) : Except (List ParseError) Node :=
  let parsed := parse source
  if parsed.errors.isEmpty then .ok parsed.program else .error parsed.errors

/-- Run a program text in an environment; the result is the value and the program. -/
def runText (source : String) (env : Env) : Run (Value × Node) := do
  match parseProgram source with
  | .ok program => return (← (program.eval env).toRun, program)
  | .error errors => throw (.parse errors)

end Monkey
