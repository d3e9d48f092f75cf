import Monkey.CommandLine
import Monkey.Console.Command

/-!
# The program `monkey`

Reads what the command line asks for, and prints the answer to it.
-/

namespace Monkey.CommandLine

def readFile? (name : String) : IO (Option String) := do
  try
    return some (← IO.FS.readFile name)
  catch _ =>
    return none

/-- The standard input if the target asks for it. -/
def readInput (target : String) : IO String := do
  if target = standardInput then (← IO.getStdin).readToEnd else return ""

/-- The variable of the environment that asks for the trace of an evaluation that halts. -/
def traceVariable : String := "MONKEY_DEBUG_PY_TRACE"

/-- The trace of an evaluation that halts, if that is asked for. This host has nothing to tell in it. -/
def readTrace? : IO (Option String) := do
  if settingIsOn (← IO.getEnv traceVariable) then return some "" else return none

def Response.print (response : Response) : IO UInt32 := do
  (← IO.getStdout).putStr response.stdout
  (← IO.getStderr).putStr response.stderr
  return response.exit.toUInt32

end Monkey.CommandLine

/-- Run the program, or show it, as the arguments ask. -/
def main (arguments : List String) : IO UInt32 := do
  match Monkey.CommandLine.Invocation.ofArguments arguments with
  | .error error => error.response.print
  | .ok invocation =>
    let input ← Monkey.CommandLine.readInput invocation.target
    let content ← Monkey.CommandLine.readFile? invocation.target
    let trace? ← Monkey.CommandLine.readTrace?
    (Monkey.CommandLine.respond arguments input (fun _ => content) trace?).print
