import Monkey.Machine

/-!
# The console's state and effects

A console is an interactive session: an environment that lives as long as the session does, and two
switches that commands turn. What it does to the user's terminal is a list of effects.
-/

namespace Monkey

/-- What a console does to the terminal: it prints to one of the two outputs, or clears the screen. -/
inductive Effect where
  | print (text : String)
  | warn (text : String)
  | clearScreen
deriving DecidableEq, Repr

/-- The state of an interactive session. `showTree` asks for each program's outline before its result,
    and `traceback` for the trace of an evaluation that halts; `trace` is the text the host has for that. -/
structure Console where
  machine : Machine
  env : Env
  showTree : Bool := false
  traceback : Bool := false
  trace : String := ""

namespace Console

def start (traceback : Bool) (trace : String := "") : Console :=
  let (env, machine) := ({} : Machine).openSession
  { machine, env, traceback, trace }

/-- Go on in a new environment, in which nothing is bound. -/
def reset (console : Console) : Console :=
  let (env, machine) := console.machine.openSession
  { console with machine, env }

end Console

end Monkey
