import Monkey.CommandLine
import Monkey.Console.Command

/-!
# Console turns

A console shows its prompt and takes a turn: a submitted text, or one of the keys that interrupt the
typing and end the session. Characters that cannot be seen are removed from a text first. A blank text
does nothing, a command is carried out, and any other text is run as a program in the environment of the
session. A program that cannot be parsed or does not come to an end changes nothing but what it had
bound and printed before.
-/

namespace Monkey.Console

/-! ### Texts -/

/-- Characters that text from elsewhere may bring along and that show nothing: zero-width spaces and
    joiners, the byte order mark, the no-break space and the carriage return. -/
def isInvisible (c : Char) : Bool :=
  c = '\u200b' || c = '\u200c' || c = '\u200d' || c = '\ufeff' || c = '\u00a0' || c = '\r'

def normalize (text : String) : String :=
  String.ofList (text.toList.filter fun c => !isInvisible c)

def parseReport (errors : List ParseError) : String :=
  CommandLine.asLines
    ("Woops! We ran into some monkey business here!" :: " parser errors:"
      :: errors.map fun error => "\t" ++ error.message)

/-- Whether the result of a program is not worth showing: null, from a program that is empty or ends with
    a `let` statement. -/
def hidesResult (program : Node) (value : Value) : Bool :=
  value.same .null && (program.lastStatement?.map Node.isLet).getD true

/-- What a program printed, its outline if that is asked for, and its result. -/
def report (console : Console) (machine : Machine) (program : Node) (value : Value) : List Effect :=
  .print machine.printed
    :: (if console.showTree then [.print program.outline] else [])
    ++ (if hidesResult program value then [] else [.print (value.inspect ++ "\n")])

def evaluate (console : Console) (text : String) : List Effect × Console :=
  match runText text console.env console.machine.clearOutput with
  | .ok (value, program) machine =>
    (console.report machine program value, { console with machine })
  | .error (.parse errors) machine => ([.warn (parseReport errors)], { console with machine })
  | .error (.halt reason) machine =>
    let trace? := if console.traceback then some console.trace else none
    ([.print machine.printed, .warn (CommandLine.haltReport reason trace?)], { console with machine })

/-- Take a submitted text. -/
def submit (console : Console) (submitted : String) : List Effect × Console :=
  let text := normalize submitted
  if Text.isBlankText text then ([], console)
  else (console.command? text).getD (console.evaluate text)

/-! ### Sessions -/

inductive Turn where
  | text (submitted : String)
  | interrupt
  | endOfInput
deriving DecidableEq, Repr

/-- What happens between two prompts: the effects, and the prompt shown then; the end of the session
    shows none. -/
structure Step where
  effects : List Effect
  prompt : Option String
deriving DecidableEq, Repr

def prompt : String := ">> "

def greeting (user : String) : String :=
  "Hello " ++ user ++ "! This is the Monkey programming language!\nFeel free to type in commands\n"

def farewell : Step :=
  ⟨[.print "\n"], none⟩

/-- The steps that turns lead to, and the console after them. A session ends with its turns, or with one
    that ends the input. -/
def steps : Console → List Turn → List Step × Console
  | console, [] => ([farewell], console)
  | console, .endOfInput :: _ => ([farewell], console)
  | console, .interrupt :: rest =>
    let (others, last) := steps console rest
    (⟨[], some prompt⟩ :: others, last)
  | console, .text submitted :: rest =>
    let (effects, next) := console.submit submitted
    let (others, last) := steps next rest
    (⟨effects, some prompt⟩ :: others, last)

def session (user : String) (console : Console) (turns : List Turn) : List Step × Console :=
  let (others, last) := console.steps turns
  (⟨[.print (greeting user)], some prompt⟩ :: others, last)

end Monkey.Console
