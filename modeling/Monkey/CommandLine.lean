import Monkey.Node.Tree
import Monkey.Session

/-!
# The command line

What a command line asks for, and the answer to it. The arguments name one program: an argument that
names a file stands for the file's content, a dash or no argument at all for the standard input, and any
other argument is the program itself. With `--ast` the program is shown as an outline and not run. Text from
a file or from the standard input may end its lines with CR LF, with CR or with LF; a program only ever sees
LF.

Everything here is a function of the arguments, the standard input, the files there are and the trace that
the host has of a failure; `Monkey.Main` does the reading and writing.
-/

namespace Monkey

/-! ### Line ends -/

/-- Write every CR LF and every other CR as LF. -/
def Text.unifyNewlineChars : List Char → List Char
  | '\r' :: '\n' :: rest => '\n' :: unifyNewlineChars rest
  | '\r' :: rest => '\n' :: unifyNewlineChars rest
  | c :: rest => c :: unifyNewlineChars rest
  | [] => []

/-- A text from a file or from the standard input, as a program sees it. -/
def Text.unifyNewlines (text : String) : String :=
  String.ofList (unifyNewlineChars text.toList)

namespace CommandLine

/-! ### Answers -/

structure Response where
  stdout : String := ""
  stderr : String := ""
  exit : Nat := 0
deriving DecidableEq, Repr

def asLines (texts : List String) : String :=
  String.join (texts.map fun text => text ++ "\n")

/-- A refusal that is no fault of the program's. -/
inductive UsageError where
  | unknownOption (option : String)
  | unexpectedArgument (argument : String)
  | emptyInput
deriving DecidableEq, Repr

def usage : String := "usage: monkey [--ast] [FILE | SOURCE | -]"

def UsageError.message : UsageError → String
  | .unknownOption option => "Unknown option: " ++ option ++ "\n" ++ usage
  | .unexpectedArgument argument => "Unexpected argument: " ++ argument
  | .emptyInput => "No input provided on stdin"

/-- Why an evaluation halted. Only programs without parse errors are evaluated, and in these no evaluation
    ever meets a missing node (`program_evaluates`), so the second text is never shown. -/
def haltMessage : Halt → String
  | .tooDeep => "maximum recursion depth exceeded"
  | .missingNode => "missing node"

/-- What is told of an evaluation that halted: why it did and, if that is asked for, the trace of it. The
    trace is the host's own account of where it was, so it is given. -/
def haltReport (reason : Halt) (trace? : Option String) : String :=
  "Error: " ++ haltMessage reason ++ "\n" ++
    match trace? with
    | some trace => "Python traceback:\n" ++ trace
    | none => ""

def UsageError.response (error : UsageError) : Response :=
  { stderr := error.message ++ "\n", exit := 1 }

/-! ### Arguments -/

/-- What the arguments ask for: whether to show the tree, and where the program is. -/
structure Invocation where
  showTree : Bool
  target : String
deriving DecidableEq, Repr

def standardInput : String := "-"

def isOption (argument : String) : Bool :=
  "--".toList.isPrefixOf argument.toList

/-- Read the arguments. An unknown option is refused before an argument too many. -/
def Invocation.ofArguments (arguments : List String) : Except UsageError Invocation :=
  let options := arguments.filter isOption
  let targets := arguments.filter fun argument => !isOption argument
  match options.find? (· ≠ "--ast"), targets with
  | some option, _ => .error (.unknownOption option)
  | none, _ :: second :: _ => .error (.unexpectedArgument second)
  | none, [target] => .ok ⟨!options.isEmpty, target⟩
  | none, [] => .ok ⟨!options.isEmpty, standardInput⟩

/-! ### Programs -/

/-- Run a program text, or show its outline. Parse errors are printed, one in a line. The trace is what the
    host has to tell of an evaluation that halts, if that is asked for. -/
def runSource (showTree : Bool) (source : String) (trace? : Option String := none) : Response :=
  match parseProgram source with
  | .error errors =>
    { stderr := asLines (errors.map fun error => "Parse error: " ++ error.message), exit := 1 }
  | .ok program =>
    if showTree then { stdout := program.outline }
    else
      let (env, machine) := ({} : Machine).openSession
      match program.eval env machine with
      | .ok value after => { stdout := after.printed ++ value.inspect ++ "\n" }
      | .error reason after =>
        { stdout := after.printed, stderr := haltReport reason trace?, exit := 1 }

/-- The program text that a target stands for, given the standard input and the contents of files. -/
def sourceOf (input : String) (file? : String → Option String) (target : String) :
    Except UsageError String :=
  if target = standardInput then
    if input.isEmpty then .error .emptyInput else .ok (Text.unifyNewlines input)
  else
    match file? target with
    | some content => .ok (Text.unifyNewlines content)
    | none => .ok target

/-- The answer to a command line, given the standard input and the contents of files. -/
def respond (arguments : List String) (input : String) (file? : String → Option String)
    (trace? : Option String := none) : Response :=
  match Invocation.ofArguments arguments with
  | .error error => error.response
  | .ok invocation =>
    match sourceOf input file? invocation.target with
    | .error error => error.response
    | .ok source => runSource invocation.showTree source trace?

/-! ### Files -/

/-- The parts of a relative path, without the empty ones and the dots that lead nowhere. -/
def pathParts (path : String) : List String :=
  (path.splitOn "/").filter fun part => part ≠ "" && part ≠ "."

/-- The content of the file that a path names in a directory of the given files. -/
def fileIn (files : List (String × String)) (path : String) : Option String :=
  if path.startsWith "/" then none
  else
    let parts := pathParts path
    files.findSome? fun (name, content) => if pathParts name = parts then some content else none

/-! ### The stages on their own -/

/-- List the tokens of the program on the standard input, one in a line. -/
def listTokens (input : String) : Response :=
  { stdout := asLines ((tokenize (Text.unifyNewlines input)).map Token.listing) }

/-- Show the outline of the program on the standard input, without the statements that cannot be
    parsed, and the parse errors. -/
def showParse (input : String) : Response :=
  let parsed := parse (Text.unifyNewlines input)
  { stdout := parsed.program.outline ++ "\n"
    stderr := asLines (parsed.messages.map ("Parse error: " ++ ·))
    exit := if parsed.errors.isEmpty then 0 else 1 }

end CommandLine

end Monkey
