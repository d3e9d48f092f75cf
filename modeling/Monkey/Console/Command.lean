import Monkey.Console
import Monkey.Text.Blank

/-!
# Console commands

A line that starts with a slash is a command for the console and not a program. A command's name reaches
up to the first space; what follows is its argument. The names are completed while they are typed.
-/

namespace Monkey

/-! ### Switches -/

/-- A text in lower case. Only ASCII letters have another case here, and they are all that the words for
    switches are made of. -/
def lowerCase (text : String) : String :=
  String.ofList (text.toList.map Char.toLower)

def onWords : List String := ["on", "1", "true", "yes"]

def offWords : List String := ["off", "0", "false", "no"]

/-- Whether a setting, which may be absent, turns a switch on. -/
def settingIsOn : Option String → Bool
  | some text => onWords.contains (lowerCase (Text.trim text))
  | none => false

/-- How the position of a switch is shown. -/
def switchText (on : Bool) : String :=
  if on then "on" else "off"

/-! ### Commands -/

inductive Command where
  | ast
  | clear
  | traceback
  | reset
deriving DecidableEq, Repr

namespace Command

def all : List Command :=
  [.ast, .clear, .traceback, .reset]

def name : Command → String
  | .ast => "/ast"
  | .clear => "/clear"
  | .traceback => "/py-traceback"
  | .reset => "/reset"

def help : Command → String
  | .ast => "Toggle printing the parsed AST"
  | .clear => "Clear the terminal screen"
  | .traceback => "Toggle Python traceback on errors"
  | .reset => "Start over with an empty environment"

def usage : Command → String
  | .traceback => "[on|off]"
  | _ => ""

def ofName? (name : String) : Option Command :=
  all.find? fun command => command.name == name

/-- The position of a switch after it is set by a word, or turned by none; nothing if the word is
    unknown. -/
def turned? (word : String) (on : Bool) : Option Bool :=
  if onWords.contains word then some true
  else if offWords.contains word then some false
  else if word.isEmpty then some (!on)
  else none

def run (command : Command) (argument : String) (console : Console) : List Effect × Console :=
  match command with
  | .ast =>
    let on := !console.showTree
    ([.print ("AST dump: " ++ switchText on ++ "\n")], { console with showTree := on })
  | .clear => ([.clearScreen], console)
  | .traceback =>
    match turned? (lowerCase argument) console.traceback with
    | some on =>
      ([.print ("Python traceback: " ++ switchText on ++ "\n")], { console with traceback := on })
    | none => ([.warn ("Usage: " ++ command.name ++ " " ++ command.usage ++ "\n")], console)
  | .reset => ([.print "Environment reset.\n"], console.reset)

end Command

/-! ### Command lines -/

/-- The name and the argument of a line that is a command. -/
def commandWords? (line : String) : Option (String × String) :=
  match Text.stripWhile Text.isBlank line.toList with
  | '/' :: rest =>
    let name := '/' :: rest.takeWhile (· ≠ ' ')
    let argument := (rest.dropWhile (· ≠ ' ')).drop 1
    some (String.ofList name, Text.trim (String.ofList argument))
  | _ => none

/-- Carry out a line that is a command; nothing if the line is a program. -/
def Console.command? (console : Console) (line : String) : Option (List Effect × Console) :=
  (commandWords? line).map fun (name, argument) =>
    match Command.ofName? name with
    | some command => command.run argument console
    | none => ([.warn ("Unknown command: " ++ name ++ "\n")], console)

/-! ### Completion -/

/-- An offer to complete what is typed: the text to put in the place of the `replaced` characters before
    the cursor, and how the offer is shown. -/
structure Completion where
  text : String
  replaced : Nat
  display : String
  note : String
deriving DecidableEq, Repr

def Command.display (command : Command) : String :=
  if command.usage.isEmpty then command.name else command.name ++ " " ++ command.usage

/-- The offers for a text that ends at the cursor: the commands it is the start of. -/
def completions (typed : String) : List Completion :=
  match typed.toList with
  | '/' :: rest =>
    if rest.contains ' ' then []
    else
      (Command.all.filter fun command => typed.toList.isPrefixOf command.name.toList).map fun command =>
        ⟨command.name, typed.length, command.display, command.help⟩
  | _ => []

end Monkey
