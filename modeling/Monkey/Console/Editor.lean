import Monkey.Scanner
import Monkey.Text.Blank

/-!
# Editing a program at the prompt

The two keys with a meaning of their own. Enter submits a text whose brackets are all closed; while one
is open it starts a new line, unless the line of the cursor is blank, which submits the text as it is.
Backspace deletes a character and asks for offers where the text is a command.
-/

namespace Monkey.Editor

/-- By how much a token changes the number of open brackets, given that number: a closing bracket that
    closes nothing is passed over. -/
def nest (depth : Nat) : TokenKind → Nat
  | .lparen | .lbracket | .lbrace => depth + 1
  | .rparen | .rbracket | .rbrace => depth - 1
  | _ => depth

/-- The number of brackets in a text that are still to be closed. -/
def openDepth (text : String) : Nat :=
  (tokenize text).foldl (fun depth token => nest depth token.kind) 0

/-- The text being edited, and the number of characters before the cursor. -/
structure Buffer where
  text : String
  cursor : Nat
deriving DecidableEq, Repr

/-- What a key does: it inserts a text, submits the buffer, or asks for offers to complete it. -/
inductive Action where
  | insert (text : String)
  | submit
  | complete
deriving DecidableEq, Repr

namespace Buffer

def before (buffer : Buffer) : List Char :=
  buffer.text.toList.take buffer.cursor

def behind (buffer : Buffer) : List Char :=
  buffer.text.toList.drop buffer.cursor

def currentLine (buffer : Buffer) : List Char :=
  (buffer.before.reverse.takeWhile (· ≠ '\n')).reverse ++ buffer.behind.takeWhile (· ≠ '\n')

def enter (buffer : Buffer) : Action :=
  if 0 < openDepth buffer.text && !buffer.currentLine.all Text.isBlank then .insert "\n" else .submit

def deleteBefore (buffer : Buffer) : Buffer :=
  ⟨String.ofList (buffer.before.dropLast ++ buffer.behind), buffer.before.dropLast.length⟩

def isCommand (buffer : Buffer) : Bool :=
  buffer.text.toList.head? = some '/'

def backspace (buffer : Buffer) : List Action × Buffer :=
  let shorter := buffer.deleteBefore
  (if shorter.isCommand then [.complete] else [], shorter)

end Buffer

end Monkey.Editor
