/-!
# Tokens

The words that program text is made of. A token has a kind, its literal (the text it stands for, which
for a string is the content without the quotes) and the place of its first character. Kinds have two
names: `text` is the one used in messages, where an operator goes by its own spelling, and `name` the
one used where tokens are listed.
-/

namespace Monkey

/-- The kinds of tokens. `illegal` is one character that starts no other token, and `eof` the end of
    the program text. -/
inductive TokenKind where
  | illegal
  | eof
  | ident
  | int
  | string
  | assign
  | plus
  | minus
  | bang
  | asterisk
  | slash
  | lt
  | gt
  | eq
  | notEq
  | comma
  | semicolon
  | colon
  | lparen
  | rparen
  | lbrace
  | rbrace
  | lbracket
  | rbracket
  | functionKw
  | letKw
  | trueKw
  | falseKw
  | ifKw
  | elseKw
  | returnKw
deriving DecidableEq, Repr, Inhabited

namespace TokenKind

def all : List TokenKind :=
  [.illegal, .eof, .ident, .int, .string, .assign, .plus, .minus, .bang, .asterisk, .slash, .lt, .gt,
   .eq, .notEq, .comma, .semicolon, .colon, .lparen, .rparen, .lbrace, .rbrace, .lbracket, .rbracket,
   .functionKw, .letKw, .trueKw, .falseKw, .ifKw, .elseKw, .returnKw]

def text : TokenKind → String
  | .illegal => "ILLEGAL"
  | .eof => "EOF"
  | .ident => "IDENT"
  | .int => "INT"
  | .string => "STRING"
  | .assign => "="
  | .plus => "+"
  | .minus => "-"
  | .bang => "!"
  | .asterisk => "*"
  | .slash => "/"
  | .lt => "<"
  | .gt => ">"
  | .eq => "=="
  | .notEq => "!="
  | .comma => ","
  | .semicolon => ";"
  | .colon => ":"
  | .lparen => "("
  | .rparen => ")"
  | .lbrace => "\x7b"
  | .rbrace => "\x7d"
  | .lbracket => "["
  | .rbracket => "]"
  | .functionKw => "FUNCTION"
  | .letKw => "LET"
  | .trueKw => "TRUE"
  | .falseKw => "FALSE"
  | .ifKw => "IF"
  | .elseKw => "ELSE"
  | .returnKw => "RETURN"

/-- The name of a kind in listings of tokens and trees. -/
def name : TokenKind → String
  | .assign => "ASSIGN"
  | .plus => "PLUS"
  | .minus => "MINUS"
  | .bang => "BANG"
  | .asterisk => "ASTERISK"
  | .slash => "SLASH"
  | .lt => "LT"
  | .gt => "GT"
  | .eq => "EQ"
  | .notEq => "NOT_EQ"
  | .comma => "COMMA"
  | .semicolon => "SEMICOLON"
  | .colon => "COLON"
  | .lparen => "LPAREN"
  | .rparen => "RPAREN"
  | .lbrace => "LBRACE"
  | .rbrace => "RBRACE"
  | .lbracket => "LBRACKET"
  | .rbracket => "RBRACKET"
  | kind => kind.text

/-- The kind that goes by a text in messages. -/
def ofText? (text : String) : Option TokenKind :=
  all.find? fun kind => kind.text == text

end TokenKind

/-- The words that are no identifiers, and the kinds they stand for. -/
def keywords : List (String × TokenKind) :=
  [("fn", .functionKw), ("let", .letKw), ("true", .trueKw), ("false", .falseKw), ("if", .ifKw),
   ("else", .elseKw), ("return", .returnKw)]

/-- The kind of a word: that of the keyword it is, or else an identifier. -/
def wordKind (word : String) : TokenKind :=
  (keywords.lookup word).getD .ident

/-- A token and the place where it starts; lines and columns count from one. -/
structure Token where
  kind : TokenKind
  literal : String
  line : Nat := 0
  column : Nat := 0
deriving DecidableEq, Repr, Inhabited

end Monkey
