import Monkey.Node
import Monkey.Precedence

/-!
# The grammar

What a list of tokens can be read as, said without a parser. `Derives phrase tokens rest` holds if the
tokens in front of `rest` are derived as the phrase, which names the tree that they stand for. The
tokens behind matter in one place only: a statement without a semicolon must not be followed by one,
nor by a token that would go on with its expression.

    Program    = Statement*
    Statement  = let IDENT = E [;] | return E [;] | E [;]
    E          = left-associative ladder of the binary operators over Unary
    Unary      = ! Unary | - Unary | Postfix
    Postfix    = Postfix ( E, .. ) | Postfix [ E ] | Atom
    Atom       = IDENT | INT | STRING | true | false | ( E ) | [ E, .. ] | { E : E, .. }
               | if ( E ) Block [else Block] | fn ( IDENT, .. ) Block
    Block      = { Statement* }   where the end of the text may stand for the closing brace
-/

namespace Monkey.Grammar

/-! ### The ladder of operators -/

/-- The binary operators, the loosest tier first. -/
def ladder : List (List TokenKind) :=
  [[.eq, .notEq], [.lt, .gt], [.plus, .minus], [.asterisk, .slash]]

/-- The binary operators of a tier; the tiers above the ladder have none. -/
def operatorsOf (tier : Nat) : List TokenKind :=
  ladder.getD tier []

/-- The tier of prefix operators, above all binary ones. -/
def unaryTier : Nat := 4

/-- The tier of calls and indices, above prefix operators. -/
def postfixTier : Nat := 5

/-! ### Tiers and powers -/

/-- The greatest power at which the rule for an expression still reads all of an expression of the
    tier. -/
def outerRank (tier : Nat) : Nat :=
  if tier < unaryTier then tier + 1 else 6

/-- The greatest power of a token that leaves an expression of the tier in front of it whole. -/
def innerRank (tier : Nat) : Nat :=
  if tier ≤ unaryTier then tier + 2 else 8

theorem outerRank_climb (tier : Nat) : outerRank tier ≤ outerRank (tier + 1) := by
  have hunary : unaryTier = 4 := rfl
  simp only [outerRank]
  split <;> split <;> omega

theorem innerRank_climb (tier : Nat) : innerRank tier ≤ innerRank (tier + 1) := by
  have hunary : unaryTier = 4 := rfl
  simp only [innerRank]
  split <;> split <;> omega

theorem rank_le (power : Precedence) : power.rank ≤ 8 := by
  cases power <;> decide

/-! ### Integer literals -/

def IsNumeral (text : String) : Prop :=
  text.toList ≠ [] ∧ ∀ c ∈ text.toList, '0' ≤ c ∧ c ≤ '9'

/-- The number that a row of ASCII digits denotes. -/
def decimalValue (text : String) : Nat :=
  text.toList.foldl (fun n c => 10 * n + (c.toNat - '0'.toNat)) 0

def digitLimit : Nat := 4300

def valueLimit : Nat := 9223372036854775807

/-! ### Phrases and their derivations -/

/-- What a stretch of tokens is read as, with the tree it stands for. An expression of a tier has no
    binary operator below that tier outside of brackets. -/
inductive Phrase where
  | expression (tier : Nat) (node : Node)
  | atom (node : Node)
  | items (nodes : List Node)
  | list (last : TokenKind) (nodes : List Node)
  | names (names : List Identifier)
  | parameters (names : List Identifier)
  | pairs (pairs : List (Node × Node))
  | statement (node : Node)
  | statements (nodes : List Node)
  | block (node : Node)

/-- A statement ends with a semicolon, which belongs to it, or else in front of a token that is none
    and does not bind. -/
def EndsStatement (tokens rest : List Token) : Prop :=
  (∃ token, token.kind = .semicolon ∧ tokens = token :: rest) ∨
  (rest = tokens ∧
    ∀ token ∈ tokens.head?, token.kind ≠ .semicolon ∧ token.kind.precedence = .lowest)

/-- The tokens in front of `rest` are derived as a phrase. -/
inductive Derives : Phrase → List Token → List Token → Prop where
  -- expressions
  | climb {tier node tokens rest} (htier : tier < postfixTier)
      (h : Derives (.expression (tier + 1) node) tokens rest) :
      Derives (.expression tier node) tokens rest
  | binary {tier left operator right tokens middle rest} (hoperator : operator.kind ∈ operatorsOf tier)
      (hleft : Derives (.expression tier left) tokens (operator :: middle))
      (hright : Derives (.expression (tier + 1) right) middle rest) :
      Derives (.expression tier (.binary operator left operator.literal right)) tokens rest
  | prefixed {operator right tokens rest} (hoperator : operator.kind = .bang ∨ operator.kind = .minus)
      (hright : Derives (.expression unaryTier right) tokens rest) :
      Derives (.expression unaryTier (.prefixed operator operator.literal right))
        (operator :: tokens) rest
  | call {bracket callee arguments tokens middle rest} (hbracket : bracket.kind = .lparen)
      (hcallee : Derives (.expression postfixTier callee) tokens (bracket :: middle))
      (harguments : Derives (.list .rparen arguments) middle rest) :
      Derives (.expression postfixTier (.call bracket callee arguments)) tokens rest
  | index {bracket left subscript close tokens middle rest} (hbracket : bracket.kind = .lbracket)
      (hleft : Derives (.expression postfixTier left) tokens (bracket :: middle))
      (hsubscript : Derives (.expression 0 subscript) middle (close :: rest))
      (hclose : close.kind = .rbracket) :
      Derives (.expression postfixTier (.index bracket left subscript)) tokens rest
  | ofAtom {node tokens rest} (h : Derives (.atom node) tokens rest) :
      Derives (.expression postfixTier node) tokens rest
  -- atoms
  | identifier {token rest} (htoken : token.kind = .ident) :
      Derives (.atom (.identifier (.ofToken token))) (token :: rest) rest
  | integer {token rest} (htoken : token.kind = .int) (hnumeral : IsNumeral token.literal)
      (hdigits : token.literal.length ≤ digitLimit) (hvalue : decimalValue token.literal ≤ valueLimit) :
      Derives (.atom (.integer token (decimalValue token.literal))) (token :: rest) rest
  | string {token rest} (htoken : token.kind = .string) :
      Derives (.atom (.string token token.literal)) (token :: rest) rest
  | boolean {token value rest} (htoken : token.kind = if value then .trueKw else .falseKw) :
      Derives (.atom (.boolean token value)) (token :: rest) rest
  | group {bracket node close tokens rest} (hbracket : bracket.kind = .lparen)
      (h : Derives (.expression 0 node) tokens (close :: rest)) (hclose : close.kind = .rparen) :
      Derives (.atom node) (bracket :: tokens) rest
  | array {bracket elements tokens rest} (hbracket : bracket.kind = .lbracket)
      (h : Derives (.list .rbracket elements) tokens rest) :
      Derives (.atom (.array bracket elements)) (bracket :: tokens) rest
  | emptyHash {brace close rest} (hbrace : brace.kind = .lbrace) (hclose : close.kind = .rbrace) :
      Derives (.atom (.hash brace [])) (brace :: close :: rest) rest
  | hash {brace pairs close tokens rest} (hbrace : brace.kind = .lbrace)
      (h : Derives (.pairs pairs) tokens (close :: rest)) (hclose : close.kind = .rbrace) :
      Derives (.atom (.hash brace pairs)) (brace :: tokens) rest
  | conditional {keyword bracket condition close consequence tokens middle rest}
      (hkeyword : keyword.kind = .ifKw) (hbracket : bracket.kind = .lparen)
      (hcondition : Derives (.expression 0 condition) tokens (close :: middle))
      (hclose : close.kind = .rparen) (hconsequence : Derives (.block consequence) middle rest) :
      Derives (.atom (.conditional keyword condition consequence .missing))
        (keyword :: bracket :: tokens) rest
  | conditionalElse
      {keyword bracket condition close consequence other alternative tokens middle behind rest}
      (hkeyword : keyword.kind = .ifKw) (hbracket : bracket.kind = .lparen)
      (hcondition : Derives (.expression 0 condition) tokens (close :: middle))
      (hclose : close.kind = .rparen)
      (hconsequence : Derives (.block consequence) middle (other :: behind))
      (hother : other.kind = .elseKw) (halternative : Derives (.block alternative) behind rest) :
      Derives (.atom (.conditional keyword condition consequence alternative))
        (keyword :: bracket :: tokens) rest
  | function {keyword bracket names body tokens middle rest} (hkeyword : keyword.kind = .functionKw)
      (hbracket : bracket.kind = .lparen) (hnames : Derives (.parameters names) tokens middle)
      (hbody : Derives (.block body) middle rest) :
      Derives (.atom (.function keyword names body)) (keyword :: bracket :: tokens) rest
  -- lists with commas, up to a closing bracket
  | emptyList {last close rest} (hclose : close.kind = last) :
      Derives (.list last []) (close :: rest) rest
  | ofItems {last nodes close tokens rest} (h : Derives (.items nodes) tokens (close :: rest))
      (hclose : close.kind = last) : Derives (.list last nodes) tokens rest
  | lastItem {node tokens rest} (h : Derives (.expression 0 node) tokens rest) :
      Derives (.items [node]) tokens rest
  | item {node comma nodes tokens middle rest}
      (hnode : Derives (.expression 0 node) tokens (comma :: middle)) (hcomma : comma.kind = .comma)
      (hnodes : Derives (.items nodes) middle rest) : Derives (.items (node :: nodes)) tokens rest
  | noParameters {close rest} (hclose : close.kind = .rparen) :
      Derives (.parameters []) (close :: rest) rest
  | ofNames {names close tokens rest} (h : Derives (.names names) tokens (close :: rest))
      (hclose : close.kind = .rparen) : Derives (.parameters names) tokens rest
  | lastName {token rest} (htoken : token.kind = .ident) :
      Derives (.names [.ofToken token]) (token :: rest) rest
  | name {token comma names tokens rest} (htoken : token.kind = .ident) (hcomma : comma.kind = .comma)
      (h : Derives (.names names) tokens rest) :
      Derives (.names (.ofToken token :: names)) (token :: comma :: tokens) rest
  | lastPair {key colon value tokens middle rest}
      (hkey : Derives (.expression 0 key) tokens (colon :: middle)) (hcolon : colon.kind = .colon)
      (hvalue : Derives (.expression 0 value) middle rest) :
      Derives (.pairs [(key, value)]) tokens rest
  | pair {key colon value comma pairs tokens middle behind rest}
      (hkey : Derives (.expression 0 key) tokens (colon :: middle)) (hcolon : colon.kind = .colon)
      (hvalue : Derives (.expression 0 value) middle (comma :: behind)) (hcomma : comma.kind = .comma)
      (hpairs : Derives (.pairs pairs) behind rest) :
      Derives (.pairs ((key, value) :: pairs)) tokens rest
  -- statements
  | letStatement {keyword target sign value tokens middle rest} (hkeyword : keyword.kind = .letKw)
      (htarget : target.kind = .ident) (hsign : sign.kind = .assign)
      (hvalue : Derives (.expression 0 value) tokens middle) (hend : EndsStatement middle rest) :
      Derives (.statement (.letStatement keyword (.ofToken target) value))
        (keyword :: target :: sign :: tokens) rest
  | returnStatement {keyword value tokens middle rest} (hkeyword : keyword.kind = .returnKw)
      (hvalue : Derives (.expression 0 value) tokens middle) (hend : EndsStatement middle rest) :
      Derives (.statement (.returnStatement keyword value)) (keyword :: tokens) rest
  | expressionStatement {first expression tokens middle rest}
      (h : Derives (.expression 0 expression) (first :: tokens) middle)
      (hend : EndsStatement middle rest) :
      Derives (.statement (.expressionStatement first expression)) (first :: tokens) rest
  | noStatements {rest} : Derives (.statements []) rest rest
  | statements {node nodes tokens middle rest} (hnode : Derives (.statement node) tokens middle)
      (hnodes : Derives (.statements nodes) middle rest) :
      Derives (.statements (node :: nodes)) tokens rest
  | block {brace body close tokens rest} (hbrace : brace.kind = .lbrace)
      (h : Derives (.statements body) tokens (close :: rest)) (hclose : close.kind = .rbrace) :
      Derives (.block (.block brace body)) (brace :: tokens) rest
  | openBlock {brace body tokens} (hbrace : brace.kind = .lbrace)
      (h : Derives (.statements body) tokens []) :
      Derives (.block (.block brace body)) (brace :: tokens) []

/-- A program: statements up to the end of the text. -/
def Program (tokens : List Token) (statements : List Node) : Prop :=
  Derives (.statements statements) tokens []

/-- An expression of a tier is one of every looser tier. -/
theorem Derives.descend {tier lower : Nat} {node : Node} {tokens rest : List Token}
    (hlower : lower ≤ tier) (htier : tier ≤ postfixTier)
    (h : Derives (.expression tier node) tokens rest) :
    Derives (.expression lower node) tokens rest := by
  induction tier with
  | zero => exact Nat.le_zero.mp hlower ▸ h
  | succ tier ih =>
    rcases Nat.lt_or_eq_of_le hlower with hlt | rfl
    · exact ih (Nat.le_of_lt_succ hlt) (Nat.le_of_succ_le htier) (.climb htier h)
    · exact h

/-! ### What is left behind -/

theorem EndsStatement.suffix {tokens rest : List Token} (h : EndsStatement tokens rest) :
    rest <:+ tokens := by
  rcases h with ⟨token, -, rfl⟩ | ⟨rfl, -⟩
  · exact List.suffix_cons token rest
  · exact List.suffix_rfl

/-- What is left behind a phrase is a part of the tokens that it was derived from. -/
theorem Derives.suffix {phrase : Phrase} {tokens rest : List Token} (h : Derives phrase tokens rest) :
    rest <:+ tokens := by
  have hcons {token : Token} {tokens rest : List Token} (h : rest <:+ tokens) : rest <:+ token :: tokens :=
    h.trans (List.suffix_cons token tokens)
  have htail {token : Token} {tokens rest : List Token} (h : token :: rest <:+ tokens) : rest <:+ tokens :=
    (List.suffix_cons token rest).trans h
  induction h with
  | climb _ _ ih | ofAtom _ ih | lastItem _ ih => exact ih
  | binary _ _ _ ihleft ihright => exact ihright.trans (htail ihleft)
  | prefixed _ _ ih | array _ _ ih => exact hcons ih
  | call _ _ _ ihcallee iharguments => exact iharguments.trans (htail ihcallee)
  | index _ _ _ _ ihleft ihsubscript => exact (htail ihsubscript).trans (htail ihleft)
  | identifier | integer | string | boolean | emptyList | noParameters | lastName =>
    exact List.suffix_cons _ _
  | group _ _ _ ih | hash _ _ _ ih => exact hcons (htail ih)
  | emptyHash => exact hcons (List.suffix_cons _ _)
  | conditional _ _ _ _ _ ihcondition ihblock =>
    exact hcons (hcons (ihblock.trans (htail ihcondition)))
  | conditionalElse _ _ _ _ _ _ _ ihcondition ihblock ihblock' =>
    exact hcons (hcons ((ihblock'.trans (htail ihblock)).trans (htail ihcondition)))
  | function _ _ _ _ ihnames ihblock => exact hcons (hcons (ihblock.trans ihnames))
  | ofItems _ _ ih | ofNames _ _ ih => exact htail ih
  | item _ _ _ ihnode ihnodes => exact ihnodes.trans (htail ihnode)
  | name _ _ _ ih => exact hcons (hcons ih)
  | lastPair _ _ _ ihkey ihvalue => exact ihvalue.trans (htail ihkey)
  | pair _ _ _ _ _ ihkey ihvalue ihpairs => exact (ihpairs.trans (htail ihvalue)).trans (htail ihkey)
  | letStatement _ _ _ _ hend ih => exact hcons (hcons (hcons (hend.suffix.trans ih)))
  | returnStatement _ _ hend ih => exact hcons (hend.suffix.trans ih)
  | expressionStatement _ hend ih => exact hend.suffix.trans ih
  | noStatements => exact List.suffix_rfl
  | statements _ _ ihnode ihnodes => exact ihnodes.trans ihnode
  | block _ _ _ ih => exact hcons (htail ih)
  | openBlock => exact List.nil_suffix

/-! ### First tokens -/

def expressionStarts : List TokenKind :=
  [.ident, .int, .string, .trueKw, .falseKw, .bang, .minus, .lparen, .ifKw, .functionKw, .lbracket,
   .lbrace]

def statementStarts : List TokenKind :=
  .letKw :: .returnKw :: expressionStarts

def StartsWith (kinds : List TokenKind) (tokens : List Token) : Prop :=
  ∃ token behind, tokens = token :: behind ∧ token.kind ∈ kinds

/-- How the tokens of a phrase start, for the phrases that start like an expression or a statement. -/
def Phrase.Starts : Phrase → List Token → Prop
  | .expression _ _, tokens | .atom _, tokens | .items _, tokens | .pairs _, tokens =>
    StartsWith expressionStarts tokens
  | .statement _, tokens => StartsWith statementStarts tokens
  | _, _ => True

theorem startsWith_cons {kinds : List TokenKind} {token : Token} {behind : List Token}
    (h : token.kind ∈ kinds) : StartsWith kinds (token :: behind) :=
  ⟨token, behind, rfl, h⟩

theorem Derives.starts {phrase : Phrase} {tokens rest : List Token}
    (h : Derives phrase tokens rest) : phrase.Starts tokens := by
  induction h with
  | climb _ _ ih | binary _ _ _ ih | call _ _ _ ih | index _ _ _ _ ih | ofAtom _ ih => exact ih
  | lastItem _ ih | item _ _ _ ih | lastPair _ _ _ ih | pair _ _ _ _ _ ih => exact ih
  | prefixed hoperator =>
    apply startsWith_cons
    rcases hoperator with hkind | hkind <;> simp [hkind, expressionStarts]
  | identifier hkind | integer hkind | string hkind | group hkind | array hkind | emptyHash hkind
  | hash hkind | conditional hkind | conditionalElse hkind | function hkind =>
    exact startsWith_cons (by simp [hkind, expressionStarts])
  | @boolean _ value _ hkind =>
    apply startsWith_cons
    cases value <;> simp [hkind, expressionStarts]
  | letStatement hkind | returnStatement hkind =>
    exact startsWith_cons (by simp [hkind, statementStarts])
  | expressionStatement _ _ ih =>
    rcases ih with ⟨token, behind, heq, hkind⟩
    exact ⟨token, behind, heq, List.mem_cons_of_mem _ (List.mem_cons_of_mem _ hkind)⟩
  | emptyList | ofItems | noParameters | ofNames | lastName | name | noStatements | statements | block
  | openBlock => trivial

end Monkey.Grammar
