import Monkey.Proofs.Grammar
import Monkey.Proofs.Grammar.Numeral
import Monkey.Proofs.Parser.Unfolding

/-!
# Rules that read

What the parser does in front of given tokens. `Reads rule p tokens a rest` says that the rule succeeds
at the first of the tokens, gives `a`, adds no error and stops at the token in front of `rest`. There is
one lemma for each production of the grammar: the rule for the construct reads it if the rules for its
parts read them.
-/

namespace Monkey

open Grammar

/-! ### Places given by the tokens that are left -/

namespace Parser

def on (p : Parser) (tokens : List Token) : Parser :=
  { p with tokens }

@[simp] theorem on_tokens (p : Parser) (tokens : List Token) : (p.on tokens).tokens = tokens := rfl

@[simp] theorem on_cons_advance (p : Parser) (token : Token) (rest : List Token) :
    (p.on (token :: rest)).advance = p.on rest := rfl

@[simp] theorem on_cons_current (p : Parser) (token : Token) (rest : List Token) :
    (p.on (token :: rest)).current = token := rfl

end Parser

/-- The kind of the first of some tokens, or of the end of the text. -/
def nextKind : List Token → TokenKind
  | [] => .eof
  | token :: _ => token.kind

theorem Parser.current_kind (p : Parser) : p.current.kind = nextKind p.tokens := by
  rcases p with ⟨_ | ⟨token, rest⟩, _, _, _⟩ <;> rfl

theorem Parser.peek_kind_of_advance {p q : Parser} {rest : List Token} (hq : q.advance = p.on rest) :
    q.peek.kind = nextKind rest := by
  rw [Parser.peek_eq, hq, Parser.current_kind, Parser.on_tokens]

namespace Rule

variable {α β : Type}

/-- A rule that starts at the first of `tokens` succeeds and stops at the token in front of `rest`,
    with no new errors. -/
def Reads (rule : Rule α) (p : Parser) (tokens : List Token) (a : α) (rest : List Token) : Prop :=
  ∃ q, rule (p.on tokens) = .ok a q ∧ q.advance = p.on rest

/-- The same for a rule that starts at the token in front of `tokens`. -/
def ReadsBehind (rule : Rule α) (p : Parser) (tokens : List Token) (a : α) (rest : List Token) :
    Prop :=
  ∀ q₀ : Parser, q₀.advance = p.on tokens → ∃ q, rule q₀ = .ok a q ∧ q.advance = p.on rest

theorem bind_ok {x : Rule α} {f : α → Rule β} {p q : Parser} {a : α} (h : x p = .ok a q) :
    (x >>= f) p = f a q := by
  rw [bind_run, h]

theorem expect_hit {p q : Parser} {token : Token} {rest : List Token} {kind : TokenKind}
    (hq : q.advance = p.on (token :: rest)) (hkind : token.kind = kind) :
    expect kind q = .ok () (p.on (token :: rest)) := by
  have hpeek : q.peek.kind = kind := (Parser.peek_kind_of_advance hq).trans hkind
  rw [expect_run, if_pos hpeek, hq]

theorem accept_hit {p q : Parser} {token : Token} {rest : List Token} {kind : TokenKind}
    (hq : q.advance = p.on (token :: rest)) (hkind : token.kind = kind) :
    accept kind q = .ok true (p.on (token :: rest)) := by
  have hpeek : q.peek.kind = kind := (Parser.peek_kind_of_advance hq).trans hkind
  rw [accept_run, if_pos hpeek, hq]

theorem accept_miss {p q : Parser} {rest : List Token} {kind : TokenKind}
    (hq : q.advance = p.on rest) (hkind : nextKind rest ≠ kind) : accept kind q = .ok false q := by
  rw [accept_run, Parser.peek_kind_of_advance hq, if_neg hkind]

/-! ### Going on with an expression -/

/-- The loop stops in front of a token that binds no tighter than the power. -/
theorem extended_stop {power : Precedence} {left : Node} {p q : Parser} {rest : List Token}
    (hq : q.advance = p.on rest) (hnext : (nextKind rest).precedence.rank ≤ power.rank) :
    extended power left q = .ok left q := by
  rw [extended_eq, bind_ok (peekKind_run q), Parser.peek_kind_of_advance hq, if_neg]
  · rfl
  · exact fun h => Nat.not_lt.mpr hnext h.2

/-- The loop folds in a token that binds tighter than the power. -/
theorem extended_step {power : Precedence} {left : Node} {p q : Parser} {operator : Token}
    {rest : List Token} {rule : Node → Rule Node} (hq : q.advance = p.on (operator :: rest))
    (hrule : infixRule? expression operator.kind = some rule)
    (hpower : power.rank < operator.kind.precedence.rank) :
    extended power left q = (rule left >>= extended power) (p.on (operator :: rest)) := by
  have hsemicolon : operator.kind ≠ .semicolon := by
    intro h
    simp [h, infixRule?] at hrule
  rw [extended_eq, bind_ok (peekKind_run q), Parser.peek_kind_of_advance hq]
  rw [show nextKind (operator :: rest) = operator.kind from rfl, if_pos ⟨hsemicolon, hpower⟩, hrule]
  simp only [bind_run, advance_run, hq]

/-! ### Constructs that start an expression -/

section Constructs

variable {p : Parser} {tokens rest : List Token}

theorem reads_prefixExpression {operator : Token} {right : Node}
    (h : Reads (expression .prefixed) p tokens right rest) :
    Reads (prefixExpression expression) p (operator :: tokens)
      (.prefixed operator operator.literal right) rest := by
  rcases h with ⟨q, hrun, hq⟩
  refine ⟨q, ?_, hq⟩
  rw [prefixExpression, bind_ok (current_run _), bind_ok (advance_run _)]
  rw [Parser.on_cons_advance, bind_ok hrun]
  rfl

theorem reads_groupedExpression {bracket close : Token} {node : Node}
    (h : Reads (expression .lowest) p tokens node (close :: rest)) (hclose : close.kind = .rparen) :
    Reads (groupedExpression expression) p (bracket :: tokens) node rest := by
  rcases h with ⟨q, hrun, hq⟩
  refine ⟨p.on (close :: rest), ?_, rfl⟩
  rw [groupedExpression, bind_ok (advance_run _), Parser.on_cons_advance, bind_ok hrun]
  rw [bind_ok (expect_hit hq hclose)]
  rfl

theorem reads_arrayLiteral {bracket : Token} {elements : List Node}
    (h : ReadsBehind (expressionList expression .rbracket) p tokens elements rest) :
    Reads (arrayLiteral expression) p (bracket :: tokens) (.array bracket elements) rest := by
  obtain ⟨q, hrun, hq⟩ := h (p.on (bracket :: tokens)) rfl
  refine ⟨q, ?_, hq⟩
  rw [arrayLiteral, bind_ok (current_run _), bind_ok hrun]
  rfl

theorem reads_emptyHash {brace close : Token} (hclose : close.kind = .rbrace) :
    Reads (hashLiteral expression) p (brace :: close :: rest) (.hash brace []) rest := by
  refine ⟨p.on (close :: rest), ?_, rfl⟩
  rw [hashLiteral_eq, bind_ok (current_run _)]
  rw [bind_ok (accept_hit (Parser.on_cons_advance p brace (close :: rest)) hclose)]
  rfl

theorem reads_hashLiteral {brace : Token} {entries : List (Node × Node)}
    (h : ReadsBehind pairs p tokens entries rest) (hstart : nextKind tokens ≠ .rbrace) :
    Reads (hashLiteral expression) p (brace :: tokens) (.hash brace entries) rest := by
  obtain ⟨q, hrun, hq⟩ := h (p.on (brace :: tokens)) rfl
  refine ⟨q, ?_, hq⟩
  rw [hashLiteral_eq, bind_ok (current_run _)]
  rw [bind_ok (accept_miss (Parser.on_cons_advance p brace tokens) hstart)]
  rw [if_neg Bool.false_ne_true, bind_ok hrun]
  rfl

theorem conditional_run {keyword bracket close brace : Token} {condition : Node}
    (hbracket : bracket.kind = .lparen)
    (hcondition : Reads (expression .lowest) p tokens condition (close :: brace :: rest))
    (hclose : close.kind = .rparen) (hbrace : brace.kind = .lbrace) :
    conditional expression (p.on (keyword :: bracket :: tokens)) = (do
      let consequence ← block expression
      let otherwise ← alternative expression
      return .conditional keyword condition consequence otherwise : Rule Node)
        (p.on (brace :: rest)) := by
  rcases hcondition with ⟨q, hrun, hq⟩
  have hopen := expect_hit (Parser.on_cons_advance p keyword (bracket :: tokens)) hbracket
  have hbehind : (p.on (close :: brace :: rest)).advance = p.on (brace :: rest) := rfl
  rw [conditional, bind_ok (current_run _), bind_ok hopen, bind_ok (advance_run _)]
  rw [Parser.on_cons_advance, bind_ok hrun, bind_ok (expect_hit hq hclose)]
  rw [bind_ok (expect_hit hbehind hbrace)]
  rfl

theorem reads_conditional {keyword bracket close brace : Token} {condition consequence : Node}
    {middle : List Token} (hbracket : bracket.kind = .lparen)
    (hcondition : Reads (expression .lowest) p tokens condition (close :: brace :: middle))
    (hclose : close.kind = .rparen) (hbrace : brace.kind = .lbrace)
    (hconsequence : Reads (block expression) p (brace :: middle) consequence rest)
    (helse : nextKind rest ≠ .elseKw) :
    Reads (conditional expression) p (keyword :: bracket :: tokens)
      (.conditional keyword condition consequence .missing) rest := by
  rcases hconsequence with ⟨q, hrun, hq⟩
  refine ⟨q, ?_, hq⟩
  rw [conditional_run hbracket hcondition hclose hbrace, bind_ok hrun]
  have halternative : alternative expression q = .ok .missing q := by
    rw [alternative, bind_ok (accept_miss hq helse)]
    rfl
  rw [bind_ok halternative]
  rfl

theorem reads_conditionalElse {keyword bracket close brace other brace' : Token}
    {condition consequence otherwise : Node} {middle behind : List Token}
    (hbracket : bracket.kind = .lparen)
    (hcondition : Reads (expression .lowest) p tokens condition (close :: brace :: middle))
    (hclose : close.kind = .rparen) (hbrace : brace.kind = .lbrace)
    (hconsequence : Reads (block expression) p (brace :: middle) consequence
      (other :: brace' :: behind))
    (hother : other.kind = .elseKw) (hbrace' : brace'.kind = .lbrace)
    (halternative : Reads (block expression) p (brace' :: behind) otherwise rest) :
    Reads (conditional expression) p (keyword :: bracket :: tokens)
      (.conditional keyword condition consequence otherwise) rest := by
  rcases hconsequence with ⟨q, hrun, hq⟩
  rcases halternative with ⟨q', hrun', hq'⟩
  refine ⟨q', ?_, hq'⟩
  rw [conditional_run hbracket hcondition hclose hbrace, bind_ok hrun]
  have hbehind : (p.on (other :: brace' :: behind)).advance = p.on (brace' :: behind) := rfl
  have hother : alternative expression q = .ok otherwise q' := by
    rw [alternative, bind_ok (accept_hit hq hother), if_pos rfl]
    rw [bind_ok (expect_hit hbehind hbrace'), hrun']
  rw [bind_ok hother]
  rfl

theorem reads_functionLiteral {keyword bracket brace : Token} {names : List Identifier}
    {body : Node} {middle : List Token} (hbracket : bracket.kind = .lparen)
    (hnames : ReadsBehind parameters p tokens names (brace :: middle))
    (hbrace : brace.kind = .lbrace)
    (hbody : Reads (block expression) p (brace :: middle) body rest) :
    Reads (functionLiteral expression) p (keyword :: bracket :: tokens)
      (.function keyword names body) rest := by
  obtain ⟨q, hrun, hq⟩ := hnames (p.on (bracket :: tokens)) rfl
  rcases hbody with ⟨q', hrun', hq'⟩
  refine ⟨q', ?_, hq'⟩
  have hopen := expect_hit (Parser.on_cons_advance p keyword (bracket :: tokens)) hbracket
  rw [functionLiteral, bind_ok (current_run _), bind_ok hopen, bind_ok hrun]
  rw [bind_ok (expect_hit hq hbrace), bind_ok hrun']
  rfl

/-! ### Constructs that continue an expression -/

theorem reads_binaryExpression {operator : Token} {left right : Node}
    (h : Reads (expression operator.kind.precedence) p tokens right rest) :
    Reads (binaryExpression expression left) p (operator :: tokens)
      (.binary operator left operator.literal right) rest := by
  rcases h with ⟨q, hrun, hq⟩
  refine ⟨q, ?_, hq⟩
  rw [binaryExpression, bind_ok (current_run _), bind_ok (advance_run _)]
  rw [Parser.on_cons_advance, Parser.on_cons_current, bind_ok hrun]
  rfl

theorem reads_callExpression {bracket : Token} {callee : Node} {arguments : List Node}
    (h : ReadsBehind (expressionList expression .rparen) p tokens arguments rest) :
    Reads (callExpression expression callee) p (bracket :: tokens)
      (.call bracket callee arguments) rest := by
  obtain ⟨q, hrun, hq⟩ := h (p.on (bracket :: tokens)) rfl
  refine ⟨q, ?_, hq⟩
  rw [callExpression, bind_ok (current_run _), bind_ok hrun]
  rfl

theorem reads_indexExpression {bracket close : Token} {left subscript : Node}
    (h : Reads (expression .lowest) p tokens subscript (close :: rest))
    (hclose : close.kind = .rbracket) :
    Reads (indexExpression expression left) p (bracket :: tokens)
      (.index bracket left subscript) rest := by
  rcases h with ⟨q, hrun, hq⟩
  refine ⟨p.on (close :: rest), ?_, rfl⟩
  rw [indexExpression, bind_ok (current_run _), bind_ok (advance_run _)]
  rw [Parser.on_cons_advance, bind_ok hrun, bind_ok (expect_hit hq hclose)]
  rfl

/-! ### Lists -/

theorem reads_lastItem {node : Node} (h : Reads (expression .lowest) p tokens node rest)
    (hcomma : nextKind rest ≠ .comma) : Reads items p tokens [node] rest := by
  rcases h with ⟨q, hrun, hq⟩
  refine ⟨q, ?_, hq⟩
  rw [items_eq, bind_ok hrun, bind_ok (accept_miss hq hcomma)]
  rfl

theorem reads_item {node : Node} {comma : Token} {nodes : List Node} {middle : List Token}
    (h : Reads (expression .lowest) p tokens node (comma :: middle)) (hcomma : comma.kind = .comma)
    (hnodes : Reads items p middle nodes rest) : Reads items p tokens (node :: nodes) rest := by
  rcases h with ⟨q, hrun, hq⟩
  rcases hnodes with ⟨q', hrun', hq'⟩
  refine ⟨q', ?_, hq'⟩
  rw [items_eq, bind_ok hrun, bind_ok (accept_hit hq hcomma), if_pos rfl, bind_ok (advance_run _)]
  rw [Parser.on_cons_advance, bind_ok hrun']
  rfl

theorem reads_emptyList {last : TokenKind} {close : Token} (hclose : close.kind = last) :
    ReadsBehind (expressionList expression last) p (close :: rest) [] rest := by
  intro q₀ hq₀
  refine ⟨p.on (close :: rest), ?_, rfl⟩
  rw [expressionList_eq, bind_ok (accept_hit hq₀ hclose)]
  rfl

theorem reads_list {last : TokenKind} {close : Token} {nodes : List Node}
    (h : Reads items p tokens nodes (close :: rest)) (hclose : close.kind = last)
    (hstart : nextKind tokens ≠ last) :
    ReadsBehind (expressionList expression last) p tokens nodes rest := by
  intro q₀ hq₀
  rcases h with ⟨q, hrun, hq⟩
  refine ⟨p.on (close :: rest), ?_, rfl⟩
  rw [expressionList_eq, bind_ok (accept_miss hq₀ hstart), if_neg Bool.false_ne_true]
  rw [bind_ok (advance_run _), hq₀, bind_ok hrun, bind_ok (expect_hit hq hclose)]
  rfl

theorem reads_lastName {token : Token} (htoken : token.kind = .ident)
    (hcomma : nextKind rest ≠ .comma) :
    ReadsBehind names p (token :: rest) [.ofToken token] rest := by
  intro q₀ hq₀
  refine ⟨p.on (token :: rest), ?_, rfl⟩
  have hbehind := Parser.on_cons_advance p token rest
  rw [names_eq, bind_ok (expect_hit hq₀ htoken), bind_ok (current_run _)]
  rw [bind_ok (accept_miss hbehind hcomma)]
  rfl

theorem reads_name {token comma : Token} {list : List Identifier} (htoken : token.kind = .ident)
    (hcomma : comma.kind = .comma) (h : ReadsBehind names p tokens list rest) :
    ReadsBehind names p (token :: comma :: tokens) (.ofToken token :: list) rest := by
  intro q₀ hq₀
  obtain ⟨q, hrun, hq⟩ := h (p.on (comma :: tokens)) rfl
  refine ⟨q, ?_, hq⟩
  have hbehind := Parser.on_cons_advance p token (comma :: tokens)
  rw [names_eq, bind_ok (expect_hit hq₀ htoken), bind_ok (current_run _)]
  rw [bind_ok (accept_hit hbehind hcomma), if_pos rfl, bind_ok hrun]
  rfl

theorem reads_noParameters {close : Token} (hclose : close.kind = .rparen) :
    ReadsBehind parameters p (close :: rest) [] rest := by
  intro q₀ hq₀
  refine ⟨p.on (close :: rest), ?_, rfl⟩
  rw [parameters_eq, bind_ok (accept_hit hq₀ hclose)]
  rfl

theorem reads_parameters {close : Token} {list : List Identifier}
    (h : ReadsBehind names p tokens list (close :: rest)) (hclose : close.kind = .rparen)
    (hstart : nextKind tokens ≠ .rparen) : ReadsBehind parameters p tokens list rest := by
  intro q₀ hq₀
  obtain ⟨q, hrun, hq⟩ := h q₀ hq₀
  refine ⟨p.on (close :: rest), ?_, rfl⟩
  rw [parameters_eq, bind_ok (accept_miss hq₀ hstart), if_neg Bool.false_ne_true, bind_ok hrun]
  rw [bind_ok (expect_hit hq hclose)]
  rfl

theorem reads_hashPair {key value : Node} {colon : Token} {middle : List Token}
    (hkey : Reads (expression .lowest) p tokens key (colon :: middle)) (hcolon : colon.kind = .colon)
    (hvalue : Reads (expression .lowest) p middle value rest) :
    ReadsBehind (hashPair expression) p tokens (key, value) rest := by
  intro q₀ hq₀
  rcases hkey with ⟨q, hrun, hq⟩
  rcases hvalue with ⟨q', hrun', hq'⟩
  refine ⟨q', ?_, hq'⟩
  rw [hashPair, bind_ok (advance_run _), hq₀, bind_ok hrun, bind_ok (expect_hit hq hcolon)]
  rw [bind_ok (advance_run _), Parser.on_cons_advance, bind_ok hrun']
  rfl

theorem reads_lastPair {pair : Node × Node} {close : Token}
    (h : ReadsBehind (hashPair expression) p tokens pair (close :: rest))
    (hclose : close.kind = .rbrace) : ReadsBehind pairs p tokens [pair] rest := by
  intro q₀ hq₀
  obtain ⟨q, hrun, hq⟩ := h q₀ hq₀
  refine ⟨p.on (close :: rest), ?_, rfl⟩
  rw [pairs_eq, bind_ok hrun, bind_ok (accept_hit hq hclose)]
  rfl

theorem reads_pair {pair : Node × Node} {comma : Token} {list : List (Node × Node)}
    {middle : List Token} (h : ReadsBehind (hashPair expression) p tokens pair (comma :: middle))
    (hcomma : comma.kind = .comma) (hlist : ReadsBehind pairs p middle list rest) :
    ReadsBehind pairs p tokens (pair :: list) rest := by
  intro q₀ hq₀
  obtain ⟨q, hrun, hq⟩ := h q₀ hq₀
  obtain ⟨q', hrun', hq'⟩ := hlist (p.on (comma :: middle)) rfl
  refine ⟨q', ?_, hq'⟩
  have hbrace : nextKind (comma :: middle) ≠ .rbrace := by simp [nextKind, hcomma]
  rw [pairs_eq, bind_ok hrun, bind_ok (accept_miss hq hbrace), if_neg Bool.false_ne_true]
  rw [bind_ok (expect_hit hq hcomma), bind_ok hrun']
  rfl

end Constructs

end Rule

end Monkey
