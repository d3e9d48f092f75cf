import Monkey.Proofs.Node.Relabeling
import Monkey.Proofs.Parser.Progress

/-!
# Parsing does not look at places

What a parse rule does depends on the kinds of the tokens, and for integers on their literals, but not
on where the tokens stand; and the errors recorded before are only kept. So a rule commutes with every
relocation of the tokens and with errors put in front (`Rule.Commutes`): it gives the same answer, with
the relocated tokens in it, and leaves the relocated parser behind.
-/

namespace Monkey

/-- The parser with its tokens relocated, and with other errors recorded before. -/
def Parser.moved (r : Relocation) (before : List ParseError) (p : Parser) : Parser where
  tokens := p.tokens.map r.move
  endLine := (r.move p.endToken).line
  endColumn := (r.move p.endToken).column
  errors := before ++ p.errors

theorem Parser.moved_id (before : List ParseError) (p : Parser) :
    p.moved .id before = { p with errors := before ++ p.errors } := by
  have hmap : p.tokens.map Relocation.id.move = p.tokens := List.map_id p.tokens
  simp only [moved, hmap]
  rfl

namespace Rule

variable {r : Relocation} {before : List ParseError} {α β γ δ : Type}

@[simp] theorem length_moved (p : Parser) :
    (p.moved r before).tokens.length = p.tokens.length :=
  List.length_map _

theorem endToken_moved (p : Parser) : (p.moved r before).endToken = r.move p.endToken := by
  have hkind := r.kind_move p.endToken
  have hliteral := r.literal_move p.endToken
  cases hmove : r.move p.endToken
  simp_all [Parser.endToken, Parser.moved]

theorem advance_moved (p : Parser) : (p.moved r before).advance = p.advance.moved r before := by
  simp only [Parser.advance, Parser.moved, List.map_tail]
  rfl

theorem current_moved (p : Parser) : (p.moved r before).current = r.move p.current := by
  rw [Parser.current, Parser.current, endToken_moved]
  cases htokens : p.tokens <;> simp [Parser.moved, htokens]

theorem peek_moved (p : Parser) : (p.moved r before).peek.kind = p.peek.kind := by
  rw [Parser.peek_eq, advance_moved, current_moved, r.kind_move, Parser.peek_eq]

/-! ### Rules that commute -/

/-- Behind a relocation, `rule'` does what `rule` does without it, and its result is the image under `h`
    of that of `rule`. -/
def Commutes (r : Relocation) (before : List ParseError) (h : α → β) (rule : Rule α)
    (rule' : Rule β) : Prop :=
  ∀ p : Parser, rule' (p.moved r before) = match rule p with
    | .ok a q => .ok (h a) (q.moved r before)
    | .error failure q => .error failure (q.moved r before)

theorem Commutes.bind {h : α → β} {h' : γ → δ} {x : Rule α} {x' : Rule β} {f : α → Rule γ}
    {f' : β → Rule δ} (hx : Commutes r before h x x') (hf : ∀ a, Commutes r before h' (f a) (f' (h a))) :
    Commutes r before h' (x >>= f) (x' >>= f') := by
  intro p
  rw [bind_run, bind_run, hx p]
  cases x p with
  | ok a q => exact hf a q
  | error failure q => rfl

theorem commutes_pure {h : α → β} {a : α} {b : β} (hab : b = h a) :
    Commutes r before h (pure a) (pure b) := by
  intro p
  rw [pure_run, pure_run, hab]

theorem commutes_throw {h : α → β} (failure : ParseError) :
    Commutes r before h (throw failure) (throw failure) :=
  fun _ => rfl

theorem commutes_current : Commutes r before r.move current current := by
  intro p
  rw [current_run, current_run, current_moved]

theorem commutes_peekKind : Commutes r before id peekKind peekKind := by
  intro p
  rw [peekKind_run, peekKind_run, peek_moved]
  rfl

theorem commutes_advance : Commutes r before id advance advance := by
  intro p
  rw [advance_run, advance_run, advance_moved]

theorem commutes_expect (wanted : TokenKind) : Commutes r before id (expect wanted) (expect wanted) := by
  intro p
  rw [expect_run, expect_run, peek_moved, advance_moved]
  split <;> rfl

theorem commutes_accept (kind : TokenKind) : Commutes r before id (accept kind) (accept kind) := by
  intro p
  rw [accept_run, accept_run, peek_moved, advance_moved]
  split <;> rfl

/-- A rule that goes on with what it sees of the parser. -/
theorem commutes_get {h : α → β} {f : Parser → Rule α} {f' : Parser → Rule β}
    (hf : ∀ p : Parser, Commutes r before h (f p) (f' (p.moved r before))) :
    Commutes r before h (get >>= f) (get >>= f') := by
  intro p
  rw [bind_run, bind_run, get_run, get_run]
  exact hf p p

theorem Commutes.ite {h : α → β} {condition : Prop} [Decidable condition] {yes no : Rule α}
    {yes' no' : Rule β} (hyes : Commutes r before h yes yes') (hno : Commutes r before h no no') :
    Commutes r before h (if condition then yes else no) (if condition then yes' else no') := by
  split
  · exact hyes
  · exact hno

/-! ### The rules for constructs -/

section Open

variable {expr : Precedence → Rule Node}
  (he : ∀ power, Commutes r before (Node.relabel r.relabeling) (expr power) (expr power))

include he

theorem commutes_letStatement :
    Commutes r before (Node.relabel r.relabeling) (letStatement expr) (letStatement expr) := by
  refine commutes_current.bind fun token => (commutes_expect .ident).bind fun _ => ?_
  refine commutes_current.bind fun target => (commutes_expect .assign).bind fun _ => ?_
  refine commutes_advance.bind fun _ => (he .lowest).bind fun value => ?_
  refine (commutes_accept .semicolon).bind fun _ => commutes_pure ?_
  rw [Identifier.ofToken_move]
  rfl

theorem commutes_returnStatement :
    Commutes r before (Node.relabel r.relabeling) (returnStatement expr) (returnStatement expr) := by
  refine commutes_current.bind fun token => commutes_advance.bind fun _ => ?_
  refine (he .lowest).bind fun value => ?_
  exact (commutes_accept .semicolon).bind fun _ => commutes_pure rfl

theorem commutes_expressionStatement : Commutes r before (Node.relabel r.relabeling)
    (expressionStatement expr) (expressionStatement expr) := by
  refine commutes_current.bind fun token => (he .lowest).bind fun expression => ?_
  exact (commutes_accept .semicolon).bind fun _ => commutes_pure rfl

theorem commutes_statement :
    Commutes r before (Node.relabel r.relabeling) (statement expr) (statement expr) := by
  refine commutes_current.bind fun token => ?_
  rw [r.kind_move]
  split
  · exact commutes_letStatement he
  · exact commutes_returnStatement he
  · exact commutes_expressionStatement he

theorem statementsWithin_moved (closes : TokenKind → Bool) (fuel : Nat) (p : Parser) :
    statementsWithin expr closes fuel (p.moved r before) =
      (Node.relabelAll r.relabeling (statementsWithin expr closes fuel p).1,
        (statementsWithin expr closes fuel p).2.moved r before) := by
  induction fuel generalizing p with
  | zero => rfl
  | succ fuel ih =>
    simp only [statementsWithin, current_moved, r.kind_move]
    split
    · rfl
    · rw [commutes_statement he p]
      cases hrun : statement expr p with
      | ok node behind => simp only [advance_moved, ih, Node.relabelAll]
      | error failure behind =>
        have hrecord : (behind.moved r before).record failure = (behind.record failure).moved r before := by
          simp only [Parser.record, Parser.moved, List.append_assoc]
          rfl
        simp only [hrecord, advance_moved, ih]

theorem statements_moved (closes : TokenKind → Bool) (p : Parser) :
    statements expr closes (p.moved r before) =
      (Node.relabelAll r.relabeling (statements expr closes p).1,
        (statements expr closes p).2.moved r before) := by
  rw [statements, length_moved]
  exact statementsWithin_moved he closes _ p

theorem commutes_block : Commutes r before (Node.relabel r.relabeling) (block expr) (block expr) := by
  intro p
  simp only [block, advance_moved, statements_moved he, current_moved]
  rfl

theorem commutes_moreExpressions (fuel : Nat) : Commutes r before (Node.relabelAll r.relabeling)
    (moreExpressions expr fuel) (moreExpressions expr fuel) := by
  induction fuel with
  | zero => exact commutes_pure rfl
  | succ fuel ih =>
    refine (commutes_accept .comma).bind fun found => .ite ?_ (commutes_pure rfl)
    refine commutes_advance.bind fun _ => (he .lowest).bind fun item => ?_
    exact ih.bind fun rest => commutes_pure rfl

theorem commutes_expressionList (last : TokenKind) : Commutes r before (Node.relabelAll r.relabeling)
    (expressionList expr last) (expressionList expr last) := by
  refine (commutes_accept last).bind fun found => .ite (commutes_pure rfl) ?_
  refine commutes_advance.bind fun _ => (he .lowest).bind fun item => ?_
  refine commutes_get fun p => ?_
  rw [length_moved]
  refine (commutes_moreExpressions he _).bind fun rest => ?_
  exact (commutes_expect last).bind fun _ => commutes_pure rfl

omit he in
theorem commutes_moreParameters (fuel : Nat) :
    Commutes r before (List.map (Identifier.relabel r.move)) (moreParameters fuel)
      (moreParameters fuel) := by
  induction fuel with
  | zero => exact commutes_pure rfl
  | succ fuel ih =>
    refine (commutes_accept .comma).bind fun found => .ite ?_ (commutes_pure rfl)
    refine (commutes_expect .ident).bind fun _ => commutes_current.bind fun name => ?_
    refine ih.bind fun rest => commutes_pure ?_
    rw [Identifier.ofToken_move, List.map_cons]

omit he in
theorem commutes_parameters :
    Commutes r before (List.map (Identifier.relabel r.move)) parameters parameters := by
  refine (commutes_accept .rparen).bind fun found => .ite (commutes_pure rfl) ?_
  refine (commutes_expect .ident).bind fun _ => commutes_current.bind fun name => ?_
  refine commutes_get fun p => ?_
  rw [length_moved]
  refine (commutes_moreParameters _).bind fun rest => ?_
  refine (commutes_expect .rparen).bind fun _ => commutes_pure ?_
  rw [Identifier.ofToken_move, List.map_cons]

theorem commutes_hashPair :
    Commutes r before (Prod.map (Node.relabel r.relabeling) (Node.relabel r.relabeling))
      (hashPair expr) (hashPair expr) := by
  refine commutes_advance.bind fun _ => (he .lowest).bind fun key => ?_
  refine (commutes_expect .colon).bind fun _ => commutes_advance.bind fun _ => ?_
  exact (he .lowest).bind fun value => commutes_pure rfl

theorem commutes_hashPairs (fuel : Nat) : Commutes r before (Node.relabelPairs r.relabeling)
    (hashPairs expr fuel) (hashPairs expr fuel) := by
  induction fuel with
  | zero => exact commutes_pure rfl
  | succ fuel ih =>
    refine (commutes_hashPair he).bind fun pair => (commutes_accept .rbrace).bind fun found => ?_
    refine .ite (commutes_pure rfl) ((commutes_expect .comma).bind fun _ => ?_)
    exact ih.bind fun rest => commutes_pure rfl

theorem commutes_alternative :
    Commutes r before (Node.relabel r.relabeling) (alternative expr) (alternative expr) := by
  refine (commutes_accept .elseKw).bind fun found => .ite ?_ (commutes_pure rfl)
  exact (commutes_expect .lbrace).bind fun _ => commutes_block he

theorem commutes_conditional :
    Commutes r before (Node.relabel r.relabeling) (conditional expr) (conditional expr) := by
  refine commutes_current.bind fun token => (commutes_expect .lparen).bind fun _ => ?_
  refine commutes_advance.bind fun _ => (he .lowest).bind fun condition => ?_
  refine (commutes_expect .rparen).bind fun _ => (commutes_expect .lbrace).bind fun _ => ?_
  refine (commutes_block he).bind fun consequence => (commutes_alternative he).bind fun otherwise => ?_
  exact commutes_pure rfl

theorem commutes_functionLiteral :
    Commutes r before (Node.relabel r.relabeling) (functionLiteral expr) (functionLiteral expr) := by
  refine commutes_current.bind fun token => (commutes_expect .lparen).bind fun _ => ?_
  refine commutes_parameters.bind fun names => (commutes_expect .lbrace).bind fun _ => ?_
  exact (commutes_block he).bind fun body => commutes_pure rfl

theorem commutes_prefixRule {kind : TokenKind} {rule : Rule Node}
    (h : prefixRule? expr kind = some rule) :
    Commutes r before (Node.relabel r.relabeling) rule rule := by
  have hidentifier : Commutes r before (Node.relabel r.relabeling) identifier identifier := by
    refine commutes_current.bind fun token => commutes_pure ?_
    rw [Identifier.ofToken_move]
    rfl
  have hinteger : Commutes r before (Node.relabel r.relabeling) integerLiteral integerLiteral := by
    refine commutes_current.bind fun token => ?_
    rw [r.literal_move]
    split
    · exact commutes_pure rfl
    · exact commutes_throw _
  have hstring : Commutes r before (Node.relabel r.relabeling) stringLiteral stringLiteral := by
    refine commutes_current.bind fun token => commutes_pure ?_
    rw [r.literal_move]
    rfl
  have hboolean : Commutes r before (Node.relabel r.relabeling) booleanLiteral booleanLiteral := by
    refine commutes_current.bind fun token => commutes_pure ?_
    rw [r.kind_move]
    rfl
  have hprefix : Commutes r before (Node.relabel r.relabeling) (prefixExpression expr)
      (prefixExpression expr) := by
    refine commutes_current.bind fun token => commutes_advance.bind fun _ => ?_
    refine (he .prefixed).bind fun right => commutes_pure ?_
    rw [r.literal_move]
    rfl
  have hgroup : Commutes r before (Node.relabel r.relabeling) (groupedExpression expr)
      (groupedExpression expr) := by
    refine commutes_advance.bind fun _ => (he .lowest).bind fun expression => ?_
    exact (commutes_expect .rparen).bind fun _ => commutes_pure rfl
  have harray : Commutes r before (Node.relabel r.relabeling) (arrayLiteral expr)
      (arrayLiteral expr) := by
    refine commutes_current.bind fun token => ?_
    exact (commutes_expressionList he .rbracket).bind fun elements => commutes_pure rfl
  have hhash : Commutes r before (Node.relabel r.relabeling) (hashLiteral expr)
      (hashLiteral expr) := by
    refine commutes_current.bind fun token => (commutes_accept .rbrace).bind fun found => ?_
    refine .ite (commutes_pure rfl) (commutes_get fun p => ?_)
    rw [length_moved]
    exact (commutes_hashPairs he _).bind fun pairs => commutes_pure rfl
  cases kind
  case ident => cases h; exact hidentifier
  case int => cases h; exact hinteger
  case string => cases h; exact hstring
  case trueKw | falseKw => cases h; exact hboolean
  case bang | minus => cases h; exact hprefix
  case lparen => cases h; exact hgroup
  case ifKw => cases h; exact commutes_conditional he
  case functionKw => cases h; exact commutes_functionLiteral he
  case lbracket => cases h; exact harray
  case lbrace => cases h; exact hhash
  all_goals cases h

theorem commutes_infixRule {kind : TokenKind} {rule : Node → Rule Node}
    (h : infixRule? expr kind = some rule) (left : Node) :
    Commutes r before (Node.relabel r.relabeling) (rule left) (rule (left.relabel r.relabeling)) := by
  have hbinary : Commutes r before (Node.relabel r.relabeling) (binaryExpression expr left)
      (binaryExpression expr (left.relabel r.relabeling)) := by
    refine commutes_current.bind fun token => commutes_advance.bind fun _ => ?_
    rw [r.kind_move]
    refine (he _).bind fun right => commutes_pure ?_
    rw [r.literal_move]
    rfl
  have hcall : Commutes r before (Node.relabel r.relabeling) (callExpression expr left)
      (callExpression expr (left.relabel r.relabeling)) := by
    refine commutes_current.bind fun token => ?_
    exact (commutes_expressionList he .rparen).bind fun arguments => commutes_pure rfl
  have hindex : Commutes r before (Node.relabel r.relabeling) (indexExpression expr left)
      (indexExpression expr (left.relabel r.relabeling)) := by
    refine commutes_current.bind fun token => commutes_advance.bind fun _ => ?_
    refine (he .lowest).bind fun subscript => (commutes_expect .rbracket).bind fun _ => ?_
    exact commutes_pure rfl
  cases kind
  case plus | minus | slash | asterisk | eq | notEq | lt | gt => cases h; exact hbinary
  case lparen => cases h; exact hcall
  case lbracket => cases h; exact hindex
  all_goals cases h

theorem commutes_continued (power : Precedence) (fuel : Nat) (left : Node) :
    Commutes r before (Node.relabel r.relabeling) (continued expr power fuel left)
      (continued expr power fuel (left.relabel r.relabeling)) := by
  induction fuel generalizing left with
  | zero => exact commutes_pure rfl
  | succ fuel ih =>
    refine commutes_peekKind.bind fun next => .ite ?_ (commutes_pure rfl)
    simp only [id_eq]
    cases hrule : infixRule? expr next with
    | none => exact commutes_pure rfl
    | some rule =>
      refine commutes_advance.bind fun _ => (commutes_infixRule he hrule left).bind fun longer => ?_
      exact ih longer

theorem commutes_expressionWith (power : Precedence) :
    Commutes r before (Node.relabel r.relabeling) (expressionWith expr power)
      (expressionWith expr power) := by
  refine commutes_current.bind fun token => ?_
  rw [r.kind_move]
  cases hrule : prefixRule? expr token.kind with
  | none => exact commutes_throw _
  | some rule =>
    refine (commutes_prefixRule he hrule).bind fun left => commutes_get fun p => ?_
    rw [length_moved]
    exact commutes_continued he power _ left

end Open

theorem commutes_expressionWithin (depth : Nat) (power : Precedence) :
    Commutes r before (Node.relabel r.relabeling) (expressionWithin depth power)
      (expressionWithin depth power) := by
  induction depth generalizing power with
  | zero =>
    refine commutes_current.bind fun token => ?_
    rw [r.kind_move]
    exact commutes_throw _
  | succ depth ih => exact commutes_expressionWith ih power

theorem commutes_expression (power : Precedence) :
    Commutes r before (Node.relabel r.relabeling) (expression power) (expression power) := by
  intro p
  rw [expression, expression, length_moved]
  exact commutes_expressionWithin _ power p

end Rule

/-- Parsing relocated tokens, with errors recorded before, gives the relocated statements and the same
    errors behind those. -/
theorem Parser.program_moved (r : Relocation) (before : List ParseError) (p : Parser) :
    (p.moved r before).program =
      (Node.relabelAll r.relabeling p.program.1, p.program.2.moved r before) :=
  Rule.statements_moved Rule.commutes_expression _ p

end Monkey
