import Monkey.Proofs.Grammar.Sound
import Monkey.Proofs.Parser.Locality

/-!
# The cursor of the parse rules

A parse rule that succeeds leaves the last token of its construct current: for a name or a literal that token
itself, for a construct in brackets the closing one, and for an operator the last token of its right operand
(`EndsAt`). An expression ends in front of a semicolon or of a token that binds no tighter than it was asked
for. A rule that fails leaves current what its error is about, or the token in front of it
(`ParseError.StandsAt`). And no rule looks further than the token behind the one it ends at.
-/

namespace Monkey

open Grammar

/-- The token that a block ends with: a brace, unless the text ends first. -/
def EndsBlock (last : Token) : Prop :=
  last.kind = .rbrace ∨ last.kind = .eof

/-- The last token of an expression. -/
inductive EndsAt : Node → Token → Prop where
  | identifier (token : Token) : EndsAt (.identifier (.ofToken token)) token
  | integer (token : Token) (value : Int) : EndsAt (.integer token value) token
  | string (token : Token) : EndsAt (.string token token.literal) token
  | boolean (token : Token) (value : Bool) : EndsAt (.boolean token value) token
  | prefixed {token last : Token} {operator : String} {right : Node} (h : EndsAt right last) :
      EndsAt (.prefixed token operator right) last
  | binary {token last : Token} {left right : Node} {operator : String} (h : EndsAt right last) :
      EndsAt (.binary token left operator right) last
  | group {inner last : Token} {node : Node} (h : EndsAt node inner) (hlast : last.kind = .rparen) :
      EndsAt node last
  | call {token last : Token} {callee : Node} {arguments : List Node} (hlast : last.kind = .rparen) :
      EndsAt (.call token callee arguments) last
  | index {token last : Token} {left subscript : Node} (hlast : last.kind = .rbracket) :
      EndsAt (.index token left subscript) last
  | array {token last : Token} {elements : List Node} (hlast : last.kind = .rbracket) :
      EndsAt (.array token elements) last
  | hash {token last : Token} {pairs : List (Node × Node)} (hlast : last.kind = .rbrace) :
      EndsAt (.hash token pairs) last
  | conditional {token last : Token} {condition consequence alternative : Node} (hlast : EndsBlock last) :
      EndsAt (.conditional token condition consequence alternative) last
  | function {token last : Token} {parameters : List Identifier} {body : Node} (hlast : EndsBlock last) :
      EndsAt (.function token parameters body) last

/-- Where a statement ends: at its semicolon, or at the end of its expression if none follows. -/
def StopsBehind (value : Node) (q : Parser) : Prop :=
  q.current.kind = .semicolon ∨
    EndsAt value q.current ∧ q.peek.kind ≠ .semicolon ∧ q.peek.kind.precedence = .lowest

inductive StatementEnds : Node → Parser → Prop where
  | letStatement {token : Token} {target : Identifier} {value : Node} {q : Parser} (h : StopsBehind value q) :
      StatementEnds (.letStatement token target value) q
  | returnStatement {token : Token} {value : Node} {q : Parser} (h : StopsBehind value q) :
      StatementEnds (.returnStatement token value) q
  | expressionStatement {token : Token} {value : Node} {q : Parser} (h : StopsBehind value q) :
      StatementEnds (.expressionStatement token value) q

namespace Rule

variable {p q : Parser} {node : Node}

/-! ### Brackets -/

theorem ends_expressionList {last : TokenKind} {nodes : List Node}
    (h : expressionList expression last p = .ok nodes q) : q.current.kind = last := by
  simp only [expressionList_eq, bind_eq_ok, accept_eq_ok] at h
  rcases h with ⟨found, r', ⟨hclose, rfl, rfl⟩ | ⟨_, rfl, rfl⟩, h⟩
  · simp only [if_true, pure_eq_ok] at h
    exact h.2 ▸ hclose
  · simp only [Bool.false_eq_true, if_false, bind_eq_ok, expect_eq_ok, pure_eq_ok] at h
    rcases h with ⟨_, _, _, _, _, _, _, _, ⟨hclose, rfl⟩, _, rfl⟩
    exact hclose

theorem ends_pairs {list : List (Node × Node)} (h : pairs p = .ok list q) : q.current.kind = .rbrace := by
  induction hlength : p.tokens.length using Nat.strongRecOn generalizing p list with
  | ind n ih =>
    rw [pairs_eq] at h
    simp only [bind_eq_ok, accept_eq_ok] at h
    rcases h with ⟨pair, r, hpair, found, r', ⟨hclose, rfl, rfl⟩ | ⟨_, rfl, rfl⟩, h⟩
    · simp only [if_true, pure_eq_ok] at h
      exact h.2 ▸ hclose
    · simp only [Bool.false_eq_true, if_false, bind_eq_ok, expect_eq_ok, pure_eq_ok] at h
      rcases h with ⟨_, _, ⟨hcomma, rfl⟩, rest, r'', hrest, _, rfl⟩
      have hr : p.Ahead r' :=
        (steady_of_agrees fun k => (agrees_hashPair (agrees_expression k)).mono (Nat.le_succ k)).ahead_of_ok hpair
      have hlt : r'.advance.tokens.length < n := by
        have hle := hr.length_le
        have htokens := congrArg List.length (Parser.tokens_eq hcomma (by decide))
        simp only [Parser.advance_tokens, List.length_tail, List.length_cons] at htokens ⊢
        omega
      exact ih _ hlt hrest rfl

theorem closes_statements {closes : TokenKind → Bool} (heof : closes .eof = true) (p : Parser) :
    closes (statements expression closes p).2.current.kind = true := by
  induction hlength : p.tokens.length using Nat.strongRecOn generalizing p with
  | ind n ih =>
    rw [statements_eq heof]
    by_cases hcloses : closes p.current.kind = true
    · rw [if_pos hcloses]
      exact hcloses
    · have hpos : p.tokens ≠ [] := fun hnil => hcloses (current_kind_of_nil hnil ▸ heof)
      have hlt {r : Parser} (hr : p.Ahead r) : r.advance.tokens.length < n := by
        have := List.length_pos_iff.mpr hpos
        have := hr.length_le
        simp only [Parser.advance_tokens, List.length_tail]
        omega
      rw [if_neg hcloses]
      cases hrun : statement expression p with
      | ok first r => exact ih _ (hlt (steady_statement.ahead_of_ok hrun)) _ rfl
      | error failure r =>
        exact ih _ (hlt ((steady_statement.ahead_of_error hrun).trans (r.ahead_record failure))) _ rfl

theorem ends_block (h : block expression p = .ok node q) : EndsBlock q.current := by
  rw [block_run] at h
  obtain ⟨-, rfl⟩ := EStateM.Result.ok.inj h
  have hcloses : closesBlock (statements expression closesBlock p.advance).2.current.kind = true :=
    closes_statements rfl p.advance
  simpa only [EndsBlock, closesBlock, Bool.or_eq_true, decide_eq_true_eq] using hcloses

theorem ends_conditional (h : conditional expression p = .ok node q) : EndsAt node q.current := by
  simp only [conditional, bind_eq_ok, current_eq_ok, advance_eq_ok, expect_eq_ok, pure_eq_ok,
    and_assoc, exists_and_left, exists_eq_left, exists_const] at h
  rcases h with ⟨_, condition, r, _, _, _, consequence, r', hconsequence, otherwise, q, hotherwise, rfl, rfl⟩
  simp only [alternative, bind_eq_ok, accept_eq_ok] at hotherwise
  rcases hotherwise with ⟨found, _, ⟨helse, rfl, rfl⟩ | ⟨_, rfl, rfl⟩, h⟩
  · simp only [if_true, bind_eq_ok, expect_eq_ok, and_assoc, exists_and_left, exists_eq_left,
      exists_const] at h
    exact .conditional (ends_block h.2)
  · simp only [Bool.false_eq_true, if_false, pure_eq_ok] at h
    rcases h with ⟨rfl, rfl⟩
    exact .conditional (ends_block hconsequence)

theorem ends_functionLiteral (h : functionLiteral expression p = .ok node q) : EndsAt node q.current := by
  simp only [functionLiteral, bind_eq_ok, current_eq_ok, expect_eq_ok, pure_eq_ok,
    and_assoc, exists_and_left, exists_eq_left, exists_const] at h
  rcases h with ⟨_, names, r, _, _, body, q, hbody, rfl, rfl⟩
  exact .function (ends_block hbody)

theorem ends_arrayLiteral (h : arrayLiteral expression p = .ok node q) : EndsAt node q.current := by
  simp only [arrayLiteral, bind_eq_ok, current_eq_ok, pure_eq_ok, and_assoc, exists_and_left,
    exists_eq_left] at h
  rcases h with ⟨elements, q, helements, rfl, rfl⟩
  exact .array (ends_expressionList helements)

theorem ends_hashLiteral (h : hashLiteral expression p = .ok node q) : EndsAt node q.current := by
  simp only [hashLiteral_eq, bind_eq_ok, current_eq_ok, accept_eq_ok, and_assoc, exists_and_left,
    exists_eq_left] at h
  rcases h with ⟨found, r, ⟨hclose, rfl, rfl⟩ | ⟨_, rfl, rfl⟩, h⟩
  · simp only [if_true, pure_eq_ok] at h
    rcases h with ⟨rfl, rfl⟩
    exact .hash hclose
  · simp only [Bool.false_eq_true, if_false, bind_eq_ok, pure_eq_ok] at h
    rcases h with ⟨list, q, hlist, rfl, rfl⟩
    exact .hash (ends_pairs hlist)

/-! ### Expressions -/

/-- Expressions read with at most `k` tokens left end with the token that is current. -/
def ExpressionsEnd (k : Nat) : Prop :=
  ∀ ⦃p q : Parser⦄ ⦃power : Precedence⦄ ⦃node : Node⦄, p.tokens.length ≤ k →
    expression power p = .ok node q → EndsAt node q.current

section Parts

variable {k : Nat} (he : ExpressionsEnd k)

include he

theorem ends_prefixExpression (hp : p.tokens.length ≤ k + 1) (h : prefixExpression expression p = .ok node q) :
    EndsAt node q.current := by
  simp only [prefixExpression, bind_eq_ok, current_eq_ok, advance_eq_ok, pure_eq_ok, and_assoc,
    exists_and_left, exists_eq_left, exists_const] at h
  rcases h with ⟨right, q, hright, rfl, rfl⟩
  exact .prefixed (he (length_advance_le hp) hright)

theorem ends_groupedExpression (hp : p.tokens.length ≤ k + 1) (h : groupedExpression expression p = .ok node q) :
    EndsAt node q.current := by
  simp only [groupedExpression, bind_eq_ok, advance_eq_ok, expect_eq_ok, pure_eq_ok, and_assoc,
    exists_and_left, exists_eq_left, exists_const] at h
  rcases h with ⟨node, r, hnode, hclose, rfl, rfl⟩
  exact .group (he (length_advance_le hp) hnode) hclose

theorem ends_prefixRule {rule : Rule Node} {kind : TokenKind} (hp : p.tokens.length ≤ k + 1)
    (hrule : prefixRule? expression kind = some rule) (h : rule p = .ok node q) : EndsAt node q.current := by
  cases kind <;> cases hrule
  case ident =>
    obtain ⟨rfl, rfl⟩ := EStateM.Result.ok.inj h
    exact .identifier _
  case int =>
    simp only [integerLiteral, bind_eq_ok, current_eq_ok, and_assoc, exists_and_left, exists_eq_left] at h
    cases hvalue : integerValue? p.current.literal with
    | none => simp [hvalue] at h
    | some value =>
      simp only [hvalue, pure_eq_ok] at h
      rcases h with ⟨rfl, rfl⟩
      exact .integer _ _
  case string =>
    obtain ⟨rfl, rfl⟩ := EStateM.Result.ok.inj h
    exact .string _
  case trueKw | falseKw =>
    obtain ⟨rfl, rfl⟩ := EStateM.Result.ok.inj h
    exact .boolean _ _
  case bang | minus => exact ends_prefixExpression he hp h
  case lparen => exact ends_groupedExpression he hp h
  case ifKw => exact ends_conditional h
  case functionKw => exact ends_functionLiteral h
  case lbracket => exact ends_arrayLiteral h
  case lbrace => exact ends_hashLiteral h

theorem ends_infixRule {rule : Node → Rule Node} {kind : TokenKind} {left : Node} (hp : p.tokens.length ≤ k + 1)
    (hrule : infixRule? expression kind = some rule) (h : rule left p = .ok node q) : EndsAt node q.current := by
  obtain ⟨_, -, -, -, rfl⟩ | ⟨-, rfl⟩ | ⟨-, rfl⟩ := infixRule?_cases hrule
  · simp only [binaryExpression, bind_eq_ok, current_eq_ok, advance_eq_ok, pure_eq_ok, and_assoc,
      exists_and_left, exists_eq_left, exists_const] at h
    rcases h with ⟨right, q, hright, rfl, rfl⟩
    exact .binary (he (length_advance_le hp) hright)
  · simp only [callExpression, bind_eq_ok, current_eq_ok, pure_eq_ok, and_assoc, exists_and_left,
      exists_eq_left] at h
    rcases h with ⟨arguments, q, harguments, rfl, rfl⟩
    exact .call (ends_expressionList harguments)
  · simp only [indexExpression, bind_eq_ok, current_eq_ok, advance_eq_ok, expect_eq_ok, pure_eq_ok,
      and_assoc, exists_and_left, exists_eq_left, exists_const] at h
    rcases h with ⟨subscript, r, hsubscript, hclose, rfl, rfl⟩
    exact .index hclose

/-- The loop that goes on with an expression ends with one that ends there, in front of a token that binds no
    tighter than the power. -/
theorem ends_extended {p : Parser} {power : Precedence} {left : Node} (hp : p.tokens.length ≤ k + 1)
    (hleft : EndsAt left p.current) (h : extended power left p = .ok node q) :
    EndsAt node q.current ∧ (q.peek.kind = .semicolon ∨ q.peek.kind.precedence.rank ≤ power.rank) := by
  induction hlength : p.tokens.length using Nat.strongRecOn generalizing p left with
  | ind n ih =>
    rw [extended_eq, bind_run, peekKind_run] at h
    dsimp only at h
    by_cases hbinds : p.peek.kind ≠ .semicolon ∧ power.rank < p.peek.kind.precedence.rank
    · rw [if_pos hbinds] at h
      cases hrule : infixRule? expression p.peek.kind with
      | none =>
        rw [infixRule?_none hrule] at hbinds
        exact absurd (rank_pos power) (Nat.not_lt.mpr (Nat.le_of_lt_succ hbinds.2))
      | some rule =>
        simp only [hrule, bind_eq_ok, advance_eq_ok, exists_const, exists_eq_left] at h
        rcases h with ⟨longer, r, hlonger, h⟩
        have hle := ((steady_infixRule hrule left).ahead_of_ok hlonger).length_le
        have hadvance := p.ahead_advance.length_le
        have hne : p.advance.current.kind ≠ .eof := fun heof => by
          rw [Parser.peek_eq, heof] at hrule
          cases hrule
        have htokens := congrArg List.length (Parser.tokens_eq rfl hne)
        simp only [Parser.advance_tokens, List.length_tail, List.length_cons] at hle htokens
        have hends := ends_infixRule he (Nat.le_trans hadvance hp) hrule hlonger
        exact ih r.tokens.length (by omega) (by omega) hends h rfl
    · rw [if_neg hbinds] at h
      obtain ⟨rfl, rfl⟩ := pure_eq_ok.mp h
      refine ⟨hleft, ?_⟩
      by_cases hsemicolon : q.peek.kind = .semicolon
      · exact .inl hsemicolon
      · exact .inr (Nat.not_lt.mp fun hrank => hbinds ⟨hsemicolon, hrank⟩)

theorem ends_expressionWith {power : Precedence} (hp : p.tokens.length ≤ k + 1)
    (h : expression power p = .ok node q) :
    EndsAt node q.current ∧ (q.peek.kind = .semicolon ∨ q.peek.kind.precedence.rank ≤ power.rank) := by
  rw [expression_run] at h
  cases hrule : prefixRule? expression p.current.kind with
  | none => rw [hrule] at h; cases h
  | some rule =>
    simp only [hrule, bind_eq_ok] at h
    rcases h with ⟨left, r, hleft, h⟩
    have hr := ((steady_prefixRule hrule).ahead_of_ok hleft).length_le
    exact ends_extended he (Nat.le_trans hr hp) (ends_prefixRule he hp hrule hleft) h

end Parts

theorem expressionsEnd (k : Nat) : ExpressionsEnd k := by
  induction k with
  | zero =>
    intro p q power node hp h
    rw [expression, expressionWithin_nil _ _ (tokens_eq_nil_of_length_le hp)] at h
    cases h
  | succ k ih => exact fun p q power node hp h => (ends_expressionWith ih hp h).1

theorem ends_expression {power : Precedence} (h : expression power p = .ok node q) :
    EndsAt node q.current ∧ (q.peek.kind = .semicolon ∨ q.peek.kind.precedence.rank ≤ power.rank) :=
  ends_expressionWith (expressionsEnd _) (Nat.le_succ _) h

/-! ### Statements -/

theorem stopsBehind {value : Node} {r : Parser} {found : Bool} (h : expression .lowest p = .ok value r)
    (haccept : accept .semicolon r = .ok found q) : StopsBehind value q := by
  obtain ⟨hends, hnext⟩ := ends_expression h
  rcases accept_eq_ok.mp haccept with ⟨hkind, -, rfl⟩ | ⟨hkind, -, rfl⟩
  · exact .inl hkind
  · exact .inr ⟨hends, hkind, lowest_of_rank_le (hnext.resolve_left hkind)⟩

theorem ends_letStatement (h : letStatement expression p = .ok node q) : StatementEnds node q := by
  simp only [letStatement, bind_eq_ok, current_eq_ok, expect_eq_ok, advance_eq_ok, pure_eq_ok,
    and_assoc, exists_and_left, exists_eq_left, exists_const] at h
  rcases h with ⟨_, _, value, r, hvalue, found, q, haccept, rfl, rfl⟩
  exact .letStatement (stopsBehind hvalue haccept)

theorem ends_returnStatement (h : returnStatement expression p = .ok node q) : StatementEnds node q := by
  simp only [returnStatement, bind_eq_ok, current_eq_ok, advance_eq_ok, pure_eq_ok,
    and_assoc, exists_and_left, exists_eq_left, exists_const] at h
  rcases h with ⟨value, r, hvalue, found, q, haccept, rfl, rfl⟩
  exact .returnStatement (stopsBehind hvalue haccept)

theorem ends_expressionStatement (h : expressionStatement expression p = .ok node q) : StatementEnds node q := by
  simp only [expressionStatement, bind_eq_ok, current_eq_ok, pure_eq_ok, and_assoc, exists_and_left,
    exists_eq_left] at h
  rcases h with ⟨value, r, hvalue, found, q, haccept, rfl, rfl⟩
  exact .expressionStatement (stopsBehind hvalue haccept)

theorem ends_statement (h : statement expression p = .ok node q) : StatementEnds node q := by
  rw [statement_run] at h
  split at h
  · exact ends_letStatement h
  · split at h
    · exact ends_returnStatement h
    · exact ends_expressionStatement h

/-! ### Failures -/

/-- Where a rule fails, what its error says is there. -/
def FailsInPlace {α : Type} (rule : Rule α) (p : Parser) : Prop :=
  ∀ failure q, rule p = .error failure q → failure.StandsAt q

theorem composable_failsInPlace : Composable @FailsInPlace where
  pure a p failure q h := by cases h
  bind {_ _ x f p} hx hf failure q h := by
    rw [bind_run] at h
    cases hrun : x p with
    | ok a r =>
      rw [hrun] at h
      exact hf a r hrun failure q h
    | error failure' r =>
      rw [hrun] at h
      cases h
      exact hx _ _ hrun
  current p failure q h := by cases h
  peekKind p failure q h := by cases h
  advance p failure q h := by cases h
  fail h failure q hrun := by
    cases hrun
    exact h
  recovered {rule p} _ failure q h := by
    rw [recovered] at h
    cases hrun : rule p <;> rw [hrun] at h <;> cases h

/-! ### All rules -/

/-- What a rule makes of the cursor, from the place of a parser. Where it succeeds, `ends` says how the
    construct ends; where it fails, the cursor stands at what the error is about; and its outcome is the same
    from any parser that is alike up to and including the token behind the one it ends at. -/
structure KeepsCursor (rule : Rule Node) (p : Parser) (ends : Node → Parser → Prop) : Prop where
  succeeds {node : Node} {q : Parser} (h : rule p = .ok node q) : ends node q
  fails {failure : ParseError} {q : Parser} (h : rule p = .error failure q) : failure.StandsAt q
  looks {p' : Parser} (h : p.Alike ((rule.outcome p).consumed + 2) p') : rule.outcome p' = rule.outcome p

theorem keepsCursor {rule : Rule Node} {p : Parser} {ends : Node → Parser → Prop}
    (hsucceeds : ∀ node q, rule p = .ok node q → ends node q) (hfails : FailsInPlace rule p)
    (hlocal : Local rule p) : KeepsCursor rule p ends :=
  ⟨fun h => hsucceeds _ _ h, fun h => hfails _ _ h, hlocal.outcome_eq⟩

/-- Every parse rule keeps the cursor. An expression ends with its last token, in front of a semicolon or of a
    token that binds no tighter than the power it is read at; a statement ends with its semicolon or its
    expression, and a block with its brace or at the end of the text. If nothing in it was left out with an
    error, the tokens up to that place are the ones that the grammar derives as the construct. -/
theorem rules_keep_cursor (p : Parser) (power : Precedence) :
    KeepsCursor (expression power) p (fun node q => EndsAt node q.current ∧
      (q.peek.kind = .semicolon ∨ q.peek.kind.precedence.rank ≤ power.rank) ∧
      (p.Scanned → q.errors = p.errors →
        Derives (.expression (tierOf power) node) p.tokens q.advance.tokens)) ∧
    KeepsCursor (letStatement expression) p StatementEnds ∧
    KeepsCursor (returnStatement expression) p StatementEnds ∧
    KeepsCursor (expressionStatement expression) p StatementEnds ∧
    KeepsCursor (statement expression) p (fun node q => StatementEnds node q ∧
      (p.Scanned → q.errors = p.errors → Derives (.statement node) p.tokens q.advance.tokens)) ∧
    KeepsCursor (block expression) p (fun node q => EndsBlock q.current ∧
      (p.Scanned → p.current.kind = .lbrace → q.errors = p.errors →
        Derives (.block node) p.tokens q.advance.tokens)) ∧
    (∀ rule, prefixRule? expression p.current.kind = some rule →
      KeepsCursor rule p fun node q => EndsAt node q.current) ∧
    ∀ rule left, infixRule? expression p.current.kind = some rule →
      KeepsCursor (rule left) p fun node q => EndsAt node q.current := by
  have hfails := composable_failsInPlace
  have hlocal := composable_local
  refine ⟨keepsCursor ?_ (hfails.expression power p) (hlocal.expression power p),
    keepsCursor (fun _ _ => ends_letStatement) (hfails.letStatement p) (hlocal.letStatement p),
    keepsCursor (fun _ _ => ends_returnStatement) (hfails.returnStatement p) (hlocal.returnStatement p),
    keepsCursor (fun _ _ => ends_expressionStatement) (hfails.expressionStatement p) (hlocal.expressionStatement p),
    keepsCursor ?_ (hfails.statement p) (hlocal.statement p),
    keepsCursor ?_ (hfails.block p) (hlocal.block p), fun rule hrule => ?_, fun rule left hrule => ?_⟩
  · intro node q h
    obtain ⟨hends, hnext⟩ := ends_expression h
    exact ⟨hends, hnext, fun hscanned herrors => (expressionsDerived _ ⟨Nat.le_refl _, hscanned⟩ h herrors).1⟩
  · intro node q h
    refine ⟨ends_statement h, fun hscanned herrors => ?_⟩
    exact derives_statement (expressionsDerived _) ⟨Nat.le_refl _, hscanned⟩ h herrors
  · intro node q h
    refine ⟨ends_block h, fun hscanned hkind herrors => ?_⟩
    exact derives_block (expressionsDerived _) ⟨Nat.le_succ _, hscanned⟩ hkind h herrors
  · refine keepsCursor (fun node q h => ?_) (hfails.prefixRule hrule) (hlocal.prefixRule hrule)
    exact ends_prefixRule (expressionsEnd _) (Nat.le_succ _) hrule h
  · refine keepsCursor (fun node q h => ?_) (hfails.infixRule hrule left p) (hlocal.infixRule hrule left p)
    exact ends_infixRule (expressionsEnd _) (Nat.le_succ _) hrule h

/-- What follows the `y` has no part in reading the sum in front of it. -/
theorem rules_keep_cursor_sum :
    let p := Parser.ofText "1 + 2 y"
    let p' := Parser.ofText "1 + 2 y ) ("
    p.Alike (((expression .lowest).outcome p).consumed + 2) p' ∧
      (expression .lowest).outcome p' = (expression .lowest).outcome p := by
  intro p p'
  have halike : p.Alike (((expression .lowest).outcome p).consumed + 2) p' :=
    ⟨by decide +kernel, fun hlength => absurd hlength (by decide +kernel)⟩
  exact ⟨halike, (rules_keep_cursor p .lowest).1.looks halike⟩

end Rule

end Monkey
