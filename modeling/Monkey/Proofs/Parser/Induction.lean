import Monkey.Proofs.Parser.Unfolding

/-!
# Induction over parse rules

Every parse rule is put together from looking at the current token or the kind of the next one, from moving on
by a token, and from failing with an error that says what stands there (`ParseError.StandsAt`); and a sequence
of statements records the errors of the statements in it. So a property of rules, at the places that they
start from, that passes from these steps to what is put together from them (`Rule.Composable`) is one of all
rules: by induction over the number of tokens left, since a construct takes a token before it asks for an
expression.
-/

namespace Monkey

/-- An error says what there is where a parser stands: the next token is not the wanted one, or the current
    one starts no expression or is a numeral without a value. -/
def ParseError.StandsAt : ParseError → Parser → Prop
  | .unexpected wanted got, p => p.peek.kind = got ∧ got ≠ wanted
  | .noPrefixRule kind, p => p.current.kind = kind ∧ Rule.prefixRule? Rule.expression kind = none
  | .badInteger literal, p =>
    p.current.kind = .int ∧ p.current.literal = literal ∧ Rule.integerValue? literal = none

namespace Rule

variable {α β : Type}

/-! ### Statements as rules -/

/-- A rule whose failure is recorded, and which has no result then. -/
def recovered (rule : Rule α) : Rule (Option α) := fun p =>
  match rule p with
  | .ok a q => .ok (some a) q
  | .error failure q => .ok none (q.record failure)

/-- The statements up to a token that closes the sequence. -/
def statementList (closes : TokenKind → Bool) : Rule (List Node) := fun p =>
  .ok (statements expression closes p).1 (statements expression closes p).2

theorem statementList_eq {closes : TokenKind → Bool} (hcloses : closes .eof = true) : statementList closes = (do
    let token ← current
    if closes token.kind then return []
    else
      let first ← recovered (statement expression)
      advance
      return first.toList ++ (← statementList closes)) := by
  funext p
  simp only [bind_run, current_run]
  rw [statementList, statements_eq hcloses]
  split
  · rfl
  · simp only [bind_run, recovered]
    cases statement expression p <;> rfl

theorem block_eq : block expression = (do
    let token ← current
    advance
    return .block token (← statementList closesBlock)) := rfl

/-- An expression is a start, which its first token tells, and all that goes on with it. -/
theorem expression_eq_start (power : Precedence) : expression power = (do
    let token ← current
    match prefixRule? expression token.kind with
    | some rule => rule >>= extended power
    | none => throw (.noPrefixRule token.kind)) := by
  funext p
  rw [expression_run, bind_run, current_run]
  cases hrule : prefixRule? expression p.current.kind with
  | none =>
    simp only [hrule]
    rfl
  | some rule => simp only [hrule]

theorem steady_names : Steady names := by
  refine steady_of_agrees fun k => .bind ((steady_expect .ident).agrees k) fun _ => looks_current.bind fun name => ?_
  exact .bind (bounded_moreParameters.steady_closed.agrees k) fun rest => (steady_pure _).agrees k

theorem steady_expressionList (last : TokenKind) : Steady (expressionList expression last) :=
  steady_of_agrees fun k => (agrees_expressionList (agrees_expression k) last).mono (Nat.le_succ k)

theorem steady_recovered {rule : Rule α} (h : Steady rule) : Steady (recovered rule) := by
  intro p
  have hrule := h p
  simp only [after, recovered] at hrule ⊢
  cases hrun : rule p with
  | ok a q =>
    rw [hrun] at hrule
    exact hrule
  | error failure q =>
    rw [hrun] at hrule
    exact hrule.trans (q.ahead_record failure)

theorem steady_statementList (closes : TokenKind → Bool) : Steady (statementList closes) :=
  ahead_statements closes

/-! ### Properties that pass to what is put together -/

/-- What an induction over parse rules rests on, for a property of a rule and the place it starts from. -/
structure Composable (P : ∀ {α : Type}, Rule α → Parser → Prop) : Prop where
  pure {α : Type} (a : α) (p : Parser) : P (Pure.pure a : Rule α) p
  bind {α β : Type} {x : Rule α} {f : α → Rule β} {p : Parser} (hx : P x p)
    (hf : ∀ a q, x p = .ok a q → P (f a) q) : P (x >>= f) p
  current (p : Parser) : P Rule.current p
  peekKind (p : Parser) : P Rule.peekKind p
  advance (p : Parser) : P Rule.advance p
  fail {α : Type} {failure : ParseError} {p : Parser} (h : failure.StandsAt p) : P (throw failure : Rule α) p
  recovered {rule : Rule Node} {p : Parser} (h : P rule p) : P (Rule.recovered rule) p

section

variable {P : ∀ {α : Type}, Rule α → Parser → Prop} (hP : Composable @P)

include hP

theorem Composable.accept (kind : TokenKind) (p : Parser) : P (accept kind) p := by
  refine hP.bind (hP.peekKind p) fun next q _ => ?_
  split
  · exact hP.bind (hP.advance q) fun _ r _ => hP.pure true r
  · exact hP.pure false q

theorem Composable.expect (wanted : TokenKind) (p : Parser) : P (expect wanted) p := by
  refine hP.bind (hP.peekKind p) fun next q hrun => ?_
  obtain ⟨rfl, rfl⟩ := EStateM.Result.ok.inj hrun
  split
  · exact hP.advance p
  next hnext => exact hP.fail ⟨rfl, hnext⟩

end

/-- A rule has a property at all places with at most so many tokens left. -/
def Upto (P : ∀ {α : Type}, Rule α → Parser → Prop) (k : Nat) (rule : Rule α) : Prop :=
  ∀ p : Parser, p.tokens.length ≤ k → P rule p

section

variable {P : ∀ {α : Type}, Rule α → Parser → Prop} {j k : Nat}

theorem Upto.mono {rule : Rule α} (h : Upto @P k rule) (hjk : j ≤ k) : Upto @P j rule :=
  fun p hp => h p (Nat.le_trans hp hjk)

variable (hP : Composable @P)

include hP

theorem upto_pure (a : α) : Upto @P k (pure a) :=
  fun p _ => hP.pure a p

theorem Upto.bind {x : Rule α} {f : α → Rule β} (hx : Upto @P k x) (hsteady : Steady x)
    (hf : ∀ a, Upto @P k (f a)) : Upto @P k (x >>= f) := fun p hp =>
  hP.bind (hx p hp) fun a q hrun => hf a q (Nat.le_trans (hsteady.ahead_of_ok hrun).length_le hp)

theorem upto_current {f : Token → Rule β} (hf : ∀ token, Upto @P k (f token)) : Upto @P k (current >>= f) :=
  .bind hP (fun p _ => hP.current p) (fun p => .refl p) hf

theorem upto_peekKind {f : TokenKind → Rule β} (hf : ∀ kind, Upto @P k (f kind)) :
    Upto @P k (peekKind >>= f) :=
  .bind hP (fun p _ => hP.peekKind p) (fun p => .refl p) hf

theorem upto_advance {f : Unit → Rule β} (hf : Upto @P k (f ())) : Upto @P (k + 1) (advance >>= f) := by
  intro p hp
  refine hP.bind (hP.advance p) fun _ q hrun => ?_
  obtain ⟨-, rfl⟩ := EStateM.Result.ok.inj hrun
  exact hf _ (length_advance_le hp)

/-- Moving on at the end changes nothing. -/
theorem upto_advance_end {f : Unit → Rule β} (hf : Upto @P k (f ())) : Upto @P k (advance >>= f) :=
  (upto_advance hP hf).mono (Nat.le_succ k)

theorem upto_expect {wanted : TokenKind} {f : Unit → Rule β} (hf : Upto @P k (f ())) :
    Upto @P (k + 1) (expect wanted >>= f) := by
  intro p hp
  refine hP.bind (hP.expect wanted p) fun _ q hrun => ?_
  rw [expect_run] at hrun
  split at hrun
  · obtain ⟨-, rfl⟩ := EStateM.Result.ok.inj hrun
    exact hf _ (length_advance_le hp)
  · cases hrun

theorem upto_accept {kind : TokenKind} {yes no : Rule β} (hyes : Upto @P k yes) (hno : Upto @P (k + 1) no) :
    Upto @P (k + 1) (accept kind >>= fun found => if found = true then yes else no) := by
  intro p hp
  refine hP.bind (hP.accept kind p) fun found q hrun => ?_
  rw [accept_run] at hrun
  split at hrun
  · obtain ⟨rfl, rfl⟩ := EStateM.Result.ok.inj hrun
    exact hyes _ (length_advance_le hp)
  · obtain ⟨rfl, rfl⟩ := EStateM.Result.ok.inj hrun
    exact hno p hp

/-- At the end of the text nothing that is wanted follows. -/
theorem upto_expect_zero {wanted : TokenKind} (hwanted : wanted ≠ .eof) (f : Unit → Rule β) :
    Upto @P 0 (expect wanted >>= f) := by
  intro p hp
  refine hP.bind (hP.expect wanted p) fun _ q hrun => ?_
  rw [expect_run, peek_kind_of_nil (tokens_eq_nil_of_length_le hp), if_neg hwanted.symm] at hrun
  cases hrun

/-- At the end of the text there is nothing to be accepted. -/
theorem upto_accept_zero {kind : TokenKind} {yes no : Rule β} (hkind : kind ≠ .eof) (hno : Upto @P 0 no) :
    Upto @P 0 (accept kind >>= fun found => if found = true then yes else no) := by
  intro p hp
  refine hP.bind (hP.accept kind p) fun found q hrun => ?_
  rw [accept_nil hkind (tokens_eq_nil_of_length_le hp)] at hrun
  obtain ⟨rfl, rfl⟩ := EStateM.Result.ok.inj hrun
  exact hno p hp

/-! ### The rules for constructs -/

section Parts

variable (he : ∀ power, Upto @P k (expression power))

include he

theorem upto_letStatement : Upto @P (k + 1) (letStatement expression) := by
  refine upto_current hP fun token => upto_expect hP (upto_current hP fun target => ?_)
  refine .bind hP (fun p _ => hP.expect .assign p) (steady_expect .assign) fun _ => ?_
  refine upto_advance_end hP (.bind hP (he .lowest) (steady_expression _) fun value => ?_)
  exact .bind hP (fun p _ => hP.accept .semicolon p) (steady_accept _) fun _ => upto_pure hP _

theorem upto_returnStatement : Upto @P (k + 1) (returnStatement expression) := by
  refine upto_current hP fun token => upto_advance hP (.bind hP (he .lowest) (steady_expression _) fun value => ?_)
  exact .bind hP (fun p _ => hP.accept .semicolon p) (steady_accept _) fun _ => upto_pure hP _

theorem upto_expressionStatement : Upto @P k (expressionStatement expression) := by
  refine upto_current hP fun token => .bind hP (he .lowest) (steady_expression _) fun node => ?_
  exact .bind hP (fun p _ => hP.accept .semicolon p) (steady_accept _) fun _ => upto_pure hP _

theorem upto_statement : Upto @P k (statement expression) := by
  refine upto_current hP fun token => ?_
  split
  · exact (upto_letStatement hP he).mono (Nat.le_succ k)
  · exact (upto_returnStatement hP he).mono (Nat.le_succ k)
  · exact upto_expressionStatement hP he

theorem upto_statementList {closes : TokenKind → Bool} (hcloses : closes .eof = true) :
    Upto @P k (statementList closes) := by
  induction k with
  | zero =>
    intro p hp
    have hend : closes p.current.kind = true := by
      rw [current_kind_of_nil (tokens_eq_nil_of_length_le hp), hcloses]
    rw [statementList_eq hcloses]
    refine hP.bind (hP.current p) fun token q hrun => ?_
    obtain ⟨rfl, rfl⟩ := EStateM.Result.ok.inj hrun
    rw [if_pos hend]
    exact hP.pure [] p
  | succ k ih =>
    rw [statementList_eq hcloses]
    refine upto_current hP fun token => ?_
    split
    · exact upto_pure hP []
    · refine .bind hP (fun p hp => hP.recovered (upto_statement hP he p hp)) (steady_recovered steady_statement) ?_
      intro first
      refine upto_advance hP (.bind hP ?_ (steady_statementList closes) fun rest => upto_pure hP _)
      exact ih fun power => (he power).mono (Nat.le_succ k)

theorem upto_block : Upto @P (k + 1) (block expression) := by
  rw [block_eq]
  refine upto_current hP fun token => upto_advance hP ?_
  exact .bind hP (upto_statementList hP he rfl) (steady_statementList _) fun body => upto_pure hP _

theorem upto_items : Upto @P k items := by
  induction k with
  | zero =>
    rw [items_eq]
    refine .bind hP (he .lowest) (steady_expression _) fun item => ?_
    exact upto_accept_zero hP (by decide) (upto_pure hP _)
  | succ k ih =>
    rw [items_eq]
    refine .bind hP (he .lowest) (steady_expression _) fun item => upto_accept hP ?_ (upto_pure hP _)
    have hrest := ih fun power => (he power).mono (Nat.le_succ k)
    exact upto_advance_end hP (.bind hP hrest steady_items fun rest => upto_pure hP _)

theorem upto_expressionList (last : TokenKind) : Upto @P (k + 1) (expressionList expression last) := by
  rw [expressionList_eq]
  refine upto_accept hP (upto_pure hP _) (upto_advance hP ?_)
  refine .bind hP (upto_items hP he) steady_items fun list => ?_
  exact .bind hP (fun p _ => hP.expect last p) (steady_expect last) fun _ => upto_pure hP _

omit he in
theorem upto_names : Upto @P k names := by
  induction k with
  | zero =>
    rw [names_eq]
    refine .bind hP (fun p _ => hP.expect .ident p) (steady_expect .ident) fun _ => upto_current hP fun name => ?_
    exact upto_accept_zero hP (by decide) (upto_pure hP _)
  | succ k ih =>
    rw [names_eq]
    refine .bind hP (fun p _ => hP.expect .ident p) (steady_expect .ident) fun _ => upto_current hP fun name => ?_
    exact upto_accept hP (.bind hP ih steady_names fun rest => upto_pure hP _) (upto_pure hP _)

omit he in
theorem upto_parameters : Upto @P k parameters := by
  refine Upto.mono ?_ (Nat.le_succ k)
  rw [parameters_eq]
  refine upto_accept hP (upto_pure hP _) (.bind hP (upto_names hP) steady_names fun list => ?_)
  exact .bind hP (fun p _ => hP.expect .rparen p) (steady_expect .rparen) fun _ => upto_pure hP _

theorem upto_hashPair : Upto @P (k + 1) (hashPair expression) := by
  refine upto_advance hP (.bind hP (he .lowest) (steady_expression _) fun key => ?_)
  refine .bind hP (fun p _ => hP.expect .colon p) (steady_expect .colon) fun _ => ?_
  refine upto_advance_end hP (.bind hP (he .lowest) (steady_expression _) fun value => ?_)
  exact upto_pure hP _

theorem upto_pairs : Upto @P (k + 1) pairs := by
  have steady_hashPair : Steady (hashPair expression) :=
    steady_of_agrees fun k => (agrees_hashPair (agrees_expression k)).mono (Nat.le_succ k)
  have hround {j : Nat} (he : ∀ power, Upto @P j (expression power)) (hrest : Upto @P j pairs) :
      Upto @P (j + 1) pairs := by
    rw [pairs_eq]
    refine .bind hP (upto_hashPair hP he) steady_hashPair fun pair => upto_accept hP (upto_pure hP _) ?_
    exact upto_expect hP (.bind hP hrest steady_pairs fun rest => upto_pure hP _)
  induction k with
  | zero =>
    refine hround he ?_
    rw [pairs_eq]
    refine .bind hP ((upto_hashPair hP he).mono (Nat.zero_le 1)) steady_hashPair fun pair => ?_
    exact upto_accept_zero hP (by decide) (upto_expect_zero hP (by decide) _)
  | succ k ih => exact hround he (ih fun power => (he power).mono (Nat.le_succ k))

theorem upto_prefixExpression : Upto @P (k + 1) (prefixExpression expression) := by
  refine upto_current hP fun token => upto_advance hP ?_
  exact .bind hP (he .prefixed) (steady_expression _) fun right => upto_pure hP _

theorem upto_groupedExpression : Upto @P (k + 1) (groupedExpression expression) := by
  refine upto_advance hP (.bind hP (he .lowest) (steady_expression _) fun node => ?_)
  exact .bind hP (fun p _ => hP.expect .rparen p) (steady_expect .rparen) fun _ => upto_pure hP _

theorem upto_alternative : Upto @P (k + 1) (alternative expression) := by
  refine upto_accept hP ?_ (upto_pure hP _)
  refine .bind hP (fun p _ => hP.expect .lbrace p) (steady_expect .lbrace) fun _ => ?_
  exact (upto_block hP he).mono (Nat.le_succ k)

theorem upto_conditional : Upto @P (k + 1) (conditional expression) := by
  refine upto_current hP fun token => upto_expect hP (upto_advance_end hP ?_)
  refine .bind hP (he .lowest) (steady_expression _) fun condition => ?_
  refine .bind hP (fun p _ => hP.expect .rparen p) (steady_expect .rparen) fun _ => ?_
  refine .bind hP (fun p _ => hP.expect .lbrace p) (steady_expect .lbrace) fun _ => ?_
  refine .bind hP ((upto_block hP he).mono (Nat.le_succ k)) steady_block fun consequence => ?_
  refine .bind hP ((upto_alternative hP he).mono (Nat.le_succ k)) steady_alternative fun otherwise => ?_
  exact upto_pure hP _

theorem upto_functionLiteral : Upto @P (k + 1) (functionLiteral expression) := by
  refine upto_current hP fun token => upto_expect hP (.bind hP (upto_parameters hP) steady_parameters fun names => ?_)
  refine .bind hP (fun p _ => hP.expect .lbrace p) (steady_expect .lbrace) fun _ => ?_
  exact .bind hP ((upto_block hP he).mono (Nat.le_succ k)) steady_block fun body => upto_pure hP _

theorem upto_arrayLiteral : Upto @P (k + 1) (arrayLiteral expression) := by
  refine upto_current hP fun token => .bind hP (upto_expressionList hP he _) (steady_expressionList _) fun _ => ?_
  exact upto_pure hP _

theorem upto_hashLiteral : Upto @P (k + 1) (hashLiteral expression) := by
  rw [hashLiteral_eq]
  refine upto_current hP fun token => upto_accept hP (upto_pure hP _) ?_
  exact .bind hP (upto_pairs hP he) steady_pairs fun list => upto_pure hP _

/-- The rules that start an expression, each where a token of its kind is current. -/
theorem upto_prefixRule {kind : TokenKind} {rule : Rule Node} (h : prefixRule? expression kind = some rule)
    {p : Parser} (hkind : p.current.kind = kind) (hp : p.tokens.length ≤ k + 1) : P rule p := by
  have hcurrent (f : Token → Node) : P (do return f (← current)) p :=
    upto_current hP (fun token => upto_pure hP (f token)) p hp
  cases kind
  case ident => cases h; exact hcurrent fun token => .identifier (.ofToken token)
  case int =>
    cases h
    refine hP.bind (hP.current p) fun token q hrun => ?_
    obtain ⟨rfl, rfl⟩ := EStateM.Result.ok.inj hrun
    split
    · exact hP.pure _ p
    next hvalue => exact hP.fail ⟨hkind, rfl, hvalue⟩
  case string => cases h; exact hcurrent fun token => .string token token.literal
  case trueKw | falseKw => cases h; exact hcurrent fun token => .boolean token (token.kind = .trueKw)
  case bang | minus => cases h; exact upto_prefixExpression hP he p hp
  case lparen => cases h; exact upto_groupedExpression hP he p hp
  case ifKw => cases h; exact upto_conditional hP he p hp
  case functionKw => cases h; exact upto_functionLiteral hP he p hp
  case lbracket => cases h; exact upto_arrayLiteral hP he p hp
  case lbrace => cases h; exact upto_hashLiteral hP he p hp
  all_goals cases h

theorem upto_infixRule {kind : TokenKind} {rule : Node → Rule Node} (h : infixRule? expression kind = some rule)
    (left : Node) : Upto @P (k + 1) (rule left) := by
  have hbinary : Upto @P (k + 1) (binaryExpression expression left) := by
    refine upto_current hP fun token => upto_advance hP (.bind hP (he _) (steady_expression _) fun right => ?_)
    exact upto_pure hP _
  have hcall : Upto @P (k + 1) (callExpression expression left) := by
    refine upto_current hP fun token => .bind hP (upto_expressionList hP he _) (steady_expressionList _) fun _ => ?_
    exact upto_pure hP _
  have hindex : Upto @P (k + 1) (indexExpression expression left) := by
    refine upto_current hP fun token => upto_advance hP (.bind hP (he .lowest) (steady_expression _) fun _ => ?_)
    exact .bind hP (fun p _ => hP.expect .rbracket p) (steady_expect .rbracket) fun _ => upto_pure hP _
  cases kind
  case plus | minus | slash | asterisk | eq | notEq | lt | gt => cases h; exact hbinary
  case lparen => cases h; exact hcall
  case lbracket => cases h; exact hindex
  all_goals cases h

theorem upto_extended (power : Precedence) (left : Node) (hj : j ≤ k + 1) : Upto @P j (extended power left) := by
  induction j generalizing left with
  | zero =>
    intro p hp
    rw [extended_eq]
    refine hP.bind (hP.peekKind p) fun next q hrun => ?_
    obtain ⟨rfl, rfl⟩ := EStateM.Result.ok.inj hrun
    rw [peek_kind_of_nil (tokens_eq_nil_of_length_le hp), if_neg]
    · exact hP.pure left p
    · rintro ⟨-, hrank⟩
      exact absurd (rank_pos power) (Nat.not_lt.mpr (Nat.le_of_lt_succ hrank))
  | succ j ih =>
    rw [extended_eq]
    refine upto_peekKind hP fun next => ?_
    split
    · cases hrule : infixRule? expression next with
      | none => exact upto_pure hP _
      | some rule =>
        have hj' := Nat.le_of_succ_le hj
        refine upto_advance hP (.bind hP ((upto_infixRule hP he hrule left).mono hj') (steady_infixRule hrule left) ?_)
        exact fun longer => ih longer hj'
    · exact upto_pure hP _

end Parts

/-! ### All rules -/

theorem upto_expression (k : Nat) (power : Precedence) : Upto @P k (expression power) := by
  induction k generalizing power with
  | zero =>
    intro p hp
    have hkind := current_kind_of_nil (tokens_eq_nil_of_length_le hp)
    rw [expression_eq_start]
    refine hP.bind (hP.current p) fun token q hrun => ?_
    obtain ⟨rfl, rfl⟩ := EStateM.Result.ok.inj hrun
    rw [hkind]
    exact hP.fail ⟨hkind, rfl⟩
  | succ k ih =>
    intro p hp
    rw [expression_eq_start]
    refine hP.bind (hP.current p) fun token q hrun => ?_
    obtain ⟨rfl, rfl⟩ := EStateM.Result.ok.inj hrun
    cases hrule : prefixRule? expression p.current.kind with
    | none => exact hP.fail ⟨rfl, hrule⟩
    | some rule =>
      refine hP.bind (upto_prefixRule hP ih hrule rfl hp) fun left q hrun => ?_
      have hq := ((steady_prefixRule hrule).ahead_of_ok hrun).length_le
      exact upto_extended hP ih power left (Nat.le_refl (k + 1)) q (Nat.le_trans hq hp)

theorem Composable.expression (power : Precedence) (p : Parser) : P (expression power) p :=
  upto_expression hP p.tokens.length power p (Nat.le_refl _)

theorem Composable.letStatement (p : Parser) : P (letStatement Rule.expression) p :=
  upto_letStatement hP (upto_expression hP _) p (Nat.le_succ _)

theorem Composable.returnStatement (p : Parser) : P (returnStatement Rule.expression) p :=
  upto_returnStatement hP (upto_expression hP _) p (Nat.le_succ _)

theorem Composable.expressionStatement (p : Parser) : P (expressionStatement Rule.expression) p :=
  upto_expressionStatement hP (upto_expression hP _) p (Nat.le_refl _)

theorem Composable.statement (p : Parser) : P (statement Rule.expression) p :=
  upto_statement hP (upto_expression hP _) p (Nat.le_refl _)

theorem Composable.block (p : Parser) : P (block Rule.expression) p :=
  upto_block hP (upto_expression hP _) p (Nat.le_succ _)

theorem Composable.prefixRule {p : Parser} {rule : Rule Node}
    (h : prefixRule? Rule.expression p.current.kind = some rule) : P rule p :=
  upto_prefixRule hP (upto_expression hP _) h rfl (Nat.le_succ _)

theorem Composable.infixRule {kind : TokenKind} {rule : Node → Rule Node}
    (h : infixRule? Rule.expression kind = some rule) (left : Node) (p : Parser) : P (rule left) p :=
  upto_infixRule hP (upto_expression hP _) h left p (Nat.le_succ _)

end

end Rule

end Monkey
