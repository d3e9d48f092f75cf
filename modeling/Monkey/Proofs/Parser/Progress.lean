import Monkey.Parser.Program

/-!
# How parse rules move

A parse rule moves the parser forward and in no other way: what is left to read becomes a suffix of
itself, and errors are only added. Two facts rest on this and are proved together, because each rule
needs both of its sub-expressions.

* `Rule.Steady`: a rule only moves forward, whether it succeeds or fails.
* `Rule.Agrees`: two rules give the same answer from every place with at most so many tokens left. A
  construct takes a token before it asks for an expression, so the rules for `k + 1` tokens agree as
  soon as the expressions inside them agree for `k`.
-/

namespace Monkey

/-! ### Places in the token list -/

namespace Parser

/-- `p.Ahead q` says that `q` is `p` moved on: a suffix of its tokens, and perhaps more errors. -/
structure Ahead (p q : Parser) : Prop where
  tokens : q.tokens <:+ p.tokens
  errors : p.errors <+: q.errors
  endLine : q.endLine = p.endLine
  endColumn : q.endColumn = p.endColumn

theorem Ahead.refl (p : Parser) : p.Ahead p :=
  ⟨List.suffix_rfl, List.prefix_rfl, rfl, rfl⟩

theorem Ahead.trans {p q r : Parser} (h₁ : p.Ahead q) (h₂ : q.Ahead r) : p.Ahead r :=
  ⟨h₂.tokens.trans h₁.tokens, h₁.errors.trans h₂.errors, h₂.endLine.trans h₁.endLine,
    h₂.endColumn.trans h₁.endColumn⟩

theorem Ahead.length_le {p q : Parser} (h : p.Ahead q) : q.tokens.length ≤ p.tokens.length :=
  h.tokens.length_le

theorem ahead_advance (p : Parser) : p.Ahead p.advance :=
  ⟨List.tail_suffix _, List.prefix_rfl, rfl, rfl⟩

theorem ahead_record (p : Parser) (error : ParseError) : p.Ahead (p.record error) :=
  ⟨List.suffix_rfl, List.prefix_append _ _, rfl, rfl⟩

@[simp] theorem advance_tokens (p : Parser) : p.advance.tokens = p.tokens.tail := rfl

theorem peek_eq (p : Parser) : p.peek = p.advance.current := rfl

end Parser

namespace Rule

variable {α β : Type}

/-! ### Running the steps of a rule -/

@[simp] theorem current_run (p : Parser) : current p = .ok p.current p := rfl

@[simp] theorem peekKind_run (p : Parser) : peekKind p = .ok p.peek.kind p := rfl

@[simp] theorem advance_run (p : Parser) : advance p = .ok () p.advance := rfl

@[simp] theorem get_run (p : Parser) : (get : Rule Parser) p = .ok p p := rfl

@[simp] theorem pure_run (a : α) (p : Parser) : (pure a : Rule α) p = .ok a p := rfl

@[simp] theorem throw_run (error : ParseError) (p : Parser) :
    (throw error : Rule α) p = .error error p := rfl

theorem expect_run (wanted : TokenKind) (p : Parser) :
    expect wanted p = if p.peek.kind = wanted then .ok () p.advance
      else .error (.unexpected wanted p.peek.kind) p := by
  simp only [expect, bind, EStateM.bind, peekKind_run]
  split <;> rfl

theorem accept_run (kind : TokenKind) (p : Parser) :
    accept kind p = if p.peek.kind = kind then .ok true p.advance else .ok false p := by
  simp only [accept, bind, EStateM.bind, peekKind_run]
  split <;> rfl

theorem bind_run (x : Rule α) (f : α → Rule β) (p : Parser) :
    (x >>= f) p = match x p with
      | .ok a q => f a q
      | .error failure q => .error failure q := by
  simp only [bind, EStateM.bind]
  cases x p <;> rfl

/-- The parser a rule leaves behind, whether it succeeds or fails. -/
def after (rule : Rule α) (p : Parser) : Parser :=
  match rule p with
  | .ok _ q => q
  | .error _ q => q

/-! ### Rules that agree -/

/-- Two rules that give the same answer from every place with at most `k` tokens left, and move
    forward only. -/
def Agrees (k : Nat) (rule rule' : Rule α) : Prop :=
  ∀ p : Parser, p.tokens.length ≤ k → rule p = rule' p ∧ p.Ahead (rule.after p)

/-- A rule that moves forward only. -/
def Steady (rule : Rule α) : Prop :=
  ∀ p : Parser, p.Ahead (rule.after p)

theorem Agrees.mono {j k : Nat} {rule rule' : Rule α} (hjk : j ≤ k) (h : Agrees k rule rule') :
    Agrees j rule rule' :=
  fun p hp => h p (Nat.le_trans hp hjk)

theorem Steady.agrees {rule : Rule α} (h : Steady rule) (k : Nat) : Agrees k rule rule :=
  fun p _ => ⟨rfl, h p⟩

theorem steady_of_agrees {rule : Rule α} (h : ∀ k, Agrees k rule rule) : Steady rule :=
  fun p => (h p.tokens.length p (Nat.le_refl _)).2

theorem Agrees.symm {k : Nat} {rule rule' : Rule α} (h : Agrees k rule rule') :
    Agrees k rule' rule := by
  intro p hp
  obtain ⟨heq, hahead⟩ := h p hp
  exact ⟨heq.symm, by simpa only [after, heq] using hahead⟩

theorem Agrees.trans {k : Nat} {a b c : Rule α} (h₁ : Agrees k a b) (h₂ : Agrees k b c) :
    Agrees k a c :=
  fun p hp => ⟨(h₁ p hp).1.trans (h₂ p hp).1, (h₁ p hp).2⟩

theorem Steady.ahead_of_ok {rule : Rule α} (h : Steady rule) {p q : Parser} {a : α}
    (hrun : rule p = .ok a q) : p.Ahead q := by
  simpa only [after, hrun] using h p

theorem Steady.ahead_of_error {rule : Rule α} (h : Steady rule) {p q : Parser}
    {failure : ParseError} (hrun : rule p = .error failure q) : p.Ahead q := by
  simpa only [after, hrun] using h p

theorem steady_pure (a : α) : Steady (pure a : Rule α) :=
  fun p => .refl p

theorem steady_throw (failure : ParseError) : Steady (throw failure : Rule α) :=
  fun p => .refl p

theorem Agrees.bind {k : Nat} {x x' : Rule α} {f f' : α → Rule β} (hx : Agrees k x x')
    (hf : ∀ a, Agrees k (f a) (f' a)) : Agrees k (x >>= f) (x' >>= f') := by
  intro p hp
  obtain ⟨heq, hahead⟩ := hx p hp
  cases hrun : x p with
  | ok a q =>
    have hq : p.Ahead q := by simpa only [after, hrun] using hahead
    obtain ⟨heq', hahead'⟩ := hf a q (Nat.le_trans hq.length_le hp)
    have hrun' : x' p = .ok a q := heq ▸ hrun
    refine ⟨by simp only [bind_run, hrun, hrun', heq'], ?_⟩
    have : (x >>= f).after p = (f a).after q := by simp only [after, bind_run, hrun]
    rw [this]
    exact hq.trans hahead'
  | error failure q =>
    have hq : p.Ahead q := by simpa only [after, hrun] using hahead
    have hrun' : x' p = .error failure q := heq ▸ hrun
    exact ⟨by simp only [bind_run, hrun, hrun'], by simpa only [after, bind_run, hrun] using hq⟩

/-- A step that only looks: it succeeds and leaves the parser where it is. -/
def Looks (x : Rule α) : Prop :=
  ∀ p, ∃ a, x p = .ok a p

/-- A step that moves on by exactly one token where it succeeds, and not at all where it fails. -/
def Steps (x : Rule α) : Prop :=
  ∀ p, (∃ a, x p = .ok a p.advance) ∨ ∃ failure, x p = .error failure p

theorem looks_current : Looks current := fun p => ⟨p.current, rfl⟩

theorem looks_peekKind : Looks peekKind := fun p => ⟨p.peek.kind, rfl⟩

theorem looks_get : Looks (get : Rule Parser) := fun p => ⟨p, rfl⟩

theorem steps_advance : Steps advance := fun _ => .inl ⟨(), rfl⟩

theorem steps_expect (wanted : TokenKind) : Steps (expect wanted) := by
  intro p
  rw [expect_run]
  split
  · exact .inl ⟨(), rfl⟩
  · exact .inr ⟨_, rfl⟩

theorem Looks.bind {k : Nat} {x : Rule α} {f f' : α → Rule β} (hx : Looks x)
    (hf : ∀ a, Agrees k (f a) (f' a)) : Agrees k (x >>= f) (x >>= f') := by
  refine Agrees.bind (Steady.agrees (fun p => ?_) k) hf
  obtain ⟨a, hrun⟩ := hx p
  simpa only [after, hrun] using Parser.Ahead.refl p

theorem length_advance_le {k : Nat} {p : Parser} (hp : p.tokens.length ≤ k + 1) :
    p.advance.tokens.length ≤ k := by
  simp only [Parser.advance_tokens, List.length_tail]
  omega

theorem Steps.bind {k : Nat} {x : Rule α} {f f' : α → Rule β} (hx : Steps x)
    (hf : ∀ a, Agrees k (f a) (f' a)) : Agrees (k + 1) (x >>= f) (x >>= f') := by
  intro p hp
  obtain ⟨a, hrun⟩ | ⟨failure, hrun⟩ := hx p
  · obtain ⟨heq, hahead⟩ := hf a p.advance (length_advance_le hp)
    refine ⟨by simp only [bind_run, hrun, heq], ?_⟩
    have : (x >>= f).after p = (f a).after p.advance := by simp only [after, bind_run, hrun]
    rw [this]
    exact p.ahead_advance.trans hahead
  · exact ⟨by simp only [bind_run, hrun],
      by simpa only [after, bind_run, hrun] using Parser.Ahead.refl p⟩

theorem steady_advance : Steady advance :=
  fun p => p.ahead_advance

theorem steady_accept (kind : TokenKind) : Steady (accept kind) := by
  intro p
  by_cases h : p.peek.kind = kind
  · simpa only [after, accept_run, if_pos h] using p.ahead_advance
  · simpa only [after, accept_run, if_neg h] using Parser.Ahead.refl p

theorem steady_expect (wanted : TokenKind) : Steady (expect wanted) := by
  intro p
  by_cases h : p.peek.kind = wanted
  · simpa only [after, expect_run, if_pos h] using p.ahead_advance
  · simpa only [after, expect_run, if_neg h] using Parser.Ahead.refl p

theorem Agrees.accept {k : Nat} {kind : TokenKind} {yes yes' no no' : Rule β}
    (hyes : Agrees k yes yes') (hno : Agrees (k + 1) no no') :
    Agrees (k + 1) (accept kind >>= fun found => if found = true then yes else no)
      (accept kind >>= fun found => if found = true then yes' else no') := by
  intro p hp
  by_cases hkind : p.peek.kind = kind
  · obtain ⟨heq, hahead⟩ := hyes p.advance (length_advance_le hp)
    simp only [after, bind_run, accept_run, hkind, if_true] at hahead ⊢
    exact ⟨heq, p.ahead_advance.trans hahead⟩
  · obtain ⟨heq, hahead⟩ := hno p hp
    simp only [after, bind_run, accept_run, hkind, if_false, Bool.false_eq_true] at hahead ⊢
    exact ⟨heq, hahead⟩

theorem steady_integerLiteral : Steady integerLiteral := by
  refine steady_of_agrees fun k => looks_current.bind fun token => ?_
  split
  · exact (steady_pure _).agrees k
  · exact (steady_throw _).agrees k

/-! ### The rules for constructs

Every rule agrees with itself under two rules for expressions that agree. The bound grows by one where
a rule takes a token before it reads its first expression. -/

section Open

variable {k : Nat} {expr expr' : Precedence → Rule Node}
  (he : ∀ power, Agrees k (expr power) (expr' power))

include he

theorem agrees_letStatement : Agrees (k + 1) (letStatement expr) (letStatement expr') := by
  unfold letStatement
  refine looks_current.bind fun token => (steps_expect .ident).bind fun _ => ?_
  refine looks_current.bind fun target => .bind ((steady_expect .assign).agrees k) fun _ => ?_
  refine .bind (steady_advance.agrees k) fun _ => .bind (he .lowest) fun value => ?_
  exact .bind ((steady_accept .semicolon).agrees k) fun _ => (steady_pure _).agrees k

theorem agrees_returnStatement : Agrees (k + 1) (returnStatement expr) (returnStatement expr') := by
  unfold returnStatement
  refine looks_current.bind fun token => steps_advance.bind fun _ => .bind (he .lowest) fun value => ?_
  exact .bind ((steady_accept .semicolon).agrees k) fun _ => (steady_pure _).agrees k

theorem agrees_expressionStatement : Agrees k (expressionStatement expr) (expressionStatement expr') := by
  unfold expressionStatement
  refine looks_current.bind fun token => .bind (he .lowest) fun expression => ?_
  exact .bind ((steady_accept .semicolon).agrees k) fun _ => (steady_pure _).agrees k

theorem agrees_statement : Agrees k (statement expr) (statement expr') := by
  unfold statement
  apply looks_current.bind
  intro token
  split
  · exact (agrees_letStatement he).mono (Nat.le_succ k)
  · exact (agrees_returnStatement he).mono (Nat.le_succ k)
  · exact agrees_expressionStatement he

/-- Sequences of statements agree, and end at a place further on. -/
theorem agrees_statementsWithin (closes : TokenKind → Bool) (fuel : Nat) (p : Parser)
    (hp : p.tokens.length ≤ k) :
    statementsWithin expr closes fuel p = statementsWithin expr' closes fuel p ∧
      p.Ahead (statementsWithin expr closes fuel p).2 := by
  induction fuel generalizing p with
  | zero => exact ⟨rfl, .refl p⟩
  | succ fuel ih =>
    simp only [statementsWithin]
    split
    · exact ⟨rfl, .refl p⟩
    · obtain ⟨heq, hahead⟩ := agrees_statement he p hp
      rw [← heq]
      cases hrun : statement expr p with
      | ok node behind =>
        have hbehind : p.Ahead behind.advance := by
          simp only [after, hrun] at hahead
          exact hahead.trans behind.ahead_advance
        obtain ⟨hrest, hlast⟩ := ih behind.advance (Nat.le_trans hbehind.length_le hp)
        simp only [hrest]
        exact ⟨trivial, hbehind.trans (hrest ▸ hlast)⟩
      | error failure behind =>
        have hbehind : p.Ahead (behind.record failure).advance := by
          simp only [after, hrun] at hahead
          exact (hahead.trans (behind.ahead_record failure)).trans (Parser.ahead_advance _)
        obtain ⟨hrest, hlast⟩ := ih _ (Nat.le_trans hbehind.length_le hp)
        exact ⟨hrest, hbehind.trans hlast⟩

theorem agrees_block : Agrees (k + 1) (block expr) (block expr') := by
  intro p hp
  obtain ⟨heq, hahead⟩ := agrees_statementsWithin he closesBlock p.advance.tokens.length p.advance
    (length_advance_le hp)
  refine ⟨by simp only [block, statements, heq], ?_⟩
  exact p.ahead_advance.trans hahead

theorem agrees_moreExpressions (fuel : Nat) :
    Agrees (k + 1) (moreExpressions expr fuel) (moreExpressions expr' fuel) := by
  induction fuel with
  | zero => exact (steady_pure _).agrees _
  | succ fuel ih =>
    refine .accept ?_ ((steady_pure _).agrees _)
    refine .bind (steady_advance.agrees k) fun _ => .bind (he .lowest) fun item => ?_
    exact .bind (ih.mono (Nat.le_succ k)) fun rest => (steady_pure _).agrees k

theorem agrees_expressionList (last : TokenKind) :
    Agrees (k + 1) (expressionList expr last) (expressionList expr' last) := by
  refine .accept ((steady_pure _).agrees _) ?_
  refine steps_advance.bind fun _ => .bind (he .lowest) fun item => looks_get.bind fun p => ?_
  refine .bind ((agrees_moreExpressions he _).mono (Nat.le_succ k)) fun rest => ?_
  exact .bind ((steady_expect last).agrees k) fun _ => (steady_pure _).agrees k

theorem agrees_hashPair : Agrees (k + 1) (hashPair expr) (hashPair expr') := by
  unfold hashPair
  refine steps_advance.bind fun _ => .bind (he .lowest) fun key => ?_
  refine .bind ((steady_expect .colon).agrees k) fun _ => ?_
  refine .bind (steady_advance.agrees k) fun _ => .bind (he .lowest) fun value => ?_
  exact (steady_pure _).agrees k

theorem agrees_hashPairs (fuel : Nat) :
    Agrees (k + 1) (hashPairs expr fuel) (hashPairs expr' fuel) := by
  induction fuel with
  | zero => exact (steady_pure _).agrees _
  | succ fuel ih =>
    refine .bind (agrees_hashPair he) fun pair => .accept ((steady_pure _).agrees _) ?_
    refine .bind ((steady_expect .comma).agrees _) fun _ => .bind ih fun rest => ?_
    exact (steady_pure _).agrees _

theorem agrees_prefixExpression :
    Agrees (k + 1) (prefixExpression expr) (prefixExpression expr') := by
  unfold prefixExpression
  refine looks_current.bind fun token => steps_advance.bind fun _ => .bind (he _) fun right => ?_
  exact (steady_pure _).agrees k

theorem agrees_groupedExpression :
    Agrees (k + 1) (groupedExpression expr) (groupedExpression expr') := by
  unfold groupedExpression
  refine steps_advance.bind fun _ => .bind (he _) fun expression => ?_
  exact .bind ((steady_expect .rparen).agrees k) fun _ => (steady_pure _).agrees k

theorem agrees_alternative : Agrees (k + 1) (alternative expr) (alternative expr') := by
  refine .accept ?_ ((steady_pure _).agrees _)
  exact .bind ((steady_expect .lbrace).agrees k) fun _ => (agrees_block he).mono (Nat.le_succ k)

theorem agrees_conditional : Agrees (k + 1) (conditional expr) (conditional expr') := by
  unfold conditional
  refine looks_current.bind fun token => (steps_expect .lparen).bind fun _ => ?_
  refine .bind (steady_advance.agrees k) fun _ => .bind (he _) fun condition => ?_
  refine .bind ((steady_expect .rparen).agrees k) fun _ => ?_
  refine .bind ((steady_expect .lbrace).agrees k) fun _ => ?_
  refine .bind ((agrees_block he).mono (Nat.le_succ k)) fun consequence => ?_
  exact .bind ((agrees_alternative he).mono (Nat.le_succ k)) fun _ => (steady_pure _).agrees k

omit he in
theorem steady_moreParameters (fuel : Nat) : Steady (moreParameters fuel) := by
  apply steady_of_agrees
  intro k
  induction fuel generalizing k with
  | zero => exact (steady_pure _).agrees k
  | succ fuel ih =>
    refine Agrees.mono (Nat.le_succ k) (.accept ?_ ((steady_pure _).agrees _))
    refine .bind ((steady_expect .ident).agrees k) fun _ => looks_current.bind fun name => ?_
    exact .bind (ih k) fun rest => (steady_pure _).agrees k

omit he in
theorem steady_parameters : Steady parameters := by
  refine steady_of_agrees fun k => Agrees.mono (Nat.le_succ k) (.accept ((steady_pure _).agrees _) ?_)
  refine .bind ((steady_expect .ident).agrees _) fun _ => looks_current.bind fun name => ?_
  refine looks_get.bind fun p => .bind ((steady_moreParameters _).agrees _) fun rest => ?_
  exact .bind ((steady_expect .rparen).agrees _) fun _ => (steady_pure _).agrees _

theorem agrees_functionLiteral : Agrees (k + 1) (functionLiteral expr) (functionLiteral expr') := by
  unfold functionLiteral
  refine looks_current.bind fun token => (steps_expect .lparen).bind fun _ => ?_
  refine .bind (steady_parameters.agrees k) fun names => ?_
  refine .bind ((steady_expect .lbrace).agrees k) fun _ => ?_
  exact .bind ((agrees_block he).mono (Nat.le_succ k)) fun body => (steady_pure _).agrees k

theorem agrees_arrayLiteral : Agrees (k + 1) (arrayLiteral expr) (arrayLiteral expr') := by
  unfold arrayLiteral
  refine looks_current.bind fun token => .bind (agrees_expressionList he _) fun elements => ?_
  exact (steady_pure _).agrees _

theorem agrees_hashLiteral : Agrees (k + 1) (hashLiteral expr) (hashLiteral expr') := by
  unfold hashLiteral
  refine looks_current.bind fun token => .accept ((steady_pure _).agrees _) ?_
  refine looks_get.bind fun p => .bind (agrees_hashPairs he _) fun pairs => ?_
  exact (steady_pure _).agrees _

theorem agrees_binaryExpression (left : Node) :
    Agrees (k + 1) (binaryExpression expr left) (binaryExpression expr' left) := by
  unfold binaryExpression
  refine looks_current.bind fun token => steps_advance.bind fun _ => .bind (he _) fun right => ?_
  exact (steady_pure _).agrees k

theorem agrees_callExpression (callee : Node) :
    Agrees (k + 1) (callExpression expr callee) (callExpression expr' callee) := by
  unfold callExpression
  refine looks_current.bind fun token => .bind (agrees_expressionList he _) fun arguments => ?_
  exact (steady_pure _).agrees _

theorem agrees_indexExpression (left : Node) :
    Agrees (k + 1) (indexExpression expr left) (indexExpression expr' left) := by
  unfold indexExpression
  refine looks_current.bind fun token => steps_advance.bind fun _ => .bind (he _) fun subscript => ?_
  exact .bind ((steady_expect .rbracket).agrees k) fun _ => (steady_pure _).agrees k

/-- Both kinds of token have a rule, and these agree, or neither has one. -/
theorem agrees_prefixRule? (kind : TokenKind) :
    (prefixRule? expr kind = none ∧ prefixRule? expr' kind = none) ∨
    ∃ rule rule', prefixRule? expr kind = some rule ∧ prefixRule? expr' kind = some rule' ∧
      Agrees (k + 1) rule rule' := by
  have steady_identifier : Steady identifier := fun p => .refl p
  have steady_string : Steady stringLiteral := fun p => .refl p
  have steady_boolean : Steady booleanLiteral := fun p => .refl p
  cases kind
  case ident => exact .inr ⟨_, _, rfl, rfl, steady_identifier.agrees _⟩
  case int => exact .inr ⟨_, _, rfl, rfl, steady_integerLiteral.agrees _⟩
  case string => exact .inr ⟨_, _, rfl, rfl, steady_string.agrees _⟩
  case trueKw | falseKw => exact .inr ⟨_, _, rfl, rfl, steady_boolean.agrees _⟩
  case bang | minus => exact .inr ⟨_, _, rfl, rfl, agrees_prefixExpression he⟩
  case lparen => exact .inr ⟨_, _, rfl, rfl, agrees_groupedExpression he⟩
  case ifKw => exact .inr ⟨_, _, rfl, rfl, agrees_conditional he⟩
  case functionKw => exact .inr ⟨_, _, rfl, rfl, agrees_functionLiteral he⟩
  case lbracket => exact .inr ⟨_, _, rfl, rfl, agrees_arrayLiteral he⟩
  case lbrace => exact .inr ⟨_, _, rfl, rfl, agrees_hashLiteral he⟩
  all_goals exact .inl ⟨rfl, rfl⟩

theorem agrees_infixRule? (kind : TokenKind) :
    (infixRule? expr kind = none ∧ infixRule? expr' kind = none) ∨
    ∃ rule rule', infixRule? expr kind = some rule ∧ infixRule? expr' kind = some rule' ∧
      ∀ left, Agrees (k + 1) (rule left) (rule' left) := by
  cases kind
  case plus | minus | slash | asterisk | eq | notEq | lt | gt =>
    exact .inr ⟨_, _, rfl, rfl, agrees_binaryExpression he⟩
  case lparen => exact .inr ⟨_, _, rfl, rfl, agrees_callExpression he⟩
  case lbracket => exact .inr ⟨_, _, rfl, rfl, agrees_indexExpression he⟩
  all_goals exact .inl ⟨rfl, rfl⟩

theorem agrees_continued (power : Precedence) (fuel : Nat) (left : Node) :
    Agrees (k + 1) (continued expr power fuel left) (continued expr' power fuel left) := by
  induction fuel generalizing left with
  | zero => exact (steady_pure _).agrees _
  | succ fuel ih =>
    apply looks_peekKind.bind
    intro next
    split
    · obtain ⟨h, h'⟩ | ⟨rule, rule', h, h', hrule⟩ := agrees_infixRule? he next
      · simp only [h, h']
        exact (steady_pure _).agrees _
      · simp only [h, h']
        exact .bind (steady_advance.agrees _) fun _ => .bind (hrule left) fun longer => ih longer
    · exact (steady_pure _).agrees _

theorem agrees_expressionWith (power : Precedence) :
    Agrees (k + 1) (expressionWith expr power) (expressionWith expr' power) := by
  apply looks_current.bind
  intro token
  obtain ⟨h, h'⟩ | ⟨rule, rule', h, h', hrule⟩ := agrees_prefixRule? he token.kind
  · simp only [h, h']
    exact (steady_throw _).agrees _
  · simp only [h, h']
    exact .bind hrule fun left => looks_get.bind fun p => agrees_continued he power _ left

end Open

end Rule

end Monkey
