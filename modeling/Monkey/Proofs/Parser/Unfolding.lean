import Monkey.Proofs.Parser.Progress

/-!
# Parse rules without bounds

The rules that repeat or nest take a bound, which is the number of tokens that are left. It is never
reached, because each round takes a token. So every such rule satisfies an equation in which no bound
occurs, and these equations are what the theory of the parser is built on:

* `Rule.expression_eq`: an expression is the open rule applied to itself;
* `Rule.extended_eq`, `Rule.items_eq`, `Rule.names_eq`, `Rule.pairs_eq`: the loops inside an
  expression;
* `Rule.statements_eq`: a sequence of statements.
-/

namespace Monkey.Rule

variable {α : Type}

/-! ### Closing a bounded rule -/

/-- A rule with a bound, applied to the number of tokens left. -/
def closed (loop : Nat → Rule α) : Rule α := fun p =>
  loop p.tokens.length p

/-- A bound that the tokens left do not exceed makes no difference. -/
def Bounded (loop : Nat → Rule α) : Prop :=
  ∀ k fuel fuel', k ≤ fuel → k ≤ fuel' → Agrees k (loop fuel) (loop fuel')

theorem Bounded.agrees_closed {loop : Nat → Rule α} (h : Bounded loop) {k fuel : Nat}
    (hk : k ≤ fuel) : Agrees k (loop fuel) (closed loop) := by
  intro p hp
  exact h _ _ _ (Nat.le_trans hp hk) (Nat.le_refl p.tokens.length) p (Nat.le_refl _)

theorem Bounded.steady_closed {loop : Nat → Rule α} (h : Bounded loop) : Steady (closed loop) :=
  steady_of_agrees fun _ =>
    (h.agrees_closed (Nat.le_refl _)).symm.trans (h.agrees_closed (Nat.le_refl _))

/-- A closed rule does what one more round does with the closed rule in the place of the rest. -/
theorem Bounded.closed_eq {loop : Nat → Rule α} (h : Bounded loop) {round : Rule α}
    (hround : ∀ k, Agrees (k + 1) (loop (k + 1)) round) : closed loop = round := by
  funext p
  have hone := (h.agrees_closed (Nat.le_succ p.tokens.length) p (Nat.le_refl _)).1
  rw [← hone]
  exact (hround p.tokens.length p (Nat.le_succ _)).1

theorem tokens_eq_nil_of_length_le {p : Parser} (hp : p.tokens.length ≤ 0) : p.tokens = [] :=
  List.eq_nil_of_length_eq_zero (Nat.le_zero.mp hp)

theorem current_kind_of_nil {p : Parser} (hp : p.tokens = []) : p.current.kind = .eof := by
  simp [Parser.current, Parser.endToken, hp]

theorem peek_kind_of_nil {p : Parser} (hp : p.tokens = []) : p.peek.kind = .eof := by
  simp [Parser.peek, Parser.endToken, hp]

theorem advance_of_nil {p : Parser} (hp : p.tokens = []) : p.advance = p := by
  cases p
  simp_all [Parser.advance]

/-- Rules agree at the end of the text if they give the same answer there and stay. -/
theorem agrees_zero {rule rule' : Rule α}
    (h : ∀ p : Parser, p.tokens = [] → rule p = rule' p ∧ rule.after p = p) : Agrees 0 rule rule' := by
  intro p hp
  obtain ⟨heq, hafter⟩ := h p (tokens_eq_nil_of_length_le hp)
  exact ⟨heq, by rw [hafter]; exact .refl p⟩

/-! ### Expressions -/

/-- At the end of the text there is no expression, however deep one may nest. -/
theorem expressionWithin_nil (depth : Nat) (power : Precedence) {p : Parser} (hp : p.tokens = []) :
    expressionWithin depth power p = .error (.noPrefixRule .eof) p := by
  cases depth with
  | zero => simp only [expressionWithin, bind_run, current_run, current_kind_of_nil hp, throw_run]
  | succ depth =>
    simp only [expressionWithin, expressionWith, bind_run, current_run, current_kind_of_nil hp,
      prefixRule?, throw_run]

theorem bounded_expressionWithin (power : Precedence) : Bounded (expressionWithin · power) := by
  intro k
  induction k generalizing power with
  | zero =>
    intro depth depth' _ _
    apply agrees_zero
    intro p hp
    simp only [after, expressionWithin_nil _ _ hp, and_self]
  | succ k ih =>
    intro depth depth' h h'
    obtain ⟨depth, rfl⟩ := Nat.exists_eq_add_of_le' (Nat.le_trans (Nat.le_add_left 1 k) h)
    obtain ⟨depth', rfl⟩ := Nat.exists_eq_add_of_le' (Nat.le_trans (Nat.le_add_left 1 k) h')
    exact agrees_expressionWith (fun power => ih power _ _ (by omega) (by omega)) power

theorem steady_expression (power : Precedence) : Steady (expression power) :=
  (bounded_expressionWithin power).steady_closed

/-- The rule for an expression is the open rule applied to itself. -/
theorem expression_eq (power : Precedence) : expression power = expressionWith expression power :=
  (bounded_expressionWithin power).closed_eq fun _ => agrees_expressionWith
    (fun power => (bounded_expressionWithin power).agrees_closed (Nat.le_refl _)) power

theorem agrees_expression (k : Nat) (power : Precedence) :
    Agrees k (expression power) (expression power) :=
  (steady_expression power).agrees k

/-! ### Loops inside an expression -/

def expressionTail : Rule (List Node) :=
  closed (moreExpressions expression)

def parameterTail : Rule (List Identifier) :=
  closed moreParameters

def pairs : Rule (List (Node × Node)) :=
  closed fun fuel => hashPairs expression (fuel + 1)

/-- What follows an expression and binds tighter than `power`, added to it. -/
def extended (power : Precedence) (left : Node) : Rule Node :=
  closed fun fuel => continued expression power fuel left

theorem accept_nil {kind : TokenKind} (hkind : kind ≠ .eof) {p : Parser} (hp : p.tokens = []) :
    accept kind p = .ok false p := by
  rw [accept_run, peek_kind_of_nil hp, if_neg (fun h => hkind h.symm)]

theorem bounded_moreExpressions : Bounded (moreExpressions expression) := by
  intro k
  induction k with
  | zero =>
    have hnil : ∀ fuel {p : Parser}, p.tokens = [] → moreExpressions expression fuel p = .ok [] p := by
      intro fuel p hp
      cases fuel with
      | zero => rfl
      | succ fuel =>
        have hcomma : accept .comma p = .ok false p := accept_nil (by decide) hp
        simp [moreExpressions, bind_run, hcomma]
    intro fuel fuel' _ _
    apply agrees_zero
    intro p hp
    simp only [after, hnil _ hp, and_self]
  | succ k ih =>
    intro fuel fuel' h h'
    obtain ⟨fuel, rfl⟩ := Nat.exists_eq_add_of_le' (Nat.le_trans (Nat.le_add_left 1 k) h)
    obtain ⟨fuel', rfl⟩ := Nat.exists_eq_add_of_le' (Nat.le_trans (Nat.le_add_left 1 k) h')
    refine .accept ?_ ((steady_pure _).agrees _)
    refine .bind (steady_advance.agrees k) fun _ => .bind (agrees_expression k _) fun item => ?_
    exact .bind (ih _ _ (by omega) (by omega)) fun rest => (steady_pure _).agrees k

theorem expressionTail_eq : expressionTail = (do
    if ← accept .comma then
      advance
      let item ← expression .lowest
      return item :: (← expressionTail)
    else
      return []) := by
  refine bounded_moreExpressions.closed_eq fun k => .accept ?_ ((steady_pure _).agrees _)
  refine .bind (steady_advance.agrees k) fun _ => .bind (agrees_expression k _) fun item => ?_
  refine .bind (bounded_moreExpressions.agrees_closed (Nat.le_refl k)) fun rest => ?_
  exact (steady_pure _).agrees k

theorem bounded_moreParameters : Bounded moreParameters := by
  intro k
  induction k with
  | zero =>
    have hnil : ∀ fuel {p : Parser}, p.tokens = [] → moreParameters fuel p = .ok [] p := by
      intro fuel p hp
      cases fuel with
      | zero => rfl
      | succ fuel =>
        have hcomma : accept .comma p = .ok false p := accept_nil (by decide) hp
        simp [moreParameters, bind_run, hcomma]
    intro fuel fuel' _ _
    apply agrees_zero
    intro p hp
    simp only [after, hnil _ hp, and_self]
  | succ k ih =>
    intro fuel fuel' h h'
    obtain ⟨fuel, rfl⟩ := Nat.exists_eq_add_of_le' (Nat.le_trans (Nat.le_add_left 1 k) h)
    obtain ⟨fuel', rfl⟩ := Nat.exists_eq_add_of_le' (Nat.le_trans (Nat.le_add_left 1 k) h')
    refine .accept ?_ ((steady_pure _).agrees _)
    refine .bind ((steady_expect .ident).agrees k) fun _ => looks_current.bind fun name => ?_
    exact .bind (ih _ _ (by omega) (by omega)) fun rest => (steady_pure _).agrees k

theorem parameterTail_eq : parameterTail = (do
    if ← accept .comma then
      expect .ident
      let name ← current
      return .ofToken name :: (← parameterTail)
    else
      return []) := by
  refine bounded_moreParameters.closed_eq fun k => .accept ?_ ((steady_pure _).agrees _)
  refine .bind ((steady_expect .ident).agrees k) fun _ => looks_current.bind fun name => ?_
  refine .bind (bounded_moreParameters.agrees_closed (Nat.le_refl k)) fun rest => ?_
  exact (steady_pure _).agrees k

theorem bounded_hashPairs : Bounded fun fuel => hashPairs expression (fuel + 1) := by
  intro k
  induction k with
  | zero =>
    have hnil : ∀ fuel {p : Parser}, p.tokens = [] →
        hashPairs expression (fuel + 1) p = .error (.noPrefixRule .eof) p.advance := by
      intro fuel p hp
      have hadvance : p.advance.tokens = [] := by simp [hp]
      have hexpr : expression .lowest p.advance = .error (.noPrefixRule .eof) p.advance :=
        expressionWithin_nil _ _ hadvance
      simp only [hashPairs, hashPair, bind_run, advance_run, hexpr]
    intro fuel fuel' _ _
    apply agrees_zero
    intro p hp
    have hstay : p.advance = p := advance_of_nil hp
    simp only [after, hnil _ hp, hstay, and_self]
  | succ k ih =>
    intro fuel fuel' h h'
    obtain ⟨fuel, rfl⟩ := Nat.exists_eq_add_of_le' (Nat.le_trans (Nat.le_add_left 1 k) h)
    obtain ⟨fuel', rfl⟩ := Nat.exists_eq_add_of_le' (Nat.le_trans (Nat.le_add_left 1 k) h')
    refine .bind (agrees_hashPair (agrees_expression k)) fun pair => ?_
    refine .accept ((steady_pure _).agrees _) ((steps_expect .comma).bind fun _ => ?_)
    exact .bind (ih _ _ (by omega) (by omega)) fun rest => (steady_pure _).agrees k

theorem pairs_eq : pairs = (do
    let pair ← hashPair expression
    if ← accept .rbrace then
      return [pair]
    else
      expect .comma
      return pair :: (← pairs)) := by
  refine bounded_hashPairs.closed_eq fun k => .bind (agrees_hashPair (agrees_expression k)) fun pair => ?_
  refine .accept ((steady_pure _).agrees _) ((steps_expect .comma).bind fun _ => ?_)
  refine .bind (bounded_hashPairs.agrees_closed (Nat.le_refl k)) fun rest => ?_
  exact (steady_pure _).agrees k

/-- Expressions with commas between them, from the first one on. -/
def items : Rule (List Node) := do
  let item ← expression .lowest
  return item :: (← expressionTail)

theorem items_eq : items = (do
    let item ← expression .lowest
    if ← accept .comma then
      advance
      return item :: (← items)
    else
      return [item]) := by
  conv => lhs; rw [items, expressionTail_eq]
  apply bind_congr
  intro item
  rw [bind_assoc]
  apply bind_congr
  intro found
  cases found with
  | true => simp only [if_true, items, bind_assoc, pure_bind]
  | false => simp only [Bool.false_eq_true, if_false, pure_bind]

theorem expressionList_eq (last : TokenKind) : expressionList expression last = (do
    if ← accept last then
      return []
    else
      advance
      let list ← items
      expect last
      return list) := by
  rw [expressionList]
  apply bind_congr
  intro found
  cases found with
  | true => rfl
  | false => simp only [Bool.false_eq_true, if_false, items, bind_assoc, pure_bind]; rfl

def names : Rule (List Identifier) := do
  expect .ident
  let name ← current
  return .ofToken name :: (← parameterTail)

theorem names_eq : names = (do
    expect .ident
    let name ← current
    if ← accept .comma then
      return .ofToken name :: (← names)
    else
      return [.ofToken name]) := by
  conv => lhs; rw [names, parameterTail_eq]
  refine bind_congr fun _ => bind_congr fun name => ?_
  rw [bind_assoc]
  apply bind_congr
  intro found
  cases found with
  | true => simp only [if_true, names, bind_assoc, pure_bind]
  | false => simp only [Bool.false_eq_true, if_false, pure_bind]

theorem parameters_eq : parameters = (do
    if ← accept .rparen then
      return []
    else
      let list ← names
      expect .rparen
      return list) := by
  rw [parameters]
  apply bind_congr
  intro found
  cases found with
  | true => rfl
  | false => simp only [Bool.false_eq_true, if_false, names, bind_assoc, pure_bind]; rfl

theorem hashLiteral_eq : hashLiteral expression = (do
    let token ← current
    if ← accept .rbrace then
      return .hash token []
    else
      return .hash token (← pairs)) := by
  rw [hashLiteral]
  refine bind_congr fun token => bind_congr fun found => ?_
  cases found <;> rfl

theorem steady_items : Steady items := by
  refine steady_of_agrees fun k => .bind (agrees_expression k _) fun item => ?_
  exact .bind (bounded_moreExpressions.steady_closed.agrees k) fun rest => (steady_pure _).agrees k

theorem steady_pairs : Steady pairs :=
  bounded_hashPairs.steady_closed

theorem steady_block : Steady (block expression) :=
  steady_of_agrees fun k => (agrees_block (agrees_expression k)).mono (Nat.le_succ k)

theorem steady_alternative : Steady (alternative expression) :=
  steady_of_agrees fun k => (agrees_alternative (agrees_expression k)).mono (Nat.le_succ k)

theorem steady_infixRule {kind : TokenKind} {rule : Node → Rule Node}
    (h : infixRule? expression kind = some rule) (left : Node) : Steady (rule left) := by
  apply steady_of_agrees
  intro k
  obtain ⟨hnone, -⟩ | ⟨rule₁, rule₂, h₁, h₂, hagrees⟩ := agrees_infixRule? (agrees_expression k) kind
  · simp [hnone] at h
  · cases h.symm.trans h₁
    cases h.symm.trans h₂
    exact (hagrees left).mono (Nat.le_succ k)

theorem steady_prefixRule {kind : TokenKind} {rule : Rule Node}
    (h : prefixRule? expression kind = some rule) : Steady rule := by
  apply steady_of_agrees
  intro k
  obtain ⟨hnone, -⟩ | ⟨rule₁, rule₂, h₁, h₂, hagrees⟩ := agrees_prefixRule? (agrees_expression k) kind
  · simp [hnone] at h
  · cases h.symm.trans h₁
    cases h.symm.trans h₂
    exact hagrees.mono (Nat.le_succ k)

theorem steady_statement : Steady (statement expression) :=
  steady_of_agrees fun k => agrees_statement (agrees_expression k)

theorem rank_pos (power : Precedence) : 0 < power.rank := by
  cases power <;> decide

theorem bounded_continued (power : Precedence) (left : Node) :
    Bounded fun fuel => continued expression power fuel left := by
  intro k
  induction k generalizing left with
  | zero =>
    have hnil : ∀ fuel {p : Parser}, p.tokens = [] →
        continued expression power fuel left p = .ok left p := by
      intro fuel p hp
      have hrank : ¬ power.rank < TokenKind.eof.precedence.rank := by
        show ¬ power.rank < 1
        have := rank_pos power
        omega
      cases fuel with
      | zero => rfl
      | succ fuel =>
        simp only [continued, bind_run, peekKind_run, peek_kind_of_nil hp, hrank, and_false,
          if_false, pure_run]
    intro fuel fuel' _ _
    apply agrees_zero
    intro p hp
    simp only [after, hnil _ hp, and_self]
  | succ k ih =>
    intro fuel fuel' h h'
    obtain ⟨fuel, rfl⟩ := Nat.exists_eq_add_of_le' (Nat.le_trans (Nat.le_add_left 1 k) h)
    obtain ⟨fuel', rfl⟩ := Nat.exists_eq_add_of_le' (Nat.le_trans (Nat.le_add_left 1 k) h')
    apply looks_peekKind.bind
    intro next
    split
    · cases hrule : infixRule? expression next with
      | none => exact (steady_pure _).agrees _
      | some rule =>
        refine steps_advance.bind fun _ => .bind ?_ fun longer => ih longer _ _ (by omega) (by omega)
        exact (steady_infixRule hrule left).agrees k
    · exact (steady_pure _).agrees _

/-- The rule that goes on with `left` as long as the next token binds tighter than `power`. -/
theorem extended_eq (power : Precedence) (left : Node) : extended power left = (do
    let next ← peekKind
    if next ≠ .semicolon ∧ power.rank < next.precedence.rank then
      match infixRule? expression next with
      | some rule => do
        advance
        let longer ← rule left
        extended power longer
      | none => return left
    else
      return left) := by
  refine (bounded_continued power left).closed_eq fun k => looks_peekKind.bind fun next => ?_
  split
  · cases hrule : infixRule? expression next with
    | none => exact (steady_pure _).agrees _
    | some rule =>
      refine steps_advance.bind fun _ => .bind ((steady_infixRule hrule left).agrees k) fun longer => ?_
      exact (bounded_continued power longer).agrees_closed (Nat.le_refl k)
  · exact (steady_pure _).agrees _

/-- An expression is a start and all that goes on with it. -/
theorem expression_run (power : Precedence) (p : Parser) :
    expression power p = match prefixRule? expression p.current.kind with
      | some rule => (rule >>= extended power) p
      | none => .error (.noPrefixRule p.current.kind) p := by
  rw [expression_eq]
  simp only [expressionWith, bind_run, current_run]
  cases prefixRule? expression p.current.kind with
  | none => rfl
  | some rule => simp only [bind_run, get_run]; rfl

/-! ### Sequences of statements -/

/-- The first token tells the form of a statement. -/
theorem statement_run (p : Parser) : statement expression p =
    if p.current.kind = .letKw then letStatement expression p
    else if p.current.kind = .returnKw then returnStatement expression p
    else expressionStatement expression p := by
  simp only [statement, bind_run, current_run]
  cases p.current.kind <;> rfl

theorem statementsWithin_congr {closes : TokenKind → Bool} (hcloses : closes .eof = true)
    {fuel fuel' : Nat} {p : Parser} (h : p.tokens.length ≤ fuel) (h' : p.tokens.length ≤ fuel') :
    statementsWithin expression closes fuel p = statementsWithin expression closes fuel' p := by
  have hnil : ∀ fuel {p : Parser}, p.tokens = [] →
      statementsWithin expression closes fuel p = ([], p) := by
    intro fuel p hp
    cases fuel with
    | zero => rfl
    | succ fuel => simp only [statementsWithin, current_kind_of_nil hp, hcloses, if_true]
  induction fuel generalizing fuel' p with
  | zero => rw [hnil _ (tokens_eq_nil_of_length_le h), hnil _ (tokens_eq_nil_of_length_le h)]
  | succ fuel ih =>
    cases fuel' with
    | zero => rw [hnil _ (tokens_eq_nil_of_length_le h'), hnil _ (tokens_eq_nil_of_length_le h')]
    | succ fuel' =>
      have hlt : ∀ {q : Parser}, p.Ahead q → q.advance.tokens.length ≤ fuel ∧
          q.advance.tokens.length ≤ fuel' := by
        intro q hq
        have := hq.length_le
        simp only [Parser.advance_tokens, List.length_tail]
        omega
      have hstatement := steady_statement p
      simp only [statementsWithin]
      split
      · rfl
      · cases hrun : statement expression p with
        | ok node behind =>
          simp only [after, hrun] at hstatement
          simp only [ih (hlt hstatement).1 (hlt hstatement).2]
        | error failure behind =>
          simp only [after, hrun] at hstatement
          have := hlt (hstatement.trans (behind.ahead_record failure))
          exact ih this.1 this.2

/-- The statements up to a closing token: the first one, or the error of the first one, and the
    statements behind it. -/
theorem statements_eq {closes : TokenKind → Bool} (hcloses : closes .eof = true) (p : Parser) :
    statements expression closes p =
      if closes p.current.kind then ([], p)
      else match statement expression p with
        | .ok node behind =>
          (node :: (statements expression closes behind.advance).1,
            (statements expression closes behind.advance).2)
        | .error failure behind =>
          statements expression closes (behind.record failure).advance := by
  have hone : statements expression closes p
      = statementsWithin expression closes (p.tokens.length + 1) p :=
    statementsWithin_congr hcloses (Nat.le_refl _) (Nat.le_succ _)
  have hstatement := steady_statement p
  rw [hone]
  simp only [statementsWithin]
  split
  · rfl
  · cases hrun : statement expression p with
    | ok node behind =>
      simp only [after, hrun] at hstatement
      have hle := (hstatement.trans behind.ahead_advance).length_le
      simp only [statements, statementsWithin_congr hcloses hle (Nat.le_refl _)]
    | error failure behind =>
      simp only [after, hrun] at hstatement
      have hle := ((hstatement.trans (behind.ahead_record failure)).trans
        (Parser.ahead_advance _)).length_le
      exact statementsWithin_congr hcloses hle (Nat.le_refl _)

theorem block_run (p : Parser) : block expression p =
    .ok (.block p.current (statements expression closesBlock p.advance).1)
      (statements expression closesBlock p.advance).2 :=
  rfl

theorem ahead_statements (closes : TokenKind → Bool) (p : Parser) :
    p.Ahead (statements expression closes p).2 :=
  (agrees_statementsWithin (agrees_expression p.tokens.length) closes _ p (Nat.le_refl _)).2

end Monkey.Rule
