import Monkey.Proofs.Grammar
import Monkey.Proofs.Grammar.Numeral
import Monkey.Proofs.Parser.Unfolding

/-!
# What is read without errors is derived

A rule that succeeds and records no error has read tokens that the grammar derives as its phrase. The
proof is an induction on the number of tokens left: each construct takes a token before it asks for an
expression, so its parts are derived by the induction hypothesis.

The loop that goes on with an expression keeps this invariant: what it has read so far is an expression
of some tier, and the token behind it binds no tighter than an expression of that tier allows
(`innerRank`). An operator that the loop folds in is then one of that tier or a looser one.
-/

namespace Monkey

open Grammar

/-! ### Places -/

namespace Parser

/-- The tokens are of the kind that a scanner finds: the end is no token, and integers are numerals. -/
def Scanned (p : Parser) : Prop :=
  ∀ token ∈ p.tokens, token.kind ≠ .eof ∧ (token.kind = .int → IsNumeral token.literal)

/-- At most `k` tokens are left, and they are of the kind that a scanner finds. -/
structure Within (k : Nat) (p : Parser) : Prop where
  length_le : p.tokens.length ≤ k
  scanned : p.Scanned

variable {k : Nat} {p q r : Parser} {kind : TokenKind}

/-- No token but the one behind all others says that the text ends. -/
theorem Scanned.eq_nil (hp : p.Scanned) (h : p.current.kind = .eof) : p.tokens = [] := by
  cases htokens : p.tokens with
  | nil => rfl
  | cons token rest =>
    have hcurrent : p.current = token := by rw [current, htokens, List.headD_cons]
    exact absurd (hcurrent ▸ h) (hp token (htokens ▸ List.mem_cons_self)).1

theorem Within.ahead (hp : p.Within k) (h : p.Ahead q) : q.Within k :=
  ⟨Nat.le_trans h.length_le hp.length_le, fun token htoken => hp.scanned token (h.tokens.subset htoken)⟩

theorem Within.advance (hp : p.Within (k + 1)) : p.advance.Within k :=
  ⟨Rule.length_advance_le hp.length_le, (hp.ahead p.ahead_advance).scanned⟩

theorem Within.next (hp : p.Within k) : p.advance.Within k :=
  hp.ahead p.ahead_advance

theorem Within.mono {j : Nat} (hp : p.Within j) (h : j ≤ k) : p.Within k :=
  ⟨Nat.le_trans hp.length_le h, hp.scanned⟩

/-- No errors on the way from one place to another means none on either half. -/
theorem Ahead.errors_eq (h₁ : p.Ahead r) (h₂ : r.Ahead q) (h : q.errors = p.errors) :
    r.errors = p.errors ∧ q.errors = r.errors := by
  have hr : r.errors = p.errors :=
    (h₁.errors.eq_of_length_le (h ▸ h₂.errors.length_le)).symm
  exact ⟨hr, h.trans hr.symm⟩

theorem record_ne {failure : ParseError} (h : (p.record failure).Ahead q) : q.errors ≠ p.errors := by
  intro heq
  have hle := h.errors.length_le
  rw [heq, record, List.length_append] at hle
  exact Nat.not_succ_le_self _ hle

theorem tokens_eq (h : p.current.kind = kind) (hkind : kind ≠ .eof) :
    p.tokens = p.current :: p.advance.tokens := by
  cases htokens : p.tokens with
  | nil => exact absurd (h.symm.trans (Rule.current_kind_of_nil htokens)) hkind
  | cons token rest => simp [current, htokens]

end Parser

namespace Rule

variable {α β : Type} {p q : Parser} {k : Nat}

/-! ### How a rule can succeed -/

@[simp] theorem bind_eq_ok {x : Rule α} {f : α → Rule β} {b : β} :
    (x >>= f) p = .ok b q ↔ ∃ a r, x p = .ok a r ∧ f a r = .ok b q := by
  rw [bind_run]
  cases x p with
  | ok a r =>
    refine ⟨fun h => ⟨a, r, rfl, h⟩, ?_⟩
    rintro ⟨_, _, ⟨⟩, h⟩
    exact h
  | error failure r => simp

@[simp] theorem pure_eq_ok {a b : α} :
    (pure a : Rule α) p = .ok b q ↔ b = a ∧ q = p := by
  rw [pure_run, EStateM.Result.ok.injEq, eq_comm, eq_comm (a := p)]

@[simp] theorem current_eq_ok {token : Token} : current p = .ok token q ↔ token = p.current ∧ q = p := by
  rw [current_run, EStateM.Result.ok.injEq, eq_comm, eq_comm (a := p)]

@[simp] theorem advance_eq_ok {u : Unit} : advance p = .ok u q ↔ q = p.advance := by
  rw [advance_run, EStateM.Result.ok.injEq, eq_comm (a := p.advance)]
  exact and_iff_right rfl

@[simp] theorem expect_eq_ok {kind : TokenKind} {u : Unit} :
    expect kind p = .ok u q ↔ p.advance.current.kind = kind ∧ q = p.advance := by
  rw [expect_run, Parser.peek_eq]
  by_cases h : p.advance.current.kind = kind
  · simp [h, eq_comm]
  · simp [h]

@[simp] theorem accept_eq_ok {kind : TokenKind} {found : Bool} : accept kind p = .ok found q ↔
    (p.advance.current.kind = kind ∧ found = true ∧ q = p.advance) ∨
    (p.advance.current.kind ≠ kind ∧ found = false ∧ q = p) := by
  rw [accept_run, Parser.peek_eq]
  by_cases h : p.advance.current.kind = kind
  · simp [h, eq_comm]
  · simp [h, eq_comm]


/-! ### Parts that are derived -/

/-- The tier of the expressions that are read at a power. -/
def tierOf (power : Precedence) : Nat :=
  min (power.rank - 1) unaryTier

/-- Expressions read with at most `k` tokens left are derived, and end in front of a token that binds
    no tighter than the power. -/
def ExpressionsDerived (k : Nat) : Prop :=
  ∀ ⦃p q : Parser⦄ ⦃power : Precedence⦄ ⦃node : Node⦄, p.Within k →
    expression power p = .ok node q → q.errors = p.errors →
    Derives (.expression (tierOf power) node) p.tokens q.advance.tokens ∧
      q.advance.current.kind.precedence.rank ≤ power.rank

/-- An expression of a tier is derived from the tokens up to `q`, and the one behind binds no tighter
    than the tier allows. -/
def Stands (tier : Nat) (tokens : List Token) (node : Node) (q : Parser) : Prop :=
  Derives (.expression tier node) tokens q.advance.tokens ∧
    q.advance.current.kind.precedence.rank ≤ innerRank tier

theorem lowest_of_rank_le {power : Precedence} (h : power.rank ≤ Precedence.lowest.rank) :
    power = .lowest := by
  cases power <;> first | rfl | exact absurd h (by decide)

theorem ahead_expression {power : Precedence} {node : Node}
    (h : expression power p = .ok node q) : p.Ahead q :=
  (steady_expression power).ahead_of_ok h

theorem accept_errors {kind : TokenKind} {found : Bool} (h : accept kind p = .ok found q) :
    q.errors = p.errors := by
  rcases accept_eq_ok.mp h with ⟨_, _, rfl⟩ | ⟨_, _, rfl⟩ <;> rfl

section Parts

variable {node : Node} (he : ExpressionsDerived k)

include he

/-! ### Statements -/

omit he in
/-- The end of a statement behind its expression, which ends at `r`. -/
theorem endsStatement {r : Parser} {found : Bool} (h : accept .semicolon r = .ok found q)
    (hnext : r.advance.current.kind.precedence.rank ≤ Precedence.lowest.rank) :
    EndsStatement r.advance.tokens q.advance.tokens := by
  rcases accept_eq_ok.mp h with ⟨hkind, _, rfl⟩ | ⟨hkind, _, rfl⟩
  · exact .inl ⟨_, hkind, Parser.tokens_eq hkind (by decide)⟩
  · refine .inr ⟨rfl, fun token htoken => ?_⟩
    have hcurrent : q.advance.current = token := by
      rw [Parser.current, List.headD_eq_head?_getD, htoken]
      rfl
    exact hcurrent ▸ ⟨hkind, lowest_of_rank_le hnext⟩

theorem derives_letStatement (hp : p.Within k) (hkind : p.current.kind = .letKw)
    (h : letStatement expression p = .ok node q) (herrors : q.errors = p.errors) :
    Derives (.statement node) p.tokens q.advance.tokens := by
  simp only [letStatement, bind_eq_ok, current_eq_ok, expect_eq_ok, advance_eq_ok, pure_eq_ok,
    and_assoc, exists_and_left, exists_eq_left, exists_const] at h
  rcases h with ⟨htarget, hsign, value, r, hvalue, found, q, haccept, rfl, rfl⟩
  obtain ⟨hderives, hnext⟩ := he hp.next.next.next hvalue ((accept_errors haccept).symm.trans herrors)
  rw [Parser.tokens_eq hkind (by decide), Parser.tokens_eq htarget (by decide),
    Parser.tokens_eq hsign (by decide)]
  exact .letStatement hkind htarget hsign hderives (endsStatement haccept hnext)

theorem derives_returnStatement (hp : p.Within k) (hkind : p.current.kind = .returnKw)
    (h : returnStatement expression p = .ok node q) (herrors : q.errors = p.errors) :
    Derives (.statement node) p.tokens q.advance.tokens := by
  simp only [returnStatement, bind_eq_ok, current_eq_ok, advance_eq_ok, pure_eq_ok,
    and_assoc, exists_and_left, exists_eq_left, exists_const] at h
  rcases h with ⟨value, r, hvalue, found, q, haccept, rfl, rfl⟩
  obtain ⟨hderives, hnext⟩ := he hp.next hvalue ((accept_errors haccept).symm.trans herrors)
  rw [Parser.tokens_eq hkind (by decide)]
  exact .returnStatement hkind hderives (endsStatement haccept hnext)

theorem derives_expressionStatement (hp : p.Within k)
    (h : expressionStatement expression p = .ok node q) (herrors : q.errors = p.errors) :
    Derives (.statement node) p.tokens q.advance.tokens := by
  simp only [expressionStatement, bind_eq_ok, current_eq_ok, pure_eq_ok, and_assoc, exists_and_left,
    exists_eq_left] at h
  rcases h with ⟨value, r, hvalue, found, q, haccept, rfl, rfl⟩
  obtain ⟨hderives, hnext⟩ := he hp hvalue ((accept_errors haccept).symm.trans herrors)
  obtain ⟨first, behind, htokens, _⟩ := hderives.starts
  have hfirst : p.current = first := by rw [Parser.current, htokens, List.headD_cons]
  rw [htokens] at hderives ⊢
  subst hfirst
  exact .expressionStatement hderives (endsStatement haccept hnext)

theorem derives_statement (hp : p.Within k) (h : statement expression p = .ok node q)
    (herrors : q.errors = p.errors) : Derives (.statement node) p.tokens q.advance.tokens := by
  rw [statement_run] at h
  split at h
  · next hkind => exact derives_letStatement he hp hkind h herrors
  · split at h
    · next hkind => exact derives_returnStatement he hp hkind h herrors
    · exact derives_expressionStatement he hp h herrors

omit he in
theorem ahead_of_statements {closes : TokenKind → Bool} {nodes : List Node}
    (h : statements expression closes p = (nodes, q)) : p.Ahead q := by
  simpa only [h] using ahead_statements closes p

theorem derives_statements {closes : TokenKind → Bool} (heof : closes .eof = true)
    {p q : Parser} {nodes : List Node} (hp : p.Within k)
    (h : statements expression closes p = (nodes, q)) (herrors : q.errors = p.errors) :
    Derives (.statements nodes) p.tokens q.tokens ∧ closes q.current.kind = true := by
  induction hlength : p.tokens.length using Nat.strongRecOn generalizing p nodes with
  | ind n ih =>
    rw [statements_eq heof] at h
    by_cases hcloses : closes p.current.kind = true
    · rw [if_pos hcloses] at h
      obtain ⟨rfl, rfl⟩ := Prod.mk.inj h
      exact ⟨.noStatements, hcloses⟩
    · rw [if_neg hcloses] at h
      cases hrun : statement expression p with
      | error failure r =>
        -- the error of a statement that is dropped stays recorded
        simp only [hrun] at h
        have hr : p.Ahead r := steady_statement.ahead_of_error hrun
        have hq : (r.record failure).Ahead q :=
          (Parser.ahead_advance _).trans (ahead_of_statements h)
        obtain ⟨hr', hq'⟩ := hr.errors_eq ((r.ahead_record failure).trans hq) herrors
        exact absurd hq' (Parser.record_ne hq)
      | ok first r =>
        simp only [hrun] at h
        obtain ⟨rfl, hq⟩ := Prod.mk.inj h
        have hr : p.Ahead r := steady_statement.ahead_of_ok hrun
        have hq' : r.advance.Ahead q := hq ▸ ahead_statements closes r.advance
        obtain ⟨hr', herrors'⟩ := hr.errors_eq ((r.ahead_advance).trans hq') herrors
        have hlt : r.advance.tokens.length < n := by
          have hpos : p.tokens ≠ [] := fun hnil => hcloses (current_kind_of_nil hnil ▸ heof)
          have := List.length_pos_iff.mpr hpos
          have := hr.length_le
          simp only [Parser.advance_tokens, List.length_tail]
          omega
        obtain ⟨hrest, hlast⟩ := ih _ hlt (hp.ahead hr).next (Prod.ext rfl hq) herrors' rfl
        exact ⟨.statements (derives_statement he hp hrun hr') hrest, hlast⟩

theorem derives_block (hp : p.Within (k + 1)) (hkind : p.current.kind = .lbrace)
    (h : block expression p = .ok node q) (herrors : q.errors = p.errors) :
    Derives (.block node) p.tokens q.advance.tokens := by
  cases hrun : statements expression closesBlock p.advance with
  | mk body last =>
    rw [block_run, hrun] at h
    cases h
    obtain ⟨hbody, hcloses⟩ := derives_statements he rfl hp.advance hrun herrors
    rw [Parser.tokens_eq hkind (by decide)]
    simp only [closesBlock, Bool.or_eq_true, decide_eq_true_eq] at hcloses
    rcases hcloses with hbrace | heof
    · rw [Parser.tokens_eq hbrace (by decide)] at hbody
      exact .block hkind hbody hbrace
    · have hnil : last.tokens = [] := (hp.advance.ahead (ahead_of_statements hrun)).scanned.eq_nil heof
      rw [hnil] at hbody
      have hbehind : last.advance.tokens = [] := by rw [Parser.advance_tokens, hnil]; rfl
      exact hbehind ▸ .openBlock hkind hbody

/-! ### Lists -/

theorem derives_items {p : Parser} {nodes : List Node} (hp : p.Within k)
    (h : items p = .ok nodes q) (herrors : q.errors = p.errors) :
    Derives (.items nodes) p.tokens q.advance.tokens := by
  induction hlength : p.tokens.length using Nat.strongRecOn generalizing p nodes with
  | ind n ih =>
    rw [items_eq] at h
    simp only [bind_eq_ok, accept_eq_ok] at h
    rcases h with ⟨item, r, hitem, found, r', hfound, h⟩
    rcases hfound with ⟨hcomma, rfl, rfl⟩ | ⟨_, rfl, rfl⟩
    · simp only [if_true, bind_eq_ok, advance_eq_ok, pure_eq_ok, exists_const, exists_eq_left] at h
      rcases h with ⟨rest, r', hrest, rfl, rfl⟩
      have hr : p.Ahead r := ahead_expression hitem
      have hbehind : r.Ahead r.advance.advance := r.ahead_advance.trans r.advance.ahead_advance
      obtain ⟨hr', herrors'⟩ := hr.errors_eq (hbehind.trans (steady_items.ahead_of_ok hrest)) herrors
      have hlt : r.advance.advance.tokens.length < n := by
        have hle := hr.length_le
        have htokens := congrArg List.length (Parser.tokens_eq hcomma (by decide))
        simp only [Parser.advance_tokens, List.length_tail, List.length_cons] at htokens ⊢
        omega
      have hitem' := (he hp hitem hr').1
      rw [Parser.tokens_eq hcomma (by decide)] at hitem'
      exact .item hitem' hcomma (ih _ hlt ((hp.ahead hr).ahead hbehind) hrest herrors' rfl)
    · simp only [Bool.false_eq_true, if_false, pure_eq_ok] at h
      rcases h with ⟨rfl, rfl⟩
      exact .lastItem (he hp hitem herrors).1

theorem derives_list {last : TokenKind} {nodes : List Node} (hp : p.Within (k + 1))
    (hlast : last ≠ .eof) (h : expressionList expression last p = .ok nodes q)
    (herrors : q.errors = p.errors) : Derives (.list last nodes) p.advance.tokens q.advance.tokens := by
  simp only [expressionList_eq, bind_eq_ok, accept_eq_ok] at h
  rcases h with ⟨found, r', ⟨hclose, rfl, rfl⟩ | ⟨_, rfl, rfl⟩, h⟩
  · simp only [if_true, pure_eq_ok] at h
    rcases h with ⟨rfl, rfl⟩
    rw [Parser.tokens_eq hclose hlast]
    exact .emptyList hclose
  · simp only [Bool.false_eq_true, if_false, bind_eq_ok, advance_eq_ok, expect_eq_ok, pure_eq_ok,
      exists_const, exists_eq_left, and_assoc, exists_and_left] at h
    rcases h with ⟨nodes, r, hitems, hclose, rfl, rfl⟩
    have hitems' := derives_items he hp.advance hitems herrors
    rw [Parser.tokens_eq hclose hlast] at hitems'
    exact .ofItems hitems' hclose

omit he in
theorem derives_names {p : Parser} {list : List Identifier} (h : names p = .ok list q) :
    Derives (.names list) p.advance.tokens q.advance.tokens := by
  induction hlength : p.tokens.length using Nat.strongRecOn generalizing p list with
  | ind n ih =>
    rw [names_eq] at h
    simp only [bind_eq_ok, expect_eq_ok, current_eq_ok, accept_eq_ok, and_assoc, exists_and_left,
      exists_eq_left, exists_const] at h
    rcases h with ⟨hname, found, r, ⟨hcomma, rfl, rfl⟩ | ⟨_, rfl, rfl⟩, h⟩
    · simp only [if_true, bind_eq_ok, pure_eq_ok] at h
      rcases h with ⟨rest, r, hrest, rfl, rfl⟩
      have hlt : p.advance.advance.tokens.length < n := by
        have htokens := congrArg List.length (Parser.tokens_eq hname (by decide))
        simp only [Parser.advance_tokens, List.length_tail, List.length_cons] at htokens ⊢
        omega
      rw [Parser.tokens_eq hname (by decide), Parser.tokens_eq hcomma (by decide)]
      exact .name hname hcomma (ih _ hlt hrest rfl)
    · simp only [Bool.false_eq_true, if_false, pure_eq_ok] at h
      rcases h with ⟨rfl, rfl⟩
      rw [Parser.tokens_eq hname (by decide)]
      exact .lastName hname

omit he in
theorem derives_parameters {list : List Identifier} (h : parameters p = .ok list q) :
    Derives (.parameters list) p.advance.tokens q.advance.tokens := by
  simp only [parameters_eq, bind_eq_ok, accept_eq_ok] at h
  rcases h with ⟨found, r', ⟨hclose, rfl, rfl⟩ | ⟨_, rfl, rfl⟩, h⟩
  · simp only [if_true, pure_eq_ok] at h
    rcases h with ⟨rfl, rfl⟩
    rw [Parser.tokens_eq hclose (by decide)]
    exact .noParameters hclose
  · simp only [Bool.false_eq_true, if_false, bind_eq_ok, expect_eq_ok, pure_eq_ok, exists_const,
      exists_eq_left, and_assoc, exists_and_left] at h
    rcases h with ⟨list, r, hnames, hclose, rfl, rfl⟩
    have hnames' := derives_names hnames
    rw [Parser.tokens_eq hclose (by decide)] at hnames'
    exact .ofNames hnames' hclose

theorem derives_pairs {p : Parser} {list : List (Node × Node)} (hp : p.Within (k + 1))
    (h : pairs p = .ok list q) (herrors : q.errors = p.errors) :
    Derives (.pairs list) p.advance.tokens q.tokens ∧ q.current.kind = .rbrace := by
  induction hlength : p.tokens.length using Nat.strongRecOn generalizing p list with
  | ind n ih =>
    rw [pairs_eq] at h
    simp only [hashPair, bind_eq_ok, advance_eq_ok, expect_eq_ok, accept_eq_ok, pure_eq_ok, and_assoc,
      exists_and_left, exists_eq_left, exists_const] at h
    rcases h with ⟨_, r', ⟨key, r, hkey, hcolon, value, r', hvalue, rfl, rfl⟩, found, r'', hfound, h⟩
    have hr : p.advance.Ahead r := ahead_expression hkey
    have hr' : r.advance.advance.Ahead r' := ahead_expression hvalue
    have hbehind : r.Ahead r' := (r.ahead_advance.trans r.advance.ahead_advance).trans hr'
    have hwithin : r.advance.advance.Within k := (hp.advance.ahead hr).next.next
    have hpair : r'.errors = p.errors →
        Derives (.expression 0 key) p.advance.tokens (r.advance.current :: r.advance.advance.tokens) ∧
          Derives (.expression 0 value) r.advance.advance.tokens r'.advance.tokens := by
      intro h'
      obtain ⟨herrors, herrors'⟩ := hr.errors_eq hbehind h'
      rw [← Parser.tokens_eq hcolon (by decide)]
      exact ⟨(he hp.advance hkey herrors).1, (he hwithin hvalue herrors').1⟩
    rcases hfound with ⟨hclose, rfl, rfl⟩ | ⟨_, rfl, rfl⟩
    · simp only [if_true, pure_eq_ok] at h
      rcases h with ⟨rfl, rfl⟩
      obtain ⟨hkey', hvalue'⟩ := hpair herrors
      exact ⟨.lastPair hkey' hcolon hvalue', hclose⟩
    · simp only [Bool.false_eq_true, if_false, bind_eq_ok, expect_eq_ok, pure_eq_ok, and_assoc,
        exists_and_left, exists_eq_left, exists_const] at h
      rcases h with ⟨hcomma, rest, q, hrest, rfl, rfl⟩
      have hall : p.Ahead r'' := (p.ahead_advance.trans hr).trans hbehind
      obtain ⟨hfirst, herrors'⟩ :=
        hall.errors_eq (r''.ahead_advance.trans (steady_pairs.ahead_of_ok hrest)) herrors
      have hlt : r''.advance.tokens.length < n := by
        have hle := hall.length_le
        have htokens := congrArg List.length (Parser.tokens_eq hcomma (by decide))
        simp only [Parser.advance_tokens, List.length_tail, List.length_cons] at htokens ⊢
        omega
      obtain ⟨hkey', hvalue'⟩ := hpair hfirst
      rw [Parser.tokens_eq hcomma (by decide)] at hvalue'
      obtain ⟨hrest', hlast⟩ := ih _ hlt (hp.ahead hall).next hrest herrors' rfl
      exact ⟨.pair hkey' hcolon hvalue' hcomma hrest', hlast⟩

/-! ### Constructs that start an expression -/

theorem derives_prefixExpression (hp : p.Within (k + 1))
    (hkind : p.current.kind = .bang ∨ p.current.kind = .minus)
    (h : prefixExpression expression p = .ok node q) (herrors : q.errors = p.errors) :
    Derives (.expression unaryTier node) p.tokens q.advance.tokens ∧
      q.advance.current.kind.precedence.rank ≤ innerRank unaryTier := by
  simp only [prefixExpression, bind_eq_ok, current_eq_ok, advance_eq_ok, pure_eq_ok, and_assoc,
    exists_and_left, exists_eq_left, exists_const] at h
  rcases h with ⟨right, q, hright, rfl, rfl⟩
  obtain ⟨hderives, hnext⟩ := he hp.advance hright herrors
  have htokens : p.tokens = p.current :: p.advance.tokens := by
    rcases hkind with hkind | hkind <;> exact Parser.tokens_eq hkind (by decide)
  rw [htokens]
  exact ⟨.prefixed hkind hderives, hnext⟩

theorem derives_groupedExpression (hp : p.Within (k + 1)) (hkind : p.current.kind = .lparen)
    (h : groupedExpression expression p = .ok node q) (herrors : q.errors = p.errors) :
    Derives (.atom node) p.tokens q.advance.tokens := by
  simp only [groupedExpression, bind_eq_ok, advance_eq_ok, expect_eq_ok, pure_eq_ok, and_assoc,
    exists_and_left, exists_eq_left, exists_const] at h
  rcases h with ⟨node, r, hnode, hclose, rfl, rfl⟩
  have hderives := (he hp.advance hnode herrors).1
  rw [Parser.tokens_eq hclose (by decide)] at hderives
  rw [Parser.tokens_eq hkind (by decide)]
  exact .group hkind hderives hclose

theorem derives_conditional (hp : p.Within (k + 1)) (hkind : p.current.kind = .ifKw)
    (h : conditional expression p = .ok node q) (herrors : q.errors = p.errors) :
    Derives (.atom node) p.tokens q.advance.tokens := by
  simp only [conditional, bind_eq_ok, current_eq_ok, advance_eq_ok, expect_eq_ok, pure_eq_ok,
    and_assoc, exists_and_left, exists_eq_left, exists_const] at h
  rcases h with ⟨hbracket, condition, r, hcondition, hclose, hbrace, consequence, r', hconsequence,
    otherwise, q, hotherwise, rfl, rfl⟩
  have hr : p.Ahead r :=
    (p.ahead_advance.trans p.advance.ahead_advance).trans (ahead_expression hcondition)
  have hbehind : r.Ahead r.advance.advance := r.ahead_advance.trans r.advance.ahead_advance
  have hr' : r.advance.advance.Ahead r' := steady_block.ahead_of_ok hconsequence
  have hq : r'.Ahead q := steady_alternative.ahead_of_ok hotherwise
  obtain ⟨hcondition', herrors'⟩ := hr.errors_eq ((hbehind.trans hr').trans hq) herrors
  obtain ⟨hconsequence', hotherwise'⟩ := hr'.errors_eq hq herrors'
  have hcondition := (he hp.advance.next hcondition hcondition').1
  have hwithin : r'.Within (k + 1) := ((hp.ahead hr).ahead hbehind).ahead hr'
  have hconsequence :=
    derives_block he ((hp.ahead hr).ahead hbehind) hbrace hconsequence hconsequence'
  rw [Parser.tokens_eq hclose (by decide)] at hcondition
  rw [Parser.tokens_eq hkind (by decide), Parser.tokens_eq hbracket (by decide)]
  simp only [alternative, bind_eq_ok, accept_eq_ok] at hotherwise
  rcases hotherwise with ⟨found, _, ⟨helse, rfl, rfl⟩ | ⟨_, rfl, rfl⟩, h⟩
  · simp only [if_true, bind_eq_ok, expect_eq_ok, and_assoc, exists_and_left, exists_eq_left,
      exists_const] at h
    rcases h with ⟨hbrace', hotherwise⟩
    rw [Parser.tokens_eq helse (by decide)] at hconsequence
    exact .conditionalElse hkind hbracket hcondition hclose hconsequence helse
      (derives_block he hwithin.next.next hbrace' hotherwise hotherwise')
  · simp only [Bool.false_eq_true, if_false, pure_eq_ok] at h
    rcases h with ⟨rfl, rfl⟩
    exact .conditional hkind hbracket hcondition hclose hconsequence

theorem derives_functionLiteral (hp : p.Within (k + 1)) (hkind : p.current.kind = .functionKw)
    (h : functionLiteral expression p = .ok node q) (herrors : q.errors = p.errors) :
    Derives (.atom node) p.tokens q.advance.tokens := by
  simp only [functionLiteral, bind_eq_ok, current_eq_ok, expect_eq_ok, pure_eq_ok,
    and_assoc, exists_and_left, exists_eq_left, exists_const] at h
  rcases h with ⟨hbracket, names, r, hnames, hbrace, body, q, hbody, rfl, rfl⟩
  have hr : p.advance.Ahead r := steady_parameters.ahead_of_ok hnames
  have hq : r.Ahead q := r.ahead_advance.trans (steady_block.ahead_of_ok hbody)
  obtain ⟨hr', herrors'⟩ := hr.errors_eq hq herrors
  have hwithin : r.advance.Within k := (hp.advance.ahead hr).next
  rw [Parser.tokens_eq hkind (by decide), Parser.tokens_eq hbracket (by decide)]
  exact .function hkind hbracket (derives_parameters hnames)
    (derives_block he (hwithin.mono (Nat.le_succ k)) hbrace hbody herrors')

theorem derives_arrayLiteral (hp : p.Within (k + 1)) (hkind : p.current.kind = .lbracket)
    (h : arrayLiteral expression p = .ok node q) (herrors : q.errors = p.errors) :
    Derives (.atom node) p.tokens q.advance.tokens := by
  simp only [arrayLiteral, bind_eq_ok, current_eq_ok, pure_eq_ok, and_assoc, exists_and_left,
    exists_eq_left] at h
  rcases h with ⟨elements, q, helements, rfl, rfl⟩
  rw [Parser.tokens_eq hkind (by decide)]
  exact .array hkind (derives_list he hp (by decide) helements herrors)

theorem derives_hashLiteral (hp : p.Within (k + 1)) (hkind : p.current.kind = .lbrace)
    (h : hashLiteral expression p = .ok node q) (herrors : q.errors = p.errors) :
    Derives (.atom node) p.tokens q.advance.tokens := by
  simp only [hashLiteral_eq, bind_eq_ok, current_eq_ok, accept_eq_ok, and_assoc, exists_and_left,
    exists_eq_left] at h
  rw [Parser.tokens_eq hkind (by decide)]
  rcases h with ⟨found, r, ⟨hclose, rfl, rfl⟩ | ⟨_, rfl, rfl⟩, h⟩
  · simp only [if_true, pure_eq_ok] at h
    rcases h with ⟨rfl, rfl⟩
    rw [Parser.tokens_eq hclose (by decide)]
    exact .emptyHash hkind hclose
  · simp only [Bool.false_eq_true, if_false, bind_eq_ok, pure_eq_ok] at h
    rcases h with ⟨list, q, hlist, rfl, rfl⟩
    obtain ⟨hderives, hclose⟩ := derives_pairs he hp hlist herrors
    rw [Parser.tokens_eq hclose (by decide)] at hderives
    exact .hash hkind hderives hclose

omit he in
theorem derives_identifier (hkind : p.current.kind = .ident) (h : identifier p = .ok node q) :
    Derives (.atom node) p.tokens q.advance.tokens := by
  simp only [identifier, bind_eq_ok, current_eq_ok, pure_eq_ok, and_assoc, exists_and_left,
    exists_eq_left] at h
  rcases h with ⟨rfl, rfl⟩
  rw [Parser.tokens_eq hkind (by decide)]
  exact .identifier hkind

omit he in
theorem derives_stringLiteral (hkind : p.current.kind = .string) (h : stringLiteral p = .ok node q) :
    Derives (.atom node) p.tokens q.advance.tokens := by
  simp only [stringLiteral, bind_eq_ok, current_eq_ok, pure_eq_ok, and_assoc, exists_and_left,
    exists_eq_left] at h
  rcases h with ⟨rfl, rfl⟩
  rw [Parser.tokens_eq hkind (by decide)]
  exact .string hkind

omit he in
theorem derives_booleanLiteral (value : Bool)
    (hkind : p.current.kind = if value then .trueKw else .falseKw)
    (h : booleanLiteral p = .ok node q) : Derives (.atom node) p.tokens q.advance.tokens := by
  have hvalue : decide (p.current.kind = .trueKw) = value := by
    cases value <;> simp [hkind]
  simp only [booleanLiteral, bind_eq_ok, current_eq_ok, pure_eq_ok, and_assoc, exists_and_left,
    exists_eq_left, hvalue] at h
  have hne : p.current.kind ≠ .eof := by
    cases value <;> simp [hkind]
  rcases h with ⟨rfl, rfl⟩
  rw [Parser.tokens_eq rfl hne]
  exact .boolean hkind

omit he in
theorem derives_integerLiteral (hp : p.Scanned) (hkind : p.current.kind = .int)
    (h : integerLiteral p = .ok node q) : Derives (.atom node) p.tokens q.advance.tokens := by
  have htokens := Parser.tokens_eq hkind (by decide)
  have hnumeral : IsNumeral p.current.literal :=
    (hp p.current (htokens ▸ List.mem_cons_self)).2 hkind
  simp only [integerLiteral, bind_eq_ok, current_eq_ok, and_assoc, exists_and_left, exists_eq_left,
    integerValue?_of_isNumeral hnumeral] at h
  by_cases hlimits : p.current.literal.length ≤ digitLimit ∧ decimalValue p.current.literal ≤ valueLimit
  · simp only [if_pos hlimits, pure_eq_ok] at h
    rcases h with ⟨rfl, rfl⟩
    rw [htokens]
    exact .integer hkind hnumeral hlimits.1 hlimits.2
  · simp only [if_neg hlimits, throw_run, reduceCtorEq] at h

omit he in
theorem stands_of_atom {tokens : List Token} (h : Derives (.atom node) tokens q.advance.tokens) :
    Stands postfixTier tokens node q :=
  ⟨.ofAtom h, rank_le _⟩

/-- The start of an expression is derived as one with a prefix operator or as an atom. -/
theorem stands_prefixRule {rule : Rule Node} (hp : p.Within (k + 1))
    (hrule : prefixRule? expression p.current.kind = some rule) (h : rule p = .ok node q)
    (herrors : q.errors = p.errors) :
    ∃ tier, unaryTier ≤ tier ∧ tier ≤ postfixTier ∧ Stands tier p.tokens node q := by
  cases hkind : p.current.kind
  case bang | minus =>
    cases (congrArg (prefixRule? expression) hkind).symm.trans hrule
    exact ⟨unaryTier, by decide, by decide, derives_prefixExpression he hp (by simp [hkind]) h herrors⟩
  case ident | string | trueKw | falseKw | int | lparen | ifKw | functionKw | lbracket | lbrace =>
    cases (congrArg (prefixRule? expression) hkind).symm.trans hrule
    refine ⟨postfixTier, by decide, by decide, stands_of_atom ?_⟩
    first
    | exact derives_integerLiteral hp.scanned hkind h
    | exact derives_groupedExpression he hp hkind h herrors
    | exact derives_conditional he hp hkind h herrors
    | exact derives_functionLiteral he hp hkind h herrors
    | exact derives_arrayLiteral he hp hkind h herrors
    | exact derives_hashLiteral he hp hkind h herrors
    | exact derives_identifier hkind h
    | exact derives_stringLiteral hkind h
    | exact derives_booleanLiteral true hkind h
    | exact derives_booleanLiteral false hkind h
  all_goals
    cases (congrArg (prefixRule? expression) hkind).symm.trans hrule

/-! ### Constructs that continue an expression -/

omit he in
theorem infixRule?_cases {kind : TokenKind} {rule : Node → Rule Node}
    (h : infixRule? expression kind = some rule) :
    (∃ tier, kind ∈ operatorsOf tier ∧ kind.precedence.rank = tier + 2 ∧ tier < unaryTier ∧
      rule = binaryExpression expression) ∨
    (kind = .lparen ∧ rule = callExpression expression) ∨
    (kind = .lbracket ∧ rule = indexExpression expression) := by
  cases kind
  case eq | notEq => exact .inl ⟨0, by decide, rfl, by decide, (Option.some.inj h).symm⟩
  case lt | gt => exact .inl ⟨1, by decide, rfl, by decide, (Option.some.inj h).symm⟩
  case plus | minus => exact .inl ⟨2, by decide, rfl, by decide, (Option.some.inj h).symm⟩
  case asterisk | slash => exact .inl ⟨3, by decide, rfl, by decide, (Option.some.inj h).symm⟩
  case lparen => exact .inr (.inl ⟨rfl, (Option.some.inj h).symm⟩)
  case lbracket => exact .inr (.inr ⟨rfl, (Option.some.inj h).symm⟩)
  all_goals cases h

omit he in
theorem infixRule?_none {kind : TokenKind} (h : infixRule? expression kind = none) :
    kind.precedence = .lowest := by
  cases kind <;> first | rfl | cases h

/-- Folding in an operator gives an expression of a tier that every looser power admits. -/
theorem stands_infixRule {rule : Node → Rule Node} {tier : Nat} {tokens : List Token} {left : Node}
    (hp : p.Within (k + 1)) (htier : tier ≤ postfixTier)
    (hleft : Derives (.expression tier left) tokens p.tokens)
    (hnext : p.current.kind.precedence.rank ≤ innerRank tier)
    (hrule : infixRule? expression p.current.kind = some rule) (h : rule left p = .ok node q)
    (herrors : q.errors = p.errors) :
    ∃ longer, longer ≤ postfixTier ∧ Stands longer tokens node q ∧
      ∀ power : Precedence, power.rank < p.current.kind.precedence.rank → tierOf power ≤ longer := by
  have hunary : unaryTier = 4 := rfl
  have hpostfix : postfixTier = 5 := rfl
  -- a call or an index needs an expression of the tightest tier to its left
  have htight (hrank : 7 ≤ p.current.kind.precedence.rank) : tier = postfixTier := by
    simp only [innerRank] at hnext
    split at hnext <;> omega
  obtain ⟨lower, hoperator, hrank, hlower, rfl⟩ | ⟨hkind, rfl⟩ | ⟨hkind, rfl⟩ := infixRule?_cases hrule
  · simp only [binaryExpression, bind_eq_ok, current_eq_ok, advance_eq_ok, pure_eq_ok, and_assoc,
      exists_and_left, exists_eq_left, exists_const] at h
    rcases h with ⟨right, q, hright, rfl, rfl⟩
    obtain ⟨hright, hnext'⟩ := he hp.advance hright herrors
    have htokens : p.tokens = p.current :: p.advance.tokens :=
      Parser.tokens_eq rfl fun heof => by simp [heof, infixRule?] at hrule
    have hlower' : lower ≤ tier := by
      simp only [innerRank] at hnext
      split at hnext <;> omega
    have htierOf : tierOf p.current.kind.precedence = lower + 1 := by
      simp only [tierOf, hrank]
      omega
    rw [htokens] at hleft
    refine ⟨lower, by omega, ⟨.binary hoperator (hleft.descend hlower' htier) (htierOf ▸ hright), ?_⟩, ?_⟩
    · rw [innerRank, if_pos (Nat.le_of_lt hlower)]
      omega
    · intro power hpower
      simp only [tierOf]
      omega
  · simp only [callExpression, bind_eq_ok, current_eq_ok, pure_eq_ok, and_assoc, exists_and_left,
      exists_eq_left] at h
    rcases h with ⟨arguments, q, harguments, rfl, rfl⟩
    have hcallee := htight (hkind ▸ by decide)
    rw [Parser.tokens_eq hkind (by decide)] at hleft
    refine ⟨postfixTier, by omega, ⟨.call hkind (hcallee ▸ hleft) ?_, rank_le _⟩, ?_⟩
    · exact derives_list he hp (by decide) harguments herrors
    · intro power _
      exact Nat.le_trans (Nat.min_le_right _ _) (by decide)
  · simp only [indexExpression, bind_eq_ok, current_eq_ok, advance_eq_ok, expect_eq_ok, pure_eq_ok,
      and_assoc, exists_and_left, exists_eq_left, exists_const] at h
    rcases h with ⟨subscript, r, hsubscript, hclose, rfl, rfl⟩
    have hcallee := htight (hkind ▸ by decide)
    have hsubscript := (he hp.advance hsubscript herrors).1
    rw [Parser.tokens_eq hclose (by decide)] at hsubscript
    rw [Parser.tokens_eq hkind (by decide)] at hleft
    refine ⟨postfixTier, by omega, ⟨.index hkind (hcallee ▸ hleft) hsubscript hclose, rank_le _⟩, ?_⟩
    intro power _
    exact Nat.le_trans (Nat.min_le_right _ _) (by decide)

/-! ### The whole of an expression -/

/-- The loop that goes on with an expression keeps it derived. -/
theorem derives_extended {p : Parser} {power : Precedence} {tier : Nat} {tokens : List Token}
    {left : Node} (hp : p.Within (k + 1)) (hpower : tierOf power ≤ tier) (htier : tier ≤ postfixTier)
    (hleft : Stands tier tokens left p) (h : extended power left p = .ok node q)
    (herrors : q.errors = p.errors) :
    Derives (.expression (tierOf power) node) tokens q.advance.tokens ∧
      q.advance.current.kind.precedence.rank ≤ power.rank := by
  induction hlength : p.tokens.length using Nat.strongRecOn generalizing p left tier with
  | ind n ih =>
    have hstop (hrank : p.advance.current.kind.precedence.rank ≤ power.rank)
        (h : (pure left : Rule Node) p = .ok node q) :
        Derives (.expression (tierOf power) node) tokens q.advance.tokens ∧
          q.advance.current.kind.precedence.rank ≤ power.rank := by
      obtain ⟨rfl, rfl⟩ := pure_eq_ok.mp h
      exact ⟨hleft.1.descend hpower htier, hrank⟩
    rw [extended_eq, bind_run, peekKind_run, Parser.peek_eq] at h
    dsimp only at h
    by_cases hbinds : p.advance.current.kind ≠ .semicolon ∧
        power.rank < p.advance.current.kind.precedence.rank
    · rw [if_pos hbinds] at h
      cases hrule : infixRule? expression p.advance.current.kind with
      | none =>
        rw [infixRule?_none hrule] at hbinds
        exact absurd (rank_pos power) (Nat.not_lt.mpr (Nat.le_of_lt_succ hbinds.2))
      | some rule =>
        simp only [hrule, bind_eq_ok, advance_eq_ok, exists_const, exists_eq_left] at h
        rcases h with ⟨longer, r, hlonger, h⟩
        have hr : p.Ahead r := p.ahead_advance.trans ((steady_infixRule hrule left).ahead_of_ok hlonger)
        have hq : r.Ahead q := (bounded_continued power longer).steady_closed.ahead_of_ok h
        obtain ⟨hr', herrors'⟩ := hr.errors_eq hq herrors
        obtain ⟨tier', htier', hstands, hpower'⟩ :=
          stands_infixRule he hp.next htier hleft.1 hleft.2 hrule hlonger hr'
        have hlt : r.tokens.length < n := by
          have hle := ((steady_infixRule hrule left).ahead_of_ok hlonger).length_le
          have hne : p.advance.current.kind ≠ .eof := fun heof => by simp [heof, infixRule?] at hrule
          have htokens := congrArg List.length (Parser.tokens_eq rfl hne)
          simp only [Parser.advance_tokens, List.length_tail, List.length_cons] at hle htokens
          omega
        exact ih _ hlt (hp.ahead hr) (hpower' power hbinds.2) htier' hstands h herrors' rfl
    · rw [if_neg hbinds] at h
      refine hstop ?_ h
      by_cases hsemicolon : p.advance.current.kind = .semicolon
      · rw [hsemicolon]
        exact rank_pos power
      · exact Nat.not_lt.mp fun hrank => hbinds ⟨hsemicolon, hrank⟩

theorem derives_expression {power : Precedence} (hp : p.Within (k + 1))
    (h : expression power p = .ok node q) (herrors : q.errors = p.errors) :
    Derives (.expression (tierOf power) node) p.tokens q.advance.tokens ∧
      q.advance.current.kind.precedence.rank ≤ power.rank := by
  rw [expression_run] at h
  cases hrule : prefixRule? expression p.current.kind with
  | none => rw [hrule] at h; cases h
  | some rule =>
    simp only [hrule, bind_eq_ok] at h
    rcases h with ⟨left, r, hleft, h⟩
    have hr : p.Ahead r := (steady_prefixRule hrule).ahead_of_ok hleft
    obtain ⟨hr', herrors'⟩ :=
      hr.errors_eq ((bounded_continued power left).steady_closed.ahead_of_ok h) herrors
    obtain ⟨tier, hunary, hpostfix, hstands⟩ := stands_prefixRule he hp hrule hleft hr'
    have hpower : tierOf power ≤ tier := Nat.le_trans (Nat.min_le_right _ _) hunary
    exact derives_extended he (hp.ahead hr) hpower hpostfix hstands h herrors'

end Parts

theorem expressionsDerived (k : Nat) : ExpressionsDerived k := by
  induction k with
  | zero =>
    intro p q power node hp h
    have hnil := tokens_eq_nil_of_length_le hp.length_le
    rw [expression, expressionWithin_nil _ _ hnil] at h
    cases h
  | succ k ih => exact fun p q power node hp h herrors => derives_expression ih hp h herrors

end Rule

/-- A program that is read without errors is derived. -/
theorem Parser.derives_program {p : Parser} (hp : p.Scanned) (h : p.program.2.errors = p.errors) :
    Program p.tokens p.program.1 := by
  have hwithin : p.Within p.tokens.length := ⟨Nat.le_refl _, hp⟩
  obtain ⟨hderives, hcloses⟩ := Rule.derives_statements (Rule.expressionsDerived _) rfl hwithin rfl h
  have hlast : p.program.2.tokens = [] :=
    (hwithin.ahead (Rule.ahead_statements _ p)).scanned.eq_nil (of_decide_eq_true hcloses)
  rw [Program, ← hlast]
  exact hderives

end Monkey
