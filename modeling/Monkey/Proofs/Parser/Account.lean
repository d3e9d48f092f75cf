import Monkey.Proofs.Grammar.Language

/-!
# An account of the statements that are tried

A parse rule records no errors, because whoever calls it decides what becomes of its failure. So nothing
in the parser counts the statements that are given up inside a construct that is itself given up later.
A procedure does count them. It parses by the same steps as a rule, but it records an error where the
error arises, it says with `none` that nothing came of a construct, and it keeps an account of what came
of every statement it tried, at whatever depth. A procedure also says when its bound is too small: it then has
no result at all, whereas a rule would take some other way.

* `Mirrors`: a procedure gives what a rule gives, or records the error that the rule fails with.
* `Balanced`: among the statements tried on the way from one place to another, as many gave nothing as
  there are new errors, and there are no more statements than tokens on that way.
* `parsing_accounts`: so the procedure for a program never meets a bound that is as great as the number of tokens,
  it ends at the end of the text, and the errors of a parse are as many as the statements of which nothing came.
-/

namespace Monkey

/-- The place of a parser, and what came of each statement that was tried, in the order in which their
    parses ended. -/
structure Account where
  parser : Parser
  tried : List (Option Node) := []

/-- A parse that keeps an account, or that has no result because it met its bound. -/
abbrev Procedure := StateT Account Option

namespace Procedure

variable {α : Type}

/-! ### Steps -/

def current : Procedure Token := do
  return (← get).parser.current

def peekKind : Procedure TokenKind := do
  return (← get).parser.peek.kind

def advance : Procedure Unit :=
  modify fun account => { account with parser := account.parser.advance }

/-- Record an error and give nothing. -/
def fail (error : ParseError) : Procedure (Option α) := do
  modify fun account => { account with parser := account.parser.record error }
  return none

def expect (wanted : TokenKind) : Procedure (Option Unit) := do
  let got ← peekKind
  if got = wanted then
    advance
    return some ()
  else fail (.unexpected wanted got)

def accept (kind : TokenKind) : Procedure Bool := do
  if (← peekKind) = kind then
    advance
    return true
  else
    return false

/-- Enter into the account what came of a statement. -/
def note (outcome : Option Node) : Procedure Unit :=
  modify fun account => { account with tried := account.tried ++ [outcome] }

/-! ### Constructs -/

def integerLiteral : Procedure (Option Node) := do
  let token ← current
  match Rule.integerValue? token.literal with
  | some value => return some (.integer token value)
  | none => fail (.badInteger token.literal)

def identifier : Procedure (Option Node) := do
  return some (.identifier (.ofToken (← current)))

def stringLiteral : Procedure (Option Node) := do
  let token ← current
  return some (.string token token.literal)

def booleanLiteral : Procedure (Option Node) := do
  let token ← current
  return some (.boolean token (token.kind = .trueKw))

/-- Whether a token can go on with an expression in front of it. -/
def continues (kind : TokenKind) : Bool :=
  match kind with
  | .plus | .minus | .slash | .asterisk | .eq | .notEq | .lt | .gt | .lparen | .lbracket => true
  | _ => false

/-- At most so many parameter names with commas between them. -/
def names : Nat → Procedure (Option (List Identifier))
  | 0 => failure
  | bound + 1 => do
    let some _ ← expect .ident | return none
    let name ← current
    if ← accept .comma then
      let some rest ← names bound | return none
      return some (.ofToken name :: rest)
    else
      return some [.ofToken name]

def parameters (bound : Nat) : Procedure (Option (List Identifier)) := do
  if ← accept .rparen then
    return some []
  else
    let some list ← names bound | return none
    let some _ ← expect .rparen | return none
    return some list

section Open

variable (bound : Nat) (expr : Precedence → Procedure (Option Node))

def letStatement : Procedure (Option Node) := do
  let token ← current
  let some _ ← expect .ident | return none
  let target ← current
  let some _ ← expect .assign | return none
  advance
  let some value ← expr .lowest | return none
  let _ ← accept .semicolon
  return some (.letStatement token (.ofToken target) value)

def returnStatement : Procedure (Option Node) := do
  let token ← current
  advance
  let some value ← expr .lowest | return none
  let _ ← accept .semicolon
  return some (.returnStatement token value)

def expressionStatement : Procedure (Option Node) := do
  let token ← current
  let some value ← expr .lowest | return none
  let _ ← accept .semicolon
  return some (.expressionStatement token value)

def unnotedStatement : Procedure (Option Node) := do
  let token ← current
  match token.kind with
  | .letKw => letStatement expr
  | .returnKw => returnStatement expr
  | _ => expressionStatement expr

/-- Try a statement and enter it into the account. -/
def statement : Procedure (Option Node) := do
  let outcome ← unnotedStatement expr
  note outcome
  return outcome

/-- What the statements up to a closing token give, with at most so many rounds. -/
def statements (closes : TokenKind → Bool) : Nat → Procedure (List Node)
  | 0 => failure
  | rounds + 1 => do
    let token ← current
    if closes token.kind then
      return []
    else
      let outcome ← statement expr
      advance
      let rest ← statements closes rounds
      return outcome.toList ++ rest

def block : Procedure Node := do
  let token ← current
  advance
  let body ← statements expr Rule.closesBlock bound
  return .block token body

def prefixExpression : Procedure (Option Node) := do
  let token ← current
  advance
  let some right ← expr .prefixed | return none
  return some (.prefixed token token.literal right)

def groupedExpression : Procedure (Option Node) := do
  advance
  let some inner ← expr .lowest | return none
  let some _ ← expect .rparen | return none
  return some inner

/-- The block behind `else`, or no block. -/
def alternative : Procedure (Option Node) := do
  if ← accept .elseKw then
    let some _ ← expect .lbrace | return none
    let otherwise ← block bound expr
    return some otherwise
  else
    return some .missing

def conditional : Procedure (Option Node) := do
  let token ← current
  let some _ ← expect .lparen | return none
  advance
  let some condition ← expr .lowest | return none
  let some _ ← expect .rparen | return none
  let some _ ← expect .lbrace | return none
  let consequence ← block bound expr
  let some otherwise ← alternative bound expr | return none
  return some (.conditional token condition consequence otherwise)

def functionLiteral : Procedure (Option Node) := do
  let token ← current
  let some _ ← expect .lparen | return none
  let some names ← parameters bound | return none
  let some _ ← expect .lbrace | return none
  let body ← block bound expr
  return some (.function token names body)

/-- At most so many expressions with commas between them. -/
def items : Nat → Procedure (Option (List Node))
  | 0 => failure
  | bound + 1 => do
    let some item ← expr .lowest | return none
    if ← accept .comma then
      advance
      let some rest ← items bound | return none
      return some (item :: rest)
    else
      return some [item]

def expressionList (last : TokenKind) : Procedure (Option (List Node)) := do
  if ← accept last then
    return some []
  else
    advance
    let some list ← items expr bound | return none
    let some _ ← expect last | return none
    return some list

def arrayLiteral : Procedure (Option Node) := do
  let token ← current
  let some elements ← expressionList bound expr .rbracket | return none
  return some (.array token elements)

/-- At most so many pairs of a hash, from the token in front of them up to the closing brace. -/
def pairs : Nat → Procedure (Option (List (Node × Node)))
  | 0 => failure
  | bound + 1 => do
    advance
    let some key ← expr .lowest | return none
    let some _ ← expect .colon | return none
    advance
    let some value ← expr .lowest | return none
    if ← accept .rbrace then
      return some [(key, value)]
    else
      let some _ ← expect .comma | return none
      let some rest ← pairs bound | return none
      return some ((key, value) :: rest)

def hashLiteral : Procedure (Option Node) := do
  let token ← current
  if ← accept .rbrace then
    return some (.hash token [])
  else
    let some entries ← pairs expr bound | return none
    return some (.hash token entries)

/-- The construct that starts with a token. -/
def start (kind : TokenKind) : Procedure (Option Node) :=
  match kind with
  | .ident => identifier
  | .int => integerLiteral
  | .string => stringLiteral
  | .trueKw | .falseKw => booleanLiteral
  | .bang | .minus => prefixExpression expr
  | .lparen => groupedExpression expr
  | .ifKw => conditional bound expr
  | .functionKw => functionLiteral bound expr
  | .lbracket => arrayLiteral bound expr
  | .lbrace => hashLiteral bound expr
  | _ => fail (.noPrefixRule kind)

def binaryExpression (left : Node) : Procedure (Option Node) := do
  let token ← current
  advance
  let some right ← expr token.kind.precedence | return none
  return some (.binary token left token.literal right)

def callExpression (callee : Node) : Procedure (Option Node) := do
  let token ← current
  let some arguments ← expressionList bound expr .rparen | return none
  return some (.call token callee arguments)

def indexExpression (left : Node) : Procedure (Option Node) := do
  let token ← current
  advance
  let some subscript ← expr .lowest | return none
  let some _ ← expect .rbracket | return none
  return some (.index token left subscript)

/-- The construct that goes on with an expression in front of its token. -/
def longer (kind : TokenKind) (left : Node) : Procedure (Option Node) :=
  match kind with
  | .lparen => callExpression bound expr left
  | .lbracket => indexExpression expr left
  | _ => binaryExpression expr left

/-- What follows an expression and binds tighter than `power`, added to it in at most so many rounds. -/
def extended (power : Precedence) : Nat → Node → Procedure (Option Node)
  | 0, _ => failure
  | rounds + 1, left => do
    let next ← peekKind
    if next ≠ .semicolon ∧ power.rank < next.precedence.rank ∧ continues next then
      advance
      let some longer ← longer bound expr next left | return none
      extended power rounds longer
    else
      return some left

def expressionWith (power : Precedence) : Procedure (Option Node) := do
  let token ← current
  let some left ← start bound expr token.kind | return none
  extended bound expr power bound left

end Open

/-- An expression whose constructs nest at most `depth` deep. -/
def expressionWithin (bound : Nat) : Nat → Precedence → Procedure (Option Node)
  | 0, _ => failure
  | depth + 1, power => expressionWith bound (expressionWithin bound depth) power

/-- Parse a program, statement by statement up to the end of the text, where nothing is repeated more often and
    nested more deeply than the bound says. -/
def program (bound : Nat) : Procedure (List Node) :=
  statements (expressionWithin bound bound) Rule.closesProgram bound

/-! ### Running the steps -/

variable {β : Type} {k bound : Nat} {p q r : Parser} {account : Account}

theorem bind_run (x : Procedure α) (f : α → Procedure β) (account : Account) :
    (x >>= f) account = (x account).bind fun result => f result.1 result.2 :=
  rfl

theorem bind_some {x : Procedure α} {value : α} {account account' : Account}
    (h : x account = some (value, account')) (f : α → Procedure β) :
    (x >>= f) account = f value account' := by
  rw [bind_run, h]
  rfl

theorem expect_run (wanted : TokenKind) (account : Account) : expect wanted account =
    if account.parser.peek.kind = wanted then some (some (), { account with parser := account.parser.advance })
    else some (none,
      { account with parser := account.parser.record (.unexpected wanted account.parser.peek.kind) }) := by
  have hpeek : peekKind account = some (account.parser.peek.kind, account) := rfl
  rw [expect, bind_some hpeek]
  split <;> rfl

theorem accept_run (kind : TokenKind) (account : Account) : accept kind account =
    if account.parser.peek.kind = kind then some (true, { account with parser := account.parser.advance })
    else some (false, account) := by
  have hpeek : peekKind account = some (account.parser.peek.kind, account) := rfl
  rw [accept, bind_some hpeek]
  split <;> rfl

/-! ### Balanced accounts -/

/-- On the way from one place to another these statements were tried: as many of them gave nothing as there
    are new errors, and there are no more than there is room for in front of the tokens still to come. -/
structure Balanced (room : Nat) (p q : Parser) (tried : List (Option Node)) : Prop where
  ahead : p.Ahead q
  errors : q.errors.length = p.errors.length + tried.countP Option.isNone
  fits : tried.length + q.tokens.tail.length ≤ room

theorem balanced_refl (p : Parser) : Balanced p.tokens.tail.length p p [] :=
  ⟨.refl p, rfl, by simp⟩

theorem balanced_advance (p : Parser) : Balanced p.tokens.tail.length p p.advance [] := by
  refine ⟨p.ahead_advance, rfl, ?_⟩
  simp

theorem Balanced.trans {room : Nat} {tried tried' : List (Option Node)} (h : Balanced room p q tried)
    (h' : Balanced q.tokens.tail.length q r tried') : Balanced room p r (tried ++ tried') := by
  constructor
  · exact h.ahead.trans h'.ahead
  · rw [h'.errors, h.errors, List.countP_append, Nat.add_assoc]
  · have hfits := h.fits
    have hfits' := h'.fits
    rw [List.length_append]
    omega

/-! ### Procedures that follow a rule -/

/-- From an account, a procedure does what a rule does there, records the error if that fails, and keeps
    the account balanced. -/
inductive Mirrors (procedure : Procedure (Option α)) (rule : Rule α) (account : Account) : Prop where
  | gives {value : α} {p : Parser} {tried : List (Option Node)}
      (hrule : rule account.parser = .ok value p)
      (hrun : procedure account = some (some value, ⟨p, account.tried ++ tried⟩))
      (h : Balanced account.parser.tokens.tail.length account.parser p tried)
  | fails {failure : ParseError} {p : Parser} {tried : List (Option Node)}
      (hrule : rule account.parser = .error failure p)
      (hrun : procedure account = some (none, ⟨p.record failure, account.tried ++ tried⟩))
      (h : Balanced account.parser.tokens.tail.length account.parser p tried)

/-- A procedure that mirrors a rule wherever at most `k` tokens are left. -/
def Follows (k : Nat) (procedure : Procedure (Option α)) (rule : Rule α) : Prop :=
  ∀ account : Account, account.parser.tokens.length ≤ k → Mirrors procedure rule account

variable {procedure : Procedure (Option α)} {rule : Rule α} {g : α → Rule β}

theorem Follows.mono {j : Nat} (h : Follows k procedure rule) (hjk : j ≤ k) : Follows j procedure rule :=
  fun account hlength => h account (Nat.le_trans hlength hjk)

/-- Where a procedure and a rule go on alike behind some statements that were tried. -/
theorem Mirrors.behind {procedure' : Procedure (Option β)} {rule' : Rule β} {tried : List (Option Node)}
    {procedure : Procedure (Option β)} {rule : Rule β}
    (h : Mirrors procedure' rule' ⟨p, account.tried ++ tried⟩)
    (hbalanced : Balanced account.parser.tokens.tail.length account.parser p tried)
    (hrun : procedure account = procedure' ⟨p, account.tried ++ tried⟩)
    (hrule : rule account.parser = rule' p) : Mirrors procedure rule account := by
  cases h with
  | gives hrule' hrun' h' =>
    rw [List.append_assoc] at hrun'
    exact .gives (hrule.trans hrule') (hrun.trans hrun') (hbalanced.trans h')
  | fails hrule' hrun' h' =>
    rw [List.append_assoc] at hrun'
    exact .fails (hrule.trans hrule') (hrun.trans hrun') (hbalanced.trans h')

theorem Follows.bind {f : Option α → Procedure (Option β)} (hx : Follows k procedure rule)
    (hnone : f none = pure none) (hf : ∀ value, Follows k (f (some value)) (g value)) :
    Follows k (procedure >>= f) (rule >>= g) := by
  intro account hlength
  cases hx account hlength with
  | fails hrule hrun h =>
    exact .fails (by rw [Rule.bind_run, hrule]) (by rw [bind_some hrun, hnone]; rfl) h
  | @gives value p tried hrule hrun h =>
    have hlength' : p.tokens.length ≤ k := Nat.le_trans h.ahead.length_le hlength
    have hrest := hf value ⟨p, account.tried ++ tried⟩ hlength'
    exact hrest.behind h (bind_some hrun f) (by rw [Rule.bind_run, hrule])

theorem follows_pure (value : α) : Follows k (pure (some value)) (pure value) := by
  intro account _
  exact .gives rfl (by rw [List.append_nil]; rfl) (balanced_refl account.parser)

theorem follows_fail (failure : ParseError) :
    Follows k (fail failure : Procedure (Option α)) (throw failure) := by
  intro account _
  exact .fails rfl (by rw [List.append_nil]; rfl) (balanced_refl account.parser)

/-- Where a procedure and a rule have done the same and nothing that matters. -/
theorem Mirrors.congr {procedure procedure' : Procedure (Option β)} {rule rule' : Rule β}
    (h : Mirrors procedure' rule' account) (hrun : procedure account = procedure' account)
    (hrule : rule account.parser = rule' account.parser) : Mirrors procedure rule account := by
  cases h with
  | gives hrule' hrun' h' => exact .gives (hrule.trans hrule') (hrun.trans hrun') h'
  | fails hrule' hrun' h' => exact .fails (hrule.trans hrule') (hrun.trans hrun') h'

theorem follows_current {f : Token → Procedure (Option β)} {g : Token → Rule β}
    (hf : ∀ token, Follows k (f token) (g token)) : Follows k (current >>= f) (Rule.current >>= g) := by
  intro account hlength
  exact (hf account.parser.current account hlength).congr rfl rfl

/-- What goes on behind the next token as another procedure and another rule do there. -/
theorem Mirrors.behind_advance {procedure procedure' : Procedure (Option β)} {rule rule' : Rule β}
    (h : Mirrors procedure' rule' { account with parser := account.parser.advance })
    (hrun : procedure account = procedure' { account with parser := account.parser.advance })
    (hrule : rule account.parser = rule' account.parser.advance) : Mirrors procedure rule account := by
  have hnone : account.tried ++ [] = account.tried := List.append_nil account.tried
  exact .behind (hnone.symm ▸ h) (balanced_advance account.parser) (hnone.symm ▸ hrun) hrule

/-- Moving on takes a token. -/
theorem follows_advance {f : Unit → Procedure (Option β)} {g : Unit → Rule β}
    (hf : Follows (k - 1) (f ()) (g ())) : Follows k (advance >>= f) (Rule.advance >>= g) := by
  intro account hlength
  have hlength' : account.parser.advance.tokens.length ≤ k - 1 := by
    rw [Parser.advance_tokens, List.length_tail]
    omega
  exact (hf _ hlength').behind_advance rfl rfl

/-- In front of a token that is not the end at least that token is left. -/
theorem length_advance_lt {kind : TokenKind} (hkind : kind ≠ .eof) (h : p.peek.kind = kind)
    (hlength : p.tokens.length ≤ k) : p.advance.tokens.length < k := by
  rcases p with ⟨_ | ⟨token, tokens⟩, line, column, errors⟩
  · exact absurd h.symm hkind
  · exact hlength

theorem follows_expect {wanted : TokenKind} {f : Option Unit → Procedure (Option β)} {g : Unit → Rule β}
    (hwanted : wanted ≠ .eof) (hnone : f none = pure none)
    (hf : ∀ j < k, Follows j (f (some ())) (g ())) :
    Follows k (expect wanted >>= f) (Rule.expect wanted >>= g) := by
  intro account hlength
  have hexpect := expect_run wanted account
  have hrule := Rule.expect_run wanted account.parser
  by_cases hkind : account.parser.peek.kind = wanted
  · rw [if_pos hkind] at hexpect hrule
    have hrest := hf _ (length_advance_lt hwanted hkind hlength) { account with parser := _ } (Nat.le_refl _)
    exact hrest.behind_advance (bind_some hexpect f) (by rw [Rule.bind_run, hrule])
  · rw [if_neg hkind] at hexpect hrule
    have hfails : Follows k (fail _ : Procedure (Option β)) (throw _) :=
      follows_fail (.unexpected wanted account.parser.peek.kind)
    refine (hfails account hlength).congr ?_ (by rw [Rule.bind_run, hrule]; rfl)
    rw [bind_some hexpect f, hnone]
    rfl

theorem follows_accept {kind : TokenKind} {yes no : Procedure (Option β)} {yes' no' : Rule β}
    (hkind : kind ≠ .eof) (hyes : ∀ j < k, Follows j yes yes') (hno : Follows k no no') :
    Follows k (accept kind >>= fun found => if found = true then yes else no)
      (Rule.accept kind >>= fun found => if found = true then yes' else no') := by
  intro account hlength
  have haccept := accept_run kind account
  have hrule := Rule.accept_run kind account.parser
  by_cases hnext : account.parser.peek.kind = kind
  · rw [if_pos hnext] at haccept hrule
    have hrest := hyes _ (length_advance_lt hkind hnext hlength) { account with parser := _ } (Nat.le_refl _)
    exact hrest.behind_advance (bind_some haccept _) (by rw [Rule.bind_run, hrule]; rfl)
  · rw [if_neg hnext] at haccept hrule
    exact (hno account hlength).congr (bind_some haccept _) (by rw [Rule.bind_run, hrule]; rfl)

/-- A statement ends with a semicolon if there is one. -/
theorem follows_semicolon (node : Node) :
    Follows k (accept .semicolon >>= fun _ => pure (some node))
      (Rule.accept .semicolon >>= fun _ => pure node) := by
  have hnever : TokenKind.semicolon ≠ .eof := nofun
  have heither := follows_accept hnever (fun j (_ : j < k) => follows_pure node) (follows_pure node)
  simpa only [ite_self] using heither

/-! ### The procedures of constructs -/

theorem follows_integerLiteral : Follows k integerLiteral Rule.integerLiteral := by
  apply follows_current
  intro token
  cases Rule.integerValue? token.literal with
  | some value => exact follows_pure _
  | none => exact follows_fail _

theorem follows_names (hk : k < bound) : Follows k (names bound) Rule.names := by
  induction bound generalizing k with
  | zero => exact absurd hk (Nat.not_lt_zero k)
  | succ bound ih =>
    rw [names, Rule.names_eq]
    refine follows_expect (by decide) rfl fun j hj => follows_current fun name => ?_
    refine follows_accept (by decide) (fun i hi => ?_) (follows_pure _)
    have hlt : i < bound := by omega
    exact (ih hlt).bind rfl fun rest => follows_pure _

theorem follows_parameters (hk : k < bound) : Follows k (parameters bound) Rule.parameters := by
  rw [parameters, Rule.parameters_eq]
  refine follows_accept nofun (fun j _ => follows_pure _) ?_
  exact (follows_names hk).bind rfl fun list => follows_expect nofun rfl fun j _ => follows_pure _

section Parts

variable {expr : Precedence → Procedure (Option Node)}
  (he : ∀ power, Follows k (expr power) (Rule.expression power))

include he

theorem follows_letStatement : Follows k (letStatement expr) (Rule.letStatement Rule.expression) := by
  rw [letStatement]
  refine follows_current fun token => follows_expect nofun rfl fun j hj => ?_
  refine follows_current fun target => follows_expect nofun rfl fun i hi => ?_
  have hle : i - 1 ≤ k := by omega
  apply follows_advance
  exact ((he .lowest).mono hle).bind rfl fun value => follows_semicolon _

theorem follows_returnStatement : Follows k (returnStatement expr) (Rule.returnStatement Rule.expression) := by
  rw [returnStatement]
  refine follows_current fun token => follows_advance ?_
  exact ((he .lowest).mono (Nat.sub_le k 1)).bind rfl fun value => follows_semicolon _

theorem follows_expressionStatement :
    Follows k (expressionStatement expr) (Rule.expressionStatement Rule.expression) := by
  rw [expressionStatement]
  apply follows_current
  intro token
  exact (he .lowest).bind rfl fun value => follows_semicolon _

theorem follows_unnotedStatement : Follows k (unnotedStatement expr) (Rule.statement Rule.expression) := by
  rw [unnotedStatement]
  apply follows_current
  intro token
  cases token.kind
  case letKw => exact follows_letStatement he
  case returnKw => exact follows_returnStatement he
  all_goals exact follows_expressionStatement he

/-- A statement that is tried is noted, and a sequence goes on behind it with what it gave. -/
theorem statement_run (hlength : account.parser.tokens.length ≤ k) : ∃ outcome p tried,
    statement expr account = some (outcome, ⟨p, account.tried ++ tried⟩) ∧
      Balanced (account.parser.tokens.tail.length + 1) account.parser p tried ∧
      ∀ closes : TokenKind → Bool, closes .eof = true → closes account.parser.current.kind ≠ true →
        Rule.statements Rule.expression closes account.parser =
          (outcome.toList ++ (Rule.statements Rule.expression closes p.advance).1,
            (Rule.statements Rule.expression closes p.advance).2) := by
  cases follows_unnotedStatement he account hlength with
  | @gives node p tried hrule hrun h =>
    refine ⟨some node, p, tried ++ [some node], ?_, ?_, ?_⟩
    · rw [statement, bind_some hrun, ← List.append_assoc]
      rfl
    · have hfits := h.fits
      refine ⟨h.ahead, by simp [h.errors], ?_⟩
      rw [List.length_append, List.length_singleton]
      omega
    · intro closes hcloses hopen
      rw [Rule.statements_eq hcloses, if_neg hopen, hrule]
      rfl
  | @fails failure p tried hrule hrun h =>
    refine ⟨none, p.record failure, tried ++ [none], ?_, ?_, ?_⟩
    · rw [statement, bind_some hrun, ← List.append_assoc]
      rfl
    · have hfits := h.fits
      refine ⟨h.ahead.trans (p.ahead_record failure), by simp [Parser.record, h.errors, Nat.add_assoc], ?_⟩
      show _ + p.tokens.tail.length ≤ _
      rw [List.length_append, List.length_singleton]
      omega
    · intro closes hcloses hopen
      rw [Rule.statements_eq hcloses, if_neg hopen, hrule]
      rfl

/-- Statements are tried up to a closing token, and those that give something are the ones that the rule
    gives. Each round takes a token. -/
theorem statements_run {closes : TokenKind → Bool} (hcloses : closes .eof = true) {rounds : Nat}
    (account : Account) (hlength : account.parser.tokens.length ≤ k)
    (hrounds : account.parser.tokens.length < rounds) :
    ∃ tried, statements expr closes rounds account =
        some ((Rule.statements Rule.expression closes account.parser).1,
          ⟨(Rule.statements Rule.expression closes account.parser).2, account.tried ++ tried⟩) ∧
      Balanced account.parser.tokens.length account.parser
        (Rule.statements Rule.expression closes account.parser).2 tried ∧
      closes (Rule.statements Rule.expression closes account.parser).2.current.kind = true := by
  induction rounds generalizing account with
  | zero => exact absurd hrounds (Nat.not_lt_zero _)
  | succ rounds ih =>
    have hcurrent : current account = some (account.parser.current, account) := rfl
    rw [statements, bind_some hcurrent]
    by_cases hclose : closes account.parser.current.kind = true
    · rw [Rule.statements_eq hcloses, if_pos hclose, if_pos hclose]
      refine ⟨[], by rw [List.append_nil]; rfl, ⟨.refl _, rfl, ?_⟩, hclose⟩
      simp
    · obtain ⟨outcome, p, tried, hrun, h, hstep⟩ := statement_run he hlength
      have htokens : account.parser.tokens.tail.length + 1 = account.parser.tokens.length := by
        cases htokens : account.parser.tokens with
        | nil => exact absurd (Rule.current_kind_of_nil htokens ▸ hcloses) hclose
        | cons token rest => rfl
      have hlt : p.advance.tokens.length < account.parser.tokens.length := by
        have hle := h.ahead.length_le
        rw [Parser.advance_tokens, List.length_tail]
        omega
      have hfewer : p.advance.tokens.length < rounds := Nat.lt_of_lt_of_le hlt (Nat.le_of_lt_succ hrounds)
      obtain ⟨tried', hrest, h', hcloses'⟩ :=
        ih ⟨p.advance, account.tried ++ tried⟩ (Nat.le_trans (Nat.le_of_lt hlt) hlength) hfewer
      rw [if_neg hclose, bind_some hrun, hstep closes hcloses hclose]
      have hnext : Balanced p.tokens.tail.length p _ tried' :=
        ⟨p.ahead_advance.trans h'.ahead, h'.errors, h'.fits⟩
      refine ⟨tried ++ tried', ?_, htokens ▸ h.trans hnext, hcloses'⟩
      have hadvance : advance ⟨p, account.tried ++ tried⟩ =
        some ((), ⟨p.advance, account.tried ++ tried⟩) := rfl
      rw [bind_some hadvance, bind_some hrest, List.append_assoc]
      rfl

theorem block_run (hk : k < bound) (hlength : account.parser.tokens.length ≤ k) : ∃ node p tried,
    block bound expr account = some (node, ⟨p, account.tried ++ tried⟩) ∧
      Rule.block Rule.expression account.parser = .ok node p ∧
      Balanced account.parser.tokens.tail.length account.parser p tried := by
  have hle := account.parser.ahead_advance.length_le
  have hcloses : Rule.closesBlock .eof = true := rfl
  have hadvanced := Nat.le_trans hle hlength
  obtain ⟨tried, hrun, h, -⟩ := statements_run he hcloses
    { account with parser := account.parser.advance } hadvanced (Nat.lt_of_le_of_lt hadvanced hk)
  refine ⟨_, _, tried, ?_, Rule.block_run account.parser, ?_⟩
  · have hcurrent : current account = some (account.parser.current, account) := rfl
    have hadvance : advance account = some ((), { account with parser := account.parser.advance }) := rfl
    rw [block, bind_some hcurrent, bind_some hadvance, bind_some hrun]
    rfl
  · exact ⟨account.parser.ahead_advance.trans h.ahead, h.errors, h.fits⟩

theorem follows_block (hk : k < bound) {f : Node → Procedure (Option Node)} {g : Node → Rule Node}
    (hf : ∀ node, Follows k (f node) (g node)) :
    Follows k (block bound expr >>= f) (Rule.block Rule.expression >>= g) := by
  intro account hlength
  obtain ⟨node, p, tried, hrun, hrule, h⟩ := block_run he hk hlength
  have hrest := hf node ⟨p, account.tried ++ tried⟩ (Nat.le_trans h.ahead.length_le hlength)
  exact hrest.behind h (bind_some hrun f) (by rw [Rule.bind_run, hrule])

theorem follows_items (hk : k < bound) : Follows k (items expr bound) Rule.items := by
  induction bound generalizing k with
  | zero => exact absurd hk (Nat.not_lt_zero k)
  | succ bound ih =>
    rw [items, Rule.items_eq]
    refine (he .lowest).bind rfl fun item => ?_
    refine follows_accept (by decide) (fun j hj => follows_advance ?_) (follows_pure _)
    have hle : j - 1 ≤ k := by omega
    have hlt : j - 1 < bound := by omega
    exact (ih (fun power => (he power).mono hle) hlt).bind rfl fun rest => follows_pure _

theorem follows_pairs (hk : k < bound) : Follows (k + 1) (pairs expr bound) Rule.pairs := by
  induction bound generalizing k with
  | zero => exact absurd hk (Nat.not_lt_zero k)
  | succ bound ih =>
    rw [pairs, Rule.pairs_eq]
    simp only [Rule.hashPair, bind_assoc, pure_bind]
    apply follows_advance
    refine (he .lowest).bind rfl fun key => follows_expect (by decide) rfl fun j hj => ?_
    have hle : j - 1 ≤ k := by omega
    apply follows_advance
    refine ((he .lowest).mono hle).bind rfl fun value => ?_
    refine follows_accept (by decide) (fun i _ => follows_pure _) ?_
    refine follows_expect (by decide) rfl fun i hi => ?_
    have hle' : i ≤ k := by omega
    have hlt : i < bound := by omega
    have hrest := (ih (fun power => (he power).mono hle') hlt).mono (Nat.le_succ i)
    exact hrest.bind rfl fun rest => follows_pure _

theorem follows_expressionList (hk : k < bound) (last : TokenKind) (hlast : last ≠ .eof) :
    Follows (k + 1) (expressionList bound expr last) (Rule.expressionList Rule.expression last) := by
  rw [expressionList, Rule.expressionList_eq]
  refine follows_accept hlast (fun j _ => follows_pure _) (follows_advance ?_)
  exact (follows_items he hk).bind rfl fun list => follows_expect hlast rfl fun j _ => follows_pure _

theorem follows_alternative (hk : k < bound) :
    Follows (k + 1) (alternative bound expr) (Rule.alternative Rule.expression) := by
  rw [alternative]
  refine follows_accept nofun (fun j hj => follows_expect nofun rfl fun i hi => ?_) (follows_pure _)
  have hle : i ≤ k := by omega
  have hblock := follows_block (fun power => (he power).mono hle) (Nat.lt_of_le_of_lt hle hk)
    fun node => follows_pure node
  rwa [bind_pure] at hblock

theorem follows_conditional (hk : k < bound) :
    Follows (k + 1) (conditional bound expr) (Rule.conditional Rule.expression) := by
  rw [conditional]
  refine follows_current fun token => follows_expect nofun rfl fun j hj => follows_advance ?_
  have hj' : j - 1 ≤ k := by omega
  refine ((he .lowest).mono hj').bind rfl fun condition => follows_expect nofun rfl fun i hi => ?_
  refine follows_expect nofun rfl fun m hm => ?_
  have hm' : m ≤ k := by omega
  have hbound := Nat.lt_of_le_of_lt hm' hk
  have hinner := fun power => (he power).mono hm'
  refine follows_block hinner hbound fun consequence => ?_
  have halternative := (follows_alternative hinner hbound).mono (Nat.le_succ m)
  exact halternative.bind rfl fun otherwise => follows_pure _

theorem follows_functionLiteral (hk : k < bound) :
    Follows (k + 1) (functionLiteral bound expr) (Rule.functionLiteral Rule.expression) := by
  rw [functionLiteral]
  refine follows_current fun token => follows_expect nofun rfl fun j hj => ?_
  have hj' : j < bound := by omega
  refine (follows_parameters hj').bind rfl fun names => follows_expect nofun rfl fun i hi => ?_
  have hle : i ≤ k := by omega
  have hbound := Nat.lt_of_le_of_lt hle hk
  exact follows_block (fun power => (he power).mono hle) hbound fun body => follows_pure _

theorem follows_hashLiteral (hk : k < bound) :
    Follows (k + 1) (hashLiteral bound expr) (Rule.hashLiteral Rule.expression) := by
  rw [hashLiteral, Rule.hashLiteral_eq]
  refine follows_current fun token => follows_accept nofun (fun j _ => follows_pure _) ?_
  exact (follows_pairs he hk).bind rfl fun entries => follows_pure _

theorem follows_prefixExpression :
    Follows (k + 1) (prefixExpression expr) (Rule.prefixExpression Rule.expression) := by
  rw [prefixExpression]
  refine follows_current fun token => follows_advance ?_
  exact (he .prefixed).bind rfl fun right => follows_pure _

theorem follows_groupedExpression :
    Follows (k + 1) (groupedExpression expr) (Rule.groupedExpression Rule.expression) := by
  rw [groupedExpression]
  apply follows_advance
  exact (he .lowest).bind rfl fun inner => follows_expect nofun rfl fun j _ => follows_pure _

theorem follows_arrayLiteral (hk : k < bound) :
    Follows (k + 1) (arrayLiteral bound expr) (Rule.arrayLiteral Rule.expression) := by
  rw [arrayLiteral]
  apply follows_current
  intro token
  exact (follows_expressionList he hk .rbracket nofun).bind rfl fun elements => follows_pure _

theorem follows_start (hk : k < bound) {kind : TokenKind} {rule : Rule Node}
    (h : Rule.prefixRule? Rule.expression kind = some rule) :
    Follows (k + 1) (start bound expr kind) rule := by
  have hatom (node : Token → Node) : Follows (k + 1) (do return some (node (← current)))
      (do return node (← Rule.current)) := follows_current fun token => follows_pure _
  cases kind
  case ident => cases h; exact hatom fun token => .identifier (.ofToken token)
  case int => cases h; exact follows_integerLiteral
  case string => cases h; exact hatom fun token => .string token token.literal
  case trueKw | falseKw => cases h; exact hatom fun token => .boolean token (token.kind = .trueKw)
  case bang | minus => cases h; exact follows_prefixExpression he
  case lparen => cases h; exact follows_groupedExpression he
  case ifKw => cases h; exact follows_conditional he hk
  case functionKw => cases h; exact follows_functionLiteral he hk
  case lbracket => cases h; exact follows_arrayLiteral he hk
  case lbrace => cases h; exact follows_hashLiteral he hk
  all_goals cases h

omit he in
theorem start_eq_fail {kind : TokenKind} (h : Rule.prefixRule? Rule.expression kind = none) :
    start bound expr kind = fail (.noPrefixRule kind) := by
  cases kind <;> first | rfl | cases h

theorem follows_binaryExpression (left : Node) :
    Follows (k + 1) (binaryExpression expr left) (Rule.binaryExpression Rule.expression left) := by
  rw [binaryExpression]
  refine follows_current fun token => follows_advance ?_
  exact (he _).bind rfl fun right => follows_pure _

theorem follows_callExpression (hk : k < bound) (callee : Node) :
    Follows (k + 1) (callExpression bound expr callee) (Rule.callExpression Rule.expression callee) := by
  rw [callExpression]
  apply follows_current
  intro token
  exact (follows_expressionList he hk .rparen nofun).bind rfl fun arguments => follows_pure _

theorem follows_indexExpression (left : Node) :
    Follows (k + 1) (indexExpression expr left) (Rule.indexExpression Rule.expression left) := by
  rw [indexExpression]
  refine follows_current fun token => follows_advance ?_
  exact (he .lowest).bind rfl fun subscript => follows_expect nofun rfl fun j _ => follows_pure _

theorem follows_longer (hk : k < bound) {kind : TokenKind} {rule : Node → Rule Node}
    (h : Rule.infixRule? Rule.expression kind = some rule) (left : Node) :
    Follows (k + 1) (longer bound expr kind left) (rule left) := by
  cases kind
  case plus | minus | slash | asterisk | eq | notEq | lt | gt =>
    cases h
    exact follows_binaryExpression he left
  case lparen => cases h; exact follows_callExpression he hk left
  case lbracket => cases h; exact follows_indexExpression he left
  all_goals cases h

omit he in
theorem continues_eq (kind : TokenKind) :
    continues kind = (Rule.infixRule? Rule.expression kind).isSome := by
  cases kind <;> rfl

/-- The loop that goes on with an expression stops because each round takes a token. -/
theorem follows_extended (hk : k < bound) (power : Precedence) (left : Node) {j rounds : Nat} (hj : j ≤ k + 1)
    (hrounds : j < rounds) :
    Follows j (extended bound expr power rounds left) (Rule.extended power left) := by
  induction rounds generalizing j left with
  | zero => exact absurd hrounds (Nat.not_lt_zero j)
  | succ rounds ih =>
    intro account hlength
    have hpeek : peekKind account = some (account.parser.peek.kind, account) := rfl
    have hstop := follows_pure (k := j) left account hlength
    cases hrule : Rule.infixRule? Rule.expression account.parser.peek.kind with
    | none =>
      have hnone := (continues_eq account.parser.peek.kind).trans (congrArg Option.isSome hrule)
      apply hstop.congr
      · rw [extended, bind_some hpeek, if_neg (by simp [hnone])]
      · rw [Rule.extended_eq, Rule.bind_run, Rule.peekKind_run]
        simp only [hrule, ite_self]
    | some rule =>
      have hsome := (continues_eq account.parser.peek.kind).trans (congrArg Option.isSome hrule)
      have hne : account.parser.peek.kind ≠ .eof := fun heof => by simp [heof, continues] at hsome
      by_cases hgo : account.parser.peek.kind ≠ .semicolon ∧
          power.rank < account.parser.peek.kind.precedence.rank
      · have hlt := length_advance_lt hne rfl hlength
        have hrest : Follows account.parser.advance.tokens.length
            (do
              let some longer ← longer bound expr account.parser.peek.kind left | return none
              extended bound expr power rounds longer)
            (rule left >>= Rule.extended power) :=
          ((follows_longer he hk hrule left).mono (by omega)).bind rfl fun longer =>
            ih longer (by omega) (by omega)
        apply (hrest { account with parser := account.parser.advance } (Nat.le_refl _)).behind_advance
        · rw [extended, bind_some hpeek, if_pos ⟨hgo.1, hgo.2, hsome⟩]
          rfl
        · rw [Rule.extended_eq, Rule.bind_run, Rule.peekKind_run]
          simp only [if_pos hgo, hrule]
          rfl
      · apply hstop.congr
        · rw [extended, bind_some hpeek, if_neg fun h => hgo ⟨h.1, h.2.1⟩]
        · rw [Rule.extended_eq, Rule.bind_run, Rule.peekKind_run]
          simp only [if_neg hgo]

omit he in
/-- Where no expression starts the procedure and the rule fail alike. -/
theorem mirrors_expressionWith_of_none (power : Precedence)
    (h : Rule.prefixRule? Rule.expression account.parser.current.kind = none) :
    Mirrors (expressionWith bound expr power) (Rule.expression power) account := by
  have hcurrent : current account = some (account.parser.current, account) := rfl
  have hfail := follows_fail (α := Node) (.noPrefixRule account.parser.current.kind) account (Nat.le_refl _)
  apply hfail.congr
  · rw [expressionWith, bind_some hcurrent, start_eq_fail h]
    rfl
  · rw [Rule.expression_run, h]
    rfl

theorem follows_expressionWith (hk : k + 1 < bound) (power : Precedence) :
    Follows (k + 1) (expressionWith bound expr power) (Rule.expression power) := by
  intro account hlength
  cases hrule : Rule.prefixRule? Rule.expression account.parser.current.kind with
  | none => exact mirrors_expressionWith_of_none power hrule
  | some rule =>
    have hcurrent : current account = some (account.parser.current, account) := rfl
    have hlt : k < bound := Nat.lt_of_succ_lt hk
    have hstart : Follows (k + 1)
        (do
          let some left ← start bound expr account.parser.current.kind | return none
          extended bound expr power bound left)
        (rule >>= Rule.extended power) :=
      (follows_start he hlt hrule).bind rfl fun left => follows_extended he hlt power left (Nat.le_refl _) hk
    apply (hstart account hlength).congr
    · rw [expressionWith, bind_some hcurrent]
    · rw [Rule.expression_run, hrule]

end Parts

/-- What is nested takes tokens too. -/
theorem follows_expressionWithin {depth : Nat} (hdepth : k < depth) (hk : k < bound) (power : Precedence) :
    Follows k (expressionWithin bound depth power) (Rule.expression power) := by
  induction depth generalizing k power with
  | zero => exact absurd hdepth (Nat.not_lt_zero k)
  | succ depth ih =>
    cases k with
    | zero =>
      intro account hlength
      apply mirrors_expressionWith_of_none
      rw [Rule.current_kind_of_nil (Rule.tokens_eq_nil_of_length_le hlength)]
      rfl
    | succ k =>
      have hinner := ih (Nat.lt_of_succ_lt_succ hdepth) (Nat.lt_of_succ_lt hk)
      exact follows_expressionWith hinner hk power

end Procedure

theorem tokenize_eq (source : String) :
    tokenize source = (Parser.ofText source).tokens ++ [(Parser.ofText source).endToken] :=
  rfl

/-- The tokens that a text is parsed as are all but the end. -/
theorem countP_tokenize (source : String) :
    (tokenize source).countP (·.kind ≠ .eof) = (Parser.ofText source).tokens.length := by
  have hscanned := Parser.scanned_ofText source
  rw [tokenize_eq, List.countP_append, List.countP_eq_length.mpr]
  · rfl
  · intro token htoken
    exact decide_eq_true (hscanned token htoken).1

/-- Parsing a program ends at the end of its text, whatever the text is, and meets no bound that is as great as
    the number of its tokens. The errors are as many as the statements, of the program and of all blocks that
    were begun, of which nothing came. So there are none exactly if something came of every statement, and never
    more than the text has tokens. -/
theorem parsing_accounts (source : String) (bound : Nat) (hbound : (tokenize source).length ≤ bound) :
    ∃ last : Account,
      Procedure.program bound { parser := .ofText source } = some ((parse source).statements, last) ∧
        last.parser.current.kind = .eof ∧ last.parser.errors = (parse source).errors ∧
        (parse source).errors.length = last.tried.countP Option.isNone ∧
        ((parse source).errors = [] ↔ none ∉ last.tried) ∧
        (parse source).errors.length ≤ (tokenize source).countP (·.kind ≠ .eof) := by
  rw [tokenize_eq, List.length_append, List.length_singleton] at hbound
  have hexpression := Procedure.follows_expressionWithin hbound hbound
  have heof : Rule.closesProgram .eof = true := rfl
  obtain ⟨tried, hrun, h, hcloses⟩ :=
    Procedure.statements_run hexpression heof { parser := .ofText source } (Nat.le_refl _) hbound
  have herrors : (parse source).errors.length = tried.countP Option.isNone := by
    have hcount := h.errors
    rwa [show (Parser.ofText source).errors = [] from rfl, List.length_nil, Nat.zero_add] at hcount
  refine ⟨_, hrun, of_decide_eq_true hcloses, rfl, herrors, ?_, ?_⟩
  · rw [← List.length_eq_zero_iff, herrors, List.countP_eq_zero]
    constructor
    · intro hall hnone
      exact hall none hnone rfl
    · intro hnone outcome houtcome hempty
      rw [Option.isNone_iff_eq_none] at hempty
      exact hnone (hempty ▸ houtcome)
  · rw [countP_tokenize, herrors]
    exact Nat.le_trans List.countP_le_length (Nat.le_trans (Nat.le_add_right _ _) h.fits)

/-- A statement is dropped inside a construct that is dropped itself. -/
theorem parsing_accounts_inner :
    (tokenize "if (x) { let 1; y } else 2").length ≤ 13 ∧
      (parse "if (x) { let 1; y } else 2").errors.length = 2 ∧
      ∃ last : Account, Procedure.program 13 { parser := .ofText "if (x) { let 1; y } else 2" } =
        some ((parse "if (x) { let 1; y } else 2").statements, last) ∧
          last.tried.countP Option.isNone = 2 := by
  have hlength : (tokenize "if (x) { let 1; y } else 2").length ≤ 13 := by decide +kernel
  have herrors : (parse "if (x) { let 1; y } else 2").errors.length = 2 := by decide +kernel
  obtain ⟨last, hrun, -, -, hcount, -⟩ := parsing_accounts _ 13 hlength
  exact ⟨hlength, herrors, last, hrun, hcount.symm.trans herrors⟩

end Monkey
