import Monkey.Proofs.Evaluation.Induction
import Monkey.Proofs.Grammar.Readable

/-!
# Trees without gaps

A parse rule that fails gives no node, so a tree that is given has no gap, also where its text has errors. Every
node of it is whole: it has all its parts, its operators are ones of the language, its integer is the
one that its literal denotes, and its names are names.

`Rule.Yields` says what a rule gives from some place, and that it leaves tokens that a text can have, since
these are what the names, numerals and operators of a node are read from. Each rule is shown to yield whole
nodes as soon as the rule for the expressions inside it does.
-/

namespace Monkey

open Grammar Lexical

/-- An identifier that was read from a token that is a name. -/
structure Identifier.IsName (identifier : Identifier) : Prop where
  kind : identifier.token.kind = .ident
  literal : identifier.name = identifier.token.literal
  name : Name identifier.name

namespace Node

/-- What a node has to be by itself, whatever its parts are: nothing but the alternative of a conditional
    may be missing. -/
def Complete : Node → Prop
  | .missing => False
  | .letStatement _ target _ => target.IsName
  | .identifier name => name.IsName
  | .integer token value =>
    IsNumeral token.literal ∧ value = decimalValue token.literal ∧ 0 ≤ value ∧ value ≤ Rule.maxInteger
  | .prefixed _ operator _ => operator ∈ ["!", "-"]
  | .binary _ _ operator _ => operator ∈ ["+", "-", "*", "/", "<", ">", "==", "!="]
  | .function _ parameters _ => ∀ parameter ∈ parameters, parameter.IsName
  | _ => True

/-- A node that is complete, and so are all the nodes in it. -/
def Whole (node : Node) : Prop :=
  ∀ inner, node.Contains inner → inner.Complete

variable {node part : Node}

theorem Whole.here (h : node.Whole) : node.Complete :=
  h node .refl

theorem Whole.taken (h : node.Whole) (hpart : part ∈ node.taken) : part.Whole :=
  fun inner hinner => h inner (.taken hpart hinner)

theorem Whole.handed (h : node.Whole) (hpart : part ∈ node.handed) : part.Whole :=
  fun inner hinner => h inner (.handed hpart hinner)

theorem Whole.mk (here : node.Complete) (taken : ∀ part ∈ node.taken, part.Whole)
    (handed : ∀ part ∈ node.handed, part.Whole) : node.Whole := by
  intro inner h
  cases h with
  | refl => exact here
  | taken hpart h => exact taken _ hpart inner h
  | handed hpart h => exact handed _ hpart inner h

/-- A node without parts is whole if it is complete. -/
theorem whole_leaf (here : node.Complete) (htaken : node.taken = []) (hhanded : node.handed = []) :
    node.Whole := by
  apply Whole.mk here
  · simp [htaken]
  · simp [hhanded]

theorem whole_block {token : Token} {statements : List Node} (h : ∀ statement ∈ statements, statement.Whole) :
    (Node.block token statements).Whole :=
  .mk trivial (by simp [Node.taken]) h

/-- The alternative of a conditional may be missing, but nothing else in it may. -/
theorem whole_conditional {token : Token} {condition consequence alternative : Node}
    (hcondition : condition.Whole) (hconsequence : consequence.Whole)
    (halternative : alternative = .missing ∨ alternative.Whole) :
    (Node.conditional token condition consequence alternative).Whole := by
  apply Whole.mk
  · exact trivial
  · simpa [Node.taken] using hcondition
  · rcases halternative with rfl | halternative
    · simpa [Node.handed, isMissing] using hconsequence
    · intro part hpart
      rw [Node.handed] at hpart
      split at hpart <;> simp only [List.mem_cons, List.not_mem_nil, or_false] at hpart
      · exact hpart ▸ hconsequence
      · rcases hpart with rfl | rfl
        · exact hconsequence
        · exact halternative

end Node

/-! ### Tokens that a text can have -/

def Token.Possible (token : Token) : Prop :=
  ∃ span rest, Spans [] token.kind token.literal span rest

namespace Token.Possible

variable {token : Token} (h : token.Possible)

include h

theorem name (hkind : token.kind = .ident) : Name token.literal := by
  obtain ⟨span, rest, hspan⟩ := h
  exact (hkind ▸ hspan).name

theorem isName (hkind : token.kind = .ident) : (Identifier.ofToken token).IsName :=
  ⟨hkind, rfl, h.name hkind⟩

theorem literal_of_sign (hkind : token.kind ∈ operators) : token.literal = token.kind.text := by
  obtain ⟨span, rest, hspan⟩ := h
  exact hspan.literal_of_sign hkind

theorem numeral (hkind : token.kind = .int) : IsNumeral token.literal := by
  obtain ⟨span, rest, hspan⟩ := h
  rw [hkind] at hspan
  generalize token.literal = literal at hspan
  cases hspan with
  | number hfull =>
    rw [IsNumeral, String.toList_ofList]
    exact hfull.holds
  | word _ hnames =>
    have hmem := hnames.resolve_right (by simp)
    have hwords : ∀ entry ∈ keywords, entry.2 ≠ .int := by decide
    exact absurd rfl (hwords _ hmem)
  | sign hkind => exact absurd hkind (by decide)

end Token.Possible

namespace Parser

def Lexed (p : Parser) : Prop :=
  ∀ token ∈ p.tokens, token.Possible

theorem lexed_ofText (source : String) : (ofText source).Lexed := by
  intro token htoken
  have hmem : Relocation.forget.move token ∈ bareTokens source.toList := List.mem_map_of_mem htoken
  obtain ⟨kind, literal, span, rest, hspan, heq⟩ := spans_of_mem_bareTokens hmem
  refine ⟨span, rest, ?_⟩
  have hkind : token.kind = kind := congrArg Token.kind heq
  have hliteral : token.literal = literal := congrArg Token.literal heq
  rwa [hkind, hliteral]

theorem Lexed.advance {p : Parser} (hp : p.Lexed) : p.advance.Lexed :=
  fun token htoken => hp token (List.mem_of_mem_tail htoken)

theorem Lexed.current {p : Parser} (hp : p.Lexed) (h : p.current.kind ≠ .eof) : p.current.Possible := by
  apply hp
  rw [tokens_eq rfl h]
  exact List.mem_cons_self

end Parser

/-! ### What rules yield -/

namespace Rule

variable {α β : Type}

/-- Whatever a rule gives has a property, and the tokens it leaves are ones that a text can have. -/
def Yields (q : α → Prop) (rule : Rule α) (p : Parser) : Prop :=
  match rule p with
  | .ok value p' => p'.Lexed ∧ q value
  | .error _ p' => p'.Lexed

variable {q : α → Prop} {r : β → Prop} {x : Rule α} {f : α → Rule β} {p : Parser}

theorem yields_pure {value : α} (hp : p.Lexed) (h : q value) : Yields q (pure value) p :=
  ⟨hp, h⟩

theorem Yields.imp {q' : α → Prop} (h : Yields q x p) (hq : ∀ value, q value → q' value) :
    Yields q' x p := by
  rw [Yields] at h ⊢
  cases hrun : x p with
  | ok value p' =>
    rw [hrun] at h
    exact ⟨h.1, hq value h.2⟩
  | error failure p' =>
    rw [hrun] at h
    exact h

theorem Yields.bind (hx : Yields q x p)
    (hf : ∀ value p', p'.Lexed → q value → Yields r (f value) p') : Yields r (x >>= f) p := by
  rw [Yields] at hx ⊢
  rw [bind_run]
  cases hrun : x p with
  | ok value p' =>
    rw [hrun] at hx
    exact hf value p' hx.1 hx.2
  | error failure p' =>
    rw [hrun] at hx
    exact hx

theorem yields_expect {wanted : TokenKind} {f : Unit → Rule β} (hp : p.Lexed)
    (hf : p.advance.Lexed → p.advance.current.kind = wanted → Yields r (f ()) p.advance) :
    Yields r (expect wanted >>= f) p := by
  rw [Yields, bind_run, expect_run, Parser.peek_eq]
  by_cases hkind : p.advance.current.kind = wanted
  · rw [if_pos hkind]
    exact hf hp.advance hkind
  · rw [if_neg hkind]
    exact hp

theorem yields_accept {kind : TokenKind} {f : Bool → Rule β} (hp : p.Lexed)
    (hyes : p.advance.Lexed → Yields r (f true) p.advance) (hno : Yields r (f false) p) :
    Yields r (accept kind >>= f) p := by
  rw [Yields, bind_run, accept_run]
  by_cases hkind : p.peek.kind = kind
  · rw [if_pos hkind]
    exact hyes hp.advance
  · rw [if_neg hkind]
    exact hno

theorem yields_current {f : Token → Rule β} (h : Yields r (f p.current) p) : Yields r (current >>= f) p :=
  h

theorem yields_get {f : Parser → Rule β} (h : Yields r (f p) p) : Yields r (get >>= f) p :=
  h

theorem yields_advance {f : Unit → Rule β} (h : Yields r (f ()) p.advance) :
    Yields r (advance >>= f) p :=
  h

/-- The name behind the current token. -/
theorem yields_name {f : Token → Rule β} (hp : p.Lexed)
    (hf : ∀ token, p.advance.Lexed → (Identifier.ofToken token).IsName → Yields r (f token) p.advance) :
    Yields r (expect .ident >>= fun _ => current >>= f) p := by
  apply yields_expect hp
  intro hp' hkind
  exact hf _ hp' ((hp'.current (by simp [hkind])).isName hkind)

theorem yields_identifier (hp : p.Lexed) (hkind : p.current.kind = .ident) :
    Yields Node.Whole identifier p := by
  apply yields_current
  apply yields_pure hp
  have hname := (hp.current (by simp [hkind])).isName hkind
  exact Node.whole_leaf hname rfl rfl

theorem yields_integerLiteral (hp : p.Lexed) (hkind : p.current.kind = .int) :
    Yields Node.Whole integerLiteral p := by
  have hnumeral := (hp.current (by simp [hkind])).numeral hkind
  apply yields_current
  rw [integerValue?_of_isNumeral hnumeral]
  by_cases hlimits : p.current.literal.length ≤ digitLimit ∧ decimalValue p.current.literal ≤ valueLimit
  · rw [if_pos hlimits]
    apply yields_pure hp
    have hvalue := Int.ofNat_le.mpr hlimits.2
    exact Node.whole_leaf ⟨hnumeral, rfl, Int.natCast_nonneg _, hvalue⟩ rfl rfl
  · rw [if_neg hlimits]
    exact hp

theorem yields_stringLiteral (hp : p.Lexed) : Yields Node.Whole stringLiteral p :=
  yields_pure hp (Node.whole_leaf trivial rfl rfl)

theorem yields_booleanLiteral (hp : p.Lexed) : Yields Node.Whole booleanLiteral p :=
  yields_pure hp (Node.whole_leaf trivial rfl rfl)

theorem yields_moreParameters (fuel : Nat) (hp : p.Lexed) :
    Yields (∀ name ∈ ·, name.IsName) (moreParameters fuel) p := by
  induction fuel generalizing p with
  | zero => exact yields_pure hp (by simp)
  | succ fuel ih =>
    apply yields_accept hp
    · intro hp'
      apply yields_name hp'
      intro token hp'' hname
      apply (ih hp'').bind
      intro rest p' hp' hrest
      exact yields_pure hp' (List.forall_mem_cons.mpr ⟨hname, hrest⟩)
    · exact yields_pure hp (by simp)

theorem yields_parameters (hp : p.Lexed) : Yields (∀ name ∈ ·, name.IsName) parameters p := by
  apply yields_accept hp
  · intro hp'
    exact yields_pure hp' (by simp)
  · apply yields_name hp
    intro token hp' hname
    apply yields_get
    apply (yields_moreParameters _ hp').bind
    intro rest p' hp' hrest
    apply yields_expect hp'
    intro hp'' _
    exact yields_pure hp'' (List.forall_mem_cons.mpr ⟨hname, hrest⟩)

section Open

variable {expr : Precedence → Rule Node}
  (he : ∀ power (p : Parser), p.Lexed → Yields Node.Whole (expr power) p)

include he

/-! ### Statements -/

omit he in
/-- The end of a statement, with a semicolon or without one. -/
theorem yields_ended {node : Node} (hp : p.Lexed) (h : node.Whole) :
    Yields Node.Whole (accept .semicolon >>= fun _ => pure node) p :=
  yields_accept hp (fun hp' => yields_pure hp' h) (yields_pure hp h)

theorem yields_letStatement (hp : p.Lexed) : Yields Node.Whole (letStatement expr) p := by
  apply yields_current
  apply yields_name hp
  intro token hp' htarget
  apply yields_expect hp'
  intro hp'' _
  apply (he .lowest _ hp''.advance).bind
  intro value p' hp' hvalue
  apply yields_ended hp'
  apply Node.Whole.mk
  · exact htarget
  · simpa [Node.taken] using hvalue
  · simp [Node.handed]

theorem yields_returnStatement (hp : p.Lexed) : Yields Node.Whole (returnStatement expr) p := by
  apply (he .lowest _ hp.advance).bind
  intro value p' hp' hvalue
  apply yields_ended hp'
  apply Node.Whole.mk
  · exact trivial
  · simpa [Node.taken] using hvalue
  · simp [Node.handed]

theorem yields_expressionStatement (hp : p.Lexed) : Yields Node.Whole (expressionStatement expr) p := by
  apply (he .lowest _ hp).bind
  intro value p' hp' hvalue
  apply yields_ended hp'
  apply Node.Whole.mk
  · exact trivial
  · simp [Node.taken]
  · simpa [Node.handed] using hvalue

theorem yields_statement (hp : p.Lexed) : Yields Node.Whole (statement expr) p := by
  apply yields_current
  cases p.current.kind
  case letKw => exact yields_letStatement he hp
  case returnKw => exact yields_returnStatement he hp
  all_goals exact yields_expressionStatement he hp

/-- All that a sequence gives are whole statements: one that fails leaves nothing in it. -/
theorem whole_statementsWithin (closes : TokenKind → Bool) (fuel : Nat) (hp : p.Lexed) :
    (∀ node ∈ (statementsWithin expr closes fuel p).1, node.Whole) ∧
      (statementsWithin expr closes fuel p).2.Lexed := by
  induction fuel generalizing p with
  | zero => exact ⟨by simp [statementsWithin], hp⟩
  | succ fuel ih =>
    have hstatement := yields_statement he hp
    rw [Yields] at hstatement
    rw [statementsWithin]
    by_cases hcloses : closes p.current.kind = true
    · rw [if_pos hcloses]
      exact ⟨by simp, hp⟩
    · rw [if_neg hcloses]
      cases hrun : statement expr p with
      | ok node behind =>
        rw [hrun] at hstatement
        obtain ⟨hbehind, hnode⟩ := hstatement
        obtain ⟨hrest, hlast⟩ := ih hbehind.advance
        exact ⟨List.forall_mem_cons.mpr ⟨hnode, hrest⟩, hlast⟩
      | error failure behind =>
        rw [hrun] at hstatement
        exact ih (p := (behind.record failure).advance) (Parser.Lexed.advance hstatement)

theorem yields_block (hp : p.Lexed) : Yields Node.Whole (block expr) p := by
  obtain ⟨hbody, hlast⟩ := whole_statementsWithin he closesBlock p.advance.tokens.length hp.advance
  exact ⟨hlast, Node.whole_block hbody⟩

/-! ### Lists -/

theorem yields_moreExpressions (fuel : Nat) (hp : p.Lexed) :
    Yields (∀ node ∈ ·, node.Whole) (moreExpressions expr fuel) p := by
  induction fuel generalizing p with
  | zero => exact yields_pure hp (by simp)
  | succ fuel ih =>
    apply yields_accept hp
    · intro hp'
      apply (he .lowest _ hp'.advance).bind
      intro item p' hp' hitem
      apply (ih hp').bind
      intro rest p' hp' hrest
      exact yields_pure hp' (List.forall_mem_cons.mpr ⟨hitem, hrest⟩)
    · exact yields_pure hp (by simp)

theorem yields_expressionList (last : TokenKind) (hp : p.Lexed) :
    Yields (∀ node ∈ ·, node.Whole) (expressionList expr last) p := by
  apply yields_accept hp
  · intro hp'
    exact yields_pure hp' (by simp)
  · apply yields_advance
    apply (he .lowest _ hp.advance).bind
    intro item p' hp' hitem
    apply yields_get
    apply (yields_moreExpressions he _ hp').bind
    intro rest p' hp' hrest
    apply yields_expect hp'
    intro hp'' _
    exact yields_pure hp'' (List.forall_mem_cons.mpr ⟨hitem, hrest⟩)

theorem yields_hashPair (hp : p.Lexed) :
    Yields (fun pair => pair.1.Whole ∧ pair.2.Whole) (hashPair expr) p := by
  apply (he .lowest _ hp.advance).bind
  intro key p' hp' hkey
  apply yields_expect hp'
  intro hp'' _
  apply (he .lowest _ hp''.advance).bind
  intro value p' hp' hvalue
  exact yields_pure hp' ⟨hkey, hvalue⟩

theorem yields_hashPairs (fuel : Nat) (hp : p.Lexed) :
    Yields (∀ pair ∈ ·, pair.1.Whole ∧ pair.2.Whole) (hashPairs expr fuel) p := by
  induction fuel generalizing p with
  | zero => exact yields_pure hp (by simp)
  | succ fuel ih =>
    apply (yields_hashPair he hp).bind
    intro pair p' hp' hpair
    apply yields_accept hp'
    · intro hp''
      exact yields_pure hp'' (List.forall_mem_singleton.mpr hpair)
    · apply yields_expect hp'
      intro hp'' _
      apply (ih hp'').bind
      intro rest p' hp' hrest
      exact yields_pure hp' (List.forall_mem_cons.mpr ⟨hpair, hrest⟩)

/-! ### Constructs that start an expression -/

theorem yields_prefixExpression (hp : p.Lexed) (hkind : p.current.kind = .bang ∨ p.current.kind = .minus) :
    Yields Node.Whole (prefixExpression expr) p := by
  apply (he .prefixed _ hp.advance).bind
  intro right p' hp' hright
  apply yields_pure hp'
  apply Node.Whole.mk
  · have hpossible : p.current.Possible := hp.current (by rcases hkind with h | h <;> simp [h])
    rw [Node.Complete, hpossible.literal_of_sign (by rcases hkind with h | h <;> rw [h] <;> decide)]
    rcases hkind with h | h <;> rw [h] <;> decide
  · simpa [Node.taken] using hright
  · simp [Node.handed]

theorem yields_groupedExpression (hp : p.Lexed) : Yields Node.Whole (groupedExpression expr) p := by
  apply (he .lowest _ hp.advance).bind
  intro inner p' hp' hinner
  apply yields_expect hp'
  intro hp'' _
  exact yields_pure hp'' hinner

theorem yields_alternative (hp : p.Lexed) :
    Yields (fun node => node = .missing ∨ node.Whole) (alternative expr) p := by
  apply yields_accept hp
  · intro hp'
    apply yields_expect hp'
    intro hp'' _
    exact (yields_block he hp'').imp fun _ => .inr
  · exact yields_pure hp (.inl rfl)

theorem yields_conditional (hp : p.Lexed) : Yields Node.Whole (conditional expr) p := by
  apply yields_current
  apply yields_expect hp
  intro hp _
  apply (he .lowest _ hp.advance).bind
  intro condition p hp hcondition
  apply yields_expect hp
  intro hp _
  apply yields_expect hp
  intro hp _
  apply (yields_block he hp).bind
  intro consequence p hp hconsequence
  apply (yields_alternative he hp).bind
  intro otherwise p hp hotherwise
  exact yields_pure hp (Node.whole_conditional hcondition hconsequence hotherwise)

theorem yields_functionLiteral (hp : p.Lexed) : Yields Node.Whole (functionLiteral expr) p := by
  apply yields_current
  apply yields_expect hp
  intro hp _
  apply (yields_parameters hp).bind
  intro names p hp hnames
  apply yields_expect hp
  intro hp _
  apply (yields_block he hp).bind
  intro body p hp hbody
  apply yields_pure hp
  apply Node.Whole.mk
  · exact hnames
  · simp [Node.taken]
  · simpa [Node.handed] using hbody

theorem yields_arrayLiteral (hp : p.Lexed) : Yields Node.Whole (arrayLiteral expr) p := by
  apply (yields_expressionList he .rbracket hp).bind
  intro elements p hp helements
  apply yields_pure hp
  apply Node.Whole.mk
  · exact trivial
  · exact helements
  · simp [Node.handed]

theorem yields_hashLiteral (hp : p.Lexed) : Yields Node.Whole (hashLiteral expr) p := by
  have hhash (token : Token) (pairs : List (Node × Node))
      (h : ∀ pair ∈ pairs, pair.1.Whole ∧ pair.2.Whole) : (Node.hash token pairs).Whole := by
    apply Node.Whole.mk
    · exact trivial
    · intro part hpart
      obtain ⟨pair, hpair, hpart⟩ := List.mem_flatMap.mp hpart
      simp only [List.mem_cons, List.not_mem_nil, or_false] at hpart
      rcases hpart with rfl | rfl
      · exact (h pair hpair).1
      · exact (h pair hpair).2
    · simp [Node.handed]
  apply yields_current
  apply yields_accept hp
  · intro hp
    exact yields_pure hp (hhash _ [] (by simp))
  · apply yields_get
    apply (yields_hashPairs he _ hp).bind
    intro pairs p hp hpairs
    exact yields_pure hp (hhash _ pairs hpairs)

theorem yields_prefixRule {rule : Rule Node} (hp : p.Lexed)
    (h : prefixRule? expr p.current.kind = some rule) : Yields Node.Whole rule p := by
  cases hkind : p.current.kind <;> rw [hkind] at h
  case ident => cases h; exact yields_identifier hp hkind
  case int => cases h; exact yields_integerLiteral hp hkind
  case string => cases h; exact yields_stringLiteral hp
  case trueKw | falseKw => cases h; exact yields_booleanLiteral hp
  case bang => cases h; exact yields_prefixExpression he hp (.inl hkind)
  case minus => cases h; exact yields_prefixExpression he hp (.inr hkind)
  case lparen => cases h; exact yields_groupedExpression he hp
  case ifKw => cases h; exact yields_conditional he hp
  case functionKw => cases h; exact yields_functionLiteral he hp
  case lbracket => cases h; exact yields_arrayLiteral he hp
  case lbrace => cases h; exact yields_hashLiteral he hp
  all_goals cases h

/-! ### Constructs that continue an expression -/

theorem yields_binaryExpression {left : Node} (hleft : left.Whole) (hp : p.Lexed)
    (hkind : p.current.kind ∈ ladder.flatten) :
    Yields Node.Whole (binaryExpression expr left) p := by
  have hspelled : p.current.kind ∈ operators ∧ p.current.kind.text ∈
      ["+", "-", "*", "/", "<", ">", "==", "!="] := by
    have hall : ∀ kind ∈ ladder.flatten,
      kind ∈ operators ∧ kind.text ∈ ["+", "-", "*", "/", "<", ">", "==", "!="] := by decide
    exact hall _ hkind
  apply (he _ _ hp.advance).bind
  intro right p' hp' hright
  apply yields_pure hp'
  apply Node.Whole.mk
  · have hpossible : p.current.Possible := hp.current fun heof => by simp [heof, operators] at hspelled
    rw [Node.Complete, hpossible.literal_of_sign hspelled.1]
    exact hspelled.2
  · simpa [Node.taken] using ⟨hleft, hright⟩
  · simp [Node.handed]

theorem yields_callExpression {callee : Node} (hcallee : callee.Whole) (hp : p.Lexed) :
    Yields Node.Whole (callExpression expr callee) p := by
  apply (yields_expressionList he .rparen hp).bind
  intro arguments p hp harguments
  apply yields_pure hp
  apply Node.Whole.mk
  · exact trivial
  · exact List.forall_mem_cons.mpr ⟨hcallee, harguments⟩
  · simp [Node.handed]

theorem yields_indexExpression {left : Node} (hleft : left.Whole) (hp : p.Lexed) :
    Yields Node.Whole (indexExpression expr left) p := by
  apply (he .lowest _ hp.advance).bind
  intro subscript p' hp' hsubscript
  apply yields_expect hp'
  intro hp'' _
  apply yields_pure hp''
  apply Node.Whole.mk
  · exact trivial
  · simpa [Node.taken] using ⟨hleft, hsubscript⟩
  · simp [Node.handed]

theorem yields_infixRule {rule : Node → Rule Node} {left : Node} (hleft : left.Whole) (hp : p.Lexed)
    (h : infixRule? expr p.current.kind = some rule) : Yields Node.Whole (rule left) p := by
  cases hkind : p.current.kind <;> rw [hkind] at h
  case plus | minus | slash | asterisk | eq | notEq | lt | gt =>
    cases h
    exact yields_binaryExpression he hleft hp (by rw [hkind]; decide)
  case lparen => cases h; exact yields_callExpression he hleft hp
  case lbracket => cases h; exact yields_indexExpression he hleft hp
  all_goals cases h

/-- The loop that goes on with an expression stops where one of its rules fails. -/
theorem yields_continued (power : Precedence) (fuel : Nat) {left : Node} (hleft : left.Whole)
    (hp : p.Lexed) : Yields Node.Whole (continued expr power fuel left) p := by
  induction fuel generalizing left p with
  | zero => exact yields_pure hp hleft
  | succ fuel ih =>
    rw [continued]
    show Yields Node.Whole (if p.peek.kind ≠ .semicolon ∧ power.rank < p.peek.kind.precedence.rank then _
      else _) p
    split
    · cases hrule : infixRule? expr p.peek.kind with
      | none => exact yields_pure hp hleft
      | some rule =>
        apply (yields_infixRule he hleft hp.advance hrule).bind
        intro longer p' hp' hlonger
        exact ih hlonger hp'
    · exact yields_pure hp hleft

theorem yields_expressionWith (power : Precedence) (hp : p.Lexed) :
    Yields Node.Whole (expressionWith expr power) p := by
  rw [expressionWith]
  apply yields_current
  cases hrule : prefixRule? expr p.current.kind with
  | none => exact hp
  | some rule =>
    apply (yields_prefixRule he hp hrule).bind
    intro left p' hp' hleft
    exact yields_continued he power _ hleft hp'

end Open

theorem yields_expressionWithin (depth : Nat) (power : Precedence) (hp : p.Lexed) :
    Yields Node.Whole (expressionWithin depth power) p := by
  induction depth generalizing power p with
  | zero => exact hp
  | succ depth ih => exact yields_expressionWith (fun power p hp => ih power hp) power hp

end Rule

/-- Every node of a program is whole, also if its text has errors. -/
theorem whole_program (source : String) : (parse source).program.Whole := by
  have he (power : Precedence) (p : Parser) (hp : p.Lexed) : Rule.Yields Node.Whole (Rule.expression power) p :=
    Rule.yields_expressionWithin _ power hp
  have hlexed := Parser.lexed_ofText source
  obtain ⟨hstatements, -⟩ :=
    Rule.whole_statementsWithin he Rule.closesProgram (Parser.ofText source).tokens.length hlexed
  apply Node.Whole.mk
  · exact trivial
  · simp [Parsed.program, Node.taken]
  · exact hstatements

end Monkey
