import Monkey.Proofs.Grammar.Reading

/-!
# What the grammar derives is read

Every derivation tells what the parser does with its tokens: the rule for the phrase succeeds, gives
the tree of the derivation, records no error and stops at the last token of the phrase.

An operand in a derivation says nothing about the operators that follow it, while the rule for an
expression goes on with all of them that bind tightly enough. So an expression of the grammar is
matched by the place in the middle of the rule at which the tree is complete and the loop is about to
look at what follows (`Reading`): for every power that the tier admits, the rule gets there. From
there the loop either stops or folds in the operator of the next derivation step.
-/

namespace Monkey.Grammar

open Rule

variable {p : Parser} {tokens middle rest : List Token} {node : Node} {tier : Nat}

/-! ### Tiers and powers -/

/-- A binary operator of a tier binds as tightly as the place of the tier says. -/
theorem operatorsOf_spec {kind : TokenKind} (h : kind ∈ operatorsOf tier) :
    tier < unaryTier ∧ kind.precedence.rank = tier + 2 ∧
      infixRule? expression kind = some (binaryExpression expression) ∧ kind ≠ .elseKw := by
  rcases tier with _ | _ | _ | _ | tier
  iterate 4
    have hpair : kind ∈ [_, _] := h
    simp only [List.mem_cons, List.not_mem_nil, or_false] at hpair
    rcases hpair with rfl | rfl <;> exact ⟨by decide, rfl, rfl, by decide⟩
  · simp [operatorsOf, ladder] at h

/-! ### What the parser does with a phrase -/

/-- The rule for an expression gets to the place behind `node` and goes on from there. -/
def Reaches (power : Precedence) (p : Parser) (tokens : List Token) (node : Node)
    (rest : List Token) : Prop :=
  ∃ q, q.advance = p.on rest ∧ expression power (p.on tokens) = extended power node q

/-- What the parser does with the tokens of a phrase, given what follows them. -/
def Reading (p : Parser) : Phrase → List Token → List Token → Prop
  | .expression tier node, tokens, rest => ∀ power, power.rank ≤ outerRank tier →
      (nextKind rest).precedence.rank ≤ innerRank tier → nextKind rest ≠ .elseKw →
      Reaches power p tokens node rest
  | .atom node, tokens, rest => nextKind rest ≠ .elseKw →
      ∃ rule, prefixRule? expression (nextKind tokens) = some rule ∧ Reads rule p tokens node rest
  | .items nodes, tokens, rest => nextKind rest = .rparen ∨ nextKind rest = .rbracket →
      Reads items p tokens nodes rest
  | .list last nodes, tokens, rest => last = .rparen ∨ last = .rbracket →
      ReadsBehind (expressionList expression last) p tokens nodes rest
  | .names list, tokens, rest => nextKind rest ≠ .comma → ReadsBehind names p tokens list rest
  | .parameters list, tokens, rest => ReadsBehind parameters p tokens list rest
  | .pairs list, tokens, rest => ∀ close behind, rest = close :: behind → close.kind = .rbrace →
      ReadsBehind pairs p tokens list behind
  | .statement node, tokens, rest => nextKind rest ≠ .elseKw →
      Reads (statement expression) p tokens node rest
  | .statements nodes, tokens, rest => ∀ closes : TokenKind → Bool,
      (∀ kind, closes kind = true → kind = .rbrace ∨ kind = .eof) → closes .eof = true →
      closes (nextKind rest) = true →
      statements expression closes (p.on tokens) = (nodes, p.on rest)
  | .block node, tokens, rest => Reads (block expression) p tokens node rest

/-- An expression is read to its end in front of a token that does not bind. -/
theorem reads_of_read (h : Reading p (.expression tier node) tokens rest) {power : Precedence}
    (hpower : power.rank ≤ outerRank tier)
    (hnext : (nextKind rest).precedence.rank ≤ min power.rank (innerRank tier))
    (helse : nextKind rest ≠ .elseKw) : Reads (expression power) p tokens node rest := by
  obtain ⟨hstop, hinner⟩ := Nat.le_min.mp hnext
  obtain ⟨q, hq, hrun⟩ := h power hpower hinner helse
  exact ⟨q, hrun.trans (extended_stop hq hstop), hq⟩

/-- The whole of a bracketed expression, or of one in front of a comma or a semicolon, is read. -/
theorem reads_whole (h : Reading p (.expression 0 node) tokens rest)
    (hnext : (nextKind rest).precedence = .lowest) (helse : nextKind rest ≠ .elseKw) :
    Reads (expression .lowest) p tokens node rest := by
  refine reads_of_read h (by decide) ?_ helse
  rw [hnext]
  decide

theorem reads_upto {close : Token} (h : Reading p (.expression 0 node) tokens (close :: rest))
    {kind : TokenKind} (hclose : close.kind = kind)
    (hkind : kind ∈ [.rparen, .rbracket, .rbrace, .comma, .colon, .semicolon] := by decide) :
    Reads (expression .lowest) p tokens node (close :: rest) := by
  have hnext : nextKind (close :: rest) = kind := hclose
  refine reads_whole h ?_ ?_ <;> rw [hnext]
  · simp only [List.mem_cons, List.not_mem_nil, or_false] at hkind
    rcases hkind with rfl | rfl | rfl | rfl | rfl | rfl <;> rfl
  · rintro rfl
    simp at hkind

/-- The loop folds in an operator that binds tighter than the power, and goes on from there. -/
theorem reaches_step {left : Node} {operator : Token} {rule : Node → Rule Node}
    {power : Precedence} (hleft : Reaches power p tokens left (operator :: middle))
    (hrule : infixRule? expression operator.kind = some rule)
    (hpower : power.rank < operator.kind.precedence.rank)
    (hread : Reads (rule left) p (operator :: middle) node rest) :
    Reaches power p tokens node rest := by
  rcases hleft with ⟨q, hq, hrun⟩
  rcases hread with ⟨q', hrun', hq'⟩
  refine ⟨q', hq', ?_⟩
  rw [hrun, extended_step hq hrule hpower, bind_ok hrun']

theorem reaches_start {power : Precedence} {rule : Rule Node}
    (hrule : prefixRule? expression (nextKind tokens) = some rule)
    (hread : Reads rule p tokens node rest) : Reaches power p tokens node rest := by
  rcases hread with ⟨q, hrun, hq⟩
  refine ⟨q, hq, ?_⟩
  rw [expression_run, Parser.current_kind, Parser.on_tokens, hrule]
  exact bind_ok hrun

/-! ### Statements -/

theorem nextKind_mem {kinds : List TokenKind} (h : StartsWith kinds tokens) :
    nextKind tokens ∈ kinds := by
  rcases h with ⟨token, behind, rfl, hkind⟩
  exact hkind

theorem nextKind_ne {kinds : List TokenKind} {kind : TokenKind} (h : StartsWith kinds tokens)
    (hkind : kind ∉ kinds := by decide) : nextKind tokens ≠ kind :=
  fun heq => hkind (heq ▸ nextKind_mem h)

/-- A statement's expression is read, and so is its semicolon, if it has one. -/
theorem reads_end (h : Reading p (.expression 0 node) tokens middle)
    (hend : EndsStatement middle rest) (helse : nextKind rest ≠ .elseKw) :
    ∃ q q' found, expression .lowest (p.on tokens) = .ok node q ∧
      accept .semicolon q = .ok found q' ∧ q'.advance = p.on rest := by
  rcases hend with ⟨token, hkind, rfl⟩ | ⟨rfl, hnext⟩
  · obtain ⟨q, hrun, hq⟩ := reads_upto h hkind
    exact ⟨q, _, true, hrun, accept_hit hq hkind, rfl⟩
  · have hlowest : (nextKind rest).precedence = .lowest ∧ nextKind rest ≠ .semicolon := by
      cases rest with
      | nil => exact ⟨rfl, by decide⟩
      | cons token behind => exact (hnext token rfl).symm
    obtain ⟨q, hrun, hq⟩ := reads_whole h hlowest.1 helse
    exact ⟨q, q, false, hrun, accept_miss hq hlowest.2, hq⟩

theorem reads_letStatement {keyword target sign : Token} (hkeyword : keyword.kind = .letKw)
    (htarget : target.kind = .ident) (hsign : sign.kind = .assign)
    (h : Reading p (.expression 0 node) tokens middle) (hend : EndsStatement middle rest)
    (helse : nextKind rest ≠ .elseKw) :
    Reads (statement expression) p (keyword :: target :: sign :: tokens)
      (.letStatement keyword (.ofToken target) node) rest := by
  obtain ⟨q, q', found, hrun, haccept, hq'⟩ := reads_end h hend helse
  refine ⟨q', ?_, hq'⟩
  have htarget := expect_hit (Parser.on_cons_advance p keyword (target :: sign :: tokens)) htarget
  have hsign := expect_hit (Parser.on_cons_advance p target (sign :: tokens)) hsign
  rw [statement_run, Parser.on_cons_current, if_pos hkeyword]
  rw [letStatement, bind_ok (current_run _), bind_ok htarget, bind_ok (current_run _), bind_ok hsign]
  rw [bind_ok (advance_run _), Parser.on_cons_advance, bind_ok hrun, bind_ok haccept]
  rfl

theorem reads_returnStatement {keyword : Token} (hkeyword : keyword.kind = .returnKw)
    (h : Reading p (.expression 0 node) tokens middle) (hend : EndsStatement middle rest)
    (helse : nextKind rest ≠ .elseKw) :
    Reads (statement expression) p (keyword :: tokens) (.returnStatement keyword node) rest := by
  obtain ⟨q, q', found, hrun, haccept, hq'⟩ := reads_end h hend helse
  refine ⟨q', ?_, hq'⟩
  rw [statement_run, Parser.on_cons_current, hkeyword, if_neg (by decide), if_pos rfl]
  rw [returnStatement, bind_ok (current_run _), bind_ok (advance_run _), Parser.on_cons_advance]
  rw [bind_ok hrun, bind_ok haccept]
  rfl

theorem reads_expressionStatement {first : Token} (hfirst : first.kind ∈ expressionStarts)
    (h : Reading p (.expression 0 node) (first :: tokens) middle)
    (hend : EndsStatement middle rest) (helse : nextKind rest ≠ .elseKw) :
    Reads (statement expression) p (first :: tokens) (.expressionStatement first node) rest := by
  obtain ⟨q, q', found, hrun, haccept, hq'⟩ := reads_end h hend helse
  refine ⟨q', ?_, hq'⟩
  have hlet : first.kind ≠ .letKw := fun h => absurd (h ▸ hfirst) (by decide)
  have hreturn : first.kind ≠ .returnKw := fun h => absurd (h ▸ hfirst) (by decide)
  rw [statement_run, Parser.on_cons_current, if_neg hlet, if_neg hreturn]
  rw [expressionStatement, bind_ok (current_run _), bind_ok hrun, bind_ok haccept]
  rfl

/-- No statement starts with `else`, so none follows a statement. -/
theorem Derives.next_ne_else {nodes : List Node} (h : Derives (.statements nodes) tokens rest)
    (hrest : nextKind rest ≠ .elseKw) : nextKind tokens ≠ .elseKw := by
  cases h with
  | noStatements => exact hrest
  | statements hnode => exact nextKind_ne hnode.starts

theorem reads_block {brace : Token} {body : List Node}
    (hbehind : (p.on middle).advance = p.on rest)
    (h : statements expression closesBlock (p.on tokens) = (body, p.on middle)) :
    Reads (block expression) p (brace :: tokens) (.block brace body) rest := by
  refine ⟨p.on middle, ?_, hbehind⟩
  rw [block_run, Parser.on_cons_advance, h, Parser.on_cons_current]

theorem Derives.brace (h : Derives (.block node) tokens rest) :
    ∃ brace behind, tokens = brace :: behind ∧ brace.kind = .lbrace := by
  cases h with
  | block hbrace => exact ⟨_, _, rfl, hbrace⟩
  | openBlock hbrace => exact ⟨_, _, rfl, hbrace⟩

theorem Derives.nameStart {list : List Identifier} (h : Derives (.names list) tokens rest) :
    nextKind tokens = .ident := by
  cases h with
  | lastName htoken => exact htoken
  | name htoken => exact htoken

/-! ### Every derivation is read -/

theorem Derives.read {phrase : Phrase} (p : Parser) (h : Derives phrase tokens rest) :
    Reading p phrase tokens rest := by
  induction h with
  | climb htier h ih =>
    intro power hpower hnext helse
    exact ih power (Nat.le_trans hpower (outerRank_climb _))
      (Nat.le_trans hnext (innerRank_climb _)) helse
  | @binary tier _ operator _ _ _ _ hoperator _ _ ihleft ihright =>
    intro power hpower hnext helse
    obtain ⟨htier, hrank, hrule, hkind⟩ := operatorsOf_spec hoperator
    simp only [outerRank, innerRank, if_pos htier, if_pos (Nat.le_of_lt htier)] at hpower hnext
    refine reaches_step (ihleft power ?_ ?_ hkind) hrule (by omega) (reads_binaryExpression ?_)
    · simpa only [outerRank, if_pos htier] using hpower
    · simp only [nextKind, innerRank, if_pos (Nat.le_of_lt htier)]
      omega
    · refine reads_of_read ihright ?_ ?_ helse
      · have hunary : unaryTier = 4 := rfl
        simp only [outerRank]
        split <;> omega
      · have := innerRank_climb tier
        simp only [innerRank, if_pos (Nat.le_of_lt htier)] at this
        simp only [innerRank, hrank]
        omega
  | prefixed hoperator _ ih =>
    intro power hpower hnext helse
    refine reaches_start ?_ (reads_prefixExpression ?_)
    · rcases hoperator with hkind | hkind <;> simp only [nextKind, hkind, prefixRule?]
    · exact reads_of_read ih (by decide) (Nat.le_min.mpr ⟨hnext, hnext⟩) helse
  | call hbracket _ _ ihcallee iharguments =>
    intro power hpower _ _
    have hrule : infixRule? expression _ = some _ := congrArg (infixRule? expression) hbracket
    refine reaches_step (ihcallee power hpower ?_ ?_) hrule ?_ (reads_callExpression ?_)
    · exact rank_le _
    · simp [nextKind, hbracket]
    · rw [hbracket]
      exact Nat.lt_succ_of_le hpower
    · exact iharguments (.inl rfl)
  | index hbracket _ _ hclose ihleft ihsubscript =>
    intro power hpower _ _
    have hrule : infixRule? expression _ = some _ := congrArg (infixRule? expression) hbracket
    refine reaches_step (ihleft power hpower ?_ ?_) hrule ?_ (reads_indexExpression ?_ hclose)
    · exact rank_le _
    · simp [nextKind, hbracket]
    · rw [hbracket]
      exact Nat.lt_of_le_of_lt hpower (by decide)
    · exact reads_upto ihsubscript hclose
  | ofAtom _ ih =>
    intro power _ _ helse
    obtain ⟨rule, hrule, hread⟩ := ih helse
    exact reaches_start hrule hread
  | identifier htoken =>
    exact fun _ => ⟨_, congrArg (prefixRule? expression) htoken, p.on _, rfl, rfl⟩
  | @integer token rest htoken hnumeral hdigits hvalue =>
    intro _
    refine ⟨integerLiteral, congrArg (prefixRule? expression) htoken, p.on (token :: rest), ?_, rfl⟩
    rw [integerLiteral, bind_ok (current_run _), Parser.on_cons_current]
    rw [integerValue?_of_isNumeral hnumeral, if_pos ⟨hdigits, hvalue⟩]
    rfl
  | string htoken =>
    exact fun _ => ⟨_, congrArg (prefixRule? expression) htoken, p.on _, rfl, rfl⟩
  | @boolean token value rest htoken =>
    intro _
    cases value with
    | true =>
      refine ⟨booleanLiteral, congrArg (prefixRule? expression) htoken, p.on (token :: rest), ?_, rfl⟩
      simp [booleanLiteral, bind_run, htoken]
    | false =>
      refine ⟨booleanLiteral, congrArg (prefixRule? expression) htoken, p.on (token :: rest), ?_, rfl⟩
      simp [booleanLiteral, bind_run, htoken]
  | group hbracket _ hclose ih =>
    intro _
    exact ⟨_, congrArg (prefixRule? expression) hbracket, reads_groupedExpression (reads_upto ih hclose) hclose⟩
  | array hbracket _ ih =>
    intro _
    exact ⟨_, congrArg (prefixRule? expression) hbracket, reads_arrayLiteral (ih (.inr rfl))⟩
  | emptyHash hbrace hclose =>
    intro _
    exact ⟨_, congrArg (prefixRule? expression) hbrace, reads_emptyHash hclose⟩
  | hash hbrace h hclose ih =>
    intro _
    exact ⟨_, congrArg (prefixRule? expression) hbrace,
      reads_hashLiteral (ih _ _ rfl hclose) (nextKind_ne h.starts)⟩
  | conditional hkeyword hbracket _ hclose hblock ihcondition ihblock =>
    intro helse
    obtain ⟨brace, behind, rfl, hbrace⟩ := hblock.brace
    exact ⟨_, congrArg (prefixRule? expression) hkeyword,
      reads_conditional hbracket (reads_upto ihcondition hclose) hclose hbrace ihblock helse⟩
  | conditionalElse hkeyword hbracket _ hclose hblock hother hblock' ihcondition ihblock ihblock' =>
    intro _
    obtain ⟨brace, behind, rfl, hbrace⟩ := hblock.brace
    obtain ⟨brace', behind', rfl, hbrace'⟩ := hblock'.brace
    exact ⟨_, congrArg (prefixRule? expression) hkeyword,
      reads_conditionalElse hbracket (reads_upto ihcondition hclose) hclose hbrace ihblock hother
        hbrace' ihblock'⟩
  | function hkeyword hbracket _ hblock ihnames ihblock =>
    intro _
    obtain ⟨brace, behind, rfl, hbrace⟩ := hblock.brace
    exact ⟨_, congrArg (prefixRule? expression) hkeyword,
      reads_functionLiteral hbracket ihnames hbrace ihblock⟩
  | emptyList hclose => exact fun _ => reads_emptyList hclose
  | ofItems h hclose ih =>
    rintro (rfl | rfl)
    · exact reads_list (ih (.inl hclose)) hclose (nextKind_ne h.starts)
    · exact reads_list (ih (.inr hclose)) hclose (nextKind_ne h.starts)
  | lastItem _ ih =>
    rintro (hnext | hnext)
    · exact reads_lastItem (reads_whole ih (by rw [hnext]; rfl) (by simp [hnext])) (by simp [hnext])
    · exact reads_lastItem (reads_whole ih (by rw [hnext]; rfl) (by simp [hnext])) (by simp [hnext])
  | item _ hcomma _ ihnode ihnodes =>
    exact fun hnext => reads_item (reads_upto ihnode hcomma) hcomma (ihnodes hnext)
  | noParameters hclose => exact reads_noParameters hclose
  | ofNames h hclose ih =>
    exact reads_parameters (ih (by simp [nextKind, hclose])) hclose (by simp [h.nameStart])
  | lastName htoken => exact fun hcomma => reads_lastName htoken hcomma
  | name htoken hcomma _ ih => exact fun hnext => reads_name htoken hcomma (ih hnext)
  | lastPair _ hcolon _ ihkey ihvalue =>
    rintro close behind rfl hclose
    exact reads_lastPair (reads_hashPair (reads_upto ihkey hcolon) hcolon
      (reads_upto ihvalue hclose)) hclose
  | pair _ hcolon _ hcomma _ ihkey ihvalue ihpairs =>
    rintro close behind rfl hclose
    exact reads_pair (reads_hashPair (reads_upto ihkey hcolon) hcolon (reads_upto ihvalue hcomma))
      hcomma (ihpairs close behind rfl hclose)
  | letStatement hkeyword htarget hsign _ hend ih =>
    exact fun helse => reads_letStatement hkeyword htarget hsign ih hend helse
  | returnStatement hkeyword _ hend ih =>
    exact fun helse => reads_returnStatement hkeyword ih hend helse
  | expressionStatement h hend ih =>
    exact fun helse => reads_expressionStatement (nextKind_mem h.starts) ih hend helse
  | noStatements =>
    intro closes _ heof hrest
    rw [statements_eq heof, Parser.current_kind, Parser.on_tokens, if_pos hrest]
  | statements hnode hnodes ihnode ihnodes =>
    intro closes hcloses heof hrest
    have helse : nextKind _ ≠ .elseKw := hnodes.next_ne_else fun h => by
      rcases hcloses _ hrest with hkind | hkind <;> simp [hkind] at h
    have hopen : ¬ closes (nextKind _) = true := fun h => by
      rcases hcloses _ h with hkind | hkind
      · exact nextKind_ne hnode.starts (by decide) hkind
      · exact nextKind_ne hnode.starts (by decide) hkind
    obtain ⟨q, hrun, hq⟩ := ihnode helse
    rw [statements_eq heof, Parser.current_kind, Parser.on_tokens, if_neg hopen, hrun]
    simp only [hq, ihnodes closes hcloses heof hrest]
  | @block brace body close tokens rest _ _ hclose ih =>
    have hcloses : closesBlock (nextKind (close :: rest)) = true := by
      simp [nextKind, hclose, closesBlock]
    exact reads_block rfl (ih closesBlock (by simp [closesBlock]) rfl hcloses)
  | openBlock _ _ ih => exact reads_block rfl (ih closesBlock (by simp [closesBlock]) rfl rfl)

/-- Tokens that the grammar derives as a program parse to its tree without errors. -/
theorem Program.parsed {statements : List Node} (h : Program tokens statements) :
    (p.on tokens).program = (statements, p.on []) :=
  h.read p closesProgram (by simp [closesProgram]) rfl rfl

end Monkey.Grammar
