import Monkey.Proofs.Grammar.Reading
import Monkey.Proofs.Parser.Relocation

/-!
# Semicolons outside of blocks

Whatever stands in front of a semicolon, as long as no brace opens there, parsing goes on behind it as if
it started there. The reason is that no rule gets past the semicolon and none looks behind it:

* a rule that starts in front of the semicolon either succeeds and stops in front of it, or fails there
  or at the semicolon itself (`Rule.Fenced`);
* only the end of a statement takes the semicolon, and a statement that fails at it skips it.

So a rule does the same there whatever follows the semicolon. Blocks and hashes are what this is not true
of, for a block goes on with the next statement behind a semicolon; without an opening brace none is
entered.
-/

namespace Monkey

open Monkey.Parser

/-- No token opens a block or a hash, or says that the text ends. -/
def Flat (tokens : List Token) : Prop :=
  ∀ token ∈ tokens, token.kind ≠ .lbrace ∧ token.kind ≠ .eof

theorem Flat.suffix {tokens left : List Token} (h : Flat tokens) (hleft : left <:+ tokens) :
    Flat left :=
  fun token htoken => h token (hleft.subset htoken)

/-- What stands behind a token does not matter for what stands in front of it. -/
theorem nextKind_append_cons (tokens : List Token) (token : Token) (rest : List Token) :
    nextKind (tokens ++ token :: rest) = nextKind (tokens ++ [token]) := by
  cases tokens <;> rfl

theorem Flat.nextKind_ne {tokens : List Token} {semi : Token} (h : Flat tokens)
    (hsemi : semi.kind = .semicolon) :
    nextKind (tokens ++ [semi]) ≠ .lbrace ∧ nextKind (tokens ++ [semi]) ≠ .eof := by
  cases tokens with
  | nil => simp [nextKind, hsemi]
  | cons token tokens => exact h token List.mem_cons_self

/-- The parser with more errors recorded. -/
def Parser.recorded (p : Parser) (failures : List ParseError) : Parser :=
  { p with errors := p.errors ++ failures }

theorem Parser.recorded_recorded (p : Parser) (failures failures' : List ParseError) :
    (p.recorded failures).recorded failures' = p.recorded (failures ++ failures') := by
  simp only [recorded, List.append_assoc]

namespace Rule

variable {α β : Type}

/-- In front of `tokens` and a semicolon a rule comes to the same end whatever is behind the semicolon:
    it succeeds and leaves at least so many tokens in front of the semicolon, or fails without having
    passed it. -/
inductive Stays (semi : Token) (rule : Rule α) (tokens : List Token) (least : Nat) : Prop where
  | ok (a : α) {left : List Token} (hleft : left <:+ tokens) (hleast : least ≤ left.length)
    (hrun : ∀ p rest, rule (on p (tokens ++ semi :: rest)) = .ok a (on p (left ++ semi :: rest)))
  | error (failure : ParseError) {left : List Token} (hleft : left <:+ tokens)
    (hrun : ∀ p rest,
      rule (on p (tokens ++ semi :: rest)) = .error failure (on p (left ++ semi :: rest)))

/-- A rule that stays in front of the semicolon if at least `least` and at most `k` tokens are left there;
    if it succeeds, at least `least'` still are. -/
def Fenced (semi : Token) (least k : Nat) (rule : Rule α) (least' : Nat) : Prop :=
  ∀ tokens, Flat tokens → least ≤ tokens.length → tokens.length ≤ k → Stays semi rule tokens least'

variable {semi : Token} {least least' middle j k : Nat}

theorem Fenced.mono {rule : Rule α} (h : Fenced semi least k rule least') (hjk : j ≤ k) :
    Fenced semi least j rule least' :=
  fun tokens hflat hleast hmost => h tokens hflat hleast (Nat.le_trans hmost hjk)

theorem Fenced.of_cons {rule : Rule α} (h : Fenced semi 0 k rule least') :
    Fenced semi 1 k rule least' :=
  fun tokens hflat _ hmost => h tokens hflat (Nat.zero_le _) hmost

theorem Fenced.bind {x : Rule α} {f : α → Rule β} (hx : Fenced semi least k x middle)
    (hf : ∀ a, Fenced semi middle k (f a) least') : Fenced semi least k (x >>= f) least' := by
  intro tokens hflat hleast hmost
  cases hx tokens hflat hleast hmost with
  | error failure hleft hrun => exact .error failure hleft fun p rest => by rw [bind_run, hrun]
  | @ok a left hleft hmiddle hrun =>
    cases hf a left (hflat.suffix hleft) hmiddle (Nat.le_trans hleft.length_le hmost) with
    | error failure hleft' hrun' =>
      exact .error failure (hleft'.trans hleft) fun p rest => by rw [bind_ok (hrun p rest), hrun']
    | ok b hleft' hleast' hrun' =>
      exact .ok b (hleft'.trans hleft) hleast' fun p rest => by rw [bind_ok (hrun p rest), hrun']

theorem fenced_pure (a : α) (h : least' ≤ least) : Fenced semi least k (pure a) least' :=
  fun _ _ hleast _ => .ok a List.suffix_rfl (Nat.le_trans h hleast) fun _ _ => rfl

theorem fenced_throw (failure : ParseError) :
    Fenced semi least k (throw failure : Rule α) least' :=
  fun _ _ _ _ => .error failure List.suffix_rfl fun _ _ => rfl

/-- Where a token is left there is a first one. -/
theorem fenced_of_cons {rule : Rule α}
    (h : ∀ token tail, Flat (token :: tail) → tail.length + 1 ≤ k →
      Stays semi rule (token :: tail) least') : Fenced semi 1 k rule least' := by
  intro tokens hflat hleast hmost
  cases tokens with
  | nil => exact absurd hleast (Nat.not_succ_le_zero 0)
  | cons token tail => exact h token tail hflat hmost

theorem fenced_current : Fenced semi least k current least := by
  intro tokens _ hleast _
  cases tokens with
  | nil => exact .ok semi List.suffix_rfl hleast fun _ _ => rfl
  | cons token tail => exact .ok token List.suffix_rfl hleast fun _ _ => rfl

/-- A rule that goes on as another one does behind some of the tokens. -/
theorem Stays.of_suffix {rule rule' : Rule α} {tokens tail : List Token}
    (h : Stays semi rule' tail least) (htail : tail <:+ tokens)
    (hrule : ∀ p rest, rule (on p (tokens ++ semi :: rest)) = rule' (on p (tail ++ semi :: rest))) :
    Stays semi rule tokens least := by
  cases h with
  | ok a hleft hleast hrun =>
    exact .ok a (hleft.trans htail) hleast fun p rest => (hrule p rest).trans (hrun p rest)
  | error failure hleft hrun =>
    exact .error failure (hleft.trans htail) fun p rest => (hrule p rest).trans (hrun p rest)

/-- Moving on takes a token; what follows may stand at the semicolon. -/
theorem Fenced.behind_advance {f : Unit → Rule α} (hf : Fenced semi 0 k (f ()) least') :
    Fenced semi 1 (k + 1) (advance >>= f) least' := by
  refine fenced_of_cons fun token tail hflat hmost => ?_
  have htail := hf tail (hflat.suffix (List.suffix_cons token tail)) (Nat.zero_le _)
    (Nat.le_of_succ_le_succ hmost)
  exact htail.of_suffix (List.suffix_cons token tail) fun p rest => rfl

theorem peek_on (p : Parser) (token : Token) (tail rest : List Token) :
    (p.on (token :: tail ++ semi :: rest)).peek.kind = nextKind (tail ++ [semi]) := by
  rw [← nextKind_append_cons tail semi rest]
  exact peek_kind_of_advance rfl

section Fence

variable (hsemi : semi.kind = .semicolon)

include hsemi

/-- A token of another kind than a semicolon stands in front of the semicolon. -/
theorem length_pos_of_nextKind {tail : List Token} {kind : TokenKind} (hkind : kind ≠ .semicolon)
    (h : nextKind (tail ++ [semi]) = kind) : 1 ≤ tail.length := by
  cases tail with
  | nil => exact absurd (h.symm.trans hsemi) hkind
  | cons token tail => exact Nat.succ_le_succ (Nat.zero_le _)

/-- Moving on to a token of another kind than a semicolon takes a token and leaves one. -/
theorem Fenced.behind_expect {f : Unit → Rule α} {wanted : TokenKind} (hwanted : wanted ≠ .semicolon)
    (hf : Fenced semi 1 k (f ()) least') : Fenced semi 1 (k + 1) (expect wanted >>= f) least' := by
  refine fenced_of_cons fun token tail hflat hmost => ?_
  by_cases hnext : nextKind (tail ++ [semi]) = wanted
  · have htail := hf tail (hflat.suffix (List.suffix_cons token tail))
      (length_pos_of_nextKind hsemi hwanted hnext) (Nat.le_of_succ_le_succ hmost)
    refine htail.of_suffix (List.suffix_cons token tail) fun p rest => ?_
    rw [bind_run, expect_run, peek_on, if_pos hnext]
    rfl
  · refine .error (.unexpected wanted (nextKind (tail ++ [semi]))) List.suffix_rfl fun p rest => ?_
    rw [bind_run, expect_run, peek_on, if_neg hnext]

theorem fenced_expect {wanted : TokenKind} (hwanted : wanted ≠ .semicolon) :
    Fenced semi 1 k (expect wanted) 1 := by
  have hbind := Fenced.behind_expect (k := k) hsemi hwanted (fenced_pure () (Nat.le_refl 1))
  rw [bind_pure] at hbind
  exact hbind.mono (Nat.le_succ k)

theorem fenced_accept {kind : TokenKind} (hkind : kind ≠ .semicolon) :
    Fenced semi 1 k (accept kind) 1 := by
  refine fenced_of_cons fun token tail hflat hmost => ?_
  by_cases hnext : nextKind (tail ++ [semi]) = kind
  · refine .ok true (List.suffix_cons token tail) (length_pos_of_nextKind hsemi hkind hnext) ?_
    intro p rest
    rw [accept_run, peek_on, if_pos hnext]
    rfl
  · refine .ok false List.suffix_rfl (Nat.succ_le_succ (Nat.zero_le _)) fun p rest => ?_
    rw [accept_run, peek_on, if_neg hnext]

omit hsemi in
/-- The end of a statement takes the semicolon if the statement reaches up to it. -/
theorem fenced_accept_semicolon : Fenced semi 1 k (accept .semicolon) 0 := by
  refine fenced_of_cons fun token tail hflat hmost => ?_
  by_cases hnext : nextKind (tail ++ [semi]) = .semicolon
  · refine .ok true (List.suffix_cons token tail) (Nat.zero_le _) fun p rest => ?_
    rw [accept_run, peek_on, if_pos hnext]
    rfl
  · refine .ok false List.suffix_rfl (Nat.zero_le _) fun p rest => ?_
    rw [accept_run, peek_on, if_neg hnext]

/-- No block is entered. -/
theorem fenced_expect_lbrace (f : Unit → Rule α) :
    Fenced semi 1 k (expect .lbrace >>= f) least' := by
  refine fenced_of_cons fun token tail hflat hmost => ?_
  have hnext := (hflat.suffix (List.suffix_cons token tail)).nextKind_ne hsemi
  refine .error (.unexpected .lbrace (nextKind (tail ++ [semi]))) List.suffix_rfl fun p rest => ?_
  rw [bind_run, expect_run, peek_on, if_neg hnext.1]

/-! ### The rules for constructs -/

section Parts

variable (he : ∀ power, Fenced semi 0 k (expression power) 1)

include he

theorem fenced_items : Fenced semi 0 k items 1 := by
  induction k with
  | zero =>
    rw [items_eq]
    refine (he .lowest).bind fun item tokens _ hleast hmost => ?_
    exact absurd (Nat.le_trans hleast hmost) (Nat.not_succ_le_zero 0)
  | succ k ih =>
    rw [items_eq]
    refine (he .lowest).bind fun item => (fenced_accept hsemi (by decide)).bind fun found => ?_
    split
    · refine .behind_advance ((ih fun power => (he power).mono (Nat.le_succ k)).bind fun rest => ?_)
      exact fenced_pure _ (Nat.le_refl 1)
    · exact fenced_pure _ (Nat.le_refl 1)

theorem fenced_expressionList {last : TokenKind} (hlast : last ≠ .semicolon) :
    Fenced semi 1 (k + 1) (expressionList expression last) 1 := by
  rw [expressionList_eq]
  refine (fenced_accept hsemi hlast).bind fun found => ?_
  split
  · exact fenced_pure _ (Nat.le_refl 1)
  · refine .behind_advance ((fenced_items hsemi he).bind fun list => ?_)
    exact (fenced_expect hsemi hlast).bind fun _ => fenced_pure _ (Nat.le_refl 1)

omit he in
theorem fenced_names : Fenced semi 1 k names 1 := by
  induction k with
  | zero => exact fun tokens _ hleast hmost => absurd (Nat.le_trans hleast hmost) (Nat.not_succ_le_zero 0)
  | succ k ih =>
    rw [names_eq]
    refine .behind_expect hsemi (by decide) (fenced_current.bind fun name => ?_)
    refine (fenced_accept hsemi (by decide)).bind fun found => ?_
    split
    · exact ih.bind fun rest => fenced_pure _ (Nat.le_refl 1)
    · exact fenced_pure _ (Nat.le_refl 1)

omit he in
theorem fenced_parameters : Fenced semi 1 k parameters 1 := by
  rw [parameters_eq]
  refine (fenced_accept hsemi (by decide)).bind fun found => ?_
  split
  · exact fenced_pure _ (Nat.le_refl 1)
  · refine (fenced_names hsemi).bind fun list => ?_
    exact (fenced_expect hsemi (by decide)).bind fun _ => fenced_pure _ (Nat.le_refl 1)

omit he hsemi in
theorem fenced_integerLiteral : Fenced semi 1 k integerLiteral 1 := by
  refine fenced_current.bind fun token => ?_
  split
  · exact fenced_pure _ (Nat.le_refl 1)
  · exact fenced_throw _

omit hsemi in
theorem fenced_prefixExpression : Fenced semi 1 (k + 1) (prefixExpression expression) 1 :=
  fenced_current.bind fun _ => .behind_advance ((he .prefixed).bind fun _ => fenced_pure _ (Nat.le_refl 1))

theorem fenced_groupedExpression : Fenced semi 1 (k + 1) (groupedExpression expression) 1 := by
  refine .behind_advance ((he .lowest).bind fun node => ?_)
  exact (fenced_expect hsemi (by decide)).bind fun _ => fenced_pure _ (Nat.le_refl 1)

theorem fenced_conditional : Fenced semi 1 (k + 1) (conditional expression) 1 := by
  refine fenced_current.bind fun token => (fenced_expect hsemi (by decide)).bind fun _ => ?_
  refine .behind_advance ((he .lowest).bind fun condition => ?_)
  exact (fenced_expect hsemi (by decide)).bind fun _ => fenced_expect_lbrace hsemi _

omit he in
theorem fenced_functionLiteral : Fenced semi 1 k (functionLiteral expression) 1 := by
  refine fenced_current.bind fun token => (fenced_expect hsemi (by decide)).bind fun _ => ?_
  exact (fenced_parameters hsemi).bind fun _ => fenced_expect_lbrace hsemi _

theorem fenced_arrayLiteral : Fenced semi 1 (k + 1) (arrayLiteral expression) 1 :=
  fenced_current.bind fun _ =>
    (fenced_expressionList hsemi he (by decide)).bind fun _ => fenced_pure _ (Nat.le_refl 1)

/-- What starts an expression, hashes apart, which an opening brace would start. -/
theorem fenced_prefixRule {kind : TokenKind} (hkind : kind ≠ .lbrace) {rule : Rule Node}
    (h : prefixRule? expression kind = some rule) : Fenced semi 1 (k + 1) rule 1 := by
  have hcurrent : ∀ f : Token → Node, Fenced semi 1 (k + 1) (do return f (← current)) 1 :=
    fun f => fenced_current.bind fun token => fenced_pure _ (Nat.le_refl 1)
  cases kind
  case ident => cases h; exact hcurrent fun token => .identifier (.ofToken token)
  case int => cases h; exact fenced_integerLiteral
  case string => cases h; exact hcurrent fun token => .string token token.literal
  case trueKw | falseKw => cases h; exact hcurrent fun token => .boolean token (token.kind = .trueKw)
  case bang | minus => cases h; exact fenced_prefixExpression he
  case lparen => cases h; exact fenced_groupedExpression hsemi he
  case ifKw => cases h; exact fenced_conditional hsemi he
  case functionKw => cases h; exact fenced_functionLiteral hsemi
  case lbracket => cases h; exact fenced_arrayLiteral hsemi he
  case lbrace => exact absurd rfl hkind
  all_goals cases h

theorem fenced_infixRule {kind : TokenKind} {rule : Node → Rule Node}
    (h : infixRule? expression kind = some rule) (left : Node) :
    Fenced semi 1 (k + 1) (rule left) 1 := by
  have hbinary : Fenced semi 1 (k + 1) (binaryExpression expression left) 1 :=
    fenced_current.bind fun token => .behind_advance ((he _).bind fun _ => fenced_pure _ (Nat.le_refl 1))
  have hcall : Fenced semi 1 (k + 1) (callExpression expression left) 1 :=
    fenced_current.bind fun token =>
      (fenced_expressionList hsemi he (by decide)).bind fun _ => fenced_pure _ (Nat.le_refl 1)
  have hindex : Fenced semi 1 (k + 1) (indexExpression expression left) 1 := by
    refine fenced_current.bind fun token => .behind_advance ((he .lowest).bind fun _ => ?_)
    exact (fenced_expect hsemi (by decide)).bind fun _ => fenced_pure _ (Nat.le_refl 1)
  cases kind
  case plus | minus | slash | asterisk | eq | notEq | lt | gt => cases h; exact hbinary
  case lparen => cases h; exact hcall
  case lbracket => cases h; exact hindex
  all_goals cases h

/-- The loop that goes on with an expression stops at the semicolon at the latest. -/
theorem fenced_extended (power : Precedence) (left : Node) (hj : j ≤ k + 1) :
    Fenced semi 1 j (extended power left) 1 := by
  induction j generalizing left with
  | zero => exact fun tokens _ hleast hmost => absurd (Nat.le_trans hleast hmost) (Nat.not_succ_le_zero 0)
  | succ j ih =>
    refine fenced_of_cons fun token tail hflat hmost => ?_
    have hstop : (∀ p rest, extended power left (on p (token :: tail ++ semi :: rest)) =
        .ok left (on p (token :: tail ++ semi :: rest))) →
        Stays semi (extended power left) (token :: tail) 1 :=
      .ok left List.suffix_rfl (Nat.succ_le_succ (Nat.zero_le _))
    cases hrule : infixRule? expression (nextKind (tail ++ [semi])) with
    | none =>
      refine hstop fun p rest => ?_
      rw [extended_eq, bind_ok (peekKind_run _), peek_on, hrule, ite_self]
      rfl
    | some rule =>
      by_cases hgo : nextKind (tail ++ [semi]) ≠ .semicolon ∧
          power.rank < (nextKind (tail ++ [semi])).precedence.rank
      · have htail := length_pos_of_nextKind hsemi hgo.1 rfl
        have hlonger : Fenced semi 1 j (rule left >>= extended power) 1 :=
          ((fenced_infixRule hsemi he hrule left).mono (Nat.le_of_succ_le hj)).bind fun longer =>
            ih longer (Nat.le_of_succ_le hj)
        refine (hlonger tail (hflat.suffix (List.suffix_cons token tail)) htail
          (Nat.le_of_succ_le_succ hmost)).of_suffix (List.suffix_cons token tail) fun p rest => ?_
        rw [extended_eq, bind_ok (peekKind_run _), peek_on, if_pos hgo, hrule]
        rfl
      · refine hstop fun p rest => ?_
        rw [extended_eq, bind_ok (peekKind_run _), peek_on, if_neg hgo]
        rfl

end Parts

omit hsemi in
/-- Nothing starts with the semicolon. -/
theorem stays_expression_nil (hsemi : semi.kind = .semicolon) (power : Precedence) :
    Stays semi (expression power) [] least :=
  .error (.noPrefixRule .semicolon) List.suffix_rfl fun p rest => by
    rw [expression_run, List.nil_append, on_cons_current, hsemi]
    rfl

theorem fenced_expression (power : Precedence) : Fenced semi 0 k (expression power) 1 := by
  induction k generalizing power with
  | zero =>
    intro tokens hflat _ hmost
    cases List.eq_nil_of_length_eq_zero (Nat.le_zero.mp hmost)
    exact stays_expression_nil hsemi power
  | succ k ih =>
    intro tokens hflat _ hmost
    cases tokens with
    | nil => exact stays_expression_nil hsemi power
    | cons token tail =>
      cases hrule : prefixRule? expression token.kind with
      | none =>
        refine .error (.noPrefixRule token.kind) List.suffix_rfl fun p rest => ?_
        rw [expression_run, List.cons_append, on_cons_current, hrule]
      | some rule =>
        have hbrace := (hflat token List.mem_cons_self).1
        have hwhole : Fenced semi 1 (k + 1) (rule >>= extended power) 1 :=
          (fenced_prefixRule hsemi ih hbrace hrule).bind fun left =>
            fenced_extended hsemi ih power left (Nat.le_refl (k + 1))
        have hrun : ∀ p rest, expression power (on p (token :: tail ++ semi :: rest)) =
            (rule >>= extended power) (on p (token :: tail ++ semi :: rest)) := by
          intro p rest
          rw [expression_run, List.cons_append, on_cons_current, hrule]
        exact (hwhole (token :: tail) hflat (Nat.succ_le_succ (Nat.zero_le _)) hmost).of_suffix
          List.suffix_rfl hrun

/-! ### Statements -/

theorem fenced_statement : Fenced semi 0 k (statement expression) 0 := by
  have hlet : Fenced semi 1 k (letStatement expression) 0 := by
    refine fenced_current.bind fun token => (fenced_expect hsemi (by decide)).bind fun _ => ?_
    refine fenced_current.bind fun target => (fenced_expect hsemi (by decide)).bind fun _ => ?_
    refine .mono (.behind_advance ((fenced_expression hsemi .lowest).bind fun value => ?_)) (Nat.le_succ k)
    exact fenced_accept_semicolon.bind fun _ => fenced_pure _ (Nat.le_refl 0)
  have hreturn : Fenced semi 1 k (returnStatement expression) 0 := by
    refine fenced_current.bind fun token => ?_
    refine .mono (.behind_advance ((fenced_expression hsemi .lowest).bind fun value => ?_)) (Nat.le_succ k)
    exact fenced_accept_semicolon.bind fun _ => fenced_pure _ (Nat.le_refl 0)
  have hexpression : Fenced semi 0 k (expressionStatement expression) 0 := by
    refine fenced_current.bind fun token => (fenced_expression hsemi .lowest).bind fun value => ?_
    exact fenced_accept_semicolon.bind fun _ => fenced_pure _ (Nat.le_refl 0)
  intro tokens hflat _ hmost
  cases tokens with
  | nil =>
    refine (hexpression [] hflat (Nat.le_refl 0) hmost).of_suffix List.suffix_rfl fun p rest => ?_
    rw [statement_run, List.nil_append, on_cons_current, hsemi]
    rfl
  | cons token tail =>
    have hany : Fenced semi 1 k (statement expression) 0 := by
      refine fenced_current.bind fun token => ?_
      split
      · exact hlet
      · exact hreturn
      · exact hexpression.of_cons
    exact hany (token :: tail) hflat (Nat.succ_le_succ (Nat.zero_le _)) hmost

/-- The statements in front of the semicolon and their errors are the same whatever is behind it, and what
    is behind it is read on its own. -/
theorem statements_fenced {tokens : List Token} (hflat : Flat tokens) :
    ∃ nodes failures, ∀ p rest, statements expression closesProgram (on p (tokens ++ semi :: rest)) =
      (nodes ++ (statements expression closesProgram (on (p.recorded failures) rest)).1,
        (statements expression closesProgram (on (p.recorded failures) rest)).2) := by
  induction hlength : tokens.length using Nat.strongRecOn generalizing tokens with
  | ind n ih =>
    -- what is read once a statement has ended in front of `left`
    have hbehind : ∀ left, left <:+ tokens → ∃ nodes failures, ∀ p rest,
        statements expression closesProgram (on p (left ++ semi :: rest)).advance =
          (nodes ++ (statements expression closesProgram (on (p.recorded failures) rest)).1,
            (statements expression closesProgram (on (p.recorded failures) rest)).2) := by
      intro left hleft
      cases left with
      | nil => exact ⟨[], [], fun p rest => by simp [recorded]⟩
      | cons token left =>
        have hsuffix : left <:+ tokens := (List.suffix_cons token left).trans hleft
        have hlt : left.length < n := by
          have := hleft.length_le
          simp only [List.length_cons] at this
          omega
        exact ih _ hlt (hflat.suffix hsuffix) rfl
    have hopen : ∀ p rest, closesProgram (on p (tokens ++ semi :: rest)).current.kind ≠ true := by
      intro p rest
      rw [current_kind, on_tokens, nextKind_append_cons]
      simp only [closesProgram, decide_eq_true_eq, ne_eq]
      exact (hflat.nextKind_ne hsemi).2
    cases fenced_statement hsemi tokens hflat (Nat.zero_le _) (Nat.le_refl _) with
    | ok node hleft _ hrun =>
      obtain ⟨nodes, failures, h⟩ := hbehind _ hleft
      refine ⟨node :: nodes, failures, fun p rest => ?_⟩
      rw [statements_eq rfl, if_neg (hopen p rest), hrun]
      simp only [h, List.cons_append]
    | error failure hleft hrun =>
      obtain ⟨nodes, failures, h⟩ := hbehind _ hleft
      refine ⟨nodes, failure :: failures, fun p rest => ?_⟩
      rw [statements_eq rfl, if_neg (hopen p rest), hrun]
      have hrecord (tokens : List Token) :
          (on p tokens).record failure = on (p.recorded [failure]) tokens := rfl
      simp only [hrecord, h, recorded_recorded, List.singleton_append]

end Fence

end Rule

/-! ### Token sequences -/

/-- The parse of a token sequence; `line` and `column` say where the end token behind it stands. -/
def parseTokens (tokens : List Token) (line column : Nat) : Parsed :=
  let (statements, last) := (Parser.mk tokens line column []).program
  ⟨statements, last.errors⟩

theorem parse_eq_parseTokens (source : String) : parse source =
    parseTokens (ofText source).tokens (ofText source).endLine (ofText source).endColumn :=
  rfl

/-- Parsing starts anew behind a semicolon in front of which no brace opens, whatever else stands there. -/
theorem parseTokens_append_semicolon (before behind : List Token) (semi : Token)
    (line column line' column' : Nat) (hsemi : semi.kind = .semicolon)
    (hbefore : ∀ token ∈ before, token.kind ≠ .lbrace ∧ token.kind ≠ .eof) :
    (parseTokens (before ++ semi :: behind) line column).statements =
        (parseTokens (before ++ [semi]) line' column').statements ++
          (parseTokens behind line column).statements ∧
      (parseTokens (before ++ semi :: behind) line column).errors =
        (parseTokens (before ++ [semi]) line' column').errors ++
          (parseTokens behind line column).errors := by
  obtain ⟨nodes, failures, h⟩ := Rule.statements_fenced hsemi hbefore
  have hfirst : (Parser.mk (before ++ [semi]) line' column' []).program =
      (nodes ++ [], Parser.mk [] line' column' failures) := h ⟨[], line', column', []⟩ []
  have hwhole : (Parser.mk (before ++ semi :: behind) line column []).program =
      (nodes ++ (Parser.mk behind line column failures).program.1,
        (Parser.mk behind line column failures).program.2) := h ⟨[], line, column, []⟩ behind
  -- errors that are recorded already change nothing of what is read behind the semicolon
  have hanew : (Parser.mk behind line column failures).program =
      ((Parser.mk behind line column []).program.1,
        (Parser.mk behind line column []).program.2.moved .id failures) := by
    have hmoved := program_moved .id failures ⟨behind, line, column, []⟩
    rwa [moved_id, List.append_nil, Node.relabelAll_id] at hmoved
  simp only [parseTokens, hwhole, hfirst, hanew, List.append_nil, moved, and_self]

/-- An opened list, a `let` without a name and a function without parameters. -/
theorem parseTokens_append_semicolon_malformed :
    let semi : Token := ⟨.semicolon, ";", 1, 8⟩
    let before : List Token := [⟨.lparen, "(", 1, 1⟩, ⟨.lbracket, "[", 1, 2⟩, ⟨.letKw, "let", 1, 3⟩,
      ⟨.functionKw, "fn", 1, 6⟩]
    let behind : List Token := [⟨.int, "5", 1, 9⟩]
    semi.kind = .semicolon ∧ (∀ token ∈ before, token.kind ≠ .lbrace ∧ token.kind ≠ .eof) ∧
      (parseTokens (before ++ semi :: behind) 1 10).statements =
        (parseTokens (before ++ [semi]) 1 10).statements ++ (parseTokens behind 1 10).statements ∧
      (parseTokens (before ++ semi :: behind) 1 10).errors =
        (parseTokens (before ++ [semi]) 1 10).errors ++ (parseTokens behind 1 10).errors := by
  intro semi before behind
  have hbefore : ∀ token ∈ before, token.kind ≠ .lbrace ∧ token.kind ≠ .eof := by decide
  exact ⟨rfl, hbefore, parseTokens_append_semicolon before behind semi 1 10 1 10 rfl hbefore⟩

end Monkey
