import Monkey.Proofs.Parser.Induction

/-!
# How far parse rules look

A parse rule looks at the tokens that it takes, at the one where it ends and at the one behind that, and at
none further on. So from parsers that are alike so far it gives the same result or failure, records the same
errors and takes the same number of tokens (`Rule.Local`); what it does is its `Outcome`.
-/

namespace Monkey

/-! ### Parsers that are alike -/

namespace Parser

/-- Two parsers have the same `n` tokens in front of them, where the end of the text counts if they get there.
    -/
structure Alike (n : Nat) (p p' : Parser) : Prop where
  tokens : p'.tokens.take n = p.tokens.take n
  ends : p.tokens.length < n → p'.endToken = p.endToken

variable {j n count : Nat} {added : List ParseError} {p p' : Parser}

theorem alike_refl (n : Nat) (p : Parser) : p.Alike n p :=
  ⟨rfl, fun _ => rfl⟩

theorem Alike.mono (h : p.Alike n p') (hj : j ≤ n) : p.Alike j p' := by
  refine ⟨?_, fun hlength => h.ends (Nat.lt_of_lt_of_le hlength hj)⟩
  have htake := congrArg (List.take j) h.tokens
  rwa [List.take_take, List.take_take, Nat.min_eq_left hj] at htake

theorem Alike.length (h : p.Alike n p') : min n p'.tokens.length = min n p.tokens.length := by
  simpa only [List.length_take] using congrArg List.length h.tokens

/-- The token that stands so many places ahead of the current one. -/
def tokenAt (p : Parser) (place : Nat) : Token :=
  p.tokens.getD place p.endToken

theorem current_eq_tokenAt (p : Parser) : p.current = p.tokenAt 0 := by
  rw [current, tokenAt]
  cases p.tokens <;> rfl

theorem peek_eq_tokenAt (p : Parser) : p.peek = p.tokenAt 1 := by
  rw [peek, tokenAt]
  rcases p.tokens with _ | ⟨_, _ | ⟨_, _⟩⟩ <;> rfl

theorem Alike.tokenAt_eq (h : p.Alike n p') {place : Nat} (hplace : place < n) :
    p'.tokenAt place = p.tokenAt place := by
  have hlength := h.length
  have hget := congrArg (·[place]?) h.tokens
  simp only [List.getElem?_take, if_pos hplace] at hget
  rw [tokenAt, tokenAt, List.getD_eq_getElem?_getD, List.getD_eq_getElem?_getD, hget]
  by_cases hend : p.tokens.length ≤ place
  · rw [h.ends (Nat.lt_of_le_of_lt hend hplace)]
  · rw [List.getElem?_eq_getElem (Nat.lt_of_not_le hend)]
    rfl

/-- Where a text ends with its first end token, parsers are alike if their tokens are the same one by one. -/
theorem alike_iff_tokenAt (h : ∀ token ∈ p.tokens, token.kind ≠ .eof)
    (h' : ∀ token ∈ p'.tokens, token.kind ≠ .eof) :
    p.Alike n p' ↔ ∀ place < n, p'.tokenAt place = p.tokenAt place := by
  refine ⟨fun halike place hplace => halike.tokenAt_eq hplace, fun hsame => ?_⟩
  have hin {q : Parser} {place : Nat} (hplace : place < q.tokens.length) : q.tokenAt place = q.tokens[place] := by
    rw [tokenAt, List.getD_eq_getElem?_getD, List.getElem?_eq_getElem hplace]
    rfl
  have hout {q : Parser} {place : Nat} (hplace : q.tokens.length ≤ place) : q.tokenAt place = q.endToken := by
    rw [tokenAt, List.getD_eq_getElem?_getD, List.getElem?_eq_none hplace]
    rfl
  -- the texts end at the same place, or further on than is looked at
  have hends {q q' : Parser} (hkinds : ∀ token ∈ q'.tokens, token.kind ≠ .eof)
      (hsame : ∀ place < n, q'.tokenAt place = q.tokenAt place) {place : Nat} (hplace : place < n)
      (hend : q.tokens.length ≤ place) : q'.tokens.length ≤ place := by
    refine Nat.le_of_not_lt fun hlength => ?_
    have htoken := hsame place hplace
    rw [hin hlength, hout hend] at htoken
    exact hkinds _ (List.getElem_mem _) (congrArg Token.kind htoken)
  constructor
  · refine List.ext_getElem? fun place => ?_
    rw [List.getElem?_take, List.getElem?_take]
    split
    next hplace =>
      by_cases hend : p.tokens.length ≤ place
      · rw [List.getElem?_eq_none hend, List.getElem?_eq_none (hends h' hsame hplace hend)]
      · have hend' : ¬ p'.tokens.length ≤ place :=
          fun hle => hend (hends h (fun place hplace => (hsame place hplace).symm) hplace hle)
        have htoken := hsame place hplace
        rw [hin (Nat.lt_of_not_le hend), hin (Nat.lt_of_not_le hend')] at htoken
        rw [List.getElem?_eq_getElem (Nat.lt_of_not_le hend), List.getElem?_eq_getElem (Nat.lt_of_not_le hend'),
          htoken]
    next => rfl
  · intro hlength
    have htoken := hsame _ hlength
    rwa [hout (Nat.le_refl _), hout (hends h' hsame hlength (Nat.le_refl _))] at htoken

/-- The parser behind so many tokens, with more errors recorded. -/
def passed (p : Parser) (count : Nat) (added : List ParseError) : Parser :=
  { p with tokens := p.tokens.drop count, errors := p.errors ++ added }

theorem passed_zero (p : Parser) : p.passed 0 [] = p := by
  simp [passed]

theorem passed_passed (p : Parser) (count count' : Nat) (added added' : List ParseError) :
    (p.passed count added).passed count' added' = p.passed (count + count') (added ++ added') := by
  simp [passed]

theorem Alike.passed (h : p.Alike (count + n) p') : (p.passed count added).Alike n (p'.passed count added) := by
  refine ⟨?_, fun hlength => h.ends ?_⟩
  · have hdrop := congrArg (List.drop count) h.tokens
    rwa [List.drop_take, List.drop_take, Nat.add_sub_cancel_left] at hdrop
  · simp only [Parser.passed, List.length_drop] at hlength
    omega

end Parser

namespace Rule

open Monkey.Parser

variable {α β : Type}

/-! ### Rules that look no further -/

/-- A result or a failure, and the parser that is left. -/
def ended (result : Except ParseError α) (q : Parser) : EStateM.Result ParseError Parser α :=
  match result with
  | .ok a => .ok a q
  | .error failure => .error failure q

/-- Starting from a parser, a rule takes so many tokens, and does the same from every parser that is alike up
    to the token behind the one it ends at. -/
def Local (rule : Rule α) (p : Parser) : Prop :=
  ∃ result count added, count ≤ p.tokens.length ∧
    ∀ p', p.Alike (count + 2) p' → rule p' = ended result (p'.passed count added)

theorem local_of_stay {rule : Rule α} {p : Parser} (result : Except ParseError α)
    (h : ∀ p', p.Alike 2 p' → rule p' = ended result p') : Local rule p :=
  ⟨result, 0, [], Nat.zero_le _, fun p' halike => by rw [h p' halike, passed_zero]⟩

theorem Local.bind {x : Rule α} {f : α → Rule β} {p : Parser} (hx : Local x p)
    (hf : ∀ a q, x p = .ok a q → Local (f a) q) : Local (x >>= f) p := by
  obtain ⟨result, count, added, hcount, hrun⟩ := hx
  have hself := hrun p (alike_refl _ p)
  cases result with
  | error failure =>
    exact ⟨.error failure, count, added, hcount, fun p' halike => by rw [bind_run, hrun p' halike]; rfl⟩
  | ok a =>
    obtain ⟨result', count', added', hcount', hrun'⟩ := hf a _ hself
    refine ⟨result', count + count', added ++ added', ?_, fun p' halike => ?_⟩
    · simp only [Parser.passed, List.length_drop] at hcount'
      omega
    · have hfirst := hrun p' (halike.mono (by omega))
      have hsecond := hrun' (p'.passed count added) ((halike.mono (by omega)).passed)
      rw [bind_run, hfirst]
      show f a (p'.passed count added) = _
      rw [hsecond, passed_passed]

theorem local_advance (p : Parser) : Local advance p := by
  refine ⟨.ok (), min 1 p.tokens.length, [], Nat.min_le_right _ _, fun p' halike => ?_⟩
  show EStateM.Result.ok () p'.advance = .ok () (p'.passed _ [])
  congr 1
  cases htokens : p.tokens with
  | nil =>
    have hnil : p'.tokens = [] := by simpa [htokens] using halike.tokens
    rw [advance_of_nil hnil]
    exact (passed_zero p').symm
  | cons token rest => simp [Parser.advance, Parser.passed]

theorem composable_local : Composable @Local where
  pure a p := local_of_stay (.ok a) fun _ _ => rfl
  bind := Local.bind
  current p := by
    refine local_of_stay (.ok p.current) fun p' halike => ?_
    rw [current_run, current_eq_tokenAt, current_eq_tokenAt, halike.tokenAt_eq (Nat.zero_lt_succ 1)]
    rfl
  peekKind p := by
    refine local_of_stay (.ok p.peek.kind) fun p' halike => ?_
    rw [peekKind_run, peek_eq_tokenAt, peek_eq_tokenAt, halike.tokenAt_eq (Nat.lt_succ_self 1)]
    rfl
  advance := local_advance
  fail {_ failure p} _ := local_of_stay (.error failure) fun _ _ => rfl
  recovered := by
    rintro rule p ⟨result, count, added, hcount, hrun⟩
    cases result with
    | ok a => exact ⟨.ok (some a), count, added, hcount, fun p' halike => by rw [recovered, hrun p' halike]; rfl⟩
    | error failure =>
      refine ⟨.ok none, count, added ++ [failure], hcount, fun p' halike => ?_⟩
      rw [recovered, hrun p' halike]
      simp [ended, Parser.passed, Parser.record]

/-! ### Outcomes -/

/-- What comes of a rule: its result or failure, the errors that it adds, and the number of tokens that it
    takes. -/
structure Outcome (α : Type) where
  result : Except ParseError α
  added : List ParseError
  consumed : Nat

def outcome (rule : Rule α) (p : Parser) : Outcome α where
  result :=
    match rule p with
    | .ok a _ => .ok a
    | .error failure _ => .error failure
  added := (rule.after p).errors.drop p.errors.length
  consumed := p.tokens.length - (rule.after p).tokens.length

theorem outcome_of_ended {rule : Rule α} {p : Parser} {result : Except ParseError α} {count : Nat}
    {added : List ParseError} (hcount : count ≤ p.tokens.length) (h : rule p = ended result (p.passed count added)) :
    rule.outcome p = ⟨result, added, count⟩ := by
  have hafter : rule.after p = p.passed count added := by
    cases result <;> simp only [after, h, ended]
  have hconsumed : p.tokens.length - (p.tokens.length - count) = count := Nat.sub_sub_self hcount
  cases result <;>
    simp only [outcome, hafter, h, ended, Parser.passed, List.drop_left, List.length_drop, hconsumed]

/-- A local rule has the same outcome from every parser that is alike up to the token behind the one it ends
    at. -/
theorem Local.outcome_eq {rule : Rule α} {p p' : Parser} (h : Local rule p)
    (halike : p.Alike ((rule.outcome p).consumed + 2) p') : rule.outcome p' = rule.outcome p := by
  obtain ⟨result, count, added, hcount, hrun⟩ := h
  rw [outcome_of_ended hcount (hrun p (alike_refl _ p))] at halike ⊢
  have hlength := halike.length
  exact outcome_of_ended (by simp only at hlength; omega) (hrun p' halike)

end Rule

end Monkey
