import Monkey.Proofs.Grammar.Complete
import Monkey.Proofs.Grammar.Sound

/-!
# The language of the parser

Parsing a program text without errors gives a tree exactly if the grammar derives the tokens of the
text as that tree. So the parser accepts the language of the grammar, and no text has two trees.
-/

namespace Monkey

open Grammar

/-! ### The tokens of a program text -/

/-- What every lexeme satisfies: it is not the end of the text, and an integer is a numeral. -/
def Proper (kind : TokenKind) (literal : String) : Prop :=
  kind ≠ .eof ∧ (kind = .int → IsNumeral literal)

theorem wordKind_mem (word : String) :
    wordKind word ∈ [.functionKw, .letKw, .trueKw, .falseKw, .ifKw, .elseKw, .returnKw, .ident] := by
  simp only [wordKind, keywords, List.lookup_cons, List.lookup_nil]
  repeat' split
  all_goals decide

theorem isNumeral_row {c : Char} (rest : List Char) (h : Text.isAsciiDigit c = true) :
    IsNumeral (String.ofList (c :: rest.takeWhile Text.isAsciiDigit)) := by
  refine ⟨by simp, fun d hd => ?_⟩
  have hdigit : Text.isAsciiDigit d = true := by
    rw [String.toList_ofList] at hd
    rcases List.mem_cons.mp hd with rfl | hd
    · exact h
    · exact List.all_eq_true.mp List.all_takeWhile d hd
  simpa [Text.isAsciiDigit] using hdigit

theorem proper_lexeme (c : Char) (rest : List Char) :
    Proper (lexeme c rest).kind (lexeme c rest).literal := by
  have hproper {kind : TokenKind} (literal : String) (h : kind ≠ .eof ∧ kind ≠ .int) :
      Proper kind literal :=
    ⟨h.1, fun hint => absurd hint h.2⟩
  unfold lexeme
  split
  · exact hproper _ ⟨TokenKind.noConfusion, TokenKind.noConfusion⟩
  split
  · next hdigit => exact ⟨by simp [Lexeme.plain], fun _ => isNumeral_row rest hdigit⟩
  split
  · refine hproper _ ?_
    have hword := wordKind_mem (String.ofList (c :: rest.takeWhile isWordChar))
    constructor <;> intro h <;> simp [Lexeme.plain] at h <;> simp [h] at hword
  · split
    · next kind hkind =>
      refine hproper _ ?_
      have hmem := List.mem_of_find?_eq_some hkind
      constructor <;> intro h <;> simp [Lexeme.plain] at h <;> simp [h, operators] at hmem
    · exact hproper _ ⟨by simp [Lexeme.plain], by simp [Lexeme.plain]⟩

/-- The tokens of a program text are of the kind that the parser expects. -/
theorem Scanner.proper_tokensWithin (fuel : Nat) (s : Scanner) :
    ∀ token ∈ (s.tokensWithin fuel).1, Proper token.kind token.literal := by
  induction fuel generalizing s with
  | zero => simp [tokensWithin]
  | succ fuel ih =>
    intro token htoken
    simp only [tokensWithin, nextToken?] at htoken
    cases hrest : s.skipGap.rest with
    | nil => simp [hrest] at htoken
    | cons c rest =>
      simp only [hrest] at htoken
      rcases List.mem_cons.mp htoken with rfl | htoken
      · exact proper_lexeme c rest
      · exact ih _ token htoken

theorem Parser.scanned_ofText (source : String) : (Parser.ofText source).Scanned :=
  Scanner.proper_tokensWithin _ _

/-! ### The language -/

theorem Parser.ofText_tokens (source : String) :
    (Parser.ofText source).tokens = (tokenize source).dropLast := by
  show (Scanner.ofText source).tokens.1 = ((Scanner.ofText source).tokens.1 ++ [_]).dropLast
  rw [List.dropLast_concat]

/-- Tokens are derived as one program at most. -/
theorem Program.unique {tokens : List Token} {statements statements' : List Node}
    (h : Program tokens statements) (h' : Program tokens statements') : statements = statements' := by
  have hsame := (h.parsed (p := {tokens})).symm.trans h'.parsed
  exact congrArg Prod.fst hsame

/-- Parsing gives statements and no errors exactly if the grammar derives the tokens as them. -/
theorem parse_eq_iff_program (source : String) (statements : List Node) :
    parse source = ⟨statements, []⟩ ↔ Program (tokenize source).dropLast statements := by
  have hparse : parse source =
      ⟨(Parser.ofText source).program.1, (Parser.ofText source).program.2.errors⟩ := rfl
  rw [← Parser.ofText_tokens, hparse]
  constructor
  · intro h
    obtain ⟨hstatements, herrors⟩ := Parsed.mk.inj h
    rw [← hstatements]
    exact (Parser.ofText source).derives_program (Parser.scanned_ofText source) herrors
  · intro h
    have hprogram : (Parser.ofText source).program = (statements, (Parser.ofText source).on []) :=
      h.parsed (p := Parser.ofText source)
    rw [hprogram]
    rfl

end Monkey
