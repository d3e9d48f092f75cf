import Monkey.Highlight
import Monkey.Proofs.Scanner.Bare

/-!
# Highlighting line by line

A text that is being typed is highlighted line by line, each line as if it were a text of its own. Where a
gap runs over the end of a line it makes no difference that it is cut in two there, and every token ends on
its own line, unless it is a string with a line feed in it. So what is seen line by line are the tokens of the
text, at their places, exactly if there is no such string (`documentTokens_eq_iff`).
-/

namespace Monkey

open Lexical

/-! ### The lines of a text -/

namespace Text

variable {line rest : List Char}

/-- A text is a line, or a line in front of another text. -/
theorem line_induction {motive : List Char → Prop} (last : ∀ line, '\n' ∉ line → motive line)
    (line : ∀ line rest, '\n' ∉ line → motive rest → motive (line ++ '\n' :: rest)) (text : List Char) :
    motive text := by
  induction hlength : text.length using Nat.strongRecOn generalizing text with
  | ind n ih =>
    by_cases hmem : '\n' ∈ text
    · obtain ⟨front, rest, rfl, hfront⟩ := List.eq_append_cons_of_mem hmem
      refine line front rest hfront (ih rest.length ?_ rest rfl)
      simp only [List.length_append, List.length_cons] at hlength
      omega
    · exact last text hmem

theorem lineChars_cons {c : Char} (hc : c ≠ '\n') {lines : List (List Char)}
    (h : lineChars rest = line :: lines) :
    lineChars (c :: rest) = (c :: line) :: lines := by
  rw [lineChars.eq_def]
  simp only [h]

theorem lineChars_line (hline : '\n' ∉ line) : lineChars line = [line] := by
  induction line with
  | nil => rfl
  | cons c line ih =>
    rw [List.mem_cons, not_or] at hline
    exact lineChars_cons (Ne.symm hline.1) (ih hline.2)

theorem lineChars_append (hline : '\n' ∉ line) (rest : List Char) :
    lineChars (line ++ '\n' :: rest) = line :: lineChars rest := by
  induction line with
  | nil => rfl
  | cons c line ih =>
    rw [List.mem_cons, not_or] at hline
    exact lineChars_cons (Ne.symm hline.1) (ih hline.2)

end Text

/-! ### Tokens and their lines -/

/-- The characters of a literal are among those that its token spans. -/
theorem Lexical.Spans.literal_subset {before span rest : List Char} {kind : TokenKind} {literal : String}
    (h : Spans before kind literal span rest) : literal.toList ⊆ span := by
  cases h with
  | word | number | illegal =>
    rw [String.toList_ofList]
    exact List.Subset.refl _
  | sign => exact List.Subset.refl _
  | string =>
    rw [String.toList_ofList]
    exact fun c hc => List.mem_append_left _ (List.mem_cons_of_mem _ hc)
  | openString =>
    rw [String.toList_ofList]
    exact fun c hc => List.mem_cons_of_mem _ hc

/-- A string is closed, or it is open to the end of the text. -/
theorem Lexical.Spans.closed_or_open {before span rest : List Char} {literal : String}
    (h : Spans before .string literal span rest) :
    (∃ content, literal = String.ofList content ∧ span = '"' :: content ++ ['"'] ∧ '"' ∉ content) ∨
      ∃ content, literal = String.ofList content ∧ span = '"' :: content ∧ '"' ∉ content := by
  generalize hkind : TokenKind.string = kind at h
  cases h with
  | string hcontent => exact .inl ⟨_, rfl, rfl, hcontent⟩
  | openString hcontent => exact .inr ⟨_, rfl, rfl, hcontent⟩
  | word _ hnames => exact absurd hkind.symm hnames.ne_string
  | sign hsign => exact absurd (hkind ▸ hsign) (by decide)
  | number | illegal => cases hkind

theorem Position.after_line {cs : List Char} (h : '\n' ∉ cs) (p : Position) :
    (p.after cs).line = p.line ∧ (p.after cs).column = p.column + cs.length := by
  induction cs generalizing p with
  | nil => exact ⟨rfl, rfl⟩
  | cons c cs ih =>
    rw [List.mem_cons, not_or] at h
    have hnext : p.next c = ⟨p.offset + 1, p.line, p.column + 1⟩ := if_neg (Ne.symm h.1)
    obtain ⟨hline, hcolumn⟩ := ih h.2 (p.next c)
    show ((p.next c).after cs).line = _ ∧ ((p.next c).after cs).column = _
    rw [hline, hcolumn, hnext, List.length_cons]
    exact ⟨rfl, by simp only; omega⟩

namespace Scanner

variable {line rest : List Char}

theorem tokens_ended {gap : List Char} (hgap : Gap gap []) (p : Position) :
    (⟨gap, p⟩ : Scanner).tokens.1 = [] := by
  rw [tokens_eq, nextToken?_ended hgap]

/-- A gap in front of a text adds no token. -/
theorem tokens_gap {gap : List Char} (hgap : Gap gap rest) (p : Position) :
    (⟨gap ++ rest, p⟩ : Scanner).tokens.1 = (⟨rest, p.after gap⟩ : Scanner).tokens.1 := by
  have hskip : (⟨gap ++ rest, p⟩ : Scanner).skipGap = (⟨rest, p.after gap⟩ : Scanner).skipGap := by
    simp only [skipGap, advance, hgap.gapLength_append, ← List.drop_drop, List.drop_left, List.take_add,
      List.take_left, Position.after_append]
  rw [tokens_eq, tokens_eq, nextToken?, nextToken?, hskip]

theorem tokens_token {gap span : List Char} {kind : TokenKind} {literal : String}
    (hgap : Gap gap (span ++ rest)) (h : Lexes kind literal span rest) (p : Position) :
    (⟨gap ++ (span ++ rest), p⟩ : Scanner).tokens.1 =
      ⟨kind, literal, (p.after gap).line, (p.after gap).column⟩ ::
        (⟨rest, p.after (gap ++ span)⟩ : Scanner).tokens.1 := by
  rw [tokens_eq, nextToken?_token hgap h]

/-- No character is in a token that is not in the text. -/
theorem literal_subset (text : List Char) (p : Position) :
    ∀ token ∈ (⟨text, p⟩ : Scanner).tokens.1, token.literal.toList ⊆ text := by
  induction text using text_induction generalizing p with
  | gap gap hgap =>
    rw [tokens_ended hgap]
    exact List.forall_mem_nil _
  | token gap span rest kind literal hgap hspan ih =>
    rw [tokens_token hgap hspan.lexes]
    refine List.forall_mem_cons.mpr ⟨fun c hc => ?_, fun token htoken c hc => ?_⟩
    · exact List.mem_append_right _ (List.mem_append_left _ (hspan.literal_subset hc))
    · exact List.mem_append_right _ (List.mem_append_right _ (ih _ token htoken hc))

/-- On a single line the place where it starts decides the line of the tokens, and shifts their columns. -/
theorem tokens_line (hline : '\n' ∉ line) {p q : Position} (hcolumn : p.column = q.column) :
    (⟨line, p⟩ : Scanner).tokens.1 =
      (⟨line, q⟩ : Scanner).tokens.1.map fun token => { token with line := p.line } := by
  induction line using text_induction generalizing p q with
  | gap gap hgap =>
    rw [tokens_ended hgap, tokens_ended hgap]
    rfl
  | token gap span rest kind literal hgap hspan ih =>
    simp only [List.mem_append, not_or] at hline
    have hfront : '\n' ∉ gap ++ span := by simp [hline.1, hline.2.1]
    have hgap' (p : Position) := p.after_line hline.1
    have hbehind (p : Position) := p.after_line hfront
    rw [tokens_token hgap hspan.lexes, tokens_token hgap hspan.lexes, List.map_cons,
      ih hline.2.2 (q := q.after (gap ++ span)) (by rw [(hbehind p).2, (hbehind q).2, hcolumn]),
      (hbehind p).1, (hgap' p).1, (hgap' p).2, (hgap' q).2, hcolumn]

/-- A string that is still open at the end of a line goes on with the line feed. -/
theorem mem_tokens_openString {gap content : List Char} (hcontent : '"' ∉ content)
    (hgap : Gap gap ('"' :: content ++ '\n' :: rest)) (p : Position) :
    ∃ token ∈ (⟨gap ++ ('"' :: content ++ '\n' :: rest), p⟩ : Scanner).tokens.1,
      token.kind = .string ∧ '\n' ∈ token.literal.toList := by
  have hstops : Stops StartsGap ('"' :: content ++ '\n' :: rest) :=
    stops_cons.mpr fun h => h.elim not_gap_quote.1 not_gap_quote.2
  rw [tokens_eq, nextToken?, skipGap_eq hgap hstops]
  simp only [List.cons_append, lexeme_quote, takeWhile_content hcontent]
  refine ⟨_, List.mem_cons_self, rfl, ?_⟩
  rw [String.toList_ofList]
  simp

/-- A line in front of a text adds the tokens that it has alone, unless it opens a string that goes on behind
    it. -/
theorem tokens_append_line {p : Position}
    (hstrings : ∀ token ∈ (⟨line ++ '\n' :: rest, p⟩ : Scanner).tokens.1,
      token.kind = .string → '\n' ∉ token.literal.toList) :
    (⟨line ++ '\n' :: rest, p⟩ : Scanner).tokens.1 =
      (⟨line, p⟩ : Scanner).tokens.1 ++ (⟨rest, (p.after line).next '\n'⟩ : Scanner).tokens.1 := by
  induction line using text_induction generalizing p with
  | gap gap hgap =>
    have hgap' : Gap gap ('\n' :: rest) := hgap.append_line
    have hline : Gap ['\n'] rest := .blank (.inr (.inr (.inr rfl))) .nil
    rw [tokens_ended hgap, tokens_gap hgap']
    exact tokens_gap hline _
  | token gap span line kind literal hgap hspan ih =>
    have hgap' : Gap gap (span ++ line ++ '\n' :: rest) := hgap.append_line
    rw [List.append_assoc] at hgap'
    rw [List.append_assoc, List.append_assoc] at hstrings ⊢
    have hlexes : Lexes kind literal span (line ++ '\n' :: rest) := by
      by_cases hlast : kind = .string ∧ line = []
      · obtain ⟨rfl, rfl⟩ := hlast
        rcases hspan.closed_or_open with ⟨content, rfl, rfl, hcontent⟩ | ⟨content, rfl, rfl, hcontent⟩
        · exact lexes_string hcontent _
        · obtain ⟨token, htoken, hkind, hfeed⟩ := mem_tokens_openString hcontent hgap' p
          exact absurd hfeed (hstrings token htoken hkind)
      · exact hspan.lexes_append_line fun hkind hnil => hlast ⟨hkind, hnil⟩
    rw [tokens_token hgap' hlexes] at hstrings ⊢
    rw [tokens_token hgap hspan.lexes, ih (List.forall_mem_cons.mp hstrings).2, List.cons_append,
      ← Position.after_append, List.append_assoc]

end Scanner

/-! ### Documents -/

namespace Highlight

theorem map_token_spansWithin (fuel : Nat) (s : Scanner) :
    (spansWithin fuel s).map Span.token = (s.tokensWithin fuel).1 := by
  induction fuel generalizing s with
  | zero => rfl
  | succ fuel ih =>
    rw [spansWithin, Scanner.tokensWithin]
    cases s.nextToken? with
    | none => rfl
    | some found => exact congrArg (found.1 :: ·) (ih found.2)

/-- The tokens of a line as they are highlighted, on the line of the given number. -/
def lineTokens (number : Nat) (line : String) : List Token :=
  (spans line).map fun span => { span.token with line := number }

/-- The tokens of the lines that have the numbers from the given one on. -/
def tokensFrom (number : Nat) : List String → List Token
  | [] => []
  | line :: rest => lineTokens number line ++ tokensFrom (number + 1) rest

def documentTokens (text : String) : List Token :=
  tokensFrom 1 (Text.lines text)

theorem lineTokens_eq {line : List Char} (hline : '\n' ∉ line) {p : Position} (hcolumn : p.column = 1) :
    lineTokens p.line (String.ofList line) = (⟨line, p⟩ : Scanner).tokens.1 := by
  have hspans : (spans (String.ofList line)).map Span.token = (⟨line, {}⟩ : Scanner).tokens.1 := by
    rw [spans, map_token_spansWithin, Scanner.ofText, String.toList_ofList]
    rfl
  rw [Scanner.tokens_line hline (q := {}) hcolumn, ← hspans, List.map_map]
  rfl

/-- Without strings that hold a line feed, the tokens of a text are those of its lines. -/
theorem tokensFrom_lineChars {text : List Char} {p : Position} (hcolumn : p.column = 1)
    (hstrings : ∀ token ∈ (⟨text, p⟩ : Scanner).tokens.1, token.kind = .string → '\n' ∉ token.literal.toList) :
    tokensFrom p.line ((Text.lineChars text).map String.ofList) = (⟨text, p⟩ : Scanner).tokens.1 := by
  induction text using Text.line_induction generalizing p with
  | last line hline =>
    rw [Text.lineChars_line hline]
    exact (List.append_nil _).trans (lineTokens_eq hline hcolumn)
  | line line rest hline ih =>
    have hnext : (p.after line).next '\n' = ⟨(p.after line).offset + 1, p.line + 1, 1⟩ := by
      rw [← (p.after_line hline).1]
      exact if_pos rfl
    have happend := Scanner.tokens_append_line hstrings
    rw [happend, hnext] at hstrings ⊢
    rw [Text.lineChars_append hline, List.map_cons, tokensFrom, lineTokens_eq hline hcolumn]
    exact congrArg _ (ih (p := ⟨_, _, 1⟩) rfl (List.forall_mem_append.mp hstrings).2)

/-- On a line no token holds a line feed. -/
theorem not_mem_lineTokens {line : List Char} (hline : '\n' ∉ line) (number : Nat) :
    ∀ token ∈ lineTokens number (String.ofList line), '\n' ∉ token.literal.toList := by
  intro token htoken hfeed
  rw [lineTokens_eq (p := ⟨0, number, 1⟩) hline rfl] at htoken
  exact hline (Scanner.literal_subset line _ token htoken hfeed)

theorem not_mem_tokensFrom (text : List Char) (number : Nat) :
    ∀ token ∈ tokensFrom number ((Text.lineChars text).map String.ofList), '\n' ∉ token.literal.toList := by
  induction text using Text.line_induction generalizing number with
  | last line hline =>
    rw [Text.lineChars_line hline]
    exact List.forall_mem_append.mpr ⟨not_mem_lineTokens hline number, List.forall_mem_nil _⟩
  | line line rest hline ih =>
    rw [Text.lineChars_append hline]
    exact List.forall_mem_append.mpr ⟨not_mem_lineTokens hline number, ih (number + 1)⟩

/-- The tokens of a document, highlighted line by line, are those of its text, all but the end, exactly if no
    string in the text holds a line feed. -/
theorem documentTokens_eq_iff (text : String) : documentTokens text = (tokenize text).dropLast ↔
    ∀ token ∈ tokenize text, token.kind = .string → '\n' ∉ token.literal.toList := by
  have htokens : tokenize text =
      (Scanner.ofText text).tokens.1 ++ [(Scanner.ofText text).tokens.2.endToken] := rfl
  rw [htokens, List.dropLast_concat]
  constructor
  · intro h token htoken hkind
    rcases List.mem_append.mp htoken with htoken | htoken
    · rw [← h] at htoken
      exact not_mem_tokensFrom text.toList 1 token htoken
    · rw [List.mem_singleton.mp htoken] at hkind
      cases hkind
  · intro h
    exact tokensFrom_lineChars rfl (List.forall_mem_append.mp h).1

end Highlight

end Monkey
