import Monkey.Proofs.Grammar.Places

/-!
# Layout

Blanks, line breaks and comments between tokens carry no meaning. Tokens that are written down one behind
the other, with some filler between each two of them, are read back as they were (`bareTokens_written`),
and what is parsed depends on the kinds and the literals of the tokens alone (`parse_layout`).
-/

namespace Monkey

open Lexical

/-! ### Writing tokens down -/

/-- A kind and a literal that some token of a program text can have. -/
inductive Writable : TokenKind → String → Prop where
  | word {kind literal} (hword : Word literal.toList) (hkind : Names literal kind) : Writable kind literal
  | number {literal} (hnumber : Number literal.toList) : Writable .int literal
  | sign {kind} (hkind : kind ∈ operators) : Writable kind kind.text
  | string {literal} (hcontent : '"' ∉ literal.toList) : Writable .string literal
  | illegal {c} (hblank : ¬ Blank c) (hcomment : c ≠ '#') (hstart : ¬ StartsToken c) :
      Writable .illegal (String.ofList [c])

/-- Blanks and comments, each comment with the line feed that ends it. -/
inductive Filler : List Char → Prop where
  | nil : Filler []
  | blank {c rest} (hblank : Blank c) (h : Filler rest) : Filler (c :: rest)
  | comment {text rest} (htext : '\n' ∉ text) (h : Filler rest) : Filler ('#' :: text ++ '\n' :: rest)

/-- What stands between two tokens that are written apart. -/
structure Separator (cs : List Char) : Prop where
  filler : Filler cs
  ne_nil : cs ≠ []

/-- The characters of a token: its literal, which for a string stands in quotes. -/
def spelling : TokenKind × String → List Char
  | (.string, content) => '"' :: content.toList ++ ['"']
  | (_, literal) => literal.toList

/-- Tokens written down, with a separator between each two of them. -/
def written (separator : Nat → List Char) : List (TokenKind × String) → List Char
  | [] => []
  | [token] => spelling token
  | token :: next :: rest =>
    spelling token ++ (separator 0 ++ written (fun i => separator (i + 1)) (next :: rest))

/-- What a token is, wherever it stands. -/
def Token.content (token : Token) : TokenKind × String :=
  (token.kind, token.literal)

/-- A token with the given content, and without a place. -/
def Token.ofContent (content : TokenKind × String) : Token :=
  ⟨content.1, content.2, 0, 0⟩

/-! ### Reading them back -/

variable {kind : TokenKind} {literal : String} {cs rest : List Char}

theorem Filler.gap (h : Filler cs) : Gap cs rest := by
  induction h with
  | nil => exact .nil
  | blank hblank _ ih => exact .blank hblank ih
  | comment htext _ ih =>
    have hline : Blank '\n' := .inr (.inr (.inr rfl))
    exact .comment htext (stops_cons.mpr (by simp)) (.blank hline ih)

/-- No token goes on with a separator. -/
theorem Separator.stops (h : Separator cs) {q : Char → Prop} (hq : ∀ c, q c → ¬ Blank c ∧ c ≠ '#') :
    Stops q (cs ++ rest) := by
  cases h.filler with
  | nil => exact absurd rfl h.ne_nil
  | blank hblank _ => exact stops_cons.mpr fun hc => (hq _ hc).1 hblank
  | comment _ _ => exact stops_cons.mpr fun hc => (hq _ hc).2 rfl

theorem spelling_of_ne_string (hkind : kind ≠ .string) : spelling (kind, literal) = literal.toList := by
  cases kind <;> first | rfl | exact absurd rfl hkind

/-- A token is read where it is written down, unless it goes on behind. -/
theorem Writable.lexes (h : Writable kind literal)
    (hrest : ∀ q : Char → Prop, (∀ c, q c → ¬ Blank c ∧ c ≠ '#') → Stops q rest) :
    Lexes kind literal (spelling (kind, literal)) rest := by
  cases h with
  | word hword hkind =>
    have hstops : Stops WordChar rest := hrest _ fun c hc => ⟨hc.not_gap.1, hc.not_gap.2.1⟩
    have hlexes := lexes_word hword hstops (by rwa [String.ofList_toList])
    rwa [String.ofList_toList, ← spelling_of_ne_string hkind.ne_string] at hlexes
  | number hnumber =>
    have hstops : Stops Digit rest := by
      apply hrest
      intro c hc
      have hword : WordChar c := .inr hc
      exact ⟨hword.not_gap.1, hword.not_gap.2.1⟩
    have hlexes := lexes_number hnumber hstops
    rwa [String.ofList_toList] at hlexes
  | sign hkind =>
    have hstring : ∀ kind ∈ operators, kind ≠ .string := by decide
    have hstops : Stops (· = '=') rest := by
      apply hrest
      rintro c rfl
      simp [Blank]
    rw [spelling_of_ne_string (hstring _ hkind)]
    exact lexes_sign hkind fun _ => hstops
  | string hcontent =>
    have hlexes := lexes_string hcontent rest
    rwa [String.ofList_toList] at hlexes
  | @illegal c hblank hcomment hstart =>
    have hlexes := lexes_illegal ⟨hblank, hcomment⟩ hstart rest
    rwa [spelling_of_ne_string (by decide), String.toList_ofList]

/-- Tokens that are written down with separators between them are the tokens of what is written. -/
theorem bareTokens_written {separator : Nat → List Char} (hseparator : ∀ i, Separator (separator i))
    {tokens : List (TokenKind × String)} (htokens : ∀ token ∈ tokens, Writable token.1 token.2) :
    bareTokens (written separator tokens) = tokens.map Token.ofContent := by
  induction tokens generalizing separator with
  | nil => rfl
  | cons token tokens ih =>
    obtain ⟨htoken, hrest⟩ := List.forall_mem_cons.mp htokens
    cases tokens with
    | nil =>
      have hlexes : Lexes token.1 token.2 (spelling token) [] := htoken.lexes fun q _ => stops_nil q
      have hlast := bareTokens_token hlexes
      rwa [List.append_nil, bareTokens_nil] at hlast
    | cons next rest =>
      have hbehind := ih (fun i => hseparator (i + 1)) hrest
      rw [written]
      generalize written (fun i => separator (i + 1)) (next :: rest) = behind at hbehind ⊢
      have hlexes : Lexes token.1 token.2 (spelling token) (separator 0 ++ behind) :=
        htoken.lexes fun q hq => (hseparator 0).stops hq
      rw [bareTokens_token hlexes, bareTokens_gap (hseparator 0).filler.gap, hbehind]
      rfl

/-! ### Texts with the same tokens -/

/-- The tokens of a text with their content only, the end included. -/
theorem map_content_tokenize (source : String) :
    (tokenize source).map Token.content = (bareTokens source.toList).map Token.content ++ [(.eof, "")] := by
  rw [tokenize, Scanner.tokenize, bareTokens, List.map_map, List.map_append]
  rfl

theorem ofContent_content (source : String) :
    ((bareTokens source.toList).map Token.content).map Token.ofContent = bareTokens source.toList := by
  rw [bareTokens, List.map_map, List.map_map]
  rfl

/-- A parser without places is told by the tokens in front of it. -/
theorem Parser.bare_eq (source : String) :
    Parser.bare source = ⟨bareTokens source.toList, 0, 0, []⟩ :=
  rfl

/-- Texts with the same tokens at whatever places are parsed alike. -/
theorem parse_layout {source source' : String} (h : bareTokens source.toList = bareTokens source'.toList) :
    (parse source).errors = (parse source').errors ∧
      bareNodes (parse source).statements = bareNodes (parse source').statements := by
  have hbare : Parser.bare source = Parser.bare source' := by rw [Parser.bare_eq, Parser.bare_eq, h]
  have hprogram := Parser.program_bare source
  rw [hbare, Parser.program_bare source', Prod.mk.injEq] at hprogram
  exact ⟨(congrArg Parser.errors hprogram.2).symm, hprogram.1.symm⟩

/-- Tokens that are written down with separators between them are read back, and texts whose tokens differ
    in their places at most give the same errors, and the same program up to the places in it. -/
theorem layout_carries_no_meaning :
    (∀ (separator : Nat → List Char) (tokens : List (TokenKind × String)),
      (∀ i, Separator (separator i)) → (∀ token ∈ tokens, Writable token.1 token.2) →
      (tokenize (String.ofList (written separator tokens))).map Token.content = tokens ++ [(.eof, "")]) ∧
    ∀ source source' : String, (tokenize source).map Token.content = (tokenize source').map Token.content →
      (parse source).errors = (parse source').errors ∧
        bareNodes (parse source).statements = bareNodes (parse source').statements := by
  constructor
  · intro separator tokens hseparator htokens
    have hcontent : Token.content ∘ Token.ofContent = id := rfl
    rw [map_content_tokenize, String.toList_ofList, bareTokens_written hseparator htokens, List.map_map,
      hcontent, List.map_id]
  · intro source source' h
    rw [map_content_tokenize, map_content_tokenize] at h
    have hcontents := congrArg (List.map Token.ofContent) (List.append_cancel_right h)
    rw [ofContent_content, ofContent_content] at hcontents
    exact parse_layout hcontents

/-- Signs that would be read as one, and texts and comments that hold each other's marks. -/
theorem layout_carries_no_meaning_signs :
    let separator := fun i => if i = 0 then ['\t'] else "# a \" b\n".toList
    let tokens : List (TokenKind × String) :=
      [(.letKw, "let"), (.ident, "lets"), (.assign, "="), (.assign, "="), (.string, "# c"), (.illegal, "@")]
    let source := "let a = \"# c\""
    let source' := "let a=# b\n\"# c\""
    (∀ i, Separator (separator i)) ∧ (∀ token ∈ tokens, Writable token.1 token.2) ∧
      (tokenize (String.ofList (written separator tokens))).map Token.content = tokens ++ [(.eof, "")] ∧
      (tokenize source).map Token.content = (tokenize source').map Token.content ∧
      (parse source).errors = (parse source').errors ∧
      bareNodes (parse source).statements = bareNodes (parse source').statements := by
  intro separator tokens source source'
  have hseparator : ∀ i, Separator (separator i) := by
    intro i
    by_cases hi : i = 0
    · simp only [separator, if_pos hi]
      exact ⟨.blank (by decide) .nil, by decide⟩
    · simp only [separator, if_neg hi]
      have hline : '\n' ∉ " a \" b".toList := by decide
      exact ⟨.comment hline .nil, by decide⟩
  have htokens : ∀ token ∈ tokens, Writable token.1 token.2 := by
    simp only [tokens, List.forall_mem_cons]
    refine ⟨.word (by decide) (.inl (by decide)), .word (by decide) (.inr (by decide)), .sign (by decide),
      .sign (by decide), .string (by decide), .illegal (c := '@') (by decide) (by decide) ?_, by simp⟩
    rintro (hletter | hdigit | hquote | ⟨kind, hkind, hsign⟩)
    · exact absurd hletter (by decide)
    · exact absurd hdigit (by decide)
    · exact absurd hquote (by decide)
    · exact (by decide : ∀ kind ∈ operators, kind.text.toList.head? ≠ some '@') kind hkind hsign
  have hsame : (tokenize source).map Token.content = (tokenize source').map Token.content := by decide +kernel
  obtain ⟨hwritten, hparse⟩ := layout_carries_no_meaning
  exact ⟨hseparator, htokens, hwritten separator tokens hseparator htokens, hsame,
    hparse source source' hsame⟩

end Monkey
