import Monkey.Scanner

/-!
# Lexemes

What a token looks like in a program text, said of the text alone: `Spans` tells which characters a
token of each kind spans, given the text before and behind it.

* A word is a full row of letters and digits that starts with a letter, and a number a full row of
  digits: neither is part of a longer one.
* A string runs to the next quote, or else to the end of the text.
* A sign is an operator or a delimiter, and `=` and `!` are none in front of `=`.
* A character that starts no other token, and no gap, is illegal.

`Lexes` says that the scanner finds a token in front of a text. For every kind of token there is one
lemma that gives it from conditions on the token's own characters and the one behind it.
-/

namespace Monkey.Lexical

/-! ### Classes of characters -/

def Blank (c : Char) : Prop :=
  c = ' ' ∨ c = '\t' ∨ c = '\r' ∨ c = '\n'

def Letter (c : Char) : Prop :=
  c = '_' ∨ ('a' ≤ c ∧ c ≤ 'z') ∨ ('A' ≤ c ∧ c ≤ 'Z')

def Digit (c : Char) : Prop :=
  '0' ≤ c ∧ c ≤ '9'

def WordChar (c : Char) : Prop :=
  Letter c ∨ Digit c

theorem isSpace_iff {c : Char} : isSpace c = true ↔ Blank c := by
  simp [isSpace, Blank, or_assoc]

theorem isLetter_iff {c : Char} : isLetter c = true ↔ Letter c := by
  simp [isLetter, Letter, or_assoc]

theorem isAsciiDigit_iff {c : Char} : Text.isAsciiDigit c = true ↔ Digit c := by
  simp [Text.isAsciiDigit, Digit]

theorem isWordChar_iff {c : Char} : isWordChar c = true ↔ WordChar c := by
  simp [isWordChar, WordChar, isLetter_iff, isAsciiDigit_iff]

instance (c : Char) : Decidable (Blank c) :=
  decidable_of_iff _ isSpace_iff

instance (c : Char) : Decidable (Letter c) :=
  decidable_of_iff _ isLetter_iff

instance (c : Char) : Decidable (Digit c) :=
  decidable_of_iff _ isAsciiDigit_iff

instance (c : Char) : Decidable (WordChar c) :=
  decidable_of_iff _ isWordChar_iff

theorem Letter.not_digit {c : Char} (h : Letter c) : ¬ Digit c := by
  simp only [Letter, Digit, Char.le_def, UInt32.le_iff_toNat_le, Char.ext_iff, ← UInt32.toNat_inj]
    at h ⊢
  simp at h ⊢
  omega

/-- A text that does not start with a character of a class. -/
def Stops (p : Char → Prop) (rest : List Char) : Prop :=
  ∀ c ∈ rest.head?, ¬ p c

theorem stops_nil (p : Char → Prop) : Stops p [] := by
  simp [Stops]

theorem stops_cons {p : Char → Prop} {c : Char} {rest : List Char} :
    Stops p (c :: rest) ↔ ¬ p c := by
  simp [Stops]

theorem Stops.mono {p q : Char → Prop} {rest : List Char} (h : Stops p rest)
    (hpq : ∀ c, q c → p c) : Stops q rest :=
  fun c hc hq => h c hc (hpq c hq)

/-- A stretch of a class ends where the text behind it stops. -/
theorem takeWhile_append_of_stops {p : Char → Bool} {q : Char → Prop} (hpq : ∀ c, p c = true ↔ q c)
    {cs rest : List Char} (hcs : ∀ c ∈ cs, q c) (hrest : Stops q rest) :
    (cs ++ rest).takeWhile p = cs := by
  rw [List.takeWhile_append_of_pos fun c hc => (hpq c).mpr (hcs c hc)]
  cases rest with
  | nil => simp
  | cons c rest =>
    have hc : ¬ p c = true := fun h => stops_cons.mp hrest ((hpq c).mp h)
    simp [hc]

/-! ### The text of a token -/

/-- A text that spells a word. -/
def Word (cs : List Char) : Prop :=
  ∃ c rest, cs = c :: rest ∧ Letter c ∧ ∀ d ∈ rest, WordChar d

theorem word_cons {c : Char} {rest : List Char} :
    Word (c :: rest) ↔ Letter c ∧ ∀ d ∈ rest, WordChar d := by
  constructor
  · rintro ⟨_, _, heq, hletter, hrest⟩
    cases heq
    exact ⟨hletter, hrest⟩
  · exact fun h => ⟨c, rest, rfl, h⟩

instance : DecidablePred Word
  | [] => .isFalse (by simp [Word])
  | c :: rest => decidable_of_iff (isLetter c = true ∧ rest.all isWordChar = true)
    (by simp only [word_cons, isLetter_iff, List.all_eq_true, isWordChar_iff])

/-- A text that spells a number. -/
def Number (cs : List Char) : Prop :=
  cs ≠ [] ∧ ∀ c ∈ cs, Digit c

/-- A stretch of a text that is of a class, and that is part of no longer one. -/
structure Full (p : List Char → Prop) (before span rest : List Char) : Prop where
  holds : p span
  longest : ∀ front behind, front <:+ before → behind <+: rest → p (front ++ span ++ behind) →
    front = [] ∧ behind = []

/-- What a word stands for: the keyword that the table has for it, or else a name. -/
def Names (word : String) (kind : TokenKind) : Prop :=
  (word, kind) ∈ keywords ∨ (kind = .ident ∧ ∀ entry ∈ keywords, entry.1 ≠ word)

def StartsSign (c : Char) : Prop :=
  ∃ kind ∈ operators, kind.text.toList.head? = some c

/-- A character that a token other than an illegal one can start with. -/
def StartsToken (c : Char) : Prop :=
  Letter c ∨ Digit c ∨ c = '"' ∨ StartsSign c

/-- A token of a kind and with a literal spans the characters `span` between two texts. -/
inductive Spans (before : List Char) : TokenKind → String → List Char → List Char → Prop where
  | word {kind span rest} (hfull : Full Word before span rest)
      (hkind : Names (String.ofList span) kind) : Spans before kind (String.ofList span) span rest
  | number {span rest} (hfull : Full Number before span rest) :
      Spans before .int (String.ofList span) span rest
  | string {content rest} (hcontent : '"' ∉ content) :
      Spans before .string (String.ofList content) ('"' :: content ++ ['"']) rest
  | openString {content} (hcontent : '"' ∉ content) :
      Spans before .string (String.ofList content) ('"' :: content) []
  | sign {kind rest} (hkind : kind ∈ operators)
      (hend : kind = .assign ∨ kind = .bang → Stops (· = '=') rest) :
      Spans before kind kind.text kind.text.toList rest
  | illegal {c rest} (hblank : ¬ Blank c) (hcomment : c ≠ '#') (hstart : ¬ StartsToken c) :
      Spans before .illegal (String.ofList [c]) [c] rest

/-! ### Words and signs -/

theorem names_iff {word : String} {kind : TokenKind} : Names word kind ↔ kind = wordKind word := by
  have hunique : ∀ entry ∈ keywords, ∀ entry' ∈ keywords, entry.1 = entry'.1 → entry = entry' := by
    decide
  cases hlookup : keywords.lookup word with
  | none =>
    have hnone : ∀ entry ∈ keywords, entry.1 ≠ word := by
      intro entry hentry heq
      have := List.lookup_eq_none_iff.mp hlookup entry hentry
      simp [heq] at this
    simp only [Names, wordKind, hlookup, Option.getD_none]
    constructor
    · rintro (hmem | ⟨hkind, -⟩)
      · exact absurd rfl (hnone _ hmem)
      · exact hkind
    · exact fun hkind => .inr ⟨hkind, hnone⟩
  | some found =>
    obtain ⟨before, behind, hsplit, -⟩ := List.lookup_eq_some_iff.mp hlookup
    have hmem : (word, found) ∈ keywords := by simp [hsplit]
    simp only [Names, wordKind, hlookup, Option.getD_some]
    constructor
    · rintro (hkind | ⟨-, hnone⟩)
      · exact congrArg Prod.snd (hunique _ hkind _ hmem rfl)
      · exact absurd rfl (hnone _ hmem)
    · rintro rfl
      exact .inl hmem

theorem Names.ne_string {word : String} {kind : TokenKind} (h : Names word kind) : kind ≠ .string := by
  have hwords : ∀ entry ∈ keywords, entry.2 ≠ .string := by decide
  rcases h with hmem | ⟨rfl, -⟩
  · exact hwords _ hmem
  · decide

/-- The characters of a sign belong to no word, no string and no gap. -/
theorem sign_spec {kind : TokenKind} (h : kind ∈ operators) {c : Char}
    (hc : c ∈ kind.text.toList) : ¬ WordChar c ∧ c ≠ '"' ∧ ¬ Blank c ∧ c ≠ '#' := by
  have hall : (operators.all fun kind => kind.text.toList.all fun c =>
      !isWordChar c && c != '"' && !isSpace c && c != '#') = true := by decide
  simp only [List.all_eq_true, Bool.and_eq_true, Bool.not_eq_true', bne_iff_ne] at hall
  obtain ⟨⟨⟨hword, hquote⟩, hspace⟩, hcomment⟩ := hall kind h c hc
  refine ⟨fun h => ?_, hquote, fun h => ?_, hcomment⟩
  · simp [isWordChar_iff.mpr h] at hword
  · simp [isSpace_iff.mpr h] at hspace

theorem sign_ne_nil {kind : TokenKind} (h : kind ∈ operators) :
    ∃ c cs, kind.text.toList = c :: cs := by
  have hall : ∀ kind ∈ operators, kind.text.toList ≠ [] := by decide
  exact List.exists_cons_of_ne_nil (hall kind h)

/-- A sign is found where it stands, unless it is the start of a longer one. -/
theorem operatorAt?_sign {kind : TokenKind} {rest : List Char} (hkind : kind ∈ operators)
    (hend : kind = .assign ∨ kind = .bang → Stops (· = '=') rest) :
    operatorAt? (kind.text.toList ++ rest) = some kind := by
  have hlonger : ∀ c ∈ rest.head?, (kind = .assign ∨ kind = .bang) → ¬ c = '=' :=
    fun c hc hlong => hend hlong c hc
  simp only [operators, List.mem_cons, List.not_mem_nil, or_false] at hkind
  rcases hkind with rfl | rfl | rfl | rfl | rfl | rfl | rfl | rfl | rfl | rfl | rfl | rfl | rfl | rfl |
    rfl | rfl | rfl | rfl | rfl
  all_goals cases rest <;>
    simp_all [operatorAt?, operators, TokenKind.text, List.isPrefixOf, eq_comm (a := '=')]

theorem operatorAt?_eq_some {cs : List Char} {kind : TokenKind} (h : operatorAt? cs = some kind) :
    kind ∈ operators ∧ ∃ rest, cs = kind.text.toList ++ rest ∧
      (kind = .assign ∨ kind = .bang → Stops (· = '=') rest) := by
  have hmem := List.mem_of_find?_eq_some h
  have hprefix : kind.text.toList.isPrefixOf cs = true :=
    List.find?_some (p := fun kind : TokenKind => kind.text.toList.isPrefixOf cs) h
  obtain ⟨rest, rfl⟩ := List.isPrefixOf_iff_prefix.mp hprefix
  refine ⟨hmem, rest, rfl, fun hlong c hc heq => ?_⟩
  -- in front of `=` a longer sign would have been found
  obtain ⟨behind, rfl⟩ : ∃ behind, rest = '=' :: behind := by
    cases rest with
    | nil => simp at hc
    | cons d behind => exact ⟨behind, by simp_all⟩
  rcases hlong with rfl | rfl
  · have hlonger : operatorAt? (TokenKind.eq.text.toList ++ behind) = some .eq :=
      operatorAt?_sign (by decide) (by simp)
    cases hlonger.symm.trans h
  · have hlonger : operatorAt? (TokenKind.notEq.text.toList ++ behind) = some .notEq :=
      operatorAt?_sign (by decide) (by simp)
    cases hlonger.symm.trans h

theorem operatorAt?_eq_none {c : Char} (h : ¬ StartsSign c) (rest : List Char) :
    operatorAt? (c :: rest) = none := by
  rw [operatorAt?, List.find?_eq_none]
  intro kind hkind hprefix
  obtain ⟨d, ds, hd⟩ := sign_ne_nil hkind
  rw [hd, List.isPrefixOf_iff_prefix, List.cons_prefix_cons] at hprefix
  exact h ⟨kind, hkind, by rw [hd, hprefix.1, List.head?_cons]⟩

/-- Every character that starts a sign is one. -/
theorem operatorAt?_ne_none {c : Char} (h : StartsSign c) (rest : List Char) :
    operatorAt? (c :: rest) ≠ none := by
  have hall : (operators.all fun kind => kind.text.toList.head?.all fun c =>
      operators.any fun kind' => kind'.text.toList == [c]) = true := by decide
  simp only [List.all_eq_true, Option.all_eq_true, List.any_eq_true, beq_iff_eq] at hall
  obtain ⟨kind, hkind, hc⟩ := h
  obtain ⟨kind', hkind', hspan⟩ := hall kind hkind c hc
  intro hnone
  have := List.find?_eq_none.mp hnone kind' hkind'
  simp [hspan] at this

/-! ### What the scanner finds -/

/-- In front of `rest`, the characters `span` are scanned as a token, all of them and no others. -/
def Lexes (kind : TokenKind) (literal : String) (span rest : List Char) : Prop :=
  ∃ c cs width, span = c :: cs ∧ (¬ Blank c ∧ c ≠ '#') ∧
    lexeme c (cs ++ rest) = ⟨kind, literal, width⟩ ∧
    (span ++ rest).take width = span ∧ (span ++ rest).drop width = rest

theorem Lexes.plain {c : Char} {cs rest : List Char} {kind : TokenKind}
    (hgap : ¬ Blank c ∧ c ≠ '#') (h : lexeme c (cs ++ rest) = .plain kind (c :: cs)) :
    Lexes kind (String.ofList (c :: cs)) (c :: cs) rest :=
  ⟨c, cs, _, rfl, hgap, h, by simp, by simp⟩

theorem WordChar.not_gap {c : Char} (h : WordChar c) : ¬ Blank c ∧ c ≠ '#' ∧ c ≠ '"' := by
  refine ⟨?_, ?_, ?_⟩
  · rintro (rfl | rfl | rfl | rfl) <;> exact absurd (isWordChar_iff.mpr h) (by decide)
  · rintro rfl
    exact absurd (isWordChar_iff.mpr h) (by decide)
  · rintro rfl
    exact absurd (isWordChar_iff.mpr h) (by decide)

theorem lexes_word {span rest : List Char} {kind : TokenKind} (hspan : Word span)
    (hrest : Stops WordChar rest) (hkind : Names (String.ofList span) kind) :
    Lexes kind (String.ofList span) span rest := by
  obtain ⟨c, cs, rfl, hletter, hcs⟩ := hspan
  obtain ⟨hblank, hcomment, hquote⟩ := WordChar.not_gap (.inl hletter)
  have hdigit : ¬ Text.isAsciiDigit c = true := fun h => hletter.not_digit (isAsciiDigit_iff.mp h)
  have hword : (cs ++ rest).takeWhile isWordChar = cs :=
    takeWhile_append_of_stops (fun _ => isWordChar_iff) hcs hrest
  refine .plain ⟨hblank, hcomment⟩ ?_
  rw [lexeme, if_neg hquote, if_neg hdigit, if_pos (isLetter_iff.mpr hletter), hword,
    names_iff.mp hkind]

theorem lexes_number {span rest : List Char} (hspan : Number span) (hrest : Stops Digit rest) :
    Lexes .int (String.ofList span) span rest := by
  obtain ⟨hne, hdigits⟩ := hspan
  obtain ⟨c, cs, rfl⟩ := List.exists_cons_of_ne_nil hne
  obtain ⟨hdigit, hcs⟩ := List.forall_mem_cons.mp hdigits
  obtain ⟨hblank, hcomment, hquote⟩ := WordChar.not_gap (.inr hdigit)
  have hnumber : (cs ++ rest).takeWhile Text.isAsciiDigit = cs :=
    takeWhile_append_of_stops (fun _ => isAsciiDigit_iff) hcs hrest
  refine .plain ⟨hblank, hcomment⟩ ?_
  rw [lexeme, if_neg hquote, if_pos (isAsciiDigit_iff.mpr hdigit), hnumber]

theorem takeWhile_content {content : List Char} (h : '"' ∉ content) (rest : List Char) :
    (content ++ rest).takeWhile (· ≠ '"') = content ++ rest.takeWhile (· ≠ '"') := by
  refine List.takeWhile_append_of_pos fun c hc => ?_
  simp only [ne_eq, decide_eq_true_eq]
  rintro rfl
  exact h hc

theorem not_gap_quote : ¬ Blank '"' ∧ '"' ≠ '#' := by
  simp [Blank]

theorem lexeme_quote (rest : List Char) :
    lexeme '"' rest = ⟨.string, String.ofList (rest.takeWhile (· ≠ '"')),
      (rest.takeWhile (· ≠ '"')).length + 2⟩ :=
  if_pos rfl

theorem lexes_string {content : List Char} (h : '"' ∉ content) (rest : List Char) :
    Lexes .string (String.ofList content) ('"' :: content ++ ['"']) rest := by
  have hcontent : (content ++ ['"'] ++ rest).takeWhile (· ≠ '"') = content := by
    rw [List.append_assoc, takeWhile_content h]
    exact List.append_nil content
  have hwidth : content.length + 2 = ('"' :: content ++ ['"']).length := by simp
  refine ⟨'"', content ++ ['"'], content.length + 2, rfl, not_gap_quote, ?_, ?_, ?_⟩
  · rw [lexeme_quote, hcontent]
  · rw [hwidth, List.take_left]
  · rw [hwidth, List.drop_left]

theorem lexes_openString {content : List Char} (h : '"' ∉ content) :
    Lexes .string (String.ofList content) ('"' :: content) [] := by
  have hcontent : (content ++ []).takeWhile (· ≠ '"') = content := by
    rw [takeWhile_content h]
    exact List.append_nil content
  refine ⟨'"', content, content.length + 2, rfl, not_gap_quote, ?_, ?_, ?_⟩
  · rw [lexeme_quote, hcontent]
  · rw [List.append_nil]
    exact List.take_of_length_le (by simp)
  · rw [List.append_nil]
    exact List.drop_eq_nil_of_le (by simp)

theorem lexes_sign {kind : TokenKind} {rest : List Char} (hkind : kind ∈ operators)
    (hend : kind = .assign ∨ kind = .bang → Stops (· = '=') rest) :
    Lexes kind kind.text kind.text.toList rest := by
  obtain ⟨c, cs, hspan⟩ := sign_ne_nil hkind
  obtain ⟨hword, hquote, hblank, hcomment⟩ := sign_spec hkind (hspan ▸ List.mem_cons_self)
  have hsign := operatorAt?_sign hkind hend
  have hdigit : ¬ Text.isAsciiDigit c = true := fun h => hword (.inr (isAsciiDigit_iff.mp h))
  have hletter : ¬ isLetter c = true := fun h => hword (.inl (isLetter_iff.mp h))
  have hlexes : Lexes kind (String.ofList (c :: cs)) (c :: cs) rest := by
    refine .plain ⟨hblank, hcomment⟩ ?_
    rw [hspan, List.cons_append] at hsign
    rw [lexeme, if_neg hquote, if_neg hdigit, if_neg hletter, hsign, ← hspan]
  rwa [← hspan, String.ofList_toList] at hlexes

theorem lexes_illegal {c : Char} (hgap : ¬ Blank c ∧ c ≠ '#') (hstart : ¬ StartsToken c)
    (rest : List Char) : Lexes .illegal (String.ofList [c]) [c] rest := by
  simp only [StartsToken, not_or] at hstart
  obtain ⟨hletter, hdigit, hquote, hsign⟩ := hstart
  refine .plain hgap ?_
  rw [List.nil_append, lexeme, if_neg hquote, if_neg (hdigit ∘ isAsciiDigit_iff.mp),
    if_neg (hletter ∘ isLetter_iff.mp), operatorAt?_eq_none hsign]

/-! ### The rule and the scanner agree -/

/-- Behind a full row of a class comes no character that would make it longer. -/
theorem Full.stops {p : List Char → Prop} {q : Char → Prop} {before span rest : List Char}
    (h : Full p before span rest) (hextend : ∀ c, q c → p (span ++ [c])) : Stops q rest := by
  cases rest with
  | nil => exact stops_nil q
  | cons c rest =>
    refine stops_cons.mpr fun hc => ?_
    have hlonger : p ([] ++ span ++ [c]) := hextend c hc
    have hnone := (h.longest [] [c] List.nil_suffix ⟨rest, rfl⟩ hlonger).2
    cases hnone

theorem Word.append {cs : List Char} (h : Word cs) {c : Char} (hc : WordChar c) : Word (cs ++ [c]) := by
  obtain ⟨d, ds, rfl, hletter, hds⟩ := h
  refine ⟨d, ds ++ [c], rfl, hletter, fun e he => ?_⟩
  rcases List.mem_append.mp he with he | he
  · exact hds e he
  · exact List.mem_singleton.mp he ▸ hc

theorem Number.append {cs : List Char} (h : Number cs) {c : Char} (hc : Digit c) :
    Number (cs ++ [c]) := by
  refine ⟨by simp, fun e he => ?_⟩
  rcases List.mem_append.mp he with he | he
  · exact h.2 e he
  · exact List.mem_singleton.mp he ▸ hc

/-- What the rule allows is what the scanner finds. -/
theorem Spans.lexes {before span rest : List Char} {kind : TokenKind} {literal : String}
    (h : Spans before kind literal span rest) : Lexes kind literal span rest := by
  cases h with
  | word hfull hkind => exact lexes_word hfull.holds (hfull.stops fun _ => hfull.holds.append) hkind
  | number hfull => exact lexes_number hfull.holds (hfull.stops fun _ => hfull.holds.append)
  | string hcontent => exact lexes_string hcontent rest
  | openString hcontent => exact lexes_openString hcontent
  | sign hkind hend => exact lexes_sign hkind hend
  | illegal hblank hcomment hstart => exact lexes_illegal ⟨hblank, hcomment⟩ hstart rest

end Monkey.Lexical
