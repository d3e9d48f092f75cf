import Monkey.Console.Turn
import Monkey.Proofs.Grammar.Rendering
import Monkey.Proofs.Layout
import Monkey.Proofs.Session

/-!
# Programs at the prompt

A console removes characters that cannot be seen from a text before it takes the text. From a program it can
remove them only where they are carriage returns, or in comments and strings, since anywhere else they are
illegal. A program keeps its tokens exactly if its strings hold none of them and no carriage return is all that
keeps two tokens apart (`Tidy`, `tidy_iff`). Then it is not taken for a command either, and what comes of it is
what comes of running it (`runsAs_of_tidy`).
-/

namespace Monkey

open Grammar Lexical
open Console (isInvisible)

/-! ### Programs have no illegal tokens -/

def Legal (tokens : List Token) : Prop :=
  ∀ token ∈ tokens, token.kind ≠ .illegal

theorem Legal.cons {tokens : List Token} {token : Token} {kind : TokenKind} (h : Legal tokens)
    (hkind : token.kind = kind) (hlegal : kind ≠ .illegal := by decide) : Legal (token :: tokens) :=
  List.forall_mem_cons.mpr ⟨hkind ▸ hlegal, h⟩

theorem legal_nil : Legal [] :=
  List.forall_mem_nil _

namespace Grammar

theorem legal_binary {tier : Nat} {kind : TokenKind} (h : kind ∈ operatorsOf tier) : kind ≠ .illegal := by
  rintro rfl
  have hrank := (operatorsOf_spec h).2.1
  simp [TokenKind.precedence, Precedence.rank] at hrank

/-- A list of expressions that is closed by a legal token. -/
def Phrase.Regular : Phrase → Prop
  | .list last _ => last ≠ .illegal
  | _ => True

theorem EndsStatement.legal {tokens rest : List Token} (h : EndsStatement tokens rest) (hrest : Legal rest) :
    Legal tokens := by
  rcases h with ⟨token, hkind, rfl⟩ | ⟨rfl, -⟩
  · exact hrest.cons hkind
  · exact hrest

/-- No rule of the grammar has a place for an illegal token. -/
theorem Derives.legal {phrase : Phrase} {tokens rest : List Token} (h : Derives phrase tokens rest)
    (hphrase : phrase.Regular) (hrest : Legal rest) : Legal tokens := by
  induction h with
  | climb _ _ ih | ofAtom _ ih | lastItem _ ih => exact ih trivial hrest
  | binary hoperator _ _ ihleft ihright =>
    exact ihleft trivial ((ihright trivial hrest).cons rfl (legal_binary hoperator))
  | prefixed hoperator _ ih =>
    rcases hoperator with hkind | hkind
    · exact (ih trivial hrest).cons hkind
    · exact (ih trivial hrest).cons hkind
  | call hbracket _ _ ihcallee iharguments =>
    exact ihcallee trivial ((iharguments (by simp [Phrase.Regular]) hrest).cons hbracket)
  | index hbracket _ _ hclose ihleft ihsubscript =>
    exact ihleft trivial ((ihsubscript trivial (hrest.cons hclose)).cons hbracket)
  | identifier htoken | integer htoken | string htoken => exact hrest.cons htoken
  | @boolean token value rest htoken =>
    cases value
    · exact hrest.cons htoken
    · exact hrest.cons htoken
  | group hbracket _ hclose ih | hash hbracket _ hclose ih =>
    exact (ih trivial (hrest.cons hclose)).cons hbracket
  | array hbracket _ ih => exact (ih (by simp [Phrase.Regular]) hrest).cons hbracket
  | emptyHash hbrace hclose => exact (hrest.cons hclose).cons hbrace
  | conditional hkeyword hbracket _ hclose _ ihcondition ihblock =>
    exact ((ihcondition trivial ((ihblock trivial hrest).cons hclose)).cons hbracket).cons hkeyword
  | conditionalElse hkeyword hbracket _ hclose _ hother _ ihcondition ihblock ihother =>
    have hmiddle := ihblock trivial ((ihother trivial hrest).cons hother)
    exact ((ihcondition trivial (hmiddle.cons hclose)).cons hbracket).cons hkeyword
  | function hkeyword hbracket _ _ ihnames ihbody =>
    exact ((ihnames trivial (ihbody trivial hrest)).cons hbracket).cons hkeyword
  | emptyList hclose => exact hrest.cons hclose hphrase
  | ofItems _ hclose ih => exact ih trivial (hrest.cons hclose hphrase)
  | item _ hcomma _ ihnode ihnodes => exact ihnode trivial ((ihnodes trivial hrest).cons hcomma)
  | noParameters hclose => exact hrest.cons hclose
  | ofNames _ hclose ih => exact ih trivial (hrest.cons hclose)
  | lastName htoken => exact hrest.cons htoken
  | name htoken hcomma _ ih => exact ((ih trivial hrest).cons hcomma).cons htoken
  | lastPair _ hcolon _ ihkey ihvalue => exact ihkey trivial ((ihvalue trivial hrest).cons hcolon)
  | pair _ hcolon _ hcomma _ ihkey ihvalue ihpairs =>
    exact ihkey trivial ((ihvalue trivial ((ihpairs trivial hrest).cons hcomma)).cons hcolon)
  | letStatement hkeyword htarget hsign _ hend ih =>
    exact (((ih trivial (hend.legal hrest)).cons hsign).cons htarget).cons hkeyword
  | returnStatement hkeyword _ hend ih => exact (ih trivial (hend.legal hrest)).cons hkeyword
  | expressionStatement _ hend ih => exact ih trivial (hend.legal hrest)
  | noStatements => exact hrest
  | statements _ _ ihnode ihnodes => exact ihnode trivial (ihnodes trivial hrest)
  | block hbrace _ hclose ih => exact (ih trivial (hrest.cons hclose)).cons hbrace
  | openBlock hbrace _ ih => exact (ih trivial hrest).cons hbrace

end Grammar

theorem legal_of_errors {source : String} (h : (parse source).errors = []) :
    Legal (bareTokens source.toList) :=
  ((program_bareTokens_iff source _).mpr ⟨h, rfl⟩).legal trivial legal_nil

/-! ### Stray characters -/

/-- A printable ASCII character other than the space. -/
def Printable (c : Char) : Prop :=
  0x21 ≤ c.toNat ∧ c.toNat ≤ 0x7e

theorem Lexical.StartsToken.printable {c : Char} (h : StartsToken c) : Printable c := by
  have hsigns : ∀ kind ∈ operators,
      kind.text.toList.head?.all (fun c => 0x21 ≤ c.toNat && c.toNat ≤ 0x7e) = true := by decide
  rcases h with hletter | hdigit | rfl | ⟨kind, hkind, hsign⟩
  · simp only [Letter, Char.le_def, UInt32.le_iff_toNat_le, Char.ext_iff, ← UInt32.toNat_inj] at hletter
    simp at hletter
    simp only [Printable]
    omega
  · have hrange := Text.toNat_of_isAsciiDigit (isAsciiDigit_iff.mpr hdigit)
    exact ⟨by omega, by omega⟩
  · exact ⟨by decide, by decide⟩
  · simpa [hsign, Printable] using hsigns kind hkind

/-- A character that neither a token nor a gap can start with. -/
def Stray (c : Char) : Prop :=
  (¬ Blank c ∧ c ≠ '#') ∧ ¬ StartsToken c

theorem stray_of_not_printable {c : Char} (hblank : ¬ Blank c) (h : ¬ Printable c) : Stray c := by
  refine ⟨⟨hblank, ?_⟩, fun hstart => h hstart.printable⟩
  rintro rfl
  exact h ⟨by decide, by decide⟩

/-- A stray character is an illegal token. -/
theorem Stray.not_legal {c : Char} (h : Stray c) (rest : List Char) : ¬ Legal (bareTokens (c :: rest)) := by
  have htoken : bareTokens (c :: rest) = ⟨.illegal, String.ofList [c], 0, 0⟩ :: bareTokens rest :=
    bareTokens_token (lexes_illegal h.1 h.2 rest)
  intro hlegal
  exact hlegal _ (htoken ▸ List.mem_cons_self) rfl

theorem not_printable_of_isBlank {c : Char} (h : Text.isBlank c = true) : ¬ Printable c := by
  simp [Text.isBlank] at h
  simp only [Printable]
  omega

theorem not_printable_of_isInvisible {c : Char} (h : isInvisible c = true) : ¬ Printable c := by
  simp only [isInvisible, Bool.or_eq_true, decide_eq_true_eq] at h
  rcases h with ((((rfl | rfl) | rfl) | rfl) | rfl) | rfl <;> simp [Printable]

/-! ### Texts without invisible characters -/

/-- A text without its invisible characters. -/
def visible (cs : List Char) : List Char :=
  cs.filter fun c => !isInvisible c

@[simp] theorem visible_nil : visible [] = [] := rfl

@[simp] theorem visible_append (cs ds : List Char) : visible (cs ++ ds) = visible cs ++ visible ds :=
  List.filter_append cs ds

theorem visible_cons {c : Char} (h : isInvisible c = false) (cs : List Char) :
    visible (c :: cs) = c :: visible cs :=
  List.filter_cons_of_pos (by simp [h])

theorem visible_cons_of_isInvisible {c : Char} (h : isInvisible c = true) (cs : List Char) :
    visible (c :: cs) = visible cs :=
  List.filter_cons_of_neg (by simp [h])

theorem visible_eq_self {cs : List Char} : visible cs = cs ↔ ∀ c ∈ cs, isInvisible c = false := by
  simp [visible, List.filter_eq_self]

theorem isInvisible_of_printable {c : Char} (h : Printable c) : isInvisible c = false :=
  Bool.eq_false_iff.mpr fun hinvisible => not_printable_of_isInvisible hinvisible h

namespace Lexical

variable {gap span rest : List Char} {kind : TokenKind} {literal : String}

theorem stops_visible (h : Stops (· ≠ '\n') rest) : Stops (· ≠ '\n') (visible rest) := by
  cases rest with
  | nil => exact stops_nil _
  | cons c rest =>
    have hc : c = '\n' := Decidable.not_not.mp (stops_cons.mp h)
    rw [hc, visible_cons (by decide)]
    exact stops_cons.mpr (by simp)

/-- Blanks and comments stay blanks and comments. -/
theorem gap_visible (h : Gap gap rest) : Gap (visible gap) (visible rest) := by
  induction h with
  | nil => exact .nil
  | @blank c gap rest hblank _ ih =>
    cases hc : isInvisible c with
    | true => exact (visible_cons_of_isInvisible hc gap).symm ▸ ih
    | false => exact (visible_cons hc gap).symm ▸ .blank hblank ih
  | @comment text gap rest htext hend _ ih =>
    have hline : '\n' ∉ visible text := fun hmem => htext (List.mem_filter.mp hmem).1
    have hstops := stops_visible hend
    rw [visible_append] at hstops
    rw [List.cons_append, visible_cons (by decide), visible_append]
    exact .comment hline hstops ih

/-- No token but a string holds an invisible character, and no illegal one. -/
theorem span_visible (h : Spans [] kind literal span rest) (hlegal : kind ≠ .illegal)
    (hstring : kind = .string → ∀ c ∈ span, isInvisible c = false) : visible span = span := by
  have hword {c : Char} (h : WordChar c) : isInvisible c = false := by
    refine isInvisible_of_printable (StartsToken.printable ?_)
    exact h.imp_right .inl
  have hsigns : ∀ kind ∈ operators, visible kind.text.toList = kind.text.toList := by decide
  cases h with
  | word hfull => exact visible_eq_self.mpr fun c hc => hword (hfull.holds.wordChar c hc)
  | number hfull => exact visible_eq_self.mpr fun c hc => hword (hfull.holds.wordChar c hc)
  | string | openString => exact visible_eq_self.mpr (hstring rfl)
  | sign hkind => exact hsigns kind hkind
  | illegal => exact absurd rfl hlegal

end Lexical

/-! ### Tidy texts -/

/-- A text whose strings hold no invisible characters, and in which every token is the same token in front of what
    can be seen of the text behind it. -/
inductive Tidy : List Char → Prop where
  | gap {gap} (hgap : Gap gap []) : Tidy gap
  | token {gap span rest kind literal} (hgap : Gap gap (span ++ rest))
      (hspan : Spans [] kind literal span rest)
      (hstring : kind = .string → ∀ c ∈ span, isInvisible c = false)
      (hends : Spans [] kind literal span (visible rest)) (hrest : Tidy rest) :
      Tidy (gap ++ (span ++ rest))

variable {text : List Char}

/-- A tidy text keeps its tokens without its invisible characters. -/
theorem Tidy.bareTokens_visible (h : Tidy text) (hlegal : Legal (bareTokens text)) :
    bareTokens (visible text) = bareTokens text := by
  induction h with
  | @gap gap hgap =>
    have hnone {gap : List Char} (hgap : Gap gap []) : bareTokens gap = [] := by
      rw [← List.append_nil gap, bareTokens_gap hgap, bareTokens_nil]
    rw [hnone hgap, hnone (gap_visible hgap)]
  | @token gap span rest kind literal hgap hspan hstring hends _ ih =>
    rw [bareTokens_gap_token hgap hspan] at hlegal ⊢
    obtain ⟨hkind, hlegal⟩ := List.forall_mem_cons.mp hlegal
    have hgap' := gap_visible hgap
    rw [visible_append, span_visible hspan hkind hstring] at hgap'
    rw [visible_append, visible_append, span_visible hspan hkind hstring, bareTokens_gap_token hgap' hends,
      ih hlegal]

/-- A token that is no string is found where the text starts with it and is scanned as it. -/
theorem Lexical.Spans.of_bareTokens {kind : TokenKind} {literal : String} {span rest rest' : List Char}
    {tokens : List Token} (h : Spans [] kind literal span rest) (hstring : kind ≠ .string)
    (hscan : bareTokens (span ++ rest') = ⟨kind, literal, 0, 0⟩ :: tokens) :
    Spans [] kind literal span rest' ∧ bareTokens rest' = tokens := by
  have hspelled {kind : TokenKind} {literal : String} {span rest : List Char}
      (h : Spans [] kind literal span rest) (hstring : kind ≠ .string) : span = literal.toList := by
    cases h with
    | word | number | illegal => exact String.toList_ofList.symm
    | sign => rfl
    | string | openString => exact absurd rfl hstring
  obtain ⟨c, cs, -, rfl, hstart, -⟩ := h.lexes
  obtain ⟨span', rest'', kind', literal', hcut, -, hspans, -⟩ :=
    exists_spans (not_or.mpr hstart) (cs ++ rest') fresh_nil
  rw [List.cons_append, hcut, bareTokens_token hspans.lexes] at hscan
  obtain ⟨htoken, htokens⟩ := List.cons.inj hscan
  cases htoken
  have hspan : c :: cs = span' := (hspelled h hstring).trans (hspelled hspans hstring).symm
  subst hspan
  rw [← List.cons_append] at hcut
  cases List.append_cancel_left hcut
  exact ⟨hspans, htokens⟩

/-- A string that is still the same string without its invisible characters holds none. -/
theorem Lexical.Spans.of_bareTokens_visible {kind : TokenKind} {literal : String} {span rest : List Char}
    {tokens : List Token} (h : Spans [] kind literal span rest) (hstring : kind = .string)
    (hscan : bareTokens (visible span ++ visible rest) = ⟨kind, literal, 0, 0⟩ :: tokens) :
    (∀ c ∈ span, isInvisible c = false) ∧ Spans [] kind literal span (visible rest) ∧
      bareTokens (visible rest) = tokens := by
  have hcut {content : List Char} (hcontent : '"' ∉ content) : '"' ∉ visible content :=
    fun hmem => hcontent (List.mem_filter.mp hmem).1
  cases h with
  | @string content rest hcontent =>
    have hspan : visible ('"' :: content ++ ['"']) = '"' :: visible content ++ ['"'] := by
      rw [visible_append, visible_cons (by decide)]
      rfl
    rw [hspan, bareTokens_token (lexes_string (hcut hcontent) (visible rest))] at hscan
    obtain ⟨htoken, htokens⟩ := List.cons.inj hscan
    rw [String.ofList_injective (congrArg Token.literal htoken)] at hspan
    exact ⟨visible_eq_self.mp hspan, .string hcontent, htokens⟩
  | @openString content hcontent =>
    have hspan : visible ('"' :: content) = '"' :: visible content := visible_cons (by decide) content
    rw [hspan, visible_nil, bareTokens_token (lexes_openString (hcut hcontent))] at hscan
    obtain ⟨htoken, htokens⟩ := List.cons.inj hscan
    rw [String.ofList_injective (congrArg Token.literal htoken)] at hspan
    exact ⟨visible_eq_self.mp hspan, .openString hcontent, htokens⟩
  | word _ hnames => exact absurd hstring hnames.ne_string
  | sign hsign => exact absurd (hstring ▸ hsign) (by decide)
  | number | illegal => cases hstring

/-- Of texts of legal tokens, no others than tidy ones keep their tokens. -/
theorem tidy_iff (hlegal : Legal (bareTokens text)) :
    Tidy text ↔ bareTokens (visible text) = bareTokens text := by
  refine ⟨fun h => h.bareTokens_visible hlegal, fun h => ?_⟩
  induction text using text_induction with
  | gap gap hgap => exact .gap hgap
  | token gap span rest kind literal hgap hspan ih =>
    have hgap' := gap_visible hgap
    rw [visible_append] at hgap'
    rw [bareTokens_gap_token hgap hspan] at hlegal h
    rw [visible_append, visible_append, bareTokens_gap hgap'] at h
    obtain ⟨hkind, hlegal⟩ := List.forall_mem_cons.mp hlegal
    by_cases hstring : kind = .string
    · obtain ⟨hspan', hends, hrest⟩ := hspan.of_bareTokens_visible hstring h
      exact .token hgap hspan (fun _ => hspan') hends (ih hlegal hrest)
    · rw [span_visible hspan hkind fun h => absurd h hstring] at h
      obtain ⟨hends, hrest⟩ := hspan.of_bareTokens hstring h
      exact .token hgap hspan (fun h => absurd h hstring) hends (ih hlegal hrest)

/-! ### Programs are neither blank texts nor commands -/

theorem isBlank_of_blank {c : Char} (h : Blank c) : Text.isBlank c = true := by
  rcases h with rfl | rfl | rfl | rfl <;> decide

/-- A text of legal tokens in which all that can be seen is blank is blank. -/
theorem all_blank_of_visible {text : List Char} (hlegal : Legal (bareTokens text))
    (h : (visible text).all Text.isBlank = true) : text.all Text.isBlank = true := by
  induction text with
  | nil => rfl
  | cons c text ih =>
    by_cases hblank : Blank c
    · have hbehind : (visible text).all Text.isBlank = true := by
        cases hc : isInvisible c with
        | true => rwa [visible_cons_of_isInvisible hc] at h
        | false => exact (Bool.and_eq_true_iff.mp (visible_cons hc text ▸ h)).2
      rw [List.all_cons, isBlank_of_blank hblank, ih (bareTokens_blank hblank ▸ hlegal) hbehind]
      rfl
    · have hprintable : ¬ Printable c := by
        cases hc : isInvisible c with
        | true => exact not_printable_of_isInvisible hc
        | false => exact not_printable_of_isBlank (Bool.and_eq_true_iff.mp (visible_cons hc text ▸ h)).1
      exact absurd hlegal ((stray_of_not_printable hblank hprintable).not_legal text)

theorem slash_first {blanks behind : List Char} (hblanks : ∀ c ∈ blanks, Text.isBlank c = true)
    (hlegal : Legal (bareTokens (blanks ++ '/' :: behind))) :
    ∃ rest, bareTokens (blanks ++ '/' :: behind) = sign .slash :: rest := by
  induction blanks with
  | nil => exact ⟨_, bareTokens_mark .slash '/'⟩
  | cons c blanks ih =>
    obtain ⟨hc, hblanks⟩ := List.forall_mem_cons.mp hblanks
    by_cases hblank : Blank c
    · have hskip : bareTokens (c :: (blanks ++ '/' :: behind)) = _ := bareTokens_blank hblank
      rw [List.cons_append, hskip] at hlegal ⊢
      exact ih hblanks hlegal
    · exact absurd hlegal ((stray_of_not_printable hblank (not_printable_of_isBlank hc)).not_legal _)

/-- A text that is stripped to one that starts with a character starts with it behind blanks. -/
theorem starts_of_stripWhile {p : Char → Bool} {text rest : List Char} {c : Char}
    (h : Text.stripWhile p text = c :: rest) :
    ∃ blanks behind, text = blanks ++ c :: behind ∧ ∀ d ∈ blanks, p d = true := by
  have hsuffix := List.dropWhile_suffix p (l := (text.dropWhile p).reverse)
  rw [← List.reverse_prefix, List.reverse_reverse] at hsuffix
  obtain ⟨behind, hbehind⟩ := hsuffix
  rw [Text.stripWhile] at h
  rw [h] at hbehind
  refine ⟨text.takeWhile p, rest ++ behind, ?_, fun d hd => List.all_eq_true.mp List.all_takeWhile d hd⟩
  rw [← List.cons_append, hbehind, List.takeWhile_append_dropWhile]

/-- A text without parse errors is no command: a program does not start with a slash. -/
theorem commandWords?_of_errors {source : String} (h : (parse source).errors = []) :
    commandWords? source = none := by
  unfold commandWords?
  split
  next rest hslash =>
    obtain ⟨blanks, behind, htext, hblanks⟩ := starts_of_stripWhile hslash
    have hlegal := legal_of_errors h
    have hprogram := (program_bareTokens_iff source _).mpr ⟨h, rfl⟩
    rw [htext] at hlegal hprogram
    obtain ⟨tokens, htokens⟩ := slash_first hblanks hlegal
    rw [htokens] at hprogram
    generalize bareNodes (parse source).statements = nodes at hprogram
    cases hprogram with
    | statements hnode _ =>
      obtain ⟨token, rest, heq, hkind⟩ := hnode.starts
      cases heq
      exact absurd hkind (by decide)
  next => rfl

/-! ### What is shown of a program -/

theorem bareNodes_eq_map (nodes : List Node) :
    bareNodes nodes = nodes.map (Node.relabel Relocation.forget.relabeling) := by
  induction nodes with
  | nil => rfl
  | cons node nodes ih => exact congrArg (_ :: ·) ih

theorem hidesResult_bare (statements : List Node) (value : Value) :
    Console.hidesResult (.program (bareNodes statements)) value.bare =
      Console.hidesResult (.program statements) value := by
  have hnull : value.bare.same .null = value.same .null := by cases value <;> rfl
  have hlet (node : Node) : (node.relabel Relocation.forget.relabeling).isLet = node.isLet := by
    cases node <;> rfl
  rw [Console.hidesResult, Console.hidesResult, hnull, Node.lastStatement?, Node.lastStatement?,
    bareNodes_eq_map, List.getLast?_map, Option.map_map]
  exact congrArg (fun isLet => _ && (Option.map isLet statements.getLast?).getD true) (funext hlet)

/-- A console shows the same of programs and results that are equal but for places. -/
theorem Console.report_of_bare (console : Console) {m m' : Machine} {statements statements' : List Node}
    {value value' : Value} (hmachine : m.bare = m'.bare) (hnodes : bareNodes statements = bareNodes statements')
    (hvalue : value.bare = value'.bare) :
    console.report m (.program statements) value = console.report m' (.program statements') value' := by
  have hprinted : m.printed = m'.printed := by
    rw [Machine.printed, Machine.printed, (Machine.shown_of_bare hmachine).1]
  have houtline : (Node.program statements).outline = (Node.program statements').outline := by
    rw [Node.outline, Node.outline, ← tree_bareNodes statements, ← tree_bareNodes statements', hnodes]
  have hhides : hidesResult (.program statements) value = hidesResult (.program statements') value' := by
    rw [← hidesResult_bare statements, ← hidesResult_bare statements', hnodes, hvalue]
  rw [report, report, hprinted, houtline, hhides, Value.inspect_of_bare hvalue]

/-- A console shows the same of texts that are equal but for places. -/
theorem Console.evaluate_of_bare (console : Console) {source source' : String}
    (herrors : (parse source).errors = []) (herrors' : (parse source').errors = [])
    (hnodes : bareNodes (parse source).statements = bareNodes (parse source').statements) :
    (console.evaluate source).1 = (console.evaluate source').1 := by
  have hbare := evalStatements_bare (parse source).statements console.env console.machine.clearOutput
  have hbare' := evalStatements_bare (parse source').statements console.env console.machine.clearOutput
  rw [hnodes, hbare'] at hbare
  rw [evaluate, evaluate, runText_run herrors, runText_run herrors']
  cases heval : evalStatements (parse source).statements console.env console.machine.clearOutput with
  | ok value m =>
    cases heval' : evalStatements (parse source').statements console.env console.machine.clearOutput with
    | error reason m' => rw [heval, heval'] at hbare; cases hbare
    | ok value' m' =>
      rw [heval, heval'] at hbare
      obtain ⟨hvalue, hmachine⟩ := EStateM.Result.ok.inj hbare
      have hunwrapped : value.unwrapped.bare = value'.unwrapped.bare := by
        have hsame := congrArg Value.unwrapped hvalue.symm
        rwa [Value.bare, Value.bare, Value.unwrapped_relabel, Value.unwrapped_relabel] at hsame
      exact console.report_of_bare hmachine.symm hnodes hunwrapped
  | error reason m =>
    cases heval' : evalStatements (parse source').statements console.env console.machine.clearOutput with
    | ok value' m' => rw [heval, heval'] at hbare; cases hbare
    | error reason' m' =>
      rw [heval, heval'] at hbare
      obtain ⟨rfl, hmachine⟩ := EStateM.Result.error.inj hbare
      have hprinted : m.printed = m'.printed := by
        rw [Machine.printed, Machine.printed, (Machine.shown_of_bare hmachine.symm).1]
      simp only [hprinted]

/-! ### What comes of a program at the prompt -/

/-- A console takes a text as what is left of it without its invisible characters. That is a program, and what
    comes of it, in the environment of the console, is what comes of running the text itself: the same value or
    failure, the same output and the same bindings, all but the places of functions. So the console shows what
    it would show of the text itself. -/
structure Console.RunsAs (console : Console) (source : String) : Prop where
  submitted : console.submit source = console.evaluate (Console.normalize source)
  errors : (parse (Console.normalize source)).errors = []
  outcome : bareOutcome (runValue (Console.normalize source) console.env console.machine.clearOutput) =
    bareOutcome (runValue source console.env console.machine.clearOutput)
  shown : (console.submit source).1 = (console.evaluate source).1

/-- How the value that a run comes to is shown, if it comes to one. -/
def shownValue? : EStateM.Result RunFailure Machine Value → Option String
  | .ok value _ => some value.inspect
  | .error .. => none

theorem ne_of_shownValue? {outcome outcome' : EStateM.Result RunFailure Machine Value} {text text' : String}
    (h : shownValue? outcome = some text) (h' : shownValue? outcome' = some text') (hne : text ≠ text') :
    outcome ≠ outcome' := by
  rintro rfl
  exact hne (Option.some.inj (h.symm.trans h'))

/-- Without carriage returns tokens can run together, and strings can lose characters, so that the program comes
    to another value, and that is shown: 12 instead of 2, and a string of two characters instead of three. -/
theorem not_runsAs_joined :
    let console := Console.start false
    let outcome (text : String) := bareOutcome (runValue text console.env console.machine.clearOutput)
    let apart (source : String) := outcome (Console.normalize source) ≠ outcome source ∧
      (console.submit source).1 ≠ (console.evaluate source).1
    ((parse "1\r2").errors = [] ∧ Text.isBlankText "1\r2" = false ∧ apart "1\r2" ∧
      ¬ console.RunsAs "1\r2") ∧
    (parse "\"a\u00a0b\"").errors = [] ∧ Text.isBlankText "\"a\u00a0b\"" = false ∧
      apart "\"a\u00a0b\"" ∧ ¬ console.RunsAs "\"a\u00a0b\"" := by
  intro console outcome apart
  have hjoined : outcome (Console.normalize "1\r2") ≠ outcome "1\r2" :=
    @ne_of_shownValue? _ _ "12" "2" (by decide +kernel) (by decide +kernel) (by decide)
  have hlost : outcome (Console.normalize "\"a\u00a0b\"") ≠ outcome "\"a\u00a0b\"" :=
    @ne_of_shownValue? _ _ "ab" "a\u00a0b" (by decide +kernel) (by decide +kernel) (by decide)
  refine ⟨⟨by decide +kernel, by decide +kernel, ⟨hjoined, by decide +kernel⟩, fun h => hjoined h.outcome⟩,
    by decide +kernel, by decide +kernel, ⟨hlost, by decide +kernel⟩, fun h => hlost h.outcome⟩

/-- A tidy program is run at the prompt as it is. -/
theorem runsAs_of_tidy (console : Console) {source : String} (herrors : (parse source).errors = [])
    (hblank : Text.isBlankText source = false) (htidy : Tidy source.toList) : console.RunsAs source := by
  have hlegal := legal_of_errors herrors
  have htokens : bareTokens (Console.normalize source).toList = bareTokens source.toList := by
    have hvisible : (Console.normalize source).toList = visible source.toList := String.toList_ofList
    rw [hvisible]
    exact htidy.bareTokens_visible hlegal
  obtain ⟨hsame, hnodes⟩ := parse_layout htokens
  have herrors' : (parse (Console.normalize source)).errors = [] := hsame.trans herrors
  have hsubmitted : console.submit source = console.evaluate (Console.normalize source) := by
    have hvisible : Text.isBlankText (Console.normalize source) = false := by
      refine Bool.eq_false_iff.mpr fun hall => ?_
      rw [Text.isBlankText, Console.normalize, String.toList_ofList] at hall
      have hblank' : Text.isBlankText source = true := all_blank_of_visible hlegal hall
      exact Bool.false_ne_true (hblank.symm.trans hblank')
    simp [Console.submit, hvisible, Console.command?, commandWords?_of_errors herrors']
  refine ⟨hsubmitted, herrors', ?_, ?_⟩
  · rw [bareOutcome_runValue herrors', bareOutcome_runValue herrors, hnodes]
  · rw [hsubmitted, console.evaluate_of_bare herrors' herrors hnodes]

/-- A carriage return in front of a line feed, and a no-break space in a comment. -/
theorem runsAs_of_tidy_lines :
    let source := "1\r\n\"a\" #\u00a0"
    (parse source).errors = [] ∧ Text.isBlankText source = false ∧ Tidy source.toList ∧
      (Console.start false).RunsAs source := by
  intro source
  have herrors : (parse source).errors = [] := by decide +kernel
  have hblank : Text.isBlankText source = false := by decide +kernel
  have htidy : Tidy source.toList := by
    have htext : source.toList =
        [] ++ (['1'] ++ (['\r', '\n'] ++ ('"' :: ['a'] ++ ['"'] ++ [' ', '#', '\u00a0']))) := by decide +kernel
    have hnumber {rest : List Char} (hrest : Stops Digit rest) : Spans [] .int "1" ['1'] rest :=
      spans_number ⟨by decide, List.forall_mem_singleton.mpr (by decide)⟩ hrest fresh_nil
    have hstring (rest : List Char) : Spans [] .string "a" ('"' :: ['a'] ++ ['"']) rest := .string (by decide)
    have hcomment : Gap [' ', '#', '\u00a0'] [] :=
      .blank (.inl rfl) (@Gap.comment ['\u00a0'] [] [] (by decide) (stops_nil _) .nil)
    rw [htext]
    refine .token .nil (hnumber (stops_cons.mpr (by decide))) nofun (hnumber ?_) ?_
    · exact stops_cons.mpr (by decide)
    refine .token ?_ (hstring _) (fun _ => visible_eq_self.mp rfl) (hstring _) (.gap hcomment)
    exact .blank (by decide) (.blank (by decide) .nil)
  exact ⟨herrors, hblank, htidy, runsAs_of_tidy (Console.start false) herrors hblank htidy⟩

end Monkey
