import Monkey.Proofs.Grammar.Closing

/-!
# Open brackets and open blocks

The editor counts the open brackets of a text over its tokens, and a count that would fall below zero stays
there. In a text that is parsed without errors it never has to: every bracket belongs to a construct, which
has a closing one for each opening one, and only a block may do without its closing brace, at the end of the
text. So the brackets that are left open are the opening braces of those blocks (`openDepth_eq_unclosed`).
-/

namespace Monkey

open Grammar Editor

/-! ### The blocks of a tree -/

namespace Node

mutual

/-- The opening braces of the blocks in a tree, in the order of the text. -/
def braces : Node → List Token
  | .program statements => bracesAll statements
  | .block token statements => token :: bracesAll statements
  | .letStatement _ _ part | .returnStatement _ part | .expressionStatement _ part | .prefixed _ _ part
  | .function _ _ part => part.braces
  | .binary _ left _ right | .index _ left right => left.braces ++ right.braces
  | .conditional _ condition consequence alternative =>
    condition.braces ++ (consequence.braces ++ alternative.braces)
  | .call _ callee arguments => callee.braces ++ bracesAll arguments
  | .array _ elements => bracesAll elements
  | .hash _ pairs => bracesPairs pairs
  | .missing | .identifier _ | .integer .. | .string .. | .boolean .. => []

def bracesAll : List Node → List Token
  | [] => []
  | node :: rest => node.braces ++ bracesAll rest

def bracesPairs : List (Node × Node) → List Token
  | [] => []
  | (key, value) :: rest => key.braces ++ (value.braces ++ bracesPairs rest)

end

end Node

/-! ### Blocks that are closed by the end of the text -/

namespace Parser

/-- The parser in front of a token further ahead. -/
def before (p : Parser) (token : Token) : Parser :=
  { p with tokens := p.tokens.dropWhile (· ≠ token) }

/-- Whether the block that starts with the given brace is read to the end of the text, and not to a brace that
    closes it. -/
def leavesOpen (p : Parser) (brace : Token) : Bool :=
  match Rule.block Rule.expression (p.before brace) with
  | .ok _ last => last.current.kind = .eof
  | .error .. => false

end Parser

/-- The opening braces of the blocks in a text that are closed by the end of the text. -/
def unclosedBlocks (source : String) : List Token :=
  (parse source).program.braces.filter (Parser.ofText source).leavesOpen

variable {p : Parser} {tokens middle rest : List Token}

theorem Parser.before_eq {brace : Token} {behind : List Token} (hdistinct : p.tokens.Nodup)
    (h : brace :: behind <:+ p.tokens) : p.before brace = p.on (brace :: behind) := by
  obtain ⟨front, hfront⟩ := h
  have hother : ∀ token ∈ front, (token ≠ brace : Bool) = true := by
    intro token htoken
    rw [← hfront] at hdistinct
    simpa using (List.nodup_append.mp hdistinct).2.2 token htoken brace List.mem_cons_self
  rw [before, on, ← hfront, List.dropWhile_append_of_pos hother, List.dropWhile_cons]
  simp

/-- A block is closed by the end of the text if nothing is left behind its statements. -/
theorem Parser.leavesOpen_eq {brace : Token} {body : List Node} (hdistinct : p.tokens.Nodup)
    (hbrace : brace :: tokens <:+ p.tokens) (h : Derives (.statements body) tokens rest)
    (hcloses : Rule.closesBlock (nextKind rest) = true) :
    p.leavesOpen brace = (nextKind rest = .eof : Bool) := by
  have hbody := h.read p Rule.closesBlock (by simp [Rule.closesBlock]) rfl hcloses
  simp only [leavesOpen, before_eq hdistinct hbrace, Rule.block_run, on_cons_advance, hbody, current_kind,
    on_tokens]

/-! ### Open brackets behind a phrase -/

/-- The tokens in front of `rest` close `drop` brackets that were open in front of them. Of those they open, the
    braces that the end of the text closes are left open, and no others. -/
def Opens (p : Parser) (drop : Nat) (braces tokens rest : List Token) : Prop :=
  ∀ depth, nesting (depth + drop) tokens = nesting (depth + braces.countP p.leavesOpen) rest

/-- A token that is no bracket. -/
def Neutral (kind : TokenKind) : Prop :=
  ∀ depth, nest depth kind = depth

section

variable {drop : Nat} {braces braces' : List Token} {token : Token} {kind : TokenKind}

theorem opens_refl : Opens p 0 [] rest rest :=
  fun _ => rfl

theorem Opens.trans (h : Opens p drop braces tokens middle) (h' : Opens p 0 braces' middle rest) :
    Opens p drop (braces ++ braces') tokens rest := by
  intro depth
  rw [List.countP_append, ← Nat.add_assoc, h, ← h' (depth + braces.countP p.leavesOpen)]
  rfl

theorem Opens.neutral (h : Opens p 0 braces tokens rest) (hkind : token.kind = kind)
    (hneutral : Neutral kind := by exact fun _ => rfl) : Opens p 0 braces (token :: tokens) rest := by
  intro depth
  rw [nesting_cons, hkind, hneutral, h]

/-- The bracket that a phrase closes stands in front of it. -/
theorem Opens.opening (h : Opens p 1 braces tokens rest) (hkind : token.kind = kind)
    (hbracket : kind ∈ [.lparen, .lbracket, .lbrace] := by decide) :
    Opens p 0 braces (token :: tokens) rest := by
  intro depth
  have hnest : nest depth kind = depth + 1 := by
    simp only [List.mem_cons, List.not_mem_nil, or_false] at hbracket
    rcases hbracket with rfl | rfl | rfl <;> rfl
  rw [Nat.add_zero, nesting_cons, hkind, hnest, h]

theorem Opens.closing (h : Opens p 0 braces tokens (token :: rest)) (hkind : token.kind = kind)
    (hbracket : kind ∈ [.rparen, .rbracket, .rbrace] := by decide) : Opens p 1 braces tokens rest := by
  intro depth
  have hnest : ∀ depth, nest (depth + 1) kind = depth := by
    simp only [List.mem_cons, List.not_mem_nil, or_false] at hbracket
    rcases hbracket with rfl | rfl | rfl <;> exact fun _ => rfl
  rw [← Nat.add_zero (depth + 1), h, nesting_cons, hkind, Nat.add_right_comm, hnest]

/-- A semicolon behind a statement changes nothing. -/
theorem Opens.ended (h : Opens p 0 braces tokens middle) (hend : EndsStatement middle rest) :
    Opens p 0 braces tokens rest := by
  rcases hend with ⟨token, hkind, rfl⟩ | ⟨rfl, -⟩
  · have hbehind : Opens p 0 (braces ++ []) tokens rest := h.trans (opens_refl.neutral hkind)
    rwa [List.append_nil] at hbehind
  · exact h

end

namespace Grammar

def Phrase.Counts (p : Parser) : Phrase → List Token → List Token → Prop
  | .expression _ node, tokens, rest | .atom node, tokens, rest | .statement node, tokens, rest
  | .block node, tokens, rest => Opens p 0 node.braces tokens rest
  | .items nodes, tokens, rest | .statements nodes, tokens, rest =>
    Opens p 0 (Node.bracesAll nodes) tokens rest
  | .list last nodes, tokens, rest =>
    last = .rparen ∨ last = .rbracket → Opens p 1 (Node.bracesAll nodes) tokens rest
  | .pairs entries, tokens, rest => Opens p 0 (Node.bracesPairs entries) tokens rest
  | .names _, tokens, rest => Opens p 0 [] tokens rest
  | .parameters _, tokens, rest => Opens p 1 [] tokens rest

theorem neutral_binary {tier : Nat} {kind : TokenKind} (h : kind ∈ operatorsOf tier) : Neutral kind :=
  nest_binary h

/-- In the tokens of a text, the brackets that a phrase leaves open are the braces of its blocks that are closed
    by the end of the text. -/
theorem Derives.counts {phrase : Phrase} (hdistinct : p.tokens.Nodup) (h : Derives phrase tokens rest)
    (hsuffix : tokens <:+ p.tokens) : phrase.Counts p tokens rest := by
  have htail {token : Token} {tokens : List Token} (h : token :: tokens <:+ p.tokens) : tokens <:+ p.tokens :=
    (List.suffix_cons token tokens).trans h
  induction h with
  | climb _ _ ih | ofAtom _ ih => exact ih hsuffix
  | binary hoperator hleft _ ihleft ihright =>
    have hmiddle := hleft.suffix.trans hsuffix
    exact (ihleft hsuffix).trans ((ihright (htail hmiddle)).neutral rfl (neutral_binary hoperator))
  | prefixed hoperator _ ih =>
    have hright := ih (htail hsuffix)
    rcases hoperator with hkind | hkind
    · exact hright.neutral hkind
    · exact hright.neutral hkind
  | call hbracket hcallee _ ihcallee iharguments =>
    have hmiddle := hcallee.suffix.trans hsuffix
    exact (ihcallee hsuffix).trans ((iharguments (htail hmiddle) (.inl rfl)).opening hbracket)
  | index hbracket hleft _ hclose ihleft ihsubscript =>
    have hmiddle := hleft.suffix.trans hsuffix
    exact (ihleft hsuffix).trans (((ihsubscript (htail hmiddle)).closing hclose).opening hbracket)
  | identifier htoken | integer htoken | string htoken => exact opens_refl.neutral htoken
  | @boolean token value rest htoken =>
    cases value
    · exact opens_refl.neutral htoken
    · exact opens_refl.neutral htoken
  | group hbracket _ hclose ih => exact ((ih (htail hsuffix)).closing hclose).opening hbracket
  | array hbracket _ ih => exact (ih (htail hsuffix) (.inr rfl)).opening hbracket
  | emptyHash hbrace hclose => exact (opens_refl.closing hclose).opening hbrace
  | hash hbrace _ hclose ih => exact ((ih (htail hsuffix)).closing hclose).opening hbrace
  | @conditional keyword bracket condition close consequence tokens middle rest hkeyword hbracket hcondition
      hclose _ ihcondition ihblock =>
    have hinner := htail (htail hsuffix)
    have hmiddle := htail (hcondition.suffix.trans hinner)
    have hcondition := (((ihcondition hinner).closing hclose).opening hbracket).neutral hkeyword
    have hwhole : Opens p 0 (condition.braces ++ consequence.braces) _ rest :=
      hcondition.trans (ihblock hmiddle)
    rw [Phrase.Counts, Node.braces, Node.braces, List.append_nil]
    exact hwhole
  | conditionalElse hkeyword hbracket hcondition hclose hblock hother _ ihcondition ihblock ihother =>
    have hinner := htail (htail hsuffix)
    have hmiddle := htail (hcondition.suffix.trans hinner)
    have hbehind := htail (hblock.suffix.trans hmiddle)
    have hcondition := (((ihcondition hinner).closing hclose).opening hbracket).neutral hkeyword
    exact hcondition.trans ((ihblock hmiddle).trans ((ihother hbehind).neutral hother))
  | function hkeyword hbracket hnames _ ihnames ihbody =>
    have hinner := htail (htail hsuffix)
    have hparameters := ((ihnames hinner).opening hbracket).neutral hkeyword
    exact hparameters.trans (ihbody (hnames.suffix.trans hinner))
  | emptyList hclose =>
    rintro (rfl | rfl)
    · exact opens_refl.closing hclose
    · exact opens_refl.closing hclose
  | ofItems _ hclose ih =>
    rintro (rfl | rfl)
    · exact (ih hsuffix).closing hclose
    · exact (ih hsuffix).closing hclose
  | lastItem _ ih => exact (ih hsuffix).trans opens_refl
  | item hnode hcomma _ ihnode ihnodes =>
    have hmiddle := htail (hnode.suffix.trans hsuffix)
    exact (ihnode hsuffix).trans ((ihnodes hmiddle).neutral hcomma)
  | noParameters hclose => exact opens_refl.closing hclose
  | ofNames _ hclose ih => exact (ih hsuffix).closing hclose
  | lastName htoken => exact opens_refl.neutral htoken
  | name htoken hcomma _ ih => exact ((ih (htail (htail hsuffix))).neutral hcomma).neutral htoken
  | lastPair hkey hcolon _ ihkey ihvalue =>
    have hmiddle := htail (hkey.suffix.trans hsuffix)
    exact (ihkey hsuffix).trans (((ihvalue hmiddle).trans opens_refl).neutral hcolon)
  | pair hkey hcolon hvalue hcomma _ ihkey ihvalue ihpairs =>
    have hmiddle := htail (hkey.suffix.trans hsuffix)
    have hbehind := htail (hvalue.suffix.trans hmiddle)
    exact (ihkey hsuffix).trans
      (((ihvalue hmiddle).trans ((ihpairs hbehind).neutral hcomma)).neutral hcolon)
  | letStatement hkeyword htarget hsign _ hend ih =>
    exact ((((ih (htail (htail (htail hsuffix)))).ended hend).neutral hsign).neutral htarget).neutral hkeyword
  | returnStatement hkeyword _ hend ih => exact ((ih (htail hsuffix)).ended hend).neutral hkeyword
  | expressionStatement _ hend ih => exact (ih hsuffix).ended hend
  | noStatements => exact opens_refl
  | statements hnode _ ihnode ihnodes =>
    exact (ihnode hsuffix).trans (ihnodes (hnode.suffix.trans hsuffix))
  | block hbrace hbody hclose ih =>
    have hclosed := Parser.leavesOpen_eq hdistinct hsuffix hbody (by simp [nextKind, Rule.closesBlock, hclose])
    have hcount := ((ih (htail hsuffix)).closing hclose).opening hbrace
    intro depth
    rw [hcount depth, Node.braces, List.countP_cons_of_neg]
    simp [hclosed, nextKind, hclose]
  | @openBlock brace body tokens hbrace hbody ih =>
    have hopen := Parser.leavesOpen_eq hdistinct hsuffix hbody rfl
    intro depth
    have hcount := ih (htail hsuffix) (depth + 1)
    rw [nesting_cons, hbrace, Node.braces, List.countP_cons_of_pos (by simp [hopen, nextKind]),
      ← Nat.add_assoc, Nat.add_right_comm]
    exact hcount

end Grammar

/-! ### Texts -/

/-- In a text without parse errors, as many brackets are open as blocks are closed by the end of the text. So
    Enter submits a text in which each block has its closing brace, wherever the cursor stands, and a text with
    an open bracket has a parse error or a block without its closing brace. -/
theorem openDepth_eq_unclosed (source : String) :
    ((parse source).errors = [] → openDepth source = (unclosedBlocks source).length) ∧
      ((parse source).errors = [] → unclosedBlocks source = [] →
        ∀ cursor, (⟨source, cursor⟩ : Buffer).enter = .submit) ∧
      (0 < openDepth source → (parse source).errors ≠ [] ∨ unclosedBlocks source ≠ []) := by
  have hcount (h : (parse source).errors = []) : openDepth source = (unclosedBlocks source).length := by
    have hparse : parse source = ⟨(parse source).statements, []⟩ := by rw [← h]
    have hprogram := (parse_eq_iff_program source _).mp hparse
    rw [← Parser.ofText_tokens] at hprogram
    have hdistinct : (Parser.ofText source).tokens.Nodup := by
      rw [Parser.ofText_tokens]
      exact (nodup_tokenize source).sublist (List.dropLast_sublist _)
    have hnesting := hprogram.counts hdistinct List.suffix_rfl 0
    rw [openDepth_eq, bareTokens_eq_map, nesting_move, ← Parser.ofText_tokens, unclosedBlocks,
      ← List.countP_eq_length_filter]
    exact hnesting.trans (Nat.zero_add _)
  refine ⟨hcount, fun herrors hclosed cursor => ?_, fun hopen => ?_⟩
  · have hnone : openDepth source = 0 := by rw [hcount herrors, hclosed, List.length_nil]
    simp [Buffer.enter, hnone]
  · by_cases herrors : (parse source).errors = []
    · refine .inr fun hclosed => ?_
      rw [hcount herrors, hclosed] at hopen
      exact Nat.lt_irrefl 0 hopen
    · exact .inl herrors

/-- A program in which blocks are left open, and one in which all of them are closed. -/
theorem openDepth_eq_unclosed_nested :
    let source := "puts([1](2)); if (a) \x7b \x7bb: [c]\x7d \x7d else \x7b fn(x) \x7b f(x)"
    let complete := "let f = fn(x) \x7b if (x) \x7b [x] \x7d \x7d; f(\x7b1: 2\x7d)[0]"
    ((parse source).errors = [] ∧ openDepth source = 2 ∧ openDepth source = (unclosedBlocks source).length ∧
      ((parse source).errors ≠ [] ∨ unclosedBlocks source ≠ [])) ∧
    (parse complete).errors = [] ∧ unclosedBlocks complete = [] ∧
      ∀ cursor, (⟨complete, cursor⟩ : Buffer).enter = .submit := by
  intro source complete
  have herrors : (parse source).errors = [] := by decide +kernel
  have hopen : openDepth source = 2 := by decide +kernel
  have herrors' : (parse complete).errors = [] := by decide +kernel
  have hclosed : unclosedBlocks complete = [] := by decide +kernel
  obtain ⟨hcount, -, hunclosed⟩ := openDepth_eq_unclosed source
  obtain ⟨-, hsubmits, -⟩ := openDepth_eq_unclosed complete
  exact ⟨⟨herrors, hopen, hcount herrors, hunclosed (hopen ▸ Nat.two_pos)⟩, herrors', hclosed,
    hsubmits herrors' hclosed⟩

end Monkey
