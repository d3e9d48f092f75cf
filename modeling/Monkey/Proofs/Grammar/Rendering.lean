import Monkey.Proofs.Grammar.Readable

/-!
# The canonical text of a program is read as the program

The text of a tree puts every operation and every index in parentheses and sets no others, so it looks
different from the text that the tree was read from. It is read as the same tree nevertheless, as long as
it shows everything that is in the tree, which it does for the expressions that `Node.isPlain` admits:
strings lose their quotes in it, and blocks the borders of their statements.

Each part of a text is scanned as tokens of its own, in front of anything that does not go on with a word
(`Spells`), and the tokens of an expression are derived as the expression itself (`Node.Renders`). Only
the first token of an expression statement is another one than before.
-/

namespace Monkey

open Grammar Lexical

/-! ### Texts and the tokens they are scanned as -/

/-- In front of a text that does not go on with a word, the characters are scanned as the tokens. -/
def Spells (text : List Char) (tokens : List Token) : Prop :=
  ∀ rest, Stops WordChar rest → bareTokens (text ++ rest) = tokens ++ bareTokens rest

theorem bareTokens_sign {kind : TokenKind} {rest : List Char} (hkind : kind ∈ operators)
    (hend : kind = .assign ∨ kind = .bang → Stops (· = '=') rest) :
    bareTokens (kind.text.toList ++ rest) = sign kind :: bareTokens rest :=
  bareTokens_token (lexes_sign hkind hend)

/-- A sign of one character that starts no longer one. -/
theorem bareTokens_mark (kind : TokenKind) (c : Char) {rest : List Char}
    (h : kind.text.toList = [c] ∧ kind ∈ operators ∧ ¬ (kind = .assign ∨ kind = .bang) := by decide) :
    bareTokens (c :: rest) = sign kind :: bareTokens rest := by
  obtain ⟨hspan, hkind, hlong⟩ := h
  have hsign : bareTokens (kind.text.toList ++ rest) = sign kind :: bareTokens rest :=
    bareTokens_sign hkind fun h => absurd h hlong
  rwa [hspan] at hsign

theorem bareTokens_space (rest : List Char) : bareTokens (' ' :: rest) = bareTokens rest :=
  bareTokens_blank (.inl rfl)

theorem bareTokens_word {word : String} {kind : TokenKind} {rest : List Char} (hword : Word word.toList)
    (hkind : Names word kind) (hrest : Stops WordChar rest) :
    bareTokens (word.toList ++ rest) = ⟨kind, word, 0, 0⟩ :: bareTokens rest := by
  have hlexes := @lexes_word _ _ kind hword hrest
  rw [String.ofList_toList] at hlexes
  exact bareTokens_token (hlexes hkind)

theorem stops_mark (c : Char) {rest : List Char} (h : ¬ WordChar c := by decide) :
    Stops WordChar (c :: rest) :=
  stops_cons.mpr h

theorem word_starts {cs : List Char} (h : Word cs) : ∃ c rest, cs = c :: rest ∧ c ≠ '=' := by
  obtain ⟨c, rest, rfl, hletter, -⟩ := h
  refine ⟨c, rest, rfl, ?_⟩
  rintro rfl
  exact absurd hletter (by decide)

theorem Grammar.Derives.loosen (tier : Nat) (htier : tier ≤ postfixTier) {node : Node}
    {tokens rest : List Token} (h : Derives (.expression postfixTier node) tokens rest) :
    Derives (.expression tier node) tokens rest :=
  h.descend htier (Nat.le_refl _)

/-! ### Texts that show expressions -/

/-- A text is scanned as tokens that an expression is derived from. -/
def Shows (text : String) (node : Node) : Prop :=
  ∃ tokens, Spells text.toList tokens ∧ ∀ rest, Derives (.expression 0 node) (tokens ++ rest) rest

/-- A text is scanned as tokens that an atom is derived from. -/
def ShowsAtom (text : String) (node : Node) : Prop :=
  ∃ tokens, Spells text.toList tokens ∧ ∀ rest, Derives (.atom node) (tokens ++ rest) rest

theorem ShowsAtom.shows {text : String} {node : Node} (h : ShowsAtom text node) : Shows text node := by
  obtain ⟨tokens, hspells, hderives⟩ := h
  exact ⟨tokens, hspells, fun rest => .loosen 0 (by decide) (.ofAtom (hderives rest))⟩

/-- A text is scanned as the tokens of two expressions with a colon between them. -/
def ShowsPair (text : String) (pair : Node × Node) : Prop :=
  ∃ tokens tokens', Spells text.toList (tokens ++ sign .colon :: tokens') ∧
    (∀ rest, Derives (.expression 0 pair.1) (tokens ++ rest) rest) ∧
    ∀ rest, Derives (.expression 0 pair.2) (tokens' ++ rest) rest

section

variable {α : Type} (text : α → String) (node : α → Node) (pair : α → Node × Node) {parts : List α}

theorem commaSeparated_cons (first second : String) (texts : List String) :
    (Node.commaSeparated (first :: second :: texts)).toList =
      first.toList ++ ',' :: ' ' :: (Node.commaSeparated (second :: texts)).toList := by
  simp [Node.commaSeparated]

/-- Expressions with commas between them. -/
theorem shows_items (h : ∀ part ∈ parts, Shows (text part) (node part)) (hne : parts ≠ []) :
    ∃ tokens, Spells (Node.commaSeparated (parts.map text)).toList tokens ∧
      ∀ rest, Derives (.items (parts.map node)) (tokens ++ rest) rest := by
  induction parts with
  | nil => exact absurd rfl hne
  | cons part parts ih =>
    obtain ⟨⟨tokens, hspells, hderives⟩, hparts⟩ := List.forall_mem_cons.mp h
    cases parts with
    | nil => exact ⟨tokens, hspells, fun rest => .lastItem (hderives rest)⟩
    | cons next parts =>
      obtain ⟨tokens', hspells', hderives'⟩ := ih hparts (List.cons_ne_nil next parts)
      refine ⟨tokens ++ sign .comma :: tokens', ?_, ?_⟩
      · intro rest hrest
        rw [List.map_cons] at hspells' ⊢
        simp only [List.map_cons, commaSeparated_cons, List.cons_append, List.append_assoc]
        rw [hspells _ (stops_mark ','), bareTokens_mark .comma ',', bareTokens_space, hspells' _ hrest]
      · intro rest
        rw [List.append_assoc, List.cons_append]
        exact .item (hderives _) rfl (hderives' rest)

/-- Expressions with commas between them, and a closing bracket behind. -/
theorem shows_list (h : ∀ part ∈ parts, Shows (text part) (node part)) (last : TokenKind) :
    ∃ tokens, Spells (Node.commaSeparated (parts.map text)).toList tokens ∧
      ∀ rest, Derives (.list last (parts.map node)) (tokens ++ sign last :: rest) rest := by
  cases parts with
  | nil => exact ⟨[], fun _ _ => rfl, fun rest => .emptyList rfl⟩
  | cons part parts =>
    obtain ⟨tokens, hspells, hderives⟩ := shows_items text node h (List.cons_ne_nil part parts)
    exact ⟨tokens, hspells, fun rest => .ofItems (hderives _) rfl⟩

/-- Pairs with commas between them. -/
theorem shows_pairs (h : ∀ part ∈ parts, ShowsPair (text part) (pair part)) (hne : parts ≠ []) :
    ∃ tokens, Spells (Node.commaSeparated (parts.map text)).toList tokens ∧
      ∀ rest, Derives (.pairs (parts.map pair)) (tokens ++ rest) rest := by
  induction parts with
  | nil => exact absurd rfl hne
  | cons part parts ih =>
    obtain ⟨⟨tokens, tokens', hspells, hkey, hvalue⟩, hparts⟩ := List.forall_mem_cons.mp h
    cases parts with
    | nil =>
      refine ⟨tokens ++ sign .colon :: tokens', hspells, fun rest => ?_⟩
      rw [List.append_assoc, List.cons_append]
      exact .lastPair (hkey _) rfl (hvalue rest)
    | cons next parts =>
      obtain ⟨tokens'', hspells'', hderives''⟩ := ih hparts (List.cons_ne_nil next parts)
      refine ⟨tokens ++ sign .colon :: tokens' ++ sign .comma :: tokens'', ?_, ?_⟩
      · intro rest hrest
        rw [List.map_cons] at hspells'' ⊢
        simp only [List.map_cons, commaSeparated_cons, List.cons_append, List.append_assoc]
        rw [hspells _ (stops_mark ','), bareTokens_mark .comma ',', bareTokens_space, hspells'' _ hrest]
        simp only [List.cons_append, List.append_assoc]
      · intro rest
        simp only [List.cons_append, List.append_assoc]
        exact .pair (hkey _) rfl (hvalue _) rfl (hderives'' rest)

theorem shows_array (h : ∀ part ∈ parts, Shows (text part) (node part)) :
    ShowsAtom ("[" ++ Node.commaSeparated (parts.map text) ++ "]")
      (.array (sign .lbracket) (parts.map node)) := by
  obtain ⟨tokens, hspells, hderives⟩ := shows_list text node h .rbracket
  refine ⟨sign .lbracket :: (tokens ++ [sign .rbracket]), fun rest hrest => ?_, fun rest => ?_⟩
  · have htext : ("[" ++ Node.commaSeparated (parts.map text) ++ "]").toList =
        '[' :: ((Node.commaSeparated (parts.map text)).toList ++ [']']) := by simp
    simp only [htext, List.cons_append, List.append_assoc, List.nil_append]
    rw [bareTokens_mark .lbracket '[', hspells _ (stops_mark ']'), bareTokens_mark .rbracket ']']
  · simp only [List.cons_append, List.append_assoc, List.nil_append]
    exact .array rfl (hderives rest)

theorem shows_hash (h : ∀ part ∈ parts, ShowsPair (text part) (pair part)) :
    ShowsAtom ("\x7b" ++ Node.commaSeparated (parts.map text) ++ "\x7d")
      (.hash (sign .lbrace) (parts.map pair)) := by
  obtain ⟨tokens, hspells, hderives⟩ : ∃ tokens, Spells (Node.commaSeparated (parts.map text)).toList tokens ∧
      ∀ rest, Derives (.atom (.hash (sign .lbrace) (parts.map pair)))
        (sign .lbrace :: (tokens ++ sign .rbrace :: rest)) rest := by
    cases parts with
    | nil => exact ⟨[], fun _ _ => rfl, fun rest => .emptyHash rfl rfl⟩
    | cons part parts =>
      obtain ⟨tokens, hspells, hderives⟩ := shows_pairs text pair h (List.cons_ne_nil part parts)
      exact ⟨tokens, hspells, fun rest => .hash rfl (hderives _) rfl⟩
  refine ⟨sign .lbrace :: (tokens ++ [sign .rbrace]), fun rest hrest => ?_, fun rest => ?_⟩
  · have htext : ("\x7b" ++ Node.commaSeparated (parts.map text) ++ "\x7d").toList =
        '\x7b' :: ((Node.commaSeparated (parts.map text)).toList ++ ['\x7d']) := by simp
    simp only [htext, List.cons_append, List.append_assoc, List.nil_append]
    rw [bareTokens_mark .lbrace '\x7b', hspells _ (stops_mark '\x7d'), bareTokens_mark .rbrace '\x7d']
  · simp only [List.cons_append, List.append_assoc, List.nil_append]
    exact hderives rest

end

/-- The text of an expression is scanned as tokens that the expression is derived from. -/
structure Node.Renders (node : Node) : Prop where
  present : node.isMissing = false
  starts : ∃ c cs, node.text.toList = c :: cs ∧ c ≠ '='
  derived : ∃ tokens, Spells node.text.toList tokens ∧
    ∀ rest, Derives (.expression postfixTier node) (tokens ++ rest) rest

namespace Node.Renders

variable {node left right callee subscript : Node} {nodes : List Node} {entries : List (Node × Node)}
  {kind : TokenKind}

theorem spelled_eq (h : node.Renders) (text : String) : spelled node text = text := by
  rw [spelled, h.present]
  rfl

/-- A word that is an expression by itself. -/
theorem of_word {word : String} (hmissing : node.isMissing = false) (htext : node.text = word)
    (hword : Word word.toList) (hkind : Names word kind)
    (h : ∀ rest, Derives (.atom node) (⟨kind, word, 0, 0⟩ :: rest) rest) : node.Renders := by
  refine ⟨hmissing, htext ▸ word_starts hword, [⟨kind, word, 0, 0⟩], ?_, fun rest => .ofAtom (h rest)⟩
  intro rest hrest
  rw [htext, bareTokens_word hword hkind hrest]
  rfl

theorem identifier {name : String} (h : Name name) :
    (Node.identifier (.ofToken ⟨.ident, name, 0, 0⟩)).Renders :=
  of_word rfl rfl h.1 h.2 fun _ => .identifier rfl

theorem boolean (value : Bool) : (Node.boolean (truth value) value).Renders := by
  cases value with
  | true =>
    exact of_word rfl rfl (by decide) (.inl (by decide)) fun _ => .boolean rfl
  | false =>
    exact of_word rfl rfl (by decide) (.inl (by decide)) fun _ => .boolean rfl

theorem integer {literal : String} (hnumeral : IsNumeral literal) (hdigits : literal.length ≤ digitLimit)
    (hvalue : decimalValue literal ≤ valueLimit) :
    (Node.integer ⟨.int, literal, 0, 0⟩ (decimalValue literal)).Renders := by
  have hnumber : Number literal.toList := hnumeral
  obtain ⟨c, cs, hcs⟩ := List.exists_cons_of_ne_nil hnumber.1
  have hstart : c ≠ '=' := by
    rintro rfl
    exact absurd (hnumber.2 '=' (hcs ▸ List.mem_cons_self)) (by decide)
  refine ⟨rfl, ⟨c, cs, hcs, hstart⟩, [⟨.int, literal, 0, 0⟩], ?_, fun rest => ?_⟩
  · intro rest hrest
    have hlexes := lexes_number hnumber (hrest.mono fun _ => .inr)
    rw [String.ofList_toList] at hlexes
    exact bareTokens_token hlexes
  · exact .ofAtom (.integer rfl hnumeral hdigits hvalue)

/-- An expression in parentheses. -/
theorem grouped (tier : Nat) (htier : tier ≤ postfixTier) {tokens rest : List Token}
    (h : Derives (.expression tier node) tokens (sign .rparen :: rest)) :
    Derives (.expression postfixTier node) (sign .lparen :: tokens) rest :=
  .ofAtom (.group rfl (h.descend (Nat.zero_le _) htier) rfl)

theorem prefixed (hkind : kind = .bang ∨ kind = .minus) (hright : right.Renders) :
    (Node.prefixed (sign kind) kind.text right).Renders := by
  obtain ⟨c, cs, hc, hequal⟩ := hright.starts
  obtain ⟨tokens, hspells, hderives⟩ := hright.derived
  have hmem : kind ∈ operators := by
    rcases hkind with rfl | rfl <;> decide
  have htext : (Node.prefixed (sign kind) kind.text right).text.toList =
      '(' :: (kind.text.toList ++ (right.text.toList ++ [')'])) := by
    simp [Node.text]
  refine ⟨rfl, ⟨'(', _, htext, by decide⟩,
    sign .lparen :: sign kind :: (tokens ++ [sign .rparen]), ?_, ?_⟩
  · intro rest hrest
    have hequal : Stops (· = '=') (right.text.toList ++ ')' :: rest) := by
      rw [hc]
      exact stops_cons.mpr hequal
    simp only [htext, List.cons_append, List.append_assoc, List.nil_append]
    rw [bareTokens_mark .lparen '(', bareTokens_sign hmem fun _ => hequal,
      hspells _ (stops_mark ')'), bareTokens_mark .rparen ')']
  · intro rest
    simp only [List.cons_append, List.append_assoc, List.nil_append]
    exact grouped unaryTier (by decide) (.prefixed hkind (.loosen unaryTier (by decide) (hderives _)))

theorem binary {tier : Nat} (hkind : kind ∈ operatorsOf tier) (hleft : left.Renders)
    (hright : right.Renders) : (Node.binary (sign kind) left kind.text right).Renders := by
  obtain ⟨tokens, hspells, hderives⟩ := hleft.derived
  obtain ⟨tokens', hspells', hderives'⟩ := hright.derived
  obtain ⟨hmem, hlong⟩ := operatorsOf_mem hkind
  have htier : tier < unaryTier := (operatorsOf_spec hkind).1
  have htext : (Node.binary (sign kind) left kind.text right).text.toList =
      '(' :: (left.text.toList ++ ' ' :: (kind.text.toList ++ ' ' :: (right.text.toList ++ [')']))) := by
    simp [Node.text, hleft.spelled_eq]
  refine ⟨rfl, ⟨'(', _, htext, by decide⟩,
    sign .lparen :: (tokens ++ sign kind :: (tokens' ++ [sign .rparen])), ?_, ?_⟩
  · intro rest hrest
    simp only [htext, List.cons_append, List.append_assoc, List.nil_append]
    rw [bareTokens_mark .lparen '(', hspells _ (stops_mark ' '), bareTokens_space,
      bareTokens_sign hmem fun h => absurd h hlong, bareTokens_space, hspells' _ (stops_mark ')'),
      bareTokens_mark .rparen ')']
  · intro rest
    have hunary : unaryTier = 4 := rfl
    have hpostfix : postfixTier = 5 := rfl
    simp only [List.cons_append, List.append_assoc, List.nil_append]
    exact grouped tier (by omega) (.binary hkind (.loosen tier (by omega) (hderives _))
      (.loosen (tier + 1) (by omega) (hderives' _)))

theorem shows (h : node.Renders) : Shows node.text node := by
  obtain ⟨tokens, hspells, hderives⟩ := h.derived
  exact ⟨tokens, hspells, fun rest => .loosen 0 (by decide) (hderives rest)⟩

theorem memberTexts_eq (h : ∀ node ∈ nodes, node.Renders) : memberTexts nodes = nodes.map text := by
  induction nodes with
  | nil => rfl
  | cons node nodes ih =>
    obtain ⟨hnode, hnodes⟩ := List.forall_mem_cons.mp h
    rw [memberTexts, hnode.spelled_eq, ih hnodes, List.map_cons]

/-- Expressions with commas between them, and a closing bracket behind. -/
theorem list (h : ∀ node ∈ nodes, node.Renders) (last : TokenKind) :
    ∃ tokens, Spells (commaSeparated (memberTexts nodes)).toList tokens ∧
      ∀ rest, Derives (.list last nodes) (tokens ++ sign last :: rest) rest := by
  have hlist := shows_list Node.text id (fun node hnode => (h node hnode).shows) last
  rwa [List.map_id, ← memberTexts_eq h] at hlist

theorem call (hcallee : callee.Renders) (h : ∀ node ∈ nodes, node.Renders) :
    (Node.call (sign .lparen) callee nodes).Renders := by
  obtain ⟨c, cs, hc, hequal⟩ := hcallee.starts
  obtain ⟨tokens, hspells, hderives⟩ := hcallee.derived
  obtain ⟨tokens', hspells', hderives'⟩ := list h .rparen
  have htext : (Node.call (sign .lparen) callee nodes).text.toList =
      callee.text.toList ++ '(' :: ((commaSeparated (memberTexts nodes)).toList ++ [')']) := by
    simp [Node.text, hcallee.spelled_eq]
  refine ⟨rfl, ⟨c, _, by rw [htext, hc]; rfl, hequal⟩,
    tokens ++ sign .lparen :: (tokens' ++ [sign .rparen]), ?_, ?_⟩
  · intro rest hrest
    simp only [htext, List.cons_append, List.append_assoc, List.nil_append]
    rw [hspells _ (stops_mark '('), bareTokens_mark .lparen '(', hspells' _ (stops_mark ')'),
      bareTokens_mark .rparen ')']
  · intro rest
    simp only [List.cons_append, List.append_assoc, List.nil_append]
    exact .call rfl (hderives _) (hderives' rest)

/-- An atom that does not start like an operator. -/
theorem of_atom (hmissing : node.isMissing = false) (hstarts : ∃ c cs, node.text.toList = c :: cs ∧ c ≠ '=')
    (h : ShowsAtom node.text node) : node.Renders := by
  obtain ⟨tokens, hspells, hderives⟩ := h
  exact ⟨hmissing, hstarts, tokens, hspells, fun rest => .ofAtom (hderives rest)⟩

theorem array (h : ∀ node ∈ nodes, node.Renders) : (Node.array (sign .lbracket) nodes).Renders := by
  have hshows := shows_array Node.text id fun node hnode => (h node hnode).shows
  rw [List.map_id, ← memberTexts_eq h] at hshows
  refine of_atom rfl ⟨'[', (commaSeparated (memberTexts nodes)).toList ++ [']'], ?_, by decide⟩ hshows
  simp [Node.text]

theorem index (hleft : left.Renders) (hsubscript : subscript.Renders) :
    (Node.index (sign .lbracket) left subscript).Renders := by
  obtain ⟨tokens, hspells, hderives⟩ := hleft.derived
  obtain ⟨tokens', hspells', hderives'⟩ := hsubscript.derived
  have htext : (Node.index (sign .lbracket) left subscript).text.toList =
      '(' :: (left.text.toList ++ '[' :: (subscript.text.toList ++ [']', ')'])) := by
    simp [Node.text, hleft.spelled_eq]
  refine ⟨rfl, ⟨'(', _, htext, by decide⟩,
    sign .lparen :: (tokens ++ sign .lbracket :: (tokens' ++ [sign .rbracket, sign .rparen])), ?_, ?_⟩
  · intro rest hrest
    simp only [htext, List.cons_append, List.append_assoc, List.nil_append]
    rw [bareTokens_mark .lparen '(', hspells _ (stops_mark '['), bareTokens_mark .lbracket '[',
      hspells' _ (stops_mark ']'), bareTokens_mark .rbracket ']', bareTokens_mark .rparen ')']
  · intro rest
    simp only [List.cons_append, List.append_assoc, List.nil_append]
    exact grouped postfixTier (Nat.le_refl _)
      (.index rfl (hderives _) (.loosen 0 (by decide) (hderives' _)) rfl)

/-- The text of a pair in a hash. -/
def pairText (pair : Node × Node) : String :=
  pair.1.text ++ ":" ++ pair.2.text

theorem pairTexts_eq (hkeys : ∀ pair ∈ entries, pair.1.Renders)
    (hvalues : ∀ pair ∈ entries, pair.2.Renders) : pairTexts entries = entries.map pairText := by
  induction entries with
  | nil => rfl
  | cons pair entries ih =>
    obtain ⟨hkey, hkeys⟩ := List.forall_mem_cons.mp hkeys
    obtain ⟨hvalue, hvalues⟩ := List.forall_mem_cons.mp hvalues
    rw [pairTexts, hkey.spelled_eq, hvalue.spelled_eq, ih hkeys hvalues]
    rfl

theorem showsPair {pair : Node × Node} (hkey : pair.1.Renders) (hvalue : pair.2.Renders) :
    ShowsPair (pairText pair) pair := by
  obtain ⟨tokens, hspells, hderives⟩ := hkey.shows
  obtain ⟨tokens', hspells', hderives'⟩ := hvalue.shows
  refine ⟨tokens, tokens', ?_, hderives, hderives'⟩
  intro rest hrest
  have htext : (pairText pair).toList = pair.1.text.toList ++ ':' :: pair.2.text.toList := by
    simp [pairText]
  simp only [htext, List.cons_append, List.append_assoc]
  rw [hspells _ (stops_mark ':'), bareTokens_mark .colon ':', hspells' _ hrest]

theorem hash (hkeys : ∀ pair ∈ entries, pair.1.Renders) (hvalues : ∀ pair ∈ entries, pair.2.Renders) :
    (Node.hash (sign .lbrace) entries).Renders := by
  have hshows := shows_hash pairText id fun pair hpair => showsPair (hkeys pair hpair) (hvalues pair hpair)
  rw [List.map_id, ← pairTexts_eq hkeys hvalues] at hshows
  refine of_atom rfl ⟨'\x7b', (commaSeparated (pairTexts entries)).toList ++ ['\x7d'], ?_, by decide⟩ hshows
  simp [Node.text]

end Node.Renders

theorem Readable.renders {node : Node} (h : Readable node) : node.Renders := by
  induction h with
  | identifier hname => exact .identifier hname
  | integer hnumeral hdigits hvalue => exact .integer hnumeral hdigits hvalue
  | boolean value => exact .boolean value
  | prefixed hkind _ ih => exact .prefixed hkind ih
  | binary hkind _ _ ihleft ihright => exact .binary hkind ihleft ihright
  | call _ _ ihcallee iharguments => exact .call ihcallee iharguments
  | array _ ih => exact .array ih
  | index _ _ ihleft ihsubscript => exact .index ihleft ihsubscript
  | hash _ _ ihkeys ihvalues => exact .hash ihkeys ihvalues

/-! ### Programs -/

theorem bareTokens_equals (rest : List Char) :
    bareTokens ('=' :: ' ' :: rest) = sign .assign :: bareTokens rest := by
  have hsign : bareTokens (TokenKind.assign.text.toList ++ ' ' :: rest) = _ :=
    bareTokens_sign (by decide) fun _ => stops_cons.mpr (by decide)
  rw [← bareTokens_space rest]
  exact hsign

/-- A text that shows an expression is a program of one statement. -/
theorem Shows.program {text : String} {node : Node} (h : Shows text node) :
    ∃ first, Program (bareTokens text.toList) [.expressionStatement first node] := by
  obtain ⟨tokens, hspells, hderives⟩ := h
  have htokens : bareTokens text.toList = tokens := by
    have hend := hspells [] (stops_nil _)
    rwa [List.append_nil, bareTokens_nil, List.append_nil] at hend
  have hwhole := hderives []
  rw [List.append_nil] at hwhole
  obtain ⟨first, behind, rfl, -⟩ := hwhole.starts
  rw [htokens]
  exact ⟨first, .statements (.expressionStatement hwhole (.inr ⟨rfl, by simp⟩)) .noStatements⟩

/-- The text of a program is scanned as tokens that statements of the same text and the same labelled tree
    are derived from. -/
theorem ReadableProgram.renders {nodes : List Node} (h : ReadableProgram nodes) :
    ∃ nodes', Program (bareTokens (Node.program nodes).text.toList) nodes' ∧
      Node.trees nodes' = Node.trees nodes ∧ Node.memberTexts nodes' = Node.memberTexts nodes := by
  induction h with
  | nil => exact ⟨[], .noStatements, rfl, rfl⟩
  | @expressionStatement first expression h =>
    have htext : (Node.program [.expressionStatement first expression]).text = expression.text := by
      simp [Node.text, Node.memberTexts, Node.spelled, Node.isMissing]
    obtain ⟨start, hprogram⟩ := h.renders.shows.program
    exact ⟨[.expressionStatement start expression], htext ▸ hprogram, rfl, rfl⟩
  | @letStatement name value rest hname hvalue _ ih =>
    obtain ⟨tokens, hspells, hderives⟩ := hvalue.renders.derived
    obtain ⟨nodes', hprogram, htrees, htexts⟩ := ih
    have hlet : Word "let".toList ∧ Names "let" .letKw := ⟨by decide, .inl (by decide)⟩
    have htext : (Node.program (.letStatement ⟨.letKw, "let", 0, 0⟩ (.ofToken ⟨.ident, name, 0, 0⟩) value
        :: rest)).text.toList = "let".toList ++ ' ' :: (name.toList ++ ' ' :: '=' :: ' ' ::
          (value.text.toList ++ ';' :: (Node.program rest).text.toList)) := by
      simp [Node.text, Node.memberTexts, Node.spelled, Node.isMissing, Identifier.ofToken]
    refine ⟨_ :: nodes', ?_, congrArg (_ :: ·) htrees, congrArg (_ :: ·) htexts⟩
    rw [htext, bareTokens_word hlet.1 hlet.2 (stops_mark ' '), bareTokens_space,
      bareTokens_word hname.1 hname.2 (stops_mark ' '), bareTokens_space, bareTokens_equals,
      hspells _ (stops_mark ';'), bareTokens_mark .semicolon ';']
    exact .statements (.letStatement rfl rfl rfl (.loosen 0 (by decide) (hderives _))
      (.inl ⟨_, rfl, rfl⟩)) hprogram
  | @returnStatement value rest hvalue _ ih =>
    obtain ⟨tokens, hspells, hderives⟩ := hvalue.renders.derived
    obtain ⟨nodes', hprogram, htrees, htexts⟩ := ih
    have hreturn : Word "return".toList ∧ Names "return" .returnKw := ⟨by decide, .inl (by decide)⟩
    have htext : (Node.program (.returnStatement ⟨.returnKw, "return", 0, 0⟩ value
        :: rest)).text.toList = "return".toList ++ ' ' ::
          (value.text.toList ++ ';' :: (Node.program rest).text.toList) := by
      simp [Node.text, Node.memberTexts, Node.spelled, Node.isMissing]
    refine ⟨_ :: nodes', ?_, congrArg (_ :: ·) htrees, congrArg (_ :: ·) htexts⟩
    rw [htext, bareTokens_word hreturn.1 hreturn.2 (stops_mark ' '), bareTokens_space,
      hspells _ (stops_mark ';'), bareTokens_mark .semicolon ';']
    exact .statements (.returnStatement rfl (.loosen 0 (by decide) (hderives _))
      (.inl ⟨_, rfl, rfl⟩)) hprogram

/-- The text of a program that was read without errors is read without errors too, and as a program with
    the same labelled tree and the same text, if its expressions are plain and it has an expression
    statement at its end only. -/
theorem parse_text (source : String) (herrors : (parse source).errors = [])
    (hplain : Node.isPlainProgram (parse source).statements = true) :
    (parse (parse source).program.text).errors = [] ∧
      (parse (parse source).program.text).program.tree = (parse source).program.tree ∧
      (parse (parse source).program.text).program.text = (parse source).program.text := by
  -- without places, the program is one that can be read again
  have hprogram := (program_bareTokens_iff source _).mpr ⟨herrors, rfl⟩
  have hreadable : ReadableProgram (bareNodes (parse source).statements) :=
    hprogram.readable (fun token => spans_of_mem_bareTokens) ((Node.isPlainProgram_relabel _).trans hplain)
  obtain ⟨nodes, hagain, htrees, htexts⟩ := hreadable.renders
  rw [text_bareNodes] at hagain
  obtain ⟨herrors', hnodes⟩ := (program_bareTokens_iff _ _).mp hagain
  refine ⟨herrors', ?_, ?_⟩
  · calc (parse (parse source).program.text).program.tree
        = (Node.program nodes).tree := by rw [← hnodes, tree_bareNodes]; rfl
      _ = (Node.program (bareNodes (parse source).statements)).tree := by rw [Node.tree, htrees, Node.tree]
      _ = (parse source).program.tree := tree_bareNodes _
  · calc (parse (parse source).program.text).program.text
        = (Node.program nodes).text := by rw [← hnodes, text_bareNodes]; rfl
      _ = (Node.program (bareNodes (parse source).statements)).text := by rw [Node.text, htexts, Node.text]
      _ = (parse source).program.text := text_bareNodes _

theorem parse_text_nested :
    let source := "let a = [1, -b]; return !(a == c)\n\x7b1: f(a)[0] + 2 * x, y: true\x7d[k](1 < 2)"
    let parsed := parse source
    parsed.errors = [] ∧ Node.isPlainProgram parsed.statements = true ∧
      (parse parsed.program.text).errors = [] ∧
      (parse parsed.program.text).program.tree = parsed.program.tree ∧
      (parse parsed.program.text).program.text = parsed.program.text := by
  intro source parsed
  have herrors : parsed.errors = [] := by decide +kernel
  have hplain : Node.isPlainProgram parsed.statements = true := by decide +kernel
  exact ⟨herrors, hplain, parse_text source herrors hplain⟩

end Monkey
