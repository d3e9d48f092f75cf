import Monkey.Proofs.Grammar.Places

/-!
# Expressions that can be read again

The expressions that `Node.isPlain` admits show in their text all that they were read from, but for
parentheses and commas. If they were read from a text, the words, numerals and signs they hold are some
that the scanner finds again where the text shows them: `Readable` says so of a tree without places, and
`Derives.readable` derives it from the tokens that the tree stands for.
-/

namespace Monkey

open Grammar Lexical

namespace Node

mutual

/-- An expression built of names, integers, truth values, operators, calls, indices, arrays and hashes. -/
def isPlain : Node → Bool
  | .identifier _ | .integer .. | .boolean .. => true
  | .prefixed _ _ right => right.isPlain
  | .binary _ left _ right => left.isPlain && right.isPlain
  | .call _ callee arguments => callee.isPlain && allPlain arguments
  | .array _ elements => allPlain elements
  | .index _ left subscript => left.isPlain && subscript.isPlain
  | .hash _ pairs => allPlainPairs pairs
  | _ => false

def allPlain : List Node → Bool
  | [] => true
  | node :: rest => node.isPlain && allPlain rest

def allPlainPairs : List (Node × Node) → Bool
  | [] => true
  | (key, value) :: rest => key.isPlain && value.isPlain && allPlainPairs rest

end

/-- Statements that bind or return plain values, the last of which may be a plain expression instead. -/
def isPlainProgram : List Node → Bool
  | [] => true
  | .letStatement _ _ value :: rest | .returnStatement _ value :: rest =>
    value.isPlain && isPlainProgram rest
  | .expressionStatement _ expression :: rest => expression.isPlain && rest.isEmpty
  | _ => false

section

variable {r : Relabeling}

mutual

theorem isPlain_relabel (node : Node) : (node.relabel r).isPlain = node.isPlain := by
  cases node with
  | prefixed _ _ right => simp only [relabel, isPlain, isPlain_relabel right]
  | binary _ left _ right => simp only [relabel, isPlain, isPlain_relabel left, isPlain_relabel right]
  | call _ callee arguments =>
    simp only [relabel, isPlain, isPlain_relabel callee, allPlain_relabel arguments]
  | array _ elements => simp only [relabel, isPlain, allPlain_relabel elements]
  | index _ left subscript =>
    simp only [relabel, isPlain, isPlain_relabel left, isPlain_relabel subscript]
  | hash _ pairs => simp only [relabel, isPlain, allPlainPairs_relabel pairs]
  | _ => rfl

theorem allPlain_relabel (nodes : List Node) : allPlain (relabelAll r nodes) = allPlain nodes := by
  match nodes with
  | [] => rfl
  | node :: rest => simp only [relabelAll, allPlain, isPlain_relabel node, allPlain_relabel rest]

theorem allPlainPairs_relabel (pairs : List (Node × Node)) :
    allPlainPairs (relabelPairs r pairs) = allPlainPairs pairs := by
  match pairs with
  | [] => rfl
  | (key, value) :: rest =>
    simp only [relabelPairs, allPlainPairs, isPlain_relabel key, isPlain_relabel value,
      allPlainPairs_relabel rest]

end

theorem isPlainProgram_relabel (nodes : List Node) :
    isPlainProgram (relabelAll r nodes) = isPlainProgram nodes := by
  induction nodes with
  | nil => rfl
  | cons node rest ih =>
    cases node <;> simp only [relabelAll, relabel, isPlainProgram, isPlain_relabel, ih]
    cases rest <;> rfl

theorem allPlain_iff {nodes : List Node} : allPlain nodes = true ↔ ∀ node ∈ nodes, node.isPlain = true := by
  induction nodes with
  | nil => simp [allPlain]
  | cons node rest ih => simp [allPlain, ih]

theorem allPlainPairs_iff {pairs : List (Node × Node)} : allPlainPairs pairs = true ↔
    ∀ pair ∈ pairs, pair.1.isPlain = true ∧ pair.2.isPlain = true := by
  induction pairs with
  | nil => simp [allPlainPairs]
  | cons pair rest ih => simp [allPlainPairs, ih]

end

end Node

/-! ### Tokens that are scanned as they are spelled -/

/-- A text that a name can have. -/
def Name (text : String) : Prop :=
  Word text.toList ∧ Names text .ident

/-- The token of an operator or a delimiter. -/
def sign (kind : TokenKind) : Token :=
  ⟨kind, kind.text, 0, 0⟩

namespace Lexical

variable {kind : TokenKind} {literal word : String} {before span rest : List Char}

theorem Names.not_operator (h : Names word kind) : kind ∉ operators := by
  have hwords : ∀ entry ∈ keywords, entry.2 ∉ operators := by decide
  rcases h with hmem | ⟨rfl, -⟩
  · exact hwords _ hmem
  · decide

theorem Spans.literal_of_sign (h : Spans before kind literal span rest) (hkind : kind ∈ operators) :
    literal = kind.text := by
  cases h with
  | sign => rfl
  | word _ hnames => exact absurd hkind hnames.not_operator
  | number | string | openString | illegal => exact absurd hkind (by decide)

theorem Spans.name (h : Spans before .ident literal span rest) : Name literal := by
  cases h with
  | word hfull hnames => exact ⟨String.toList_ofList.symm ▸ hfull.holds, hnames⟩
  | sign hkind => exact absurd hkind (by decide)

theorem Spans.literal_of_keyword (h : Spans before kind literal span rest)
    (hmem : (word, kind) ∈ keywords) : literal = word := by
  have hunique : ∀ entry ∈ keywords, ∀ entry' ∈ keywords, entry.2 = entry'.2 → entry = entry' := by
    decide
  have hkind : kind ∉ [.illegal, .ident, .int, .string] ++ operators := by
    have hkinds : ∀ entry ∈ keywords, entry.2 ∉ [.illegal, .ident, .int, .string] ++ operators := by
      decide
    exact hkinds _ hmem
  cases h with
  | word _ hnames =>
    rcases hnames with hmem' | ⟨rfl, -⟩
    · exact (Prod.mk.inj (hunique _ hmem _ hmem' rfl)).1.symm
    · exact absurd hkind (by decide)
  | sign hsign => exact absurd (List.mem_append_right _ hsign) hkind
  | number | string | openString | illegal => exact absurd hkind (by decide)

end Lexical

/-- A token without a place that a text can have. -/
def Bare (token : Token) : Prop :=
  ∃ kind literal span rest, Spans [] kind literal span rest ∧ token = ⟨kind, literal, 0, 0⟩

variable {token : Token}

theorem Bare.eq_sign (h : Bare token) (hkind : token.kind ∈ operators) : token = sign token.kind := by
  obtain ⟨kind, literal, span, rest, hspan, rfl⟩ := h
  rw [hspan.literal_of_sign hkind, sign]

theorem Bare.eq_name (h : Bare token) (hkind : token.kind = .ident) :
    ∃ name, token = ⟨.ident, name, 0, 0⟩ ∧ Name name := by
  obtain ⟨kind, literal, span, rest, hspan, rfl⟩ := h
  cases hkind
  exact ⟨literal, rfl, hspan.name⟩

theorem Bare.eq_keyword (h : Bare token) (word : String) {kind : TokenKind} (hkind : token.kind = kind)
    (hmem : (word, kind) ∈ keywords) : token = ⟨kind, word, 0, 0⟩ := by
  obtain ⟨kind, literal, span, rest, hspan, rfl⟩ := h
  cases hkind
  rw [hspan.literal_of_keyword hmem]

/-! ### Expressions that can be read again -/

def truth (value : Bool) : Token :=
  if value then ⟨.trueKw, "true", 0, 0⟩ else ⟨.falseKw, "false", 0, 0⟩

/-- An expression that shows all of its tokens in its text, but for parentheses and commas: names, signs
    and numerals are spelled as the scanner finds them. -/
inductive Readable : Node → Prop where
  | identifier {name} (hname : Name name) : Readable (.identifier (.ofToken ⟨.ident, name, 0, 0⟩))
  | integer {literal} (hnumeral : IsNumeral literal) (hdigits : literal.length ≤ digitLimit)
      (hvalue : decimalValue literal ≤ valueLimit) :
      Readable (.integer ⟨.int, literal, 0, 0⟩ (decimalValue literal))
  | boolean (value : Bool) : Readable (.boolean (truth value) value)
  | prefixed {kind right} (hkind : kind = .bang ∨ kind = .minus) (hright : Readable right) :
      Readable (.prefixed (sign kind) kind.text right)
  | binary {tier kind left right} (hkind : kind ∈ operatorsOf tier) (hleft : Readable left)
      (hright : Readable right) : Readable (.binary (sign kind) left kind.text right)
  | call {callee arguments} (hcallee : Readable callee)
      (harguments : ∀ node ∈ arguments, Readable node) :
      Readable (.call (sign .lparen) callee arguments)
  | array {elements} (helements : ∀ node ∈ elements, Readable node) :
      Readable (.array (sign .lbracket) elements)
  | index {left subscript} (hleft : Readable left) (hsubscript : Readable subscript) :
      Readable (.index (sign .lbracket) left subscript)
  | hash {pairs} (hkeys : ∀ pair ∈ pairs, Readable pair.1) (hvalues : ∀ pair ∈ pairs, Readable pair.2) :
      Readable (.hash (sign .lbrace) pairs)

/-- Statements that bind or return such values, or end with such an expression. -/
inductive ReadableProgram : List Node → Prop where
  | nil : ReadableProgram []
  | expressionStatement {first expression} (h : Readable expression) :
      ReadableProgram [.expressionStatement first expression]
  | letStatement {name value rest} (hname : Name name) (hvalue : Readable value)
      (hrest : ReadableProgram rest) :
      ReadableProgram (.letStatement ⟨.letKw, "let", 0, 0⟩ (.ofToken ⟨.ident, name, 0, 0⟩) value :: rest)
  | returnStatement {value rest} (hvalue : Readable value) (hrest : ReadableProgram rest) :
      ReadableProgram (.returnStatement ⟨.returnKw, "return", 0, 0⟩ value :: rest)

/-- What the parts of a phrase are if they are plain. -/
def Grammar.Phrase.PlainReadable : Phrase → Prop
  | .expression _ node | .atom node => node.isPlain = true → Readable node
  | .items nodes | .list _ nodes => ∀ node ∈ nodes, node.isPlain = true → Readable node
  | .pairs entries => ∀ pair ∈ entries, (pair.1.isPlain = true → Readable pair.1) ∧
      (pair.2.isPlain = true → Readable pair.2)
  | .statement node => ∀ rest, (Node.isPlainProgram rest = true → ReadableProgram rest) →
      Node.isPlainProgram (node :: rest) = true → ReadableProgram (node :: rest)
  | .statements nodes => Node.isPlainProgram nodes = true → ReadableProgram nodes
  | _ => True

namespace Grammar

theorem operatorsOf_mem {tier : Nat} {kind : TokenKind} (h : kind ∈ operatorsOf tier) :
    kind ∈ operators ∧ ¬ (kind = .assign ∨ kind = .bang) := by
  have hall : ∀ tier < unaryTier, ∀ kind ∈ operatorsOf tier,
      kind ∈ operators ∧ ¬ (kind = .assign ∨ kind = .bang) := by decide
  exact hall tier (operatorsOf_spec h).1 kind h

theorem Derives.readable {phrase : Phrase} {tokens rest : List Token} (h : Derives phrase tokens rest)
    (htokens : ∀ token ∈ tokens, Bare token) : phrase.PlainReadable := by
  have hbehind {token : Token} {tokens rest : List Token} (htokens : ∀ token ∈ tokens, Bare token)
      (h : token :: rest <:+ tokens) : Bare token ∧ ∀ token ∈ rest, Bare token :=
    List.forall_mem_cons.mp fun token htoken => htokens token (h.subset htoken)
  induction h with
  | climb _ _ ih | ofAtom _ ih => exact ih htokens
  | binary hoperator hleft _ ihleft ihright =>
    intro hplain
    simp only [Node.isPlain, Bool.and_eq_true] at hplain
    obtain ⟨hsign, hmiddle⟩ := hbehind htokens hleft.suffix
    rw [hsign.eq_sign (operatorsOf_mem hoperator).1]
    exact .binary hoperator (ihleft htokens hplain.1) (ihright hmiddle hplain.2)
  | prefixed hoperator _ ih =>
    intro hplain
    obtain ⟨hsign, htokens⟩ := List.forall_mem_cons.mp htokens
    have hmem : ∀ kind, kind = .bang ∨ kind = .minus → kind ∈ operators := by
      rintro _ (rfl | rfl) <;> decide
    rw [hsign.eq_sign (hmem _ hoperator)]
    exact .prefixed hoperator (ih htokens hplain)
  | call hbracket hcallee _ ihcallee iharguments =>
    intro hplain
    simp only [Node.isPlain, Bool.and_eq_true, Node.allPlain_iff] at hplain
    obtain ⟨hsign, hmiddle⟩ := hbehind htokens hcallee.suffix
    rw [hsign.eq_sign (hbracket ▸ by decide), hbracket]
    exact .call (ihcallee htokens hplain.1) fun node hnode =>
      iharguments hmiddle node hnode (hplain.2 node hnode)
  | index hbracket hleft _ _ ihleft ihsubscript =>
    intro hplain
    simp only [Node.isPlain, Bool.and_eq_true] at hplain
    obtain ⟨hsign, hmiddle⟩ := hbehind htokens hleft.suffix
    rw [hsign.eq_sign (hbracket ▸ by decide), hbracket]
    exact .index (ihleft htokens hplain.1) (ihsubscript hmiddle hplain.2)
  | identifier htoken =>
    intro _
    obtain ⟨name, rfl, hname⟩ := (htokens _ List.mem_cons_self).eq_name htoken
    exact .identifier hname
  | integer htoken hnumeral hdigits hvalue =>
    intro _
    obtain ⟨kind, literal, span, rest, hspan, rfl⟩ := htokens _ List.mem_cons_self
    cases htoken
    exact .integer hnumeral hdigits hvalue
  | @boolean token value rest htoken =>
    intro _
    have hbare := htokens _ List.mem_cons_self
    cases value with
    | true =>
      rw [hbare.eq_keyword "true" htoken (by decide)]
      exact .boolean true
    | false =>
      rw [hbare.eq_keyword "false" htoken (by decide)]
      exact .boolean false
  | string | conditional | conditionalElse | function => exact fun hplain => nomatch hplain
  | group _ _ _ ih => exact ih (List.forall_mem_cons.mp htokens).2
  | array hbracket _ ih =>
    intro hplain
    obtain ⟨hsign, htokens⟩ := List.forall_mem_cons.mp htokens
    rw [hsign.eq_sign (hbracket ▸ by decide), hbracket]
    exact .array fun node hnode => ih htokens node hnode (Node.allPlain_iff.mp hplain node hnode)
  | emptyHash hbrace =>
    intro _
    obtain ⟨hsign, -⟩ := List.forall_mem_cons.mp htokens
    rw [hsign.eq_sign (hbrace ▸ by decide), hbrace]
    exact .hash (by simp) (by simp)
  | hash hbrace _ _ ih =>
    intro hplain
    obtain ⟨hsign, htokens⟩ := List.forall_mem_cons.mp htokens
    have hpairs := Node.allPlainPairs_iff.mp hplain
    rw [hsign.eq_sign (hbrace ▸ by decide), hbrace]
    exact .hash (fun pair hpair => (ih htokens pair hpair).1 (hpairs pair hpair).1)
      fun pair hpair => (ih htokens pair hpair).2 (hpairs pair hpair).2
  | emptyList => exact fun _ hnode => nomatch hnode
  | ofItems _ _ ih => exact ih htokens
  | lastItem _ ih =>
    intro node hnode
    cases List.mem_singleton.mp hnode
    exact ih htokens
  | item hnode _ _ ihnode ihnodes =>
    exact List.forall_mem_cons.mpr ⟨ihnode htokens, ihnodes (hbehind htokens hnode.suffix).2⟩
  | noParameters | ofNames | lastName | name | block | openBlock => trivial
  | lastPair hkey _ _ ihkey ihvalue =>
    intro pair hpair
    cases List.mem_singleton.mp hpair
    exact ⟨ihkey htokens, ihvalue (hbehind htokens hkey.suffix).2⟩
  | pair hkey _ hvalue _ _ ihkey ihvalue ihpairs =>
    have hmiddle := (hbehind htokens hkey.suffix).2
    exact List.forall_mem_cons.mpr ⟨⟨ihkey htokens, ihvalue hmiddle⟩,
      ihpairs (hbehind hmiddle hvalue.suffix).2⟩
  | letStatement hkeyword htarget _ _ _ ih =>
    intro rest hrest hplain
    simp only [List.forall_mem_cons] at htokens
    obtain ⟨hbare, hbare', -, hvalue⟩ := htokens
    simp only [Node.isPlainProgram, Bool.and_eq_true] at hplain
    obtain ⟨name, rfl, hname⟩ := hbare'.eq_name htarget
    rw [hbare.eq_keyword "let" hkeyword (by decide)]
    exact .letStatement hname (ih hvalue hplain.1) (hrest hplain.2)
  | returnStatement hkeyword _ _ ih =>
    intro rest hrest hplain
    obtain ⟨hbare, hvalue⟩ := List.forall_mem_cons.mp htokens
    simp only [Node.isPlainProgram, Bool.and_eq_true] at hplain
    rw [hbare.eq_keyword "return" hkeyword (by decide)]
    exact .returnStatement (ih hvalue hplain.1) (hrest hplain.2)
  | expressionStatement _ _ ih =>
    intro rest _ hplain
    simp only [Node.isPlainProgram, Bool.and_eq_true, List.isEmpty_iff] at hplain
    obtain ⟨hplain, rfl⟩ := hplain
    exact .expressionStatement (ih htokens hplain)
  | noStatements => exact fun _ => .nil
  | statements hnode _ ihnode ihnodes =>
    have hmiddle : ∀ token ∈ _, Bare token := fun token htoken =>
      htokens token (hnode.suffix.subset htoken)
    exact ihnode htokens _ (ihnodes hmiddle)

end Grammar

end Monkey
