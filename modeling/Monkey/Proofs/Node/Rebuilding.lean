import Monkey.Proofs.Parser.Whole
import Monkey.Proofs.Value.Content

/-!
# The labelled tree determines the program

The labelled tree of a program leaves out most of its tokens, among them all parentheses around expressions,
and it tells names, literals and constructs apart by words. Nothing that matters gets lost: from the labelled
tree of a program that was parsed without errors the program can be built again (`Tree.node`), all but the
tokens that show nowhere (`Relabeling.shape`). So programs with the same labelled tree have the same text,
and evaluating them cannot tell them apart.
-/

namespace Monkey

open Grammar Lexical

/-! ### Building a program again -/

/-- The token of a node that does not keep its own. -/
def Token.blank : Token :=
  ⟨.eof, "", 0, 0⟩

/-- The change of tokens that keeps kind and literal where the literal shows, and nothing elsewhere. -/
def Relabeling.shape : Relabeling :=
  ⟨Relocation.forget.move, fun _ => .blank, fun _ => rfl⟩

namespace Tree

def identifier : Tree → Identifier
  | .leaf _ text => ⟨.blank, text⟩
  | .branch .. => ⟨.blank, ""⟩

mutual

/-- The syntax tree that has a given labelled tree. -/
def node : Tree → Node
  | .leaf "INT" text => .integer ⟨.int, text, 0, 0⟩ (decimalValue text)
  | .leaf "STRING" text => .string ⟨.string, text, 0, 0⟩ text
  | .leaf "TRUE" text => .boolean ⟨.trueKw, text, 0, 0⟩ true
  | .leaf "FALSE" text => .boolean ⟨.falseKw, text, 0, 0⟩ false
  | .leaf _ text => .identifier ⟨.blank, text⟩
  | .branch "let" [target, value] => .letStatement ⟨.letKw, "let", 0, 0⟩ target.identifier value.node
  | .branch "return" [value] => .returnStatement ⟨.returnKw, "return", 0, 0⟩ value.node
  | .branch "expr" [expression] => .expressionStatement .blank expression.node
  | .branch "program" statements => .program (nodes statements)
  | .branch "block" statements => .block .blank (nodes statements)
  | .branch "prefix" [.leaf _ operator, right] => .prefixed .blank operator right.node
  | .branch "infix" [left, .leaf _ operator, right] => .binary .blank left.node operator right.node
  | .branch "if" [condition, consequence] =>
    .conditional .blank condition.node consequence.node .missing
  | .branch "if" [condition, consequence, alternative] =>
    .conditional .blank condition.node consequence.node alternative.node
  | .branch "fn" [.branch _ parameters, body] =>
    .function ⟨.functionKw, "fn", 0, 0⟩ (parameters.map identifier) body.node
  | .branch "call" [callee, .branch _ arguments] => .call .blank callee.node (nodes arguments)
  | .branch "array" elements => .array .blank (nodes elements)
  | .branch "index" [left, subscript] => .index .blank left.node subscript.node
  | .branch "hash" entries => .hash .blank (pairs entries)
  | _ => .missing

def nodes : List Tree → List Node
  | [] => []
  | tree :: rest => tree.node :: nodes rest

def pairs : List Tree → List (Node × Node)
  | .branch _ [key, value] :: rest => (key.node, value.node) :: pairs rest
  | _ => []

end

end Tree

/-! ### Programs are built again -/

/-- A keyword is spelled as the table has it. -/
theorem Token.Possible.move_keyword {token : Token} (h : token.Possible) (word : String) {kind : TokenKind}
    (hkind : token.kind = kind) (hmem : (word, kind) ∈ keywords) :
    Relabeling.shape.shown token = ⟨kind, word, 0, 0⟩ := by
  obtain ⟨span, rest, hspan⟩ := h
  have hliteral : token.literal = word := hspan.literal_of_keyword (hkind ▸ hmem)
  rw [← hkind, ← hliteral]
  rfl

theorem Tree.identifiers_nameLeaf (names : List Identifier) :
    (names.map Node.nameLeaf).map Tree.identifier =
      names.map (Identifier.relabel Relabeling.shape.hidden) := by
  rw [List.map_map]
  rfl

namespace Grammar

/-- The nodes that a phrase stands for are built again from their labelled trees. -/
def Phrase.Rebuilt : Phrase → Prop
  | .expression _ node | .atom node | .statement node | .block node => node.tree.node = node.relabel .shape
  | .items nodes | .list _ nodes | .statements nodes =>
    Tree.nodes (Node.trees nodes) = Node.relabelAll .shape nodes
  | .pairs entries => Tree.pairs (Node.pairTrees entries) = Node.relabelPairs .shape entries
  | .names _ | .parameters _ => True

variable {phrase : Phrase} {tokens rest : List Token}

theorem Derives.not_missing {node : Node} (h : Derives (.block node) tokens rest) :
    node.isMissing = false := by
  cases h <;> rfl

/-- A program is built again from its labelled tree. Of its tokens only the keywords matter: `let`, `return`
    and `fn` show in the text of their nodes and are not in the labelled tree. -/
theorem Derives.rebuilt (h : Derives phrase tokens rest) (htokens : ∀ token ∈ tokens, token.Possible) :
    phrase.Rebuilt := by
  have hbehind {token : Token} {tokens rest : List Token} (htokens : ∀ token ∈ tokens, token.Possible)
      (h : token :: rest <:+ tokens) : ∀ token ∈ rest, token.Possible :=
    fun token htoken => htokens token (h.subset (List.mem_cons_of_mem _ htoken))
  induction h with
  | climb _ _ ih | ofAtom _ ih | ofItems _ _ ih => exact ih htokens
  | @binary tier left operator right tokens middle rest _ hleft _ ihleft ihright =>
    have hleft' : left.tree.node = left.relabel .shape := ihleft htokens
    have hright' : right.tree.node = right.relabel .shape := ihright (hbehind htokens hleft.suffix)
    rw [Phrase.Rebuilt, Node.relabel, ← hleft', ← hright']
    rfl
  | prefixed _ _ ih => exact congrArg (Node.prefixed .blank _) (ih (List.forall_mem_cons.mp htokens).2)
  | call _ hcallee _ ihcallee iharguments =>
    exact congr (congrArg (Node.call .blank) (ihcallee htokens))
      (iharguments (hbehind htokens hcallee.suffix))
  | index _ hleft _ _ ihleft ihsubscript =>
    exact congr (congrArg (Node.index .blank) (ihleft htokens))
      (ihsubscript (hbehind htokens hleft.suffix))
  | identifier => exact rfl
  | @integer token rest htoken =>
    rcases token with ⟨kind, literal, line, column⟩
    cases htoken
    exact rfl
  | @string token rest htoken =>
    rcases token with ⟨kind, literal, line, column⟩
    cases htoken
    exact rfl
  | @boolean token value rest htoken =>
    rcases token with ⟨kind, literal, line, column⟩
    cases value <;> cases htoken <;> exact rfl
  | group _ _ _ ih => exact ih (List.forall_mem_cons.mp htokens).2
  | array _ _ ih => exact congrArg (Node.array .blank) (ih (List.forall_mem_cons.mp htokens).2)
  | emptyHash => exact rfl
  | hash _ _ _ ih => exact congrArg (Node.hash .blank) (ih (List.forall_mem_cons.mp htokens).2)
  | @conditional keyword bracket condition close consequence tokens middle rest _ _ hcondition _ _ ihcondition
      ihblock =>
    simp only [List.forall_mem_cons] at htokens
    exact congr (congrArg (Node.conditional .blank · · .missing) (ihcondition htokens.2.2))
      (ihblock (hbehind htokens.2.2 hcondition.suffix))
  | @conditionalElse keyword bracket condition close consequence other alternative tokens middle behind rest _
      _ hcondition _ hblock _ hother ihcondition ihblock ihother =>
    simp only [List.forall_mem_cons] at htokens
    have hmiddle := hbehind htokens.2.2 hcondition.suffix
    have hcondition' : condition.tree.node = condition.relabel .shape := ihcondition htokens.2.2
    have hblock' : consequence.tree.node = consequence.relabel .shape := ihblock hmiddle
    have hother' : alternative.tree.node = alternative.relabel .shape :=
      ihother (hbehind hmiddle hblock.suffix)
    rw [Phrase.Rebuilt, Node.tree, hother.not_missing, Node.relabel, ← hcondition', ← hblock', ← hother']
    exact rfl
  | @function keyword bracket names body tokens middle rest hkeyword _ hnames _ _ ihbody =>
    simp only [List.forall_mem_cons] at htokens
    have hmiddle : ∀ token ∈ middle, token.Possible := fun token htoken =>
      htokens.2.2 token (hnames.suffix.subset htoken)
    have hbody : body.tree.node = body.relabel .shape := ihbody hmiddle
    rw [Phrase.Rebuilt, Node.relabel, htokens.1.move_keyword "fn" hkeyword (by decide), ← hbody,
      ← Tree.identifiers_nameLeaf]
    exact rfl
  | emptyList | noStatements => exact rfl
  | lastItem _ ih => exact congrArg (fun node => [node]) (ih htokens)
  | item hnode _ _ ihnode ihnodes =>
    exact congr (congrArg List.cons (ihnode htokens)) (ihnodes (hbehind htokens hnode.suffix))
  | noParameters | ofNames | lastName | name => trivial
  | lastPair hkey _ _ ihkey ihvalue =>
    exact congr (congrArg (fun key value => [(key, value)]) (ihkey htokens))
      (ihvalue (hbehind htokens hkey.suffix))
  | @pair key colon value comma pairs tokens middle behind rest hkey _ hvalue _ _ ihkey ihvalue ihpairs =>
    have hmiddle := hbehind htokens hkey.suffix
    have hkey' : key.tree.node = key.relabel .shape := ihkey htokens
    have hvalue' : value.tree.node = value.relabel .shape := ihvalue hmiddle
    rw [Phrase.Rebuilt, Node.relabelPairs, ← hkey', ← hvalue', ← ihpairs (hbehind hmiddle hvalue.suffix)]
    exact rfl
  | letStatement hkeyword _ _ _ _ ih =>
    simp only [List.forall_mem_cons] at htokens
    have hvalue := ih htokens.2.2.2
    rw [Phrase.Rebuilt, Node.relabel, htokens.1.move_keyword "let" hkeyword (by decide), ← hvalue]
    exact rfl
  | returnStatement hkeyword _ _ ih =>
    have htoken := (List.forall_mem_cons.mp htokens).1
    have hvalue := ih (List.forall_mem_cons.mp htokens).2
    rw [Phrase.Rebuilt, Node.relabel, htoken.move_keyword "return" hkeyword (by decide), ← hvalue]
    exact rfl
  | expressionStatement _ _ ih => exact congrArg (Node.expressionStatement .blank) (ih htokens)
  | @statements node nodes tokens middle rest hnode _ ihnode ihnodes =>
    have hmiddle : ∀ token ∈ middle, token.Possible := fun token htoken =>
      htokens token (hnode.suffix.subset htoken)
    exact congr (congrArg List.cons (ihnode htokens)) (ihnodes hmiddle)
  | block _ _ _ ih | openBlock _ _ ih =>
    exact congrArg (Node.block .blank) (ih (List.forall_mem_cons.mp htokens).2)

end Grammar

/-! ### Programs with the same labelled tree -/

/-- A program that was parsed without errors is built again from its labelled tree. -/
theorem program_rebuilt {source : String} (h : (parse source).errors = []) :
    (parse source).program.tree.node = (parse source).program.relabel .shape := by
  have hparse : parse source = ⟨(parse source).statements, []⟩ := by rw [← h]
  have hprogram := (parse_eq_iff_program source _).mp hparse
  have htokens : ∀ token ∈ (tokenize source).dropLast, token.Possible := by
    rw [← Parser.ofText_tokens]
    exact Parser.lexed_ofText source
  exact congrArg Node.program (hprogram.rebuilt htokens)

/-- Programs that have the same labelled tree have the same text, and cannot be told apart by evaluating them in
    any environment: at every bound on the depth of calls both halt or both give values of the same content,
    and both print the same and leave the same bindings in the same order. -/
theorem observe_eq_of_tree_eq {source source' : String} (h : (parse source).errors = [])
    (h' : (parse source').errors = []) (htree : (parse source).program.tree = (parse source').program.tree) :
    (parse source).program.text = (parse source').program.text ∧
      ∀ depth env m, observe ((parse source).program.evalWithin depth env m) =
        observe ((parse source').program.evalWithin depth env m) := by
  have hsame : (parse source).program.relabel .shape = (parse source').program.relabel .shape := by
    rw [← program_rebuilt h, ← program_rebuilt h', htree]
  constructor
  · rw [← Node.text_relabel (r := .shape), hsame, Node.text_relabel]
  · intro depth env m
    exact observe_evalWithin_of_relabel_eq hsame depth env m

theorem observe_eq_of_tree_eq_closure :
    let source := "puts(fn(a) { (a) + 1 });"
    let source' := "puts(fn(a){a+1 # one
})"
    (parse source).errors = [] ∧ (parse source').errors = [] ∧
      (parse source).program.tree = (parse source').program.tree ∧
      (parse source).program.text = (parse source').program.text ∧
      ∀ depth env m, observe ((parse source).program.evalWithin depth env m) =
        observe ((parse source').program.evalWithin depth env m) := by
  intro source source'
  have h : (parse source).errors = [] := by decide +kernel
  have h' : (parse source').errors = [] := by decide +kernel
  have htree : (parse source).program.tree = (parse source').program.tree := by decide +kernel
  exact ⟨h, h', htree, observe_eq_of_tree_eq h h' htree⟩

end Monkey
