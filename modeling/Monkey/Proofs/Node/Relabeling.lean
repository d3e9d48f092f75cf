import Monkey.Node.Text
import Monkey.Node.Tree

/-!
# The tokens and the names in a tree

A syntax tree keeps the tokens that it was read from, but little of them matters: the text of a tree
shows the literals of a few of its tokens, and the labelled tree their kinds too. A `Relabeling` changes
tokens and keeps what the text shows, so it changes no text. A `Relocation` only changes places, so it
does not change the labelled tree either. What an evaluation needs of an environment are the names in the
tree (`Node.names`).
-/

namespace Monkey

/-- A change of tokens. Those whose literal shows in the text of their node keep it. -/
structure Relabeling where
  shown : Token → Token
  hidden : Token → Token
  literal_shown : ∀ token, (shown token).literal = token.literal

/-- A change of tokens that keeps kinds and literals, so that it changes places at most. -/
structure Relocation where
  move : Token → Token
  kind_move : ∀ token, (move token).kind = token.kind
  literal_move : ∀ token, (move token).literal = token.literal

namespace Relocation

/-- The relocation that changes nothing. -/
def id : Relocation :=
  ⟨fun token => token, fun _ => rfl, fun _ => rfl⟩

/-- The relocation that forgets all places. -/
def forget : Relocation :=
  ⟨fun token => ⟨token.kind, token.literal, 0, 0⟩, fun _ => rfl, fun _ => rfl⟩

def relabeling (r : Relocation) : Relabeling :=
  ⟨r.move, r.move, r.literal_move⟩

end Relocation

def Identifier.relabel (f : Token → Token) (identifier : Identifier) : Identifier :=
  ⟨f identifier.token, identifier.name⟩

theorem Identifier.ofToken_move (r : Relocation) (token : Token) :
    Identifier.ofToken (r.move token) = (Identifier.ofToken token).relabel r.move := by
  simp only [ofToken, relabel, r.literal_move]

namespace Node

section

variable (r : Relabeling)

mutual

/-- A tree with its tokens changed. -/
def relabel : Node → Node
  | .missing => .missing
  | .program statements => .program (relabelAll statements)
  | .letStatement token target value =>
    .letStatement (r.shown token) (target.relabel r.hidden) value.relabel
  | .returnStatement token value => .returnStatement (r.shown token) value.relabel
  | .expressionStatement token expression => .expressionStatement (r.hidden token) expression.relabel
  | .block token statements => .block (r.hidden token) (relabelAll statements)
  | .identifier name => .identifier (name.relabel r.hidden)
  | .integer token value => .integer (r.shown token) value
  | .string token value => .string (r.shown token) value
  | .boolean token value => .boolean (r.shown token) value
  | .prefixed token operator right => .prefixed (r.hidden token) operator right.relabel
  | .binary token left operator right => .binary (r.hidden token) left.relabel operator right.relabel
  | .conditional token condition consequence alternative =>
    .conditional (r.hidden token) condition.relabel consequence.relabel alternative.relabel
  | .function token parameters body =>
    .function (r.shown token) (parameters.map (Identifier.relabel r.hidden)) body.relabel
  | .call token callee arguments => .call (r.hidden token) callee.relabel (relabelAll arguments)
  | .array token elements => .array (r.hidden token) (relabelAll elements)
  | .index token left subscript => .index (r.hidden token) left.relabel subscript.relabel
  | .hash token pairs => .hash (r.hidden token) (relabelPairs pairs)

def relabelAll : List Node → List Node
  | [] => []
  | node :: rest => node.relabel :: relabelAll rest

def relabelPairs : List (Node × Node) → List (Node × Node)
  | [] => []
  | (key, value) :: rest => (key.relabel, value.relabel) :: relabelPairs rest

end

end

variable {r : Relabeling}

@[simp] theorem isMissing_relabel (node : Node) : (node.relabel r).isMissing = node.isMissing := by
  cases node <;> rfl

theorem spelled_relabel (part : Node) (text : String) :
    spelled (part.relabel r) text = spelled part text := by
  rw [spelled, spelled, isMissing_relabel]

theorem names_relabel (f : Token → Token) (parameters : List Identifier) :
    (parameters.map (Identifier.relabel f)).map Identifier.name = parameters.map Identifier.name := by
  rw [List.map_map]
  rfl

mutual

/-- A change of tokens changes no text. -/
theorem text_relabel (node : Node) : (node.relabel r).text = node.text := by
  cases node with
  | missing | identifier => rfl
  | program statements | block _ statements =>
    simp only [relabel, text, memberTexts_relabel statements]
  | letStatement _ _ value =>
    simp only [relabel, text, r.literal_shown, text_relabel value, Identifier.relabel]
  | returnStatement _ value => simp only [relabel, text, r.literal_shown, text_relabel value]
  | expressionStatement _ expression => simp only [relabel, text, text_relabel expression]
  | integer | string | boolean => simp only [relabel, text, r.literal_shown]
  | prefixed _ _ right => simp only [relabel, text, text_relabel right]
  | binary _ left _ right =>
    simp only [relabel, text, spelled_relabel, text_relabel left, text_relabel right]
  | conditional _ condition consequence alternative =>
    simp only [relabel, text, text_relabel condition, text_relabel consequence,
      text_relabel alternative, isMissing_relabel]
  | function _ parameters body =>
    simp only [relabel, text, r.literal_shown, parameterNames, names_relabel, text_relabel body]
  | call _ callee arguments =>
    simp only [relabel, text, spelled_relabel, text_relabel callee, memberTexts_relabel arguments]
  | array _ elements => simp only [relabel, text, memberTexts_relabel elements]
  | index _ left subscript =>
    simp only [relabel, text, spelled_relabel, text_relabel left, text_relabel subscript]
  | hash _ pairs => simp only [relabel, text, pairTexts_relabel pairs]

theorem memberTexts_relabel (nodes : List Node) :
    memberTexts (relabelAll r nodes) = memberTexts nodes := by
  match nodes with
  | [] => rfl
  | node :: rest =>
    simp only [relabelAll, memberTexts, spelled_relabel, text_relabel node, memberTexts_relabel rest]

theorem pairTexts_relabel (pairs : List (Node × Node)) :
    pairTexts (relabelPairs r pairs) = pairTexts pairs := by
  match pairs with
  | [] => rfl
  | (key, value) :: rest =>
    simp only [relabelPairs, pairTexts, spelled_relabel, text_relabel key, text_relabel value,
      pairTexts_relabel rest]

end

section

variable {r : Relocation}

theorem nameLeaf_relabel (f : Token → Token) (name : Identifier) :
    nameLeaf (name.relabel f) = nameLeaf name := rfl

theorem literalLeaf_move (token : Token) : literalLeaf (r.relabeling.shown token) = literalLeaf token := by
  rw [literalLeaf, literalLeaf, show r.relabeling.shown = r.move from rfl, r.kind_move, r.literal_move]

mutual

/-- The labelled tree does not tell where the tokens stand. -/
theorem tree_relabel (node : Node) : (node.relabel r.relabeling).tree = node.tree := by
  cases node with
  | missing | identifier => rfl
  | program statements | block _ statements => simp only [relabel, tree, trees_relabel statements]
  | letStatement _ _ value => simp only [relabel, tree, nameLeaf_relabel, tree_relabel value]
  | returnStatement _ value => simp only [relabel, tree, tree_relabel value]
  | expressionStatement _ expression => simp only [relabel, tree, tree_relabel expression]
  | integer | string | boolean => simp only [relabel, tree, literalLeaf_move]
  | prefixed _ _ right => simp only [relabel, tree, tree_relabel right]
  | binary _ left _ right => simp only [relabel, tree, tree_relabel left, tree_relabel right]
  | conditional _ condition consequence alternative =>
    simp only [relabel, tree, tree_relabel condition, tree_relabel consequence,
      tree_relabel alternative, isMissing_relabel]
  | function _ parameters body =>
    simp only [relabel, tree, List.map_map, Function.comp_def, nameLeaf_relabel, tree_relabel body]
  | call _ callee arguments => simp only [relabel, tree, tree_relabel callee, trees_relabel arguments]
  | array _ elements => simp only [relabel, tree, trees_relabel elements]
  | index _ left subscript => simp only [relabel, tree, tree_relabel left, tree_relabel subscript]
  | hash _ pairs => simp only [relabel, tree, pairTrees_relabel pairs]

theorem trees_relabel (nodes : List Node) : trees (relabelAll r.relabeling nodes) = trees nodes := by
  match nodes with
  | [] => rfl
  | node :: rest => simp only [relabelAll, trees, tree_relabel node, trees_relabel rest]

theorem pairTrees_relabel (pairs : List (Node × Node)) :
    pairTrees (relabelPairs r.relabeling pairs) = pairTrees pairs := by
  match pairs with
  | [] => rfl
  | (key, value) :: rest =>
    simp only [relabelPairs, pairTrees, tree_relabel key, tree_relabel value, pairTrees_relabel rest]

end

end

theorem shown_id (token : Token) : Relocation.id.relabeling.shown token = token := rfl

theorem hidden_id (token : Token) : Relocation.id.relabeling.hidden token = token := rfl

theorem name_id (name : Identifier) : name.relabel Relocation.id.relabeling.hidden = name := rfl

theorem names_id (names : List Identifier) :
    names.map (Identifier.relabel Relocation.id.relabeling.hidden) = names := by
  rw [funext name_id, List.map_id']

mutual

theorem relabel_id (node : Node) : node.relabel Relocation.id.relabeling = node := by
  cases node with
  | missing => rfl
  | identifier name => simp only [relabel, name_id]
  | program statements | block _ statements =>
    simp only [relabel, hidden_id, relabelAll_id statements]
  | letStatement _ _ value => simp only [relabel, shown_id, name_id, relabel_id value]
  | returnStatement _ value => simp only [relabel, shown_id, relabel_id value]
  | expressionStatement _ expression => simp only [relabel, hidden_id, relabel_id expression]
  | integer | string | boolean => simp only [relabel, shown_id]
  | prefixed _ _ right => simp only [relabel, hidden_id, relabel_id right]
  | binary _ left _ right =>
    simp only [relabel, hidden_id, relabel_id left, relabel_id right]
  | conditional _ condition consequence alternative =>
    simp only [relabel, hidden_id, relabel_id condition, relabel_id consequence,
      relabel_id alternative]
  | function _ parameters body => simp only [relabel, shown_id, names_id, relabel_id body]
  | call _ callee arguments =>
    simp only [relabel, hidden_id, relabel_id callee, relabelAll_id arguments]
  | array _ elements => simp only [relabel, hidden_id, relabelAll_id elements]
  | index _ left subscript =>
    simp only [relabel, hidden_id, relabel_id left, relabel_id subscript]
  | hash _ pairs => simp only [relabel, hidden_id, relabelPairs_id pairs]

theorem relabelAll_id (nodes : List Node) : relabelAll Relocation.id.relabeling nodes = nodes := by
  match nodes with
  | [] => rfl
  | node :: rest => simp only [relabelAll, relabel_id node, relabelAll_id rest]

theorem relabelPairs_id (pairs : List (Node × Node)) :
    relabelPairs Relocation.id.relabeling pairs = pairs := by
  match pairs with
  | [] => rfl
  | (key, value) :: rest =>
    simp only [relabelPairs, relabel_id key, relabel_id value, relabelPairs_id rest]

end

/-! ### Names -/

mutual

/-- All names that occur in a node: those that are looked up, those that a `let` binds, and parameters. -/
def names : Node → List String
  | .missing | .integer .. | .string .. | .boolean .. => []
  | .program statements | .block _ statements => namesAll statements
  | .letStatement _ target value => target.name :: value.names
  | .returnStatement _ value | .expressionStatement _ value | .prefixed _ _ value => value.names
  | .identifier name => [name.name]
  | .binary _ left _ right | .index _ left right => left.names ++ right.names
  | .conditional _ condition consequence alternative =>
    condition.names ++ (consequence.names ++ alternative.names)
  | .function _ parameters body => parameters.map Identifier.name ++ body.names
  | .call _ callee arguments => callee.names ++ namesAll arguments
  | .array _ elements => namesAll elements
  | .hash _ pairs => namesPairs pairs

def namesAll : List Node → List String
  | [] => []
  | node :: rest => node.names ++ namesAll rest

def namesPairs : List (Node × Node) → List String
  | [] => []
  | (key, value) :: rest => key.names ++ (value.names ++ namesPairs rest)

end

end Node

end Monkey
