import Monkey.Node
import Monkey.Tree

/-!
# Syntax trees as labelled trees

The shape of a syntax tree without its tokens: names, literals and operators become leaves, all other
nodes branches, and an absent part becomes a branch of its own.
-/

namespace Monkey.Node

def nameLeaf (identifier : Identifier) : Tree :=
  .leaf "IDENT" identifier.name

/-- The leaf for a literal, which goes by its token. -/
def literalLeaf (token : Token) : Tree :=
  .leaf token.kind.name token.literal

def operatorLeaf (operator : String) : Tree :=
  .leaf "OP" operator

mutual

def tree : Node → Tree
  | .missing => .branch "missing" []
  | .program statements => .branch "program" (trees statements)
  | .letStatement _ target value => .branch "let" [nameLeaf target, value.tree]
  | .returnStatement _ value => .branch "return" [value.tree]
  | .expressionStatement _ expression => .branch "expr" [expression.tree]
  | .block _ statements => .branch "block" (trees statements)
  | .identifier name => nameLeaf name
  | .integer token _ | .string token _ | .boolean token _ => literalLeaf token
  | .prefixed _ operator right => .branch "prefix" [operatorLeaf operator, right.tree]
  | .binary _ left operator right => .branch "infix" [left.tree, operatorLeaf operator, right.tree]
  | .conditional _ condition consequence alternative =>
    .branch "if" (condition.tree :: consequence.tree
      :: (if alternative.isMissing then [] else [alternative.tree]))
  | .function _ parameters body =>
    .branch "fn" [.branch "params" (parameters.map nameLeaf), body.tree]
  | .call _ callee arguments => .branch "call" [callee.tree, .branch "args" (trees arguments)]
  | .array _ elements => .branch "array" (trees elements)
  | .index _ left subscript => .branch "index" [left.tree, subscript.tree]
  | .hash _ pairs => .branch "hash" (pairTrees pairs)

def trees : List Node → List Tree
  | [] => []
  | node :: rest => node.tree :: trees rest

def pairTrees : List (Node × Node) → List Tree
  | [] => []
  | (key, value) :: rest => .branch "pair" [key.tree, value.tree] :: pairTrees rest

end

def outline (node : Node) : String :=
  node.tree.outline

end Monkey.Node
