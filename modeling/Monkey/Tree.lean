import Monkey.Text.Quoted

/-!
# Labelled trees and outlines

A tree whose leaves are words with a kind and whose branches have a name, and its outline: one line for
each branch and leaf, indented by two spaces for each level. A branch whose only child is a leaf shares
its line with it, separated by a tab.
-/

namespace Monkey

/-- A tree of named branches; a leaf is a text and the kind of word it is. -/
inductive Tree where
  | leaf (kind text : String)
  | branch (name : String) (children : List Tree)
deriving Repr

namespace Tree

mutual

/-- Whether two trees are the same. -/
def decEq : (tree tree' : Tree) → Decidable (tree = tree')
  | .leaf kind text, .leaf kind' text' => decidable_of_iff (kind = kind' ∧ text = text') (by simp)
  | .branch name children, .branch name' children' =>
    have := decEqAll children children'
    decidable_of_iff (name = name' ∧ children = children') (by simp)
  | .leaf .., .branch .. | .branch .., .leaf .. => .isFalse (by simp)

def decEqAll : (trees trees' : List Tree) → Decidable (trees = trees')
  | [], [] => .isTrue rfl
  | tree :: rest, tree' :: rest' =>
    have := decEq tree tree'
    have := decEqAll rest rest'
    decidable_of_iff (tree = tree' ∧ rest = rest') (by simp)
  | [], _ :: _ | _ :: _, [] => .isFalse (by simp)

end

instance : DecidableEq Tree :=
  decEq

/-- The blanks in front of a line of an outline. -/
def indent (level : Nat) : String :=
  String.ofList (List.replicate (2 * level) ' ')

mutual

/-- The lines of a tree that stands `level` levels deep in an outline. -/
def outlineAt (level : Nat) : Tree → String
  | .leaf _ text => indent level ++ text ++ "\n"
  | .branch name [.leaf _ text] => indent level ++ name ++ "\t" ++ text ++ "\n"
  | .branch name children => indent level ++ name ++ "\n" ++ outlinesAt (level + 1) children

def outlinesAt (level : Nat) : List Tree → String
  | [] => ""
  | tree :: rest => outlineAt level tree ++ outlinesAt level rest

end

/-- The outline of a tree. A tree that is a single leaf is shown as its kind and its quoted text. -/
def outline : Tree → String
  | .leaf kind text => kind ++ "\t" ++ Text.quoted text ++ "\n"
  | tree => tree.outlineAt 0

end Tree

end Monkey
