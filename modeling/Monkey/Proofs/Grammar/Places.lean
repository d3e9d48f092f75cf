import Monkey.Proofs.Grammar.Language
import Monkey.Proofs.Parser.Relocation
import Monkey.Proofs.Scanner.Bare

/-!
# Programs without places

What a text is read as can be said of its tokens without their places, because neither the scanner nor
the parser looks at places: `program_bareTokens_iff`.
-/

namespace Monkey

open Grammar

/-- A parser in front of the tokens of a text without their places. -/
def Parser.bare (source : String) : Parser :=
  (Parser.ofText source).moved .forget []

theorem Parser.bare_tokens (source : String) : (Parser.bare source).tokens = bareTokens source.toList :=
  rfl

theorem Parser.scanned_bare (source : String) : (Parser.bare source).Scanned := by
  intro token htoken
  obtain ⟨original, horiginal, rfl⟩ := List.mem_map.mp htoken
  exact Parser.scanned_ofText source original horiginal

/-- The statements of a tree without their places. -/
def bareNodes (nodes : List Node) : List Node :=
  Node.relabelAll Relocation.forget.relabeling nodes

theorem bareNodes_ne_nil {nodes : List Node} (h : nodes ≠ []) : bareNodes nodes ≠ [] := by
  obtain ⟨node, nodes, rfl⟩ := List.exists_cons_of_ne_nil h
  exact List.cons_ne_nil _ _

theorem tree_bareNodes (nodes : List Node) :
    (Node.program (bareNodes nodes)).tree = (Node.program nodes).tree :=
  Node.tree_relabel (r := Relocation.forget) (.program nodes)

theorem text_bareNodes (nodes : List Node) :
    (Node.program (bareNodes nodes)).text = (Node.program nodes).text :=
  Node.text_relabel (r := Relocation.forget.relabeling) (.program nodes)

theorem Parser.program_bare (source : String) : (Parser.bare source).program =
    (bareNodes (Parser.ofText source).program.1, (Parser.ofText source).program.2.moved .forget []) :=
  Parser.program_moved .forget [] _

/-- A text is read without errors, and as these statements up to places, exactly if the grammar derives
    its tokens without their places as them. -/
theorem program_bareTokens_iff (source : String) (nodes : List Node) :
    Program (bareTokens source.toList) nodes ↔
      (parse source).errors = [] ∧ bareNodes (parse source).statements = nodes := by
  have hbare := Parser.program_bare source
  constructor
  · intro h
    have hprogram : (Parser.bare source).program = (nodes, (Parser.bare source).on []) :=
      h.parsed (p := Parser.bare source)
    rw [hprogram, Prod.mk.injEq] at hbare
    have herrors := congrArg Parser.errors hbare.2
    exact ⟨herrors.symm, hbare.1.symm⟩
  · rintro ⟨herrors, rfl⟩
    have hderives := (Parser.bare source).derives_program (Parser.scanned_bare source)
      (by rw [hbare]; exact herrors)
    rwa [hbare] at hderives

end Monkey
