import Monkey.Proofs.Grammar.Language
import Monkey.Proofs.Node.Relabeling
import Monkey.Session

/-!
# The names of a program are identifiers of its text

A tree that the grammar derives mentions no name but the literals of identifiers among the tokens that it was
derived from (`Derives.names_subset`), so a program mentions only identifiers of its text.
-/

namespace Monkey

/-- The words of a list of tokens that are identifiers. -/
def identifiersOf (tokens : List Token) : List String :=
  (tokens.filter fun token => token.kind = .ident).map Token.literal

theorem identifiersOf_subset {tokens tokens' : List Token} (h : tokens ⊆ tokens') :
    identifiersOf tokens ⊆ identifiersOf tokens' := by
  intro name hname
  obtain ⟨token, htoken, rfl⟩ := List.mem_map.mp hname
  obtain ⟨htoken, hkind⟩ := List.mem_filter.mp htoken
  exact List.mem_map_of_mem (List.mem_filter.mpr ⟨h htoken, hkind⟩)

theorem literal_mem_identifiersOf {token : Token} {tokens : List Token} (htoken : token ∈ tokens)
    (hkind : token.kind = .ident) : token.literal ∈ identifiersOf tokens :=
  List.mem_map_of_mem (List.mem_filter.mpr ⟨htoken, decide_eq_true hkind⟩)

namespace Grammar

/-- The names in the trees that a phrase stands for. -/
def Phrase.mentioned : Phrase → List String
  | .expression _ node | .atom node | .statement node | .block node => node.names
  | .items nodes | .list _ nodes | .statements nodes => Node.namesAll nodes
  | .names targets | .parameters targets => targets.map Identifier.name
  | .pairs entries => Node.namesPairs entries

/-- What a phrase mentions are identifiers among the tokens in front of what is left behind it. -/
theorem Derives.names_subset {phrase : Phrase} {tokens rest : List Token} (h : Derives phrase tokens rest) :
    phrase.mentioned ⊆ identifiersOf tokens := by
  have behind {token : Token} {tokens rest : List Token} {names : List String} (h : token :: rest <:+ tokens)
      (hnames : names ⊆ identifiersOf rest) : names ⊆ identifiersOf tokens :=
    List.Subset.trans hnames (identifiersOf_subset fun _ hmem => h.subset (List.mem_cons_of_mem _ hmem))
  have after {tokens rest : List Token} {names : List String} (h : rest <:+ tokens)
      (hnames : names ⊆ identifiersOf rest) : names ⊆ identifiersOf tokens :=
    List.Subset.trans hnames (identifiersOf_subset h.subset)
  have inside {token : Token} {tokens : List Token} {names : List String}
      (hnames : names ⊆ identifiersOf tokens) : names ⊆ identifiersOf (token :: tokens) :=
    after (List.suffix_cons token tokens) hnames
  have own {token : Token} {tokens : List Token} (hkind : token.kind = .ident) :
      token.literal ∈ identifiersOf (token :: tokens) :=
    literal_mem_identifiersOf List.mem_cons_self hkind
  induction h with
  | climb _ _ ih | ofAtom _ ih | ofItems _ _ ih | ofNames _ _ ih => exact ih
  | expressionStatement _ _ ih => exact ih
  | binary _ hleft _ ihleft ihright => exact List.append_subset.mpr ⟨ihleft, behind hleft.suffix ihright⟩
  | prefixed _ _ ih | array _ _ ih | group _ _ _ ih | hash _ _ _ ih | returnStatement _ _ _ ih
  | block _ _ _ ih | openBlock _ _ ih => exact inside ih
  | call _ hcallee _ ihcallee iharguments =>
    exact List.append_subset.mpr ⟨ihcallee, behind hcallee.suffix iharguments⟩
  | index _ hleft _ _ ihleft ihsubscript =>
    exact List.append_subset.mpr ⟨ihleft, behind hleft.suffix ihsubscript⟩
  | identifier hkind | lastName hkind => exact List.cons_subset.mpr ⟨own hkind, List.nil_subset _⟩
  | integer | string | boolean | emptyHash | emptyList | noParameters | noStatements =>
    exact List.nil_subset _
  | conditional _ _ hcondition _ _ ihcondition ihconsequence =>
    rw [Phrase.mentioned, Node.names, Node.names, List.append_nil]
    exact inside (inside (List.append_subset.mpr ⟨ihcondition, behind hcondition.suffix ihconsequence⟩))
  | conditionalElse _ _ hcondition _ hconsequence _ _ ihcondition ihconsequence ihalternative =>
    have hbranches := List.append_subset.mpr ⟨ihconsequence, behind hconsequence.suffix ihalternative⟩
    exact inside (inside (List.append_subset.mpr ⟨ihcondition, behind hcondition.suffix hbranches⟩))
  | function _ _ hnames _ ihnames ihbody =>
    exact inside (inside (List.append_subset.mpr ⟨ihnames, after hnames.suffix ihbody⟩))
  | lastItem _ ih =>
    rw [Phrase.mentioned, Node.namesAll, Node.namesAll, List.append_nil]
    exact ih
  | item hnode _ _ ihnode ihnodes => exact List.append_subset.mpr ⟨ihnode, behind hnode.suffix ihnodes⟩
  | name hkind _ _ ih => exact List.cons_subset.mpr ⟨own hkind, inside (inside ih)⟩
  | lastPair hkey _ _ ihkey ihvalue =>
    rw [Phrase.mentioned, Node.namesPairs, Node.namesPairs, List.append_nil]
    exact List.append_subset.mpr ⟨ihkey, behind hkey.suffix ihvalue⟩
  | pair hkey _ hvalue _ _ ihkey ihvalue ihpairs =>
    have hrest := List.append_subset.mpr ⟨ihvalue, behind hvalue.suffix ihpairs⟩
    exact List.append_subset.mpr ⟨ihkey, behind hkey.suffix hrest⟩
  | letStatement _ htarget _ _ _ ih =>
    exact List.cons_subset.mpr ⟨inside (List.Subset.refl _) (own htarget), inside (inside (inside ih))⟩
  | statements hnode _ ihnode ihnodes =>
    exact List.append_subset.mpr ⟨ihnode, after hnode.suffix ihnodes⟩

end Grammar

/-- A program mentions identifiers of its text only. -/
theorem names_of_parseProgram {source : String} {program : Node} (h : parseProgram source = .ok program) :
    program.names ⊆ identifiersOf (tokenize source) := by
  have hparse : parse source =
      ⟨(Parser.ofText source).program.1, (Parser.ofText source).program.2.errors⟩ := rfl
  rw [parseProgram] at h
  split at h
  · next herrors =>
    obtain rfl := Except.ok.inj h
    rw [List.isEmpty_iff, hparse] at herrors
    have hderives := (Parser.ofText source).derives_program (Parser.scanned_ofText source) herrors
    rw [Parser.ofText_tokens] at hderives
    exact List.Subset.trans hderives.names_subset (identifiersOf_subset (List.dropLast_subset _))
  · cases h

end Monkey
