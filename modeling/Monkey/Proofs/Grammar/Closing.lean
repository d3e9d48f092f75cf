import Monkey.Console.Editor
import Monkey.Proofs.Grammar.Places

/-!
# Programs one behind the other

A program whose brackets are all closed and that ends with a semicolon does not change when other
statements follow it. The grammar has two rules that look at what is behind: a statement may end without a
semicolon in front of a token that does not go on with it, and a block may end without its closing brace
at the end of the text. Neither applies here: the last token is a semicolon, and an open block leaves the
brackets open.

What a phrase is derived from is therefore either closed, and then the phrase is derived in front of
anything (`Closed`, and for statements `ClosedStatement`), or it leaves a block open at the end of the
text, and then there are more opening brackets than closing ones (`Settled`). The number of open brackets
is the one that `Editor.openDepth` counts.
-/

namespace Monkey

open Editor

/-! ### Open brackets -/

/-- The number of open brackets behind the tokens, if `depth` are open in front of them. -/
def nesting (depth : Nat) (tokens : List Token) : Nat :=
  tokens.foldl (fun depth token => nest depth token.kind) depth

@[simp] theorem nesting_nil (depth : Nat) : nesting depth [] = depth := rfl

@[simp] theorem nesting_cons (depth : Nat) (token : Token) (tokens : List Token) :
    nesting depth (token :: tokens) = nesting (nest depth token.kind) tokens := rfl

@[simp] theorem nesting_append (depth : Nat) (tokens tokens' : List Token) :
    nesting depth (tokens ++ tokens') = nesting (nesting depth tokens) tokens' :=
  List.foldl_append

theorem nesting_move (r : Relocation) (depth : Nat) (tokens : List Token) :
    nesting depth (tokens.map r.move) = nesting depth tokens := by
  induction tokens generalizing depth with
  | nil => rfl
  | cons token tokens ih => rw [List.map_cons, nesting_cons, r.kind_move, ih, nesting_cons]

theorem openDepth_eq (source : String) : openDepth source = nesting 0 (bareTokens source.toList) := by
  have hend : ∀ last : Token, last.kind = .eof → ∀ depth, nesting depth [last] = depth := by
    intro last hlast depth
    rw [nesting_cons, hlast]
    rfl
  show nesting 0 ((Scanner.ofText source).tokens.1 ++ [_]) = _
  rw [nesting_append, hend _ rfl, bareTokens, nesting_move]
  rfl

theorem nest_binary {tier : Nat} {kind : TokenKind} (h : kind ∈ Grammar.operatorsOf tier) (depth : Nat) :
    nest depth kind = depth := by
  rcases tier with _ | _ | _ | _ | tier
  iterate 4
    have hpair : kind ∈ [_, _] := h
    simp only [List.mem_cons, List.not_mem_nil, or_false] at hpair
    rcases hpair with rfl | rfl <;> rfl
  · simp [Grammar.operatorsOf, Grammar.ladder] at h

namespace Grammar

/-! ### Closed phrases -/

/-- A phrase is derived from the tokens in front of anything. They close `drop` brackets more than they
    open. -/
structure Closed (phrase : Phrase) (drop : Nat) (span : List Token) : Prop where
  balanced : ∀ depth, nesting (depth + drop) span = depth
  last : ∃ init token, span = init ++ [token] ∧ token.kind ≠ .semicolon
  derives : ∀ rest, Derives phrase (span ++ rest) rest

/-- Other tokens may follow if the first of them is the same or if a semicolon comes before them. -/
def Meets (span rest rest' : List Token) : Prop :=
  rest'.head? = rest.head? ∨ ∀ token ∈ span.getLast?, token.kind = .semicolon

theorem Meets.front {span span' rest rest' : List Token} (h : Meets (span ++ span') rest rest') :
    Meets span (span' ++ rest) (span' ++ rest') := by
  cases span' with
  | nil => simpa [Meets] using h
  | cons token span' => exact .inl rfl

theorem Meets.behind {span span' rest rest' : List Token} (h : Meets (span ++ span') rest rest') :
    Meets span' rest rest' := by
  refine h.imp_right fun hlast token htoken => hlast token ?_
  rw [List.getLast?_append, Option.mem_def.mp htoken]
  rfl

/-- Statements are derived from the tokens in front of anything that may follow instead of `rest`. -/
structure ClosedStatement (phrase : Phrase) (rest span : List Token) : Prop where
  balanced : ∀ depth, nesting depth span = depth
  derives : ∀ rest', Meets span rest rest' → Derives phrase (span ++ rest') rest'

/-- Tokens that a phrase is derived from are closed, or else they end with the text and leave a bracket
    open. -/
inductive Settled (P : List Token → Prop) (rest tokens : List Token) : Prop where
  | closed (span : List Token) (htokens : tokens = span ++ rest) (h : P span)
  | dangling (hrest : rest = []) (h : ∀ depth, depth < nesting depth tokens)

variable {P Q : List Token → Prop} {tokens middle rest : List Token} {token : Token}

theorem Settled.of_cons (h : Settled P (token :: rest) tokens) :
    ∃ span, tokens = span ++ token :: rest ∧ P span := by
  cases h with
  | closed span htokens h => exact ⟨span, htokens, h⟩
  | dangling hrest => cases hrest

theorem Settled.prepend (h : Settled P rest tokens) (front : List Token)
    (hfront : ∀ depth, depth ≤ nesting depth front)
    (hspan : ∀ span, P span → Q (front ++ span)) : Settled Q rest (front ++ tokens) := by
  cases h with
  | closed span htokens h => exact .closed (front ++ span) (by simp [htokens]) (hspan span h)
  | dangling hrest h =>
    refine .dangling hrest fun depth => ?_
    rw [nesting_append]
    exact Nat.lt_of_le_of_lt (hfront depth) (h _)

theorem Settled.imp (h : Settled P rest tokens) (hspan : ∀ span, P span → Q span) :
    Settled Q rest tokens :=
  h.prepend [] (fun _ => Nat.le_refl _) hspan

def Phrase.Settles : Phrase → List Token → List Token → Prop
  | .list last nodes, tokens, rest =>
    last = .rparen ∨ last = .rbracket → Settled (Closed (.list last nodes) 1) rest tokens
  | .parameters params, tokens, rest => Settled (Closed (.parameters params) 1) rest tokens
  | .statement node, tokens, rest => Settled (ClosedStatement (.statement node) rest) rest tokens
  | .statements nodes, tokens, rest => Settled (ClosedStatement (.statements nodes) rest) rest tokens
  | phrase, tokens, rest => Settled (Closed phrase 0) rest tokens

/-- A phrase that ends with a phrase. -/
theorem Settled.behind {phrase phrase' : Phrase} {k : Nat} (front : List Token)
    (h : Settled (Closed phrase k) rest tokens) (hfront : ∀ depth, nesting depth front = depth + k)
    (hderives : ∀ span rest, Derives phrase (span ++ rest) rest →
      Derives phrase' (front ++ (span ++ rest)) rest) :
    Settled (Closed phrase' 0) rest (front ++ tokens) := by
  refine h.prepend front (fun depth => hfront depth ▸ Nat.le_add_right depth k) fun span hspan => ?_
  obtain ⟨hbalanced, ⟨init, token, rfl, hkind⟩, h⟩ := hspan
  refine ⟨fun depth => ?_, ⟨front ++ init, token, by simp, hkind⟩, fun rest => ?_⟩
  · rw [nesting_append, hfront]
    exact hbalanced depth
  · rw [List.append_assoc]
    exact hderives _ rest (h rest)

/-- A phrase that ends with a closing bracket. -/
theorem settled_upto {phrase : Phrase} {drop : Nat} {close : Token} {kind : TokenKind}
    (front span : List Token) (hspan : ∀ depth, nesting depth span = depth) (hclose : close.kind = kind)
    (hfront : ∀ depth, nesting (depth + drop) front = depth + 1)
    (hderives : ∀ rest, Derives phrase (front ++ (span ++ close :: rest)) rest)
    (hkind : kind ∈ [.rparen, .rbracket, .rbrace] := by decide) :
    Settled (Closed phrase drop) rest (front ++ (span ++ close :: rest)) := by
  have hbracket : kind ≠ .semicolon ∧ ∀ depth, nest (depth + 1) kind = depth := by
    simp only [List.mem_cons, List.not_mem_nil, or_false] at hkind
    rcases hkind with rfl | rfl | rfl <;> exact ⟨by decide, fun _ => rfl⟩
  refine .closed (front ++ span ++ [close]) (by simp) ⟨fun depth => ?_, ⟨_, close, rfl, ?_⟩, fun rest => ?_⟩
  · simp [hfront, hspan, hclose, hbracket.2]
  · exact hclose ▸ hbracket.1
  · simpa using hderives rest

/-- A phrase that is a single token. -/
theorem settled_token {phrase : Phrase} {drop : Nat} {kind : TokenKind} (hkind : token.kind = kind)
    (hnest : ∀ depth, nest (depth + drop) kind = depth) (hsemicolon : kind ≠ .semicolon)
    (hderives : ∀ rest, Derives phrase (token :: rest) rest) :
    Settled (Closed phrase drop) rest (token :: rest) :=
  .closed [token] rfl ⟨fun depth => by simp [hkind, hnest], ⟨[], token, rfl, hkind ▸ hsemicolon⟩, hderives⟩

/-- A statement that ends with an expression and perhaps a semicolon. -/
theorem settled_statement {node value : Node} (front : List Token)
    (h : Settled (Closed (.expression 0 value) 0) middle tokens) (hend : EndsStatement middle rest)
    (hfront : ∀ depth, nesting depth front = depth)
    (hderives : ∀ span middle' rest', tokens = span ++ middle → span ≠ [] →
      Derives (.expression 0 value) (span ++ middle') middle' → EndsStatement middle' rest' →
      Derives (.statement node) (front ++ (span ++ middle')) rest') :
    Settled (ClosedStatement (.statement node) rest) rest (front ++ tokens) := by
  cases h with
  | dangling hmiddle h =>
    have hrest : rest = [] := List.suffix_nil.mp (hmiddle ▸ hend.suffix)
    refine .dangling hrest fun depth => ?_
    rw [nesting_append, hfront]
    exact h depth
  | closed span htokens h =>
    obtain ⟨hbalanced, ⟨init, last, hlast, hkind⟩, h⟩ := h
    have hbalanced : ∀ depth, nesting depth span = depth := hbalanced
    have hne : span ≠ [] := by simp [hlast]
    rcases hend with ⟨semi, hsemi, rfl⟩ | ⟨rfl, hnext⟩
    · refine .closed (front ++ (span ++ [semi])) (by simp [htokens]) ⟨fun depth => ?_, fun rest' _ => ?_⟩
      · simp [hfront, hbalanced, hsemi, nest]
      · have := hderives span (semi :: rest') rest' htokens hne (h _) (.inl ⟨semi, hsemi, rfl⟩)
        simpa using this
    · refine .closed (front ++ span) (by simp [htokens]) ⟨fun depth => ?_, fun rest' hmeets => ?_⟩
      · rw [nesting_append, hfront, hbalanced]
      · have hhead : rest'.head? = rest.head? := by
          rcases hmeets with hhead | hsemicolon
          · exact hhead
          · exact absurd (hsemicolon last (by simp [hlast])) hkind
        rw [List.append_assoc]
        exact hderives span rest' rest' htokens hne (h _) (.inr ⟨rfl, hhead ▸ hnext⟩)

theorem Derives.settles {phrase : Phrase} (h : Derives phrase tokens rest) :
    phrase.Settles tokens rest := by
  induction h with
  | @climb tier node tokens rest htier _ ih =>
    exact Settled.behind [] ih (fun _ => rfl) fun _ _ => .climb htier
  | @binary tier left operator right tokens middle rest hoperator _ _ ihleft ihright =>
    obtain ⟨span, rfl, hleft⟩ := Settled.of_cons ihleft
    rw [List.append_cons]
    refine Settled.behind _ ihright (fun depth => ?_) fun span' rest hright => ?_
    · simpa [nest_binary hoperator] using hleft.balanced depth
    · rw [← List.append_cons]
      exact .binary hoperator (hleft.derives _) hright
  | @prefixed operator right tokens rest hoperator _ ih =>
    refine Settled.behind [operator] ih (fun depth => ?_) fun _ _ => .prefixed hoperator
    rcases hoperator with hkind | hkind <;> simp [hkind, nest]
  | @call bracket callee arguments tokens middle rest hbracket _ _ ihcallee iharguments =>
    obtain ⟨span, rfl, hcallee⟩ := Settled.of_cons ihcallee
    have hbalanced : ∀ depth, nesting depth span = depth := hcallee.balanced
    rw [List.append_cons]
    refine Settled.behind _ (iharguments (.inl rfl)) (fun depth => ?_) fun span' rest harguments => ?_
    · simp [hbalanced, hbracket, nest]
    · rw [← List.append_cons]
      exact .call hbracket (hcallee.derives _) harguments
  | @index bracket left subscript close tokens middle rest hbracket _ _ hclose ihleft ihsubscript =>
    obtain ⟨span, rfl, hleft⟩ := Settled.of_cons ihleft
    obtain ⟨span', rfl, hsubscript⟩ := Settled.of_cons ihsubscript
    have hbalanced : ∀ depth, nesting depth span = depth := hleft.balanced
    rw [List.append_cons]
    refine settled_upto _ _ hsubscript.balanced hclose (fun depth => ?_) fun rest => ?_
    · simp [hbalanced, hbracket, nest]
    · rw [← List.append_cons]
      exact .index hbracket (hleft.derives _) (hsubscript.derives _) hclose
  | ofAtom _ ih => exact Settled.behind [] ih (fun _ => rfl) fun _ _ => .ofAtom
  | identifier htoken => exact settled_token htoken (fun _ => rfl) (by decide) fun _ => .identifier htoken
  | integer htoken hnumeral hdigits hvalue =>
    exact settled_token htoken (fun _ => rfl) (by decide) fun _ => .integer htoken hnumeral hdigits hvalue
  | string htoken => exact settled_token htoken (fun _ => rfl) (by decide) fun _ => .string htoken
  | @boolean token value rest htoken =>
    cases value
    · exact settled_token htoken (fun _ => rfl) (by decide) fun _ => .boolean htoken
    · exact settled_token htoken (fun _ => rfl) (by decide) fun _ => .boolean htoken
  | @group bracket node close tokens rest hbracket _ hclose ih =>
    obtain ⟨span, rfl, hspan⟩ := Settled.of_cons ih
    refine settled_upto [bracket] _ hspan.balanced hclose (fun depth => ?_) fun rest => ?_
    · simp [hbracket, nest]
    · exact .group hbracket (hspan.derives _) hclose
  | @array bracket elements tokens rest hbracket _ ih =>
    refine Settled.behind [bracket] (ih (.inr rfl)) (fun depth => ?_) fun _ _ => .array hbracket
    simp [hbracket, nest]
  | @emptyHash brace close rest hbrace hclose =>
    refine settled_upto [brace] [] (fun _ => rfl) hclose (fun depth => ?_) fun rest => ?_
    · simp [hbrace, nest]
    · exact .emptyHash hbrace hclose
  | @hash brace pairs close tokens rest hbrace _ hclose ih =>
    obtain ⟨span, rfl, hspan⟩ := Settled.of_cons ih
    refine settled_upto [brace] _ hspan.balanced hclose (fun depth => ?_) fun rest => ?_
    · simp [hbrace, nest]
    · exact .hash hbrace (hspan.derives _) hclose
  | @conditional keyword bracket condition close consequence tokens middle rest hkeyword hbracket _ hclose
      _ ihcondition ihblock =>
    obtain ⟨span, rfl, hcondition⟩ := Settled.of_cons ihcondition
    have hbalanced : ∀ depth, nesting depth span = depth := hcondition.balanced
    rw [List.append_cons, ← List.cons_append, ← List.cons_append]
    refine Settled.behind _ ihblock (fun depth => ?_) fun span' rest hblock => ?_
    · simp [hbalanced, hkeyword, hbracket, hclose, nest]
    · rw [List.cons_append, List.cons_append, ← List.append_cons]
      exact .conditional hkeyword hbracket (hcondition.derives _) hclose hblock
  | @conditionalElse keyword bracket condition close consequence other alternative tokens middle behind rest
      hkeyword hbracket _ hclose _ hother _ ihcondition ihblock ihblock' =>
    obtain ⟨span, rfl, hcondition⟩ := Settled.of_cons ihcondition
    obtain ⟨span', rfl, hblock⟩ := Settled.of_cons ihblock
    have hbalanced : ∀ depth, nesting depth span = depth := hcondition.balanced
    have hbalanced' : ∀ depth, nesting depth span' = depth := hblock.balanced
    have hsplit : ∀ behind, keyword :: bracket :: (span ++ close :: (span' ++ other :: behind)) =
        (keyword :: bracket :: (span ++ close :: (span' ++ [other]))) ++ behind := by simp
    rw [hsplit]
    refine Settled.behind _ ihblock' (fun depth => ?_) fun span'' rest halternative => ?_
    · simp [hbalanced, hbalanced', hkeyword, hbracket, hclose, hother, nest]
    · rw [← hsplit]
      exact .conditionalElse hkeyword hbracket (hcondition.derives _) hclose (hblock.derives _) hother
        halternative
  | @function keyword bracket names body tokens middle rest hkeyword hbracket _ hbody ihnames ihblock =>
    obtain ⟨brace, behind, rfl, -⟩ := hbody.brace
    obtain ⟨span, rfl, hnames⟩ := Settled.of_cons ihnames
    have hbalanced : ∀ depth, nesting (depth + 1) span = depth := hnames.balanced
    rw [← List.cons_append, ← List.cons_append]
    refine Settled.behind _ ihblock (fun depth => ?_) fun span' rest hblock => ?_
    · simp [hbalanced, hkeyword, hbracket, nest]
    · exact .function hkeyword hbracket (hnames.derives _) hblock
  | @emptyList last close rest hclose =>
    rintro (rfl | rfl)
    · exact settled_token hclose (fun _ => rfl) (by decide) fun _ => .emptyList hclose
    · exact settled_token hclose (fun _ => rfl) (by decide) fun _ => .emptyList hclose
  | @ofItems last nodes close tokens rest _ hclose ih =>
    obtain ⟨span, rfl, hspan⟩ := Settled.of_cons ih
    have hderives (rest : List Token) : Derives (.list last nodes) (span ++ close :: rest) rest :=
      .ofItems (hspan.derives _) hclose
    rintro (rfl | rfl)
    · exact settled_upto [] _ hspan.balanced hclose (fun _ => rfl) hderives
    · exact settled_upto [] _ hspan.balanced hclose (fun _ => rfl) hderives
  | lastItem _ ih => exact Settled.behind [] ih (fun _ => rfl) fun _ _ => .lastItem
  | @item node comma nodes tokens middle rest _ hcomma _ ihnode ihnodes =>
    obtain ⟨span, rfl, hnode⟩ := Settled.of_cons ihnode
    have hbalanced : ∀ depth, nesting depth span = depth := hnode.balanced
    rw [List.append_cons]
    refine Settled.behind _ ihnodes (fun depth => ?_) fun span' rest hnodes => ?_
    · simp [hbalanced, hcomma, nest]
    · rw [← List.append_cons]
      exact .item (hnode.derives _) hcomma hnodes
  | noParameters hclose =>
    exact settled_token hclose (fun _ => rfl) (by decide) fun _ => .noParameters hclose
  | @ofNames names close tokens rest _ hclose ih =>
    obtain ⟨span, rfl, hspan⟩ := Settled.of_cons ih
    exact settled_upto [] _ hspan.balanced hclose (fun _ => rfl) fun _ => .ofNames (hspan.derives _) hclose
  | lastName htoken => exact settled_token htoken (fun _ => rfl) (by decide) fun _ => .lastName htoken
  | @name token comma names tokens rest htoken hcomma _ ih =>
    refine Settled.behind [token, comma] ih (fun depth => ?_) fun _ _ => .name htoken hcomma
    simp [htoken, hcomma, nest]
  | @lastPair key colon value tokens middle rest _ hcolon _ ihkey ihvalue =>
    obtain ⟨span, rfl, hkey⟩ := Settled.of_cons ihkey
    have hbalanced : ∀ depth, nesting depth span = depth := hkey.balanced
    rw [List.append_cons]
    refine Settled.behind _ ihvalue (fun depth => ?_) fun span' rest hvalue => ?_
    · simp [hbalanced, hcolon, nest]
    · rw [← List.append_cons]
      exact .lastPair (hkey.derives _) hcolon hvalue
  | @pair key colon value comma pairs tokens middle behind rest _ hcolon _ hcomma _ ihkey ihvalue ihpairs =>
    obtain ⟨span, rfl, hkey⟩ := Settled.of_cons ihkey
    obtain ⟨span', rfl, hvalue⟩ := Settled.of_cons ihvalue
    have hbalanced : ∀ depth, nesting depth span = depth := hkey.balanced
    have hbalanced' : ∀ depth, nesting depth span' = depth := hvalue.balanced
    have hsplit : ∀ behind, span ++ colon :: (span' ++ comma :: behind) =
        (span ++ colon :: (span' ++ [comma])) ++ behind := by simp
    rw [hsplit]
    refine Settled.behind _ ihpairs (fun depth => ?_) fun span'' rest hpairs => ?_
    · simp [hbalanced, hbalanced', hcolon, hcomma, nest]
    · rw [← hsplit]
      exact .pair (hkey.derives _) hcolon (hvalue.derives _) hcomma hpairs
  | @letStatement keyword target sign value tokens middle rest hkeyword htarget hsign _ hend ih =>
    refine settled_statement [keyword, target, sign] ih hend (fun depth => ?_) fun _ _ _ _ _ hvalue =>
      .letStatement hkeyword htarget hsign hvalue
    simp [hkeyword, htarget, hsign, nest]
  | @returnStatement keyword value tokens middle rest hkeyword _ hend ih =>
    refine settled_statement [keyword] ih hend (fun depth => ?_) fun _ _ _ _ _ hvalue =>
      .returnStatement hkeyword hvalue
    simp [hkeyword, nest]
  | @expressionStatement first expression tokens middle rest _ hend ih =>
    refine settled_statement [] ih hend (fun _ => rfl) fun span middle rest htokens hne hvalue => ?_
    obtain ⟨token, span, rfl⟩ := List.exists_cons_of_ne_nil hne
    cases htokens
    exact .expressionStatement hvalue
  | noStatements => exact .closed [] rfl ⟨fun _ => rfl, fun _ _ => .noStatements⟩
  | @statements node nodes tokens middle rest _ hnodes ihnode ihnodes =>
    cases ihnode with
    | dangling hmiddle h => exact .dangling (List.suffix_nil.mp (hmiddle ▸ hnodes.suffix)) h
    | closed span htokens hspan =>
      cases ihnodes with
      | dangling hrest h =>
        refine .dangling hrest fun depth => ?_
        rw [htokens, nesting_append, hspan.balanced]
        exact h depth
      | closed span' hmiddle hspan' =>
        subst hmiddle
        refine .closed (span ++ span') (by simp [htokens]) ⟨fun depth => ?_, fun rest' hmeets => ?_⟩
        · rw [nesting_append, hspan.balanced, hspan'.balanced]
        · rw [List.append_assoc]
          exact .statements (hspan.derives _ hmeets.front) (hspan'.derives _ hmeets.behind)
  | @block brace body close tokens rest hbrace _ hclose ih =>
    obtain ⟨span, rfl, hspan⟩ := Settled.of_cons ih
    refine settled_upto [brace] _ hspan.balanced hclose (fun depth => ?_) fun rest => ?_
    · simp [hbrace, nest]
    · exact .block hbrace (hspan.derives _ (.inl rfl)) hclose
  | @openBlock brace body tokens hbrace _ ih =>
    refine .dangling rfl fun depth => ?_
    rw [nesting_cons, hbrace]
    cases ih with
    | closed span htokens hspan =>
      rw [htokens, List.append_nil, hspan.balanced]
      exact Nat.lt_succ_self depth
    | dangling _ h => exact Nat.lt_trans (Nat.lt_succ_self depth) (h (depth + 1))

/-! ### Programs -/

theorem Derives.statements_append {nodes nodes' : List Node}
    (h : Derives (.statements nodes) tokens middle) (h' : Derives (.statements nodes') middle rest) :
    Derives (.statements (nodes ++ nodes')) tokens rest := by
  induction nodes generalizing tokens with
  | nil =>
    cases h
    exact h'
  | cons node nodes ih =>
    cases h with
    | statements hnode hnodes => exact .statements hnode (ih hnodes)

/-- Behind a program that closes its brackets and ends with a semicolon, another one may follow. -/
theorem Program.append {tokens' : List Token} {nodes nodes' : List Node} (h : Program tokens nodes)
    (hdepth : nesting 0 tokens = 0) (hlast : ∀ token ∈ tokens.getLast?, token.kind = .semicolon)
    (h' : Program tokens' nodes') : Program (tokens ++ tokens') (nodes ++ nodes') := by
  cases h.settles with
  | dangling _ hopen => exact absurd (hopen 0) (by simp [hdepth])
  | closed span htokens hspan =>
    rw [List.append_nil] at htokens
    subst htokens
    exact (hspan.derives tokens' (.inr hlast)).statements_append h'

end Grammar

/-! ### Texts -/

/-- A text behind which another one may start on a new line: it is read without errors, its brackets are
    closed, and it has no tokens or ends with a semicolon. -/
structure Extensible (text : String) : Prop where
  errors : (parse text).errors = []
  closed : openDepth text = 0
  last : ∀ token ∈ (tokenize text).dropLast.getLast?, token.kind = .semicolon

instance (text : String) : Decidable (Extensible text) :=
  decidable_of_iff ((parse text).errors = [] ∧ openDepth text = 0 ∧
      ∀ token ∈ (tokenize text).dropLast.getLast?, token.kind = .semicolon)
    ⟨fun ⟨errors, closed, last⟩ => ⟨errors, closed, last⟩,
      fun ⟨errors, closed, last⟩ => ⟨errors, closed, last⟩⟩

theorem bareTokens_eq_map (source : String) :
    bareTokens source.toList = (tokenize source).dropLast.map Relocation.forget.move := by
  rw [← Parser.ofText_tokens]
  rfl

theorem Extensible.last_bareTokens {text : String} (h : Extensible text) :
    ∀ token ∈ (bareTokens text.toList).getLast?, token.kind = .semicolon := by
  intro token htoken
  rw [bareTokens_eq_map, List.getLast?_map] at htoken
  obtain ⟨original, horiginal, rfl⟩ := Option.map_eq_some_iff.mp htoken
  exact h.last original horiginal

/-- Text on a new line behind an extensible one is read as it is on its own, but for the places. -/
theorem parse_append_line {text rest : String} (h : Extensible text) (hrest : (parse rest).errors = []) :
    (parse (text ++ "\n" ++ rest)).errors = [] ∧
      bareNodes (parse (text ++ "\n" ++ rest)).statements =
        bareNodes (parse text).statements ++ bareNodes (parse rest).statements := by
  have hseam : bareTokens (text ++ "\n" ++ rest).toList =
      bareTokens text.toList ++ bareTokens rest.toList := by
    have hline : (text ++ "\n" ++ rest).toList = text.toList ++ '\n' :: rest.toList := by simp
    rw [hline]
    exact bareTokens_append_line h.last_bareTokens
  have hdepth : nesting 0 (bareTokens text.toList) = 0 := openDepth_eq text ▸ h.closed
  have hfirst := (program_bareTokens_iff text _).mpr ⟨h.errors, rfl⟩
  have hsecond := (program_bareTokens_iff rest _).mpr ⟨hrest, rfl⟩
  have happend := hfirst.append hdepth h.last_bareTokens hsecond
  exact (program_bareTokens_iff _ _).mp (hseam ▸ happend)

end Monkey
