import Monkey.Proofs.Highlight.Lines

/-!
# The colours of a line

A line is cut into fragments by the spans of its tokens, and a span is put together from two numbers: the column
that the token carries, and the place where the scanner stands behind it. What lies between two spans is cut once
more, at the first `#`. On a line without a line feed all this agrees with what the scanner read:

* `Coloured` says what styles the characters of a line should have, by the tokens, the comment and the blanks
  that it is made of, and without a word about fragments;
* `Shows` is what some fragments have to be to show a stretch of a line, and the fragments of a gap and of a token
  can be put in front of them;
* `line_coloured`: so the fragments of a line, joined, are the line, none of them is empty, and the styles of the
  characters are the only ones that the line can have.
-/

namespace Monkey

open Lexical

/-- Only one token can stand at the front of a text. -/
theorem Lexical.Lexes.unique {kind kind' : TokenKind} {literal literal' : String}
    {span rest span' rest' : List Char} (h : Lexes kind literal span rest) (h' : Lexes kind' literal' span' rest')
    (htext : span ++ rest = span' ++ rest') :
    kind' = kind ∧ literal' = literal ∧ span' = span ∧ rest' = rest := by
  obtain ⟨c, cs, width, rfl, -, hlexeme, htake, hdrop⟩ := h
  obtain ⟨c', cs', width', rfl, -, hlexeme', htake', hdrop'⟩ := h'
  obtain ⟨rfl, hbehind⟩ : c = c' ∧ cs ++ rest = cs' ++ rest' := List.cons.inj htext
  rw [hbehind, hlexeme'] at hlexeme
  obtain ⟨rfl, rfl, rfl⟩ := Lexeme.mk.inj hlexeme
  rw [htext] at htake hdrop
  exact ⟨rfl, rfl, htake'.symm.trans htake, hdrop'.symm.trans hdrop⟩

/-! ### Styles of characters -/

namespace Highlight

/-- The styles of the characters from a column of a line on, and the tokens among these. All characters of a
    token have the style of its group, quotes included; a comment goes on to the end of the line, and a blank has
    no style. -/
inductive Coloured : Nat → List Char → List Token → List String → Prop where
  | ended {column} : Coloured column [] [] []
  | blank {column c rest tokens styles} (hblank : Blank c) (h : Coloured (column + 1) rest tokens styles) :
      Coloured column (c :: rest) tokens ("" :: styles)
  | comment {column text} :
      Coloured column ('#' :: text) [] (List.replicate (text.length + 1) Group.comment.style)
  | token {column kind literal span rest tokens styles} (hspan : Spans [] kind literal span rest)
      (h : Coloured (column + span.length) rest tokens styles) :
      Coloured column (span ++ rest) (⟨kind, literal, 1, column⟩ :: tokens)
        (List.replicate span.length (groupOf ⟨kind, literal, 1, column⟩).style ++ styles)

def joined (fragments : List Fragment) : String :=
  String.join (fragments.map Fragment.text)

/-- The style of each character that some fragments show. -/
def stylesOf (fragments : List Fragment) : List String :=
  fragments.flatMap fun fragment => List.replicate fragment.text.length fragment.style

theorem joined_append (fragments more : List Fragment) :
    joined (fragments ++ more) = joined fragments ++ joined more := by
  rw [joined, List.map_append, String.join_append, joined, joined]

theorem stylesOf_append (fragments more : List Fragment) :
    stylesOf (fragments ++ more) = stylesOf fragments ++ stylesOf more :=
  List.flatMap_append

/-- A token belongs to the built-in functions exactly if it is a name of one. -/
theorem groupOf_eq_builtin_iff (token : Token) :
    groupOf token = .builtin ↔ token.kind = .ident ∧ ∃ builtin : Builtin, builtin.name = token.literal := by
  have hkinds : ∀ kind, groupOfKind kind ≠ .builtin := by
    intro kind
    cases kind <;> decide
  have hnamed : (Builtin.ofName? token.literal).isSome ↔ ∃ builtin : Builtin, builtin.name = token.literal := by
    have hall : ∀ builtin : Builtin, builtin ∈ Builtin.all := by
      intro builtin
      cases builtin <;> decide
    simp [Builtin.ofName?, List.find?_isSome, hall]
  rw [groupOf]
  by_cases h : token.kind = .ident ∧ (Builtin.ofName? token.literal).isSome
  · simp [h, ← hnamed]
  · rw [if_neg h]
    rw [hnamed] at h
    simp [hkinds, h]

/-! ### The colours are unique -/

section

variable {column : Nat} {rest : List Char} {tokens : List Token} {styles : List String}

theorem Coloured.of_nil (h : Coloured column [] tokens styles) : tokens = [] ∧ styles = [] := by
  generalize htext : ([] : List Char) = text at h
  cases h with
  | ended => exact ⟨rfl, rfl⟩
  | blank => cases htext
  | comment => cases htext
  | token hspan =>
    obtain ⟨c, cs, -, rfl, -⟩ := hspan.lexes
    cases htext

theorem Coloured.of_blank {c : Char} (hc : Blank c) (h : Coloured column (c :: rest) tokens styles) :
    ∃ behind, styles = "" :: behind ∧ Coloured (column + 1) rest tokens behind := by
  generalize htext : c :: rest = text at h
  cases h with
  | ended => cases htext
  | blank _ h =>
    cases htext
    exact ⟨_, rfl, h⟩
  | comment =>
    cases htext
    exact absurd hc (by decide)
  | token hspan =>
    obtain ⟨d, ds, -, rfl, hstart, -⟩ := hspan.lexes
    cases htext
    exact absurd hc hstart.1

theorem Coloured.of_comment (h : Coloured column ('#' :: rest) tokens styles) :
    tokens = [] ∧ styles = List.replicate (rest.length + 1) Group.comment.style := by
  generalize htext : '#' :: rest = text at h
  cases h with
  | ended => cases htext
  | blank hblank =>
    cases htext
    exact absurd hblank (by decide)
  | comment =>
    cases htext
    exact ⟨rfl, rfl⟩
  | token hspan =>
    obtain ⟨d, ds, -, rfl, hstart, -⟩ := hspan.lexes
    cases htext
    exact absurd rfl hstart.2

theorem Coloured.of_token {kind : TokenKind} {literal : String} {span : List Char}
    (hspan : Spans [] kind literal span rest) (h : Coloured column (span ++ rest) tokens styles) :
    ∃ behind more, tokens = ⟨kind, literal, 1, column⟩ :: behind ∧
      styles = List.replicate span.length (groupOf ⟨kind, literal, 1, column⟩).style ++ more ∧
      Coloured (column + span.length) rest behind more := by
  generalize htext : span ++ rest = text at h
  obtain ⟨c, cs, -, hcs, hstart, -⟩ := hspan.lexes
  cases h with
  | ended =>
    subst hcs
    cases htext
  | blank hblank =>
    subst hcs
    cases htext
    exact absurd hblank hstart.1
  | comment =>
    subst hcs
    cases htext
    exact absurd rfl hstart.2
  | token hspan' h =>
    obtain ⟨rfl, rfl, rfl, rfl⟩ := hspan.lexes.unique hspan'.lexes htext
    exact ⟨_, _, rfl, rfl, h⟩

/-- A line has one style for each of its characters, and no choice of tokens. -/
theorem Coloured.unique {tokens' : List Token} {styles' : List String} (h : Coloured column rest tokens styles)
    (h' : Coloured column rest tokens' styles') : tokens' = tokens ∧ styles' = styles := by
  induction h generalizing tokens' styles' with
  | ended => exact h'.of_nil
  | blank hblank _ ih =>
    obtain ⟨behind, rfl, hbehind⟩ := h'.of_blank hblank
    obtain ⟨rfl, rfl⟩ := ih hbehind
    exact ⟨rfl, rfl⟩
  | comment => exact h'.of_comment
  | token hspan _ ih =>
    obtain ⟨behind, more, rfl, rfl, hbehind⟩ := h'.of_token hspan
    obtain ⟨rfl, rfl⟩ := ih hbehind
    exact ⟨rfl, rfl⟩

end

/-! ### Fragments that show a stretch of a line -/

/-- The fragments of a line from a column on, in which the given tokens stand. -/
structure Shows (column : Nat) (rest : List Char) (tokens : List Token) (fragments : List Fragment) : Prop where
  joined : joined fragments = String.ofList rest
  nonempty : ∀ fragment ∈ fragments, fragment.text ≠ ""
  coloured : Coloured column rest tokens (stylesOf fragments)

section

variable {column : Nat} {gap span rest : List Char} {tokens : List Token} {fragments : List Fragment}

theorem shows_nil : Shows column [] [] [] where
  joined := rfl
  nonempty := by simp
  coloured := .ended

theorem ofList_ne_empty {cs : List Char} (h : cs ≠ []) : String.ofList cs ≠ "" := by
  intro hempty
  exact h (String.ofList_eq_empty_iff.mp hempty)

theorem joined_gapFragments (gap : List Char) : joined (gapFragments gap) = String.ofList gap := by
  have hsplit : gap.takeWhile (· ≠ '#') ++ gap.dropWhile (· ≠ '#') = gap := List.takeWhile_append_dropWhile
  have hone (group : Group) (cs : List Char) :
      joined (if cs.isEmpty then [] else [⟨group, String.ofList cs⟩]) = String.ofList cs := by
    cases cs with
    | nil => rfl
    | cons c cs => simp [joined]
  rw [gapFragments, joined_append, hone, hone, ← String.ofList_append, hsplit]

theorem nonempty_gapFragments (gap : List Char) : ∀ fragment ∈ gapFragments gap, fragment.text ≠ "" := by
  have hone (group : Group) (cs : List Char) :
      ∀ fragment ∈ if cs.isEmpty then [] else [Fragment.mk group (String.ofList cs)], fragment.text ≠ "" := by
    cases cs with
    | nil => exact List.forall_mem_nil _
    | cons c cs => exact List.forall_mem_singleton.mpr (ofList_ne_empty (List.cons_ne_nil c cs))
  exact List.forall_mem_append.mpr ⟨hone .blank _, hone .comment _⟩

/-- Up to the first `#` of a gap nothing has a style, and from there on all is a comment. -/
theorem stylesOf_gapFragments (gap : List Char) : stylesOf (gapFragments gap) =
    List.replicate (gap.takeWhile (· ≠ '#')).length "" ++
      List.replicate (gap.dropWhile (· ≠ '#')).length Group.comment.style := by
  have hone (group : Group) (cs : List Char) :
      stylesOf (if cs.isEmpty then [] else [⟨group, String.ofList cs⟩]) =
        List.replicate cs.length group.style := by
    cases cs with
    | nil => rfl
    | cons c cs => simp [stylesOf, Fragment.style, Nat.add_comm]
  rw [gapFragments, stylesOf_append, hone, hone]
  rfl

/-- On a single line, a gap is made of blanks and perhaps of a comment to the end of the line. -/
theorem coloured_gap {styles : List String} (hgap : Gap gap rest) (hline : '\n' ∉ gap ++ rest)
    (h : Coloured (column + gap.length) rest tokens styles) :
    Coloured column (gap ++ rest) tokens (stylesOf (gapFragments gap) ++ styles) := by
  rw [stylesOf_gapFragments]
  induction hgap generalizing column with
  | nil => exact h
  | @blank c gap rest hblank _ ih =>
    rw [List.cons_append, List.mem_cons, not_or] at hline
    rw [List.length_cons, Nat.add_comm gap.length, ← Nat.add_assoc] at h
    have hc : c ≠ '#' := by
      rintro rfl
      exact absurd hblank (by decide)
    have hrest := ih hline.2 h
    simpa [hc, List.replicate_succ] using hrest.blank hblank
  | @comment text gap rest htext hend _ _ =>
    -- the comment ends in front of a line feed, or else with the line
    have hnil : gap ++ rest = [] := by
      rw [List.append_assoc] at hline
      generalize gap ++ rest = behind at hend hline
      cases behind with
      | nil => rfl
      | cons c behind => simp [Decidable.not_not.mp (stops_cons.mp hend)] at hline
    obtain ⟨rfl, rfl⟩ := List.append_eq_nil_iff.mp hnil
    obtain ⟨rfl, rfl⟩ := h.of_nil
    simpa using Coloured.comment

theorem shows_gap (hgap : Gap gap rest) (hline : '\n' ∉ gap ++ rest)
    (h : Shows (column + gap.length) rest tokens fragments) :
    Shows column (gap ++ rest) tokens (gapFragments gap ++ fragments) where
  joined := by rw [joined_append, joined_gapFragments, h.joined, String.ofList_append]
  nonempty := List.forall_mem_append.mpr ⟨nonempty_gapFragments gap, h.nonempty⟩
  coloured := by
    rw [stylesOf_append]
    exact coloured_gap hgap hline h.coloured

theorem shows_token {kind : TokenKind} {literal : String} (hspan : Spans [] kind literal span rest)
    (h : Shows (column + span.length) rest tokens fragments) :
    Shows column (span ++ rest) (⟨kind, literal, 1, column⟩ :: tokens)
      (⟨groupOf ⟨kind, literal, 1, column⟩, String.ofList span⟩ :: fragments) where
  joined := by
    rw [String.ofList_append, ← h.joined]
    exact String.join_cons
  nonempty := by
    obtain ⟨c, cs, -, rfl, -⟩ := hspan.lexes
    exact List.forall_mem_cons.mpr ⟨ofList_ne_empty (List.cons_ne_nil c cs), h.nonempty⟩
  coloured := by
    have hstyles := Coloured.token hspan h.coloured
    rwa [← String.length_ofList] at hstyles

end

/-! ### The fragments of a line -/

theorem slice_middle (front middle behind : List Char) :
    slice (front ++ (middle ++ behind)) front.length (front.length + middle.length) = middle := by
  simp [slice]

/-- On a single line the place behind some characters is their number. -/
theorem after_start {front : List Char} (h : '\n' ∉ front) :
    Position.after {} front = ⟨front.length, 1, front.length + 1⟩ := by
  have hoffset (cs : List Char) (p : Position) : (p.after cs).offset = p.offset + cs.length := by
    induction cs generalizing p with
    | nil => rfl
    | cons c cs ih =>
      have hnext : (p.next c).offset = p.offset + 1 := by
        rw [Position.next]
        split <;> rfl
      show ((p.next c).after cs).offset = _
      rw [ih, hnext, List.length_cons, Nat.add_assoc, Nat.add_comm 1]
  obtain ⟨hline, hcolumn⟩ := Position.after_line h {}
  calc Position.after {} front
      = ⟨(Position.after {} front).offset, (Position.after {} front).line, (Position.after {} front).column⟩ := rfl
    _ = ⟨front.length, 1, front.length + 1⟩ := by
      rw [hoffset, hline, hcolumn, Nat.zero_add, Nat.add_comm 1]

/-- The fragments from a place on are those of a gap, that of a token, and those from behind the token on. -/
theorem fragmentsFrom_token {front gap span rest : List Char} {kind : TokenKind} {literal : String}
    (hgap : Gap gap (span ++ rest)) (hspan : Spans [] kind literal span rest)
    (hline : '\n' ∉ front ++ gap ++ span) (fuel : Nat) :
    fragmentsFrom (front ++ (gap ++ (span ++ rest))) front.length
        (spansWithin (fuel + 1) ⟨gap ++ (span ++ rest), Position.after {} front⟩) =
      gapFragments gap ++
        ⟨groupOf ⟨kind, literal, 1, (front ++ gap).length + 1⟩, String.ofList span⟩ ::
        fragmentsFrom (front ++ gap ++ span ++ rest) (front ++ gap ++ span).length
          (spansWithin fuel ⟨rest, Position.after {} (front ++ gap ++ span)⟩) := by
  have hfront : '\n' ∉ front ++ gap := fun h => hline (List.mem_append_left _ h)
  have htext : front ++ (gap ++ (span ++ rest)) = front ++ gap ++ span ++ rest := by
    simp only [List.append_assoc]
  have hbetween : slice (front ++ gap ++ span ++ rest) front.length (front ++ gap).length = gap := by
    rw [← htext, List.length_append]
    exact slice_middle front gap _
  have hspanned :
      slice (front ++ gap ++ span ++ rest) (front ++ gap).length (front ++ gap ++ span).length = span := by
    rw [List.append_assoc (front ++ gap), @List.length_append _ (front ++ gap) span]
    exact slice_middle (front ++ gap) span rest
  rw [spansWithin, Scanner.nextToken?_token hgap hspan.lexes, htext]
  simp only [fragmentsFrom, ← Position.after_append, ← List.append_assoc front gap span, after_start hfront,
    after_start hline, Nat.add_sub_cancel, hbetween, hspanned]

/-- The fragments of a line from a place on show what is left of it there. -/
theorem shows_fragmentsFrom {front rest : List Char} (hline : '\n' ∉ front ++ rest) {fuel : Nat}
    (hfuel : rest.length ≤ fuel) :
    Shows (front.length + 1) rest (⟨rest, Position.after {} front⟩ : Scanner).tokens.1
      (fragmentsFrom (front ++ rest) front.length (spansWithin fuel ⟨rest, Position.after {} front⟩)) := by
  induction rest using text_induction generalizing front fuel with
  | gap gap hgap =>
    have hspans : spansWithin fuel ⟨gap, Position.after {} front⟩ = [] := by
      cases fuel with
      | zero => rfl
      | succ fuel => rw [spansWithin, Scanner.nextToken?_ended hgap]
    have hgap' : '\n' ∉ gap ++ [] := by simp_all
    have hshows : Shows (front.length + 1) (gap ++ []) [] (gapFragments gap ++ []) :=
      shows_gap hgap hgap' shows_nil
    rw [List.append_nil, List.append_nil] at hshows
    rwa [Scanner.tokens_ended hgap, hspans, fragmentsFrom, List.drop_left]
  | token gap span rest kind literal hgap hspan ih =>
    obtain ⟨c, cs, -, hcs, -⟩ := hspan.lexes
    obtain ⟨fuel, rfl⟩ : ∃ less, fuel = less + 1 := by
      cases fuel with
      | zero => simp [hcs] at hfuel
      | succ fuel => exact ⟨fuel, rfl⟩
    have hbehind : '\n' ∉ front ++ gap ++ span ++ rest := by simpa using hline
    have hfront : '\n' ∉ front ++ gap ++ span := fun h => hbehind (List.mem_append_left _ h)
    have hgap' : '\n' ∉ gap ++ (span ++ rest) := fun h => hline (List.mem_append_right _ h)
    have hrest : rest.length ≤ fuel := by
      simp only [hcs, List.length_append, List.length_cons] at hfuel
      omega
    have hplace : front.length + 1 + gap.length = (front ++ gap).length + 1 := by
      rw [List.length_append]
      omega
    have hend : front.length + 1 + gap.length + span.length = (front ++ gap ++ span).length + 1 := by
      rw [hplace, @List.length_append _ (front ++ gap) span]
      omega
    have hshows := ih hbehind hrest
    rw [← hend] at hshows
    have hshows' := shows_gap hgap hgap' (shows_token hspan hshows)
    rw [hplace] at hshows'
    have hplaced := after_start fun h => hfront (List.mem_append_left span h)
    rwa [fragmentsFrom_token hgap hspan hfront, Scanner.tokens_token hgap hspan.lexes, ← Position.after_append,
      ← Position.after_append, ← List.append_assoc front gap span, hplaced]

/-- A line is its fragments joined, and its characters have the styles of these. -/
theorem shows_line {text : String} (hline : '\n' ∉ text.toList) :
    joined (line text) = text ∧ ((∀ fragment ∈ line text, fragment.text ≠ "") ↔ text ≠ "") ∧
      Coloured 1 text.toList (tokenize text).dropLast (stylesOf (line text)) := by
  have htokens : (tokenize text).dropLast = (⟨text.toList, Position.after {} []⟩ : Scanner).tokens.1 :=
    List.dropLast_concat
  rw [htokens]
  by_cases hempty : text = ""
  · subst hempty
    refine ⟨rfl, by simp [line, emptyLine], .ended⟩
  · have hfront : '\n' ∉ [] ++ text.toList := hline
    have hshows := shows_fragmentsFrom hfront (Nat.le_refl text.toList.length)
    have hfragments : line text = fragmentsFrom text.toList 0 (spans text) := by
      rw [line, if_neg (by simpa using hempty)]
    rw [hfragments]
    refine ⟨?_, iff_of_true hshows.nonempty hempty, hshows.coloured⟩
    exact hshows.joined.trans String.ofList_toList

/-! ### Documents -/

/-- Joined by line feeds, the lines of a text are the text. -/
theorem intercalate_lineChars (text : List Char) :
    Text.lineChars text ≠ [] ∧ ['\n'].intercalate (Text.lineChars text) = text := by
  induction text using Text.line_induction with
  | last line hline =>
    rw [Text.lineChars_line hline]
    exact ⟨List.cons_ne_nil _ _, List.intercalate_singleton⟩
  | line line rest hline ih =>
    rw [Text.lineChars_append hline]
    refine ⟨List.cons_ne_nil _ _, ?_⟩
    rw [List.intercalate_cons_of_ne_nil ih.1, ih.2, List.append_assoc, List.singleton_append]

theorem not_mem_lineChars (text : List Char) : ∀ line ∈ Text.lineChars text, '\n' ∉ line := by
  induction text using Text.line_induction with
  | last line hline =>
    rw [Text.lineChars_line hline]
    exact List.forall_mem_singleton.mpr hline
  | line line rest hline ih =>
    rw [Text.lineChars_append hline]
    exact List.forall_mem_cons.mpr ⟨hline, ih⟩

/-- The fragments of the lines of a document, each asked for by its number. -/
def documentFragments (text : String) : List (List Fragment) :=
  (List.range (Text.lines text).length).map fun number : Nat => lineAt (Text.lines text) number

theorem documentFragments_eq (text : String) : documentFragments text = (Text.lines text).map line := by
  apply List.ext_getElem
  · rw [documentFragments, List.length_map, List.length_range, List.length_map]
  · intro number _ hnumber
    rw [List.length_map] at hnumber
    have hnonneg : ¬ (number : Int) < 0 := by omega
    simp [documentFragments, lineAt, hnonneg, hnumber]

theorem joined_documentFragments (text : String) :
    "\n".intercalate ((documentFragments text).map joined) = text := by
  have hline : ∀ line ∈ Text.lines text, joined (Highlight.line line) = line := by
    intro line hline
    obtain ⟨chars, hchars, rfl⟩ := List.mem_map.mp hline
    have hfeed : '\n' ∉ (String.ofList chars).toList := by
      rw [String.toList_ofList]
      exact not_mem_lineChars _ chars hchars
    exact (shows_line hfeed).1
  have hjoined : (documentFragments text).map joined = Text.lines text := by
    rw [documentFragments_eq, List.map_map]
    exact (List.map_congr_left hline).trans (List.map_id _)
  have hchars : (Text.lines text).map String.toList = Text.lineChars text.toList := by
    rw [Text.lines, List.map_map]
    exact (List.map_congr_left fun _ _ => String.toList_ofList).trans (List.map_id _)
  rw [hjoined, ← String.toList_inj, String.toList_intercalate, hchars]
  exact (intercalate_lineChars text.toList).2

/-- Nothing is lost by highlighting and nothing is invented: a line is its fragments joined, and its characters
    have the styles of what the line is made of there; a document is its lines joined. -/
theorem line_coloured :
    (∀ text : String, '\n' ∉ text.toList →
      joined (line text) = text ∧ ((∀ fragment ∈ line text, fragment.text ≠ "") ↔ text ≠ "") ∧
        ∀ tokens styles, Coloured 1 text.toList tokens styles ↔
          tokens = (tokenize text).dropLast ∧ styles = stylesOf (line text)) ∧
    (∀ token, groupOf token = .builtin ↔
      token.kind = .ident ∧ ∃ builtin : Builtin, builtin.name = token.literal) ∧
    ∀ text, "\n".intercalate ((documentFragments text).map joined) = text := by
  refine ⟨fun text hline => ?_, groupOf_eq_builtin_iff, joined_documentFragments⟩
  obtain ⟨hjoined, hnonempty, hcoloured⟩ := shows_line hline
  refine ⟨hjoined, hnonempty, fun tokens styles => ?_⟩
  constructor
  · intro h
    exact hcoloured.unique h
  · rintro ⟨rfl, rfl⟩
    exact hcoloured

/-- A line with a mark of a comment in a string, and a quote in a comment. -/
theorem line_coloured_marks :
    let text := "len(\"#\") # \"x"
    '\n' ∉ text.toList ∧ joined (line text) = text ∧
      Coloured 1 text.toList (tokenize text).dropLast
        (List.replicate 3 "bold ansiyellow" ++ [""] ++ List.replicate 3 "ansigreen" ++ ["", ""] ++
          List.replicate 4 "italic ansibrightblack") := by
  intro text
  have hline : '\n' ∉ text.toList := by decide
  obtain ⟨hjoined, -, hcoloured⟩ := line_coloured.1 text hline
  exact ⟨hline, hjoined, (hcoloured _ _).mpr ⟨rfl, by decide +kernel⟩⟩

end Highlight

end Monkey
