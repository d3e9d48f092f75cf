import Monkey.Proofs.Scanner.Lexeme

/-!
# The tokens of a program text

The tokens of a text cut it up: between them lie gaps, and nothing else is left over. `Partition` says
what a cut has to look like, and the main statement is that every text has exactly one, which is the one
that the scanner finds.

For the way there, `Scanner.tokenize_token` and `Scanner.tokenize_gap` say how scanning goes on behind a
gap. That a row of letters or digits does not start earlier than its token is an invariant of the
scan, `Fresh`: a row that ends where the scanner stands does not go on behind it.
-/

namespace Monkey

namespace Lexical

/-! ### Gaps -/

/-- Blanks and comments in front of a text. A comment ends in front of the next line feed, or else with
    the text. -/
inductive Gap : List Char → List Char → Prop where
  | nil {rest} : Gap [] rest
  | blank {c gap rest} (hblank : Blank c) (h : Gap gap rest) : Gap (c :: gap) rest
  | comment {text gap rest} (htext : '\n' ∉ text) (hend : Stops (· ≠ '\n') (gap ++ rest))
      (h : Gap gap rest) : Gap ('#' :: text ++ gap) rest

/-- A character that a gap can start with. -/
def StartsGap (c : Char) : Prop :=
  Blank c ∨ c = '#'

theorem gapLength_comment {text rest : List Char} (htext : '\n' ∉ text)
    (hend : Stops (· ≠ '\n') rest) :
    gapLength true (text ++ rest) = text.length + gapLength false rest := by
  induction text with
  | nil =>
    cases rest with
    | nil => rfl
    | cons c rest =>
      have hc : c = '\n' := Decidable.not_not.mp (stops_cons.mp hend)
      simp [gapLength, hc, isSpace]
  | cons c text ih =>
    simp only [List.mem_cons, not_or] at htext
    have hc : c ≠ '\n' := fun h => htext.1 h.symm
    simp only [List.cons_append, gapLength, hc, ne_eq, not_false_eq_true, decide_true,
      ih htext.2, List.length_cons]
    omega

/-- A gap is measured to its end, and then what goes on with it. -/
theorem Gap.gapLength_append {gap rest : List Char} (h : Gap gap rest) :
    gapLength false (gap ++ rest) = gap.length + gapLength false rest := by
  induction h with
  | nil => simp
  | blank hblank _ ih =>
    simp only [List.cons_append, gapLength, isSpace_iff.mpr hblank, if_true, ih, List.length_cons]
    omega
  | @comment text gap rest htext hend _ ih =>
    have hspace : isSpace '#' = false := by decide
    simp only [List.cons_append, List.append_assoc, gapLength, hspace, Bool.false_eq_true, if_false,
      if_true, gapLength_comment htext hend, ih, List.length_cons, List.length_append]
    omega

theorem gapLength_of_stops {rest : List Char} (hrest : Stops StartsGap rest) :
    gapLength false rest = 0 := by
  cases rest with
  | nil => rfl
  | cons c rest =>
    have hc := stops_cons.mp hrest
    simp only [StartsGap, not_or] at hc
    simp [gapLength, hc.2, mt isSpace_iff.mp hc.1]

theorem Gap.gapLength_eq {gap rest : List Char} (h : Gap gap rest) (hrest : Stops StartsGap rest) :
    gapLength false (gap ++ rest) = gap.length := by
  rw [h.gapLength_append, gapLength_of_stops hrest, Nat.add_zero]

/-- What is measured as a gap is one, and no other gap goes on behind it. Inside a comment, the text
    starts with what is left of it. -/
theorem gap_of_gapLength (inside : Bool) (cs : List Char) :
    Stops StartsGap (cs.drop (gapLength inside cs)) ∧
    ∃ text gap, cs.take (gapLength inside cs) = text ++ gap ∧
      Gap gap (cs.drop (gapLength inside cs)) ∧ '\n' ∉ text ∧
      if inside then Stops (· ≠ '\n') (gap ++ cs.drop (gapLength inside cs)) else text = [] := by
  fun_induction gapLength inside cs with
  | case1 inside => exact ⟨stops_nil _, [], [], by cases inside <;> simp [Gap.nil, stops_nil]⟩
  | case2 c rest ih =>
    obtain ⟨hstops, text, gap, htake, hgap, htext, hinside⟩ := ih
    refine ⟨hstops, ?_⟩
    by_cases hc : c = '\n'
    · -- the comment ends here, and the line feed belongs to the gap behind it
      subst hc
      simp only [ne_eq, not_true_eq_false, decide_false, Bool.false_eq_true, if_false] at hinside
      subst hinside
      exact ⟨[], '\n' :: gap, by simpa using htake, .blank (by simp [Blank]) hgap, by simp,
        by simp [stops_cons]⟩
    · simp only [ne_eq, hc, not_false_eq_true, decide_true, if_true] at hinside
      exact ⟨c :: text, gap, by simpa [hc] using htake, by simpa [hc] using hgap,
        by simp [htext, Ne.symm hc], by simpa [hc] using hinside⟩
  | case3 c rest hspace ih =>
    obtain ⟨hstops, text, gap, htake, hgap, htext, hinside⟩ := ih
    simp only [Bool.false_eq_true, if_false] at hinside
    subst hinside
    exact ⟨hstops, [], c :: gap, by simpa using htake, .blank (isSpace_iff.mp hspace) hgap, by simp,
      by simp⟩
  | case4 rest hspace ih =>
    obtain ⟨hstops, text, gap, htake, hgap, htext, hinside⟩ := ih
    exact ⟨hstops, [], '#' :: text ++ gap, by simpa using htake,
      .comment htext (by simpa using hinside) hgap, by simp, by simp⟩
  | case5 c rest hspace hcomment =>
    refine ⟨stops_cons.mpr ?_, [], [], by simp [Gap.nil]⟩
    rintro (hblank | hc)
    · exact hspace (isSpace_iff.mpr hblank)
    · exact hcomment hc

end Lexical

open Lexical

/-! ### Scanning behind a gap -/

theorem Position.after_append (p : Position) (cs ds : List Char) :
    p.after (cs ++ ds) = (p.after cs).after ds :=
  List.foldl_append

namespace Scanner

variable {s : Scanner} {p : Position}

theorem lexeme_width_pos (c : Char) (rest : List Char) : 0 < (lexeme c rest).width := by
  unfold lexeme
  split
  · exact Nat.succ_pos _
  split
  · exact Nat.succ_pos _
  split
  · exact Nat.succ_pos _
  split
  · next kind hkind =>
    obtain ⟨d, ds, hd⟩ := sign_ne_nil (operatorAt?_eq_some hkind).1
    simp [Lexeme.plain, hd]
  · exact Nat.succ_pos _

/-- Every token takes a character. -/
theorem length_lt_of_nextToken? {token : Token} {behind : Scanner}
    (h : s.nextToken? = some (token, behind)) : behind.rest.length < s.rest.length := by
  simp only [nextToken?] at h
  cases hrest : s.skipGap.rest with
  | nil => simp [hrest] at h
  | cons c rest =>
    simp only [hrest, Option.some.injEq, Prod.mk.injEq] at h
    rw [← h.2, advance, List.length_drop]
    have hpos := lexeme_width_pos c rest
    have hgap : s.skipGap.rest.length ≤ s.rest.length := by simp [skipGap, advance]
    have hne : 0 < s.skipGap.rest.length := by simp [hrest]
    omega

theorem nextToken?_of_nil (h : s.rest = []) : s.nextToken? = none := by
  have hrest : s.skipGap.rest = [] := by simp [skipGap, advance, h]
  simp [nextToken?, hrest]

/-- More fuel than characters makes no difference. -/
theorem tokensWithin_congr {fuel fuel' : Nat} (h : s.rest.length ≤ fuel)
    (h' : s.rest.length ≤ fuel') : s.tokensWithin fuel = s.tokensWithin fuel' := by
  induction fuel generalizing s fuel' with
  | zero =>
    have hnil : s.rest = [] := List.eq_nil_of_length_eq_zero (Nat.le_zero.mp h)
    cases fuel' with
    | zero => rfl
    | succ fuel' => simp [tokensWithin, nextToken?_of_nil hnil]
  | succ fuel ih =>
    cases fuel' with
    | zero =>
      have hnil : s.rest = [] := List.eq_nil_of_length_eq_zero (Nat.le_zero.mp h')
      simp [tokensWithin, nextToken?_of_nil hnil]
    | succ fuel' =>
      simp only [tokensWithin]
      cases hnext : s.nextToken? with
      | none => rfl
      | some found =>
        have hlt := length_lt_of_nextToken? hnext
        have hbehind : found.2.tokensWithin fuel = found.2.tokensWithin fuel' :=
          ih (by omega) (by omega)
        simp only [hbehind]

/-- The tokens of a text are its next token and the tokens behind it. -/
theorem tokens_eq (s : Scanner) : s.tokens = match s.nextToken? with
    | none => ([], s.skipGap)
    | some (token, behind) => (token :: behind.tokens.1, behind.tokens.2) := by
  have hone : s.tokens = s.tokensWithin (s.rest.length + 1) :=
    tokensWithin_congr (Nat.le_refl _) (Nat.le_succ _)
  rw [hone, tokensWithin]
  cases hnext : s.nextToken? with
  | none => rfl
  | some found =>
    have hlt := length_lt_of_nextToken? hnext
    simp only [tokens, tokensWithin_congr (Nat.le_of_lt hlt) (Nat.le_refl _)]

theorem tokenize_eq (s : Scanner) : s.tokenize.1 = match s.nextToken? with
    | none => [s.skipGap.endToken]
    | some (token, behind) => token :: behind.tokenize.1 := by
  rw [tokenize, tokens_eq]
  cases s.nextToken? <;> rfl

theorem skipGap_eq {gap rest : List Char} (hgap : Gap gap rest) (hrest : Stops StartsGap rest) :
    (⟨gap ++ rest, p⟩ : Scanner).skipGap = ⟨rest, p.after gap⟩ := by
  simp [skipGap, advance, hgap.gapLength_eq hrest]

/-- A gap up to the end of a text is passed over. -/
theorem skipGap_ended {gap : List Char} (hgap : Gap gap []) :
    (⟨gap, p⟩ : Scanner).skipGap = ⟨[], p.after gap⟩ := by
  have hskip := skipGap_eq (p := p) hgap (stops_nil _)
  rwa [List.append_nil] at hskip

theorem nextToken?_ended {gap : List Char} (hgap : Gap gap []) : (⟨gap, p⟩ : Scanner).nextToken? = none := by
  simp [nextToken?, skipGap_ended hgap]

/-- At the end of a text stands its end token. -/
theorem tokenize_gap {gap : List Char} (hgap : Gap gap []) :
    (⟨gap, p⟩ : Scanner).tokenize.1 = [⟨.eof, "", (p.after gap).line, (p.after gap).column⟩] := by
  rw [tokenize_eq, nextToken?_ended hgap, skipGap_ended hgap]
  rfl

/-- A token behind a gap is the next one. -/
theorem nextToken?_token {gap span rest : List Char} {kind : TokenKind} {literal : String}
    (hgap : Gap gap (span ++ rest)) (h : Lexes kind literal span rest) :
    (⟨gap ++ (span ++ rest), p⟩ : Scanner).nextToken? =
      some (⟨kind, literal, (p.after gap).line, (p.after gap).column⟩, ⟨rest, p.after (gap ++ span)⟩) := by
  obtain ⟨c, cs, width, rfl, hstart, hlexeme, htake, hdrop⟩ := h
  have hskip : (⟨gap ++ (c :: cs ++ rest), p⟩ : Scanner).skipGap = ⟨c :: cs ++ rest, p.after gap⟩ := by
    refine skipGap_eq hgap (stops_cons.mpr ?_)
    rintro (hblank | hcomment)
    · exact hstart.1 hblank
    · exact hstart.2 hcomment
  rw [nextToken?, hskip]
  simp only [List.cons_append, hlexeme, advance] at htake hdrop ⊢
  rw [htake, hdrop, Position.after_append]

/-- A token behind a gap is scanned, and the scan goes on behind it. -/
theorem tokenize_token {gap span rest : List Char} {kind : TokenKind} {literal : String}
    (hgap : Gap gap (span ++ rest)) (h : Lexes kind literal span rest) :
    (⟨gap ++ (span ++ rest), p⟩ : Scanner).tokenize.1 =
      ⟨kind, literal, (p.after gap).line, (p.after gap).column⟩ ::
        (⟨rest, p.after (gap ++ span)⟩ : Scanner).tokenize.1 := by
  rw [tokenize_eq, nextToken?_token hgap h]

end Scanner

/-! ### Cutting up a text -/

/-- The token that starts behind the characters `before`. -/
def tokenBehind (before : List Char) (kind : TokenKind) (literal : String) : Token :=
  let place := Position.after {} before
  ⟨kind, literal, place.line, place.column⟩

/-- The tokens, the last of which is the end, cut up the text behind `before`: in order and with gaps
    between them, their spans are the text. -/
inductive Partition : List Char → List Char → List Token → Prop where
  | done {before gap} (hgap : Gap gap []) : Partition before gap [tokenBehind (before ++ gap) .eof ""]
  | token {before gap span rest kind literal tokens} (hgap : Gap gap (span ++ rest))
      (hspan : Spans (before ++ gap) kind literal span rest)
      (h : Partition (before ++ gap ++ span) rest tokens) :
      Partition before (gap ++ (span ++ rest)) (tokenBehind (before ++ gap) kind literal :: tokens)

/-- A cut is what the scanner finds. -/
theorem Partition.eq_tokenize {before rest : List Char} {tokens : List Token}
    (h : Partition before rest tokens) :
    tokens = (⟨rest, Position.after {} before⟩ : Scanner).tokenize.1 := by
  induction h with
  | done hgap =>
    rw [Scanner.tokenize_gap hgap, ← Position.after_append]
    rfl
  | token hgap hspan _ ih =>
    rw [Scanner.tokenize_token hgap hspan.lexes, ← Position.after_append,
      ← Position.after_append, ← List.append_assoc, ← ih]
    rfl

/-! ### Every text can be cut up -/

namespace Lexical

/-- No row of letters or digits that ends here goes on behind. -/
structure Fresh (before rest : List Char) : Prop where
  word : ∀ front, front <:+ before → Word front → Stops WordChar rest
  number : ∀ front, front <:+ before → Number front → Stops Digit rest

variable {before span rest : List Char} {c : Char}

theorem Word.wordChar (h : Word span) : ∀ c ∈ span, WordChar c := by
  obtain ⟨c, cs, rfl, hletter, hcs⟩ := h
  exact List.forall_mem_cons.mpr ⟨.inl hletter, hcs⟩

theorem Number.wordChar (h : Number span) : ∀ c ∈ span, WordChar c :=
  fun c hc => .inr (h.2 c hc)

theorem Word.ne_nil (h : Word span) : span ≠ [] := by
  obtain ⟨c, cs, rfl, -⟩ := h
  exact List.cons_ne_nil c cs

/-- The start of a word is a word. -/
theorem Word.front {front behind : List Char} (h : Word (front ++ behind)) (hne : front ≠ []) :
    Word front := by
  obtain ⟨c, cs, rfl⟩ := List.exists_cons_of_ne_nil hne
  obtain ⟨d, ds, heq, hletter, hds⟩ := h
  obtain ⟨rfl, rfl⟩ := List.cons.inj heq
  exact ⟨c, cs, rfl, hletter, fun e he => hds e (List.mem_append_left _ he)⟩

theorem Number.front {front behind : List Char} (h : Number (front ++ behind)) (hne : front ≠ []) :
    Number front :=
  ⟨hne, fun c hc => h.2 c (List.mem_append_left _ hc)⟩

theorem fresh_nil : Fresh [] rest := by
  constructor
  · intro front hfront hword
    exact absurd (List.suffix_nil.mp hfront) hword.ne_nil
  · intro front hfront hnumber
    exact absurd (List.suffix_nil.mp hfront) hnumber.1

theorem fresh_of_stops (h : Stops WordChar rest) : Fresh before rest :=
  ⟨fun _ _ _ => h, fun _ _ _ => h.mono fun _ => .inr⟩

/-- Behind a character of no row, no row ends. -/
theorem fresh_of_last (hc : ¬ WordChar c) : Fresh (before ++ [c]) rest := by
  have hnone {front : List Char} (hfront : front <:+ before ++ [c])
      (hword : ∀ d ∈ front, WordChar d) : front = [] := by
    rcases List.suffix_concat_iff.mp hfront with hnil | ⟨init, rfl, -⟩
    · exact hnil
    · exact absurd (hword c (by simp)) hc
  constructor
  · exact fun front hfront hword => absurd (hnone hfront hword.wordChar) hword.ne_nil
  · exact fun front hfront hnumber => absurd (hnone hfront hnumber.wordChar) hnumber.1

theorem not_wordChar_of_blank (h : Blank c) : ¬ WordChar c :=
  fun hword => hword.not_gap.1 h

/-- A gap ends with a blank, or else with a comment, behind which the line ends. -/
theorem Gap.last {gap : List Char} (h : Gap gap rest) :
    gap = [] ∨ (∃ init c, gap = init ++ [c] ∧ Blank c) ∨ Stops (· ≠ '\n') rest := by
  induction h with
  | nil => exact .inl rfl
  | @blank c gap rest hblank _ ih =>
    rcases ih with rfl | ⟨init, d, rfl, hd⟩ | hstops
    · exact .inr (.inl ⟨[], c, rfl, hblank⟩)
    · exact .inr (.inl ⟨c :: init, d, rfl, hd⟩)
    · exact .inr (.inr hstops)
  | @comment text gap rest _ hend _ ih =>
    rcases ih with rfl | ⟨init, d, rfl, hd⟩ | hstops
    · exact .inr (.inr hend)
    · exact .inr (.inl ⟨'#' :: text ++ init, d, by simp, hd⟩)
    · exact .inr (.inr hstops)

theorem Gap.fresh {gap : List Char} (h : Gap gap rest) (hbefore : Fresh before (gap ++ rest)) :
    Fresh (before ++ gap) rest := by
  rcases h.last with rfl | ⟨init, c, rfl, hc⟩ | hstops
  · simpa using hbefore
  · rw [← List.append_assoc]
    exact fresh_of_last (not_wordChar_of_blank hc)
  · refine fresh_of_stops (hstops.mono ?_)
    rintro c hword rfl
    exact hword.not_gap.1 (by simp [Blank])

/-- A row is a full one if no row ends in front of it and the text stops behind it. -/
theorem full_of_stops {p : List Char → Prop} {q : Char → Prop} (hspan : p span)
    (hfront : ∀ front behind, p (front ++ behind) → front ≠ [] → p front)
    (hchars : ∀ cs, p cs → ∀ c ∈ cs, q c) (hbefore : ∀ front, front <:+ before → ¬ p front)
    (hrest : Stops q rest) : Full p before span rest := by
  refine ⟨hspan, fun front behind hsuffix hprefix hlonger => ⟨?_, ?_⟩⟩
  · rw [List.append_assoc] at hlonger
    exact Decidable.byContradiction fun hne => hbefore front hsuffix (hfront _ _ hlonger hne)
  · cases behind with
    | nil => rfl
    | cons c behind =>
      obtain ⟨more, rfl⟩ := hprefix
      exact absurd (hchars _ hlonger c (by simp)) (stops_cons.mp hrest)

theorem spans_word (hspan : Word span) (hrest : Stops WordChar rest)
    (hbefore : Fresh before (span ++ rest)) :
    Spans before (wordKind (String.ofList span)) (String.ofList span) span rest := by
  refine .word (full_of_stops hspan (fun _ _ => Word.front) (fun _ => Word.wordChar) ?_ hrest)
    (names_iff.mpr rfl)
  intro front hfront hword
  obtain ⟨c, cs, rfl, hletter, -⟩ := hspan
  exact stops_cons.mp (hbefore.word front hfront hword) (.inl hletter)

theorem spans_number (hspan : Number span) (hrest : Stops Digit rest)
    (hbefore : Fresh before (span ++ rest)) :
    Spans before .int (String.ofList span) span rest := by
  refine .number (full_of_stops hspan (fun _ _ => Number.front) (fun _ h => h.2) ?_ hrest)
  intro front hfront hnumber
  obtain ⟨hne, hdigits⟩ := hspan
  obtain ⟨c, cs, rfl⟩ := List.exists_cons_of_ne_nil hne
  exact stops_cons.mp (hbefore.number front hfront hnumber) (hdigits c List.mem_cons_self)

/-- Behind a number, no word ends: it would have started in front of the number. -/
theorem fresh_number (hspan : Number span) (hrest : Stops Digit rest)
    (hbefore : Fresh before (span ++ rest)) : Fresh (before ++ span) rest := by
  refine ⟨fun front hfront hword => ?_, fun _ _ _ => hrest⟩
  obtain ⟨hne, hdigits⟩ := hspan
  obtain ⟨c, cs, rfl⟩ := List.exists_cons_of_ne_nil hne
  rcases List.suffix_or_suffix_of_suffix hfront (List.suffix_append before (c :: cs)) with hin | hout
  · obtain ⟨d, ds, rfl, hletter, -⟩ := hword
    exact absurd (hdigits d (hin.subset List.mem_cons_self)) hletter.not_digit
  · obtain ⟨init, rfl⟩ := hout
    obtain ⟨more, hmore⟩ := hfront
    rw [← List.append_assoc] at hmore
    have hinit : init <:+ before := ⟨more, List.append_cancel_right hmore⟩
    have hdigit := hdigits c List.mem_cons_self
    cases init with
    | nil =>
      obtain ⟨d, ds, heq, hletter, -⟩ := hword
      obtain ⟨rfl, -⟩ := List.cons.inj heq
      exact absurd hdigit hletter.not_digit
    | cons d init =>
      have := hbefore.word _ hinit (hword.front (List.cons_ne_nil d init))
      exact absurd (.inr hdigit) (stops_cons.mp this)

/-- The longest stretch of a class at the front of a text. -/
theorem split_stretch {p : Char → Bool} {q : Char → Prop} (hpq : ∀ c, p c = true ↔ q c)
    (cs : List Char) :
    ∃ front behind, cs = front ++ behind ∧ (∀ c ∈ front, q c) ∧ Stops q behind := by
  refine ⟨cs.takeWhile p, cs.dropWhile p, List.takeWhile_append_dropWhile.symm, ?_, ?_⟩
  · exact fun c hc => (hpq c).mp (List.all_eq_true.mp List.all_takeWhile c hc)
  · intro c hc hq
    have hnot := List.head?_dropWhile_not p cs
    rw [Option.mem_def.mp hc] at hnot
    simp [(hpq c).mpr hq] at hnot

/-- A token can be taken off the front of a text that does not start with a gap. -/
theorem exists_spans (hgap : ¬ StartsGap c) (rest : List Char) (hbefore : Fresh before (c :: rest)) :
    ∃ span behind kind literal, c :: rest = span ++ behind ∧ span ≠ [] ∧
      Spans before kind literal span behind ∧ Fresh (before ++ span) behind := by
  simp only [StartsGap, not_or] at hgap
  by_cases hletter : Letter c
  · obtain ⟨cs, behind, rfl, hcs, hstops⟩ := split_stretch (q := WordChar) (fun _ => isWordChar_iff) rest
    have hword : Word (c :: cs) := ⟨c, cs, rfl, hletter, hcs⟩
    exact ⟨c :: cs, behind, _, _, rfl, by simp, spans_word hword hstops hbefore, fresh_of_stops hstops⟩
  by_cases hdigit : Digit c
  · obtain ⟨cs, behind, rfl, hcs, hstops⟩ := split_stretch (q := Digit) (fun _ => isAsciiDigit_iff) rest
    have hnumber : Number (c :: cs) := ⟨by simp, List.forall_mem_cons.mpr ⟨hdigit, hcs⟩⟩
    exact ⟨c :: cs, behind, _, _, rfl, by simp, spans_number hnumber hstops hbefore,
      fresh_number hnumber hstops hbefore⟩
  by_cases hquote : c = '"'
  · subst hquote
    obtain ⟨content, behind, rfl, hcontent, hstops⟩ :=
      split_stretch (p := (· ≠ '"')) (q := (· ≠ '"')) (fun _ => decide_eq_true_iff) rest
    have hnone : '"' ∉ content := fun hmem => hcontent '"' hmem rfl
    cases behind with
    | nil =>
      exact ⟨'"' :: content, [], _, _, by simp, by simp, .openString hnone,
        fresh_of_stops (stops_nil _)⟩
    | cons d behind =>
      have hd : d = '"' := Decidable.not_not.mp (stops_cons.mp hstops)
      subst hd
      refine ⟨'"' :: content ++ ['"'], behind, _, _, by simp, by simp, .string hnone, ?_⟩
      rw [← List.append_assoc]
      exact fresh_of_last fun hword => hword.not_gap.2.2 rfl
  cases hsign : operatorAt? (c :: rest) with
  | some kind =>
    obtain ⟨hkind, behind, hsplit, hend⟩ := operatorAt?_eq_some hsign
    obtain ⟨d, ds, hspan⟩ := sign_ne_nil hkind
    have hne : kind.text.toList ≠ [] := by simp [hspan]
    refine ⟨kind.text.toList, behind, _, _, hsplit, hne, .sign hkind hend, ?_⟩
    rw [← List.dropLast_concat_getLast hne, ← List.append_assoc]
    exact fresh_of_last (sign_spec hkind (List.getLast_mem hne)).1
  | none =>
    have hstart : ¬ StartsToken c := by
      rintro (h | h | h | h)
      · exact hletter h
      · exact hdigit h
      · exact hquote h
      · exact operatorAt?_ne_none h rest hsign
    refine ⟨[c], rest, _, _, rfl, by simp, .illegal hgap.1 hgap.2 hstart, fresh_of_last ?_⟩
    exact fun hword => hword.elim hletter hdigit

end Lexical

/-- Where no row of letters or digits is broken up, the scanner cuts up the rest of the text. -/
theorem partition_tokenize {before rest : List Char} (hbefore : Fresh before rest) :
    Partition before rest (⟨rest, Position.after {} before⟩ : Scanner).tokenize.1 := by
  induction hlength : rest.length using Nat.strongRecOn generalizing before rest with
  | ind n ih =>
    obtain ⟨hstops, text, gap, htake, hgap, -, htext⟩ := gap_of_gapLength false rest
    simp only [Bool.false_eq_true, if_false] at htext
    subst htext
    generalize hbehind : rest.drop (gapLength false rest) = behind at hstops hgap
    have hrest : rest = gap ++ behind := by
      have hsplit := List.take_append_drop (gapLength false rest) rest
      rw [htake, hbehind, List.nil_append] at hsplit
      exact hsplit.symm
    subst hrest
    cases behind with
    | nil =>
      rw [List.append_nil, Scanner.tokenize_gap hgap, ← Position.after_append]
      exact .done hgap
    | cons c behind =>
      obtain ⟨span, rest, kind, literal, hsplit, hne, hspans, hfresh⟩ :=
        exists_spans (stops_cons.mp hstops) behind (hgap.fresh hbefore)
      rw [hsplit] at hgap ⊢
      rw [Scanner.tokenize_token hgap hspans.lexes, ← Position.after_append, ← Position.after_append,
        ← List.append_assoc before]
      have hlt : rest.length < n := by
        have hpos := List.length_pos_iff.mpr hne
        rw [← hlength, hsplit, List.length_append, List.length_append]
        omega
      exact .token hgap hspans (ih _ hlt hfresh rfl)

/-- No token that spans characters is the end of the text. -/
theorem Lexical.Spans.kind_ne_eof {before span rest : List Char} {kind : TokenKind}
    {literal : String} (h : Spans before kind literal span rest) : kind ≠ .eof := by
  have hwords : ∀ entry ∈ keywords, entry.2 ≠ .eof := by decide
  have hsigns : ∀ kind ∈ operators, kind ≠ .eof := by decide
  cases h with
  | word _ hkind =>
    rcases hkind with hmem | ⟨rfl, -⟩
    · exact hwords _ hmem
    · decide
  | sign hkind => exact hsigns _ hkind
  | number | string | openString | illegal => decide

/-- The end of the text is the last token of a cut and no other. -/
theorem Partition.ends {before rest : List Char} {tokens : List Token}
    (h : Partition before rest tokens) : ∃ init last, tokens = init ++ [last] ∧ last.kind = .eof ∧
      ∀ token ∈ init, token.kind ≠ .eof := by
  induction h with
  | done => exact ⟨[], _, rfl, rfl, by simp⟩
  | token _ hspan _ ih =>
    obtain ⟨init, last, rfl, hlast, hinit⟩ := ih
    exact ⟨_ :: init, last, rfl, hlast, List.forall_mem_cons.mpr ⟨hspan.kind_ne_eof, hinit⟩⟩

/-- Every program text can be cut up in exactly one way, and its tokens are those of the cut. The end of
    the text is the last of them and no other. -/
theorem partition_iff_tokenize (source : String) :
    (∀ tokens, Partition [] source.toList tokens ↔ tokens = tokenize source) ∧
      ∃ init last, tokenize source = init ++ [last] ∧ last.kind = .eof ∧
        ∀ token ∈ init, token.kind ≠ .eof := by
  have hcut : Partition [] source.toList (tokenize source) := partition_tokenize fresh_nil
  refine ⟨fun tokens => ⟨Partition.eq_tokenize, ?_⟩, hcut.ends⟩
  rintro rfl
  exact hcut

/-! ### Tokens stand one behind the other -/

/-- A token starts on an earlier line than another one, or on the same line and further left. -/
def Token.Precedes (token token' : Token) : Prop :=
  token.line < token'.line ∨ token.line = token'.line ∧ token.column < token'.column

theorem Position.after_later (p : Position) {cs : List Char} (hne : cs ≠ []) :
    p.line < (p.after cs).line ∨ p.line = (p.after cs).line ∧ p.column < (p.after cs).column := by
  induction cs generalizing p with
  | nil => exact absurd rfl hne
  | cons c cs ih =>
    have hnext : p.line < (p.next c).line ∨ p.line = (p.next c).line ∧ p.column < (p.next c).column := by
      rw [Position.next]
      split
      · exact .inl (Nat.lt_succ_self _)
      · exact .inr ⟨rfl, Nat.lt_succ_self _⟩
    show p.line < ((p.next c).after cs).line ∨ p.line = ((p.next c).after cs).line ∧
      p.column < ((p.next c).after cs).column
    cases cs with
    | nil => exact hnext
    | cons d cs =>
      have hlater := ih (p.next c) (List.cons_ne_nil d cs)
      omega

/-- The tokens of a cut start behind the text in front of it. -/
theorem Partition.starts {before rest : List Char} {tokens : List Token} (h : Partition before rest tokens) :
    ∀ token ∈ tokens, ∃ ahead, token = tokenBehind (before ++ ahead) token.kind token.literal := by
  induction h with
  | done =>
    intro token htoken
    rw [List.mem_singleton.mp htoken]
    exact ⟨_, rfl⟩
  | @token before gap span rest kind literal tokens _ _ _ ih =>
    refine List.forall_mem_cons.mpr ⟨⟨gap, rfl⟩, fun token htoken => ?_⟩
    obtain ⟨ahead, hahead⟩ := ih token htoken
    refine ⟨gap ++ span ++ ahead, ?_⟩
    rwa [← List.append_assoc, ← List.append_assoc]

theorem Partition.ordered {before rest : List Char} {tokens : List Token} (h : Partition before rest tokens) :
    tokens.Pairwise Token.Precedes := by
  induction h with
  | done => exact List.pairwise_singleton _ _
  | @token before gap span rest kind literal tokens _ hspan hcut ih =>
    refine List.pairwise_cons.mpr ⟨fun token htoken => ?_, ih⟩
    obtain ⟨ahead, hahead⟩ := hcut.starts token htoken
    obtain ⟨c, cs, -, rfl, -⟩ := hspan.lexes
    rw [hahead, List.append_assoc]
    have hlater := Position.after_later (Position.after {} (before ++ gap)) (List.cons_ne_nil c (cs ++ ahead))
    rw [← Position.after_append] at hlater
    exact hlater

/-- No token of a text comes twice, as each has its own place. -/
theorem nodup_tokenize (source : String) : (tokenize source).Nodup := by
  have hordered := (partition_tokenize fresh_nil : Partition [] source.toList (tokenize source)).ordered
  refine hordered.imp ?_
  rintro token _ hprecedes rfl
  rcases hprecedes with hline | ⟨-, hcolumn⟩
  · exact Nat.lt_irrefl _ hline
  · exact Nat.lt_irrefl _ hcolumn

end Monkey
