import Monkey.Proofs.Node.Relabeling
import Monkey.Proofs.Scanner.Partition

/-!
# Tokens without places

Where a text stands decides the places of its tokens and nothing else. `bareTokens` are the tokens of a
text without their places, so that texts can be put together and taken apart: a gap in front of a text
adds no token, a token in front of one adds itself, and behind a text that is closed a new line can be
started (`bareTokens_append_line`).
-/

namespace Monkey

open Lexical

namespace Scanner

variable {text : List Char} {p q : Position}

/-- Scanning elsewhere gives the same tokens at other places. -/
theorem tokensWithin_place (fuel : Nat) :
    ((⟨text, p⟩ : Scanner).tokensWithin fuel).1.map Relocation.forget.move =
      ((⟨text, q⟩ : Scanner).tokensWithin fuel).1.map Relocation.forget.move := by
  induction fuel generalizing text p q with
  | zero => rfl
  | succ fuel ih =>
    simp only [tokensWithin, nextToken?, skipGap, advance]
    cases text.drop (gapLength false text) with
    | nil => rfl
    | cons c rest => exact congrArg (_ :: ·) ih

end Scanner

/-- The tokens of a text without their places, the end not included. -/
def bareTokens (text : List Char) : List Token :=
  (⟨text, {}⟩ : Scanner).tokens.1.map Relocation.forget.move

theorem Scanner.bare_tokens (s : Scanner) :
    s.tokens.1.map Relocation.forget.move = bareTokens s.rest :=
  tokensWithin_place _

/-- The tokens of a text are the one behind its first gap and the tokens behind that. -/
theorem bareTokens_eq (text : List Char) : bareTokens text =
    match text.drop (gapLength false text) with
    | [] => []
    | c :: rest => ⟨(lexeme c rest).kind, (lexeme c rest).literal, 0, 0⟩ ::
      bareTokens ((c :: rest).drop (lexeme c rest).width) := by
  rw [bareTokens, Scanner.tokens_eq]
  simp only [Scanner.nextToken?, Scanner.skipGap, Scanner.advance]
  cases text.drop (gapLength false text) with
  | nil => rfl
  | cons c rest => exact congrArg (_ :: ·) (Scanner.bare_tokens _)

variable {gap span rest : List Char} {kind : TokenKind} {literal : String}

theorem bareTokens_nil : bareTokens [] = [] := rfl

/-- A gap adds no tokens. -/
theorem bareTokens_gap (h : Gap gap rest) : bareTokens (gap ++ rest) = bareTokens rest := by
  rw [bareTokens_eq, h.gapLength_append, ← List.drop_drop, List.drop_left, ← bareTokens_eq]

theorem bareTokens_blank {c : Char} (hblank : Blank c) : bareTokens (c :: rest) = bareTokens rest :=
  bareTokens_gap (.blank hblank .nil)

/-- A token in front of a text adds itself. -/
theorem bareTokens_token (h : Lexes kind literal span rest) :
    bareTokens (span ++ rest) = ⟨kind, literal, 0, 0⟩ :: bareTokens rest := by
  obtain ⟨c, cs, width, rfl, hstart, hlexeme, -, hdrop⟩ := h
  have hgap : gapLength false (c :: cs ++ rest) = 0 := by
    refine gapLength_of_stops (stops_cons.mpr ?_)
    rintro (hblank | hcomment)
    · exact hstart.1 hblank
    · exact hstart.2 hcomment
  rw [bareTokens_eq, hgap, List.drop_zero]
  rw [List.cons_append] at hdrop ⊢
  simp only [hlexeme, hdrop]

/-! ### Going through a text -/

/-- Every text is a gap, or a gap with a token and another text behind it. -/
theorem text_induction {motive : List Char → Prop} (gap : ∀ gap, Gap gap [] → motive gap)
    (token : ∀ gap span rest kind literal, Gap gap (span ++ rest) → Spans [] kind literal span rest →
      motive rest → motive (gap ++ (span ++ rest))) (text : List Char) : motive text := by
  induction hlength : text.length using Nat.strongRecOn generalizing text with
  | ind n ih =>
    obtain ⟨hstops, front, blank, htake, hgap, -, hfront⟩ := gap_of_gapLength false text
    simp only [Bool.false_eq_true, if_false] at hfront
    subst hfront
    have hsplit := List.take_append_drop (gapLength false text) text
    rw [htake, List.nil_append] at hsplit
    generalize text.drop (gapLength false text) = behind at hstops hgap hsplit
    subst hsplit
    cases behind with
    | nil => exact (List.append_nil blank).symm ▸ gap blank hgap
    | cons c behind =>
      obtain ⟨span, rest, kind, literal, hcut, hne, hspans, -⟩ :=
        exists_spans (stops_cons.mp hstops) behind fresh_nil
      have hlt : rest.length < n := by
        have hpos := List.length_pos_iff.mpr hne
        rw [← hlength, hcut, List.length_append, List.length_append]
        omega
      rw [hcut] at hgap ⊢
      exact token blank span rest kind literal hgap hspans (ih _ hlt rest rfl)

theorem bareTokens_gap_token {text : List Char} (hgap : Gap gap (span ++ text))
    (hspan : Spans [] kind literal span text) :
    bareTokens (gap ++ (span ++ text)) = ⟨kind, literal, 0, 0⟩ :: bareTokens text := by
  rw [bareTokens_gap hgap, bareTokens_token hspan.lexes]

/-- Every token of a text is one of those that a text can have. -/
theorem spans_of_mem_bareTokens {text : List Char} {token : Token} (h : token ∈ bareTokens text) :
    ∃ kind literal span rest, Spans [] kind literal span rest ∧ token = ⟨kind, literal, 0, 0⟩ := by
  induction text using text_induction with
  | gap gap hgap =>
    rw [← List.append_nil gap, bareTokens_gap hgap] at h
    cases h
  | token gap span rest kind literal hgap hspan ih =>
    rw [bareTokens_gap_token hgap hspan] at h
    rcases List.mem_cons.mp h with rfl | h
    · exact ⟨kind, literal, span, rest, hspan, rfl⟩
    · exact ih h

/-! ### Starting a new line -/

namespace Lexical

variable {text : List Char}

theorem Stops.append_line {q : Char → Prop} (h : Stops q text) (hq : ¬ q '\n') :
    Stops q (text ++ '\n' :: rest) := by
  cases text with
  | nil => exact stops_cons.mpr hq
  | cons c text => exact stops_cons.mpr (stops_cons.mp h)

theorem Gap.append_line (h : Gap gap text) : Gap gap (text ++ '\n' :: rest) := by
  induction h with
  | nil => exact .nil
  | blank hblank _ ih => exact .blank hblank ih
  | comment htext hend _ ih =>
    refine .comment htext ?_ ih
    rw [← List.append_assoc]
    exact hend.append_line (by simp)

/-- A token is found in front of another text too, if that one starts with none of the characters that the
    token would go on with, and if a string that is still open is open to the end. -/
theorem Spans.lexes_before {rest' : List Char} (h : Spans [] kind literal span rest)
    (hstops : ∀ q : Char → Prop, (∀ c, q c → WordChar c ∨ c = '=') → Stops q rest → Stops q rest')
    (hopen : kind = .string → rest = [] → rest' = []) : Lexes kind literal span rest' := by
  cases h with
  | word hfull hkind =>
    have hend : Stops WordChar rest := hfull.stops fun _ => hfull.holds.append
    exact lexes_word hfull.holds (hstops _ (fun _ => .inl) hend) hkind
  | number hfull =>
    have hend : Stops Digit rest := hfull.stops fun _ => hfull.holds.append
    exact lexes_number hfull.holds (hstops _ (fun _ hc => .inl (.inr hc)) hend)
  | string hcontent => exact lexes_string hcontent _
  | openString hcontent =>
    rw [hopen rfl rfl]
    exact lexes_openString hcontent
  | sign hkind hend => exact lexes_sign hkind fun hlong => hstops _ (fun _ => .inr) (hend hlong)
  | illegal hblank hcomment hstart => exact lexes_illegal ⟨hblank, hcomment⟩ hstart _

/-- A new line makes no token longer, unless it is a string that is still open. -/
theorem Spans.lexes_append_line (h : Spans [] kind literal span text)
    (hopen : kind = .string → text ≠ []) : Lexes kind literal span (text ++ '\n' :: rest) := by
  have hline : Blank '\n' := .inr (.inr (.inr rfl))
  refine h.lexes_before (fun q hq hstops => hstops.append_line fun hc => ?_) fun hkind hnil =>
    absurd hnil (hopen hkind)
  rcases hq _ hc with hword | hequal
  · exact not_wordChar_of_blank hline hword
  · exact absurd hequal (by decide)

end Lexical

/-- Behind a text that has no tokens or ends with a semicolon, and perhaps a comment, a new line starts
    the scan anew. -/
theorem bareTokens_append_line {text : List Char}
    (hlast : ∀ token ∈ (bareTokens text).getLast?, token.kind = .semicolon) :
    bareTokens (text ++ '\n' :: rest) = bareTokens text ++ bareTokens rest := by
  have hline : Blank '\n' := .inr (.inr (.inr rfl))
  induction text using text_induction with
  | gap gap hgap =>
    have hnone : bareTokens gap = [] := by rw [← List.append_nil gap, bareTokens_gap hgap, bareTokens_nil]
    have hgap' : Gap gap ('\n' :: rest) := hgap.append_line
    rw [hnone, bareTokens_gap hgap', bareTokens_blank hline, List.nil_append]
  | token gap span text kind literal hgap hspan ih =>
    rw [bareTokens_gap_token hgap hspan] at hlast ⊢
    have hopen : kind = .string → text ≠ [] := by
      rintro rfl rfl
      cases hlast _ rfl
    have hgap' : Gap gap (span ++ text ++ '\n' :: rest) := hgap.append_line
    rw [List.append_assoc] at hgap'
    rw [List.append_assoc, List.append_assoc, bareTokens_gap hgap',
      bareTokens_token (hspan.lexes_append_line hopen), List.cons_append, ih]
    intro token htoken
    cases htext : bareTokens text with
    | nil => simp [htext] at htoken
    | cons first behind => exact hlast token (by simpa [htext] using htoken)

end Monkey
