import Monkey.Proofs.Scanner.Bare

/-!
# Where a scanner stands

A scanner can be asked for many things, in any order and wherever it stands: for tokens, for blanks to be
passed over, or for the rest of a word, a number or a string, though it may stand in the middle of something
else. All of this moves it forward by some characters of its text (`Operation.behind_run`), so it never runs
past the end, and its line and its column are those of the character it stands in front of (`Placed`). A token
has the place of its own first character (`Reads`). At the end of the text nothing moves the scanner any more,
and the end is all that there is to read.
-/

namespace Monkey

open Lexical

/-! ### Lines and columns -/

/-- The line of the character that comes behind the first `offset` characters of a text. -/
def lineAt (text : List Char) (offset : Nat) : Nat :=
  1 + (text.take offset).count '\n'

def columnAt (text : List Char) (offset : Nat) : Nat :=
  1 + ((text.take offset).reverse.takeWhile (· ≠ '\n')).length

namespace Scanner

/-- A scanner of a text that knows where it stands. -/
structure Placed (text : List Char) (s : Scanner) : Prop where
  inside : s.position.offset ≤ text.length
  rest : s.rest = text.drop s.position.offset
  line : s.position.line = lineAt text s.position.offset
  column : s.position.column = columnAt text s.position.offset

variable {text : List Char} {s : Scanner}

theorem placed_ofText (source : String) : (ofText source).Placed source.toList :=
  ⟨Nat.zero_le _, rfl, rfl, rfl⟩

theorem Placed.offset_add (h : s.Placed text) : s.position.offset + s.rest.length = text.length := by
  rw [h.rest, List.length_drop]
  exact Nat.add_sub_cancel' h.inside

/-- A scanner that moves over one character knows its place again. -/
theorem Placed.next {c : Char} {rest : List Char} (h : s.Placed text) (hrest : s.rest = c :: rest) :
    (⟨rest, s.position.next c⟩ : Scanner).Placed text := by
  have hdrop : text.drop s.position.offset = c :: rest := h.rest.symm.trans hrest
  have hlt : s.position.offset < text.length := by
    have hlength := h.offset_add
    simp only [hrest, List.length_cons] at hlength
    omega
  have htake : text.take (s.position.offset + 1) = text.take s.position.offset ++ [c] := by
    rw [List.take_add, hdrop]
    rfl
  have hbehind : rest = text.drop (s.position.offset + 1) := by
    rw [← List.drop_drop, hdrop]
    rfl
  have hline := h.line
  have hcolumn := h.column
  rw [lineAt] at hline
  rw [columnAt] at hcolumn
  by_cases hc : c = '\n'
  · subst hc
    refine ⟨hlt, hbehind, ?_, ?_⟩
    · simp [Position.next, lineAt, htake, hline, Nat.add_assoc]
    · simp [Position.next, columnAt, htake]
  · have hcount : [c].count '\n' = 0 := List.count_eq_zero.mpr (by simpa using Ne.symm hc)
    have hoffset : (s.position.next c).offset = s.position.offset + 1 := by simp [Position.next, hc]
    refine ⟨by rw [hoffset]; exact hlt, by rw [hoffset]; exact hbehind, ?_, ?_⟩
    · rw [hoffset, lineAt, htake, List.count_append, hcount, Nat.add_zero, ← hline]
      simp [Position.next, hc]
    · rw [hoffset, columnAt, htake]
      simp [Position.next, hc, hcolumn, Nat.add_comm]

/-! ### Moving forward -/

theorem advance_cons {c : Char} {rest : List Char} (hrest : s.rest = c :: rest) (n : Nat) :
    s.advance (n + 1) = (⟨rest, s.position.next c⟩ : Scanner).advance n := by
  rw [advance, hrest]
  rfl

/-- At the end of a text there is nothing to move over. -/
theorem advance_of_nil (hrest : s.rest = []) (n : Nat) : s.advance n = s := by
  obtain ⟨_, p⟩ := s
  subst hrest
  rw [advance, List.take_nil, List.drop_nil]
  rfl

theorem advance_advance (s : Scanner) (n k : Nat) : (s.advance n).advance k = s.advance (n + k) := by
  simp only [advance, List.drop_drop, List.take_add, Position.after_append]

theorem Placed.advance (h : s.Placed text) (n : Nat) : (s.advance n).Placed text := by
  induction n generalizing s with
  | zero => exact h
  | succ n ih =>
    cases hrest : s.rest with
    | nil => rwa [advance_of_nil hrest]
    | cons c rest =>
      rw [advance_cons hrest]
      exact ih (h.next hrest)

theorem Placed.offset_advance_le (h : s.Placed text) (n : Nat) :
    s.position.offset ≤ (s.advance n).position.offset := by
  have hbefore := h.offset_add
  have hbehind := (h.advance n).offset_add
  simp only [Scanner.advance, List.length_drop] at hbehind ⊢
  omega

/-- A scanner that moves over a stretch of characters. -/
theorem Placed.behind {p : Position} {front rest : List Char}
    (h : (⟨front ++ rest, p⟩ : Scanner).Placed text) :
    (⟨rest, p.after front⟩ : Scanner).Placed text ∧ (p.after front).offset = p.offset + front.length := by
  have hbehind := h.advance front.length
  rw [Scanner.advance, List.take_left, List.drop_left] at hbehind
  refine ⟨hbehind, ?_⟩
  have hlength := h.offset_add
  have hlength' := hbehind.offset_add
  simp only [List.length_append] at hlength hlength'
  omega

/-! ### Reading tokens -/

/-- From a place in a text a token is read, and the scanner stands behind it: it is the next one, with the
    place of the first character that it spans, or else the end, with the place of the end. -/
inductive Reads (text : List Char) (first : Nat) : Token → Nat → Prop where
  | token {gap span rest kind literal} (htext : text.drop first = gap ++ (span ++ rest))
      (hgap : Gap gap (span ++ rest)) (hspan : Spans [] kind literal span rest) :
      Reads text first
        ⟨kind, literal, lineAt text (first + gap.length), columnAt text (first + gap.length)⟩
        (first + gap.length + span.length)
  | ended (hgap : Gap (text.drop first) []) :
      Reads text first ⟨.eof, "", lineAt text text.length, columnAt text text.length⟩ text.length

theorem Placed.reads_nextToken (h : s.Placed text) :
    Reads text s.position.offset s.nextToken.1 s.nextToken.2.position.offset := by
  obtain ⟨rest, p⟩ := s
  induction rest using text_induction with
  | gap gap hgap =>
    have hplaced := h
    rw [← List.append_nil gap] at hplaced
    obtain ⟨hended, -⟩ := hplaced.behind
    have hend : (p.after gap).offset = text.length := by simpa using hended.offset_add
    have hline := hended.line
    have hcolumn := hended.column
    rw [nextToken, nextToken?_ended hgap, Option.getD_none, skipGap_ended hgap, endToken]
    simp only [hend] at hline hcolumn ⊢
    rw [hline, hcolumn]
    exact .ended (h.rest ▸ hgap)
  | token gap span rest kind literal hgap hspan _ =>
    obtain ⟨hstart, hfirst⟩ := h.behind
    obtain ⟨-, hbehind⟩ := hstart.behind
    have hline := hstart.line
    have hcolumn := hstart.column
    rw [nextToken, nextToken?_token hgap hspan.lexes, Option.getD_some, Position.after_append]
    simp only [hfirst] at hline hcolumn hbehind ⊢
    rw [hline, hcolumn, hbehind]
    exact .token h.rest.symm hgap hspan

/-- A token takes characters, or it is the end and the scanner stands there. -/
theorem Reads.progress {first behind : Nat} {token : Token} (h : Reads text first token behind) :
    token.kind ≠ .eof ∧ first < behind ∨
      token = ⟨.eof, "", lineAt text text.length, columnAt text text.length⟩ ∧ behind = text.length := by
  cases h with
  | token htext hgap hspan =>
    obtain ⟨c, cs, -, rfl, -⟩ := hspan.lexes
    refine .inl ⟨hspan.kind_ne_eof, ?_⟩
    simp only [List.length_cons]
    omega
  | ended hgap => exact .inr ⟨rfl, rfl⟩

/-! ### Operations -/

/-- What can be asked of a scanner. -/
inductive Operation where
  | nextToken
  | advance (count : Nat)
  | skipGap
  | takeString
  | takeNumber
  | takeWord
  | tokenize

/-- The tokens that an operation reads, and the scanner after it. -/
def Operation.run (s : Scanner) : Operation → List Token × Scanner
  | .nextToken => ([s.nextToken.1], s.nextToken.2)
  | .advance count => ([], s.advance count)
  | .skipGap => ([], s.skipGap)
  | .takeString => ([], s.takeString.2)
  | .takeNumber => ([], s.takeNumber.2)
  | .takeWord => ([], s.takeWord.2)
  | .tokenize => s.tokenize

def runAll (operations : List Operation) (s : Scanner) : Scanner :=
  operations.foldl (fun s operation => (operation.run s).2) s

/-- What holds at the end of a text, and of a scanner in front of a token if it holds behind it, holds of
    every scanner. -/
theorem scan_induction {motive : Scanner → Prop} (ended : ∀ s, s.nextToken? = none → motive s)
    (token : ∀ s token behind, s.nextToken? = some (token, behind) → motive behind → motive s) (s : Scanner) :
    motive s := by
  induction hlength : s.rest.length using Nat.strongRecOn generalizing s with
  | ind n ih =>
    cases hnext : s.nextToken? with
    | none => exact ended s hnext
    | some found => exact token s _ _ hnext (ih _ (hlength ▸ length_lt_of_nextToken? hnext) _ rfl)

theorem nextToken_of_none (h : s.nextToken? = none) : s.nextToken = (s.skipGap.endToken, s.skipGap) := by
  rw [nextToken, h, Option.getD_none]

theorem nextToken_of_some {token : Token} {behind : Scanner} (h : s.nextToken? = some (token, behind)) :
    s.nextToken = (token, behind) := by
  rw [nextToken, h, Option.getD_some]

theorem kind_ne_eof_of_nextToken? {token : Token} {behind : Scanner}
    (h : s.nextToken? = some (token, behind)) : token.kind ≠ .eof := by
  obtain ⟨rest, p⟩ := s
  induction rest using text_induction with
  | gap gap hgap => cases (nextToken?_ended hgap).symm.trans h
  | token gap span rest kind literal hgap hspan _ =>
    cases (nextToken?_token hgap hspan.lexes).symm.trans h
    exact hspan.kind_ne_eof

theorem behind_nextToken (s : Scanner) : ∃ n, s.nextToken.2 = s.advance n := by
  rw [nextToken, nextToken?]
  cases s.skipGap.rest with
  | nil => exact ⟨_, rfl⟩
  | cons c rest => exact ⟨_, advance_advance s _ _⟩

theorem tokenize_of_none (h : s.nextToken? = none) : s.tokenize = ([s.skipGap.endToken], s.skipGap) := by
  rw [tokenize, tokens_eq, h]
  rfl

theorem tokenize_of_some {token : Token} {behind : Scanner} (h : s.nextToken? = some (token, behind)) :
    s.tokenize = (token :: behind.tokenize.1, behind.tokenize.2) := by
  rw [tokenize, tokens_eq, h]
  rfl

theorem behind_tokenize (s : Scanner) : ∃ n, s.tokenize.2 = s.advance n := by
  induction s using scan_induction with
  | ended s hnone => exact ⟨_, congrArg Prod.snd (tokenize_of_none hnone)⟩
  | token s token behind hsome ih =>
    obtain ⟨n, hn⟩ := ih
    obtain ⟨k, hk⟩ := s.behind_nextToken
    simp only [nextToken_of_some hsome] at hk
    exact ⟨k + n, by rw [tokenize_of_some hsome, hn, hk, advance_advance]⟩

/-- Whatever is asked of a scanner moves it forward by some characters. -/
theorem Operation.behind_run (s : Scanner) (operation : Operation) :
    ∃ n, (operation.run s).2 = s.advance n := by
  cases operation with
  | nextToken => exact s.behind_nextToken
  | takeString => exact ⟨_, (advance_advance _ _ _).trans (advance_advance s _ _)⟩
  | tokenize => exact s.behind_tokenize
  | advance | skipGap | takeNumber | takeWord => exact ⟨_, rfl⟩

theorem Placed.run (h : s.Placed text) (operation : Operation) : (operation.run s).2.Placed text := by
  obtain ⟨n, hn⟩ := operation.behind_run s
  exact hn ▸ h.advance n

theorem Placed.offset_run_le (h : s.Placed text) (operation : Operation) :
    s.position.offset ≤ (operation.run s).2.position.offset := by
  obtain ⟨n, hn⟩ := operation.behind_run s
  exact hn ▸ h.offset_advance_le n

theorem Placed.runAll (h : s.Placed text) (operations : List Operation) :
    (Scanner.runAll operations s).Placed text := by
  induction operations generalizing s with
  | nil => exact h
  | cons operation rest ih => exact ih (h.run operation)

/-! ### At the end -/

theorem runAll_of_nil (hrest : s.rest = []) (operations : List Operation) : runAll operations s = s := by
  induction operations with
  | nil => rfl
  | cons operation rest ih =>
    obtain ⟨n, hn⟩ := operation.behind_run s
    rw [runAll, List.foldl_cons, hn, advance_of_nil hrest]
    exact ih

/-- Behind the end of a text the end is read again, whatever else is asked for before. -/
theorem Placed.nextToken_ended (h : s.Placed text) (hkind : s.nextToken.1.kind = .eof)
    (later : List Operation) : (Scanner.runAll later s.nextToken.2).nextToken = s.nextToken := by
  have hended : s.nextToken.2.Placed text := h.run .nextToken
  obtain ⟨htoken, hbehind⟩ := h.reads_nextToken.progress.resolve_left fun hne => hne.1 hkind
  have hrest : s.nextToken.2.rest = [] := by
    rw [hended.rest, hbehind, List.drop_length]
  obtain ⟨n, hn⟩ := s.nextToken.2.behind_nextToken
  rw [runAll_of_nil hrest]
  refine Prod.ext ?_ (hn.trans (advance_of_nil hrest n))
  rcases hended.reads_nextToken.progress with ⟨-, hlt⟩ | ⟨htoken', -⟩
  · rw [hn, advance_of_nil hrest] at hlt
    exact absurd hlt (Nat.lt_irrefl _)
  · rw [htoken, htoken']

/-! ### All tokens -/

/-- Every token that an operation reads is read between the places where the scanner stands before and after. -/
theorem Placed.reads_tokenize (h : s.Placed text) : ∀ token ∈ s.tokenize.1, ∃ first behind,
    s.position.offset ≤ first ∧ behind ≤ s.tokenize.2.position.offset ∧ Reads text first token behind := by
  induction s using scan_induction with
  | ended s hnone =>
    rw [tokenize_of_none hnone]
    intro token htoken
    have hreads := h.reads_nextToken
    rw [nextToken_of_none hnone] at hreads
    exact ⟨_, _, Nat.le_refl _, Nat.le_refl _, List.mem_singleton.mp htoken ▸ hreads⟩
  | token s token behind hsome ih =>
    have hreads := h.reads_nextToken
    have hbehind := h.run .nextToken
    have hfirst := h.offset_run_le .nextToken
    simp only [Operation.run, nextToken_of_some hsome] at hreads hbehind hfirst
    rw [tokenize_of_some hsome]
    refine List.forall_mem_cons.mpr ⟨⟨_, _, Nat.le_refl _, hbehind.offset_run_le .tokenize, hreads⟩, ?_⟩
    intro other hother
    obtain ⟨first, last, hle, hlast, hread⟩ := ih hbehind other hother
    exact ⟨first, last, Nat.le_trans hfirst hle, hlast, hread⟩

theorem Placed.reads_run (h : s.Placed text) (operation : Operation) :
    ∀ token ∈ (operation.run s).1, ∃ first behind, s.position.offset ≤ first ∧
      behind ≤ (operation.run s).2.position.offset ∧ Reads text first token behind := by
  cases operation with
  | nextToken =>
    intro token htoken
    exact ⟨_, _, Nat.le_refl _, Nat.le_refl _, List.mem_singleton.mp htoken ▸ h.reads_nextToken⟩
  | tokenize => exact h.reads_tokenize
  | advance | skipGap | takeString | takeNumber | takeWord => exact List.forall_mem_nil _

/-- The tokens up to the end are the end and as many more as there are characters, at most. -/
theorem Placed.tokenize_ends (h : s.Placed text) : ∃ tokens last, s.tokenize.1 = tokens ++ [last] ∧
    last.kind = .eof ∧ (∀ token ∈ tokens, token.kind ≠ .eof) ∧ tokens.length ≤ s.rest.length := by
  induction s using scan_induction with
  | ended s hnone =>
    rw [tokenize_of_none hnone]
    exact ⟨[], _, rfl, rfl, List.forall_mem_nil _, Nat.zero_le _⟩
  | token s token behind hsome ih =>
    have hbehind := h.run .nextToken
    simp only [Operation.run, nextToken_of_some hsome] at hbehind
    obtain ⟨tokens, last, htokens, hlast, hkinds, hlength⟩ := ih hbehind
    have hshorter := length_lt_of_nextToken? hsome
    rw [tokenize_of_some hsome, htokens]
    refine ⟨token :: tokens, last, rfl, hlast, List.forall_mem_cons.mpr ⟨?_, hkinds⟩, ?_⟩
    · exact kind_ne_eof_of_nextToken? hsome
    · simp only [List.length_cons]
      omega

end Scanner

open Scanner

/-- After any operations on a scanner of a text, and one more: the scanner stands inside the text, no further
    back than before, at the line and the column of its place; what tokens it has read it has read in between,
    each at the place of its first character; and where it stood before, the next token moves it forward, unless
    it is the end, which is then read again and again, while all tokens up to the end are no more than the
    characters left and the end itself. -/
theorem scanner_placed (source : String) (earlier : List Operation) (operation : Operation) :
    let text := source.toList
    let s := runAll earlier (ofText source)
    let s' := (operation.run s).2
    s'.Placed text ∧ s.position.offset ≤ s'.position.offset ∧
      (∀ token ∈ (operation.run s).1, ∃ first behind, s.position.offset ≤ first ∧
        behind ≤ s'.position.offset ∧ Reads text first token behind) ∧
      (s.nextToken.1.kind ≠ .eof → s.position.offset < s.nextToken.2.position.offset) ∧
      (s.nextToken.1.kind = .eof → ∀ later, (runAll later s.nextToken.2).nextToken = s.nextToken) ∧
      ∃ tokens last, s.tokenize.1 = tokens ++ [last] ∧ last.kind = .eof ∧
        (∀ token ∈ tokens, token.kind ≠ .eof) ∧
        s.tokenize.1.length ≤ text.length - s.position.offset + 1 := by
  intro text s s'
  have hs : s.Placed text := (placed_ofText source).runAll earlier
  refine ⟨hs.run operation, hs.offset_run_le operation, hs.reads_run operation, fun hkind => ?_,
    hs.nextToken_ended, ?_⟩
  · rcases hs.reads_nextToken.progress with ⟨-, hlt⟩ | ⟨htoken, -⟩
    · exact hlt
    · exact absurd (congrArg Token.kind htoken) hkind
  · obtain ⟨tokens, last, htokens, hlast, hkinds, hlength⟩ := hs.tokenize_ends
    refine ⟨tokens, last, htokens, hlast, hkinds, ?_⟩
    have hleft := hs.offset_add
    rw [htokens, List.length_append, List.length_singleton]
    omega

end Monkey
