import Monkey.Proofs.Console.Normalization

/-!
# Commands are no programs

A line is taken for a command if a slash comes first behind blanks. What counts as blank there is the white
space of every script, and in a program it is four characters only. So the first token of such a line is the
slash or a character that is illegal, no expression starts with either, and the first error of the line is
that it does not (`program_is_no_command`). The characters that cannot be seen make no difference to this.
-/

namespace Monkey

open Lexical
open Console (isInvisible)

/-! ### The first token of a command -/

/-- The tokens that nothing in a program starts with and that a command may start with. -/
def OpensCommand (kind : TokenKind) : Prop :=
  kind = .slash ∨ kind = .illegal

/-- A text starts with a slash or an illegal token if, but for characters that cannot be printed, a slash
    comes first behind blanks. -/
theorem first_of_slash {keeps : Char → Bool} (hkeeps : ∀ c, keeps c = false → ¬ Printable c)
    {text blanks behind : List Char} (htext : text.filter keeps = blanks ++ '/' :: behind)
    (hblanks : ∀ c ∈ blanks, Text.isBlank c = true) :
    ∃ token rest, bareTokens text = token :: rest ∧ OpensCommand token.kind := by
  induction text generalizing blanks with
  | nil => simp at htext
  | cons c text ih =>
    by_cases hblank : Blank c
    · have hskip : bareTokens (c :: text) = bareTokens text := bareTokens_blank hblank
      rw [hskip]
      cases hc : keeps c with
      | false =>
        rw [List.filter_cons_of_neg (Bool.eq_false_iff.mp hc)] at htext
        exact ih htext hblanks
      | true =>
        rw [List.filter_cons_of_pos hc] at htext
        cases blanks with
        | nil =>
          obtain ⟨rfl, -⟩ := List.cons.inj htext
          exact absurd hblank (by decide)
        | cons d blanks => exact ih (List.cons.inj htext).2 (List.forall_mem_cons.mp hblanks).2
    · by_cases hprintable : Printable c
      · -- nothing is left out in front of the first character that shows, so it is the slash
        have hc : keeps c = true := by
          cases hc : keeps c with
          | false => exact absurd hprintable (hkeeps c hc)
          | true => rfl
        rw [List.filter_cons_of_pos hc] at htext
        cases blanks with
        | nil =>
          obtain ⟨rfl, -⟩ := List.cons.inj htext
          exact ⟨_, _, bareTokens_mark .slash '/', .inl rfl⟩
        | cons d blanks =>
          obtain ⟨rfl, -⟩ := List.cons.inj htext
          exact absurd hprintable (not_printable_of_isBlank (hblanks c List.mem_cons_self))
      · obtain ⟨hgap, hstart⟩ := stray_of_not_printable hblank hprintable
        exact ⟨_, _, bareTokens_token (lexes_illegal hgap hstart text), .inr rfl⟩

theorem starts_of_commandWords? {line : String} (h : (commandWords? line).isSome = true) :
    ∃ blanks behind, line.toList = blanks ++ '/' :: behind ∧ ∀ c ∈ blanks, Text.isBlank c = true := by
  unfold commandWords? at h
  split at h
  next rest hslash => exact starts_of_stripWhile hslash
  next => cases h

/-! ### The first error of a program -/

namespace Parser

/-- A program that starts with a token which starts no statement has that as its first error. -/
theorem program_errors_head? {p : Parser} (hnone : p.errors = [])
    (hkind : OpensCommand p.current.kind) :
    p.program.2.errors.head? = some (.noPrefixRule p.current.kind) := by
  have hopen : Rule.closesProgram p.current.kind = false := by
    rcases hkind with h | h <;> rw [h] <;> rfl
  have hstatement : Rule.statement Rule.expression p = .error (.noPrefixRule p.current.kind) p := by
    have hexpression : Rule.expression .lowest p = .error (.noPrefixRule p.current.kind) p := by
      rw [Rule.expression_run]
      rcases hkind with h | h <;> rw [h] <;> rfl
    have hlet : p.current.kind ≠ .letKw := by rcases hkind with h | h <;> rw [h] <;> decide
    have hreturn : p.current.kind ≠ .returnKw := by rcases hkind with h | h <;> rw [h] <;> decide
    rw [Rule.statement_run, if_neg hlet, if_neg hreturn]
    simp only [Rule.expressionStatement, Rule.bind_run, Rule.current_run, hexpression]
  have hahead := Rule.ahead_statements Rule.closesProgram (p.record (.noPrefixRule p.current.kind)).advance
  have herrors := hahead.errors
  rw [program, Rule.statements_eq rfl, hopen, hstatement]
  obtain ⟨later, hlater⟩ := herrors
  simp only [Bool.false_eq_true, if_false, ← hlater]
  simp [record, advance, hnone]

end Parser

theorem parse_errors_head? {source : String} {token : Token} {rest : List Token}
    (htokens : bareTokens source.toList = token :: rest) (hkind : OpensCommand token.kind) :
    (parse source).errors.head? = some (.noPrefixRule token.kind) := by
  rw [bareTokens_eq_map, ← Parser.ofText_tokens] at htokens
  obtain ⟨first, others, hfirst, rfl, -⟩ := List.map_eq_cons_iff.mp htokens
  have hcurrent : (Parser.ofText source).current = first := by rw [Parser.current, hfirst]; rfl
  have hhead := Parser.program_errors_head? (p := Parser.ofText source) rfl (hcurrent ▸ hkind)
  rw [hcurrent] at hhead
  exact hhead

/-! ### Commands and programs -/

namespace Console

/-- A text that is taken for a command, as it is or without the characters that cannot be seen, is not read as a
    program: its first error is at its first token, which is a slash or an illegal one. -/
theorem errors_of_command? (console : Console) {text : String}
    (h : (console.command? text).isSome = true ∨ (console.command? (normalize text)).isSome = true) :
    ∃ kind, OpensCommand kind ∧ (parse text).errors.head? = some (.noPrefixRule kind) := by
  have hfirst : ∃ token rest, bareTokens text.toList = token :: rest ∧ OpensCommand token.kind := by
    rcases h with h | h <;> rw [command?, Option.isSome_map] at h
    · obtain ⟨blanks, behind, htext, hblanks⟩ := starts_of_commandWords? h
      have hkept : text.toList.filter (fun _ => true) = blanks ++ '/' :: behind := by
        rw [List.filter_eq_self.mpr fun _ _ => rfl, htext]
      exact first_of_slash (fun c hc => absurd hc (by decide)) hkept hblanks
    · obtain ⟨blanks, behind, htext, hblanks⟩ := starts_of_commandWords? h
      rw [normalize, String.toList_ofList] at htext
      refine first_of_slash (fun c hc => not_printable_of_isInvisible ?_) htext hblanks
      simpa using hc
  obtain ⟨token, rest, htokens, hkind⟩ := hfirst
  exact ⟨token.kind, hkind, parse_errors_head? htokens hkind⟩

/-- No program is ever taken for a command. A text that is taken for one has an error, the first of which is
    at its first token; and a text without errors is left to the evaluation, whatever blanks, comments and
    lines it has and whichever of its characters cannot be seen. -/
theorem program_is_no_command (console : Console) (text : String) :
    ((console.command? text).isSome = true →
      ∃ kind, OpensCommand kind ∧ (parse text).errors.head? = some (.noPrefixRule kind)) ∧
    ((parse text).errors = [] → console.command? text = none ∧
      console.submit text =
        if Text.isBlankText (normalize text) then ([], console) else console.evaluate (normalize text)) := by
  refine ⟨fun h => console.errors_of_command? (.inl h), fun herrors => ?_⟩
  have hnone {line : String} (hline : line = text ∨ line = normalize text) : console.command? line = none := by
    rw [← Option.not_isSome_iff_eq_none]
    intro hsome
    have hcommand : (console.command? text).isSome = true ∨ (console.command? (normalize text)).isSome = true := by
      rcases hline with rfl | rfl
      · exact .inl hsome
      · exact .inr hsome
    obtain ⟨kind, -, hhead⟩ := console.errors_of_command? hcommand
    rw [herrors] at hhead
    cases hhead
  refine ⟨hnone (.inl rfl), ?_⟩
  simp only [submit, hnone (.inr rfl), Option.getD_none]

/-- A command behind blanks that a program does not have, and a program with a comment that looks like a
    command. -/
theorem program_is_no_command_blanks :
    ((((Console.start false).command? "\u00a0\u2003/reset").isSome = true ∧
      ∃ kind, OpensCommand kind ∧ (parse "\u00a0\u2003/reset").errors.head? = some (.noPrefixRule kind))) ∧
    (parse " # /reset\n\t1 / 2").errors = [] ∧
      (Console.start false).command? " # /reset\n\t1 / 2" = none := by
  have hcommand : ((Console.start false).command? "\u00a0\u2003/reset").isSome = true := by decide +kernel
  have herrors : (parse " # /reset\n\t1 / 2").errors = [] := by decide +kernel
  refine ⟨⟨hcommand, ?_⟩, herrors, ?_⟩
  · exact (program_is_no_command (Console.start false) _).1 hcommand
  · exact ((program_is_no_command (Console.start false) _).2 herrors).1

end Console

end Monkey
