import Monkey.Console.Turn
import Monkey.Proofs.Evaluation.FailStop
import Monkey.Proofs.Evaluation.Pairing
import Mathlib.Data.List.DropRight

/-!
# What a session remembers of its turns

The state of a console is as large as all that was evaluated, but little of it can be told from what comes
later: how the switches stand, and what the environment holds, up to the numbers of scopes and objects
(`Console.Alike`). Consoles that are alike do the same at every turn (`Alike.steps`). So a turn that leaves the
console alike leaves no trace (`Turn.Inert`), and neither do the turns before a reset: after any turns the
console is alike to one that has evaluated, from its start, nothing but the programs since the last reset
(`Console.rebuilt`). And these leave what running their texts one after the other does (`afterPrograms_eq`), so
nothing is lost of what a program has bound before it ended with an error or halted.
-/

namespace Monkey.Console

/-! ### Consoles that cannot be told apart -/

/-- The environments of two consoles hold the same, but for the numbers of scopes and objects. What was
    printed at earlier turns does not count. -/
def SameBindings (console console' : Console) : Prop :=
  ∃ scopes objects, console'.env = console.env.transfer (.shift scopes objects) ∧
    (Pairing.whole (.shift scopes objects)).Pairs console.machine.clearOutput console'.machine.clearOutput

/-- Two consoles show in the same way what comes of a program. -/
structure SameSettings (console console' : Console) : Prop where
  showTree : console'.showTree = console.showTree
  traceback : console'.traceback = console.traceback
  trace : console'.trace = console.trace

structure Alike (console console' : Console) : Prop extends SameSettings console console' where
  bindings : console.SameBindings console'

variable {console console' : Console}

/-- A console that has printed nothing since the last prompt. -/
def cleared (console : Console) : Console :=
  { console with machine := console.machine.clearOutput }

theorem fields_of_cleared (h : console'.cleared = console.cleared) : console'.env = console.env ∧
    console'.machine.clearOutput = console.machine.clearOutput ∧ console.SameSettings console' := by
  rw [cleared, cleared, Console.mk.injEq] at h
  obtain ⟨hmachine, henv, hshow, htraceback, htrace⟩ := h
  exact ⟨henv, hmachine, hshow, htraceback, htrace⟩

theorem SameBindings.trans_cleared {next : Console} (h : console.SameBindings console')
    (hnext : next.cleared = console'.cleared) : console.SameBindings next := by
  obtain ⟨scopes, objects, henv, hpairs⟩ := h
  obtain ⟨henv', hmachine, -⟩ := fields_of_cleared hnext
  exact ⟨scopes, objects, henv'.trans henv, hmachine ▸ hpairs⟩

theorem SameBindings.refl (console : Console) : console.SameBindings console :=
  ⟨0, 0, (console.env.transfer_of_scopes rfl).symm,
    Pairing.pairs_whole _ rfl rfl rfl fun _ => (Assoc.mapValues_id _).symm⟩

theorem alike_of_cleared (h : console'.cleared = console.cleared) : console.Alike console' :=
  ⟨(fields_of_cleared h).2.2, (SameBindings.refl console).trans_cleared h⟩

/-! ### Programs -/

theorem hidesResult_transfer (t : Transfer) (program : Node) (value : Value) :
    hidesResult program (value.transfer t) = hidesResult program value := by
  have hsame : (value.transfer t).same .null = value.same .null := Value.same_transfer value .null
  rw [hidesResult, hidesResult, hsame]

theorem report_transfer (t : Transfer) {m m' : Machine} (hshow : console'.showTree = console.showTree)
    (houtput : m'.output = m.output) (program : Node) (value : Value) :
    console'.report m' program (value.transfer t) = console.report m program value := by
  simp only [report, Machine.printed, houtput, hshow, hidesResult_transfer, Value.inspect_transfer]

/-- A program finds the same environment on both consoles and leaves the same; and it shows the same, if the
    settings are the same. -/
theorem SameBindings.evaluate (h : console.SameBindings console') (text : String) :
    (console.evaluate text).2.SameBindings (console'.evaluate text).2 ∧
      (console.SameSettings console' → (console'.evaluate text).1 = (console.evaluate text).1) := by
  obtain ⟨scopes, objects, henv, hpairs⟩ := h
  have hrun := Pairing.outcomes_runText text rfl (Pairing.sees_whole _ console.env)
    (fun _ _ name _ => Pairing.known_whole _ console.env name) hpairs
  rw [show (Pairing.whole (.shift scopes objects)).toTransfer = .shift scopes objects from rfl, ← henv] at hrun
  rw [Console.evaluate, Console.evaluate]
  generalize runText text console.env console.machine.clearOutput = outcome,
    runText text console'.env console'.machine.clearOutput = outcome' at hrun ⊢
  cases hrun with
  | @ok result m m' _ hm =>
    exact ⟨⟨scopes, objects, henv, hm.clearOutput⟩, fun hsame => report_transfer _ hsame.showTree hm.output _ _⟩
  | @error reason m m' hm =>
    refine ⟨?_, fun hsame => ?_⟩
    · cases reason <;> exact ⟨scopes, objects, henv, hm.clearOutput⟩
    · cases reason with
      | parse errors => rfl
      | halt reason => simp only [Machine.printed, hm.output, hsame.traceback, hsame.trace]

/-- A program changes the machine only, and leaves on it what running its text leaves, whether it ends or not. -/
theorem evaluate_snd (console : Console) (text : String) : (console.evaluate text).2 =
    { console with machine := runAfter text console.env console.machine.clearOutput } := by
  rw [evaluate, runAfter]
  cases runText text console.env console.machine.clearOutput with
  | ok result m => rfl
  | error reason m => cases reason <;> rfl

/-- What has been printed before has no bearing on what a text leaves. -/
theorem clearOutput_runAfter {m m' : Machine} (h : m'.clearOutput = m.clearOutput) (text : String) (env : Env) :
    (runAfter text env m').clearOutput = (runAfter text env m).clearOutput := by
  rw [runAfter_eq, runAfter_eq]
  cases parseProgram text with
  | ok program => exact Correspondence.clearOutput_evalWithin h depthLimit program env
  | error errors => exact h

theorem Alike.evaluate (h : console.Alike console') (text : String) :
    (console'.evaluate text).1 = (console.evaluate text).1 ∧
      (console.evaluate text).2.Alike (console'.evaluate text).2 := by
  obtain ⟨hbindings, heffects⟩ := h.bindings.evaluate text
  refine ⟨heffects h.toSameSettings, ?_, hbindings⟩
  rw [evaluate_snd, evaluate_snd]
  exact ⟨h.showTree, h.traceback, h.trace⟩

/-! ### Commands -/

theorem SameBindings.reset (h : console.SameBindings console') :
    console.reset.SameBindings console'.reset := by
  obtain ⟨scopes, objects, -, hpairs⟩ := h
  refine ⟨scopes, objects, ?_, hpairs.openScope [] [] (List.forall_mem_nil _)⟩
  exact congrArg (Env.mk · []) hpairs.size

/-- After a reset nothing is left of what was before. -/
theorem sameBindings_reset (traceback : Bool) (trace : String) (console : Console) :
    (Console.start traceback trace).SameBindings console.reset := by
  have hempty : (Pairing.whole (.shift console.machine.scopes.size console.machine.objects)).Pairs {}
      console.machine.clearOutput := by
    refine Pairing.pairs_whole _ (Nat.zero_add _).symm (Nat.zero_add _).symm rfl fun scope => ?_
    exact Machine.bindings_of_size_le (Nat.le_add_left _ scope)
  refine ⟨console.machine.scopes.size, console.machine.objects, ?_, ?_⟩
  · exact congrArg (Env.mk · []) (Nat.zero_add _).symm
  · exact hempty.openScope [] [] (List.forall_mem_nil _)

theorem Alike.run (h : console.Alike console') (command : Command) (argument : String) :
    (command.run argument console').1 = (command.run argument console).1 ∧
      (command.run argument console).2.Alike (command.run argument console').2 := by
  cases command with
  | ast =>
    simp only [Command.run, h.showTree]
    exact ⟨trivial, ⟨rfl, h.traceback, h.trace⟩, h.bindings⟩
  | clear => exact ⟨rfl, h⟩
  | traceback =>
    simp only [Command.run, h.traceback]
    split
    · exact ⟨rfl, ⟨h.showTree, rfl, h.trace⟩, h.bindings⟩
    · exact ⟨rfl, h⟩
  | reset => exact ⟨rfl, ⟨h.showTree, h.traceback, h.trace⟩, h.bindings.reset⟩

/-! ### Turns -/

/-- What a turn does to a console. The end of the input is not a turn to be taken. -/
def taken (console : Console) : Turn → List Effect × Console
  | .text submitted => console.submit submitted
  | .interrupt | .endOfInput => ([], console)

/-- The console after turns that do not end the session. -/
def after (console : Console) (turns : List Turn) : Console :=
  turns.foldl (fun console turn => (console.taken turn).2) console

/-- The steps of turns that do not end the session. -/
def stepsOf (console : Console) : List Turn → List Step
  | [] => []
  | turn :: rest => ⟨(console.taken turn).1, some prompt⟩ :: stepsOf (console.taken turn).2 rest

theorem length_stepsOf (console : Console) (turns : List Turn) :
    (console.stepsOf turns).length = turns.length := by
  induction turns generalizing console with
  | nil => rfl
  | cons turn rest ih => rw [stepsOf, List.length_cons, ih, List.length_cons]

theorem insertIdx_length_append (steps rest : List Step) (step : Step) :
    (steps ++ rest).insertIdx steps.length step = steps ++ step :: rest :=
  List.modifyTailIdx_add _ 0 steps rest

theorem steps_cons {turn : Turn} (hend : turn ≠ .endOfInput) (console : Console) (rest : List Turn) :
    console.steps (turn :: rest) =
      (⟨(console.taken turn).1, some prompt⟩ :: ((console.taken turn).2.steps rest).1,
        ((console.taken turn).2.steps rest).2) := by
  cases turn with
  | text submitted => simp only [steps, taken]
  | interrupt => simp only [steps, taken]
  | endOfInput => exact absurd rfl hend

theorem steps_append {turns : List Turn} (hend : .endOfInput ∉ turns) (console : Console)
    (rest : List Turn) :
    console.steps (turns ++ rest) =
      (console.stepsOf turns ++ ((console.after turns).steps rest).1, ((console.after turns).steps rest).2) := by
  induction turns generalizing console with
  | nil => rfl
  | cons turn turns ih =>
    rw [List.mem_cons, not_or] at hend
    rw [List.cons_append, steps_cons (Ne.symm hend.1), ih hend.2]
    rfl

theorem Alike.submit (h : console.Alike console') (submitted : String) :
    (console'.submit submitted).1 = (console.submit submitted).1 ∧
      (console.submit submitted).2.Alike (console'.submit submitted).2 := by
  simp only [Console.submit]
  split
  · exact ⟨rfl, h⟩
  · simp only [command?]
    generalize commandWords? (normalize submitted) = found
    cases found with
    | none =>
      simp only [Option.map_none, Option.getD_none]
      exact h.evaluate (normalize submitted)
    | some words =>
      simp only [Option.map_some, Option.getD_some]
      cases Command.ofName? words.1 with
      | none => exact ⟨rfl, h⟩
      | some command => exact h.run command words.2

theorem Alike.taken (h : console.Alike console') (turn : Turn) :
    (console'.taken turn).1 = (console.taken turn).1 ∧
      (console.taken turn).2.Alike (console'.taken turn).2 := by
  cases turn with
  | text submitted => exact h.submit submitted
  | interrupt => exact ⟨rfl, h⟩
  | endOfInput => exact ⟨rfl, h⟩

/-- Consoles that are alike go through the same steps, and their switches stay the same. -/
theorem Alike.steps (h : console.Alike console') (turns : List Turn) :
    (console'.steps turns).1 = (console.steps turns).1 ∧
      (console'.steps turns).2.traceback = (console.steps turns).2.traceback := by
  induction turns generalizing console console' with
  | nil => exact ⟨rfl, h.traceback⟩
  | cons turn rest ih =>
    by_cases hend : turn = .endOfInput
    · subst hend
      exact ⟨rfl, h.traceback⟩
    · obtain ⟨heffects, hnext⟩ := h.taken turn
      obtain ⟨hsteps, htraceback⟩ := ih hnext
      rw [steps_cons hend, steps_cons hend, heffects, hsteps]
      exact ⟨rfl, htraceback⟩

/-! ### Turns that do nothing -/

/-- The turns that fail or have no meaning for a session. -/
inductive Turn.Inert : Turn → Prop where
  | interrupt : Inert .interrupt
  | blank {submitted : String} (hblank : Text.isBlankText (normalize submitted) = true) :
      Inert (.text submitted)
  | unknown {submitted name argument : String}
      (hwords : commandWords? (normalize submitted) = some (name, argument))
      (hname : Command.ofName? name = none) : Inert (.text submitted)
  | clear {submitted name argument : String}
      (hwords : commandWords? (normalize submitted) = some (name, argument))
      (hname : Command.ofName? name = some .clear) : Inert (.text submitted)
  | traceback {submitted name argument : String}
      (hwords : commandWords? (normalize submitted) = some (name, argument))
      (hname : Command.ofName? name = some .traceback)
      (hargument : lowerCase argument ∉ "" :: onWords ++ offWords) : Inert (.text submitted)
  | malformed {submitted : String} (hwords : commandWords? (normalize submitted) = none)
      (herrors : (parse (normalize submitted)).errors ≠ []) : Inert (.text submitted)

theorem turned?_eq_none {word : String} (hword : word ∉ "" :: onWords ++ offWords) (on : Bool) :
    Command.turned? word on = none := by
  simp only [List.cons_append, List.mem_cons, List.mem_append, not_or] at hword
  obtain ⟨hempty, hon, hoff⟩ := hword
  simp [Command.turned?, hon, hoff, hempty]

theorem evaluate_of_errors {text : String} (herrors : (parse text).errors ≠ []) (console : Console) :
    (console.evaluate text).2 = console.cleared := by
  have hparse : parseProgram text = .error (parse text).errors := by simp [parseProgram, herrors]
  rw [evaluate_snd, runAfter_eq, hparse]
  rfl

/-- A turn that does nothing leaves the console as it was, but for what was printed. -/
theorem Turn.Inert.cleared_taken {turn : Turn} (h : turn.Inert) (console : Console) :
    (console.taken turn).2.cleared = console.cleared := by
  cases h with
  | interrupt => rfl
  | blank hblank => simp only [taken, submit, hblank, if_true]
  | unknown hwords hname =>
    simp only [taken, submit, command?, hwords, hname, Option.map_some, Option.getD_some]
    split <;> rfl
  | clear hwords hname =>
    simp only [taken, submit, command?, hwords, hname, Option.map_some, Option.getD_some, Command.run]
    split <;> rfl
  | traceback hwords hname hargument =>
    simp only [taken, submit, command?, hwords, hname, Option.map_some, Option.getD_some, Command.run,
      turned?_eq_none hargument]
    split <;> rfl
  | malformed hwords herrors =>
    simp only [taken, submit, command?, hwords, Option.map_none, Option.getD_none]
    split
    · rfl
    · rw [evaluate_of_errors herrors]
      rfl

/-! ### What is remembered -/

/-- The command that a turn is. -/
def Turn.command? : Turn → Option Command
  | .text submitted =>
    if Text.isBlankText (normalize submitted) then none
    else (commandWords? (normalize submitted)).bind fun words => Command.ofName? words.1
  | .interrupt | .endOfInput => none

/-- The program that a turn is, if it can be read. -/
def Turn.program? : Turn → Option String
  | .text submitted =>
    if Text.isBlankText (normalize submitted) || (commandWords? (normalize submitted)).isSome ||
      !(parse (normalize submitted)).errors.isEmpty then none
    else some (normalize submitted)
  | .interrupt | .endOfInput => none

/-- A turn is a program, a command, or nothing to remember. -/
inductive Takes (console : Console) (turn : Turn) : Prop where
  | program (text : String) (hprogram : turn.program? = some text) (hcommand : turn.command? = none)
      (htaken : console.taken turn = console.evaluate text)
  | command (command : Command) (argument : String) (hprogram : turn.program? = none)
      (hcommand : turn.command? = some command) (htaken : console.taken turn = command.run argument console)
  | nothing (hprogram : turn.program? = none) (hcommand : turn.command? = none)
      (htaken : (console.taken turn).2.cleared = console.cleared)

theorem takes (console : Console) (turn : Turn) : Takes console turn := by
  cases turn with
  | interrupt => exact .nothing rfl rfl rfl
  | endOfInput => exact .nothing rfl rfl rfl
  | text submitted =>
    by_cases hblank : Text.isBlankText (normalize submitted) = true
    · exact .nothing (by simp [Turn.program?, hblank]) (by simp [Turn.command?, hblank])
        ((Turn.Inert.blank hblank).cleared_taken console)
    · rw [Bool.not_eq_true] at hblank
      cases hwords : commandWords? (normalize submitted) with
      | none =>
        have hcommand : (Turn.text submitted).command? = none := by simp [Turn.command?, hwords]
        by_cases herrors : (parse (normalize submitted)).errors = []
        · exact .program (normalize submitted) (by simp [Turn.program?, hblank, hwords, herrors]) hcommand
            (by simp [taken, submit, hblank, command?, hwords])
        · exact .nothing (by simp [Turn.program?, herrors]) hcommand
            ((Turn.Inert.malformed hwords herrors).cleared_taken console)
      | some words =>
        obtain ⟨name, argument⟩ := words
        have hprogram : (Turn.text submitted).program? = none := by simp [Turn.program?, hwords]
        cases hname : Command.ofName? name with
        | none =>
          exact .nothing hprogram (by simp [Turn.command?, hwords, hname])
            ((Turn.Inert.unknown hwords hname).cleared_taken console)
        | some command =>
          exact .command command argument hprogram (by simp [Turn.command?, hblank, hwords, hname])
            (by simp [taken, submit, hblank, command?, hwords, hname])

/-- The programs since the last reset. -/
def remembered (turns : List Turn) : List String :=
  (turns.rtakeWhile fun turn => turn.command? ≠ some .reset).filterMap Turn.program?

theorem remembered_concat (turns : List Turn) (turn : Turn) : remembered (turns ++ [turn]) =
    if turn.command? = some .reset then [] else remembered turns ++ turn.program?.toList := by
  rw [remembered, List.rtakeWhile_concat]
  by_cases hreset : turn.command? = some .reset
  · simp [hreset]
  · simp only [hreset, ne_eq, not_false_eq_true, decide_true, if_true, if_false, List.filterMap_append,
      remembered]
    cases hprogram : turn.program? <;> simp [hprogram]

/-- The console after programs alone. -/
def afterPrograms (console : Console) (texts : List String) : Console :=
  texts.foldl (fun console text => (console.evaluate text).2) console

/-- The console that has evaluated only the programs since the last reset, in an environment of their own. The
    outline is shown if that was asked for an odd number of times. -/
def rebuilt (start : Console) (turns : List Turn) : Console :=
  { start.afterPrograms (remembered turns) with
    showTree := decide (turns.countP (fun turn => turn.command? = some .ast) % 2 = 1)
    traceback := (start.after turns).traceback }

theorem after_concat (console : Console) (turns : List Turn) (turn : Turn) :
    console.after (turns ++ [turn]) = ((console.after turns).taken turn).2 :=
  List.foldl_append

theorem afterPrograms_concat (console : Console) (texts : List String) (text : String) :
    console.afterPrograms (texts ++ [text]) = ((console.afterPrograms texts).evaluate text).2 :=
  List.foldl_append

/-- Programs alone leave what running their texts as a session leaves: also what a text has bound that ends
    with an error or halts. -/
theorem afterPrograms_eq (console : Console) (texts : List String) :
    (console.afterPrograms texts).env = console.env ∧
      (console.afterPrograms texts).machine.clearOutput =
        (sessionAfter texts console.env console.machine).clearOutput := by
  induction texts using List.reverseRecOn with
  | nil => exact ⟨rfl, rfl⟩
  | append_singleton texts text ih =>
    obtain ⟨henv, hmachine⟩ := ih
    have hsession : sessionAfter (texts ++ [text]) console.env console.machine =
        runAfter text console.env (sessionAfter texts console.env console.machine) := List.foldl_append
    have hcleared : (console.afterPrograms texts).machine.clearOutput.clearOutput =
        (sessionAfter texts console.env console.machine).clearOutput := hmachine
    rw [afterPrograms_concat, evaluate_snd, henv, hsession]
    exact ⟨rfl, clearOutput_runAfter hcleared text console.env⟩

/-! The text that the host has for a failure is no part of what turns change. -/

theorem run_trace (command : Command) (argument : String) (console : Console) :
    (command.run argument console).2.trace = console.trace := by
  cases command with
  | ast | clear | reset => rfl
  | traceback =>
    simp only [Command.run]
    split <;> rfl

theorem taken_trace (console : Console) (turn : Turn) :
    (console.taken turn).2.trace = console.trace := by
  cases takes console turn with
  | program text _ _ htaken => rw [htaken, evaluate_snd]
  | command command argument _ _ htaken => rw [htaken, run_trace]
  | nothing _ _ htaken => exact (fields_of_cleared htaken).2.2.trace

theorem trace_after (console : Console) (turns : List Turn) : (console.after turns).trace = console.trace := by
  induction turns generalizing console with
  | nil => rfl
  | cons turn rest ih => exact (ih (console.taken turn).2).trans (taken_trace console turn)

theorem trace_afterPrograms (console : Console) (texts : List String) :
    (console.afterPrograms texts).trace = console.trace := by
  induction texts generalizing console with
  | nil => rfl
  | cons text rest ih =>
    refine (ih (console.evaluate text).2).trans ?_
    rw [evaluate_snd]

section

variable (traceback : Bool) (trace : String)

theorem showTree_after (turns : List Turn) : ((Console.start traceback trace).after turns).showTree =
    decide (turns.countP (fun turn => turn.command? = some .ast) % 2 = 1) := by
  induction turns using List.reverseRecOn with
  | nil => rfl
  | append_singleton turns turn ih =>
    rw [after_concat, List.countP_append, List.countP_singleton]
    cases takes ((Console.start traceback trace).after turns) turn with
    | program text _ hcommand htaken => simp [htaken, evaluate_snd, hcommand, ih]
    | nothing _ hcommand htaken => simp [(fields_of_cleared htaken).2.2.showTree, hcommand, ih]
    | command command argument _ hcommand htaken =>
      rw [htaken, hcommand]
      cases command with
      | ast =>
        simp only [Command.run, ih, decide_true, if_true, ← decide_not, decide_eq_decide]
        omega
      | clear | reset => exact ih
      | traceback =>
        simp only [Command.run]
        split <;> exact ih

theorem sameBindings_after (turns : List Turn) :
    ((Console.start traceback trace).afterPrograms (remembered turns)).SameBindings
      ((Console.start traceback trace).after turns) := by
  induction turns using List.reverseRecOn with
  | nil => exact .refl _
  | append_singleton turns turn ih =>
    rw [after_concat, remembered_concat]
    cases takes ((Console.start traceback trace).after turns) turn with
    | program text hprogram hcommand htaken =>
      rw [if_neg (by simp [hcommand]), hprogram, htaken]
      exact afterPrograms_concat _ _ text ▸ (ih.evaluate text).1
    | nothing hprogram hcommand htaken =>
      rw [if_neg (by simp [hcommand]), hprogram, Option.toList_none, List.append_nil]
      exact ih.trans_cleared htaken
    | command command argument hprogram hcommand htaken =>
      rw [hprogram, htaken, hcommand, Option.toList_none, List.append_nil]
      cases command with
      | ast | clear => exact ih
      | traceback =>
        rw [if_neg (by simp)]
        simp only [Command.run]
        split <;> exact ih
      | reset => exact sameBindings_reset traceback trace _

/-- After any turns the console is alike to the one rebuilt from them. -/
theorem alike_rebuilt (turns : List Turn) :
    ((Console.start traceback trace).rebuilt turns).Alike ((Console.start traceback trace).after turns) :=
  ⟨⟨showTree_after traceback trace turns, rfl, (trace_after _ turns).trans (trace_afterPrograms _ _).symm⟩,
    sameBindings_after traceback trace turns⟩

end

/-- A turn that does nothing, put in anywhere, adds one step to a session and changes nothing else in it; and
    what comes later depends on the turns before only through the programs since the last reset and the
    switches: it is the same after the console that these alone lead to, which holds the same bindings. They are
    what the programs leave when they are run one after the other from the start, each with all that it bound
    before it ended with an error or halted. -/
theorem session_remembers (user : String) (traceback : Bool) (trace : String) (before later : List Turn)
    (hend : .endOfInput ∉ before) :
    let start := Console.start traceback trace
    (∀ turn : Turn, turn.Inert → ∃ effects,
      (session user start (before ++ turn :: later)).1 =
        (session user start (before ++ later)).1.insertIdx (before.length + 1) ⟨effects, some prompt⟩ ∧
      (session user start (before ++ turn :: later)).2.traceback =
        (session user start (before ++ later)).2.traceback) ∧
    (start.rebuilt before).Alike (start.after before) ∧
    ((start.rebuilt before).env = start.env ∧ (start.rebuilt before).machine.clearOutput =
      (sessionAfter (remembered before) start.env start.machine).clearOutput) ∧
    (session user start (before ++ later)).1 =
      (session user start before).1.dropLast ++ ((start.rebuilt before).steps later).1 ∧
    (session user start (before ++ later)).2.traceback = ((start.rebuilt before).steps later).2.traceback := by
  intro start
  let first : Step := ⟨[.print (greeting user)], some prompt⟩
  have hshown (turns : List Turn) : (session user start turns).1 = first :: (start.steps turns).1 := rfl
  have hlast (turns : List Turn) : (session user start turns).2 = (start.steps turns).2 := rfl
  have halike := alike_rebuilt traceback trace before
  obtain ⟨hsteps, htraceback⟩ := halike.steps later
  refine ⟨fun turn hinert => ?_, halike, afterPrograms_eq start (remembered before), ?_, ?_⟩
  · have hturn : turn ≠ .endOfInput := by
      rintro rfl
      cases hinert
    obtain ⟨hsteps, htraceback⟩ := (alike_of_cleared (hinert.cleared_taken (start.after before))).steps later
    refine ⟨((start.after before).taken turn).1, ?_, ?_⟩
    · rw [hshown, hshown, steps_append hend, steps_append hend, steps_cons hturn, List.insertIdx_succ_cons,
        ← length_stepsOf start before, insertIdx_length_append, hsteps]
    · rw [hlast, hlast, steps_append hend, steps_append hend, steps_cons hturn, htraceback]
  · have hbefore : (start.steps before).1 = start.stepsOf before ++ [farewell] := by
      have happend := steps_append hend start []
      rw [List.append_nil] at happend
      exact congrArg Prod.fst happend
    rw [hshown, hshown, hbefore, ← List.cons_append, List.dropLast_concat, steps_append hend, List.cons_append]
    exact congrArg (first :: start.stepsOf before ++ ·) hsteps
  · rw [hlast, steps_append hend, htraceback]

/-- A session that is reset, and in which a program ends early and one cannot be read. -/
theorem session_remembers_reset :
    let start := Console.start false
    let before : List Turn := [.text "/ast", .text "let a = fn(x) \x7b x \x7d; puts(a)", .text "let a = ;",
      .text " /reset", .interrupt, .text "let b = fn(x) \x7b x + c \x7d;\n let c = 1; return b(2); let c = 3;",
      .text "/py-traceback"]
    let turn : Turn := .text "let b = 5; let = 6"
    let later : List Turn := [.text "b(c)", .text "a", .text "\u00a0", .text "/clear now", .endOfInput]
    .endOfInput ∉ before ∧ turn.Inert ∧
      remembered before = ["let b = fn(x) \x7b x + c \x7d;\n let c = 1; return b(2); let c = 3;"] ∧
      (∃ effects, (session "ape" start (before ++ turn :: later)).1 =
          (session "ape" start (before ++ later)).1.insertIdx (before.length + 1) ⟨effects, some prompt⟩ ∧
        (session "ape" start (before ++ turn :: later)).2.traceback =
          (session "ape" start (before ++ later)).2.traceback) ∧
      (start.rebuilt before).Alike (start.after before) ∧
      ((start.rebuilt before).env = start.env ∧ (start.rebuilt before).machine.clearOutput =
        (sessionAfter (remembered before) start.env start.machine).clearOutput) ∧
      (session "ape" start (before ++ later)).1 =
        (session "ape" start before).1.dropLast ++ ((start.rebuilt before).steps later).1 ∧
      (session "ape" start (before ++ later)).2.traceback =
        ((start.rebuilt before).steps later).2.traceback := by
  intro start before turn later
  have hend : .endOfInput ∉ before := by simp [before]
  have hinert : turn.Inert := .malformed (by decide +kernel) (by decide +kernel)
  have hremembered :
      remembered before = ["let b = fn(x) \x7b x + c \x7d;\n let c = 1; return b(2); let c = 3;"] := by
    decide +kernel
  clear_value before turn later
  have hmain := session_remembers "ape" false "" before later hend
  exact ⟨hend, hinert, hremembered, hmain.1 turn hinert, hmain.2⟩

end Monkey.Console
