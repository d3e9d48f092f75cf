import Monkey.Session
import Monkey.Proofs.Evaluation.Relabeling
import Monkey.Proofs.Grammar.Closing

/-!
# A session as one program

The texts of a session, put on lines one below the other, are a program that does what the session does:
it gives the value of the last text, prints what the texts print, and leaves the bindings that they leave.
This needs two things of each text but the last. It is read alone as it is read in front of the others
(`Extensible`), and its run goes on to the end of its statements (`uninterrupted`): at a pending return or
an error the program would be over, while the session would go on with the next text.

The two runs make functions out of the same bodies at different places. Evaluation does not look at
places, so the outcomes are compared without them (`bareOutcome`), and a step of the session is compared
with a part of the program by evaluating statements without places on a machine without places.
-/

namespace Monkey

/-! ### Outcomes without places -/

/-- A value without the places of the functions in it. -/
def Value.bare (value : Value) : Value :=
  value.relabel Relocation.forget.relabeling

def Machine.bare (m : Machine) : Machine :=
  m.relabel Relocation.forget.relabeling

/-- What a run comes to, without places: its value or its failure, and what it has printed and bound. -/
def bareOutcome : EStateM.Result RunFailure Machine Value → EStateM.Result RunFailure Machine Value
  | .ok value m => .ok value.bare m.bare
  | .error failure m => .error failure m.bare

/-- Values that are equal but for places are shown alike. -/
theorem Value.inspect_of_bare {value value' : Value} (h : value.bare = value'.bare) :
    value.inspect = value'.inspect := by
  have hinspect := congrArg inspect h
  rwa [bare, bare, inspect_relabel, inspect_relabel] at hinspect

/-- Machines that are equal but for places have printed the same, and in every scope of theirs the same
    names are bound, in the same order, to values that are shown alike. -/
theorem Machine.shown_of_bare {m m' : Machine} (h : m.bare = m'.bare) :
    m.output = m'.output ∧ ∀ scope, (m.bindings scope).map (fun entry => (entry.1, entry.2.inspect)) =
      (m'.bindings scope).map fun entry => (entry.1, entry.2.inspect) := by
  have hshown (m : Machine) (scope : Nat) :
      (m.bare.bindings scope).map (fun entry => (entry.1, entry.2.inspect)) =
        (m.bindings scope).map fun entry => (entry.1, entry.2.inspect) := by
    rw [bare, bindings_relabel, Assoc.mapValues, List.map_map]
    refine List.map_congr_left fun entry _ => ?_
    exact congrArg (Prod.mk entry.1) (Value.inspect_relabel entry.2)
  refine ⟨(congrArg Machine.output h : m.bare.output = m'.bare.output), fun scope => ?_⟩
  rw [← hshown m, ← hshown m', h]

/-! ### The statements of a text -/

/-- Evaluate statements at the top level of a text; what ends them early is handed on. -/
def evalStatements (statements : List Node) (env : Env) : Eval Value :=
  evalSequence (Node.evalWithin (depthLimit - 1)) env .null statements

theorem evalSequence_append {evalBody : Node → Env → Eval Value} {env : Env} {statements rest : List Node}
    {last : Value} {m : Machine} (hlast : (last.isReturning || last.isError) = false) :
    evalSequence evalBody env last (statements ++ rest) m =
      match evalSequence evalBody env last statements m with
      | .ok result m' =>
        if result.isReturning || result.isError then .ok result m'
        else evalSequence evalBody env result rest m'
      | .error reason m' => .error reason m' := by
  induction statements generalizing last m with
  | nil =>
    show _ = if last.isReturning || last.isError then _ else _
    simp [hlast]
  | cons statement statements ih =>
    simp only [List.cons_append, evalSequence, Eval.bind_run]
    cases statement.evalWith evalBody env m with
    | error reason m' => rfl
    | ok result m' =>
      cases hresult : result.isReturning || result.isError with
      | true =>
        simp only [hresult, if_true]
        show _ = if result.isReturning || result.isError then _ else _
        rw [hresult, if_pos rfl]
        rfl
      | false =>
        simp only [hresult, Bool.false_eq_true, if_false]
        exact ih hresult

theorem evalStatements_append {statements rest : List Node} {env : Env} {m : Machine} (hrest : rest ≠ []) :
    evalStatements (statements ++ rest) env m = match evalStatements statements env m with
      | .ok result m' =>
        if result.isReturning || result.isError then .ok result m' else evalStatements rest env m'
      | .error reason m' => .error reason m' := by
  obtain ⟨first, rest, rfl⟩ := List.exists_cons_of_ne_nil hrest
  exact evalSequence_append rfl

/-- On a machine without places, statements without places do what the statements do. -/
theorem evalStatements_bare (statements : List Node) (env : Env) (m : Machine) :
    evalStatements (bareNodes statements) env m.bare = match evalStatements statements env m with
      | .ok value m' => .ok value.bare m'.bare
      | .error reason m' => .error reason m'.bare := by
  have hcommutes :=
    Eval.commutes_evalSequence Relocation.forget.relabeling (depthLimit - 1) env statements .null m
  refine hcommutes.trans ?_
  rw [evalStatements]
  cases evalSequence (Node.evalWithin (depthLimit - 1)) env .null statements m <;> rfl

/-! ### Runs -/

/-- The value of a program text in an environment. -/
def runValue (source : String) (env : Env) : Run Value := do
  return (← runText source env).1

theorem runText_run {source : String} (h : (parse source).errors = []) (env : Env) (m : Machine) :
    runText source env m = match evalStatements (parse source).statements env m with
      | .ok value m' => .ok (value.unwrapped, (parse source).program) m'
      | .error reason m' => .error (.halt reason) m' := by
  have hparse : parseProgram source = .ok (parse source).program := by simp [parseProgram, h]
  have heval : (parse source).program.eval env =
      evalStatements (parse source).statements env >>= fun value => pure value.unwrapped := rfl
  simp only [runText, hparse, Bind.bind, EStateM.bind, Eval.toRun, heval]
  cases evalStatements (parse source).statements env m <;> rfl

theorem runValue_run {source : String} (h : (parse source).errors = []) (env : Env) (m : Machine) :
    runValue source env m = match evalStatements (parse source).statements env m with
      | .ok value m' => .ok value.unwrapped m'
      | .error reason m' => .error (.halt reason) m' := by
  simp only [runValue, Bind.bind, EStateM.bind, runText_run h]
  cases evalStatements (parse source).statements env m <;> rfl

/-- Without places, running a text is evaluating its statements without places. -/
theorem bareOutcome_runValue {source : String} (h : (parse source).errors = []) (env : Env) (m : Machine) :
    bareOutcome (runValue source env m) =
      match evalStatements (bareNodes (parse source).statements) env m.bare with
      | .ok value m' => .ok value.unwrapped m'
      | .error reason m' => .error (.halt reason) m' := by
  rw [runValue_run h, evalStatements_bare]
  cases evalStatements (parse source).statements env m with
  | error reason m' => rfl
  | ok value m' => exact congrArg (EStateM.Result.ok · m'.bare) (Value.unwrapped_relabel value).symm

/-! ### Sessions -/

/-- Run program texts one after the other in an environment, and at last one whose value is the result. As
    soon as a run fails, so does the session. -/
def runSession (env : Env) (last : String) : List String → Run Value
  | [] => runValue last env
  | text :: rest => do
    let _ ← runText text env
    runSession env last rest

/-- Whether of texts that are run one after the other none is ended by a statement that gives a pending
    return or an error. Where an evaluation halts no more texts are run, and nothing is asked of them. -/
def uninterrupted (env : Env) : List String → Machine → Bool
  | [], _ => true
  | text :: rest, m =>
    match evalStatements (parse text).statements env m with
    | .ok value m' => !(value.isReturning || value.isError) && uninterrupted env rest m'
    | .error .. => true

/-- The texts of a session are read as one program that has all their statements. -/
theorem parse_lines {texts : List String} {last : String} (htexts : ∀ text ∈ texts, Extensible text)
    (hlast : (parse last).errors = []) :
    (parse ("\n".intercalate (texts ++ [last]))).errors = [] ∧
      bareNodes (parse ("\n".intercalate (texts ++ [last]))).statements =
        texts.flatMap (fun text => bareNodes (parse text).statements) ++
          bareNodes (parse last).statements := by
  induction texts with
  | nil => simpa using hlast
  | cons text texts ih =>
    rw [List.forall_mem_cons] at htexts
    obtain ⟨herrors, hnodes⟩ := ih htexts.2
    rw [List.cons_append, String.intercalate_cons_of_ne_nil (by simp), List.flatMap_cons, List.append_assoc,
      ← hnodes]
    exact parse_append_line htexts.1 herrors

theorem runSession_cons {text : String} (h : (parse text).errors = []) (env : Env) (last : String)
    (texts : List String) (m : Machine) : runSession env last (text :: texts) m =
      match evalStatements (parse text).statements env m with
      | .ok _ m' => runSession env last texts m'
      | .error reason m' => .error (.halt reason) m' := by
  simp only [runSession, Bind.bind, EStateM.bind, runText_run h]
  cases evalStatements (parse text).statements env m <;> rfl

/-- A session has the outcome of the program that its texts are, one below the other: the same value or
    failure, the same output and the same bindings in the same order, all but the places of functions. -/
theorem bareOutcome_runSession {texts : List String} {last : String} {env : Env} {m : Machine}
    (htexts : ∀ text ∈ texts, Extensible text) (hruns : uninterrupted env texts m = true)
    (hlast : (parse last).errors = []) (hstatements : (parse last).statements ≠ []) :
    bareOutcome (runSession env last texts m) =
      bareOutcome (runValue ("\n".intercalate (texts ++ [last])) env m) := by
  -- One step of the session is the first part of the program: both come to evaluating the statements of
  -- the first text without places, and both go on from machines that are equal but for places.
  induction texts generalizing m with
  | nil => simp [runSession]
  | cons text texts ih =>
    rw [List.forall_mem_cons] at htexts
    obtain ⟨herrors, hnodes⟩ := parse_lines htexts.2 hlast
    obtain ⟨herrors', hnodes'⟩ := parse_append_line htexts.1 herrors
    have hne : bareNodes (parse ("\n".intercalate (texts ++ [last]))).statements ≠ [] := by
      rw [hnodes]
      exact List.append_ne_nil_of_right_ne_nil _ (bareNodes_ne_nil hstatements)
    rw [List.cons_append, String.intercalate_cons_of_ne_nil (by simp), bareOutcome_runValue herrors',
      hnodes', evalStatements_append hne, evalStatements_bare, runSession_cons htexts.1.errors]
    rw [uninterrupted] at hruns
    cases heval : evalStatements (parse text).statements env m with
    | error reason m' => rfl
    | ok value m' =>
      simp only [heval, Bool.and_eq_true, Bool.not_eq_true'] at hruns
      have hgoes : (value.bare.isReturning || value.bare.isError) = false := by
        rw [Value.bare, Value.isReturning_relabel, Value.isError_relabel, hruns.1]
      simp only [hgoes, Bool.false_eq_true, if_false]
      rw [ih htexts.2 hruns.2, bareOutcome_runValue herrors]

theorem bareOutcome_runSession_closure :
    let texts := ["let a = fn(x) \x7b let b = x; fn(y) \x7b b + y \x7d \x7d; # one", "", "# nothing",
      "let c = a(1); puts(c(2));"]
    let last := "c(a(3)(4))"
    let env := (Machine.openSession {}).1
    let m := (Machine.openSession {}).2
    (∀ text ∈ texts, Extensible text) ∧ uninterrupted env texts m = true ∧ (parse last).errors = [] ∧
      (parse last).statements ≠ [] ∧ bareOutcome (runSession env last texts m) =
        bareOutcome (runValue ("\n".intercalate (texts ++ [last])) env m) := by
  intro texts last env m
  have htexts : ∀ text ∈ texts, Extensible text := by decide +kernel
  have hruns : uninterrupted env texts m = true := by decide +kernel
  have herrors : (parse last).errors = [] := by decide +kernel
  have hstatements : (parse last).statements ≠ [] := by decide +kernel
  exact ⟨htexts, hruns, herrors, hstatements, bareOutcome_runSession htexts hruns herrors hstatements⟩

end Monkey
