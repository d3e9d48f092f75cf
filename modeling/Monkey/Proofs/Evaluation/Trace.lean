import Monkey.Proofs.Evaluation.Primitive

/-!
# Traces

What happens in the course of an evaluation, in order. The trace is not part of the evaluation: it is
the log of a second evaluator, `Node.tracedWithin`, which goes the same way and writes down what it does
(`erase_tracedWithin`).

An event is logged where it happens: a node is `entered` before its parts, and the value of a part is
`taken` at the moment at which the construct around it goes on with it, which it does not do with an
error.
-/

namespace Monkey

inductive Event where
  | entered (node : Node)
  /-- A construct goes on with the value of one of its parts: an operand, a condition, a callee, an
      argument, an element, a key, or the value that is bound or returned. -/
  | taken (part : Node) (value : Value)
  | made (value : Value)
  | printed (line : String)
  | bound (scope : Nat) (name : String) (value : Value)
  /-- A function or a built-in function starts with its arguments. -/
  | called (callee : Value) (arguments : List Value)
  /-- A function or a program ends with a value that is no error. -/
  | gave (value : Value)

def Event.apply (m : Machine) : Event → Machine
  | .made _ => m.grown [] 1
  | .printed line => m.grown [line] 0
  | .bound scope name value => m.bind ⟨scope, []⟩ name value
  | .called (.function _ parameters _ env) arguments =>
    (m.openScope env.chain (Assoc.insertAll (parameters.zip arguments) [])).2
  | _ => m

/-- What a traced evaluation gives: the events, and what the evaluation itself gives. -/
structure Trace (α : Type) where
  events : List Event
  result : EStateM.Result Halt Machine α

def Traced (α : Type) : Type :=
  Machine → Trace α

namespace Traced

variable {α β : Type}

/-- Go on with the result of an evaluation, and log both. -/
def andThen (x : Traced α) (next : α → Traced β) : Traced β := fun m =>
  match (x m).result with
  | .ok a m' => ⟨(x m).events ++ (next a m').events, (next a m').result⟩
  | .error reason m' => ⟨(x m).events, .error reason m'⟩

instance : Monad Traced where
  pure a := fun m => ⟨[], .ok a m⟩
  bind := andThen

def erase (x : Traced α) : Eval α := fun m =>
  (x m).result

/-- An evaluation that is logged as one event. -/
def note (event : Event) (x : Eval α) : Traced α := fun m =>
  ⟨[event], x m⟩

/-- The events of a primitive step, read off the machine: the lines printed, and the result if an object
    was made. -/
def changes (m : Machine) : EStateM.Result Halt Machine Value → List Event
  | .ok value m' =>
    (m'.output.toList.drop m.output.size).map .printed ++
      if m.objects < m'.objects then [.made value] else []
  | .error _ _ => []

def step (x : Eval Value) : Traced Value := fun m =>
  ⟨changes m (x m), x m⟩

/-- Evaluate a part, and go on with its value unless that is an error. -/
def take (part : Node) (x : Traced Value) (next : Value → Traced Value) : Traced Value := do
  let value ← x
  if value.isError then return value
  else do
    note (.taken part value) (pure ())
    next value

/-- End a function or a program with the value that its body gives. -/
def finish (result : Value) : Traced Value :=
  if result.isError then return result
  else note (.gave result.unwrapped) (pure result.unwrapped)

end Traced

/-! ### The evaluator with a log -/

open Traced

def applyTraced (traceBody : Node → Env → Traced Value) (callee : Value) (arguments : List Value) :
    Traced Value :=
  match callee with
  | .function _ parameters body env =>
    if arguments.length < parameters.length then
      step (Eval.error (.missingArguments parameters.length arguments.length))
    else do
      let inner ← note (.called callee arguments)
        (Eval.enclosed env (Assoc.insertAll (parameters.zip arguments) []))
      finish (← traceBody body inner)
  | .builtin builtin => do
    note (.called callee arguments) (pure ())
    step (builtin.apply arguments)
  | _ => step (Eval.error (.notFunction callee.kind))

section

variable (traceBody : Node → Env → Traced Value) (env : Env)

mutual

/-- The evaluation of a node with a log, which starts with the node itself. -/
def Node.tracedWith (node : Node) : Traced Value := do
  note (.entered node) (pure ())
  match node with
  | .missing => fun m => ⟨[], .error .missingNode m⟩
  | .program statements => do finish (← tracedSequence .null statements)
  | .block _ statements => tracedSequence .null statements
  | .expressionStatement _ expression => expression.tracedWith
  | .letStatement _ target value =>
    take value value.tracedWith fun result => do
      note (.bound env.scope target.name result) (Eval.bind env target.name result)
      return .null
  | .returnStatement _ value => take value value.tracedWith fun result => step (Eval.returning result)
  | .identifier name => step (evalName env name.name)
  | .integer _ value => step (Eval.integer value)
  | .string _ value => step (Eval.string value)
  | .boolean _ value => return .boolean value
  | .prefixed _ operator right =>
    take right right.tracedWith fun operand => step (applyPrefix operator operand)
  | .binary _ left operator right =>
    take left left.tracedWith fun first =>
      take right right.tracedWith fun second => step (applyBinary operator first second)
  | .conditional _ condition consequence alternative =>
    take condition condition.tracedWith fun test =>
      if test.isTruthy then consequence.tracedWith
      else if alternative.isMissing then return .null
      else alternative.tracedWith
  | .function _ parameters body => step (Eval.function (parameters.map Identifier.name) body env)
  | .call _ callee arguments =>
    take callee callee.tracedWith fun function =>
      tracedAll arguments fun values => applyTraced traceBody function values
  | .array _ elements => tracedAll elements fun values => step (Eval.array values)
  | .index _ left subscript =>
    take left left.tracedWith fun first =>
      take subscript subscript.tracedWith fun second => step (applyIndex first second)
  | .hash _ pairs => tracedPairs [] pairs

def tracedSequence (last : Value) : List Node → Traced Value
  | [] => return last
  | statement :: rest => do
    let result ← statement.tracedWith
    if result.isReturning || result.isError then return result
    else tracedSequence result rest

/-- Evaluate several expressions and go on with their values. -/
def tracedAll (expressions : List Node) (next : List Value → Traced Value) : Traced Value :=
  match expressions with
  | [] => next []
  | expression :: rest =>
    take expression expression.tracedWith fun value => tracedAll rest fun values => next (value :: values)

def tracedPairs (entries : List (HashKey × Value × Value)) : List (Node × Node) → Traced Value
  | [] => step (Eval.hash entries)
  | (left, right) :: rest =>
    take left left.tracedWith fun key =>
      match key.hashKey? with
      | none => step (Eval.error (.unusableKey key.kind))
      | some hashKey =>
        take right right.tracedWith fun value =>
          tracedPairs (Assoc.insert hashKey (key, value) entries) rest

end

end

/-- The evaluation of a node with a log, with at most `depth` evaluations nested in one another. -/
def Node.tracedWithin : Nat → Node → Env → Traced Value
  | 0, _, _ => fun m => ⟨[], .error .tooDeep m⟩
  | depth + 1, node, env => node.tracedWith (tracedWithin depth) env

/-! ### Forgetting the log -/

namespace Traced

variable {α β : Type}

@[simp] theorem erase_pure (a : α) : erase (pure a : Traced α) = pure a := rfl

@[simp] theorem erase_note (event : Event) (x : Eval α) : erase (note event x) = x := rfl

@[simp] theorem erase_step (x : Eval Value) : erase (step x) = x := rfl

theorem bind_run (x : Traced α) (f : α → Traced β) (m : Machine) :
    (x >>= f) m = match (x m).result with
      | .ok a m' => ⟨(x m).events ++ (f a m').events, (f a m').result⟩
      | .error reason m' => ⟨(x m).events, .error reason m'⟩ := rfl

@[simp] theorem erase_bind (x : Traced α) (f : α → Traced β) :
    erase (x >>= f) = erase x >>= fun a => erase (f a) := by
  funext m
  simp only [erase, bind_run, Eval.bind_run]
  cases (x m).result <;> rfl

@[simp] theorem erase_take (part : Node) (x : Traced Value) (next : Value → Traced Value) :
    erase (take part x next) = erase x >>= fun value => value.proceed (erase (next value)) := by
  rw [take, erase_bind]
  apply bind_congr
  intro value
  unfold Value.proceed
  split
  · rfl
  · rw [erase_bind, erase_note, pure_bind]

@[simp] theorem erase_finish (result : Value) : erase (finish result) = pure result.unwrapped := by
  unfold finish
  split
  · cases result <;> first | rfl | contradiction
  · rfl

end Traced

section

variable {traceBody : Node → Env → Traced Value} {evalBody : Node → Env → Eval Value}
  (hbody : ∀ body env, erase (traceBody body env) = evalBody body env)

include hbody

theorem erase_applyTraced (callee : Value) (arguments : List Value) :
    erase (applyTraced traceBody callee arguments) = applyWith evalBody callee arguments := by
  cases callee with
  | function id parameters body env =>
    simp only [applyTraced, applyWith]
    split
    · rfl
    · simp only [erase_bind, erase_note, erase_finish, hbody]
  | builtin builtin => simp only [applyTraced, applyWith, erase_bind, erase_note, erase_step, pure_bind]
  | _ => rfl

variable (env : Env)

set_option linter.unusedSectionVars false in
mutual

theorem erase_tracedWith (node : Node) :
    erase (node.tracedWith traceBody env) = node.evalWith evalBody env := by
  rw [Node.tracedWith.eq_def, erase_bind, erase_note, pure_bind]
  cases node with
  | missing => rfl
  | program statements =>
    simp only [Node.evalWith, erase_bind, erase_finish, erase_tracedSequence statements]
  | block _ statements => simp only [Node.evalWith, erase_tracedSequence statements]
  | expressionStatement _ expression => simp only [Node.evalWith, erase_tracedWith expression]
  | letStatement _ target value =>
    simp only [Node.evalWith, erase_take, erase_bind, erase_note, erase_pure, erase_tracedWith value]
  | returnStatement _ value =>
    simp only [Node.evalWith, erase_take, erase_step, erase_tracedWith value]
  | identifier name => rfl
  | integer _ value => rfl
  | string _ value => rfl
  | boolean _ value => rfl
  | prefixed _ operator right =>
    simp only [Node.evalWith, erase_take, erase_step, erase_tracedWith right]
  | binary _ left operator right =>
    simp only [Node.evalWith, erase_take, erase_step, erase_tracedWith left, erase_tracedWith right]
  | conditional _ condition consequence alternative =>
    simp only [Node.evalWith, erase_take, erase_tracedWith condition]
    refine bind_congr fun test => congrArg test.proceed ?_
    split
    · exact erase_tracedWith consequence
    · split
      · rfl
      · exact erase_tracedWith alternative
  | function _ parameters body => rfl
  | call _ callee arguments =>
    simp only [Node.evalWith, erase_take, erase_tracedWith callee]
    refine bind_congr fun function => congrArg function.proceed ?_
    refine (erase_tracedAll arguments _).trans (bind_congr fun values => ?_)
    cases values with
    | ok values => exact erase_applyTraced hbody function values
    | error failure => rfl
  | array _ elements =>
    refine (erase_tracedAll elements _).trans (bind_congr fun values => ?_)
    cases values <;> rfl
  | index _ left subscript =>
    simp only [Node.evalWith, erase_take, erase_step, erase_tracedWith left, erase_tracedWith subscript]
  | hash _ pairs => exact erase_tracedPairs pairs []

theorem erase_tracedSequence (statements : List Node) (last : Value) :
    erase (tracedSequence traceBody env last statements) = evalSequence evalBody env last statements := by
  cases statements with
  | nil => rfl
  | cons statement rest =>
    rw [tracedSequence, evalSequence, erase_bind, erase_tracedWith statement]
    apply bind_congr
    intro result
    split
    · rfl
    · exact erase_tracedSequence rest result

/-- Going on with several values is going on with them unless one of them is an error. -/
theorem erase_tracedAll (expressions : List Node) (next : List Value → Traced Value) :
    erase (tracedAll traceBody env expressions next) = (do
      match ← evalAll evalBody env expressions with
      | .ok values => erase (next values)
      | .error failure => return failure) := by
  cases expressions with
  | nil => rfl
  | cons expression rest =>
    rw [tracedAll, erase_take, evalAll, bind_assoc, erase_tracedWith expression]
    apply bind_congr
    intro value
    unfold Value.proceed
    split
    · rfl
    · rw [erase_tracedAll rest, bind_assoc]
      apply bind_congr
      intro values
      cases values <;> rfl

theorem erase_tracedPairs (pairs : List (Node × Node))
    (entries : List (HashKey × Value × Value)) :
    erase (tracedPairs traceBody env entries pairs) = evalPairs evalBody env entries pairs := by
  match pairs with
  | [] => rfl
  | (left, right) :: rest =>
    rw [tracedPairs, evalPairs, erase_take, erase_tracedWith left]
    refine bind_congr fun key => congrArg key.proceed ?_
    cases key.hashKey? with
    | none => rfl
    | some hashKey =>
      rw [erase_take, erase_tracedWith right]
      refine bind_congr fun value => congrArg value.proceed ?_
      exact erase_tracedPairs rest _

end

end

/-- Without its log, the traced evaluation is the evaluation. -/
theorem erase_tracedWithin (depth : Nat) (node : Node) (env : Env) :
    erase (node.tracedWithin depth env) = node.evalWithin depth env := by
  induction depth generalizing node env with
  | zero => rfl
  | succ depth ih => exact erase_tracedWith ih env node

/-! ### Runs -/

/-- The machine at the end of an evaluation, whether it gives a value or halts. -/
def Trace.last {α : Type} (t : Trace α) : Machine :=
  match t.result with
  | .ok _ m => m
  | .error _ m => m

def Node.trace (depth : Nat) (node : Node) (env : Env) (m : Machine) : List Event :=
  (node.tracedWithin depth env m).events

theorem after_evalWithin (depth : Nat) (node : Node) (env : Env) (m : Machine) :
    (node.evalWithin depth env).after m = (node.tracedWithin depth env m).last := by
  rw [← erase_tracedWithin]
  cases hresult : (node.tracedWithin depth env m).result <;>
    simp only [Eval.after, erase, Trace.last, hresult]

namespace Traced

/-- The log of a primitive step: its lines, and its result if that is a new object. -/
theorem step_eq {x : Eval Value} {m : Machine} {value : Value} {lines : List String} {count : Nat}
    (hrun : x m = .ok value (m.grown lines count)) (hcount : count ≤ 1) : step x m =
      ⟨lines.map .printed ++ (if count = 1 then [.made value] else []), .ok value (m.grown lines count)⟩ := by
  have hlines : (m.grown lines count).output.toList.drop m.output.size = lines := by
    simp [Machine.grown]
  have hmade : m.objects < (m.grown lines count).objects ↔ count = 1 := by
    simp only [Machine.grown]
    omega
  simp only [step, hrun, changes, hlines, hmade]

theorem step_run {P : Value → Prop} {x : Eval Value} {m : Machine} (h : Eval.Primitive P x m) :
    ∃ value lines, (∃ count, step x m =
        ⟨lines.map .printed ++ (if count = 1 then [.made value] else []), .ok value (m.grown lines count)⟩ ∧
        count ≤ 1 ∧ (P value ∨ value.isError = true ∧ count = 1)) := by
  rcases h with ⟨value, lines, count, hrun, hcount, hvalue⟩
  exact ⟨value, lines, count, step_eq hrun hcount, hcount, hvalue⟩

theorem step_new (form : Nat → Value) (m : Machine) :
    step (Eval.newObject >>= fun id => pure (form id)) m =
      ⟨[.made (form m.objects)], .ok (form m.objects) (m.grown [] 1)⟩ := by
  simp only [step, Eval.new_run, changes]
  simp [Machine.grown]

end Traced

end Monkey
