import Monkey.Proofs.Evaluation.Trace
import Monkey.Proofs.Session

/-!
# What a `return` unwinds

A `return` may stand in blocks of conditionals, each of which is a statement of the block around it. Its
pending return is handed on by all of them, and the call or the program takes the value out of it once. So the
`return` is the last that is evaluated of a body, the statements behind it make no difference, and who called
goes on with the value (`return_unwinds`).

Where the statement stands is a `Site`, and `Site.Reached` says that the evaluation of a body comes to it. A
statement that is not reached makes no difference (`reached_or_indifferent`).
-/

namespace Monkey

open Traced

/-! ### Sites of statements -/

/-- A conditional that is a statement, seen from one of its two blocks: all of it but the statements of the
    block. -/
structure Branch where
  token : Token
  keyword : Token
  condition : Node
  brace : Token
  whenTrue : Bool
  other : Node

/-- The conditional whose block holds the given statements. -/
def Branch.around (branch : Branch) (statements : List Node) : Node :=
  let block := Node.block branch.brace statements
  .expressionStatement branch.token
    (if branch.whenTrue then .conditional branch.keyword branch.condition block branch.other
    else .conditional branch.keyword branch.condition branch.other block)

/-- Where a statement stands in a body: among the statements of the body itself, or inside a conditional that
    is one of them. -/
inductive Site where
  | here (before behind : List Node)
  | inside (before : List Node) (branch : Branch) (inner : Site) (behind : List Node)

namespace Site

/-- The body that has the given statement at a site. -/
def fill (statement : Node) : Site → List Node
  | .here before behind => before ++ statement :: behind
  | .inside before branch inner behind => before ++ branch.around (inner.fill statement) :: behind

/-- A site without the statements behind it, in each of the blocks around it. -/
def front : Site → Site
  | .here before _ => .here before []
  | .inside before branch inner _ => .inside before branch inner.front []

/-- From a machine the evaluation of a body comes to a site, with another machine: it goes on behind each of the
    statements in front, and enters each of the blocks around. -/
inductive Reached (evalBody : Node → Env → Eval Value) (env : Env) : Site → Machine → Machine → Prop where
  | here {before behind : List Node} {last : Value} {m m' : Machine}
      (hbefore : evalSequence evalBody env .null before m = .ok last m')
      (hlast : (last.isReturning || last.isError) = false) : Reached evalBody env (.here before behind) m m'
  | inside {before behind : List Node} {branch : Branch} {inner : Site} {last test : Value}
      {m m₁ m₂ m' : Machine} (hbefore : evalSequence evalBody env .null before m = .ok last m₁)
      (hlast : (last.isReturning || last.isError) = false)
      (hcondition : branch.condition.evalWith evalBody env m₁ = .ok test m₂) (herror : test.isError = false)
      (htruthy : test.isTruthy = branch.whenTrue) (hinner : inner.Reached evalBody env m₂ m') :
      Reached evalBody env (.inside before branch inner behind) m m'

variable {evalBody : Node → Env → Eval Value} {env : Env} {site site' : Site} {m m' : Machine}

/-- Statements behind a site have no part in its being reached. -/
theorem Reached.of_front (h : site.Reached evalBody env m m') (hfront : site'.front = site.front) :
    site'.Reached evalBody env m m' := by
  induction h generalizing site' with
  | here hbefore hlast =>
    cases site' with
    | inside => cases hfront
    | here =>
      cases hfront
      exact .here hbefore hlast
  | inside hbefore hlast hcondition herror htruthy _ ih =>
    cases site' with
    | here => cases hfront
    | inside =>
      obtain ⟨rfl, rfl, hinner⟩ := Site.inside.inj hfront
      exact .inside hbefore hlast hcondition herror htruthy (ih hinner.1)

end Site

/-! ### Statements that are not reached -/

section

variable {evalBody : Node → Env → Eval Value} {env : Env}

variable (evalBody env) in
/-- A conditional evaluates the block it is seen from, or something that this block has no part in. -/
theorem Branch.exists_evalWith_around (branch : Branch) : ∃ otherwise : Eval Value, ∀ statements,
    (branch.around statements).evalWith evalBody env = branch.condition.evalWith evalBody env >>= fun test =>
      test.proceed (if test.isTruthy = branch.whenTrue then evalSequence evalBody env .null statements
        else otherwise) := by
  obtain ⟨token, keyword, condition, brace, whenTrue, other⟩ := branch
  cases whenTrue with
  | true =>
    refine ⟨if other.isMissing then pure .null else other.evalWith evalBody env, fun statements => ?_⟩
    simp only [around, if_true, Node.evalWith]
  | false =>
    refine ⟨other.evalWith evalBody env, fun statements => ?_⟩
    simp only [around, Bool.false_eq_true, if_false, Node.evalWith]
    refine bind_congr fun test => congrArg test.proceed ?_
    cases test.isTruthy
    · simp [Node.isMissing]
    · rfl

theorem evalSequence_append_of_goes {before rest : List Node} {last : Value} {m m' : Machine}
    (hbefore : evalSequence evalBody env .null before m = .ok last m')
    (hlast : (last.isReturning || last.isError) = false) :
    evalSequence evalBody env .null (before ++ rest) m = evalSequence evalBody env last rest m' := by
  have happend : evalSequence evalBody env .null (before ++ rest) m = _ := evalSequence_append rfl
  rw [happend, hbefore]
  simp [hlast]

/-- Statements are gone on from, or what stands behind them makes no difference. -/
theorem goes_or_indifferent (before : List Node) (m : Machine) :
    (∃ last m', evalSequence evalBody env .null before m = .ok last m' ∧
      (last.isReturning || last.isError) = false) ∨
    ∀ rest rest' : List Node, evalSequence evalBody env .null (before ++ rest) m =
      evalSequence evalBody env .null (before ++ rest') m := by
  have happend (rest : List Node) : evalSequence evalBody env .null (before ++ rest) m = _ :=
    evalSequence_append rfl
  cases hbefore : evalSequence evalBody env .null before m with
  | error reason m' =>
    right
    intro rest rest'
    rw [happend, happend, hbefore]
  | ok last m' =>
    cases hlast : last.isReturning || last.isError with
    | true =>
      right
      intro rest rest'
      rw [happend, happend, hbefore]
      simp [hlast]
    | false => exact .inl ⟨last, m', rfl, hlast⟩

/-- A site is reached, or a body is evaluated without regard to the statement there. -/
theorem reached_or_indifferent (site : Site) (m : Machine) : (∃ m', site.Reached evalBody env m m') ∨
    ∀ statement statement' : Node, evalSequence evalBody env .null (site.fill statement) m =
      evalSequence evalBody env .null (site.fill statement') m := by
  induction site generalizing m with
  | here before behind =>
    rcases goes_or_indifferent before m with ⟨last, m₁, hbefore, hlast⟩ | hsame
    · exact .inl ⟨m₁, .here hbefore hlast⟩
    · exact .inr fun _ _ => hsame _ _
  | inside before branch inner behind ih =>
    rcases goes_or_indifferent before m with ⟨last, m₁, hbefore, hlast⟩ | hsame
    · obtain ⟨otherwise, haround⟩ := branch.exists_evalWith_around evalBody env
      -- it comes to the conditional, and what is left is whether that enters the block
      have hconditional (h : ∀ statement statement' : Node,
          (branch.around (inner.fill statement)).evalWith evalBody env m₁ =
            (branch.around (inner.fill statement')).evalWith evalBody env m₁) (statement statement' : Node) :
          evalSequence evalBody env .null ((Site.inside before branch inner behind).fill statement) m =
            evalSequence evalBody env .null ((Site.inside before branch inner behind).fill statement') m := by
        rw [Site.fill, Site.fill, evalSequence_append_of_goes hbefore hlast,
          evalSequence_append_of_goes hbefore hlast, evalSequence, evalSequence, Eval.bind_run, Eval.bind_run,
          h statement statement']
      cases hcondition : branch.condition.evalWith evalBody env m₁ with
      | error reason m₂ => exact .inr (hconditional fun _ _ => by simp only [haround, Eval.bind_run, hcondition])
      | ok test m₂ =>
        have hrun (statements : List Node) : (branch.around statements).evalWith evalBody env m₁ =
            test.proceed (if test.isTruthy = branch.whenTrue then evalSequence evalBody env .null statements
              else otherwise) m₂ := by
          rw [haround, Eval.bind_run, hcondition]
        by_cases herror : test.isError = true
        · refine .inr (hconditional fun _ _ => ?_)
          simp only [hrun, Value.proceed, herror, if_true]
        by_cases htruthy : test.isTruthy = branch.whenTrue
        · rcases ih m₂ with ⟨m', hinner⟩ | hinner
          · exact .inl ⟨m', .inside hbefore hlast hcondition (Bool.eq_false_iff.mpr herror) htruthy hinner⟩
          · refine .inr (hconditional fun statement statement' => ?_)
            simp only [hrun, Value.proceed, herror, htruthy, if_true]
            exact hinner statement statement'
        · refine .inr (hconditional fun _ _ => ?_)
          simp only [hrun, Value.proceed, htruthy, if_false]
    · exact .inr fun _ _ => hsame _ _

end

/-! ### What an evaluation ends with -/

namespace Trace

variable {α β : Type}

/-- All that happens in one evaluation happens at the end of another, and it is how that ends. -/
def EndsWith (t last : Trace α) : Prop :=
  ∃ earlier, t = ⟨earlier ++ last.events, last.result⟩

theorem EndsWith.trans {t middle last : Trace α} (h : t.EndsWith middle) (h' : middle.EndsWith last) :
    t.EndsWith last := by
  obtain ⟨earlier, rfl⟩ := h
  obtain ⟨later, rfl⟩ := h'
  exact ⟨earlier ++ later, by rw [List.append_assoc]⟩

theorem EndsWith.result {t last : Trace α} (h : t.EndsWith last) : t.result = last.result := by
  obtain ⟨earlier, rfl⟩ := h
  rfl

end Trace

namespace Traced

variable {α β : Type} {m m' : Machine} {a : α}

/-- What goes on with a result comes last. -/
theorem endsWith_bind {x : Traced α} (hx : (x m).result = .ok a m') (next : α → Traced β) :
    ((x >>= next) m).EndsWith (next a m') := by
  refine ⟨(x m).events, ?_⟩
  rw [bind_run, hx]

/-- What is handed on as it is comes last. -/
theorem bind_of_pure {x : Traced α} {next : α → Traced α} (hx : (x m).result = .ok a m')
    (hnext : next a = pure a) : (x >>= next) m = x m := by
  rw [bind_run, hx]
  show Trace.mk ((x m).events ++ (next a m').events) (next a m').result = x m
  rw [hnext]
  show Trace.mk ((x m).events ++ []) (.ok a m') = x m
  rw [List.append_nil, ← hx]

theorem endsWith_take {part : Node} {x : Traced Value} {value : Value} (hx : (x m).result = .ok value m')
    (herror : value.isError = false) (next : Value → Traced Value) :
    ((take part x next) m).EndsWith (next value m') := by
  refine (endsWith_bind hx _).trans ?_
  rw [herror]
  exact ⟨[.taken part value], rfl⟩

end Traced

/-! ### What comes last in a body -/

section

variable {traceBody : Node → Env → Traced Value} {evalBody : Node → Env → Eval Value} {env : Env}
  {m m' m'' : Machine} {last result : Value} {statement : Node}

/-- The result of a traced evaluation is that of the evaluation. -/
theorem result_tracedWith (hbody : ∀ body env, erase (traceBody body env) = evalBody body env) (node : Node)
    (m : Machine) : (node.tracedWith traceBody env m).result = node.evalWith evalBody env m :=
  congrFun (erase_tracedWith hbody env node) m

/-- Statements that are gone on from leave the rest to what stands behind them. -/
theorem endsWith_tracedSequence_append (hbody : ∀ body env, erase (traceBody body env) = evalBody body env)
    {statements rest : List Node} (hrun : evalSequence evalBody env last statements m = .ok result m')
    (hresult : (result.isReturning || result.isError) = false) :
    ((tracedSequence traceBody env last (statements ++ rest)) m).EndsWith
      (tracedSequence traceBody env result rest m') := by
  induction statements generalizing last m with
  | nil =>
    cases hrun
    exact ⟨[], rfl⟩
  | cons statement statements ih =>
    rw [evalSequence, Eval.bind_run] at hrun
    cases hstatement : statement.evalWith evalBody env m with
    | error reason m₁ => simp [hstatement] at hrun
    | ok value m₁ =>
      simp only [hstatement] at hrun
      rw [List.cons_append, tracedSequence]
      refine (endsWith_bind ((result_tracedWith hbody statement m).trans hstatement) _).trans ?_
      split at hrun
      next hends =>
        cases hrun
        exact absurd hends (by simp [hresult])
      next hgoes =>
        rw [if_neg hgoes]
        exact ih hrun

/-- A statement that gives a pending return is the last of its sequence. -/
theorem tracedSequence_of_isReturning (hrun : (statement.tracedWith traceBody env m).result = .ok result m')
    (hreturning : result.isReturning = true) (rest : List Node) :
    tracedSequence traceBody env last (statement :: rest) m = statement.tracedWith traceBody env m := by
  rw [tracedSequence]
  exact bind_of_pure hrun (by simp [hreturning])

/-- A conditional ends with the block that it enters. -/
theorem Branch.endsWith_around (hbody : ∀ body env, erase (traceBody body env) = evalBody body env)
    {branch : Branch} {test : Value} (hcondition : branch.condition.evalWith evalBody env m = .ok test m')
    (herror : test.isError = false) (htruthy : test.isTruthy = branch.whenTrue) (statements : List Node) :
    ((branch.around statements).tracedWith traceBody env m).EndsWith
      (tracedSequence traceBody env .null statements m') := by
  have htest := (result_tracedWith hbody branch.condition m).trans hcondition
  have hblock : ((Node.block branch.brace statements).tracedWith traceBody env m').EndsWith
      (tracedSequence traceBody env .null statements m') := by
    rw [Node.tracedWith.eq_def]
    exact endsWith_bind rfl _
  have hchosen (consequence alternative : Node) :
      ((Node.expressionStatement branch.token
        (.conditional branch.keyword branch.condition consequence alternative)).tracedWith traceBody env m).EndsWith
        ((if test.isTruthy then consequence.tracedWith traceBody env
          else if alternative.isMissing then return .null else alternative.tracedWith traceBody env) m') := by
    have hconditional : ((Node.conditional branch.keyword branch.condition consequence alternative).tracedWith
        traceBody env m).EndsWith (take branch.condition (branch.condition.tracedWith traceBody env) (fun test =>
          if test.isTruthy then consequence.tracedWith traceBody env
          else if alternative.isMissing then return .null else alternative.tracedWith traceBody env) m) := by
      rw [Node.tracedWith.eq_def]
      exact endsWith_bind rfl _
    rw [Node.tracedWith.eq_def]
    refine (endsWith_bind rfl _).trans (hconditional.trans ?_)
    exact endsWith_take htest herror _
  cases hwhen : branch.whenTrue with
  | true =>
    rw [hwhen] at htruthy
    have hends := hchosen (.block branch.brace statements) branch.other
    rw [if_pos htruthy] at hends
    simp only [around, hwhen, if_true]
    exact hends.trans hblock
  | false =>
    rw [hwhen] at htruthy
    have hends := hchosen branch.other (.block branch.brace statements)
    rw [if_neg (by simp [htruthy])] at hends
    simp only [around, hwhen, Bool.false_eq_true, if_false]
    exact hends.trans hblock

/-- A statement at a site that is reached, and that gives a pending return, comes last. -/
theorem Site.Reached.endsWith (hbody : ∀ body env, erase (traceBody body env) = evalBody body env) {site : Site}
    (h : site.Reached evalBody env m m')
    (hrun : (statement.tracedWith traceBody env m').result = .ok result m'')
    (hreturning : result.isReturning = true) :
    ((tracedSequence traceBody env .null (site.fill statement)) m).EndsWith
      (statement.tracedWith traceBody env m') := by
  induction h with
  | here hbefore hlast =>
    refine (endsWith_tracedSequence_append hbody hbefore hlast).trans ?_
    rw [tracedSequence_of_isReturning hrun hreturning]
    exact ⟨[], rfl⟩
  | @inside before behind branch inner last test m m₁ m₂ m' hbefore hlast hcondition herror htruthy _ ih =>
    have hinner := (branch.endsWith_around hbody hcondition herror htruthy (inner.fill statement)).trans (ih hrun)
    refine (endsWith_tracedSequence_append hbody hbefore hlast).trans ?_
    rw [tracedSequence_of_isReturning (hinner.result.trans hrun) hreturning]
    exact hinner

end

/-! ### What a `return` unwinds -/

/-- A call of a function starts: from the machine `before`, its environment and the machine in which its body is
    evaluated. -/
inductive Starts : Value → List Value → Machine → Node → Env → Machine → Prop where
  | intro {id : Nat} {parameters : List String} {body : Node} {home env : Env} {arguments : List Value}
      {before m : Machine} (hlength : parameters.length ≤ arguments.length)
      (hopen : before.openScope home.chain (Assoc.insertAll (parameters.zip arguments) []) = (env, m)) :
      Starts (.function id parameters body home) arguments before body env m

section

variable {callee : Value} {arguments : List Value} {before m : Machine} {body : Node} {env : Env}

theorem Starts.applyWith_eq (h : Starts callee arguments before body env m)
    (evalBody : Node → Env → Eval Value) :
    applyWith evalBody callee arguments before =
      (evalBody body env >>= fun result => pure result.unwrapped) m := by
  obtain @⟨id, parameters, body, home, env, arguments, before, m, hlength, hopen⟩ := h
  have hrun : Eval.enclosed home (Assoc.insertAll (parameters.zip arguments) []) before = .ok env m := by
    obtain ⟨rfl, rfl⟩ := Prod.mk.inj hopen
    rfl
  rw [applyWith, if_neg (Nat.not_lt.mpr hlength), Eval.bind_run, hrun]

theorem Starts.endsWith (h : Starts callee arguments before body env m)
    (traceBody : Node → Env → Traced Value) :
    (applyTraced traceBody callee arguments before).EndsWith ((traceBody body env >>= finish) m) := by
  obtain @⟨id, parameters, body, home, env, arguments, before, m, hlength, hopen⟩ := h
  have hrun : Eval.enclosed home (Assoc.insertAll (parameters.zip arguments) []) before = .ok env m := by
    obtain ⟨rfl, rfl⟩ := Prod.mk.inj hopen
    rfl
  rw [applyTraced, if_neg (Nat.not_lt.mpr hlength)]
  exact endsWith_bind hrun _

end

/-- Who evaluates a node goes on with its value: whatever is done with it, and with the statement behind if
    the node is a statement. -/
structure GoesOn (evalBody : Node → Env → Eval Value) (env : Env) (node : Node) (m : Machine) (value : Value)
    (m' : Machine) : Prop where
  run : node.evalWith evalBody env m = .ok value m'
  next (next : Value → Eval Value) :
    (node.evalWith evalBody env >>= fun value => value.proceed (next value)) m = next value m'
  statement (token : Token) (last : Value) (rest : List Node) :
    evalSequence evalBody env last (.expressionStatement token node :: rest) m =
      evalSequence evalBody env value rest m'

theorem goesOn_of_run {evalBody : Node → Env → Eval Value} {env : Env} {node : Node} {m m' : Machine}
    {value : Value} (hrun : node.evalWith evalBody env m = .ok value m') (herror : value.isError = false)
    (hreturning : value.isReturning = false) : GoesOn evalBody env node m value m' := by
  refine ⟨hrun, fun next => ?_, fun token last rest => ?_⟩
  · rw [Eval.bind_run, hrun]
    simp only [Value.proceed, herror, Bool.false_eq_true, if_false]
  · rw [evalSequence, Node.evalWith, Eval.bind_run, hrun]
    simp [herror, hreturning]

/-- A body that is evaluated in an environment, from a machine, gives a value to the program or the call that
    it is the body of, and leaves another machine. The last events are the given ones and that the value is
    given. After a call its caller goes on with the value. -/
structure Unwinds (depth : Nat) (env : Env) (m : Machine) (body : List Node) (events : List Event) (value : Value)
    (m' : Machine) : Prop where
  program : (Node.program body).evalWithin (depth + 1) env m = .ok value m'
  programEnds : ∃ earlier, (Node.program body).trace (depth + 1) env m = earlier ++ events ++ [.gave value]
  call {callee : Value} {arguments : List Value} {before : Machine} {brace : Token}
    (hstarts : Starts callee arguments before (.block brace body) env m) :
    applyWith (Node.evalWithin (depth + 1)) callee arguments before = .ok value m'
  callEnds {callee : Value} {arguments : List Value} {before : Machine} {brace : Token}
    (hstarts : Starts callee arguments before (.block brace body) env m) :
    ∃ earlier, (applyTraced (Node.tracedWithin (depth + 1)) callee arguments before).events =
      earlier ++ events ++ [.gave value]
  caller {token : Token} {node : Node} {callee : Value} {arguments : List Node} {values : List Value} {outer : Env}
    {m₀ m₁ before : Machine} {brace : Token}
    (hcallee : node.evalWith (Node.evalWithin (depth + 1)) outer m₀ = .ok callee m₁)
    (harguments : evalAll (Node.evalWithin (depth + 1)) outer arguments m₁ = .ok (.ok values) before)
    (hstarts : Starts callee values before (.block brace body) env m) :
    GoesOn (Node.evalWithin (depth + 1)) outer (.call token node arguments) m₀ value m'

/-- Behind a pending return comes nothing but that its value is given. -/
theorem events_finish {x : Traced Value} {last : Trace Value} {m m' : Machine} {id : Nat} {value : Value}
    (hends : (x m).EndsWith last) (hlast : last.result = .ok (.returning id value) m') :
    ∃ earlier, ((x >>= finish) m).events = earlier ++ last.events ++ [.gave value] := by
  have hresult := hends.result.trans hlast
  obtain ⟨earlier, htrace⟩ := hends
  refine ⟨earlier, ?_⟩
  rw [bind_run, hresult, htrace]
  rfl

/-- A body whose evaluation ends with a pending return gives the value of that. -/
theorem unwinds_of_endsWith {depth : Nat} {env : Env} {m m' : Machine} {body : List Node} {last : Trace Value}
    {id : Nat} {value : Value}
    (hends : ((tracedSequence (Node.tracedWithin depth) env .null body) m).EndsWith last)
    (hlast : last.result = .ok (.returning id value) m') (herror : value.isError = false)
    (hreturning : value.isReturning = false) : Unwinds depth env m body last.events value m' := by
  have hbody : evalSequence (Node.evalWithin depth) env .null body m = .ok (.returning id value) m' := by
    rw [← erase_tracedSequence (erase_tracedWithin depth)]
    exact hends.result.trans hlast
  have hcall {callee : Value} {arguments : List Value} {before : Machine} {brace : Token}
      (hstarts : Starts callee arguments before (.block brace body) env m) :
      applyWith (Node.evalWithin (depth + 1)) callee arguments before = .ok value m' := by
    rw [hstarts.applyWith_eq, Node.evalWithin, Node.evalWith, Eval.bind_run, hbody]
    rfl
  constructor
  · rw [Node.evalWithin, Node.evalWith, Eval.bind_run, hbody]
    rfl
  · obtain ⟨earlier, hevents⟩ := events_finish hends hlast
    refine ⟨.entered (.program body) :: earlier, ?_⟩
    rw [Node.trace, Node.tracedWithin, Node.tracedWith.eq_def, List.cons_append, List.cons_append, ← hevents]
    rfl
  · exact hcall
  · intro callee arguments before brace hstarts
    obtain ⟨opening, hcalled⟩ := hstarts.endsWith (Node.tracedWithin (depth + 1))
    have hblock : ((Node.block brace body).tracedWithin (depth + 1) env m).EndsWith last := by
      rw [Node.tracedWithin, Node.tracedWith.eq_def]
      exact (endsWith_bind rfl _).trans hends
    obtain ⟨earlier, hevents⟩ := events_finish hblock hlast
    refine ⟨opening ++ earlier, ?_⟩
    rw [hcalled, hevents, List.append_assoc, List.append_assoc, List.append_assoc]
  · intro token node callee arguments values outer m₀ m₁ before brace hcallee harguments hstarts
    have hfunction : callee.isError = false := by
      cases hstarts
      rfl
    refine goesOn_of_run ?_ herror hreturning
    rw [Node.evalWith, Eval.bind_run, hcallee]
    simp only [Value.proceed, hfunction, Bool.false_eq_true, if_false, Eval.bind_run, harguments]
    exact hcall hstarts

/-- A `return` unwinds exactly to its call or program. If the evaluation of a body comes to it, and what it
    returns is a value that is neither an error nor a pending return, the call or the program gives exactly
    this value. The `return` is the last that is evaluated of the body; so the statements behind it, in each
    of the blocks around it, may be any others, and the value, the output and the bindings are the same. Who
    called goes on with the value. -/
theorem return_unwinds {depth : Nat} {env : Env} {site : Site} {m m₁ m₂ : Machine} {token : Token}
    {expression : Node} {value : Value} (hreached : site.Reached (Node.evalWithin depth) env m m₁)
    (hvalue : expression.evalWithin (depth + 1) env m₁ = .ok value m₂) (herror : value.isError = false)
    (hreturning : value.isReturning = false) {site' : Site} (hfront : site'.front = site.front) :
    Unwinds depth env m (site'.fill (.returnStatement token expression))
      ((Node.returnStatement token expression).trace (depth + 1) env m₁) value (m₂.grown [] 1) := by
  have hstatement : ((Node.returnStatement token expression).tracedWith (Node.tracedWithin depth) env m₁).result =
      .ok (.returning m₂.objects value) (m₂.grown [] 1) := by
    rw [result_tracedWith (erase_tracedWithin depth), Node.evalWith, Eval.bind_run]
    rw [Node.evalWithin] at hvalue
    rw [hvalue]
    simp only [Value.proceed, herror, Bool.false_eq_true, if_false]
    exact Eval.new_run _ m₂
  have hends := (hreached.of_front hfront).endsWith (erase_tracedWithin depth) hstatement rfl
  exact unwinds_of_endsWith hends hstatement herror hreturning

/-- A `return` in the second block of a conditional inside the first block of another, and parts behind it in
    each of the three bodies that would halt an evaluation. -/
theorem return_unwinds_nested :
    let token : Token := ⟨.eof, "", 1, 1⟩
    let branch (whenTrue : Bool) : Branch :=
      ⟨token, token, .boolean token whenTrue, token, whenTrue, .block token []⟩
    let site (behind : List Node) : Site :=
      .inside [] (branch true) (.inside [.integer token 1] (branch false) (.here [] behind) behind) behind
    let env : Env := ⟨0, []⟩
    let m : Machine := { scopes := #[[]] }
    let m₁ : Machine := { scopes := #[[]], objects := 1 }
    (site []).Reached (Node.evalWithin 0) env m m₁ ∧
      (Node.boolean token true).evalWithin 1 env m₁ = .ok (.boolean true) m₁ ∧
      (Value.boolean true).isError = false ∧ (Value.boolean true).isReturning = false ∧
      (site [.missing]).front = (site []).front ∧
      Unwinds 0 env m ((site [.missing]).fill (.returnStatement token (.boolean token true)))
        ((Node.returnStatement token (.boolean token true)).trace 1 env m₁) (.boolean true) (m₁.grown [] 1) := by
  intro token branch site env m m₁
  have hreached : (site []).Reached (Node.evalWithin 0) env m m₁ := by
    have hempty (m : Machine) : evalSequence (Node.evalWithin 0) env .null [] m = .ok .null m := rfl
    have hfirst : evalSequence (Node.evalWithin 0) env .null [.integer token 1] m = .ok (.integer 0 1) m₁ := rfl
    have hcondition (whenTrue : Bool) (m : Machine) :
        (branch whenTrue).condition.evalWith (Node.evalWithin 0) env m = .ok (.boolean whenTrue) m := rfl
    refine .inside (hempty m) rfl (hcondition true m) rfl rfl ?_
    exact .inside hfirst rfl (hcondition false m₁) rfl rfl (.here (hempty m₁) rfl)
  exact ⟨hreached, rfl, rfl, rfl, rfl, return_unwinds hreached rfl rfl rfl rfl⟩

end Monkey
