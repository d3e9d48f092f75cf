import Monkey.Proofs.Evaluation.Induction
import Monkey.Session

/-!
# Errors end an evaluation

Where an error is made, the evaluation is over: nothing happens any more, and the error is the value of
the whole. For this to hold, no error may be around to begin with, because an error that a name is bound
to would be taken for one just made. So the theorem is about environments that hold none, and says that
evaluation, whatever its end, leaves none behind.

The induction carries `Traced.FailStop`: from a clear machine, an evaluation either halts, or gives a
clear value, and all its events are clear; or else its last event makes the error that it gives, and the
events before are clear.
-/

namespace Monkey

open Traced

abbrev Value.NoError (value : Value) : Prop :=
  value.isError = false

namespace Traced

variable {α : Type} {scopes : Nat → Prop} {events more : List Event} {value : Value}

inductive Stops (scopes : Nat → Prop) : List Event → EStateM.Result Halt Machine Value → Prop where
  | value {events value m} (hvalue : value.Clear Value.NoError scopes)
      (hevents : ∀ event ∈ events, event.Clear Value.NoError scopes) :
      Stops scopes events (.ok value m)
  | error {before value m} (herror : value.isError = true)
      (hbefore : ∀ event ∈ before, event.Clear Value.NoError scopes) :
      Stops scopes (before ++ [.made value]) (.ok value m)
  | halt {events reason m} (hevents : ∀ event ∈ events, event.Clear Value.NoError scopes) :
      Stops scopes events (.error reason m)

theorem Stops.prepend {result : EStateM.Result Halt Machine Value}
    (hmore : ∀ event ∈ more, event.Clear Value.NoError scopes) (h : Stops scopes events result) :
    Stops scopes (more ++ events) result := by
  cases h with
  | value hvalue hevents => exact .value hvalue (List.forall_mem_append.mpr ⟨hmore, hevents⟩)
  | error herror hbefore =>
    rw [← List.append_assoc]
    exact .error herror (List.forall_mem_append.mpr ⟨hmore, hbefore⟩)
  | halt hevents => exact .halt (List.forall_mem_append.mpr ⟨hmore, hevents⟩)

/-- From a clear machine, an evaluation leads to a clear machine and ends with the first error. -/
def FailStop (scopes : Nat → Prop) (x : Traced Value) : Prop :=
  ∀ m : Machine, m.Clear Value.NoError scopes →
    (x m).last.Clear Value.NoError scopes ∧ Stops scopes (x m).events (x m).result

theorem failStop_pure (h : value.Clear Value.NoError scopes) :
    FailStop scopes (pure value) :=
  fun _ hm => ⟨hm, .value h (by simp [pure])⟩

theorem FailStop.bind {x : Traced Value} {next : Value → Traced Value} (hx : FailStop scopes x)
    (hnext : ∀ value : Value, value.Clear Value.NoError scopes → FailStop scopes (next value))
    (herror : ∀ value : Value, value.isError = true → next value = pure value) :
    FailStop scopes (x >>= next) := by
  intro m hm
  obtain ⟨hlast, hstops⟩ := hx m hm
  rw [bind_run]
  rw [Trace.last] at hlast
  cases hrun : (x m).result with
  | error reason m' =>
    rw [hrun] at hlast hstops
    exact ⟨hlast, hstops⟩
  | ok value m' =>
    rw [hrun] at hlast hstops
    generalize (x m).events = events at hstops
    cases hstops with
    | value hvalue hevents =>
      obtain ⟨hlast', hstops'⟩ := hnext value hvalue m' hlast
      exact ⟨hlast', hstops'.prepend hevents⟩
    | error hvalue hbefore =>
      have hnothing : next value m' = ⟨[], .ok value m'⟩ := by
        rw [herror value hvalue]
        rfl
      simp only [hnothing, List.append_nil]
      exact ⟨hlast, .error hvalue hbefore⟩

theorem failStop_note {event : Event} {x : Eval α} {next : α → Traced Value}
    (hevent : event.Clear Value.NoError scopes)
    (hx : ∀ m : Machine, m.Clear Value.NoError scopes → ∃ a, x m = .ok a (event.apply m) ∧
      (event.apply m).Clear Value.NoError scopes ∧ FailStop scopes (next a)) :
    FailStop scopes (note event x >>= next) := by
  intro m hm
  obtain ⟨a, hrun, hm', hnext⟩ := hx m hm
  obtain ⟨hlast, hstops⟩ := hnext _ hm'
  rw [bind_run]
  simp only [note, hrun]
  exact ⟨hlast, hstops.prepend (List.forall_mem_singleton.mpr hevent)⟩

theorem failStop_take {part : Node} {x : Traced Value} {next : Value → Traced Value}
    (hx : FailStop scopes x)
    (hnext : ∀ value : Value, value.Clear Value.NoError scopes → FailStop scopes (next value)) :
    FailStop scopes (take part x next) := by
  refine hx.bind (fun value hvalue => ?_) (fun value hvalue => if_pos hvalue)
  rw [if_neg (by simp [hvalue.has])]
  exact failStop_note hvalue fun m hm => ⟨(), rfl, hm, hnext value hvalue⟩

theorem FailStop.finish {x : Traced Value} (hx : FailStop scopes x) :
    FailStop scopes (x >>= finish) := by
  refine hx.bind (fun value hvalue => ?_) (fun value hvalue => if_pos hvalue)
  have hresult := clear_unwrapped hvalue
  intro m hm
  rw [Traced.finish, if_neg (by simp [hvalue.has])]
  exact ⟨hm, .value hresult (List.forall_mem_singleton.mpr hresult)⟩

theorem failStop_step {x : Eval Value} (h : ∀ m : Machine, m.Clear Value.NoError scopes →
    Eval.Primitive (Value.Clear Value.NoError scopes) x m) : FailStop scopes (step x) := by
  intro m hm
  obtain ⟨value, lines, count, hrun, hcount, hvalue⟩ := step_run (h m hm)
  rw [hrun]
  refine ⟨hm.grown lines count, ?_⟩
  have hlines : ∀ event ∈ lines.map Event.printed, event.Clear Value.NoError scopes := by
    intro event hevent
    obtain ⟨line, -, rfl⟩ := List.mem_map.mp hevent
    trivial
  rcases hvalue with hvalue | ⟨herror, rfl⟩
  · refine .prepend hlines (.value hvalue ?_)
    split
    · exact List.forall_mem_singleton.mpr hvalue
    · simp
  · exact .error herror hlines

theorem admissible_noError : Admissible (fun _ => True) Value.NoError :=
  ⟨fun _ _ => trivial, fun _ _ => trivial, fun _ herror _ _ => herror, iff_of_true rfl trivial⟩

theorem compositional_failStop :
    Compositional (fun _ => True) Value.NoError scopes fun _ => FailStop scopes where
  weaken h _ := h
  halting _ := fun _ hm => ⟨hm, .halt (by simp)⟩
  giving := failStop_pure
  stepping := failStop_step
  returning hvalue := failStop_step fun _ _ => Eval.primitive_new fun _ =>
    .inl (clear_returning rfl hvalue)
  noting := failStop_note
  taking _ _ := failStop_take
  handingOn hx hnext hsignal :=
    hx.bind hnext fun value herror => hsignal value (by rw [herror, Bool.or_true])
  finishing := FailStop.finish

theorem failStop_tracedWithin (depth : Nat) (node : Node) {env : Env}
    (henv : ∀ scope ∈ env.chain, scopes scope) : FailStop scopes (node.tracedWithin depth env) :=
  compositional_failStop.holds_tracedWithin admissible_noError depth trivial henv

end Traced

/-! ### Runs and sessions -/

structure Node.FailStops (depth : Nat) (node : Node) (env : Env) (m : Machine) : Prop where
  /-- Nothing happens behind the making of an error: it is the value, and the machine is as it was at
      that moment. -/
  stops : ∀ before error behind, node.trace depth env m = before ++ .made error :: behind →
    error.isError = true → behind = [] ∧
      node.evalWithin depth env m = .ok error ((before.foldl Event.apply m).grown [] 1)
  /-- An evaluation whose value is no error makes none. -/
  succeeds : ∀ value m', node.evalWithin depth env m = .ok value m' → value.isError = false →
    ∀ object, .made object ∈ node.trace depth env m → object.isError = false
  /-- No error is ever taken, bound, passed to a call or put into a new value. -/
  held : ∀ event ∈ node.trace depth env m, ∀ value ∈ event.held,
    value.All fun inner => inner.isError = false
  /-- Wherever the evaluation ends, neither its environment nor any scope it opened holds an error. -/
  leaves : ∀ value, ((node.evalWithin depth env).after m).Holds
    (fun scope => scope ∈ env.chain ∨ m.scopes.size ≤ scope) value → value.isError = false

def runAfter (text : String) (env : Env) (m : Machine) : Machine :=
  match runText text env m with
  | .ok _ m' => m'
  | .error _ m' => m'

/-- The machine after program texts were run one after the other in an environment. -/
def sessionAfter (texts : List String) (env : Env) (m : Machine) : Machine :=
  texts.foldl (fun m text => runAfter text env m) m

variable {scopes : Nat → Prop} {env : Env} {m : Machine}

theorem not_made_error {events : List Event} {error : Value} (herror : error.isError = true)
    (h : ∀ event ∈ events, event.Clear Value.NoError scopes) : Event.made error ∉ events := by
  intro hmem
  have hclear : error.isError = false := Value.Clear.has (h _ hmem)
  simp [herror] at hclear

/-- An evaluation that ends as `Stops` says has its first error at the end. -/
theorem Traced.Stops.eq_last {before behind : List Event} {error : Value}
    {result : EStateM.Result Halt Machine Value}
    (h : Stops scopes (before ++ .made error :: behind) result) (herror : error.isError = true) :
    behind = [] ∧ ∃ m', result = .ok error m' := by
  have hmem : Event.made error ∈ before ++ .made error :: behind := by simp
  generalize hevents : before ++ .made error :: behind = events at h
  cases h with
  | value _ hclear => exact absurd (hevents ▸ hmem) (not_made_error herror hclear)
  | halt hclear => exact absurd (hevents ▸ hmem) (not_made_error herror hclear)
  | error _ hclear =>
    rcases List.eq_nil_or_concat behind with rfl | ⟨init, final, rfl⟩
    · obtain ⟨-, hlast⟩ := List.append_inj' hevents rfl
      cases hlast
      exact ⟨rfl, _, rfl⟩
    · rw [List.concat_eq_append, ← List.cons_append, ← List.append_assoc] at hevents
      obtain ⟨hbefore, -⟩ := List.append_inj' hevents rfl
      exact absurd (hbefore ▸ by simp) (not_made_error herror hclear)

/-- Also of an error no event puts anything somewhere, because an error has no parts. -/
theorem Traced.Stops.held {events : List Event} {event : Event} {value : Value}
    {result : EStateM.Result Halt Machine Value} (h : Stops scopes events result)
    (hevent : event ∈ events) (hvalue : value ∈ event.held) : value.Clear Value.NoError scopes := by
  cases h with
  | value _ hclear => exact (hclear event hevent).held hvalue
  | halt hclear => exact (hclear event hevent).held hvalue
  | error herror hclear =>
    rcases List.mem_append.mp hevent with hevent | hevent
    · exact (hclear event hevent).held hvalue
    · rw [List.mem_singleton.mp hevent, Event.held, (isError_spec herror).2.2.2] at hvalue
      cases hvalue

theorem failStops_of_clear (hroots : ∀ scope ∈ env.chain, scopes scope)
    (hm : m.Clear Value.NoError scopes) (depth : Nat) (node : Node) : node.FailStops depth env m := by
  obtain ⟨hlast, hstops⟩ := failStop_tracedWithin depth node hroots m hm
  have hresult : (node.tracedWithin depth env m).result = node.evalWithin depth env m :=
    congrFun (erase_tracedWithin depth node env) m
  have hstop {before behind : List Event} {error : Value}
      (htrace : node.trace depth env m = before ++ .made error :: behind)
      (herror : error.isError = true) :
      behind = [] ∧ ∃ m', node.evalWithin depth env m = .ok error m' := by
    rw [Node.trace] at htrace
    rw [htrace, hresult] at hstops
    exact hstops.eq_last herror
  constructor
  · intro before error behind htrace herror
    obtain ⟨rfl, m', hrun⟩ := hstop htrace herror
    refine ⟨rfl, ?_⟩
    -- the machine is the one that the events lead to
    have hreplay := replays_tracedWithin depth node env m
    rw [Node.trace] at htrace
    rw [Trace.last, hresult, hrun, htrace, List.foldl_append] at hreplay
    exact hrun.trans (congrArg _ hreplay)
  · intro value m' hrun hvalue object hobject
    cases hobjectError : object.isError with
    | false => rfl
    | true =>
      obtain ⟨before, behind, htrace⟩ := List.append_of_mem hobject
      obtain ⟨-, m'', hrun'⟩ := hstop htrace hobjectError
      cases hrun.symm.trans hrun'
      exact hobjectError.symm.trans hvalue
  · intro event hevent value hvalue inner hinner
    exact (hstops.held hevent hvalue inner hinner).1
  · intro value hvalue
    rw [after_evalWithin] at hvalue
    apply (hlast.holds ?_ hvalue).has
    rintro scope (hscope | hscope)
    · exact hroots scope hscope
    · exact hm.fresh scope hscope

theorem runAfter_eq (text : String) (env : Env) (m : Machine) : runAfter text env m =
    match parseProgram text with
    | .ok program => (program.evalWithin depthLimit env).after m
    | .error _ => m := by
  rw [runAfter, runText]
  cases parseProgram text with
  | error errors => rfl
  | ok program =>
    simp only [Bind.bind, EStateM.bind, Eval.toRun, Eval.after, Node.eval]
    cases program.evalWithin depthLimit env m <;> rfl

/-- Running program texts keeps a machine clear, also where a text has errors or its evaluation halts. -/
theorem clear_sessionAfter (hroots : ∀ scope ∈ env.chain, scopes scope)
    (hm : m.Clear Value.NoError scopes) (texts : List String) :
    (sessionAfter texts env m).Clear Value.NoError scopes := by
  induction texts generalizing m with
  | nil => exact hm
  | cons text rest ih =>
    refine ih ?_
    show (runAfter text env m).Clear _ _
    rw [runAfter_eq]
    cases parseProgram text with
    | error errors => exact hm
    | ok program =>
      show ((program.evalWithin depthLimit env).after m).Clear _ _
      rw [after_evalWithin]
      exact (failStop_tracedWithin depthLimit program hroots m hm).1

/-- In an environment that holds no error, whatever was run in it before: every evaluation is over with
    the first error, and the environment goes on holding none. -/
theorem evaluation_failStop (henv : ∀ value, m.Holds (· ∈ env.chain) value → value.isError = false)
    (texts : List String) :
    (∀ value, (sessionAfter texts env m).Holds (· ∈ env.chain) value → value.isError = false) ∧
      ∀ depth node, Node.FailStops depth node env (sessionAfter texts env m) := by
  have hroots : ∀ scope ∈ env.chain, m.Reached (· ∈ env.chain) scope := fun scope hscope => .inl hscope
  have hclear := clear_sessionAfter hroots (Machine.clear_reached henv) texts
  exact ⟨fun value hvalue => (hclear.holds hroots hvalue).has, failStops_of_clear hroots hclear⟩

theorem failStop_openSession :
    Node.FailStops depthLimit (parse "puts(1 / 0, puts(a))").program (Machine.openSession {}).1
      (sessionAfter ["let a = 1;"] (Machine.openSession {}).1 (Machine.openSession {}).2) :=
  (evaluation_failStop (fun _ h => absurd h Machine.not_holds_openSession) ["let a = 1;"]).2 depthLimit _

end Monkey
