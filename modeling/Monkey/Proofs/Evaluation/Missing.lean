import Monkey.Proofs.Evaluation.Induction
import Monkey.Proofs.Parser.Whole
import Monkey.Session

/-!
# Nothing is missing

An evaluation halts at a node that is missing. The program of a text has none, and neither do the bodies
of the functions that it makes, since these are parts of it. So if no function around has a gap in its
body either, the evaluation of a program meets none, however many calls it makes; and it leaves none
behind, so that the next program meets none either.
-/

namespace Monkey

open Traced

/-- A value that is no function with a gap in its body. -/
def Value.Whole (value : Value) : Prop :=
  ∀ body, value.body? = some body → body.Whole

theorem admissible_whole : Admissible Node.Whole Value.Whole where
  taken := Node.Whole.taken
  handed := Node.Whole.handed
  lenient value _ _ hbody body h := by simp [hbody] at h
  function {id parameters body env} := by
    constructor
    · intro h
      exact h body rfl
    · rintro h _ ⟨⟩
      exact h

namespace Traced

variable {α : Type} {scopes : Nat → Prop}

/-- From a clear machine, an evaluation leads to a clear machine and halts at no missing node. -/
def Present (scopes : Nat → Prop) (x : Traced Value) : Prop :=
  ∀ m : Machine, m.Clear Value.Whole scopes →
    match (x m).result with
    | .ok value m' => m'.Clear Value.Whole scopes ∧ value.Clear Value.Whole scopes
    | .error reason m' => m'.Clear Value.Whole scopes ∧ reason ≠ .missingNode

theorem present_pure {value : Value} (h : value.Clear Value.Whole scopes) : Present scopes (pure value) :=
  fun _ hm => ⟨hm, h⟩

theorem Present.bind {x : Traced Value} {next : Value → Traced Value} (hx : Present scopes x)
    (hnext : ∀ value : Value, value.Clear Value.Whole scopes → Present scopes (next value)) :
    Present scopes (x >>= next) := by
  intro m hm
  have hrun := hx m hm
  rw [bind_run]
  cases hresult : (x m).result with
  | ok value m' =>
    rw [hresult] at hrun
    exact hnext value hrun.2 m' hrun.1
  | error reason m' =>
    rw [hresult] at hrun
    exact hrun

theorem present_note {event : Event} {x : Eval α} {next : α → Traced Value}
    (hx : ∀ m : Machine, m.Clear Value.Whole scopes → ∃ a, x m = .ok a (event.apply m) ∧
      (event.apply m).Clear Value.Whole scopes ∧ Present scopes (next a)) :
    Present scopes (note event x >>= next) := by
  intro m hm
  obtain ⟨a, hrun, hm', hnext⟩ := hx m hm
  rw [bind_run]
  simp only [note, hrun]
  exact hnext _ hm'

theorem present_step {x : Eval Value} (h : ∀ m : Machine, m.Clear Value.Whole scopes →
    Eval.Primitive (Value.Clear Value.Whole scopes) x m) : Present scopes (step x) := by
  intro m hm
  obtain ⟨value, lines, count, hrun, -, hvalue⟩ := h m hm
  simp only [step, hrun]
  refine ⟨hm.grown lines count, hvalue.elim id fun herror => ?_⟩
  obtain ⟨-, hbody, hcaptured, hparts⟩ := isError_spec herror.1
  apply Value.All.mk
  · simp [Value.Whole, hbody, hcaptured]
  · simp [hparts]

theorem compositional_present :
    Compositional Node.Whole Value.Whole scopes fun _ => Present scopes where
  weaken h _ := h
  halting h := fun _ hm => ⟨hm, fun hmissing => (h hmissing).here⟩
  giving := present_pure
  stepping := present_step
  returning hvalue := present_step fun _ _ => Eval.primitive_new fun _ =>
    .inl (clear_returning nofun hvalue)
  noting _ := present_note
  taking _ _ hx hnext := by
    apply hx.bind
    intro value hvalue
    split
    · exact present_pure hvalue
    · exact present_note fun m hm => ⟨(), rfl, hm, hnext value hvalue⟩
  handingOn hx hnext _ := hx.bind hnext
  finishing hx := by
    apply hx.bind
    intro value hvalue
    unfold finish
    split
    · exact present_pure hvalue
    · exact fun m hm => ⟨hm, clear_unwrapped hvalue⟩

theorem present_tracedWithin (depth : Nat) {node : Node} {env : Env} (hnode : node.Whole)
    (henv : ∀ scope ∈ env.chain, scopes scope) : Present scopes (node.tracedWithin depth env) :=
  compositional_present.holds_tracedWithin admissible_whole depth hnode henv

end Traced

/-! ### Programs -/

variable {env : Env} {m : Machine} {node : Node}

/-- Where all functions have whole bodies, the evaluation of a whole node halts at no missing node, and the
    functions that it gives and leaves behind have whole bodies too. -/
theorem present_evalWithin (hnode : node.Whole)
    (henv : ∀ value, m.Holds (· ∈ env.chain) value → value.Whole) (depth : Nat) :
    (∀ m', node.evalWithin depth env m ≠ .error .missingNode m') ∧
      (∀ value m', node.evalWithin depth env m = .ok value m' → value.All Value.Whole) ∧
      ∀ value, ((node.evalWithin depth env).after m).Holds
        (fun scope => scope ∈ env.chain ∨ m.scopes.size ≤ scope) value → value.Whole := by
  have hroots : ∀ scope ∈ env.chain, m.Reached (· ∈ env.chain) scope := fun scope hscope => .inl hscope
  have hclear := Machine.clear_reached henv
  have hrun := present_tracedWithin depth hnode hroots m hclear
  have hresult : (node.tracedWithin depth env m).result = node.evalWithin depth env m :=
    congrFun (erase_tracedWithin depth node env) m
  rw [hresult] at hrun
  have hreached : ∀ scope, scope ∈ env.chain ∨ m.scopes.size ≤ scope → m.Reached (· ∈ env.chain) scope :=
    fun scope hscope => hscope.imp_right .inl
  rw [Eval.after]
  cases heval : node.evalWithin depth env m with
  | ok value m' =>
    rw [heval] at hrun
    refine ⟨by simp, ?_, fun value hvalue => (hrun.1.holds hreached hvalue).has⟩
    rintro _ _ ⟨⟩ inner hinner
    exact (hrun.2 inner hinner).1
  | error reason m' =>
    rw [heval] at hrun
    refine ⟨?_, by simp, fun value hvalue => (hrun.1.holds hreached hvalue).has⟩
    rintro _ ⟨⟩
    exact hrun.2 rfl

/-- Every node of a program is complete, also if its text has errors. So wherever all functions have such
    bodies, its evaluation meets no missing node, and the functions it gives and leaves behind have such
    bodies too. -/
theorem program_evaluates (source : String) :
    (∀ inner, (parse source).program.Contains inner → inner.Complete) ∧
      ∀ (env : Env) (m : Machine), (∀ value, m.Holds (· ∈ env.chain) value → value.Whole) →
        ∀ depth, (∀ m', (parse source).program.evalWithin depth env m ≠ .error .missingNode m') ∧
          (∀ value m', (parse source).program.evalWithin depth env m = .ok value m' →
            value.All Value.Whole) ∧
          ∀ value, (((parse source).program.evalWithin depth env).after m).Holds
            (fun scope => scope ∈ env.chain ∨ m.scopes.size ≤ scope) value → value.Whole :=
  ⟨whole_program source, fun _ _ henv depth => present_evalWithin (whole_program source) henv depth⟩

/-- A program with an error, after one that left a function behind. -/
theorem program_evaluates_call :
    let env := (Machine.openSession {}).1
    let m :=
      ((parse "let f = fn(x) { x };").program.evalWithin depthLimit env).after (Machine.openSession {}).2
    (parse "f(1 + 1); f(2").errors ≠ [] ∧ (m.lookup env "f").isSome = true ∧
      (∀ value, m.Holds (· ∈ env.chain) value → value.Whole) ∧
      ∀ m', (parse "f(1 + 1); f(2").program.evalWithin depthLimit env m ≠ .error .missingNode m' := by
  intro env m
  have hbefore : ∀ value, m.Holds (· ∈ env.chain) value → value.Whole := by
    intro value hvalue
    have hempty := (program_evaluates "let f = fn(x) { x };").2 env (Machine.openSession {}).2
      (fun _ h => absurd h Machine.not_holds_openSession) depthLimit
    exact hempty.2.2 value (hvalue.mono fun scope hscope => .inl hscope)
  refine ⟨by decide +kernel, by decide +kernel, hbefore, ?_⟩
  exact ((program_evaluates "f(1 + 1); f(2").2 env m hbefore depthLimit).1

end Monkey
