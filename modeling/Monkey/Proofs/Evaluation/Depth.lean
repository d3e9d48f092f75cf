import Monkey.Proofs.Evaluation.Primitive

/-!
# The bound on the depth

How deep evaluations may nest in one another is bounded, and where the bound is met the evaluation halts.
Nothing else depends on it: whatever an evaluation does at some depth without halting for that reason, it
does at every greater depth (`approximates_evalWithin`).
-/

namespace Monkey

namespace Eval

variable {α β : Type}

/-- Wherever `x` does not halt because calls are nested too deep, `y` does the same. -/
def Approximates (x y : Eval α) : Prop :=
  ∀ m, x m = y m ∨ ∃ m', x m = .error .tooDeep m'

theorem Approximates.refl (x : Eval α) : Approximates x x :=
  fun _ => .inl rfl

theorem Approximates.ok {x y : Eval α} (h : Approximates x y) {a : α} {m m' : Machine} (hrun : x m = .ok a m') :
    y m = .ok a m' := by
  rcases h m with heq | ⟨m'', hdeep⟩
  · rw [← heq, hrun]
  · rw [hrun] at hdeep
    cases hdeep

theorem Approximates.bind {x y : Eval α} {f g : α → Eval β} (h : Approximates x y)
    (hnext : ∀ a, Approximates (f a) (g a)) : Approximates (x >>= f) (y >>= g) := by
  intro m
  rw [bind_run, bind_run]
  rcases h m with heq | ⟨m', hdeep⟩
  · rw [heq]
    cases y m with
    | ok a m' => exact hnext a m'
    | error reason m' => exact .inl rfl
  · rw [hdeep]
    exact .inr ⟨m', rfl⟩

theorem Approximates.ite {condition : Prop} [Decidable condition] {x y x' y' : Eval α}
    (h : Approximates x y) (h' : Approximates x' y') :
    Approximates (if condition then x else x') (if condition then y else y') := by
  split
  · exact h
  · exact h'

theorem Approximates.proceed {value : Value} {x y : Eval Value} (h : Approximates x y) :
    Approximates (value.proceed x) (value.proceed y) :=
  .ite (.refl _) h

section

variable {evalBody evalBody' : Node → Env → Eval Value}
  (hbody : ∀ body env, Approximates (evalBody body env) (evalBody' body env))

include hbody

theorem approximates_applyWith (callee : Value) (arguments : List Value) :
    Approximates (applyWith evalBody callee arguments) (applyWith evalBody' callee arguments) := by
  cases callee with
  | function id parameters body env =>
    refine .ite (.refl _) ((Approximates.refl _).bind fun inner => ?_)
    exact (hbody body inner).bind fun _ => .refl _
  | _ => exact .refl _

variable (env : Env)

set_option linter.unusedSectionVars false in
mutual

theorem approximates_evalWith (node : Node) :
    Approximates (node.evalWith evalBody env) (node.evalWith evalBody' env) := by
  cases node with
  | missing | identifier | integer | string | boolean | function => exact .refl _
  | program statements => exact (approximates_evalSequence statements .null).bind fun _ => .refl _
  | block _ statements => exact approximates_evalSequence statements .null
  | expressionStatement _ expression => exact approximates_evalWith expression
  | letStatement _ _ value | returnStatement _ value | prefixed _ _ value =>
    exact (approximates_evalWith value).bind fun _ => .refl _
  | binary _ left _ right | index _ left right =>
    refine (approximates_evalWith left).bind fun first => .proceed ?_
    exact (approximates_evalWith right).bind fun _ => .refl _
  | conditional _ condition consequence alternative =>
    refine (approximates_evalWith condition).bind fun test => .proceed ?_
    exact .ite (approximates_evalWith consequence) (.ite (.refl _) (approximates_evalWith alternative))
  | call _ callee arguments =>
    refine (approximates_evalWith callee).bind fun function => .proceed ?_
    refine (approximates_evalAll arguments).bind fun result => ?_
    cases result with
    | ok values => exact approximates_applyWith hbody function values
    | error failure => exact .refl _
  | array _ elements => exact (approximates_evalAll elements).bind fun _ => .refl _
  | hash _ pairs => exact approximates_evalPairs pairs []

theorem approximates_evalSequence (statements : List Node) (last : Value) :
    Approximates (evalSequence evalBody env last statements) (evalSequence evalBody' env last statements) := by
  cases statements with
  | nil => exact .refl _
  | cons statement rest =>
    refine (approximates_evalWith statement).bind fun result => ?_
    exact .ite (.refl _) (approximates_evalSequence rest result)

theorem approximates_evalAll (expressions : List Node) :
    Approximates (evalAll evalBody env expressions) (evalAll evalBody' env expressions) := by
  cases expressions with
  | nil => exact .refl _
  | cons expression rest =>
    refine (approximates_evalWith expression).bind fun value => ?_
    exact .ite (.refl _) ((approximates_evalAll rest).bind fun _ => .refl _)

theorem approximates_evalPairs (pairs : List (Node × Node)) (entries : List (HashKey × Value × Value)) :
    Approximates (evalPairs evalBody env entries pairs) (evalPairs evalBody' env entries pairs) := by
  match pairs with
  | [] => exact .refl _
  | (left, right) :: rest =>
    refine (approximates_evalWith left).bind fun key => .proceed ?_
    cases key.hashKey? with
    | none => exact .refl _
    | some hashKey =>
      refine (approximates_evalWith right).bind fun value => .proceed ?_
      exact approximates_evalPairs rest _

end

end

/-- At a greater depth an evaluation does the same, unless it halts because calls are nested too deep. -/
theorem approximates_evalWithin {depth depth' : Nat} (h : depth ≤ depth') (node : Node) (env : Env) :
    Approximates (node.evalWithin depth env) (node.evalWithin depth' env) := by
  induction depth generalizing depth' node env with
  | zero => exact fun m => .inr ⟨m, rfl⟩
  | succ depth ih =>
    cases depth' with
    | zero => exact absurd h (Nat.not_succ_le_zero depth)
    | succ depth' => exact approximates_evalWith (fun body env => ih (Nat.le_of_succ_le_succ h) body env) env node

/-- So does a call. -/
theorem call_of_le {depth depth' : Nat} (h : depth ≤ depth') {callee value : Value} {arguments : List Value}
    {m m' : Machine} (hrun : applyWith (Node.evalWithin depth) callee arguments m = .ok value m') :
    applyWith (Node.evalWithin depth') callee arguments m = .ok value m' :=
  (approximates_applyWith (approximates_evalWithin h) callee arguments).ok hrun

end Eval

end Monkey
