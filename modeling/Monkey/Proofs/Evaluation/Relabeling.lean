import Monkey.Proofs.Evaluation.Pairing

/-!
# Evaluation does not look at tokens

The values that a program computes with hold syntax trees, as the bodies of functions, and so does a
machine. Nothing that an evaluation does depends on the tokens in them: it looks at the shape of a tree,
at names, operators and literal values, and prints texts, which a change of tokens keeps. So evaluating a
relabeled node on a relabeled machine does what evaluating the node does, with the bodies of the functions
in the outcome relabeled (`Eval.Commutes`, `commutes_evalWithin`).
-/

namespace Monkey

/-! ### Values and machines with other tokens -/

namespace Value

section

variable (r : Relabeling)

mutual

/-- A value with the tokens changed in the bodies of the functions it holds. -/
def relabel : Value → Value
  | .array id elements => .array id (relabelAll elements)
  | .hash id entries => .hash id (relabelEntries entries)
  | .function id parameters body env => .function id parameters (body.relabel r) env
  | .returning id value => .returning id value.relabel
  | value => value

def relabelAll : List Value → List Value
  | [] => []
  | value :: rest => value.relabel :: relabelAll rest

def relabelEntries : List (HashKey × Value × Value) → List (HashKey × Value × Value)
  | [] => []
  | (hashKey, key, value) :: rest => (hashKey, key.relabel, value.relabel) :: relabelEntries rest

end

end

variable {r : Relabeling}

mutual

/-- Changing the tokens of a value is a transfer. -/
theorem transfer_relabeling (value : Value) : value.transfer (.relabeling r) = value.relabel r := by
  cases value with
  | array _ elements =>
    simp only [transfer, relabel, transferAll_relabeling elements, Transfer.relabeling_objects, Nat.add_zero]
  | hash _ entries =>
    simp only [transfer, relabel, transferEntries_relabeling entries, Transfer.relabeling_objects, Nat.add_zero]
  | function _ _ _ env =>
    simp only [transfer, relabel, env.transfer_of_scopes (t := .relabeling r) rfl, Transfer.relabeling_tokens,
      Transfer.relabeling_objects, Nat.add_zero]
  | returning _ value =>
    simp only [transfer, relabel, transfer_relabeling value, Transfer.relabeling_objects, Nat.add_zero]
  | null | boolean | builtin | integer | string | error => rfl

theorem transferAll_relabeling (values : List Value) :
    transferAll (.relabeling r) values = relabelAll r values := by
  match values with
  | [] => rfl
  | value :: rest => simp only [transferAll, relabelAll, transfer_relabeling value, transferAll_relabeling rest]

theorem transferEntries_relabeling (entries : List (HashKey × Value × Value)) :
    transferEntries (.relabeling r) entries = relabelEntries r entries := by
  match entries with
  | [] => rfl
  | (_, key, value) :: rest =>
    simp only [transferEntries, relabelEntries, transfer_relabeling key, transfer_relabeling value,
      transferEntries_relabeling rest]

end

@[simp] theorem isError_relabel (value : Value) : (value.relabel r).isError = value.isError := by
  cases value <;> rfl

@[simp] theorem isReturning_relabel (value : Value) :
    (value.relabel r).isReturning = value.isReturning := by
  cases value <;> rfl

theorem unwrapped_relabel (value : Value) :
    (value.relabel r).unwrapped = value.unwrapped.relabel r := by
  cases value <;> rfl

/-- A value is shown without its tokens. -/
theorem inspect_relabel (value : Value) : (value.relabel r).inspect = value.inspect := by
  rw [← transfer_relabeling, inspect_transfer]

end Value

/-- A machine with the tokens changed in the values that its scopes hold. -/
def Machine.relabel (r : Relabeling) (m : Machine) : Machine :=
  { m with scopes := m.scopes.map (Assoc.mapValues (Value.relabel r)) }

namespace Machine

variable {r : Relabeling}

theorem bindings_relabel (m : Machine) (scope : Nat) :
    (m.relabel r).bindings scope = Assoc.mapValues (Value.relabel r) (m.bindings scope) := by
  simp only [bindings, relabel, Array.getD_eq_getD_getElem?, Array.getElem?_map]
  cases m.scopes[scope]? <;> rfl

/-- Machines are paired by a change of tokens alone exactly if the second is the first, relabeled. -/
theorem pairs_relabel (m : Machine) : (Pairing.whole (.relabeling r)).Pairs m (m.relabel r) := by
  refine Pairing.pairs_whole _ (by simp [relabel, Transfer.relabeling]) rfl rfl fun scope => ?_
  rw [funext Value.transfer_relabeling]
  exact bindings_relabel m scope

theorem eq_relabel_of_pairs {m m' : Machine} (h : (Pairing.whole (.relabeling r)).Pairs m m') :
    m' = m.relabel r := by
  have hscopes : m'.scopes = (m.relabel r).scopes := by
    refine Machine.scopes_ext ?_ fun scope => ?_
    · rw [h.size]
      simp [relabel, Pairing.whole, Transfer.relabeling]
    · rw [bindings_relabel, ← funext Value.transfer_relabeling]
      exact h.bindings_whole _ scope
  obtain ⟨scopes, objects, output⟩ := m'
  simp only at hscopes
  rw [hscopes, show objects = m.objects from h.objects, show output = m.output from h.output]
  rfl

end Machine

/-! ### Evaluations that commute -/

namespace Eval

variable {r : Relabeling} {α β : Type}

/-- On a relabeled machine, `x'` does what `x` does on the machine, and its result is the image under `h`
    of that of `x`. -/
def Commutes (r : Relabeling) (h : α → β) (x : Eval α) (x' : Eval β) : Prop :=
  ∀ m : Machine, x' (m.relabel r) = match x m with
    | .ok a m' => .ok (h a) (m'.relabel r)
    | .error reason m' => .error reason (m'.relabel r)

/-- What tracks an evaluation with other tokens, and no other difference, commutes with it. -/
theorem commutes_of_mirrors {x x' : Eval Value} (h : (Pairing.whole (.relabeling r)).Mirrors x x') :
    Commutes r (Value.relabel r) x x' := by
  intro m
  have houtcomes := h m (m.relabel r) (Machine.pairs_relabel m)
  generalize x m = outcome, x' (m.relabel r) = outcome' at houtcomes ⊢
  cases houtcomes with
  | @ok value _ _ _ hm =>
    rw [Machine.eq_relabel_of_pairs hm]
    exact congrArg (EStateM.Result.ok · _) (Value.transfer_relabeling value)
  | error hm => rw [Machine.eq_relabel_of_pairs hm]

/-- Evaluating relabeled statements on a relabeled machine has the relabeled outcome. -/
theorem commutes_evalSequence (r : Relabeling) (depth : Nat) (env : Env) (statements : List Node)
    (last : Value) :
    Commutes r (Value.relabel r) (evalSequence (Node.evalWithin depth) env last statements)
      (evalSequence (Node.evalWithin depth) env (last.relabel r) (Node.relabelAll r statements)) := by
  have hmirrors := Pairing.mirrors_evalSequence (c := .whole (.relabeling r)) depth (Pairing.sees_whole _ env)
    statements (fun name _ => Pairing.known_whole _ env name) last (Pairing.clear_whole _ last)
  have hlast : last.transfer (Pairing.whole (.relabeling r)).toTransfer = last.relabel r :=
    Value.transfer_relabeling last
  have henv : env.transfer (Pairing.whole (.relabeling r)).toTransfer = env := env.transfer_of_scopes rfl
  rw [hlast, henv] at hmirrors
  exact commutes_of_mirrors hmirrors

end Eval

/-- Evaluating a relabeled node on a relabeled machine has the relabeled outcome. -/
theorem commutes_evalWithin (r : Relabeling) (depth : Nat) (node : Node) (env : Env) :
    Eval.Commutes r (Value.relabel r) (node.evalWithin depth env)
      ((node.relabel r).evalWithin depth env) := by
  have hmirrors := Pairing.mirrors_whole (.relabeling r) depth node env
  rw [env.transfer_of_scopes (t := .relabeling r) rfl] at hmirrors
  exact Eval.commutes_of_mirrors hmirrors

end Monkey
