import Monkey.Proofs.Evaluation.Identity
import Monkey.Proofs.Evaluation.Later

/-!
# Steps of a run

What the evaluation of a construct does, from what the evaluations of its parts do. With these lemmas a run of a
given program is followed forwards, from the machine that it starts on. Where a run opens scopes and makes
objects but changes no binding, names stand for what they stood for before (`Machine.Keeps.lookup`).
-/

namespace Monkey

/-! ### Names -/

namespace Machine

variable {m m' : Machine} {env : Env}

theorem Keeps.opened (h : m.Keeps m') (henv : m.Opened env) : m'.Opened env :=
  opened_of_size_le henv h.size_le

theorem Keeps.lookup (h : m.Keeps m') (henv : m.Opened env) (name : String) :
    m'.lookup env name = m.lookup env name := by
  rw [Opened] at henv
  rw [Machine.lookup, Machine.lookup]
  generalize env.chain = chain at henv
  induction chain with
  | nil => rfl
  | cons scope rest ih =>
    obtain ⟨hscope, hrest⟩ := List.forall_mem_cons.mp henv
    rw [List.findSome?_cons, List.findSome?_cons, h.bindings_eq scope hscope, ih hrest]

/-- In a new scope a name is looked up there first. -/
theorem lookup_openScope (henv : m.Opened env) (bindings : Bindings) (name : String) :
    (m.openScope env.chain bindings).2.lookup ⟨m.scopes.size, env.chain⟩ name =
      (bindings.lookup name).or (m.lookup env name) := by
  have houter := (m.keeps_openScope env.chain bindings).lookup henv name
  have hown : (m.openScope env.chain bindings).2.bindings m.scopes.size = bindings := by
    rw [bindings_openScope, if_pos rfl]
  rw [← houter]
  show List.findSome? _ (m.scopes.size :: env.chain) = _
  rw [List.findSome?_cons, hown]
  cases bindings.lookup name <;> rfl

theorem lookup_bind (hscope : env.scope < m.scopes.size) (name : String) (value : Value) :
    (m.bind env name value).lookup env name = some value := by
  rw [Machine.lookup, Env.chain, List.findSome?_cons, bindings_bind env name value hscope, if_pos rfl,
    Assoc.lookup_insert_self]

/-- To bind a name in a scope just opened is to open the scope with it. -/
theorem bind_openScope (m : Machine) (outer outer' : List Nat) (bindings : Bindings) (name : String)
    (value : Value) :
    (m.openScope outer bindings).2.bind ⟨m.scopes.size, outer'⟩ name value =
      (m.openScope outer (Assoc.insert name value bindings)).2 := by
  have hscopes : ((m.openScope outer bindings).2.bind ⟨m.scopes.size, outer'⟩ name value).scopes =
      (m.openScope outer (Assoc.insert name value bindings)).2.scopes := by
    refine scopes_ext (by simp [bind, openScope]) fun scope => ?_
    rcases Nat.lt_or_ge scope (m.openScope outer bindings).2.scopes.size with hscope | hscope
    · simp only [bindings_bind _ _ _ hscope, bindings_openScope, eq_comm]
      split
      · rfl
      · rfl
    · rw [bindings_of_size_le (by simpa [bind] using hscope),
        bindings_of_size_le (by simpa [openScope] using hscope)]
  simp only [bind, openScope] at hscopes ⊢
  rw [hscopes]

end Machine

/-! ### Steps of a run -/

section

variable {depth : Nat} {env : Env} {m m₁ m' : Machine} {value : Value} {values : List Value}

theorem names_builtin {builtin : Builtin} (h : m.lookup env builtin.name = none) :
    m.Names env builtin.name (.builtin builtin) := by
  rintro depth word hword
  have hlookup : Eval.lookup env word.name m = .ok none m := by rw [hword, ← h]; rfl
  have hbuiltin : Builtin.ofName? word.name = some builtin := by rw [hword]; cases builtin <;> rfl
  rw [Node.evalWithin, Node.evalWith, evalName, Eval.bind_run, hlookup]
  simp only [hbuiltin]
  rfl

/-- The number of an object made after some others. -/
theorem new_run_grown (form : Nat → Value) (m : Machine) (count : Nat) :
    (Eval.newObject >>= fun id => pure (form id)) (m.grown [] count) =
      .ok (form (m.objects + count)) (m.grown [] (count + 1)) := by
  rw [Eval.new_run, Machine.grown_append]
  rfl

theorem evalAll_nil_run : evalAll (Node.evalWithin depth) env [] m = .ok (.ok []) m := rfl

theorem evalAll_cons_run {expression : Node} {rest : List Node}
    (hfirst : expression.evalWithin (depth + 1) env m = .ok value m₁) (herror : value.isError = false)
    (hrest : evalAll (Node.evalWithin depth) env rest m₁ = .ok (.ok values) m') :
    evalAll (Node.evalWithin depth) env (expression :: rest) m = .ok (.ok (value :: values)) m' := by
  rw [Node.evalWithin] at hfirst
  rw [evalAll, Eval.bind_run, hfirst]
  simp only [herror, Bool.false_eq_true, if_false, Eval.bind_run, hrest]
  rfl

theorem evalWithin_binary {token : Token} {left right : Node} {operator : String} {other : Value}
    (hleft : left.evalWithin (depth + 1) env m = .ok value m₁) (herror : value.isError = false)
    (hright : right.evalWithin (depth + 1) env m₁ = .ok other m') (herror' : other.isError = false) :
    (Node.binary token left operator right).evalWithin (depth + 1) env m =
      applyBinary operator value other m' := by
  rw [Node.evalWithin] at hleft hright ⊢
  rw [Node.evalWith, Eval.bind_run, hleft]
  simp only [Value.proceed, herror, Bool.false_eq_true, if_false, Eval.bind_run, hright, herror']

theorem evalWithin_conditional {token : Token} {condition consequence alternative : Node}
    (hcondition : condition.evalWithin (depth + 1) env m = .ok value m') (herror : value.isError = false)
    (halternative : alternative.isMissing = false) :
    (Node.conditional token condition consequence alternative).evalWithin (depth + 1) env m =
      if value.isTruthy then consequence.evalWithin (depth + 1) env m'
      else alternative.evalWithin (depth + 1) env m' := by
  rw [Node.evalWithin] at hcondition ⊢
  rw [Node.evalWith, Eval.bind_run, hcondition]
  simp only [Value.proceed, herror, Bool.false_eq_true, if_false, halternative]
  split <;> rfl

theorem evalWithin_let {token : Token} {target : Identifier} {part : Node}
    (hpart : part.evalWithin (depth + 1) env m = .ok value m') (herror : value.isError = false) :
    (Node.letStatement token target part).evalWithin (depth + 1) env m =
      .ok .null (m'.bind env target.name value) := by
  rw [Node.evalWithin] at hpart ⊢
  rw [Node.evalWith, Eval.bind_run, hpart]
  simp only [Value.proceed, herror, Bool.false_eq_true, if_false]
  rfl

theorem evalWithin_block_let {token token' : Token} {target : Identifier} {part : Node} {rest : List Node}
    (hpart : part.evalWithin (depth + 1) env m = .ok value m') (herror : value.isError = false) :
    (Node.block token (.letStatement token' target part :: rest)).evalWithin (depth + 1) env m =
      (Node.block token rest).evalWithin (depth + 1) env (m'.bind env target.name value) := by
  have hlet : (Node.letStatement token' target part).evalWithin (depth + 1) env m = _ :=
    evalWithin_let hpart herror
  rw [Node.evalWithin] at hlet
  rw [Node.evalWithin, Node.evalWithin, Node.evalWith, evalSequence, Eval.bind_run, hlet, Node.evalWith]
  rfl

/-- A block of one expression has its value. -/
theorem evalWithin_block (token token' : Token) (expression : Node) (env : Env) :
    (Node.block token [.expressionStatement token' expression]).evalWithin (depth + 1) env =
      expression.evalWithin (depth + 1) env := by
  rw [Node.evalWithin, Node.evalWithin, Node.evalWith, evalSequence, Node.evalWith]
  conv => rhs; rw [← bind_pure (expression.evalWith _ env)]
  refine bind_congr fun value => ?_
  split <;> rfl

end

end Monkey
