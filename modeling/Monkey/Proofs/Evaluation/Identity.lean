import Monkey.Proofs.Evaluation.Allocation
import Monkey.Proofs.Evaluation.HashLiteral

/-!
# Equality and identity

Unless both values are integers or both are strings, `==` asks whether they are the same object. That it is an
equivalence, and that it takes no two values for one, rests on the numbers of objects: in a session no number is
given twice, and a value that is bound, passed, returned, stored or fetched keeps its own.

* `SoundEquality`: what `==` and `!=` say of the values around.
* `Node.Builds`: the constructs that make an array, a hash or a function of their own.
* `PassesOn`: the ways in which values are passed on as they are.
* `session_equality`: so it is at every moment of a session.
-/

namespace Monkey

open Traced

/-! ### What is said of two values -/

namespace Value

/-- What `==` says of two values that are not both strings. -/
def equals : Value → Value → Bool
  | .integer _ n, .integer _ n' => n = n'
  | value, other => value.same other

/-- The operator `==` takes two values for equal. -/
def Equal (value other : Value) : Prop :=
  ∀ m, applyBinary "==" value other m = .ok (.boolean true) m

/-- Neither way round does the operator `==` take two values for equal. -/
def Distinct (value other : Value) : Prop :=
  ∀ m, applyBinary "==" value other m = .ok (.boolean false) m ∧
    applyBinary "==" other value m = .ok (.boolean false) m

variable {value other : Value}

theorem equals_of_mixed (h : value.kind ≠ .integer ∨ other.kind ≠ .integer) :
    value.equals other = value.same other := by
  unfold equals
  split
  · simp [kind] at h
  · rfl

theorem equals_self (value : Value) : value.equals value = true := by
  cases value <;> simp [equals, same]

theorem equals_comm (value other : Value) : value.equals other = other.equals value := by
  by_cases h : value.kind = .integer ∧ other.kind = .integer
  · obtain ⟨hvalue, hother⟩ := h
    cases value <;> cases hvalue
    cases other <;> cases hother
    simp [equals, eq_comm]
  · rw [equals_of_mixed (by tauto), equals_of_mixed (by tauto), same, same]
    simp only [eq_comm]

theorem applyBinary_equals (h : ¬ (value.kind = .string ∧ other.kind = .string)) (m : Machine) :
    applyBinary "==" value other m = .ok (.boolean (value.equals other)) m ∧
      applyBinary "!=" value other m = .ok (.boolean (!value.equals other)) m := by
  unfold applyBinary
  split
  · rename_i a _ b
    refine ⟨rfl, ?_⟩
    show EStateM.Result.ok (Value.boolean (decide (a ≠ b))) m = _
    rw [decide_not]
    rfl
  · exact absurd ⟨rfl, rfl⟩ h
  · next hint _ =>
    have hmixed : value.kind ≠ .integer ∨ other.kind ≠ .integer := by
      apply not_and_or.mp
      rintro ⟨hvalue, hother⟩
      cases value <;> cases hvalue
      cases other <;> cases hother
      exact hint _ _ _ _ rfl rfl
    rw [equals_of_mixed hmixed]
    exact ⟨rfl, rfl⟩

theorem equal_iff :
    value.Equal other ↔ ¬ (value.kind = .string ∧ other.kind = .string) ∧ value.equals other = true := by
  constructor
  · intro h
    have hkind : ¬ (value.kind = .string ∧ other.kind = .string) := by
      rintro ⟨hvalue, hother⟩
      cases value <;> cases hvalue
      cases other <;> cases hother
      cases h {}
    have hrun := (h {}).symm.trans (applyBinary_equals hkind {}).1
    refine ⟨hkind, ?_⟩
    cases hequals : value.equals other with
    | true => rfl
    | false =>
      rw [hequals] at hrun
      cases hrun
  · rintro ⟨hkind, hequals⟩ m
    rw [(applyBinary_equals hkind m).1, hequals]

end Value

/-- What `==` and `!=` say of values with a property: unless both are strings they give truth values, one the
    opposite of the other; `==` is an equivalence; it compares integers as numbers, agrees with hash keys where
    both can be compared, and takes other values for equal only if they are the same. -/
structure SoundEquality (known : Value → Prop) : Prop where
  total {value other : Value} (h : ¬ (value.kind = .string ∧ other.kind = .string)) :
    ∃ answer, ∀ m, applyBinary "==" value other m = .ok (.boolean answer) m ∧
      applyBinary "!=" value other m = .ok (.boolean (!answer)) m
  refl {value : Value} (h : value.kind ≠ .string) : value.Equal value
  symm {value other : Value} (h : value.Equal other) : other.Equal value
  trans {value other third : Value} (hvalue : known value) (hother : known other) (hthird : known third)
    (h : value.Equal other) (h' : other.Equal third) : value.Equal third
  same {value other : Value} (hvalue : known value) (hother : known other) (h : value.Equal other) :
    value = other ∨ value.kind = .integer ∧ other.kind = .integer
  integer (id id' : Nat) (n n' : Int) : (Value.integer id n).Equal (.integer id' n') ↔ n = n'
  hashKey {value other : Value} (hvalue : value.kind ∈ [.integer, .boolean])
    (hother : other.kind ∈ [.integer, .boolean]) : value.Equal other ↔ value.hashKey? = other.hashKey?

/-- Where the identity of a value says which one it is, equality is sound. -/
theorem soundEquality_of_unique {known : Value → Prop}
    (hunique : ∀ value other, known value → known other → value.identity = other.identity → value = other) :
    SoundEquality known := by
  have hinteger (id id' : Nat) (n n' : Int) : (Value.integer id n).Equal (.integer id' n') ↔ n = n' := by
    rw [Value.equal_iff]
    simp [Value.kind, Value.equals]
  have hsame {value other : Value} (hvalue : known value) (hother : known other) (h : value.Equal other) :
      value = other ∨ value.kind = .integer ∧ other.kind = .integer := by
    by_cases hkind : value.kind = .integer ∧ other.kind = .integer
    · exact .inr hkind
    · obtain ⟨-, hequals⟩ := Value.equal_iff.mp h
      rw [Value.equals_of_mixed (by tauto), Value.same, decide_eq_true_eq] at hequals
      exact .inl (hunique value other hvalue hother hequals)
  constructor
  · intro value other h
    exact ⟨_, Value.applyBinary_equals h⟩
  · intro value h
    exact Value.equal_iff.mpr ⟨fun hkind => h hkind.1, value.equals_self⟩
  · intro value other h
    obtain ⟨hkind, hequals⟩ := Value.equal_iff.mp h
    rw [Value.equals_comm] at hequals
    exact Value.equal_iff.mpr ⟨fun hkind' => hkind hkind'.symm, hequals⟩
  · intro value other third hvalue hother hthird h h'
    rcases hsame hvalue hother h with rfl | ⟨hkind, hkind'⟩
    · exact h'
    · rcases hsame hother hthird h' with rfl | ⟨-, hkind''⟩
      · exact h
      · cases value <;> cases hkind
        cases other <;> cases hkind'
        cases third <;> cases hkind''
        rw [hinteger] at h h' ⊢
        exact h.trans h'
  · exact hsame
  · exact hinteger
  · intro value other hvalue hother
    rw [Value.equal_iff]
    cases value <;> simp [Value.kind] at hvalue <;> cases other <;> simp [Value.kind] at hother <;>
      simp [Value.kind, Value.equals, Value.same, Value.identity, Value.hashKey?]

/-! ### Evaluations of several parts -/

section

variable {depth : Nat} {evalBody : Node → Env → Eval Value} {env : Env} {node : Node} {token : Token}
  {m m₁ m₂ m' : Machine} {value : Value} {values : List Value}

/-- Several expressions are evaluated one after the other, up to one that gives an error. -/
theorem evalAll_cons {expression : Node} {rest : List Node} {result : Except Value (List Value)}
    (h : evalAll evalBody env (expression :: rest) m = .ok result m') :
    ∃ value m₁, expression.evalWith evalBody env m = .ok value m₁ ∧
      (value.isError = true ∧ result = .error value ∧ m' = m₁ ∨
        ∃ others, evalAll evalBody env rest m₁ = .ok others m' ∧ result = others.map (value :: ·)) := by
  rw [evalAll, Eval.bind_run] at h
  cases hrun : expression.evalWith evalBody env m with
  | error reason m₁ => simp [hrun] at h
  | ok value m₁ =>
    refine ⟨value, m₁, rfl, ?_⟩
    simp only [hrun] at h
    cases herror : value.isError with
    | true =>
      rw [herror, if_pos rfl] at h
      cases h
      exact .inl ⟨rfl, rfl, rfl⟩
    | false =>
      rw [herror, if_neg Bool.false_ne_true, Eval.bind_run] at h
      cases hrest : evalAll evalBody env rest m₁ with
      | error reason m₂ => simp [hrest] at h
      | ok others m₂ =>
        simp only [hrest] at h
        cases others <;> cases h <;> exact .inr ⟨_, rfl, rfl⟩

/-- If not all of several expressions are evaluated, then one gives an error. -/
theorem isError_evalAll {expressions : List Node} {failure : Value}
    (h : evalAll evalBody env expressions m = .ok (.error failure) m') : failure.isError = true := by
  induction expressions generalizing m with
  | nil => cases h
  | cons expression rest ih =>
    obtain ⟨value, m₁, -, ⟨herror, hresult, -⟩ | ⟨others, hrest, hresult⟩⟩ := evalAll_cons h
    · cases hresult
      exact herror
    · cases others <;> cases hresult
      exact ih hrest

theorem objects_le_evalWith (h : node.evalWith (Node.evalWithin depth) env m = .ok value m') :
    m.objects ≤ m'.objects := by
  have hafter : (node.evalWithin (depth + 1) env).after m = m' := by rw [Eval.after, Node.evalWithin, h]
  rw [← hafter, after_evalWithin, replays_tracedWithin]
  exact objects_le_foldl _ m

theorem objects_le_evalAll {expressions : List Node} {result : Except Value (List Value)}
    (h : evalAll (Node.evalWithin depth) env expressions m = .ok result m') : m.objects ≤ m'.objects := by
  induction expressions generalizing m result with
  | nil =>
    cases h
    exact Nat.le_refl _
  | cons expression rest ih =>
    obtain ⟨value, m₁, hrun, ⟨-, -, rfl⟩ | ⟨others, hrest, -⟩⟩ := evalAll_cons h
    · exact objects_le_evalWith hrun
    · exact Nat.le_trans (objects_le_evalWith hrun) (ih hrest)

theorem objects_le_gathers {pairs : List (Node × Node)} {gathered : List (Value × Value)}
    (h : Gathers (Node.evalWith (Node.evalWithin depth) env) pairs m gathered m') :
    m.objects ≤ m'.objects := by
  induction h with
  | nil => exact Nat.le_refl _
  | cons hkey _ hvalue _ _ ih =>
    exact Nat.le_trans (objects_le_evalWith hkey) (Nat.le_trans (objects_le_evalWith hvalue) ih)

/-- What goes on with the values of several expressions gives an error, or has these values to go on with. -/
theorem evalAll_of_run {expressions : List Node} {next : List Value → Eval Value}
    (hrun : (do
      match ← evalAll evalBody env expressions with
      | .ok values => next values
      | .error failure => return failure) m = .ok value m') (herror : value.isError = false) :
    ∃ values m₁, evalAll evalBody env expressions m = .ok (.ok values) m₁ ∧ next values m₁ = .ok value m' := by
  rw [Eval.bind_run] at hrun
  cases hall : evalAll evalBody env expressions m with
  | error reason m₁ => simp [hall] at hrun
  | ok result m₁ =>
    rw [hall] at hrun
    cases result with
    | ok values => exact ⟨values, m₁, rfl, hrun⟩
    | error failure =>
      cases hrun
      rw [isError_evalAll hall] at herror
      cases herror

theorem evalWithin_array {elements : List Node}
    (h : evalAll (Node.evalWithin depth) env elements m = .ok (.ok values) m') :
    (Node.array token elements).evalWithin (depth + 1) env m =
      .ok (.array m'.objects values) (m'.grown [] 1) := by
  rw [Node.evalWithin, Node.evalWith, Eval.bind_run, h]
  exact Eval.array_run values m'

theorem evalWithin_call {callee : Node} {arguments : List Node}
    (hcallee : callee.evalWithin (depth + 1) env m = .ok value m₁) (herror : value.isError = false)
    (harguments : evalAll (Node.evalWithin depth) env arguments m₁ = .ok (.ok values) m') :
    (Node.call token callee arguments).evalWithin (depth + 1) env m =
      applyWith (Node.evalWithin depth) value values m' := by
  rw [Node.evalWithin] at hcallee ⊢
  rw [Node.evalWith, Eval.bind_run, hcallee]
  simp only [Value.proceed, herror, Bool.false_eq_true, if_false, Eval.bind_run, harguments]

end

/-! ### New objects -/

/-- The constructs whose value is an object of their own: the literals of arrays, hashes and functions, and the
    calls of `push` and of `rest`, which gives null for an empty array. -/
inductive Node.Builds (depth : Nat) (env : Env) (m : Machine) : Node → Prop where
  | array (token : Token) (elements : List Node) : Node.Builds depth env m (.array token elements)
  | hash (token : Token) (pairs : List (Node × Node)) : Node.Builds depth env m (.hash token pairs)
  | function (token : Token) (parameters : List Identifier) (body : Node) :
      Node.Builds depth env m (.function token parameters body)
  | call {token : Token} {callee : Node} {arguments : List Node} {builtin : Builtin} {m' : Machine}
      (hcallee : callee.evalWithin depth env m = .ok (.builtin builtin) m')
      (hbuiltin : builtin ∈ [.push, .rest]) : Node.Builds depth env m (.call token callee arguments)

section

variable {depth : Nat} {env : Env} {node : Node} {m m' : Machine} {value other : Value}

theorem Builtin.apply_eq (builtin : Builtin) (arguments : List Value) :
    builtin.apply arguments = builtin.applyKnown arguments ∨
      ∃ fault, builtin.apply arguments = Eval.error fault := by
  unfold Builtin.apply
  split
  · exact .inl rfl
  · split
    · exact .inl rfl
    · exact .inr ⟨_, rfl⟩

/-- An error is no result of `push` or `rest`, so these give a new array or null. -/
theorem builds_builtin {builtin : Builtin} {arguments : List Value} (hbuiltin : builtin ∈ [.push, .rest])
    (hrun : builtin.apply arguments m = .ok value m') (herror : value.isError = false) :
    value = .null ∨ ∃ elements, value = .array m.objects elements := by
  have hfault {fault : Fault} (h : Eval.error fault m = .ok value m') : False := by
    rw [Eval.error_run] at h
    cases h
    cases herror
  have hnew {elements : List Value} (h : Eval.array elements m = .ok value m') :
      ∃ elements, value = .array m.objects elements := by
    rw [Eval.array_run] at h
    cases h
    exact ⟨_, rfl⟩
  have hknown (hrun : builtin.applyKnown arguments m = .ok value m') :
      value = .null ∨ ∃ elements, value = .array m.objects elements := by
    revert hrun
    unfold Builtin.applyKnown
    split <;> intro hrun
    case h_8 | h_9 => exact .inr (hnew hrun)
    case h_7 | h_11 =>
      cases hrun
      exact .inl rfl
    case h_10 => exact (hfault hrun).elim
    all_goals simp at hbuiltin
  rcases builtin.apply_eq arguments with happly | ⟨fault, happly⟩
  · rw [happly] at hrun
    exact hknown hrun
  · rw [happly] at hrun
    exact (hfault hrun).elim

/-- What is built gets a number that was still to be given. -/
theorem Node.Builds.number (hnode : node.Builds depth env m) (hrun : node.evalWithin depth env m = .ok value m')
    (herror : value.isError = false) :
    value = .null ∨ ∃ id, value.identity = .object id ∧ m.objects ≤ id := by
  cases depth with
  | zero => cases hrun
  | succ depth =>
    cases hnode with
    | array token elements =>
      rw [Node.evalWithin, Node.evalWith] at hrun
      obtain ⟨values, m₁, hall, hnew⟩ := evalAll_of_run hrun herror
      rw [Eval.array_run] at hnew
      cases hnew
      exact .inr ⟨m₁.objects, rfl, objects_le_evalAll hall⟩
    | hash token pairs =>
      have hnil : Gathers (Node.evalWith (Node.evalWithin depth) env) [] m [] m := .nil
      obtain ⟨result, hends⟩ := exists_ends hnil pairs
      rw [List.nil_append] at hends
      have hresult : result = .ok value m' := (evalPairs_of_ends hends).symm.trans hrun
      subst hresult
      cases hends with
      | hash hpairs hentries => exact .inr ⟨_, rfl, objects_le_gathers hpairs⟩
      | failure hpart hpart' herror' =>
        rw [herror'] at herror
        cases herror
      | unusable => cases herror
    | function token parameters body =>
      have hnew : (Node.function token parameters body).evalWithin (depth + 1) env m =
          .ok (.function m.objects (parameters.map Identifier.name) body env) (m.grown [] 1) := Eval.new_run _ m
      rw [hnew] at hrun
      cases hrun
      exact .inr ⟨m.objects, rfl, Nat.le_refl _⟩
    | @call token callee arguments builtin m₁ hcallee hbuiltin =>
      rw [Node.evalWithin] at hcallee hrun
      rw [Node.evalWith, Eval.bind_run, hcallee] at hrun
      obtain ⟨values, m₂, hall, hbuilds⟩ :
          ∃ values m₂, evalAll (Node.evalWithin depth) env arguments m₁ = .ok (.ok values) m₂ ∧
            applyWith (Node.evalWithin depth) (.builtin builtin) values m₂ = .ok value m' :=
        evalAll_of_run hrun herror
      have hle : m.objects ≤ m₂.objects :=
        Nat.le_trans (objects_le_evalWith hcallee) (objects_le_evalAll hall)
      rcases builds_builtin hbuiltin hbuilds herror with rfl | ⟨elements, rfl⟩
      · exact .inl rfl
      · exact .inr ⟨m₂.objects, rfl, hle⟩

/-- So it is no array, hash or function that was there before. -/
theorem Node.Builds.distinct (hnode : node.Builds depth env m)
    (hrun : node.evalWithin depth env m = .ok value m') (herror : value.isError = false)
    (hkind : other.kind ∈ [.array, .hash, .function])
    (hbefore : ∀ id, other.identity = .object id → id < m.objects) : value.Distinct other := by
  have hother : ∃ id, other.identity = .object id := by
    cases other <;> first | exact ⟨_, rfl⟩ | simp [Value.kind] at hkind
  obtain ⟨id, hid⟩ := hother
  have hne : value.identity ≠ other.identity := by
    rw [hid]
    rcases hnode.number hrun herror with rfl | ⟨id', hid', hle⟩
    · rintro ⟨⟩
    · rw [hid']
      rintro ⟨⟩
      exact absurd (hbefore id hid) (Nat.not_lt.mpr hle)
  have hinteger : other.kind ≠ .integer := by
    intro h
    simp [h] at hkind
  have hstring : other.kind ≠ .string := by
    intro h
    simp [h] at hkind
  have hequals : value.equals other = false := by
    rw [Value.equals_of_mixed (.inr hinteger), Value.same, decide_eq_false hne]
  intro m
  constructor
  · rw [(Value.applyBinary_equals (fun h => hstring h.2) m).1, hequals]
  · rw [(Value.applyBinary_equals (fun h => hstring h.1) m).1, Value.equals_comm, hequals]

end

/-! ### Values that are passed on -/

/-- In an environment a name evaluates to a value. -/
def Machine.Names (m : Machine) (env : Env) (name : String) (value : Value) : Prop :=
  ∀ depth word, word.name = name → (Node.identifier word).evalWithin (depth + 1) env m = .ok value m

/-- Some values can be fetched from an array, by their indices and from its ends. -/
structure Value.Lists (array : Value) (values : List Value) : Prop where
  index {i : Nat} {value : Value} (h : values[i]? = some value) (id : Nat) (m : Machine) :
    applyIndex array (.integer id i) m = .ok value m
  first {value : Value} (h : values.head? = some value) (m : Machine) :
    Builtin.first.apply [array] m = .ok value m
  last {value : Value} (h : values.getLast? = some value) (m : Machine) :
    Builtin.last.apply [array] m = .ok value m

/-- The ways in which a program passes a value on: what comes out is the value that was put in. -/
structure PassesOn (depth : Nat) (env : Env) (m : Machine) : Prop where
  binding {token : Token} {target : Identifier} {part : Node} {value : Value} {m₁ : Machine}
    (hpart : part.evalWithin (depth + 1) env m = .ok value m₁) (herror : value.isError = false)
    (hscope : env.scope < m.scopes.size) :
    ∃ m', (Node.letStatement token target part).evalWithin (depth + 1) env m = .ok .null m' ∧
      m'.Names env target.name value
  /-- The body of a function is evaluated where each parameter is named, the last one of several of the same
      name, and its value is that of the call, without the `return` around it. -/
  argument {token : Token} {callee : Node} {arguments : List Node} {id : Nat} {parameters : List String}
    {body : Node} {home : Env} {values : List Value} {m₁ m₂ : Machine}
    (hcallee : callee.evalWithin (depth + 1) env m = .ok (.function id parameters body home) m₁)
    (harguments : evalAll (Node.evalWithin depth) env arguments m₁ = .ok (.ok values) m₂)
    (hlength : parameters.length ≤ values.length) :
    ∃ inner m', (Node.call token callee arguments).evalWithin (depth + 1) env m =
        (body.evalWithin depth inner >>= fun result => pure result.unwrapped) m' ∧
      ∀ front name back front' value back', parameters = front ++ name :: back →
        values = front' ++ value :: back' → front.length = front'.length → name ∉ back →
        m'.Names inner name value
  returning {token : Token} {part : Node} {value : Value} {m₁ : Machine}
    (hpart : part.evalWithin (depth + 1) env m = .ok value m₁) (herror : value.isError = false) :
    ∃ result m', (Node.returnStatement token part).evalWithin (depth + 1) env m = .ok result m' ∧
      result.isReturning = true ∧ result.unwrapped = value
  array {token : Token} {elements : List Node} {values : List Value} {m₁ : Machine}
    (helements : evalAll (Node.evalWithin depth) env elements m = .ok (.ok values) m₁) :
    ∃ array m', (Node.array token elements).evalWithin (depth + 1) env m = .ok array m' ∧ array.Lists values
  push (id : Nat) (values : List Value) (value : Value) :
    ∃ array m', Builtin.push.apply [.array id values, value] m = .ok array m' ∧ array.Lists (values ++ [value])
  rest (id : Nat) (value : Value) (values : List Value) :
    ∃ array m', Builtin.rest.apply [.array id (value :: values)] m = .ok array m' ∧ array.Lists values
  /-- The value of a pair is fetched with any key equal to that of the pair, unless a later pair has it too. -/
  hash {token : Token} {pairs : List (Node × Node)} {gathered : List (Value × Value)} {m₁ : Machine}
    (hpairs : Gathers (fun part => part.evalWithin (depth + 1) env) pairs m gathered m₁) :
    ∃ hash m', (Node.hash token pairs).evalWithin (depth + 1) env m = .ok hash m' ∧
      ∀ pair key, lastWith gathered pair.1 = some pair → key.sameKey pair.1 = true →
        ∀ m, applyIndex hash key m = .ok pair.2 m

section

variable {depth : Nat} {env : Env} {m : Machine} {name : String} {value : Value}

theorem names_of_lookup (h : m.lookup env name = some value) : m.Names env name value := by
  rintro depth word rfl
  have hlookup : Eval.lookup env word.name m = .ok (some value) m := by rw [← h]; rfl
  rw [Node.evalWithin, Node.evalWith, evalName, Eval.bind_run, hlookup]
  rfl

theorem names_bind (hscope : env.scope < m.scopes.size) (name : String) (value : Value) :
    (m.bind env name value).Names env name value := by
  apply names_of_lookup
  rw [Machine.lookup, Env.chain, List.findSome?_cons, Machine.bindings_bind env name value hscope, if_pos rfl,
    Assoc.lookup_insert_self]

/-- In the scope of a call a parameter is named, unless a later one has the same name. -/
theorem names_openScope {front front' : List String} {values values' : List Value}
    (hlength : front.length = values.length) (hname : name ∉ front') (outer : List Nat) (m : Machine) :
    (m.openScope outer (Assoc.insertAll ((front ++ name :: front').zip (values ++ value :: values')) [])).2.Names
      ⟨m.scopes.size, outer⟩ name value := by
  apply names_of_lookup
  have hback : name ∉ Assoc.keys (front'.zip values') := by
    intro h
    obtain ⟨value, hpair⟩ := Assoc.mem_keys_iff.mp h
    exact hname (List.of_mem_zip hpair).1
  rw [Machine.lookup, Env.chain, List.findSome?_cons, Machine.bindings_openScope, if_pos rfl,
    Assoc.lookup_insertAll, List.zip_append hlength, List.zip_cons_cons, Assoc.lastWith_append hback]
  rfl

theorem lists_array (id : Nat) (values : List Value) : (Value.array id values).Lists values := by
  constructor
  · intro i value h id' m
    have helement : elementAt values i = value := by
      rw [elementAt, if_neg (by omega), Int.toNat_natCast, List.getD_eq_getElem?_getD, h]
      rfl
    rw [applyIndex, helement]
    rfl
  · intro value h m
    rw [← Option.getD_some (a := value) (b := .null), ← h, ← List.headD_eq_head?_getD]
    rfl
  · intro value h m
    rw [← Option.getD_some (a := value) (b := .null), ← h, ← List.getLastD_eq_getLast?]
    rfl

theorem passesOn (depth : Nat) (env : Env) (m : Machine) : PassesOn depth env m := by
  constructor
  · intro token target part value m₁ hpart herror hscope
    have hsize : env.scope < m₁.scopes.size := by
      have hframe := Eval.bodyFrames_evalWithin (depth + 1) part env m
      rw [Eval.after, hpart] at hframe
      exact Nat.lt_of_lt_of_le hscope hframe.size_le
    refine ⟨m₁.bind env target.name value, ?_, names_bind hsize target.name value⟩
    rw [Node.evalWithin] at hpart ⊢
    rw [Node.evalWith, Eval.bind_run, hpart]
    simp only [Value.proceed, herror]
    rfl
  · intro token callee arguments id parameters body home values m₁ m₂ hcallee harguments hlength
    let bindings := Assoc.insertAll (parameters.zip values) []
    refine ⟨⟨m₂.scopes.size, home.chain⟩, (m₂.openScope home.chain bindings).2, ?_, ?_⟩
    · rw [evalWithin_call hcallee rfl harguments, applyWith, if_neg (Nat.not_lt.mpr hlength)]
      rfl
    · rintro front name back front' value back' rfl rfl hfront hname
      exact names_openScope hfront hname home.chain m₂
  · intro token part value m₁ hpart herror
    refine ⟨.returning m₁.objects value, m₁.grown [] 1, ?_, rfl, rfl⟩
    rw [Node.evalWithin] at hpart ⊢
    rw [Node.evalWith, Eval.bind_run, hpart]
    simp only [Value.proceed, herror]
    exact Eval.new_run _ m₁
  · intro token elements values m₁ helements
    exact ⟨_, _, evalWithin_array helements, lists_array _ values⟩
  · intro id values value
    exact ⟨_, _, Eval.array_run _ m, lists_array _ (values ++ [value])⟩
  · intro id value values
    exact ⟨_, _, Eval.array_run _ m, lists_array _ values⟩
  · intro token pairs gathered m₁ hpairs
    obtain ⟨entries, hentries, heval⟩ := exists_evalPairs hpairs
    refine ⟨.hash m₁.objects entries, m₁.grown [] 1, ?_, ?_⟩
    · have hrun := heval []
      rw [List.append_nil] at hrun
      exact hrun.trans (Eval.new_run _ m₁)
    · intro pair key hlast hkey m
      obtain ⟨hashKey, hhash, -⟩ := Value.sameKey_iff.mp hkey
      simp only [applyIndex, hhash, hentries.valueAt hhash, lastWith_congr hkey, hlast]
      rfl

end

theorem Eval.ok_of_run' {α : Type} {e : Eval α} {m : Machine} {a : α} (h : EStateM.run' e m = some a) :
    ∃ m', e m = .ok a m' := by
  delta EStateM.run' EStateM.run at h
  cases hrun : e m with
  | ok result m' =>
    rw [hrun] at h
    cases h
    exact ⟨m', rfl⟩
  | error reason m' =>
    rw [hrun] at h
    cases h

/-- At every moment of a session: the values in use are the shared ones and those made so far; among these `==`
    is sound; an array, a hash or a function that is built is none of those known before; and values are passed
    on as they are. -/
theorem session_equality (start : Machine) (texts : List String) (before behind : List Event)
    (h : sessionTrace texts start.openSession.1 start.openSession.2 = before ++ behind) :
    let known := Value.Known before
    let m := before.foldl Event.apply start.openSession.2
    (behind = [] → m = sessionAfter texts start.openSession.1 start.openSession.2) ∧
    (∀ event ∈ before, ∀ value ∈ event.held, value.All known) ∧
    (∀ value, m.Holds (start.scopes.size ≤ ·) value → known value) ∧
    SoundEquality known ∧
    (∀ (node : Node) (value other : Value) depth env m', node.Builds depth env m →
      node.evalWithin depth env m = .ok value m' → value.isError = false → known other →
        other.kind ∈ [.array, .hash, .function] → value.Distinct other) ∧
    ∀ depth env, PassesOn depth env m := by
  intro known m
  have hstart : start.openSession.2.Clear known (start.scopes.size ≤ ·) := Machine.clear_openSession start
  have henv : ∀ scope ∈ start.openSession.1.chain, start.scopes.size ≤ scope := by
    simp [Machine.openSession, Machine.openScope, Env.chain]
  have horderly : Orderly known (start.scopes.size ≤ ·) start.openSession.2 before :=
    orderly_sessionTrace (fun _ => .inl) henv hstart h fun _ => .inr
  refine ⟨?_, ?_, ?_, ?_, ?_, fun depth env => passesOn depth env m⟩
  · rintro rfl
    rw [sessionAfter_eq_foldl, h, List.append_nil]
  · intro event hevent value hvalue inner hinner
    exact ((horderly.clear hevent).held hvalue inner hinner).1
  · intro value hvalue
    exact ((horderly.machine hstart).holds (fun _ hscope => hscope) hvalue).has
  · exact soundEquality_of_unique fun value other => horderly.known_unique
  · intro node value other depth env m' hnode hrun herror hother hkind
    exact hnode.distinct hrun herror hkind fun id hid => horderly.known_lt hother hid

/-- Two names for one array, and what `push` makes of it. -/
theorem session_equality_pushed :
    let token : Token := ⟨.ident, "", 0, 0⟩
    let texts := ["let a = [1]; let b = a;", "puts(a == b)"]
    let env := (Machine.openSession {}).1
    let before := sessionTrace texts env (Machine.openSession {}).2
    let m := before.foldl Event.apply (Machine.openSession {}).2
    let call : Node := .call token (.identifier ⟨token, "push"⟩) [.identifier ⟨token, "b"⟩, .integer token 2]
    sessionTrace texts env (Machine.openSession {}).2 = before ++ [] ∧ call.Builds 1 env m ∧
      ∃ array other pushed m', m.lookup env "a" = some array ∧ m.lookup env "b" = some other ∧
        array.Known before ∧ array.kind = .array ∧ array.Equal other ∧
        call.evalWithin 1 env m = .ok pushed m' ∧ pushed.isError = false ∧ pushed.inspect = "[1, 2]" ∧
        pushed.Distinct array := by
  intro token texts env before m call
  have htrace : sessionTrace texts env (Machine.openSession {}).2 = before ++ [] := (List.append_nil _).symm
  obtain ⟨-, -, hheld, -, hnew, -⟩ := session_equality {} texts before [] htrace
  have hcallee : (EStateM.run' ((Node.identifier ⟨token, "push"⟩).evalWithin 1 env) m).map Value.identity =
      some (.builtin .push) := by decide +kernel
  have harray : (m.lookup env "a").map (fun value => (value.kind, value.identity)) =
      some (.array, .object 1) := by decide +kernel
  have hother : (m.lookup env "b").map Value.identity = some (.object 1) := by decide +kernel
  have hpushed : (EStateM.run' (call.evalWithin 1 env) m).map (fun value => (value.isError, value.inspect)) =
      some (false, "[1, 2]") := by decide +kernel
  obtain ⟨builtin, hbuiltin, hpush⟩ := Option.map_eq_some_iff.mp hcallee
  obtain ⟨array, ha, hkinds⟩ := Option.map_eq_some_iff.mp harray
  obtain ⟨other, hb, hidentity⟩ := Option.map_eq_some_iff.mp hother
  obtain ⟨pushed, hpushed, hshown⟩ := Option.map_eq_some_iff.mp hpushed
  obtain ⟨hkind, hnumber⟩ := Prod.mk.inj hkinds
  obtain ⟨herror, hinspect⟩ := Prod.mk.inj hshown
  have hbuilds : call.Builds 1 env m := by
    obtain rfl : builtin = .builtin .push := by cases builtin <;> cases hpush; rfl
    obtain ⟨m', hrun⟩ := Eval.ok_of_run' hbuiltin
    exact .call hrun (by decide)
  have hknown : array.Known before := by
    obtain ⟨scope, hscope, hlookup⟩ := List.exists_of_findSome?_eq_some ha
    obtain ⟨front, back, hbindings, -⟩ := List.lookup_eq_some_iff.mp hlookup
    have hbound : ("a", array) ∈ m.bindings scope := by simp [hbindings]
    exact hheld array (.bound (Nat.zero_le scope) hbound)
  have hequal : array.Equal other := by
    have hmixed : array.kind ≠ .integer := by rw [hkind]; decide
    refine Value.equal_iff.mpr ⟨?_, ?_⟩
    · rw [hkind]
      rintro ⟨⟨⟩, -⟩
    · rw [Value.equals_of_mixed (.inl hmixed), Value.same, hidentity, hnumber]
      rfl
  obtain ⟨m', hrun⟩ := Eval.ok_of_run' hpushed
  have hdistinct := hnew call pushed array 1 env m' hbuilds hrun herror hknown (by rw [hkind]; decide)
  exact ⟨htrace, hbuilds, array, other, pushed, m', ha, hb, hknown, hkind, hequal, hrun, herror, hinspect,
    hdistinct⟩

end Monkey
