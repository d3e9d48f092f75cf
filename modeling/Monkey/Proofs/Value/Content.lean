import Monkey.Proofs.Evaluation.Relabeling

/-!
# What can be observed of an evaluation

Two runs can agree in all that a user sees and still differ in the numbers of the objects they make and in
the places that the functions they make were read from. The `Content` of a value is the rest of it: what
kind of value it is, what it holds, and of a function its parameters and the text of its body. What can be
observed of an evaluation is the content of its value, or why it halts, together with all that is printed
and the content of all that is bound (`observe`).

A change of tokens changes no content, so trees that are equal but for their tokens cannot be told apart by
evaluating them (`observe_evalWithin_of_relabel_eq`).
-/

namespace Monkey

/-! ### Content -/

/-- What a value is, whatever its number. A function counts as what is shown of it: its parameters and the
    text of its body. -/
inductive Content where
  | null
  | boolean (value : Bool)
  | builtin (which : Builtin)
  | integer (value : Int)
  | string (text : String)
  | array (elements : List Content)
  | hash (entries : List (HashKey × Content × Content))
  | function (parameters : List String) (body : String)
  | returning (value : Content)
  | error (fault : Fault)
deriving Repr

namespace Value

mutual

def content : Value → Content
  | .null => .null
  | .boolean value => .boolean value
  | .builtin which => .builtin which
  | .integer _ value => .integer value
  | .string _ text => .string text
  | .array _ elements => .array (contents elements)
  | .hash _ entries => .hash (entryContents entries)
  | .function _ parameters body _ => .function parameters body.bodyText
  | .returning _ value => .returning value.content
  | .error _ fault => .error fault

def contents : List Value → List Content
  | [] => []
  | value :: rest => value.content :: contents rest

def entryContents : List (HashKey × Value × Value) → List (HashKey × Content × Content)
  | [] => []
  | (hashKey, key, value) :: rest => (hashKey, key.content, value.content) :: entryContents rest

end

theorem entryContents_append (entries rest : List (HashKey × Value × Value)) :
    entryContents (entries ++ rest) = entryContents entries ++ entryContents rest := by
  induction entries with
  | nil => rfl
  | cons entry entries ih => exact congrArg (_ :: ·) ih

variable {value value' : Value}

/-! ### Values of equal content -/

theorem isError_of_content (h : value.content = value'.content) : value.isError = value'.isError := by
  cases value <;> cases value' <;> simp_all [content, isError]

theorem hashKey?_of_content (h : value.content = value'.content) : value.hashKey? = value'.hashKey? := by
  cases value <;> cases value' <;> simp_all [content, hashKey?]

theorem eq_array_of_content {elements : List Content} (h : value.content = .array elements) :
    ∃ id members, value = .array id members ∧ contents members = elements := by
  cases value <;> cases h
  exact ⟨_, _, rfl, rfl⟩

theorem eq_hash_of_content {entries : List (HashKey × Content × Content)}
    (h : value.content = .hash entries) :
    ∃ id members, value = .hash id members ∧ entryContents members = entries := by
  cases value <;> cases h
  exact ⟨_, _, rfl, rfl⟩

theorem eq_returning_of_content {inner : Content} (h : value.content = .returning inner) :
    ∃ id carried, value = .returning id carried ∧ carried.content = inner := by
  cases value <;> cases h
  exact ⟨_, _, rfl, rfl⟩

mutual

/-- Values of equal content are shown alike. -/
theorem inspect_of_content (value value' : Value) (h : value.content = value'.content) :
    value.inspect = value'.inspect := by
  cases value with
  | array _ elements =>
    obtain ⟨_, members, rfl, hmembers⟩ := eq_array_of_content h.symm
    simp only [inspect, inspectAll_of_contents elements members hmembers.symm]
  | hash _ entries =>
    obtain ⟨_, members, rfl, hmembers⟩ := eq_hash_of_content h.symm
    simp only [inspect, inspectEntries_of_contents entries members hmembers.symm]
  | returning _ value =>
    obtain ⟨_, carried, rfl, hcarried⟩ := eq_returning_of_content h.symm
    simp only [inspect, inspect_of_content value carried hcarried.symm]
  | null | boolean | builtin | integer | string | function | error =>
    cases value' <;> simp_all [content, inspect]

theorem inspectAll_of_contents (values values' : List Value) (h : contents values = contents values') :
    inspectAll values = inspectAll values' := by
  match values, values' with
  | [], [] => rfl
  | [], _ :: _ | _ :: _, [] => cases h
  | value :: rest, value' :: rest' =>
    obtain ⟨hvalue, hrest⟩ := List.cons.inj h
    simp only [inspectAll, inspect_of_content value value' hvalue,
      inspectAll_of_contents rest rest' hrest]

theorem inspectEntries_of_contents (entries entries' : List (HashKey × Value × Value))
    (h : entryContents entries = entryContents entries') :
    inspectEntries entries = inspectEntries entries' := by
  match entries, entries' with
  | [], [] => rfl
  | [], _ :: _ | _ :: _, [] => cases h
  | (_, key, value) :: rest, (_, key', value') :: rest' =>
    obtain ⟨hentry, hrest⟩ := List.cons.inj h
    simp only [Prod.mk.injEq] at hentry
    simp only [inspectEntries, inspect_of_content key key' hentry.2.1,
      inspect_of_content value value' hentry.2.2, inspectEntries_of_contents rest rest' hrest]

end

/-! ### Content without tokens -/

section

variable {r : Relabeling}

mutual

@[simp] theorem content_relabel (value : Value) : (value.relabel r).content = value.content := by
  cases value with
  | array _ elements => simp only [relabel, content, contents_relabel elements]
  | hash _ entries => simp only [relabel, content, entryContents_relabel entries]
  | function => simp only [relabel, content, bodyText_relabel]
  | returning _ value => simp only [relabel, content, content_relabel value]
  | null | boolean | builtin | integer | string | error => rfl

theorem contents_relabel (values : List Value) : contents (relabelAll r values) = contents values := by
  match values with
  | [] => rfl
  | value :: rest => simp only [relabelAll, contents, content_relabel value, contents_relabel rest]

theorem entryContents_relabel (entries : List (HashKey × Value × Value)) :
    entryContents (relabelEntries r entries) = entryContents entries := by
  match entries with
  | [] => rfl
  | (_, key, value) :: rest =>
    simp only [relabelEntries, entryContents, content_relabel key, content_relabel value,
      entryContents_relabel rest]

end

end

end Value

/-! ### Observations -/

/-- The content of all that is bound, scope by scope and in the order in which names were first bound. -/
def Machine.contents (m : Machine) : Array (List (String × Content)) :=
  m.scopes.map (Assoc.mapValues Value.content)

theorem Machine.contents_relabel (r : Relabeling) (m : Machine) : (m.relabel r).contents = m.contents := by
  have hcontent : Assoc.mapValues Value.content ∘ Assoc.mapValues (Value.relabel r) =
      Assoc.mapValues (κ := String) Value.content := by
    funext bindings
    simp [Assoc.mapValues]
  rw [contents, contents, relabel, Array.map_map, hcontent]

/-- What can be observed of an evaluation: the content of its value or the reason why it gives none, the lines
    printed, and the content of all that is bound. -/
structure Observation (ε : Type) where
  result : Except ε Content
  output : Array String
  bindings : Array (List (String × Content))

variable {ε : Type}

def observe : EStateM.Result ε Machine Value → Observation ε
  | .ok value m => ⟨.ok value.content, m.output, m.contents⟩
  | .error reason m => ⟨.error reason, m.output, m.contents⟩

/-- A change of tokens in an outcome cannot be observed. -/
theorem observe_ok_relabel (r : Relabeling) (value : Value) (m : Machine) :
    (observe (.ok (value.relabel r) (m.relabel r)) : Observation ε) = observe (.ok value m) := by
  simp only [observe, Value.content_relabel, Machine.contents_relabel]
  rfl

theorem observe_error_relabel (r : Relabeling) (reason : ε) (m : Machine) :
    observe (.error reason (m.relabel r)) = observe (.error reason m) := by
  simp only [observe, Machine.contents_relabel]
  rfl

theorem observe_evalWithin_relabel (r : Relabeling) (depth : Nat) (node : Node) (env : Env) (m : Machine) :
    observe ((node.relabel r).evalWithin depth env (m.relabel r)) =
      observe (node.evalWithin depth env m) := by
  rw [commutes_evalWithin r depth node env m]
  cases node.evalWithin depth env m with
  | ok value m' => exact observe_ok_relabel r value m'
  | error reason m' => exact observe_error_relabel r reason m'

/-- Trees that are equal but for tokens cannot be told apart by evaluating them. -/
theorem observe_evalWithin_of_relabel_eq {r : Relabeling} {node node' : Node}
    (h : node.relabel r = node'.relabel r) (depth : Nat) (env : Env) (m : Machine) :
    observe (node.evalWithin depth env m) = observe (node'.evalWithin depth env m) := by
  rw [← observe_evalWithin_relabel r, h, observe_evalWithin_relabel]

end Monkey
