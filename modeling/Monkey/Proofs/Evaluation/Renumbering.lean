import Monkey.Evaluation
import Monkey.Proofs.Node.Relabeling

/-!
# Values with other numbers

Scopes and objects are told apart by their numbers, and a value keeps the tokens of the trees in it. Which
numbers and which tokens these are, nothing that an evaluation does depends on: a `Renumbering` gives others,
and `Value.renumber` is the value with these, in which an evaluation finds the same.
-/

namespace Monkey

/-! ### Associations with other values -/

namespace Assoc

variable {κ ν μ : Type} [BEq κ]

def mapValues (f : ν → μ) (entries : List (κ × ν)) : List (κ × μ) :=
  entries.map fun entry => (entry.1, f entry.2)

theorem insert_mapValues (f : ν → μ) (key : κ) (value : ν) (entries : List (κ × ν)) :
    insert key (f value) (mapValues f entries) = mapValues f (insert key value entries) := by
  induction entries with
  | nil => rfl
  | cons entry rest ih =>
    simp only [mapValues, List.map_cons, insert] at ih ⊢
    split
    · rfl
    · rw [ih, List.map_cons]

theorem insertAll_mapValues (f : ν → μ) (pairs entries : List (κ × ν)) :
    insertAll (mapValues f pairs) (mapValues f entries) = mapValues f (insertAll pairs entries) := by
  induction pairs generalizing entries with
  | nil => rfl
  | cons pair rest ih =>
    simp only [insertAll, mapValues, List.map_cons, List.foldl_cons] at ih ⊢
    rw [← ih]
    exact congrArg (List.foldl _ · _) (insert_mapValues f pair.1 pair.2 entries)

theorem lookup_mapValues (f : ν → μ) (key : κ) (entries : List (κ × ν)) :
    (mapValues f entries).lookup key = (entries.lookup key).map f := by
  induction entries with
  | nil => rfl
  | cons entry rest ih =>
    obtain ⟨k, v⟩ := entry
    simp only [mapValues, List.map_cons, List.lookup_cons] at ih ⊢
    cases key == k with
    | true => rfl
    | false => exact ih

end Assoc

/-! ### Renumberings -/

/-- Other tokens, and other numbers for scopes and for objects. -/
structure Renumbering where
  tokens : Relabeling
  scope : Nat → Nat
  object : Nat → Nat
  scope_injective : Function.Injective scope
  object_injective : Function.Injective object

theorem Renumbering.object_inj (r : Renumbering) {i j : Nat} : r.object i = r.object j ↔ i = j :=
  ⟨fun h => r.object_injective h, congrArg r.object⟩

theorem Renumbering.scope_inj (r : Renumbering) {i j : Nat} : r.scope i = r.scope j ↔ i = j :=
  ⟨fun h => r.scope_injective h, congrArg r.scope⟩

def Env.renumber (r : Renumbering) (env : Env) : Env :=
  ⟨r.scope env.scope, env.outer.map r.scope⟩

theorem Env.chain_renumber (r : Renumbering) (env : Env) : (env.renumber r).chain = env.chain.map r.scope := rfl

namespace Value

section

variable (r : Renumbering)

mutual

/-- A value with other numbers and tokens. -/
def renumber : Value → Value
  | .integer id value => .integer (r.object id) value
  | .string id text => .string (r.object id) text
  | .array id elements => .array (r.object id) (renumberAll elements)
  | .hash id entries => .hash (r.object id) (renumberEntries entries)
  | .function id parameters body env =>
    .function (r.object id) parameters (body.relabel r.tokens) (env.renumber r)
  | .returning id value => .returning (r.object id) value.renumber
  | .error id fault => .error (r.object id) fault
  | value => value

def renumberAll : List Value → List Value
  | [] => []
  | value :: rest => value.renumber :: renumberAll rest

def renumberEntries : List (HashKey × Value × Value) → List (HashKey × Value × Value)
  | [] => []
  | (hashKey, key, value) :: rest => (hashKey, key.renumber, value.renumber) :: renumberEntries rest

end

end

variable {r : Renumbering}

theorem renumberAll_eq (values : List Value) : renumberAll r values = values.map (renumber r) := by
  induction values with
  | nil => rfl
  | cons value rest ih => rw [renumberAll, ih, List.map_cons]

theorem renumberEntries_eq (entries : List (HashKey × Value × Value)) :
    renumberEntries r entries = Assoc.mapValues (Prod.map (renumber r) (renumber r)) entries := by
  induction entries with
  | nil => rfl
  | cons entry rest ih =>
    rw [renumberEntries, ih]
    rfl

/-! ### What a renumbering keeps -/

@[simp] theorem kind_renumber (value : Value) : (value.renumber r).kind = value.kind := by
  cases value <;> rfl

@[simp] theorem isError_renumber (value : Value) : (value.renumber r).isError = value.isError := by
  cases value <;> rfl

@[simp] theorem isReturning_renumber (value : Value) :
    (value.renumber r).isReturning = value.isReturning := by
  cases value <;> rfl

@[simp] theorem isTruthy_renumber (value : Value) : (value.renumber r).isTruthy = value.isTruthy := by
  cases value <;> rfl

@[simp] theorem hashKey?_renumber (value : Value) : (value.renumber r).hashKey? = value.hashKey? := by
  cases value <;> rfl

theorem unwrapped_renumber (value : Value) :
    (value.renumber r).unwrapped = value.unwrapped.renumber r := by
  cases value <;> rfl

/-- Different objects stay different. -/
theorem same_renumber (value other : Value) : (value.renumber r).same (other.renumber r) = value.same other := by
  cases value <;> cases other <;> simp [same, identity, renumber, r.object_inj]

theorem bodyText_relabel {r : Relabeling} (body : Node) : (body.relabel r).bodyText = body.bodyText := by
  rw [Node.bodyText, Node.bodyText, Node.spelled_relabel, Node.text_relabel]

mutual

/-- A value is shown without its tokens and its number. -/
theorem inspect_renumber (value : Value) : (value.renumber r).inspect = value.inspect := by
  cases value with
  | array _ elements => simp only [renumber, inspect, inspectAll_renumber elements]
  | hash _ entries => simp only [renumber, inspect, inspectEntries_renumber entries]
  | function _ _ body => simp only [renumber, inspect, bodyText_relabel]
  | returning _ value => simp only [renumber, inspect, inspect_renumber value]
  | null | boolean | builtin | integer | string | error => rfl

theorem inspectAll_renumber (values : List Value) : inspectAll (renumberAll r values) = inspectAll values := by
  match values with
  | [] => rfl
  | value :: rest => simp only [renumberAll, inspectAll, inspect_renumber value, inspectAll_renumber rest]

theorem inspectEntries_renumber (entries : List (HashKey × Value × Value)) :
    inspectEntries (renumberEntries r entries) = inspectEntries entries := by
  match entries with
  | [] => rfl
  | (_, key, value) :: rest =>
    simp only [renumberEntries, inspectEntries, inspect_renumber key, inspect_renumber value,
      inspectEntries_renumber rest]

end

end Value

end Monkey
