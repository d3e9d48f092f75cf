import Monkey.Evaluation

/-!
# Primitive steps

The steps of an evaluation that evaluate no further node: making a value, looking a name up, applying an
operator, an index or a built-in function. Such a step always gives a value, touches no scope and makes
one object at most, which is its result; and if the result is an error, the step has made it. What else
is known of the result is stated for any property of values that the steps respect (`Closed`).
-/

namespace Monkey

/-- The values that a value is put together from. -/
def Value.parts : Value → List Value
  | .array _ elements => elements
  | .hash _ entries => entries.flatMap fun entry => [entry.2.1, entry.2.2]
  | .returning _ value => [value]
  | _ => []

/-- Whether a value is neither put together from others nor a function nor an error. -/
def Value.isAtom : Value → Bool
  | .null | .boolean _ | .builtin _ | .integer .. | .string .. => true
  | _ => false

/-- A property of the values that a step finds, and one of the values that it makes out of these. -/
structure Respected (found made : Value → Prop) : Prop where
  part {value part : Value} : found value → part ∈ value.parts → found part
  null : found .null
  boolean (value : Bool) : found (.boolean value)
  builtin (builtin : Builtin) : found (.builtin builtin)
  error (id : Nat) (fault : Fault) : made (.error id fault)
  wrapped (id : Nat) (value : Int) : made (.integer id (Arithmetic.wrap value))
  stringLength {id : Nat} {text : String} (id' : Nat) :
    found (.string id text) → made (.integer id' text.length)
  arrayLength {id : Nat} {elements : List Value} (id' : Nat) :
    found (.array id elements) → made (.integer id' elements.length)
  string (id : Nat) (text : String) : made (.string id text)
  array (id : Nat) {elements : List Value} :
    (∀ element ∈ elements, found element) → made (.array id elements)

/-- A property of values that passes to the parts of a value, and that a value has if it is an atom, or
    an array or a hash whose parts have it. -/
structure Closed (P : Value → Prop) : Prop where
  part {value part : Value} : P value → part ∈ value.parts → P part
  atom {value : Value} : value.isAtom = true → P value
  array {id : Nat} {elements : List Value} : (∀ part ∈ elements, P part) → P (.array id elements)
  hash {id : Nat} {entries : List (HashKey × Value × Value)} :
    (∀ entry ∈ entries, P entry.2.1 ∧ P entry.2.2) → P (.hash id entries)

theorem Closed.respected {P : Value → Prop} (hP : Closed P) :
    Respected P fun value => P value ∨ value.isError = true where
  part := hP.part
  null := hP.atom rfl
  boolean _ := hP.atom rfl
  builtin _ := hP.atom rfl
  error _ _ := .inr rfl
  wrapped _ _ := .inl (hP.atom rfl)
  stringLength _ _ := .inl (hP.atom rfl)
  arrayLength _ _ := .inl (hP.atom rfl)
  string _ _ := .inl (hP.atom rfl)
  array _ _ h := .inl (hP.array h)

theorem closed_true : Closed fun _ => True :=
  ⟨fun _ _ => trivial, fun _ => trivial, fun _ => trivial, fun _ => trivial⟩

def Machine.grown (m : Machine) (lines : List String) (count : Nat) : Machine :=
  { m with objects := m.objects + count, output := m.output ++ lines.toArray }

@[simp] theorem Machine.grown_scopes (m : Machine) (lines : List String) (count : Nat) :
    (m.grown lines count).scopes = m.scopes := rfl

theorem Machine.grown_zero (m : Machine) : m.grown [] 0 = m := by
  simp [grown]

theorem Machine.grown_append (m : Machine) (lines lines' : List String) (count count' : Nat) :
    (m.grown lines count).grown lines' count' = m.grown (lines ++ lines') (count + count') := by
  simp [grown, Nat.add_assoc]

namespace Eval

variable {P : Value → Prop} {m : Machine}

theorem bind_run {α β : Type} (x : Eval α) (f : α → Eval β) (m : Machine) :
    (x >>= f) m = match x m with
      | .ok a m' => f a m'
      | .error reason m' => .error reason m' := by
  simp only [Bind.bind, EStateM.bind]
  cases x m <;> rfl

/-- The machine that an evaluation leaves behind, whether it gives a value or halts. -/
def after {α : Type} (evaluation : Eval α) (m : Machine) : Machine :=
  match evaluation m with
  | .ok _ m' => m'
  | .error _ m' => m'

/-- A step gives a value that it finds, and may print before, or all it does is to make one, which is then
    numbered by the objects made so far. -/
inductive Supplies (found made : Value → Prop) (step : Eval Value) (m : Machine) : Prop where
  | found {value : Value} (lines : List String) (hrun : step m = .ok value (m.grown lines 0))
      (h : found value)
  | made {value : Value} (hrun : step m = .ok value (m.grown [] 1)) (h : made value)
      (hid : value.identity = .object m.objects)

/-- An evaluation that is a primitive step: it gives a value with the property `P`, or an error, and an
    object it makes is that value. -/
def Primitive (P : Value → Prop) (step : Eval Value) (m : Machine) : Prop :=
  ∃ value lines count, step m = .ok value (m.grown lines count) ∧ count ≤ 1 ∧
    (P value ∨ value.isError = true ∧ count = 1)

theorem Supplies.primitive {x : Eval Value}
    (h : Supplies P (fun value => P value ∨ value.isError = true) x m) : Primitive P x m := by
  cases h with
  | found lines hrun h => exact ⟨_, lines, 0, hrun, Nat.zero_le 1, .inl h⟩
  | made hrun h _ => exact ⟨_, [], 1, hrun, Nat.le_refl 1, h.imp_right (⟨·, rfl⟩)⟩

theorem new_run (form : Nat → Value) (m : Machine) :
    (newObject >>= fun id => pure (form id)) m = .ok (form m.objects) (m.grown [] 1) := by
  have hgrown : m.grown [] 1 = { m with objects := m.objects + 1 } := by simp [Machine.grown]
  rw [hgrown]
  rfl

theorem array_run (elements : List Value) (m : Machine) :
    Eval.array elements m = .ok (.array m.objects elements) (m.grown [] 1) :=
  new_run _ m

theorem error_run (fault : Fault) (m : Machine) :
    Eval.error fault m = .ok (.error m.objects fault) (m.grown [] 1) :=
  new_run _ m

theorem forM_print (values : List Value) (m : Machine) :
    (values.forM fun value => print value.inspect) m
      = (.ok ⟨⟩ (m.grown (values.map Value.inspect) 0) : EStateM.Result Halt Machine PUnit) := by
  induction values generalizing m with
  | nil => rw [List.map_nil, m.grown_zero]; rfl
  | cons value rest ih =>
    have hprint : print value.inspect m = .ok () (m.grown [value.inspect] 0) := by
      have hgrown : m.grown [value.inspect] 0 = m.print value.inspect := by
        simp [Machine.print, Machine.grown]
      rw [hgrown]
      rfl
    rw [List.forM, bind_run, hprint]
    exact (ih _).trans (by rw [Machine.grown_append]; rfl)

/-! ### What the steps supply -/

section

variable {found made : Value → Prop}

theorem supplies_pure {value : Value} (h : found value) : Supplies found made (pure value) m :=
  .found [] (by rw [m.grown_zero]; rfl) h

/-- A step that makes one object, the value `form` of the object's number. -/
theorem supplies_new {form : Nat → Value} (h : ∀ id, made (form id))
    (hid : ∀ id, (form id).identity = .object id) :
    Supplies found made (newObject >>= fun id => pure (form id)) m :=
  .made (new_run form m) (h m.objects) (hid m.objects)

theorem Supplies.of_run {x y : Eval Value} (h : Supplies found made y m) (hrun : x m = y m) :
    Supplies found made x m := by
  cases h with
  | found lines hrun' h => exact .found lines (hrun.trans hrun') h
  | made hrun' h hid => exact .made (hrun.trans hrun') h hid

variable (hsteps : Respected found made)

include hsteps

theorem supplies_error (fault : Fault) : Supplies found made (error fault) m :=
  supplies_new (fun id => hsteps.error id fault) fun _ => rfl

theorem supplies_wrapped (value : Int) : Supplies found made (integer (Arithmetic.wrap value)) m :=
  supplies_new (fun id => hsteps.wrapped id value) fun _ => rfl

theorem supplies_boolean (value : Bool) : Supplies found made (pure (.boolean value)) m :=
  supplies_pure (hsteps.boolean value)

theorem supplies_string (text : String) : Supplies found made (string text) m :=
  supplies_new (fun id => hsteps.string id text) fun _ => rfl

theorem supplies_array {elements : List Value} (h : ∀ element ∈ elements, found element) :
    Supplies found made (array elements) m :=
  supplies_new (fun id => hsteps.array id h) fun _ => rfl

theorem supplies_evalName {env : Env} {name : String}
    (h : ∀ value, m.lookup env name = some value → found value) :
    Supplies found made (evalName env name) m := by
  have hlookup : Eval.lookup env name m = .ok (m.lookup env name) m := rfl
  cases hvalue : m.lookup env name with
  | some value =>
    apply (supplies_pure (h value hvalue)).of_run
    simp only [evalName, bind_run, hlookup, hvalue]
  | none =>
    cases hbuiltin : Builtin.ofName? name with
    | some builtin =>
      apply (supplies_pure (hsteps.builtin builtin)).of_run
      simp only [evalName, bind_run, hlookup, hvalue, hbuiltin]
    | none =>
      apply (supplies_error hsteps (.unknownName name)).of_run
      simp only [evalName, bind_run, hlookup, hvalue, hbuiltin]

theorem supplies_applyPrefix (operator : String) (right : Value) :
    Supplies found made (applyPrefix operator right) m := by
  unfold applyPrefix
  split
  · exact supplies_boolean hsteps _
  · exact supplies_wrapped hsteps _
  · exact supplies_error hsteps _

theorem supplies_applyIntegers (operator : String) (a b : Int) :
    Supplies found made (applyIntegers operator a b) m := by
  unfold applyIntegers
  split
  · exact supplies_wrapped hsteps _
  · exact supplies_wrapped hsteps _
  · exact supplies_wrapped hsteps _
  · split
    · exact supplies_error hsteps _
    · exact supplies_wrapped hsteps _
  · exact supplies_boolean hsteps _
  · exact supplies_boolean hsteps _
  · exact supplies_boolean hsteps _
  · exact supplies_boolean hsteps _
  · exact supplies_error hsteps _

theorem supplies_applyMixed (operator : String) (left right : Value) :
    Supplies found made (applyMixed operator left right) m := by
  unfold applyMixed
  split
  · exact supplies_boolean hsteps _
  · exact supplies_boolean hsteps _
  · split <;> exact supplies_error hsteps _

theorem supplies_applyBinary (operator : String) (left right : Value) :
    Supplies found made (applyBinary operator left right) m := by
  unfold applyBinary
  split
  · exact supplies_applyIntegers hsteps ..
  · unfold applyStrings
    split
    · exact supplies_string hsteps _
    · exact supplies_error hsteps _
  · exact supplies_applyMixed hsteps ..

theorem found_elementAt {id : Nat} {elements : List Value} (h : found (.array id elements)) (i : Int) :
    found (elementAt elements i) := by
  unfold elementAt
  split
  · exact hsteps.null
  · rw [List.getD_eq_getElem?_getD]
    cases helement : elements[i.toNat]? with
    | none => exact hsteps.null
    | some element => exact hsteps.part h (List.mem_of_getElem? helement)

theorem found_valueAt {id : Nat} {entries : List (HashKey × Value × Value)}
    (h : found (.hash id entries)) (key : HashKey) : found (valueAt entries key) := by
  unfold valueAt
  split
  · next entry value hentry =>
    obtain ⟨before, behind, rfl, _⟩ := List.lookup_eq_some_iff.mp hentry
    exact hsteps.part h (List.mem_flatMap.mpr ⟨(key, entry, value), by simp, by simp⟩)
  · exact hsteps.null

theorem supplies_applyIndex {left : Value} (hleft : found left) (subscript : Value) :
    Supplies found made (applyIndex left subscript) m := by
  unfold applyIndex
  split
  · exact supplies_pure (found_elementAt hsteps hleft _)
  · split
    · exact supplies_pure (found_valueAt hsteps hleft _)
    · exact supplies_error hsteps _
  · exact supplies_pure hsteps.null

theorem supplies_applyKnown (builtin : Builtin) {arguments : List Value}
    (harguments : ∀ argument ∈ arguments, found argument) :
    Supplies found made (builtin.applyKnown arguments) m := by
  unfold Builtin.applyKnown
  split
  · refine .found (arguments.map Value.inspect) ?_ hsteps.null
    rw [bind_run, forM_print]
    rfl
  · exact supplies_new (fun id => hsteps.stringLength id (harguments _ List.mem_cons_self)) fun _ => rfl
  · exact supplies_new (fun id => hsteps.arrayLength id (harguments _ List.mem_cons_self)) fun _ => rfl
  · exact supplies_error hsteps _
  · next elements _ =>
    have harray := harguments _ List.mem_cons_self
    cases elements with
    | nil => exact supplies_pure hsteps.null
    | cons first rest => exact supplies_pure (hsteps.part harray List.mem_cons_self)
  · next elements _ =>
    have harray := harguments _ List.mem_cons_self
    apply supplies_pure
    cases elements with
    | nil => exact hsteps.null
    | cons first rest =>
      rw [List.getLastD_cons]
      exact hsteps.part harray (List.getLastD_mem_cons ..)
  · exact supplies_pure hsteps.null
  · have harray := harguments _ List.mem_cons_self
    exact supplies_array hsteps fun part hpart => hsteps.part harray (List.mem_cons_of_mem _ hpart)
  · next elements element =>
    apply supplies_array hsteps
    intro part hpart
    rcases List.mem_append.mp hpart with hpart | hpart
    · exact hsteps.part (harguments _ List.mem_cons_self) hpart
    · exact harguments part (List.mem_cons_of_mem _ hpart)
  · exact supplies_error hsteps _
  · exact supplies_pure hsteps.null

theorem supplies_builtin (builtin : Builtin) {arguments : List Value}
    (harguments : ∀ argument ∈ arguments, found argument) :
    Supplies found made (builtin.apply arguments) m := by
  unfold Builtin.apply
  split
  · exact supplies_applyKnown hsteps builtin harguments
  · split
    · exact supplies_applyKnown hsteps builtin harguments
    · exact supplies_error hsteps _

end

/-! ### Steps and one property -/

theorem primitive_new {form : Nat → Value} (h : ∀ id, P (form id) ∨ (form id).isError = true) :
    Primitive P (newObject >>= fun id => pure (form id)) m :=
  ⟨_, [], 1, new_run form m, Nat.le_refl 1, (h m.objects).imp_right (⟨·, rfl⟩)⟩

theorem primitive_error (fault : Fault) : Primitive P (error fault) m :=
  primitive_new fun _ => .inr rfl

section

variable (hP : Closed P)

include hP

theorem primitive_integer (value : Int) : Primitive P (integer value) m :=
  primitive_new fun _ => .inl (hP.atom rfl)

theorem primitive_string (text : String) : Primitive P (string text) m :=
  (supplies_string hP.respected text).primitive

theorem primitive_array {elements : List Value} (h : ∀ part ∈ elements, P part) :
    Primitive P (array elements) m :=
  (supplies_array hP.respected h).primitive

theorem primitive_hash {entries : List (HashKey × Value × Value)}
    (h : ∀ entry ∈ entries, P entry.2.1 ∧ P entry.2.2) : Primitive P (hash entries) m :=
  primitive_new fun _ => .inl (hP.hash h)

theorem primitive_evalName {env : Env} {name : String}
    (h : ∀ value, m.lookup env name = some value → P value) : Primitive P (evalName env name) m :=
  (supplies_evalName hP.respected h).primitive

theorem primitive_applyPrefix (operator : String) (right : Value) :
    Primitive P (applyPrefix operator right) m :=
  (supplies_applyPrefix hP.respected operator right).primitive

theorem primitive_applyBinary (operator : String) (left right : Value) :
    Primitive P (applyBinary operator left right) m :=
  (supplies_applyBinary hP.respected operator left right).primitive

theorem primitive_applyIndex {left : Value} (hleft : P left) (subscript : Value) :
    Primitive P (applyIndex left subscript) m :=
  (supplies_applyIndex hP.respected hleft subscript).primitive

theorem primitive_builtin (builtin : Builtin) {arguments : List Value}
    (harguments : ∀ argument ∈ arguments, P argument) :
    Primitive P (builtin.apply arguments) m :=
  (supplies_builtin hP.respected builtin harguments).primitive

end

end Eval

end Monkey
