import Monkey.Proofs.Evaluation.Frame
import Monkey.Proofs.Evaluation.Trace

/-!
# What an environment holds

An environment holds the values bound in its scopes, what these are put together from, and what is bound
where the functions among them were made (`Machine.Holds`). That all these values have a property is not
kept by evaluation as it stands, because an evaluation opens scopes. What is kept is that the values in
a set of scopes, with the ones still to come among them, have the property and that no function among
them leaves the set (`Machine.Clear`); the least such set is what the environment reaches.
-/

namespace Monkey

def Value.captured : Value → List Nat
  | .function _ _ _ env => env.chain
  | _ => []

def Value.body? : Value → Option Node
  | .function _ _ body _ => some body
  | _ => none

/-- A value contains itself, its parts, their parts and so on. -/
inductive Value.Contains : Value → Value → Prop where
  | refl {value : Value} : value.Contains value
  | part {value part inner : Value} (hpart : part ∈ value.parts) (h : part.Contains inner) :
      value.Contains inner

def Value.All (p : Value → Prop) (value : Value) : Prop :=
  ∀ inner, value.Contains inner → p inner

theorem Value.All.mk {p : Value → Prop} {value : Value} (here : p value)
    (parts : ∀ part ∈ value.parts, part.All p) : value.All p := by
  intro inner h
  cases h with
  | refl => exact here
  | part hpart h => exact parts _ hpart inner h

theorem Value.All.here {p : Value → Prop} {value : Value} (h : value.All p) : p value :=
  h value .refl

theorem Value.All.part {p : Value → Prop} {value part : Value} (h : value.All p)
    (hpart : part ∈ value.parts) : part.All p :=
  fun inner hinner => h inner (.part hpart hinner)

/-- The values that can be got at from some scopes. -/
inductive Machine.Holds (m : Machine) (roots : Nat → Prop) : Value → Prop where
  | bound {scope : Nat} {name : String} {value : Value} (hscope : roots scope)
      (hvalue : (name, value) ∈ m.bindings scope) : m.Holds roots value
  | part {value part : Value} (h : m.Holds roots value) (hpart : part ∈ value.parts) :
      m.Holds roots part
  | captured {function value : Value} {scope : Nat} {name : String} (h : m.Holds roots function)
      (hscope : scope ∈ function.captured) (hvalue : (name, value) ∈ m.bindings scope) :
      m.Holds roots value

/-- A value and all its parts have a property, and no function in it leaves the given scopes. -/
def Value.Clear (p : Value → Prop) (scopes : Nat → Prop) (value : Value) : Prop :=
  value.All fun part => p part ∧ ∀ scope ∈ part.captured, scopes scope

/-- The given scopes, which take in all that are still to be opened, hold clear values only. -/
structure Machine.Clear (p : Value → Prop) (scopes : Nat → Prop) (m : Machine) : Prop where
  fresh : ∀ scope, m.scopes.size ≤ scope → scopes scope
  bound : ∀ scope, scopes scope → ∀ entry ∈ m.bindings scope, entry.2.Clear p scopes

/-- The values that an event puts somewhere: into a construct, a scope, the arguments of a call, or as
    its parts into a new value. -/
def Event.held : Event → List Value
  | .taken _ value | .bound _ _ value | .gave value => [value]
  | .called callee arguments => callee :: arguments
  | .made value => value.parts
  | .entered _ | .printed _ => []

def Event.Clear (p : Value → Prop) (scopes : Nat → Prop) : Event → Prop
  | .taken _ value | .bound _ _ value | .gave value | .made value => value.Clear p scopes
  | .called callee arguments => ∀ value ∈ callee :: arguments, value.Clear p scopes
  | .entered _ | .printed _ => True

/-- A property that only errors, pending returns and functions may lack. -/
def Lenient (p : Value → Prop) : Prop :=
  ∀ value : Value, value.isError = false → value.isReturning = false → value.body? = none → p value

theorem Assoc.mem_insert {κ ν : Type} [BEq κ] {key : κ} {value : ν} {entry : κ × ν}
    {entries : List (κ × ν)} (h : entry ∈ Assoc.insert key value entries) :
    entry ∈ entries ∨ entry.2 = value := by
  induction entries with
  | nil =>
    obtain rfl := List.mem_singleton.mp h
    exact .inr rfl
  | cons first rest ih =>
    rcases first with ⟨k, v⟩
    unfold Assoc.insert at h
    split at h
    · rcases List.mem_cons.mp h with rfl | h
      · exact .inr rfl
      · exact .inl (List.mem_cons_of_mem _ h)
    · rcases List.mem_cons.mp h with rfl | h
      · exact .inl List.mem_cons_self
      · exact (ih h).imp_left (List.mem_cons_of_mem _)

variable {p : Value → Prop} {scopes roots : Nat → Prop} {m : Machine} {value : Value}

/-! ### Clear values -/

theorem Value.Clear.has (h : value.Clear p scopes) : p value :=
  h.here.1

theorem Value.Clear.part {part : Value} (h : value.Clear p scopes) (hpart : part ∈ value.parts) :
    part.Clear p scopes :=
  Value.All.part h hpart

theorem Event.Clear.held {event : Event} (h : event.Clear p scopes) (hvalue : value ∈ event.held) :
    value.Clear p scopes := by
  cases event with
  | taken part value' => exact List.mem_singleton.mp hvalue ▸ h
  | bound scope name value' => exact List.mem_singleton.mp hvalue ▸ h
  | gave value' => exact List.mem_singleton.mp hvalue ▸ h
  | called callee arguments => exact h value hvalue
  | made value' => exact Value.Clear.part h hvalue
  | entered node => cases hvalue
  | printed line => cases hvalue

theorem isAtom_spec (h : value.isAtom = true) : value.isError = false ∧ value.isReturning = false ∧
    value.body? = none ∧ value.captured = [] ∧ value.parts = [] := by
  cases value <;> first | exact ⟨rfl, rfl, rfl, rfl, rfl⟩ | cases h

theorem isError_spec (h : value.isError = true) : value.isReturning = false ∧ value.body? = none ∧
    value.captured = [] ∧ value.parts = [] := by
  cases value <;> first | exact ⟨rfl, rfl, rfl, rfl⟩ | cases h

/-- A value without parts that captures no scope. -/
theorem clear_leaf (h : p value) (hcaptured : value.captured = []) (hparts : value.parts = []) :
    value.Clear p scopes := by
  apply Value.All.mk
  · simp [h, hcaptured]
  · simp [hparts]

theorem clear_array {id : Nat} {elements : List Value} (h : p (.array id elements))
    (helements : ∀ element ∈ elements, element.Clear p scopes) :
    (Value.array id elements).Clear p scopes :=
  .mk ⟨h, by simp [Value.captured]⟩ helements

theorem clear_returning {id : Nat} (h : p (.returning id value)) (hvalue : value.Clear p scopes) :
    (Value.returning id value).Clear p scopes :=
  .mk ⟨h, by simp [Value.captured]⟩ (List.forall_mem_singleton.mpr hvalue)

theorem clear_hash {id : Nat} {entries : List (HashKey × Value × Value)} (h : p (.hash id entries))
    (hentries : ∀ entry ∈ entries, entry.2.1.Clear p scopes ∧ entry.2.2.Clear p scopes) :
    (Value.hash id entries).Clear p scopes := by
  apply Value.All.mk
  · exact ⟨h, by simp [Value.captured]⟩
  · intro part hpart
    obtain ⟨entry, hentry, hpart⟩ := List.mem_flatMap.mp hpart
    simp only [List.mem_cons, List.not_mem_nil, or_false] at hpart
    rcases hpart with rfl | rfl
    · exact (hentries entry hentry).1
    · exact (hentries entry hentry).2

theorem Lenient.closed_clear (hp : Lenient p) : Closed (Value.Clear p scopes) where
  part h hpart := h.part hpart
  atom h := by
    obtain ⟨herror, hreturning, hbody, hcaptured, hparts⟩ := isAtom_spec h
    exact clear_leaf (hp _ herror hreturning hbody) hcaptured hparts
  array h := clear_array (hp _ rfl rfl rfl) h
  hash h := clear_hash (hp _ rfl rfl rfl) h

theorem clear_insert {entries : List (HashKey × Value × Value)} {hashKey : HashKey} {key : Value}
    (hentries : ∀ entry ∈ entries, entry.2.1.Clear p scopes ∧ entry.2.2.Clear p scopes)
    (hkey : key.Clear p scopes) (hvalue : value.Clear p scopes) :
    ∀ entry ∈ Assoc.insert hashKey (key, value) entries,
      entry.2.1.Clear p scopes ∧ entry.2.2.Clear p scopes := by
  intro entry hentry
  rcases Assoc.mem_insert hentry with hentry | hnew
  · exact hentries entry hentry
  · rw [hnew]
    exact ⟨hkey, hvalue⟩

theorem clear_function {id : Nat} {parameters : List String} {body : Node} {env : Env}
    (h : p (.function id parameters body env)) (henv : ∀ scope ∈ env.chain, scopes scope) :
    (Value.function id parameters body env).Clear p scopes :=
  .mk ⟨h, henv⟩ (by simp [Value.parts])

theorem clear_unwrapped (h : value.Clear p scopes) :
    value.unwrapped.Clear p scopes := by
  cases value with
  | returning id inner => exact h.part List.mem_cons_self
  | _ => exact h

/-! ### Clear machines -/

namespace Machine

theorem Holds.contains {inner : Value} (h : m.Holds roots value) (hinner : value.Contains inner) :
    m.Holds roots inner := by
  induction hinner with
  | refl => exact h
  | part hpart _ ih => exact ih (h.part hpart)

theorem Holds.mono {roots' : Nat → Prop} (h : m.Holds roots value)
    (hroots : ∀ scope, roots scope → roots' scope) : m.Holds roots' value := by
  induction h with
  | bound hscope hvalue => exact .bound (hroots _ hscope) hvalue
  | part _ hpart ih => exact ih.part hpart
  | captured _ hscope hvalue ih => exact ih.captured hscope hvalue

theorem Clear.holds (hroots : ∀ scope, roots scope → scopes scope) (hm : m.Clear p scopes)
    (h : m.Holds roots value) : value.Clear p scopes := by
  induction h with
  | bound hscope hvalue => exact hm.bound _ (hroots _ hscope) _ hvalue
  | part _ hpart ih => exact ih.part hpart
  | captured _ hscope hvalue ih => exact hm.bound _ (ih.here.2 _ hscope) _ hvalue

/-- The scopes that can be got at from the given ones, and those still to be opened. -/
def Reached (m : Machine) (roots : Nat → Prop) (scope : Nat) : Prop :=
  roots scope ∨ m.scopes.size ≤ scope ∨ ∃ value, m.Holds roots value ∧ scope ∈ value.captured

theorem bindings_of_size_le {scope : Nat} (h : m.scopes.size ≤ scope) : m.bindings scope = [] := by
  rw [bindings, Array.getD_eq_getD_getElem?, Array.getElem?_eq_none h]
  rfl

/-- What is bound says all about the scopes of a machine, but how many there are. -/
theorem scopes_ext {m m' : Machine} (hsize : m.scopes.size = m'.scopes.size)
    (hbindings : ∀ scope, m.bindings scope = m'.bindings scope) : m.scopes = m'.scopes := by
  refine Array.ext hsize fun scope hscope hscope' => ?_
  have h := hbindings scope
  rwa [bindings, bindings, Array.getD_eq_getD_getElem?, Array.getD_eq_getD_getElem?,
    Array.getElem?_eq_getElem hscope, Array.getElem?_eq_getElem hscope'] at h

/-- What is reached from scopes is clear of what they do not hold. -/
theorem clear_reached (h : ∀ value, m.Holds roots value → p value) :
    m.Clear p (m.Reached roots) := by
  have hclear (value : Value) (hvalue : m.Holds roots value) :
      value.Clear p (m.Reached roots) := by
    intro inner hinner
    have hheld := hvalue.contains hinner
    exact ⟨h inner hheld, fun scope hscope => .inr (.inr ⟨inner, hheld, hscope⟩)⟩
  constructor
  · intro scope hscope
    exact .inr (.inl hscope)
  · rintro scope (hscope | hscope | ⟨function, hfunction, hscope⟩) ⟨name, value⟩ hentry
    · exact hclear _ (.bound hscope hentry)
    · rw [bindings_of_size_le hscope] at hentry
      cases hentry
    · exact hclear _ (.captured hfunction hscope hentry)

theorem not_holds_openSession {roots : Nat → Prop} {value : Value} :
    ¬ (openSession {}).2.Holds roots value := by
  intro h
  have hempty (scope : Nat) : (openSession {}).2.bindings scope = [] := by
    cases scope <;> rfl
  induction h with
  | bound _ hvalue => simp [hempty] at hvalue
  | part _ _ ih => exact ih
  | captured _ _ hvalue => simp [hempty] at hvalue

theorem Clear.lookup {env : Env} {name : String} (hm : m.Clear p scopes)
    (henv : ∀ scope ∈ env.chain, scopes scope) (h : m.lookup env name = some value) :
    value.Clear p scopes := by
  obtain ⟨scope, hscope, hlookup⟩ := List.exists_of_findSome?_eq_some h
  obtain ⟨before, behind, hbindings, _⟩ := List.lookup_eq_some_iff.mp hlookup
  exact hm.bound scope (henv scope hscope) (name, value) (by simp [hbindings])

theorem Clear.grown (hm : m.Clear p scopes) (lines : List String) (count : Nat) :
    (m.grown lines count).Clear p scopes :=
  ⟨hm.fresh, hm.bound⟩

theorem Clear.bind (hm : m.Clear p scopes) (hvalue : value.Clear p scopes) (env : Env)
    (name : String) : (m.bind env name value).Clear p scopes := by
  constructor
  · intro scope hscope
    exact hm.fresh scope (by simpa [Machine.bind] using hscope)
  · intro scope hscope entry hentry
    by_cases hsize : m.scopes.size ≤ scope
    · rw [bindings_of_size_le (by simpa [Machine.bind] using hsize)] at hentry
      cases hentry
    · rw [bindings_bind env name value (Nat.lt_of_not_le hsize)] at hentry
      split at hentry
      · rcases Assoc.mem_insert hentry with hentry | rfl
        · exact hm.bound scope hscope entry hentry
        · exact hvalue
      · exact hm.bound scope hscope entry hentry

theorem clear_insertAll {arguments : List Value}
    (harguments : ∀ argument ∈ arguments, argument.Clear p scopes) (parameters : List String)
    {bindings : Bindings} (hbindings : ∀ entry ∈ bindings, entry.2.Clear p scopes) :
    ∀ entry ∈ Assoc.insertAll (parameters.zip arguments) bindings, entry.2.Clear p scopes := by
  induction arguments generalizing parameters bindings with
  | nil => rwa [List.zip_nil_right]
  | cons argument rest ih =>
    cases parameters with
    | nil => exact hbindings
    | cons parameter parameters =>
      apply ih (fun _ h => harguments _ (List.mem_cons_of_mem _ h)) parameters
      intro entry hentry
      rcases Assoc.mem_insert hentry with hentry | hvalue
      · exact hbindings entry hentry
      · exact hvalue ▸ harguments argument List.mem_cons_self

theorem Clear.openScope (hm : m.Clear p scopes) (outer : List Nat) {bindings : Bindings}
    (hbindings : ∀ entry ∈ bindings, entry.2.Clear p scopes) :
    (m.openScope outer bindings).2.Clear p scopes := by
  constructor
  · intro scope hscope
    simp only [Machine.openScope, Array.size_push] at hscope
    exact hm.fresh scope (by omega)
  · intro scope hscope entry hentry
    rw [bindings_openScope] at hentry
    split at hentry
    · exact hbindings entry hentry
    · exact hm.bound scope hscope entry hentry

/-- The scope that a session starts with is empty. -/
theorem clear_openSession (start : Machine) : start.openSession.2.Clear p (start.scopes.size ≤ ·) := by
  have hstart : start.Clear p (start.scopes.size ≤ ·) := by
    constructor
    · exact fun _ h => h
    · intro scope hscope entry hentry
      rw [bindings_of_size_le hscope] at hentry
      cases hentry
  exact hstart.openScope [] (List.forall_mem_nil _)

end Machine

end Monkey
