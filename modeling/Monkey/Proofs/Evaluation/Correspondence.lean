import Monkey.Proofs.Evaluation.Holding
import Monkey.Proofs.Evaluation.Renumbering
import Monkey.Session

/-!
# Two runs side by side

Two machines correspond if each scope of the first stands in the second under another number, with the values
in it renumbered, but for some names that are hidden: what they are bound to may be anything
(`Correspondence.Matches`). Scopes and objects still to come are to get corresponding numbers, too; the second
machine may hold more scopes besides, which nothing in the first stands for. An evaluation on the first
machine is tracked by one on the second if they end alike, on corresponding machines
(`Correspondence.Tracks`).

Evaluating a node is tracked by evaluating the same node, with other tokens if need be, in the environment
that stands for the first one (`mirrors_evalWithin`), as long as the node and the functions around name
nothing that is hidden where they look it up. That nothing else is hidden from them needs the values that can
be got at to be clear, and these are the values in the scopes that the first run may look into.
-/

namespace Monkey

/-- The names that a function mentions, its parameters among them. -/
def Value.names : Value → List String
  | .function _ parameters body _ => parameters ++ body.names
  | _ => []

/-- How two runs belong together: how the values of the first stand in the second, which names a scope may
    bind otherwise in the second run, which scopes the first run may look into, and what has been printed before
    on the one side and on the other. -/
structure Correspondence extends Renumbering where
  hidden : Nat → List String
  seen : Nat → Prop
  printed : Array String
  printed' : Array String

/-! ### Hidden names and bindings -/

namespace Bindings

variable {names : List String} {name : String} {bindings : Bindings}

theorem without_nil (bindings : Bindings) : Bindings.without [] bindings = bindings :=
  List.filter_eq_self.mpr fun _ _ => by simp

theorem lookup_without (hname : name ∉ names) (bindings : Bindings) :
    (Bindings.without names bindings).lookup name = bindings.lookup name := by
  induction bindings with
  | nil => rfl
  | cons entry rest ih =>
    obtain ⟨key, value⟩ := entry
    rw [Bindings.without] at ih ⊢
    rw [List.filter_cons, List.lookup_cons]
    split
    · rw [List.lookup_cons, ih]
    · next hkey =>
      have hne : (name == key) = false := by
        rw [beq_eq_false_iff_ne]
        rintro rfl
        simp [hname] at hkey
      rw [ih, hne]

theorem without_insert_of_not_mem (hname : name ∉ names) (value : Value) (bindings : Bindings) :
    Bindings.without names (Assoc.insert name value bindings) =
      Assoc.insert name value (Bindings.without names bindings) := by
  induction bindings with
  | nil => simp [Bindings.without, Assoc.insert, hname]
  | cons entry rest ih =>
    obtain ⟨key, old⟩ := entry
    simp only [Bindings.without, decide_not] at ih ⊢
    by_cases hkey : key = name
    · simp [Assoc.insert, hkey, hname]
    · by_cases hmem : key ∈ names
      · simp [Assoc.insert, hkey, hmem, ih]
      · simp [Assoc.insert, hkey, hmem, ih]

theorem without_mapValues (f : Value → Value) (bindings : Bindings) :
    Bindings.without names (Assoc.mapValues f bindings) =
      Assoc.mapValues f (Bindings.without names bindings) :=
  List.filter_map

end Bindings

namespace Correspondence

variable (c : Correspondence)

/-- No scope of an environment hides a name. -/
def Known (env : Env) (name : String) : Prop :=
  ∀ scope ∈ env.chain, name ∉ c.hidden scope

/-- The first run may look into all scopes of an environment. -/
def Sees (env : Env) : Prop :=
  ∀ scope ∈ env.chain, c.seen scope

/-- A function mentions no name that a scope of its environment hides. -/
def Admits (value : Value) : Prop :=
  ∀ scope ∈ value.captured, ∀ name ∈ value.names, name ∉ c.hidden scope

def Clear (value : Value) : Prop :=
  value.Clear c.Admits c.seen

/-- What is on the first machine stands on the second one, too, and what is still to come will. -/
structure Matches (m m' : Machine) : Prop where
  scopes : ∀ i, c.scope (m.scopes.size + i) = m'.scopes.size + i
  objects : ∀ i, c.object (m.objects + i) = m'.objects + i
  output : ∃ lines, m.output = c.printed ++ lines ∧ m'.output = c.printed' ++ lines
  bindings : ∀ scope, Bindings.without (c.hidden scope) (m'.bindings (c.scope scope)) =
    Assoc.mapValues (Value.renumber c.toRenumbering) (Bindings.without (c.hidden scope) (m.bindings scope))
  fresh : ∀ scope, m.scopes.size ≤ scope → c.hidden scope = []
  clear : m.Clear c.Admits c.seen

variable {c : Correspondence} {α β γ δ : Type}

theorem lenient_admits : Lenient c.Admits := by
  intro value _ _ hbody
  cases value with
  | function => cases hbody
  | _ => exact fun scope hscope => absurd hscope List.not_mem_nil

theorem closed_clear : Closed c.Clear :=
  lenient_admits.closed_clear

theorem clear_error {value : Value} (h : value.isError = true) : c.Clear value := by
  obtain ⟨-, -, hcaptured, hparts⟩ := isError_spec h
  refine .mk ⟨?_, ?_⟩ ?_
  · simp [Admits, hcaptured]
  · simp [hcaptured]
  · simp [hparts]

theorem clear_returning {id : Nat} {value : Value} (h : c.Clear value) : c.Clear (.returning id value) := by
  refine .mk ⟨?_, ?_⟩ ?_
  · exact fun scope hscope => absurd hscope List.not_mem_nil
  · exact fun scope hscope => absurd hscope List.not_mem_nil
  · exact List.forall_mem_singleton.mpr h

/-! ### Corresponding machines -/

section Machines

variable {m m' : Machine} {env : Env} {name : String} {value : Value}

theorem Matches.grown (h : c.Matches m m') (lines : List String) (count : Nat) :
    c.Matches (m.grown lines count) (m'.grown lines count) where
  scopes := h.scopes
  objects i := by
    simp only [Machine.grown, Nat.add_assoc, h.objects]
  output := by
    obtain ⟨before, hm, hm'⟩ := h.output
    exact ⟨before ++ lines.toArray, by simp [Machine.grown, hm], by simp [Machine.grown, hm']⟩
  bindings := h.bindings
  fresh := h.fresh
  clear := h.clear.grown lines count

/-- The scope opened next on the one side stands for the one opened next on the other. -/
theorem Matches.next_scope (h : c.Matches m m') : c.scope m.scopes.size = m'.scopes.size :=
  h.scopes 0

theorem Matches.next_object (h : c.Matches m m') : c.object m.objects = m'.objects :=
  h.objects 0

theorem Matches.scope_lt (h : c.Matches m m') {scope : Nat} :
    c.scope scope < m'.scopes.size ↔ scope < m.scopes.size := by
  constructor
  · intro hlt
    refine Nat.lt_of_not_le fun hle => ?_
    obtain ⟨i, rfl⟩ := Nat.exists_eq_add_of_le hle
    rw [h.scopes] at hlt
    omega
  · intro hlt
    refine Nat.lt_of_not_le fun hle => ?_
    obtain ⟨i, hi⟩ := Nat.exists_eq_add_of_le hle
    rw [← h.scopes, c.scope_inj] at hi
    omega

theorem Matches.lookup_bindings (h : c.Matches m m') {scope : Nat} (hname : name ∉ c.hidden scope) :
    (m'.bindings (c.scope scope)).lookup name =
      ((m.bindings scope).lookup name).map (Value.renumber c.toRenumbering) := by
  rw [← Bindings.lookup_without hname, h.bindings, Assoc.lookup_mapValues, Bindings.lookup_without hname]

theorem Matches.lookup (h : c.Matches m m') (hname : c.Known env name) :
    m'.lookup (env.renumber c.toRenumbering) name =
      (m.lookup env name).map (Value.renumber c.toRenumbering) := by
  rw [Machine.lookup, Machine.lookup, Env.chain_renumber]
  rw [Known] at hname
  generalize env.chain = chain at hname ⊢
  induction chain with
  | nil => rfl
  | cons scope rest ih =>
    obtain ⟨hscope, hrest⟩ := List.forall_mem_cons.mp hname
    rw [List.map_cons, List.findSome?_cons, List.findSome?_cons, h.lookup_bindings hscope]
    cases (m.bindings scope).lookup name with
    | none => exact ih hrest
    | some value => rfl

theorem Matches.bind (h : c.Matches m m') (hname : name ∉ c.hidden env.scope) (hvalue : c.Clear value) :
    c.Matches (m.bind env name value)
      (m'.bind (env.renumber c.toRenumbering) name (value.renumber c.toRenumbering)) where
  scopes i := by
    simp only [Machine.bind, Array.size_modify]
    exact h.scopes i
  objects := h.objects
  output := h.output
  bindings scope := by
    have hold := h.bindings scope
    by_cases hscope : scope < m.scopes.size
    · rw [Machine.bindings_bind _ _ _ hscope, Machine.bindings_bind _ _ _ (h.scope_lt.mpr hscope)]
      have hown : (env.renumber c.toRenumbering).scope = c.scope scope ↔ env.scope = scope := c.scope_inj
      simp only [hown]
      split
      · next hown =>
        subst hown
        rw [Bindings.without_insert_of_not_mem hname, Bindings.without_insert_of_not_mem hname, hold,
          Assoc.insert_mapValues]
      · exact hold
    · have hsize : (m.bind env name value).scopes.size ≤ scope := by
        simpa [Machine.bind] using hscope
      have hsize' : (m'.bind (env.renumber c.toRenumbering) name
          (value.renumber c.toRenumbering)).scopes.size ≤ c.scope scope := by
        simpa [Machine.bind] using Nat.le_of_not_lt (mt h.scope_lt.mp hscope)
      rw [Machine.bindings_of_size_le hsize, Machine.bindings_of_size_le hsize']
      rfl
  fresh scope hscope := h.fresh scope (by simpa [Machine.bind] using hscope)
  clear := h.clear.bind hvalue env name

theorem Matches.openScope (h : c.Matches m m') (outer outer' : List Nat) {bindings : Bindings}
    (hbindings : ∀ entry ∈ bindings, c.Clear entry.2) :
    c.Matches (m.openScope outer bindings).2
      (m'.openScope outer' (Assoc.mapValues (Value.renumber c.toRenumbering) bindings)).2 where
  scopes i := by
    simp only [Machine.openScope, Array.size_push, Nat.add_assoc, h.scopes]
  objects := h.objects
  output := h.output
  bindings scope := by
    have hnew : c.scope scope = m'.scopes.size ↔ scope = m.scopes.size := by
      rw [← h.next_scope, c.scope_inj]
    rw [Machine.bindings_openScope, Machine.bindings_openScope]
    simp only [hnew]
    split
    · rw [Bindings.without_mapValues]
    · exact h.bindings scope
  fresh scope hscope := by
    simp only [Machine.openScope, Array.size_push] at hscope
    exact h.fresh scope (by omega)
  clear := h.clear.openScope outer hbindings

end Machines

/-! ### Tracking -/

/-- Both evaluations give a value or halt, the second one giving the image of the first one's value, and
    leave paired machines. -/
inductive Outcomes (c : Correspondence) {ε : Type} (good : α → Prop) (h : α → β) :
    EStateM.Result ε Machine α → EStateM.Result ε Machine β → Prop where
  | ok {a : α} {m m' : Machine} (ha : good a) (hm : c.Matches m m') : Outcomes c good h (.ok a m) (.ok (h a) m')
  | error {reason : ε} {m m' : Machine} (hm : c.Matches m m') :
      Outcomes c good h (.error reason m) (.error reason m')

/-- On paired machines `x'` does what `x` does. -/
def Tracks (c : Correspondence) (good : α → Prop) (h : α → β) (x : Eval α) (x' : Eval β) : Prop :=
  ∀ m m' : Machine, c.Matches m m' → c.Outcomes good h (x m) (x' m')

/-- What is said of evaluations that give values: the second gives the first one's, renumbered. -/
abbrev Mirrors (c : Correspondence) (x x' : Eval Value) : Prop :=
  c.Tracks c.Clear (Value.renumber c.toRenumbering) x x'

variable {good : α → Prop} {good' : γ → Prop} {h : α → β} {h' : γ → δ}

theorem Tracks.bind {x : Eval α} {x' : Eval β} {f : α → Eval γ} {f' : β → Eval δ}
    (hx : c.Tracks good h x x') (hf : ∀ a, good a → c.Tracks good' h' (f a) (f' (h a))) :
    c.Tracks good' h' (x >>= f) (x' >>= f') := by
  intro m m' hm
  rw [Eval.bind_run, Eval.bind_run]
  have hrun := hx m m' hm
  generalize x m = outcome, x' m' = outcome' at hrun ⊢
  cases hrun with
  | ok ha hm => exact hf _ ha _ _ hm
  | error hm => exact .error hm

theorem tracks_pure {a : α} {b : β} (ha : good a) (hab : b = h a) : c.Tracks good h (pure a) (pure b) := by
  intro m m' hm
  rw [hab]
  exact .ok ha hm

theorem tracks_throw (reason : Halt) : c.Tracks good h (throw reason) (throw reason) :=
  fun _ _ hm => .error hm

theorem Tracks.ite {condition : Prop} [Decidable condition] {yes no : Eval α} {yes' no' : Eval β}
    (hyes : c.Tracks good h yes yes') (hno : c.Tracks good h no no') :
    c.Tracks good h (if condition then yes else no) (if condition then yes' else no') := by
  split
  · exact hyes
  · exact hno

theorem Tracks.proceed {value : Value} {next next' : Eval Value} (hvalue : c.Clear value)
    (hnext : c.Mirrors next next') :
    c.Mirrors (value.proceed next) ((value.renumber c.toRenumbering).proceed next') := by
  simp only [Value.proceed, Value.isError_renumber]
  exact .ite (tracks_pure hvalue rfl) hnext

/-! ### Scopes -/

theorem tracks_lookup {env : Env} {name : String} (henv : c.Sees env) (hname : c.Known env name) :
    c.Tracks (fun found => ∀ value, found = some value → c.Clear value)
      (Option.map (Value.renumber c.toRenumbering)) (Eval.lookup env name)
      (Eval.lookup (env.renumber c.toRenumbering) name) := by
  intro m m' hm
  show c.Outcomes _ _ (.ok (m.lookup env name) m) (.ok (m'.lookup _ name) m')
  rw [hm.lookup hname]
  exact .ok (fun value hvalue => hm.clear.lookup henv hvalue) hm

theorem tracks_bind {env : Env} {name : String} {value : Value} (hname : c.Known env name)
    (hvalue : c.Clear value) :
    c.Tracks (fun _ => True) id (Eval.bind env name value)
      (Eval.bind (env.renumber c.toRenumbering) name (value.renumber c.toRenumbering)) :=
  fun _ _ hm => .ok trivial (hm.bind (hname env.scope List.mem_cons_self) hvalue)

theorem enclosed_run (env : Env) (bindings : Bindings) (m : Machine) : Eval.enclosed env bindings m =
    .ok (m.openScope env.chain bindings).1 (m.openScope env.chain bindings).2 := rfl

/-- A new scope hides nothing, so all that is known outside of it is known inside. -/
theorem tracks_enclosed {env : Env} (henv : c.Sees env) {bindings : Bindings}
    (hbindings : ∀ entry ∈ bindings, c.Clear entry.2) :
    c.Tracks (fun inner => c.Sees inner ∧ ∀ name, c.Known env name → c.Known inner name)
      (Env.renumber c.toRenumbering) (Eval.enclosed env bindings)
      (Eval.enclosed (env.renumber c.toRenumbering)
        (Assoc.mapValues (Value.renumber c.toRenumbering) bindings)) := by
  intro m m' hm
  have hinner : (m'.openScope (env.renumber c.toRenumbering).chain
      (Assoc.mapValues (Value.renumber c.toRenumbering) bindings)).1 =
        (m.openScope env.chain bindings).1.renumber c.toRenumbering := by
    rw [Machine.openScope, ← hm.next_scope]
    rfl
  have hopen := hm.openScope env.chain (env.renumber c.toRenumbering).chain hbindings
  rw [enclosed_run, enclosed_run, hinner]
  refine .ok ⟨?_, fun name hname => ?_⟩ hopen
  · exact List.forall_mem_cons.mpr ⟨hm.clear.fresh _ (Nat.le_refl _), henv⟩
  · refine List.forall_mem_cons.mpr ⟨?_, hname⟩
    show name ∉ c.hidden m.scopes.size
    rw [hm.fresh _ (Nat.le_refl _)]
    exact List.not_mem_nil

/-! ### Primitive steps -/

/-- What is said of primitive steps, apart from the value being clear. -/
abbrev Repeats (c : Correspondence) (x x' : Eval Value) : Prop :=
  c.Tracks (fun _ => True) (Value.renumber c.toRenumbering) x x'

/-- A primitive step gives a clear value of itself. -/
theorem Tracks.of_primitive {x x' : Eval Value} (hprimitive : ∀ m, Eval.Primitive c.Clear x m)
    (hx : c.Repeats x x') : c.Mirrors x x' := by
  intro m m' hm
  obtain ⟨value, lines, count, hrun, -, hvalue⟩ := hprimitive m
  have hclear : c.Clear value := hvalue.elim id fun herror => clear_error herror.1
  have houtcomes := hx m m' hm
  rw [hrun] at houtcomes ⊢
  generalize x' m' = outcome' at houtcomes ⊢
  cases houtcomes with
  | ok _ hm => exact .ok hclear hm

/-- A step that makes a value out of nothing but the number of a new object. -/
theorem repeats_new {form form' : Nat → Value}
    (hform : ∀ id, form' (c.object id) = (form id).renumber c.toRenumbering) :
    c.Repeats (Eval.newObject >>= fun id => pure (form id)) (Eval.newObject >>= fun id => pure (form' id)) := by
  intro m m' hm
  rw [Eval.new_run, Eval.new_run, ← hm.next_object, hform]
  exact .ok trivial (hm.grown [] 1)

section

variable (c)

theorem repeats_boolean (value : Bool) : c.Repeats (pure (.boolean value)) (pure (.boolean value)) :=
  tracks_pure trivial rfl

theorem repeats_integer (value : Int) : c.Repeats (Eval.integer value) (Eval.integer value) :=
  repeats_new fun _ => rfl

theorem repeats_string (text : String) : c.Repeats (Eval.string text) (Eval.string text) :=
  repeats_new fun _ => rfl

theorem repeats_error (fault : Fault) : c.Repeats (Eval.error fault) (Eval.error fault) :=
  repeats_new fun _ => rfl

theorem repeats_array (elements : List Value) :
    c.Repeats (Eval.array elements) (Eval.array (elements.map (Value.renumber c.toRenumbering))) :=
  repeats_new fun _ => by rw [Value.renumber, Value.renumberAll_eq]

theorem applyPrefix_renumber (operator : String) (right : Value) :
    applyPrefix operator (right.renumber c.toRenumbering) = applyPrefix operator right := by
  by_cases hbang : operator = "!"
  · subst hbang
    cases right <;> rfl
  by_cases hminus : operator = "-"
  · subst hminus
    cases right <;> rfl
  simp [applyPrefix, hminus]

theorem repeats_applyPrefix (operator : String) (right : Value) :
    c.Repeats (applyPrefix operator right) (applyPrefix operator (right.renumber c.toRenumbering)) := by
  rw [applyPrefix_renumber]
  unfold applyPrefix
  split
  · exact c.repeats_boolean _
  · exact c.repeats_integer _
  · exact c.repeats_error _

theorem repeats_applyIntegers (operator : String) (a b : Int) :
    c.Repeats (applyIntegers operator a b) (applyIntegers operator a b) := by
  unfold applyIntegers
  split
  · exact c.repeats_integer _
  · exact c.repeats_integer _
  · exact c.repeats_integer _
  · exact .ite (c.repeats_error _) (c.repeats_integer _)
  · exact c.repeats_boolean _
  · exact c.repeats_boolean _
  · exact c.repeats_boolean _
  · exact c.repeats_boolean _
  · exact c.repeats_error _

theorem repeats_applyStrings (operator : String) (a b : String) :
    c.Repeats (applyStrings operator a b) (applyStrings operator a b) := by
  unfold applyStrings
  split
  · exact c.repeats_string _
  · exact c.repeats_error _

theorem repeats_applyMixed (operator : String) (left right : Value) :
    c.Repeats (applyMixed operator left right) (applyMixed operator left right) := by
  unfold applyMixed
  split
  · exact c.repeats_boolean _
  · exact c.repeats_boolean _
  · exact .ite (c.repeats_error _) (c.repeats_error _)

theorem applyMixed_renumber (operator : String) (left right : Value) :
    applyMixed operator (left.renumber c.toRenumbering) (right.renumber c.toRenumbering) =
      applyMixed operator left right := by
  simp only [applyMixed, Value.same_renumber, Value.kind_renumber]

theorem applyBinary_renumber (operator : String) (left right : Value) :
    applyBinary operator (left.renumber c.toRenumbering) (right.renumber c.toRenumbering) =
      applyBinary operator left right := by
  cases left <;> cases right <;> first | rfl | exact c.applyMixed_renumber operator _ _

theorem repeats_applyBinary (operator : String) (left right : Value) :
    c.Repeats (applyBinary operator left right)
      (applyBinary operator (left.renumber c.toRenumbering) (right.renumber c.toRenumbering)) := by
  rw [applyBinary_renumber]
  unfold applyBinary
  split
  · exact c.repeats_applyIntegers _ _ _
  · exact c.repeats_applyStrings _ _ _
  · exact c.repeats_applyMixed _ _ _

theorem elementAt_map (elements : List Value) (i : Int) :
    elementAt (elements.map (Value.renumber c.toRenumbering)) i =
      (elementAt elements i).renumber c.toRenumbering := by
  unfold elementAt
  split
  · rfl
  · rw [List.getD_eq_getElem?_getD, List.getD_eq_getElem?_getD, List.getElem?_map]
    cases elements[i.toNat]? <;> rfl

theorem valueAt_mapValues (entries : List (HashKey × Value × Value)) (key : HashKey) :
    valueAt (Assoc.mapValues (Prod.map (Value.renumber c.toRenumbering) (Value.renumber c.toRenumbering)) entries)
      key = (valueAt entries key).renumber c.toRenumbering := by
  rw [valueAt, valueAt, Assoc.lookup_mapValues]
  cases entries.lookup key <;> rfl

theorem repeats_applyIndex (left subscript : Value) :
    c.Repeats (applyIndex left subscript)
      (applyIndex (left.renumber c.toRenumbering) (subscript.renumber c.toRenumbering)) := by
  cases left with
  | array id elements =>
    cases subscript with
    | integer _ i =>
      refine tracks_pure trivial ?_
      rw [Value.renumberAll_eq, elementAt_map]
    | _ => exact tracks_pure trivial rfl
  | hash id entries =>
    simp only [applyIndex, Value.renumber, Value.hashKey?_renumber, Value.renumberEntries_eq]
    cases subscript.hashKey? with
    | some key => exact tracks_pure trivial (c.valueAt_mapValues entries key)
    | none =>
      simp only [Value.kind_renumber]
      exact c.repeats_error _
  | _ => exact tracks_pure trivial rfl

theorem tracks_forM_print (arguments : List Value) :
    c.Tracks (fun _ => True) id (arguments.forM fun argument => Eval.print argument.inspect)
      ((arguments.map (Value.renumber c.toRenumbering)).forM fun argument => Eval.print argument.inspect) := by
  intro m m' hm
  have hlines : (arguments.map (Value.renumber c.toRenumbering)).map Value.inspect =
      arguments.map Value.inspect := by
    rw [List.map_map]
    exact List.map_congr_left fun argument _ => Value.inspect_renumber argument
  rw [Eval.forM_print, Eval.forM_print, hlines]
  exact .ok trivial (hm.grown _ 0)

theorem repeats_applyKnown (builtin : Builtin) (arguments : List Value) :
    c.Repeats (builtin.applyKnown arguments)
      (builtin.applyKnown (arguments.map (Value.renumber c.toRenumbering))) := by
  have hmap : ∀ id elements, (Value.array id elements).renumber c.toRenumbering =
      .array (c.object id) (elements.map (Value.renumber c.toRenumbering)) := fun id elements => by
    rw [Value.renumber, Value.renumberAll_eq]
  cases arguments with
  | nil =>
    cases builtin with
    | puts => exact (c.tracks_forM_print []).bind fun _ _ => tracks_pure trivial rfl
    | _ => exact tracks_pure trivial rfl
  | cons argument rest =>
    cases builtin with
    | puts => exact (c.tracks_forM_print (argument :: rest)).bind fun _ _ => tracks_pure trivial rfl
    | len =>
      cases argument with
      | array _ elements =>
        rw [List.map_cons, hmap]
        simp only [Builtin.applyKnown, List.length_map]
        exact c.repeats_integer _
      | string =>
        cases rest with
        | nil => exact c.repeats_integer _
        | cons => exact c.repeats_error _
      | _ => exact c.repeats_error _
    | first =>
      cases argument with
      | array _ elements =>
        rw [List.map_cons, hmap]
        exact tracks_pure trivial (by cases elements <;> rfl)
      | _ => exact c.repeats_error _
    | last =>
      cases argument with
      | array _ elements =>
        rw [List.map_cons, hmap]
        refine tracks_pure trivial ?_
        rw [List.getLastD_eq_getLast?, List.getLastD_eq_getLast?, List.getLast?_map]
        cases elements.getLast? <;> rfl
      | _ => exact c.repeats_error _
    | rest =>
      cases argument with
      | array _ elements =>
        rw [List.map_cons, hmap]
        cases elements with
        | nil => exact tracks_pure trivial rfl
        | cons first elements => exact c.repeats_array elements
      | _ => exact c.repeats_error _
    | push =>
      cases argument with
      | array _ elements =>
        rw [List.map_cons, hmap]
        match rest with
        | [element] =>
          have harray := c.repeats_array (elements ++ [element])
          rwa [List.map_append] at harray
        | [] | _ :: _ :: _ => exact c.repeats_error _
      | _ => exact c.repeats_error _

theorem repeats_builtin (builtin : Builtin) (arguments : List Value) :
    c.Repeats (builtin.apply arguments)
      (builtin.apply (arguments.map (Value.renumber c.toRenumbering))) := by
  simp only [Builtin.apply, List.length_map]
  split
  · exact c.repeats_applyKnown builtin arguments
  · exact .ite (c.repeats_applyKnown builtin arguments) (c.repeats_error _)

end

theorem mirrors_error (fault : Fault) : c.Mirrors (Eval.error fault) (Eval.error fault) :=
  .of_primitive (fun _ => Eval.primitive_error fault) (c.repeats_error fault)

theorem mirrors_null : c.Mirrors (pure .null) (pure .null) :=
  tracks_pure (closed_clear.atom rfl) rfl

theorem mirrors_array {elements : List Value} (helements : ∀ element ∈ elements, c.Clear element) :
    c.Mirrors (Eval.array elements) (Eval.array (elements.map (Value.renumber c.toRenumbering))) :=
  .of_primitive (fun _ => Eval.primitive_array closed_clear helements) (c.repeats_array elements)

theorem mirrors_hash {entries : List (HashKey × Value × Value)}
    (hentries : ∀ entry ∈ entries, c.Clear entry.2.1 ∧ c.Clear entry.2.2) :
    c.Mirrors (Eval.hash entries) (Eval.hash (Assoc.mapValues
      (Prod.map (Value.renumber c.toRenumbering) (Value.renumber c.toRenumbering)) entries)) :=
  .of_primitive (fun _ => Eval.primitive_hash closed_clear hentries)
    (repeats_new fun _ => by rw [Value.renumber, Value.renumberEntries_eq])

theorem mirrors_new {form form' : Nat → Value}
    (hform : ∀ id, form' (c.object id) = (form id).renumber c.toRenumbering)
    (hclear : ∀ id, c.Clear (form id)) :
    c.Mirrors (Eval.newObject >>= fun id => pure (form id)) (Eval.newObject >>= fun id => pure (form' id)) :=
  .of_primitive (fun _ => Eval.primitive_new fun id => .inl (hclear id)) (repeats_new hform)

theorem mirrors_evalName {env : Env} {name : String} (henv : c.Sees env) (hname : c.Known env name) :
    c.Mirrors (evalName env name) (evalName (env.renumber c.toRenumbering) name) := by
  refine (tracks_lookup henv hname).bind fun found hfound => ?_
  cases found with
  | some value => exact tracks_pure (hfound value rfl) rfl
  | none =>
    simp only [Option.map_none]
    split
    · exact tracks_pure (closed_clear.atom rfl) rfl
    · exact mirrors_error _

/-! ### Constructs -/

/-- What evaluating a list gives, renumbered. -/
def renumberResult (r : Renumbering) : Except Value (List Value) → Except Value (List Value)
  | .ok values => .ok (values.map (Value.renumber r))
  | .error failure => .error (failure.renumber r)

def ClearResult (c : Correspondence) : Except Value (List Value) → Prop
  | .ok values => ∀ value ∈ values, c.Clear value
  | .error failure => c.Clear failure

section Constructs

variable {evalBody : Node → Env → Eval Value}
  (hbody : ∀ body env, c.Sees env → (∀ name ∈ body.names, c.Known env name) →
    c.Mirrors (evalBody body env) (evalBody (body.relabel c.tokens) (env.renumber c.toRenumbering)))

include hbody

theorem mirrors_applyWith {callee : Value} {arguments : List Value} (hcallee : c.Clear callee)
    (harguments : ∀ argument ∈ arguments, c.Clear argument) :
    c.Mirrors (applyWith evalBody callee arguments)
      (applyWith evalBody (callee.renumber c.toRenumbering)
        (arguments.map (Value.renumber c.toRenumbering))) := by
  cases callee with
  | function id parameters body env =>
    simp only [applyWith, Value.renumber, List.length_map]
    refine .ite (mirrors_error _) ?_
    have hbindings : Assoc.insertAll (parameters.zip (arguments.map (Value.renumber c.toRenumbering))) [] =
        Assoc.mapValues (Value.renumber c.toRenumbering) (Assoc.insertAll (parameters.zip arguments) []) := by
      rw [List.zip_map_right]
      exact Assoc.insertAll_mapValues (Value.renumber c.toRenumbering) _ []
    have henv : c.Sees env := hcallee.here.2
    have hnames : ∀ name ∈ body.names, c.Known env name := fun name hname scope hscope =>
      hcallee.has scope hscope name (List.mem_append_right _ hname)
    have hclear := Machine.clear_insertAll harguments parameters (List.forall_mem_nil _)
    rw [hbindings]
    refine (tracks_enclosed henv hclear).bind fun inner hinner => ?_
    refine (hbody body inner hinner.1 fun name hname => hinner.2 name (hnames name hname)).bind ?_
    exact fun value hvalue => tracks_pure (clear_unwrapped hvalue) (Value.unwrapped_renumber value)
  | builtin builtin =>
    exact .of_primitive (fun _ => Eval.primitive_builtin closed_clear builtin harguments)
      (c.repeats_builtin builtin arguments)
  | _ => exact mirrors_error _

variable {env : Env} (henv : c.Sees env)

include henv

set_option linter.unusedSectionVars false in
mutual

theorem mirrors_evalWith (node : Node) (hnames : ∀ name ∈ node.names, c.Known env name) :
    c.Mirrors (node.evalWith evalBody env)
      ((node.relabel c.tokens).evalWith evalBody (env.renumber c.toRenumbering)) := by
  cases node with
  | missing => exact tracks_throw _
  | program statements =>
    refine (mirrors_evalSequence statements hnames .null (closed_clear.atom rfl)).bind fun value hvalue => ?_
    exact tracks_pure (clear_unwrapped hvalue) (Value.unwrapped_renumber value)
  | block _ statements => exact mirrors_evalSequence statements hnames .null (closed_clear.atom rfl)
  | expressionStatement _ expression => exact mirrors_evalWith expression hnames
  | letStatement _ target value =>
    obtain ⟨htarget, hvalue⟩ := List.forall_mem_cons.mp hnames
    refine (mirrors_evalWith value hvalue).bind fun result hresult => .proceed hresult ?_
    exact (tracks_bind htarget hresult).bind fun _ _ => mirrors_null
  | returnStatement _ value =>
    refine (mirrors_evalWith value hnames).bind fun result hresult => .proceed hresult ?_
    exact mirrors_new (fun _ => rfl) fun id => clear_returning hresult
  | identifier name => exact mirrors_evalName henv (hnames name.name List.mem_cons_self)
  | integer _ value => exact mirrors_new (fun _ => rfl) fun id => closed_clear.atom rfl
  | string _ value => exact mirrors_new (fun _ => rfl) fun id => closed_clear.atom rfl
  | boolean => exact tracks_pure (closed_clear.atom rfl) rfl
  | prefixed _ operator right =>
    refine (mirrors_evalWith right hnames).bind fun operand hoperand => .proceed hoperand ?_
    exact .of_primitive (fun _ => Eval.primitive_applyPrefix closed_clear operator operand)
      (c.repeats_applyPrefix operator operand)
  | binary _ left operator right =>
    obtain ⟨hleft, hright⟩ := List.forall_mem_append.mp hnames
    refine (mirrors_evalWith left hleft).bind fun first hfirst => .proceed hfirst ?_
    refine (mirrors_evalWith right hright).bind fun second hsecond => .proceed hsecond ?_
    exact .of_primitive (fun _ => Eval.primitive_applyBinary closed_clear operator first second)
      (c.repeats_applyBinary operator first second)
  | conditional _ condition consequence alternative =>
    obtain ⟨hcondition, hbranches⟩ := List.forall_mem_append.mp hnames
    obtain ⟨hconsequence, halternative⟩ := List.forall_mem_append.mp hbranches
    refine (mirrors_evalWith condition hcondition).bind fun test htest => .proceed htest ?_
    rw [Value.isTruthy_renumber, Node.isMissing_relabel]
    refine .ite (mirrors_evalWith consequence hconsequence) (.ite mirrors_null ?_)
    exact mirrors_evalWith alternative halternative
  | function _ parameters body =>
    refine mirrors_new (fun id => ?_) fun id => ?_
    · rw [Node.names_relabel]
      rfl
    · exact clear_function (fun scope hscope name hname => hnames name hname scope hscope) henv
  | call _ callee arguments =>
    obtain ⟨hcallee, harguments⟩ := List.forall_mem_append.mp hnames
    refine (mirrors_evalWith callee hcallee).bind fun function hfunction => .proceed hfunction ?_
    refine (tracks_evalAll arguments harguments).bind fun result hresult => ?_
    cases result with
    | ok values => exact mirrors_applyWith hbody hfunction hresult
    | error failure => exact tracks_pure hresult rfl
  | array _ elements =>
    refine (tracks_evalAll elements hnames).bind fun result hresult => ?_
    cases result with
    | ok values => exact mirrors_array hresult
    | error failure => exact tracks_pure hresult rfl
  | index _ left subscript =>
    obtain ⟨hleft, hsubscript⟩ := List.forall_mem_append.mp hnames
    refine (mirrors_evalWith left hleft).bind fun first hfirst => .proceed hfirst ?_
    refine (mirrors_evalWith subscript hsubscript).bind fun second hsecond => .proceed hsecond ?_
    exact .of_primitive (fun _ => Eval.primitive_applyIndex closed_clear hfirst second)
      (c.repeats_applyIndex first second)
  | hash _ pairs => exact mirrors_evalPairs pairs hnames [] (List.forall_mem_nil _)

theorem mirrors_evalSequence (statements : List Node)
    (hnames : ∀ name ∈ Node.namesAll statements, c.Known env name) (last : Value) (hlast : c.Clear last) :
    c.Mirrors (evalSequence evalBody env last statements)
      (evalSequence evalBody (env.renumber c.toRenumbering) (last.renumber c.toRenumbering)
        (Node.relabelAll c.tokens statements)) := by
  match statements with
  | [] => exact tracks_pure hlast rfl
  | statement :: rest =>
    obtain ⟨hstatement, hrest⟩ := List.forall_mem_append.mp hnames
    refine (mirrors_evalWith statement hstatement).bind fun result hresult => ?_
    rw [Value.isReturning_renumber, Value.isError_renumber]
    exact .ite (tracks_pure hresult rfl) (mirrors_evalSequence rest hrest result hresult)

theorem tracks_evalAll (expressions : List Node)
    (hnames : ∀ name ∈ Node.namesAll expressions, c.Known env name) :
    c.Tracks c.ClearResult (renumberResult c.toRenumbering) (evalAll evalBody env expressions)
      (evalAll evalBody (env.renumber c.toRenumbering) (Node.relabelAll c.tokens expressions)) := by
  match expressions with
  | [] => exact tracks_pure (List.forall_mem_nil _) rfl
  | expression :: rest =>
    obtain ⟨hexpression, hrest⟩ := List.forall_mem_append.mp hnames
    refine (mirrors_evalWith expression hexpression).bind fun value hvalue => ?_
    rw [Value.isError_renumber]
    refine .ite (tracks_pure hvalue rfl) ((tracks_evalAll rest hrest).bind fun result hresult => ?_)
    cases result with
    | ok values => exact tracks_pure (List.forall_mem_cons.mpr ⟨hvalue, hresult⟩) rfl
    | error failure => exact tracks_pure hresult rfl

theorem mirrors_evalPairs (pairs : List (Node × Node))
    (hnames : ∀ name ∈ Node.namesPairs pairs, c.Known env name)
    (entries : List (HashKey × Value × Value))
    (hentries : ∀ entry ∈ entries, c.Clear entry.2.1 ∧ c.Clear entry.2.2) :
    c.Mirrors (evalPairs evalBody env entries pairs)
      (evalPairs evalBody (env.renumber c.toRenumbering)
        (Assoc.mapValues (Prod.map (Value.renumber c.toRenumbering) (Value.renumber c.toRenumbering)) entries)
        (Node.relabelPairs c.tokens pairs)) := by
  match pairs with
  | [] => exact mirrors_hash hentries
  | (left, right) :: rest =>
    obtain ⟨hleft, hboth⟩ := List.forall_mem_append.mp hnames
    obtain ⟨hright, hrest⟩ := List.forall_mem_append.mp hboth
    refine (mirrors_evalWith left hleft).bind fun key hkey => .proceed hkey ?_
    rw [Value.hashKey?_renumber, Value.kind_renumber]
    cases key.hashKey? with
    | none => exact mirrors_error _
    | some hashKey =>
      refine (mirrors_evalWith right hright).bind fun value hvalue => .proceed hvalue ?_
      have hinserted : ∀ entry ∈ Assoc.insert hashKey (key, value) entries,
          c.Clear entry.2.1 ∧ c.Clear entry.2.2 := by
        intro entry hentry
        rcases Assoc.mem_insert hentry with hentry | hentry
        · exact hentries entry hentry
        · rw [hentry]
          exact ⟨hkey, hvalue⟩
      have hrest := mirrors_evalPairs rest hrest (Assoc.insert hashKey (key, value) entries) hinserted
      rwa [← Assoc.insert_mapValues] at hrest

end

end Constructs

/-- Evaluating a node that names nothing hidden, with other tokens and in the environment that stands for the
    first one, does what evaluating the node does. -/
theorem mirrors_evalWithin (depth : Nat) (node : Node) {env : Env} (henv : c.Sees env)
    (hnames : ∀ name ∈ node.names, c.Known env name) :
    c.Mirrors (node.evalWithin depth env)
      ((node.relabel c.tokens).evalWithin depth (env.renumber c.toRenumbering)) := by
  induction depth generalizing node env with
  | zero => exact tracks_throw _
  | succ depth ih => exact mirrors_evalWith (fun body env => ih body) henv node hnames

end Correspondence

end Monkey
