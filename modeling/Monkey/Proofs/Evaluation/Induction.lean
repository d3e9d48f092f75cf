import Monkey.Proofs.Evaluation.Holding

/-!
# Induction over evaluations

A property of evaluations that holds of the primitive steps, and passes from the evaluations of the parts
of a construct to that of the construct, holds of all evaluations: by induction over the syntax tree, and
for calls over how deep they nest. `Traced.Structural` says what is to be shown of the property, construct
by construct, and `Structural.holds_tracedWithin` that it is enough.

The property is shown along with two others. One is of the values around, which keeps evaluations apart
that start among different values. The other is of the nodes evaluated, which are those of a program and
of the functions among these values, and hold whatever their parts hold too.

Most properties do not ask what a value is, as long as nothing is wrong with the functions, the errors and
the pending returns in it (`Value.Clear`, `Admissible`). For these there is less to be shown:
`Traced.Compositional`.
-/

namespace Monkey

open Traced

/-! ### The parts of a node -/

/-- The parts whose values a construct goes on with. -/
def Node.taken : Node → List Node
  | .letStatement _ _ value | .returnStatement _ value | .prefixed _ _ value => [value]
  | .binary _ left _ right | .index _ left right => [left, right]
  | .conditional _ condition _ _ => [condition]
  | .call _ callee arguments => callee :: arguments
  | .array _ elements => elements
  | .hash _ pairs => pairs.flatMap fun pair => [pair.1, pair.2]
  | _ => []

/-- The parts whose values are handed on as they are, and the body of a function. -/
def Node.handed : Node → List Node
  | .program statements | .block _ statements => statements
  | .expressionStatement _ expression => [expression]
  | .conditional _ _ consequence alternative =>
    if alternative.isMissing then [consequence] else [consequence, alternative]
  | .function _ _ body => [body]
  | _ => []

/-- A node contains itself, its parts, their parts and so on. -/
inductive Node.Contains : Node → Node → Prop where
  | refl {node : Node} : node.Contains node
  | taken {node part inner : Node} (hpart : part ∈ node.taken) (h : part.Contains inner) :
      node.Contains inner
  | handed {node part inner : Node} (hpart : part ∈ node.handed) (h : part.Contains inner) :
      node.Contains inner

mutual

/-- Whether a node may have a pending return as its value: if there is a `return` among the statements
    that its value is handed on from. -/
def Node.mayReturn : Node → Bool
  | .returnStatement .. => true
  | .block _ statements => anyMayReturn statements
  | .expressionStatement _ expression => expression.mayReturn
  | .conditional _ _ consequence alternative => consequence.mayReturn || alternative.mayReturn
  | _ => false

def anyMayReturn : List Node → Bool
  | [] => false
  | node :: rest => node.mayReturn || anyMayReturn rest

end

/-! ### The induction -/

/-- What an induction over evaluations rests on. The property `P` is one of evaluations, of those that may
    give a pending return and of those that may not. The others say among what it is shown: which nodes are
    evaluated, which values are around, which entries hashes are made of, and which environments names are
    looked up in. -/
structure Traced.Structural (code : Node → Prop) (good : Value → Prop)
    (fit : List (HashKey × Value × Value) → Prop) (home : Env → Prop) (P : Bool → Traced Value → Prop) :
    Prop where
  -- the nodes around
  taken {node part : Node} : code node → part ∈ node.taken → code part
  handed {node part : Node} : code node → part ∈ node.handed → code part
  body {id : Nat} {parameters : List String} {body : Node} {env : Env} :
    good (.function id parameters body env) → code body
  -- evaluations put together
  weaken {may may' : Bool} {x : Traced Value} : P may x → (may = true → may' = true) → P may' x
  entering {may : Bool} {node : Node} {x : Traced Value} (hnode : code node) (hx : P may x) :
    P may (note (.entered node) (pure ()) >>= fun _ => x)
  taking {may : Bool} {node part : Node} {x : Traced Value} {next : Value → Traced Value}
    (hnode : code node) (hpart : part ∈ node.taken) (hx : P part.mayReturn x)
    (hnext : ∀ value, good value → P may (next value)) : P may (take part x next)
  handingOn {may may' : Bool} {x : Traced Value} {next : Value → Traced Value} (hx : P may x)
    (hnext : ∀ value, good value → P may' (next value))
    (hsignal : ∀ value : Value, (value.isReturning || value.isError) = true → next value = pure value) :
    P (may || may') (x >>= next)
  finishing {may : Bool} {x : Traced Value} (hx : P may x) : P false (x >>= finish)
  -- evaluations that evaluate no part
  missing (hmissing : code .missing) : P false fun m => ⟨[], .error .missingNode m⟩
  tooDeep : P false fun m => ⟨[], .error .tooDeep m⟩
  null : good .null
  giving {value : Value} (hvalue : good value) : P false (pure value)
  boolean (value : Bool) : P false (pure (.boolean value))
  error (fault : Fault) : P false (step (Eval.error fault))
  integer {token : Token} {value : Int} (hnode : code (.integer token value)) :
    P false (step (Eval.integer value))
  string (text : String) : P false (step (Eval.string text))
  array {elements : List Value} (helements : ∀ element ∈ elements, good element) :
    P false (step (Eval.array elements))
  function {env : Env} {token : Token} {parameters : List Identifier} {body : Node} (henv : home env)
    (hnode : code (.function token parameters body)) :
    P false (step (Eval.function (parameters.map Identifier.name) body env))
  returning {value : Value} (hvalue : good value) : P true (step (Eval.returning value))
  name {env : Env} (henv : home env) (name : String) : P false (step (evalName env name))
  prefixed (operator : String) {operand : Value} (hoperand : good operand) :
    P false (step (applyPrefix operator operand))
  binary (operator : String) {first second : Value} (hfirst : good first) (hsecond : good second) :
    P false (step (applyBinary operator first second))
  index {first second : Value} (hfirst : good first) (hsecond : good second) :
    P false (step (applyIndex first second))
  -- hashes, from no entry on
  noEntries : fit []
  entry {entries : List (HashKey × Value × Value)} {hashKey : HashKey} {key value : Value}
    (hentries : fit entries) (hkey : key.hashKey? = some hashKey) (hgood : good key) (hvalue : good value) :
    fit (Assoc.insert hashKey (key, value) entries)
  hash {entries : List (HashKey × Value × Value)} (hentries : fit entries) :
    P false (step (Eval.hash entries))
  -- scopes
  binding {env : Env} (henv : home env) (name : String) {value : Value} (hvalue : good value) :
    P false (note (.bound env.scope name value) (Eval.bind env name value) >>= fun _ => pure .null)
  callingBuiltin (builtin : Builtin) {arguments : List Value}
    (harguments : ∀ argument ∈ arguments, good argument) :
    P false (note (.called (.builtin builtin) arguments) (pure ()) >>= fun _ =>
      step (builtin.apply arguments))
  calling {id : Nat} {parameters : List String} {body : Node} {env : Env} {arguments : List Value}
    {traceBody : Env → Traced Value} (hcallee : good (.function id parameters body env))
    (harguments : ∀ argument ∈ arguments, good argument)
    (hbody : ∀ inner, home inner → P body.mayReturn (traceBody inner)) :
    P false (note (.called (.function id parameters body env) arguments)
      (Eval.enclosed env (Assoc.insertAll (parameters.zip arguments) [])) >>= fun inner =>
        traceBody inner >>= finish)

namespace Traced.Structural

variable {code : Node → Prop} {good : Value → Prop} {fit : List (HashKey × Value × Value) → Prop}
  {home : Env → Prop} {P : Bool → Traced Value → Prop} {traceBody : Node → Env → Traced Value}
  (hP : Structural code good fit home P)
  (hbody : ∀ body env, code body → home env → P body.mayReturn (traceBody body env))

include hP hbody

theorem holds_applyTraced {callee : Value} {arguments : List Value} (hcallee : good callee)
    (harguments : ∀ argument ∈ arguments, good argument) :
    P false (applyTraced traceBody callee arguments) := by
  cases callee with
  | function id parameters body env =>
    rw [applyTraced]
    split
    · exact hP.error _
    · exact hP.calling hcallee harguments fun inner => hbody body inner (hP.body hcallee)
  | builtin builtin => exact hP.callingBuiltin builtin harguments
  | _ => exact hP.error _

variable {env : Env} (henv : home env)

include henv

set_option linter.unusedSectionVars false in
mutual

theorem holds_tracedWith (node : Node) (hnode : code node) :
    P node.mayReturn (node.tracedWith traceBody env) := by
  rw [Node.tracedWith.eq_def]
  apply hP.entering hnode
  cases node with
  | missing => exact hP.missing hnode
  | program statements =>
    exact hP.finishing (holds_tracedSequence statements (fun _ h => hP.handed hnode h) hP.null)
  | block _ statements =>
    rw [Node.mayReturn]
    exact holds_tracedSequence statements (fun _ h => hP.handed hnode h) hP.null
  | expressionStatement _ expression =>
    rw [Node.mayReturn]
    exact holds_tracedWith expression (hP.handed hnode List.mem_cons_self)
  | letStatement _ target value =>
    have hvalue := holds_tracedWith value (hP.taken hnode List.mem_cons_self)
    exact hP.taking hnode List.mem_cons_self hvalue fun result => hP.binding henv target.name
  | returnStatement _ value =>
    have hvalue := holds_tracedWith value (hP.taken hnode List.mem_cons_self)
    exact hP.taking hnode List.mem_cons_self hvalue fun result => hP.returning
  | identifier name => exact hP.name henv name.name
  | integer _ value => exact hP.integer hnode
  | string _ value => exact hP.string value
  | boolean _ value => exact hP.boolean value
  | prefixed _ operator right =>
    have hright := holds_tracedWith right (hP.taken hnode List.mem_cons_self)
    exact hP.taking hnode List.mem_cons_self hright fun operand => hP.prefixed operator
  | binary _ left operator right =>
    have hmem : right ∈ [left, right] := by simp
    have hleft := holds_tracedWith left (hP.taken hnode List.mem_cons_self)
    have hright := holds_tracedWith right (hP.taken hnode hmem)
    apply hP.taking hnode List.mem_cons_self hleft
    intro first hfirst
    exact hP.taking hnode hmem hright fun second => hP.binary operator hfirst
  | conditional _ condition consequence alternative =>
    have hcondition := holds_tracedWith condition (hP.taken hnode List.mem_cons_self)
    rw [Node.mayReturn]
    apply hP.taking hnode List.mem_cons_self hcondition
    intro test _
    split
    · have hconsequence : code consequence := hP.handed hnode (by rw [Node.handed]; split <;> simp)
      exact hP.weaken (holds_tracedWith consequence hconsequence) (by simp +contextual)
    · by_cases hmissing : alternative.isMissing = true
      · rw [if_pos hmissing]
        exact hP.weaken (hP.giving hP.null) (by simp)
      · have halternative : code alternative :=
          hP.handed hnode (by rw [Node.handed, if_neg hmissing]; simp)
        rw [if_neg hmissing]
        exact hP.weaken (holds_tracedWith alternative halternative) (by simp +contextual)
  | function _ parameters body => exact hP.function henv hnode
  | call _ callee arguments =>
    have hcallee := holds_tracedWith callee (hP.taken hnode List.mem_cons_self)
    apply hP.taking hnode List.mem_cons_self hcallee
    intro function hfunction
    apply holds_tracedAll arguments hnode (fun _ h => List.mem_cons_of_mem _ h)
    intro values hvalues
    exact holds_applyTraced hP hbody hfunction hvalues
  | array _ elements =>
    exact holds_tracedAll elements hnode (fun _ h => h) fun values hvalues => hP.array hvalues
  | index _ left subscript =>
    have hmem : subscript ∈ [left, subscript] := by simp
    have hleft := holds_tracedWith left (hP.taken hnode List.mem_cons_self)
    have hsubscript := holds_tracedWith subscript (hP.taken hnode hmem)
    apply hP.taking hnode List.mem_cons_self hleft
    intro first hfirst
    exact hP.taking hnode hmem hsubscript fun second => hP.index hfirst
  | hash _ pairs => exact holds_tracedPairs pairs hnode (fun _ h => h) hP.noEntries

theorem holds_tracedSequence (statements : List Node) (hcode : ∀ statement ∈ statements, code statement)
    {last : Value} (hlast : good last) :
    P (anyMayReturn statements) (tracedSequence traceBody env last statements) := by
  cases statements with
  | nil => exact hP.giving hlast
  | cons statement rest =>
    obtain ⟨hstatement, hrest⟩ := List.forall_mem_cons.mp hcode
    rw [anyMayReturn]
    refine hP.handingOn (holds_tracedWith statement hstatement) (fun result hresult => ?_) fun _ h => if_pos h
    split
    · exact hP.weaken (hP.giving hresult) (by simp)
    · exact holds_tracedSequence rest hrest hresult

theorem holds_tracedAll (expressions : List Node) {node : Node} (hnode : code node)
    (htaken : ∀ expression ∈ expressions, expression ∈ node.taken) {next : List Value → Traced Value}
    (hnext : ∀ values : List Value, (∀ value ∈ values, good value) → P false (next values)) :
    P false (tracedAll traceBody env expressions next) := by
  cases expressions with
  | nil => exact hnext [] (by simp)
  | cons expression rest =>
    obtain ⟨hexpression, hrest⟩ := List.forall_mem_cons.mp htaken
    have hfirst := holds_tracedWith expression (hP.taken hnode hexpression)
    apply hP.taking hnode hexpression hfirst
    intro value hvalue
    refine holds_tracedAll rest hnode hrest fun values hvalues => hnext (value :: values) ?_
    exact List.forall_mem_cons.mpr ⟨hvalue, hvalues⟩

theorem holds_tracedPairs (pairs : List (Node × Node)) {node : Node} (hnode : code node)
    (htaken : ∀ part ∈ pairs.flatMap fun pair => [pair.1, pair.2], part ∈ node.taken)
    {entries : List (HashKey × Value × Value)} (hentries : fit entries) :
    P false (tracedPairs traceBody env entries pairs) := by
  match pairs with
  | [] => exact hP.hash hentries
  | (left, right) :: rest =>
    rw [List.flatMap_cons, List.forall_mem_append, List.forall_mem_cons, List.forall_mem_singleton] at htaken
    rcases htaken with ⟨⟨hleft, hright⟩, hrest⟩
    rw [tracedPairs]
    apply hP.taking hnode hleft (holds_tracedWith left (hP.taken hnode hleft))
    intro key hkey
    cases hhash : key.hashKey? with
    | none => exact hP.error _
    | some hashKey =>
      apply hP.taking hnode hright (holds_tracedWith right (hP.taken hnode hright))
      intro value hvalue
      exact holds_tracedPairs rest hnode hrest (hP.entry hentries hhash hkey hvalue)

end

omit hbody henv in
/-- Such a property is one of all evaluations, however deep they may nest. -/
theorem holds_tracedWithin (depth : Nat) {node : Node} (hnode : code node) (henv : home env) :
    P node.mayReturn (node.tracedWithin depth env) := by
  induction depth generalizing node env with
  | zero => exact hP.weaken hP.tooDeep (by simp)
  | succ depth ih => exact holds_tracedWith hP (fun _ _ hcode henv => ih hcode henv) henv node hnode

end Traced.Structural

/-! ### Properties that leave the values as they are -/

/-- A property of nodes that passes to their parts, and one of values that a function has exactly if its
    body has the former. -/
structure Admissible (code : Node → Prop) (p : Value → Prop) : Prop where
  taken {node part : Node} : code node → part ∈ node.taken → code part
  handed {node part : Node} : code node → part ∈ node.handed → code part
  lenient : Lenient p
  function {id : Nat} {parameters : List String} {body : Node} {env : Env} :
    p (.function id parameters body env) ↔ code body

/-- A property of evaluations, of those that may give a pending return and of those that may not, which
    the primitive steps have and which passes from parts to constructs. -/
structure Traced.Compositional (code : Node → Prop) (p : Value → Prop) (scopes : Nat → Prop)
    (P : Bool → Traced Value → Prop) : Prop where
  weaken {may may' : Bool} {x : Traced Value} : P may x → (may = true → may' = true) → P may' x
  halting {reason : Halt} (h : reason = .missingNode → code .missing) :
    P false fun m => ⟨[], .error reason m⟩
  giving {value : Value} (hvalue : value.Clear p scopes) : P false (pure value)
  stepping {x : Eval Value}
    (hx : ∀ m : Machine, m.Clear p scopes → Eval.Primitive (Value.Clear p scopes) x m) :
    P false (step x)
  returning {value : Value} (hvalue : value.Clear p scopes) : P true (step (Eval.returning value))
  noting {α : Type} {may : Bool} {event : Event} {x : Eval α} {next : α → Traced Value}
    (hevent : event.Clear p scopes)
    (hx : ∀ m : Machine, m.Clear p scopes → ∃ a, x m = .ok a (event.apply m) ∧
      (event.apply m).Clear p scopes ∧ P may (next a)) : P may (note event x >>= next)
  taking {may : Bool} {node part : Node} {x : Traced Value} {next : Value → Traced Value}
    (hnode : code node) (hpart : part ∈ node.taken) (hx : P part.mayReturn x)
    (hnext : ∀ value : Value, value.Clear p scopes → P may (next value)) : P may (take part x next)
  handingOn {may may' : Bool} {x : Traced Value} {next : Value → Traced Value} (hx : P may x)
    (hnext : ∀ value : Value, value.Clear p scopes → P may' (next value))
    (hsignal : ∀ value : Value, (value.isReturning || value.isError) = true → next value = pure value) :
    P (may || may') (x >>= next)
  finishing {may : Bool} {x : Traced Value} (hx : P may x) : P false (x >>= finish)

namespace Traced.Compositional

variable {code : Node → Prop} {p : Value → Prop} {scopes : Nat → Prop} {P : Bool → Traced Value → Prop}
  {env : Env} (hp : Admissible code p) (hP : Compositional code p scopes P)

include hP in
theorem error (fault : Fault) : P false (step (Eval.error fault)) :=
  hP.stepping fun _ _ => Eval.primitive_error fault

include hp hP

/-- The primitive steps pass on the parts of the values they are given, so clear values give clear ones. -/
theorem structural : Structural code (Value.Clear p scopes)
    (∀ entry ∈ ·, entry.2.1.Clear p scopes ∧ entry.2.2.Clear p scopes) (∀ scope ∈ ·.chain, scopes scope) P where
  taken := hp.taken
  handed := hp.handed
  body hvalue := hp.function.mp hvalue.has
  weaken := hP.weaken
  entering _ hx := hP.noting trivial fun m hm => ⟨(), rfl, hm, hx⟩
  taking := hP.taking
  handingOn := hP.handingOn
  finishing := hP.finishing
  missing hmissing := hP.halting fun _ => hmissing
  tooDeep := hP.halting (by simp)
  null := hp.lenient.closed_clear.atom rfl
  giving := hP.giving
  boolean _ := hP.giving (hp.lenient.closed_clear.atom rfl)
  error := hP.error
  integer _ := hP.stepping fun _ _ => Eval.primitive_integer hp.lenient.closed_clear _
  string text := hP.stepping fun _ _ => Eval.primitive_string hp.lenient.closed_clear text
  array helements := hP.stepping fun _ _ => Eval.primitive_array hp.lenient.closed_clear helements
  function henv hnode := hP.stepping fun _ _ => Eval.primitive_new fun _ =>
    .inl (clear_function (hp.function.mpr (hp.handed hnode List.mem_cons_self)) henv)
  returning := hP.returning
  name henv _ := hP.stepping fun _ hm =>
    Eval.primitive_evalName hp.lenient.closed_clear fun _ hvalue => hm.lookup henv hvalue
  prefixed operator operand _ := hP.stepping fun _ _ =>
    Eval.primitive_applyPrefix hp.lenient.closed_clear operator operand
  binary operator first second _ _ := hP.stepping fun _ _ =>
    Eval.primitive_applyBinary hp.lenient.closed_clear operator first second
  index hfirst _ := hP.stepping fun _ _ => Eval.primitive_applyIndex hp.lenient.closed_clear hfirst _
  noEntries := List.forall_mem_nil _
  entry hentries _ hkey hvalue := clear_insert hentries hkey hvalue
  hash hentries := hP.stepping fun _ _ => Eval.primitive_hash hp.lenient.closed_clear hentries
  binding _ name _ hvalue := hP.noting hvalue fun _ hm =>
    ⟨(), rfl, hm.bind hvalue _ name, hP.giving (hp.lenient.closed_clear.atom rfl)⟩
  callingBuiltin builtin arguments harguments := by
    have hbuiltin : (Value.builtin builtin).Clear p scopes := hp.lenient.closed_clear.atom rfl
    have hcalled : (Event.called (.builtin builtin) arguments).Clear p scopes :=
      List.forall_mem_cons.mpr ⟨hbuiltin, harguments⟩
    apply hP.noting hcalled
    intro m hm
    refine ⟨(), rfl, hm, hP.stepping fun m _ => ?_⟩
    exact Eval.primitive_builtin hp.lenient.closed_clear builtin harguments
  calling {id parameters body env arguments traceBody} hcallee harguments hbody := by
    have hcalled : (Event.called (.function id parameters body env) arguments).Clear p scopes :=
      List.forall_mem_cons.mpr ⟨hcallee, harguments⟩
    refine hP.noting hcalled fun m hm => ⟨_, rfl, ?_, ?_⟩
    · exact hm.openScope env.chain (Machine.clear_insertAll harguments parameters (by simp))
    · refine hP.finishing (hbody _ fun scope hscope => ?_)
      rcases List.mem_cons.mp hscope with rfl | hscope
      · exact hm.fresh _ (Nat.le_refl _)
      · exact hcallee.here.2 scope hscope

/-- A compositional property is one of all evaluations, however deep they may nest. -/
theorem holds_tracedWithin (depth : Nat) {node : Node} (hnode : code node)
    (henv : ∀ scope ∈ env.chain, scopes scope) :
    P node.mayReturn (node.tracedWithin depth env) :=
  (hP.structural hp).holds_tracedWithin depth hnode henv

end Traced.Compositional

/-! ### Nothing is left out of the log -/

theorem admissible_true : Admissible (fun _ => True) (fun _ => True) :=
  ⟨fun _ _ => trivial, fun _ _ => trivial, fun _ _ _ _ => trivial, Iff.rfl⟩

theorem Value.clear_true (value : Value) : value.Clear (fun _ => True) (fun _ => True) :=
  fun _ _ => ⟨trivial, fun _ _ => trivial⟩

theorem Machine.clear_true (m : Machine) : m.Clear (fun _ => True) (fun _ => True) :=
  ⟨fun _ _ => trivial, fun _ _ entry _ => entry.2.clear_true⟩

namespace Traced

def Replays (x : Traced Value) : Prop :=
  ∀ m, (x m).last = (x m).events.foldl Event.apply m

theorem Replays.bind {x : Traced Value} {next : Value → Traced Value} (hx : Replays x)
    (hnext : ∀ value, Replays (next value)) : Replays (x >>= next) := by
  intro m
  have hm := hx m
  rw [bind_run]
  cases hrun : (x m).result with
  | ok value m' =>
    have hm' : m' = (x m).events.foldl Event.apply m := by rw [← hm, Trace.last, hrun]
    show (next value m').last = _
    rw [List.foldl_append, ← hm']
    exact hnext value m'
  | error reason m' => rw [← hm, Trace.last, Trace.last, hrun]

theorem replays_note {α : Type} {event : Event} {x : Eval α} {next : α → Traced Value}
    (hx : ∀ m, ∃ a, x m = .ok a (event.apply m) ∧ Replays (next a)) :
    Replays (note event x >>= next) := by
  intro m
  obtain ⟨a, hrun, hnext⟩ := hx m
  rw [bind_run]
  simp only [note, hrun]
  exact hnext (event.apply m)

theorem foldl_printed (lines : List String) (m : Machine) :
    (lines.map Event.printed).foldl Event.apply m = m.grown lines 0 := by
  induction lines generalizing m with
  | nil => rw [m.grown_zero]; rfl
  | cons line rest ih =>
    rw [List.map_cons, List.foldl_cons, ih]
    show (m.grown [line] 0).grown rest 0 = _
    rw [Machine.grown_append]
    rfl

theorem replays_step {p : Value → Prop} {x : Eval Value} (h : ∀ m, Eval.Primitive p x m) :
    Replays (step x) := by
  intro m
  obtain ⟨value, lines, count, hrun, hcount, -⟩ := step_run (h m)
  rw [hrun, Trace.last, List.foldl_append, foldl_printed]
  obtain rfl | rfl : count = 0 ∨ count = 1 := by omega
  · rfl
  · show m.grown lines 1 = (m.grown lines 0).grown [] 1
    rw [Machine.grown_append, List.append_nil]

theorem compositional_replays :
    Compositional (fun _ => True) (fun _ => True) (fun _ => True) fun _ => Replays where
  weaken h _ := h
  halting _ _ := rfl
  giving _ _ := rfl
  stepping hx := replays_step fun m => hx m m.clear_true
  returning _ := replays_step (p := fun _ => True) fun _ => Eval.primitive_new fun _ => .inl trivial
  noting _ hx := replays_note fun m => (hx m m.clear_true).imp fun _ ha => ⟨ha.1, ha.2.2⟩
  taking _ _ hx hnext := by
    apply hx.bind
    intro value
    split
    · exact fun _ => rfl
    · exact replays_note fun m => ⟨(), rfl, hnext value value.clear_true⟩
  handingOn hx hnext _ := hx.bind fun value => hnext value value.clear_true
  finishing hx := by
    apply hx.bind
    intro value
    unfold finish
    split <;> exact fun _ => rfl

end Traced

/-- The events of an evaluation account for all that it does to the machine. -/
theorem replays_tracedWithin (depth : Nat) (node : Node) (env : Env) :
    Replays (node.tracedWithin depth env) :=
  compositional_replays.holds_tracedWithin admissible_true depth trivial fun _ _ => trivial

end Monkey
