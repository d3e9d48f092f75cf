import Monkey.Proofs.Evaluation.Primitive

/-!
# What an evaluation changes

Scopes are shared: the functions made in a scope, the calls that run inside it and the statements that
come later all refer to it by its number. Nevertheless an evaluation changes only the scope that its own
code runs in, and that one only at names that a `let` of this code binds. A `let` inside a function
literal is not code of the node around it: it runs in the scope that a call of the function opens.

`Machine.Frame` says what an evaluation in a scope may change, and `Machine.Keeps` what a call may; both
hold wherever the evaluation ends, also where it halts.
-/

namespace Monkey

/-! ### Names bound by `let` -/

mutual

/-- The names that the `let` statements of a node bind, those inside function literals left out. -/
def Node.letNames : Node → List String
  | .missing | .identifier _ | .integer .. | .string .. | .boolean .. | .function .. => []
  | .program statements | .block _ statements => namesOfAll statements
  | .letStatement _ target value => target.name :: value.letNames
  | .returnStatement _ value | .expressionStatement _ value | .prefixed _ _ value => value.letNames
  | .binary _ left _ right | .index _ left right => left.letNames ++ right.letNames
  | .conditional _ condition consequence alternative =>
    condition.letNames ++ (consequence.letNames ++ alternative.letNames)
  | .call _ callee arguments => callee.letNames ++ namesOfAll arguments
  | .array _ elements => namesOfAll elements
  | .hash _ pairs => namesOfPairs pairs

def namesOfAll : List Node → List String
  | [] => []
  | node :: rest => node.letNames ++ namesOfAll rest

def namesOfPairs : List (Node × Node) → List String
  | [] => []
  | (key, value) :: rest => key.letNames ++ (value.letNames ++ namesOfPairs rest)

end

def Bindings.without (names : List String) (bindings : Bindings) : Bindings :=
  bindings.filter fun entry => entry.1 ∉ names

namespace Machine

/-! ### Frames -/

/-- No scope of `m` is changed on the way to `m'`; there may be more scopes. -/
structure Keeps (m m' : Machine) : Prop where
  size_le : m.scopes.size ≤ m'.scopes.size
  bindings_eq : ∀ scope < m.scopes.size, m'.bindings scope = m.bindings scope

/-- No scope of `m` but one is changed on the way to `m'`, and that one at the given names only: all
    its other bindings stay, and stay in order. -/
structure Frame (scope : Nat) (names : List String) (m m' : Machine) : Prop where
  size_le : m.scopes.size ≤ m'.scopes.size
  others : ∀ other < m.scopes.size, other ≠ scope → m'.bindings other = m.bindings other
  own : scope < m.scopes.size →
    Bindings.without names (m'.bindings scope) = Bindings.without names (m.bindings scope)

variable {scope : Nat} {names names' : List String} {m m' m'' : Machine}

theorem Keeps.refl (m : Machine) : m.Keeps m :=
  ⟨Nat.le_refl _, fun _ _ => rfl⟩

theorem Keeps.trans (h : m.Keeps m') (h' : m'.Keeps m'') : m.Keeps m'' :=
  ⟨Nat.le_trans h.size_le h'.size_le, fun other hother =>
    (h'.bindings_eq other (Nat.lt_of_lt_of_le hother h.size_le)).trans (h.bindings_eq other hother)⟩

theorem keeps_of_scopes_eq (h : m'.scopes = m.scopes) : m.Keeps m' :=
  ⟨Nat.le_of_eq (congrArg Array.size h.symm), fun _ _ => by rw [bindings, bindings, h]⟩

theorem Keeps.frame (h : m.Keeps m') : m.Frame scope names m' :=
  ⟨h.size_le, fun other hother _ => h.bindings_eq other hother,
    fun hscope => congrArg _ (h.bindings_eq scope hscope)⟩

theorem Frame.refl (m : Machine) : m.Frame scope names m :=
  (Keeps.refl m).frame

theorem Frame.trans (h : m.Frame scope names m') (h' : m'.Frame scope names m'') :
    m.Frame scope names m'' := by
  constructor
  · exact Nat.le_trans h.size_le h'.size_le
  · intro other hother hne
    rw [h'.others other (Nat.lt_of_lt_of_le hother h.size_le) hne, h.others other hother hne]
  · intro hscope
    rw [h'.own (Nat.lt_of_lt_of_le hscope h.size_le), h.own hscope]

theorem without_of_subset (hnames : names ⊆ names') {before after : Bindings}
    (h : Bindings.without names after = Bindings.without names before) :
    Bindings.without names' after = Bindings.without names' before := by
  have hfilter (bindings : Bindings) :
      Bindings.without names' bindings = Bindings.without names' (Bindings.without names bindings) := by
    rw [Bindings.without, Bindings.without, Bindings.without, List.filter_filter]
    apply List.filter_congr
    intro entry _
    by_cases hentry : entry.1 ∈ names
    · simp [hnames hentry]
    · simp [hentry]
  rw [hfilter after, hfilter before, h]

theorem Frame.mono (hnames : names ⊆ names') (h : m.Frame scope names m') :
    m.Frame scope names' m' :=
  ⟨h.size_le, h.others, fun hscope => without_of_subset hnames (h.own hscope)⟩

/-- What happens in a scope that was not there before changes none that was. -/
theorem Frame.keeps (hscope : m.scopes.size ≤ scope) (h : m.Frame scope names m') : m.Keeps m' :=
  ⟨h.size_le, fun other hother => h.others other hother (by omega)⟩

/-! ### Changing and opening scopes -/

theorem without_insert {name : String} (hname : name ∈ names) (value : Value)
    (bindings : Bindings) :
    Bindings.without names (Assoc.insert name value bindings) = Bindings.without names bindings := by
  induction bindings with
  | nil => simp [Bindings.without, Assoc.insert, hname]
  | cons entry rest ih =>
    rcases entry with ⟨key, old⟩
    by_cases hkey : key = name
    · simp [Bindings.without, Assoc.insert, hkey, hname]
    · simp [Bindings.without] at ih
      simp [Bindings.without, Assoc.insert, hkey, List.filter_cons, ih]

theorem bindings_bind (env : Env) (name : String) (value : Value) {scope : Nat}
    (hscope : scope < m.scopes.size) : (m.bind env name value).bindings scope
      = if env.scope = scope then Assoc.insert name value (m.bindings scope) else m.bindings scope := by
  simp only [Machine.bindings, Machine.bind, Array.getD_eq_getD_getElem?, Array.getElem?_modify]
  rw [Array.getElem?_eq_getElem hscope]
  split <;> rfl

theorem frame_bind (env : Env) {name : String} (hname : name ∈ names) (value : Value) (m : Machine) :
    m.Frame env.scope names (m.bind env name value) := by
  constructor
  · simp [Machine.bind]
  · intro other hother hne
    rw [bindings_bind env name value hother, if_neg (Ne.symm hne)]
  · intro hscope
    rw [bindings_bind env name value hscope, if_pos rfl, without_insert hname]

theorem bindings_openScope (outer : List Nat) (bindings : Bindings) (m : Machine) (scope : Nat) :
    (m.openScope outer bindings).2.bindings scope =
      if scope = m.scopes.size then bindings else m.bindings scope := by
  simp only [openScope, Machine.bindings, Array.getD_eq_getD_getElem?, Array.getElem?_push]
  split <;> rfl

theorem keeps_openScope (outer : List Nat) (bindings : Bindings) (m : Machine) :
    m.Keeps (m.openScope outer bindings).2 := by
  constructor
  · simp [openScope]
  · intro other hother
    rw [bindings_openScope, if_neg (Nat.ne_of_lt hother)]

end Machine

namespace Eval

variable {α β : Type} {scope : Nat} {names names' : List String}

/-- An evaluation that changes a scope at the given names and no other scope. -/
def Frames (scope : Nat) (names : List String) (evaluation : Eval α) : Prop :=
  ∀ m : Machine, m.Frame scope names (evaluation.after m)

theorem Frames.mono {evaluation : Eval α} (h : Frames scope names evaluation)
    (hnames : names ⊆ names') : Frames scope names' evaluation :=
  fun m => (h m).mono hnames

theorem frames_pure (a : α) : Frames scope names (pure a : Eval α) :=
  fun m => .refl m

theorem frames_throw (reason : Halt) : Frames scope names (throw reason : Eval α) :=
  fun m => .refl m

theorem Frames.bind {x : Eval α} {f : α → Eval β} (hx : Frames scope names x)
    (hf : ∀ a, Frames scope names (f a)) : Frames scope names (x >>= f) := by
  intro m
  have hm := hx m
  simp only [after, bind_run] at hm ⊢
  cases hrun : x m with
  | ok a m' =>
    rw [hrun] at hm
    exact hm.trans (hf a m')
  | error reason m' =>
    rw [hrun] at hm
    exact hm

theorem Frames.proceed {value : Value} {next : Eval Value} (h : Frames scope names next) :
    Frames scope names (value.proceed next) := by
  unfold Value.proceed
  split
  · exact frames_pure value
  · exact h

theorem frames_of_primitive {step : Eval Value} (h : ∀ m, Primitive (fun _ => True) step m) :
    Frames scope names step := by
  intro m
  obtain ⟨value, lines, count, hrun, -⟩ := h m
  have hafter : step.after m = m.grown lines count := by simp only [after, hrun]
  rw [hafter]
  exact (Machine.keeps_of_scopes_eq (m.grown_scopes lines count)).frame

theorem frames_new (form : Nat → Value) :
    Frames scope names (newObject >>= fun id => pure (form id)) :=
  frames_of_primitive fun _ => primitive_new fun _ => .inl trivial

theorem frames_bind (env : Env) {name : String} (hname : name ∈ names) (value : Value) :
    Frames env.scope names (Eval.bind env name value) :=
  fun m => m.frame_bind env hname value

/-! ### Evaluations of nodes -/

/-- The evaluation of a function body changes the scope of its environment at the names that the body
    binds, and no other. -/
def BodyFrames (evalBody : Node → Env → Eval Value) : Prop :=
  ∀ body env, Frames env.scope body.letNames (evalBody body env)

variable {evalBody : Node → Env → Eval Value} (hbody : BodyFrames evalBody)

include hbody

/-- A call changes no scope at all: its own one is new. -/
theorem keeps_applyWith (callee : Value) (arguments : List Value) (m : Machine) :
    m.Keeps ((applyWith evalBody callee arguments).after m) := by
  have hkeeps {step : Eval Value} (h : ∀ m, Primitive (fun _ => True) step m) :
      m.Keeps (step.after m) := by
    -- a frame of a scope that does not exist
    have hframes : Frames m.scopes.size [] step := frames_of_primitive h
    exact (hframes m).keeps (Nat.le_refl _)
  unfold applyWith
  split
  · split
    · exact hkeeps fun m => primitive_error _
    · next parameters body env _ =>
      let bindings := Assoc.insertAll (parameters.zip arguments) []
      let inner : Env := ⟨m.scopes.size, env.chain⟩
      have hopen : m.Frame inner.scope body.letNames (m.openScope env.chain bindings).2 :=
        (m.keeps_openScope env.chain bindings).frame
      have hcall : Frames inner.scope body.letNames
          (evalBody body inner >>= fun result => pure result.unwrapped) :=
        (hbody body inner).bind fun result => frames_pure _
      exact (hopen.trans (hcall _)).keeps (Nat.le_refl _)
  · exact hkeeps fun m => primitive_builtin closed_true _ fun _ _ => trivial
  · exact hkeeps fun m => primitive_error _

theorem frames_applyWith (callee : Value) (arguments : List Value) :
    Frames scope names (applyWith evalBody callee arguments) :=
  fun m => (keeps_applyWith hbody callee arguments m).frame

variable (env : Env)

set_option linter.unusedSectionVars false in
mutual

theorem frames_evalWith (node : Node) (names : List String) (hnames : node.letNames ⊆ names) :
    Frames env.scope names (node.evalWith evalBody env) := by
  cases node with
  | missing => exact frames_throw _
  | program statements =>
    exact (frames_evalSequence statements names hnames .null).bind fun result => frames_pure _
  | block _ statements => exact frames_evalSequence statements names hnames .null
  | expressionStatement _ expression => exact frames_evalWith expression names hnames
  | letStatement _ target value =>
    obtain ⟨htarget, hvalue⟩ := List.cons_subset.mp hnames
    refine (frames_evalWith value names hvalue).bind fun result => .proceed ?_
    exact (frames_bind env htarget result).bind fun _ => frames_pure _
  | returnStatement _ value =>
    exact (frames_evalWith value names hnames).bind fun result => .proceed (frames_new _)
  | identifier name =>
    exact frames_of_primitive fun m => primitive_evalName closed_true fun _ _ => trivial
  | integer _ value => exact frames_new _
  | string _ value => exact frames_new _
  | boolean _ value => exact frames_pure _
  | prefixed _ operator right =>
    refine (frames_evalWith right names hnames).bind fun operand => .proceed ?_
    exact frames_of_primitive fun m => primitive_applyPrefix closed_true operator operand
  | binary _ left operator right =>
    obtain ⟨hleft, hright⟩ := List.append_subset.mp hnames
    refine (frames_evalWith left names hleft).bind fun first => .proceed ?_
    refine (frames_evalWith right names hright).bind fun second => .proceed ?_
    exact frames_of_primitive fun m => primitive_applyBinary closed_true operator first second
  | conditional _ condition consequence alternative =>
    obtain ⟨hcondition, hbranches⟩ := List.append_subset.mp hnames
    obtain ⟨hconsequence, halternative⟩ := List.append_subset.mp hbranches
    refine (frames_evalWith condition names hcondition).bind fun test => .proceed ?_
    split
    · exact frames_evalWith consequence names hconsequence
    · split
      · exact frames_pure _
      · exact frames_evalWith alternative names halternative
  | function _ parameters body => exact frames_new _
  | call _ callee arguments =>
    obtain ⟨hcallee, harguments⟩ := List.append_subset.mp hnames
    refine (frames_evalWith callee names hcallee).bind fun function => .proceed ?_
    apply (frames_evalAll arguments names harguments).bind
    intro values
    split
    · exact frames_applyWith hbody function _
    · exact frames_pure _
  | array _ elements =>
    apply (frames_evalAll elements names hnames).bind
    intro values
    split
    · exact frames_new _
    · exact frames_pure _
  | index _ left subscript =>
    obtain ⟨hleft, hsubscript⟩ := List.append_subset.mp hnames
    refine (frames_evalWith left names hleft).bind fun first => .proceed ?_
    refine (frames_evalWith subscript names hsubscript).bind fun second => .proceed ?_
    exact frames_of_primitive fun m => primitive_applyIndex closed_true trivial second
  | hash _ pairs => exact frames_evalPairs pairs names hnames []

theorem frames_evalSequence (statements : List Node) (names : List String)
    (hnames : namesOfAll statements ⊆ names) (last : Value) :
    Frames env.scope names (evalSequence evalBody env last statements) := by
  cases statements with
  | nil => exact frames_pure last
  | cons statement rest =>
    obtain ⟨hstatement, hrest⟩ := List.append_subset.mp hnames
    apply (frames_evalWith statement names hstatement).bind
    intro result
    split
    · exact frames_pure result
    · exact frames_evalSequence rest names hrest result

theorem frames_evalAll (expressions : List Node) (names : List String)
    (hnames : namesOfAll expressions ⊆ names) :
    Frames env.scope names (evalAll evalBody env expressions) := by
  cases expressions with
  | nil => exact frames_pure _
  | cons expression rest =>
    obtain ⟨hexpression, hrest⟩ := List.append_subset.mp hnames
    apply (frames_evalWith expression names hexpression).bind
    intro value
    split
    · exact frames_pure _
    · apply (frames_evalAll rest names hrest).bind
      intro values
      split <;> exact frames_pure _

theorem frames_evalPairs (pairs : List (Node × Node)) (names : List String)
    (hnames : namesOfPairs pairs ⊆ names) (entries : List (HashKey × Value × Value)) :
    Frames env.scope names (evalPairs evalBody env entries pairs) := by
  match pairs with
  | [] => exact frames_new _
  | (left, right) :: rest =>
    obtain ⟨hleft, hboth⟩ := List.append_subset.mp hnames
    obtain ⟨hright, hrest⟩ := List.append_subset.mp hboth
    refine (frames_evalWith left names hleft).bind fun key => .proceed ?_
    split
    · exact frames_new _
    · refine (frames_evalWith right names hright).bind fun value => .proceed ?_
      exact frames_evalPairs rest names hrest _

end

omit hbody in
theorem bodyFrames_evalWithin (depth : Nat) : BodyFrames (Node.evalWithin depth) := by
  induction depth with
  | zero => exact fun body env => frames_throw _
  | succ depth ih => exact fun body env => frames_evalWith ih env body body.letNames (List.Subset.refl _)

end Eval

/-- However deep calls may nest: evaluating a node changes no scope that there was but the one it runs
    in, and that one only at names bound by a `let` of the node; and a call changes no scope. -/
theorem evalWithin_frame (depth : Nat) (m : Machine) :
    (∀ (node : Node) (env : Env),
      m.Frame env.scope node.letNames ((node.evalWithin depth env).after m)) ∧
    ∀ (callee : Value) (arguments : List Value),
      m.Keeps ((applyWith (Node.evalWithin depth) callee arguments).after m) :=
  ⟨fun node env => Eval.bodyFrames_evalWithin depth node env m,
    fun callee arguments => Eval.keeps_applyWith (Eval.bodyFrames_evalWithin depth) callee arguments m⟩

end Monkey
