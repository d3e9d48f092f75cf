import Monkey.Proofs.Evaluation.FailStop
import Monkey.Proofs.Evaluation.Missing

/-!
# Values of a session

Whatever a session runs, the values it makes are well-formed: an integer fits into 64 bits, a hash has
each entry under the key that the entry's own key gives, and a function looks names up in the scope of the
session in the end (`Value.WellFormed`). Two more properties of values are kept along with this one. The
functions have whole bodies, so that the integer literals in them fit too. And no string or array is too
long to be counted (`Value.Sized`), which is asked of all values that are made, since no evaluation sees to
it.

* `Value.Belongs`: a value with these properties, which captures no scope outside the session.
* `Traced.Stays`: an evaluation that gives such a value and leaves only such values behind.
* `session_wellFormed`: so all that can be got at after a session has run some texts is well-formed.
-/

namespace Monkey

open Traced

/-! ### Well-formed values -/

/-- Whether an integer is one of 64 bits, signed. -/
def Arithmetic.Fits (n : Int) : Prop :=
  -9223372036854775808 ≤ n ∧ n ≤ 9223372036854775807

/-- Entries of a hash that stand under the keys that their own keys give, one under each. -/
structure Keyed (entries : List (HashKey × Value × Value)) : Prop where
  key : ∀ entry ∈ entries, entry.2.1.hashKey? = some entry.1
  kind : ∀ entry ∈ entries, entry.2.1.kind ∈ [.integer, .boolean, .string]
  nodup : (Assoc.keys entries).Nodup

namespace Value

/-- What a value of a session has to be by itself, whatever its parts are. -/
def WellFormed (session : Nat) : Value → Prop
  | .integer _ n => Arithmetic.Fits n
  | .hash _ entries => Keyed entries
  | .function _ _ _ env => env.chain.getLast? = some session
  | _ => True

/-- A string or an array whose length is an integer of 64 bits, or any other value. -/
def Sized : Value → Prop
  | .string _ text => text.length < 9223372036854775808
  | .array _ elements => elements.length < 9223372036854775808
  | _ => True

instance : DecidablePred Sized
  | .string _ text => inferInstanceAs (Decidable (text.length < 9223372036854775808))
  | .array _ elements => inferInstanceAs (Decidable (elements.length < 9223372036854775808))
  | .null | .boolean _ | .builtin _ | .integer .. | .hash .. | .function .. | .returning .. | .error .. =>
    .isTrue trivial

/-- There is one null, and one value for each of the two truth values. The representation has it so: these
    values have no number to be told apart by (`Value.shared`). -/
def Shared (value : Value) : Prop :=
  value.kind = .boolean ∨ value.kind = .null → ∀ other : Value, other.kind = value.kind →
    other.isTruthy = value.isTruthy → other.same value = true

structure Sound (session : Nat) (value : Value) : Prop where
  wellFormed : value.WellFormed session
  sized : value.Sized
  whole : value.Whole

/-- A value that is sound, and so are all its parts, and that has no function in it which looks names up
    outside the session. -/
abbrev Belongs (session : Nat) (value : Value) : Prop :=
  value.Clear (Sound session) (session ≤ ·)

end Value

/-- An environment inside the one of a session. -/
structure Env.Inside (session : Nat) (env : Env) : Prop where
  scopes : ∀ scope ∈ env.chain, session ≤ scope
  last : env.chain.getLast? = some session

/-- A machine all of whose scopes since the start of a session hold values of the session only. -/
abbrev Machine.Serves (session : Nat) (m : Machine) : Prop :=
  m.Clear (Value.Sound session) (session ≤ ·)

variable {session : Nat}

theorem Arithmetic.fits_wrap (n : Int) : Fits (wrap n) := by
  have hle := Int.le_bmod (x := n) (m := span) (by decide)
  have hlt := Int.bmod_lt (x := n) (m := span) (by decide)
  simp only [Fits, wrap, span] at hle hlt ⊢
  omega

theorem Arithmetic.fits_length {n : Nat} (h : n < 9223372036854775808) : Fits n := by
  unfold Fits
  omega

theorem fits_literal {token : Token} {value : Int} (h : (Node.integer token value).Whole) :
    Arithmetic.Fits value := by
  obtain ⟨-, -, hnonneg, hle⟩ := h.here
  simp only [Rule.maxInteger] at hle
  unfold Arithmetic.Fits
  omega

/-! ### Entries of a hash -/

theorem Value.kind_of_hashKey? {key : Value} {hashKey : HashKey} (h : key.hashKey? = some hashKey) :
    key.kind ∈ [.integer, .boolean, .string] := by
  cases key
  case integer | boolean | string => simp [kind]
  all_goals cases h

theorem keyed_nil : Keyed [] :=
  ⟨by simp, by simp, by simp [Assoc.keys]⟩

theorem Keyed.insert {entries : List (HashKey × Value × Value)} {hashKey : HashKey} {key value : Value}
    (h : Keyed entries) (hkey : key.hashKey? = some hashKey) :
    Keyed (Assoc.insert hashKey (key, value) entries) := by
  constructor
  · intro entry hentry
    rcases Assoc.eq_or_mem_insert hentry with rfl | hentry
    · exact hkey
    · exact h.key entry hentry
  · intro entry hentry
    rcases Assoc.eq_or_mem_insert hentry with rfl | hentry
    · exact Value.kind_of_hashKey? hkey
    · exact h.kind entry hentry
  · exact Assoc.nodup_insert h.nodup hashKey (key, value)

/-! ### Values that belong to a session -/

namespace Value

variable {value : Value}

theorem belongs_null : Value.null.Belongs session :=
  clear_leaf ⟨trivial, trivial, nofun⟩ rfl rfl

theorem belongs_boolean (b : Bool) : (Value.boolean b).Belongs session :=
  clear_leaf ⟨trivial, trivial, nofun⟩ rfl rfl

theorem belongs_builtin (builtin : Builtin) : (Value.builtin builtin).Belongs session :=
  clear_leaf ⟨trivial, trivial, nofun⟩ rfl rfl

theorem belongs_error (id : Nat) (fault : Fault) : (Value.error id fault).Belongs session :=
  clear_leaf ⟨trivial, trivial, nofun⟩ rfl rfl

theorem belongs_integer {id : Nat} {n : Int} (h : Arithmetic.Fits n) :
    (Value.integer id n).Belongs session :=
  clear_leaf ⟨h, trivial, nofun⟩ rfl rfl

theorem belongs_string {id : Nat} {text : String} (h : (Value.string id text).Sized) :
    (Value.string id text).Belongs session :=
  clear_leaf ⟨trivial, h, nofun⟩ rfl rfl

theorem belongs_array {id : Nat} {elements : List Value} (hsized : (Value.array id elements).Sized)
    (h : ∀ element ∈ elements, element.Belongs session) : (Value.array id elements).Belongs session :=
  clear_array ⟨trivial, hsized, nofun⟩ h

theorem belongs_returning {id : Nat} (h : value.Belongs session) :
    (Value.returning id value).Belongs session :=
  clear_returning ⟨trivial, trivial, nofun⟩ h

theorem belongs_hash {id : Nat} {entries : List (HashKey × Value × Value)} (hkeyed : Keyed entries)
    (h : ∀ entry ∈ entries, entry.2.1.Belongs session ∧ entry.2.2.Belongs session) :
    (Value.hash id entries).Belongs session :=
  clear_hash ⟨hkeyed, trivial, nofun⟩ h

theorem belongs_function {id : Nat} {parameters : List String} {body : Node} {env : Env}
    (hbody : body.Whole) (henv : env.Inside session) :
    (Value.function id parameters body env).Belongs session := by
  apply clear_function
  · refine ⟨henv.last, trivial, ?_⟩
    rintro _ ⟨⟩
    exact hbody
  · exact henv.scopes

theorem Belongs.inside {id : Nat} {parameters : List String} {body : Node} {env : Env}
    (h : (Value.function id parameters body env).Belongs session) : env.Inside session :=
  ⟨h.here.2, h.has.wellFormed⟩

end Value

/-- The environment of a call is inside the session that the function was made in. -/
theorem Env.Inside.enclosed {env : Env} (h : env.Inside session) {scope : Nat} (hscope : session ≤ scope) :
    (Env.mk scope env.chain).Inside session := by
  constructor
  · exact List.forall_mem_cons.mpr ⟨hscope, h.scopes⟩
  · rw [Env.chain, Env.chain, List.getLast?_cons_cons]
    exact h.last

/-- What the primitive steps find in a session belongs to it, and so does what they make, if that is
    sized. -/
theorem respected_belongs :
    Respected (Value.Belongs session) fun value => value.Sized → value.Belongs session where
  part h hpart := h.part hpart
  null := Value.belongs_null
  boolean := Value.belongs_boolean
  builtin := Value.belongs_builtin
  error id fault _ := Value.belongs_error id fault
  wrapped _ n _ := Value.belongs_integer (Arithmetic.fits_wrap n)
  stringLength _ h _ := Value.belongs_integer (Arithmetic.fits_length h.has.sized)
  arrayLength _ h _ := Value.belongs_integer (Arithmetic.fits_length h.has.sized)
  string _ _ := Value.belongs_string
  array _ _ h hsized := Value.belongs_array hsized h

/-! ### Evaluations -/

namespace Traced

variable {α : Type} {x : Traced Value} {next : Value → Traced Value}

/-- As long as all strings and arrays that it makes are sized, an evaluation in a session gives a value of
    it and leaves only such values behind. -/
def Stays (session : Nat) (x : Traced Value) : Prop :=
  ∀ m : Machine, m.Serves session → (∀ value, .made value ∈ (x m).events → value.Sized) →
    match (x m).result with
    | .ok value m' => m'.Serves session ∧ value.Belongs session
    | .error _ m' => m'.Serves session

theorem stays_pure {value : Value} (h : value.Belongs session) : Stays session (pure value) :=
  fun _ hm _ => ⟨hm, h⟩

theorem stays_halt (reason : Halt) : Stays session fun m => ⟨[], .error reason m⟩ :=
  fun _ hm _ => hm

theorem Stays.bind (hx : Stays session x)
    (hnext : ∀ value : Value, value.Belongs session → Stays session (next value)) :
    Stays session (x >>= next) := by
  intro m hm hsized
  have hrun := hx m hm
  rw [bind_run] at hsized ⊢
  cases hresult : (x m).result with
  | ok value m' =>
    simp only [hresult] at hrun hsized ⊢
    obtain ⟨hm', hvalue⟩ := hrun fun made hmade => hsized made (List.mem_append_left _ hmade)
    exact hnext value hvalue m' hm' fun made hmade => hsized made (List.mem_append_right _ hmade)
  | error reason m' =>
    simp only [hresult] at hrun hsized ⊢
    exact hrun hsized

theorem stays_note {event : Event} {x : Eval α} {next : α → Traced Value}
    (hx : ∀ m : Machine, m.Serves session → ∃ a m', x m = .ok a m' ∧ m'.Serves session ∧
      Stays session (next a)) : Stays session (note event x >>= next) := by
  intro m hm hsized
  obtain ⟨a, m', hrun, hm', hnext⟩ := hx m hm
  rw [bind_run] at hsized ⊢
  simp only [note, hrun] at hsized ⊢
  exact hnext m' hm' fun made hmade => hsized made (List.mem_append_right _ hmade)

theorem stays_step {x : Eval Value} (h : ∀ m : Machine, m.Serves session → Eval.Supplies
    (Value.Belongs session) (fun value => value.Sized → value.Belongs session) x m) :
    Stays session (step x) := by
  intro m hm hsized
  cases h m hm with
  | found lines hrun hvalue =>
    rw [step_eq hrun (Nat.zero_le 1)]
    exact ⟨hm.grown lines 0, hvalue⟩
  | @made value hrun hvalue =>
    rw [step_eq hrun (Nat.le_refl 1)] at hsized ⊢
    exact ⟨hm.grown [] 1, hvalue (hsized value (by simp))⟩

theorem stays_finish (hx : Stays session x) : Stays session (x >>= finish) := by
  apply hx.bind
  intro value hvalue
  by_cases herror : value.isError = true
  · rw [finish, if_pos herror]
    exact stays_pure hvalue
  · rw [finish, if_neg herror]
    exact fun m hm _ => ⟨hm, clear_unwrapped hvalue⟩

theorem structural_stays :
    Structural Node.Whole (Value.Belongs session)
      (fun entries => Keyed entries ∧ ∀ entry ∈ entries, entry.2.1.Belongs session ∧ entry.2.2.Belongs session)
      (Env.Inside session) fun _ => Stays session where
  taken := Node.Whole.taken
  handed := Node.Whole.handed
  body hvalue := hvalue.has.whole _ rfl
  weaken h _ := h
  entering _ hx := stays_note fun m hm => ⟨(), m, rfl, hm, hx⟩
  taking _ _ hx hnext := by
    apply hx.bind
    intro value hvalue
    by_cases herror : value.isError = true
    · rw [if_pos herror]
      exact stays_pure hvalue
    · rw [if_neg herror]
      exact stays_note fun m hm => ⟨(), m, rfl, hm, hnext value hvalue⟩
  handingOn hx hnext _ := hx.bind hnext
  finishing := stays_finish
  missing _ := stays_halt .missingNode
  tooDeep := stays_halt .tooDeep
  null := Value.belongs_null
  giving := stays_pure
  boolean value := stays_pure (Value.belongs_boolean value)
  error fault := stays_step fun _ _ => Eval.supplies_error respected_belongs fault
  integer hnode := stays_step fun _ _ =>
    Eval.supplies_new (fun _ _ => Value.belongs_integer (fits_literal hnode)) fun _ => rfl
  string text := stays_step fun _ _ => Eval.supplies_string respected_belongs text
  array helements := stays_step fun _ _ => Eval.supplies_array respected_belongs helements
  function henv hnode := stays_step fun _ _ => Eval.supplies_new
    (fun _ _ => Value.belongs_function (hnode.handed List.mem_cons_self) henv) fun _ => rfl
  returning hvalue := stays_step fun _ _ =>
    Eval.supplies_new (fun _ _ => Value.belongs_returning hvalue) fun _ => rfl
  name henv _ := stays_step fun _ hm =>
    Eval.supplies_evalName respected_belongs fun _ hvalue => hm.lookup henv.scopes hvalue
  prefixed operator operand _ := stays_step fun _ _ =>
    Eval.supplies_applyPrefix respected_belongs operator operand
  binary operator first second _ _ := stays_step fun _ _ =>
    Eval.supplies_applyBinary respected_belongs operator first second
  index hfirst _ := stays_step fun _ _ => Eval.supplies_applyIndex respected_belongs hfirst _
  noEntries := ⟨keyed_nil, List.forall_mem_nil _⟩
  entry hentries hhash hkey hvalue := ⟨hentries.1.insert hhash, clear_insert hentries.2 hkey hvalue⟩
  hash hentries := stays_step fun _ _ =>
    Eval.supplies_new (fun _ _ => Value.belongs_hash hentries.1 hentries.2) fun _ => rfl
  binding henv name value hvalue := stays_note fun m hm =>
    ⟨(), _, rfl, hm.bind hvalue _ name, stays_pure Value.belongs_null⟩
  callingBuiltin builtin arguments harguments := stays_note fun m hm =>
    ⟨(), m, rfl, hm, stays_step fun _ _ => Eval.supplies_builtin respected_belongs builtin harguments⟩
  calling {id parameters body env arguments traceBody} hcallee harguments hbody := by
    apply stays_note
    intro m hm
    have hsession : session ≤ m.scopes.size := hm.fresh _ (Nat.le_refl _)
    refine ⟨_, _, rfl, ?_, stays_finish (hbody _ (hcallee.inside.enclosed hsession))⟩
    exact hm.openScope env.chain (Machine.clear_insertAll harguments parameters (by simp))

theorem stays_tracedWithin (depth : Nat) {node : Node} {env : Env} (hnode : node.Whole)
    (henv : env.Inside session) : Stays session (node.tracedWithin depth env) :=
  structural_stays.holds_tracedWithin depth hnode henv

end Traced

/-! ### Sessions -/

/-- What happens while a program text is run; if it has parse errors, nothing does. -/
def runTrace (text : String) (env : Env) (m : Machine) : List Event :=
  match parseProgram text with
  | .ok program => program.trace depthLimit env m
  | .error _ => []

/-- What happens while program texts are run one after the other in an environment. -/
def sessionTrace : List String → Env → Machine → List Event
  | [], _, _ => []
  | text :: rest, env, m => runTrace text env m ++ sessionTrace rest env (runAfter text env m)

/-- What can be got at from a value: its parts, and what is bound where the functions among them look names
    up. -/
inductive Machine.Reaches (m : Machine) : Value → Value → Prop where
  | refl {value : Value} : m.Reaches value value
  | part {value part inner : Value} (hpart : part ∈ value.parts) (h : m.Reaches part inner) :
      m.Reaches value inner
  | captured {function value inner : Value} {scope : Nat} {name : String}
      (hscope : scope ∈ function.captured) (hvalue : (name, value) ∈ m.bindings scope)
      (h : m.Reaches value inner) : m.Reaches function inner

variable {env : Env} {m : Machine} {value inner : Value}

theorem Machine.Serves.reaches (hm : m.Serves session) (h : m.Reaches value inner)
    (hvalue : value.Belongs session) : inner.Belongs session := by
  induction h with
  | refl => exact hvalue
  | part hpart _ ih => exact ih (hvalue.part hpart)
  | captured hscope hbound _ ih => exact ih (hm.bound _ (hvalue.here.2 _ hscope) _ hbound)

theorem whole_of_parseProgram {text : String} {program : Node} (h : parseProgram text = .ok program) :
    program.Whole := by
  unfold parseProgram at h
  by_cases herrors : (parse text).errors.isEmpty = true
  · rw [if_pos herrors] at h
    cases h
    exact whole_program text
  · rw [if_neg herrors] at h
    cases h

/-- Running one text in a session. -/
theorem serves_runAfter (henv : env.Inside session) (hm : m.Serves session) {text : String}
    (hsized : ∀ value, .made value ∈ runTrace text env m → value.Sized) :
    (runAfter text env m).Serves session ∧ ∀ value program m',
      runText text env m = .ok (value, program) m' → value.Belongs session := by
  rw [runAfter_eq, runText]
  rw [runTrace] at hsized
  cases hprogram : parseProgram text with
  | error errors =>
    refine ⟨hm, ?_⟩
    rintro _ _ _ ⟨⟩
  | ok program =>
    simp only [hprogram] at hsized
    have hstays := stays_tracedWithin depthLimit (whole_of_parseProgram hprogram) henv m hm hsized
    have hresult : (program.tracedWithin depthLimit env m).result = program.evalWithin depthLimit env m :=
      congrFun (erase_tracedWithin depthLimit program env) m
    rw [hresult] at hstays
    simp only [Eval.after, Bind.bind, EStateM.bind, Eval.toRun, Node.eval]
    cases hrun : program.evalWithin depthLimit env m with
    | error reason m' =>
      rw [hrun] at hstays
      exact ⟨hstays, by simp⟩
    | ok value m' =>
      rw [hrun] at hstays
      refine ⟨hstays.1, ?_⟩
      rintro _ _ _ ⟨⟩
      exact hstays.2

theorem sessionTrace_append (texts : List String) (text : String) (env : Env) (m : Machine) :
    sessionTrace (texts ++ [text]) env m =
      sessionTrace texts env m ++ runTrace text env (sessionAfter texts env m) := by
  induction texts generalizing m with
  | nil => simp [sessionTrace, sessionAfter]
  | cons first rest ih =>
    simp only [List.cons_append, sessionTrace, ih, List.append_assoc]
    rfl

theorem serves_sessionAfter (henv : env.Inside session) (hm : m.Serves session) {texts : List String}
    (hsized : ∀ value, .made value ∈ sessionTrace texts env m → value.Sized) :
    (sessionAfter texts env m).Serves session := by
  induction texts generalizing m with
  | nil => exact hm
  | cons text rest ih =>
    have hfirst := (serves_runAfter henv hm fun value h => hsized value (List.mem_append_left _ h)).1
    exact ih hfirst fun value h => hsized value (List.mem_append_right _ h)

/-- Every value is shared, in a session or not. -/
theorem Value.shared (value : Value) : value.Shared := by
  intro hkind other hother htruthy
  cases value
  case null | boolean =>
    cases other <;> simp_all [kind, isTruthy, same, identity]
  all_goals simp [kind] at hkind

/-- Whatever texts a session has run, all values that can be got at from the result of the last one, or from
    any scope opened since the session was, are well-formed. That they are shared, too, is how all values are
    represented (`Value.shared`); the session has no part in it. -/
theorem session_wellFormed (start : Machine) (texts : List String) (text : String)
    (hsized : ∀ value, .made value ∈ sessionTrace (texts ++ [text]) start.openSession.1 start.openSession.2 →
      value.Sized) :
    let env := start.openSession.1
    let before := sessionAfter texts env start.openSession.2
    (∀ value program m', runText text env before = .ok (value, program) m' →
      ∀ inner, m'.Reaches value inner → inner.WellFormed env.scope ∧ inner.Shared) ∧
    ∀ inner, (runAfter text env before).Holds (env.scope ≤ ·) inner →
      inner.WellFormed env.scope ∧ inner.Shared := by
  intro env before
  have henv : env.Inside env.scope := ⟨by simp [env, Machine.openSession, Machine.openScope, Env.chain], rfl⟩
  have hstart : start.openSession.2.Serves env.scope := Machine.clear_openSession start
  rw [sessionTrace_append] at hsized
  have hbefore : before.Serves env.scope :=
    serves_sessionAfter henv hstart fun value h => hsized value (List.mem_append_left _ h)
  obtain ⟨hafter, hresult⟩ :=
    serves_runAfter henv hbefore fun value h => hsized value (List.mem_append_right _ h)
  constructor
  · intro value program m' hrun inner hreaches
    have hm' : runAfter text env before = m' := by rw [runAfter, hrun]
    have hinner := Machine.Serves.reaches (hm' ▸ hafter) hreaches (hresult value program m' hrun)
    exact ⟨hinner.has.wellFormed, inner.shared⟩
  · intro inner hheld
    have hinner := hafter.holds (fun _ h => h) hheld
    exact ⟨hinner.has.wellFormed, inner.shared⟩

/-- A session in which one text cannot be parsed and one ends with an error. -/
theorem session_wellFormed_negated :
    let texts := ["let f = fn(x) { {x: -x, true: [x]} };", "1 +", "f(1 / 0)"]
    let text := "f(0 - 9223372036854775807 - 1)"
    let env := (Machine.openSession {}).1
    let before := sessionAfter texts env (Machine.openSession {}).2
    (∀ value, .made value ∈ sessionTrace (texts ++ [text]) env (Machine.openSession {}).2 → value.Sized) ∧
      (∀ value program m', runText text env before = .ok (value, program) m' →
        ∀ inner, m'.Reaches value inner → inner.WellFormed env.scope ∧ inner.Shared) ∧
      ∀ inner, (runAfter text env before).Holds (env.scope ≤ ·) inner →
        inner.WellFormed env.scope ∧ inner.Shared := by
  intro texts text env before
  have htrace : (sessionTrace (texts ++ [text]) env (Machine.openSession {}).2).all
      (fun event => match event with | .made value => decide value.Sized | _ => true) = true := by
    decide +kernel
  have hsized : ∀ value, .made value ∈ sessionTrace (texts ++ [text]) env (Machine.openSession {}).2 →
      value.Sized := fun value hvalue => of_decide_eq_true (List.all_eq_true.mp htrace _ hvalue)
  exact ⟨hsized, session_wellFormed {} texts text hsized⟩

end Monkey
