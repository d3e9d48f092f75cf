import Monkey.Proofs.Evaluation.Induction
import Monkey.Session

/-!
# Where pending returns go

A `return` makes a pending return, which blocks and conditionals hand on until a call or the program
takes the value out of it. Only a block, a call and a program look whether a value is one. Every other
construct goes on with the value of a part whatever it is, also if the part is a conditional that gives
a pending return. So the `return` in

    let x = if (true) { return 5; }; 7

does not end the program. It ends the block, and the name is bound to the pending return.

`returnsContained_iff` says that this is the only leak: if no construct takes a pending return from such
a part, then every `return` ends the innermost call or program at once, and no pending return is ever
bound, passed, stored or given as a result. `returnsContained_of_returnsDirectly` is about programs
that have no such part, with a `return` among the statements of its branches, anywhere in their text.
-/

namespace Monkey

open Traced

/-- A construct takes a pending return from a part that may have one as its value. -/
def Event.leaks : Event → Bool
  | .taken part value => part.mayReturn && value.isReturning
  | _ => false

def Untaken (events : List Event) : Prop :=
  ∀ event ∈ events, event.leaks = false

instance (events : List Event) : Decidable (Untaken events) :=
  inferInstanceAs (Decidable (∀ event ∈ events, event.leaks = false))

/-- A pending return is no sooner made than the innermost call or program ends with its value. -/
def EndsCalls (events : List Event) : Prop :=
  ∀ before id value behind, events = before ++ .made (.returning id value) :: behind →
    ∃ more, behind = .gave value :: more

/-- A value that is no pending return, nor a function with other code than the given. -/
def Value.Returnless (code : Node → Prop) (value : Value) : Prop :=
  value.isReturning = false ∧ ∀ body, value.body? = some body → code body

variable {events more : List Event}

theorem Untaken.of_append (h : Untaken (events ++ more)) : Untaken events ∧ Untaken more :=
  List.forall_mem_append.mp h

theorem EndsCalls.append (h : EndsCalls events) (hmore : EndsCalls more) :
    EndsCalls (events ++ more) := by
  intro before id value behind heq
  rcases List.append_eq_append_iff.mp heq with ⟨gap, rfl, hgap⟩ | ⟨gap, rfl, hgap⟩
  · exact hmore gap id value behind hgap
  · cases gap with
    | nil => exact hmore [] id value behind hgap.symm
    | cons first gap =>
      obtain ⟨rfl, rfl⟩ := List.cons.inj hgap
      obtain ⟨rest, rfl⟩ := h before id value gap rfl
      exact ⟨rest ++ more, rfl⟩

theorem endsCalls_of_forall
    (h : ∀ event ∈ events, ∀ id value, event ≠ .made (.returning id value)) : EndsCalls events := by
  rintro before id value behind rfl
  exact absurd rfl (h (.made (.returning id value)) (by simp) id value)

theorem endsCalls_nil : EndsCalls [] :=
  endsCalls_of_forall (by simp)

theorem endsCalls_gave (id : Nat) (value : Value) :
    EndsCalls [.made (.returning id value), .gave value] := by
  intro before id' value' behind heq
  rcases before with _ | ⟨first, _ | ⟨second, before⟩⟩
  · obtain ⟨hfirst, rfl⟩ := List.cons.inj heq
    cases hfirst
    exact ⟨[], rfl⟩
  · simp at heq
  · simp at heq

namespace Traced

variable {α : Type} {code : Node → Prop} {scopes : Nat → Prop} {may may' : Bool} {value : Value}

theorem returnless_of_isError (h : value.isError = true) :
    value.Clear (Value.Returnless code) scopes := by
  obtain ⟨hreturning, hbody, hcaptured, hparts⟩ := isError_spec h
  refine .mk ⟨⟨hreturning, ?_⟩, ?_⟩ ?_
  · simp [hbody]
  · simp [hcaptured]
  · simp [hparts]

/-- What events put somewhere is clear of pending returns, and these end calls. -/
structure Settled (code : Node → Prop) (scopes : Nat → Prop) (events : List Event) : Prop where
  held : ∀ event ∈ events, ∀ value ∈ event.held, value.Clear (Value.Returnless code) scopes
  ends : EndsCalls events

theorem Settled.append (h : Settled code scopes events) (hmore : Settled code scopes more) :
    Settled code scopes (events ++ more) :=
  ⟨List.forall_mem_append.mpr ⟨h.held, hmore.held⟩, h.ends.append hmore.ends⟩

theorem settled_nil : Settled code scopes [] :=
  ⟨by simp, endsCalls_nil⟩

theorem settled_singleton {event : Event} (h : event.Clear (Value.Returnless code) scopes) :
    Settled code scopes [event] := by
  constructor
  · exact List.forall_mem_singleton.mpr fun value hvalue => h.held hvalue
  · apply endsCalls_of_forall
    rw [List.forall_mem_singleton]
    rintro id value rfl
    exact absurd (Value.Clear.has h).1 (by simp [Value.isReturning])

theorem settled_printed (lines : List String) : Settled code scopes (lines.map .printed) := by
  constructor
  · intro event hevent
    obtain ⟨line, -, rfl⟩ := List.mem_map.mp hevent
    simp [Event.held]
  · apply endsCalls_of_forall
    intro event hevent
    obtain ⟨line, -, rfl⟩ := List.mem_map.mp hevent
    simp

/-- How an evaluation with these events may end: with a clear value, or, if it may return, with the
    pending return that its last event makes. Nothing is said of one that halts. -/
inductive Returns (code : Node → Prop) (scopes : Nat → Prop) :
    Bool → List Event → EStateM.Result Halt Machine Value → Prop where
  | value {may : Bool} {events : List Event} {value : Value} {m : Machine}
      (hm : m.Clear (Value.Returnless code) scopes) (hvalue : value.Clear (Value.Returnless code) scopes)
      (hevents : Settled code scopes events) : Returns code scopes may events (.ok value m)
  | pending {before : List Event} {id : Nat} {value : Value} {m : Machine}
      (hm : m.Clear (Value.Returnless code) scopes) (hvalue : value.Clear (Value.Returnless code) scopes)
      (hbefore : Settled code scopes before) :
      Returns code scopes true (before ++ [.made (.returning id value)]) (.ok (.returning id value) m)
  | halt {may : Bool} {events : List Event} {reason : Halt} {m : Machine} :
      Returns code scopes may events (.error reason m)

theorem Returns.prepend {result : EStateM.Result Halt Machine Value}
    (hmore : Settled code scopes more) (h : Returns code scopes may events result) :
    Returns code scopes may (more ++ events) result := by
  cases h with
  | value hm hvalue hevents => exact .value hm hvalue (hmore.append hevents)
  | pending hm hvalue hbefore =>
    rw [← List.append_assoc]
    exact .pending hm hvalue (hmore.append hbefore)
  | halt => exact .halt

theorem Returns.weaken {result : EStateM.Result Halt Machine Value}
    (h : Returns code scopes may events result) (hmay : may = true → may' = true) :
    Returns code scopes may' events result := by
  cases h with
  | value hm hvalue hevents => exact .value hm hvalue hevents
  | pending hm hvalue hbefore =>
    rw [hmay rfl]
    exact .pending hm hvalue hbefore
  | halt => exact .halt

/-- From a clear machine, and if no pending return is taken, an evaluation ends as `Returns` says. -/
def Passes (code : Node → Prop) (scopes : Nat → Prop) (may : Bool) (x : Traced Value) : Prop :=
  ∀ m : Machine, m.Clear (Value.Returnless code) scopes → Untaken (x m).events →
    Returns code scopes may (x m).events (x m).result

theorem passes_pure (h : value.Clear (Value.Returnless code) scopes) :
    Passes code scopes may (pure value) :=
  fun _ hm _ => .value hm h settled_nil

/-- Going on after an evaluation, in one way with a clear value and in another with a pending return. -/
theorem Passes.bind {x : Traced Value} {next : Value → Traced Value} (hx : Passes code scopes may x)
    (hvalue : ∀ value : Value, value.Clear (Value.Returnless code) scopes →
      Passes code scopes may' (next value))
    (hpending : may = true → ∀ before id (value : Value) (m : Machine), Settled code scopes before →
      value.Clear (Value.Returnless code) scopes → m.Clear (Value.Returnless code) scopes →
      Untaken (next (.returning id value) m).events → Returns code scopes may'
        ((before ++ [.made (.returning id value)]) ++ (next (.returning id value) m).events)
        (next (.returning id value) m).result) :
    Passes code scopes may' (x >>= next) := by
  intro m hm huntaken
  have hreturns := hx m hm
  rw [bind_run] at huntaken ⊢
  cases hrun : (x m).result with
  | error reason m' => exact .halt
  | ok value m' =>
    rw [hrun] at hreturns huntaken
    dsimp only at huntaken ⊢
    obtain ⟨hx', hnext'⟩ := huntaken.of_append
    replace hreturns := hreturns hx'
    generalize (x m).events = events at hreturns
    cases hreturns with
    | value hm' hclear hevents => exact (hvalue value hclear m' hm' hnext').prepend hevents
    | pending hm' hclear hbefore => exact hpending rfl _ _ _ m' hbefore hclear hm' hnext'

theorem passes_note {event : Event} {x : Eval α} {next : α → Traced Value}
    (hevent : event.Clear (Value.Returnless code) scopes)
    (hx : ∀ m : Machine, m.Clear (Value.Returnless code) scopes → ∃ a, x m = .ok a (event.apply m) ∧
      (event.apply m).Clear (Value.Returnless code) scopes ∧ Passes code scopes may (next a)) :
    Passes code scopes may (note event x >>= next) := by
  intro m hm huntaken
  obtain ⟨a, hrun, hm', hnext⟩ := hx m hm
  rw [bind_run] at huntaken ⊢
  simp only [note, hrun] at huntaken ⊢
  exact (hnext _ hm' huntaken.of_append.2).prepend (settled_singleton hevent)

theorem passes_take {part : Node} {x : Traced Value} {next : Value → Traced Value}
    (hx : Passes code scopes part.mayReturn x)
    (hnext : ∀ value : Value, value.Clear (Value.Returnless code) scopes →
      Passes code scopes may (next value)) :
    Passes code scopes may (take part x next) := by
  refine hx.bind (fun value hvalue => ?_) fun hmay before id value m _ _ _ huntaken => ?_
  · by_cases herror : value.isError = true
    · rw [if_pos herror]
      exact passes_pure hvalue
    · rw [if_neg herror]
      exact passes_note hvalue fun m hm => ⟨(), rfl, hm, hnext value hvalue⟩
  · -- the construct would take the pending return
    have htaken := huntaken _ List.mem_cons_self
    simp [Event.leaks, hmay, Value.isReturning] at htaken

theorem Passes.handOn {x : Traced Value} {next : Value → Traced Value} (hx : Passes code scopes may x)
    (hnext : ∀ value : Value, value.Clear (Value.Returnless code) scopes →
      Passes code scopes may' (next value))
    (hsignal : ∀ value : Value, (value.isReturning || value.isError) = true → next value = pure value) :
    Passes code scopes (may || may') (x >>= next) := by
  refine hx.bind (fun value hvalue m hm huntaken => ?_) fun hmay before id value m hbefore hvalue hm _ => ?_
  · exact (hnext value hvalue m hm huntaken).weaken (by simp +contextual)
  · rw [hsignal _ rfl, hmay]
    exact List.append_nil _ ▸ .pending hm hvalue hbefore

theorem Passes.finish {x : Traced Value} (hx : Passes code scopes may x) :
    Passes code scopes false (x >>= finish) := by
  refine hx.bind (fun value hvalue m hm _ => ?_) fun _ before id value m hbefore hvalue hm _ => ?_
  · unfold Traced.finish
    split
    · exact .value hm hvalue settled_nil
    · exact .value hm (clear_unwrapped hvalue) (settled_singleton (clear_unwrapped hvalue))
  · rw [List.append_assoc]
    refine .prepend hbefore (.value hm hvalue ⟨?_, endsCalls_gave _ _⟩)
    have hheld := List.forall_mem_singleton.mpr hvalue
    exact List.forall_mem_cons.mpr ⟨hheld, List.forall_mem_singleton.mpr hheld⟩

theorem passes_step {x : Eval Value} (h : ∀ m : Machine, m.Clear (Value.Returnless code) scopes →
    Eval.Primitive (Value.Clear (Value.Returnless code) scopes) x m) :
    Passes code scopes may (step x) := by
  intro m hm _
  obtain ⟨value, lines, count, hrun, hcount, hvalue⟩ := step_run (h m hm)
  have hclear : value.Clear (Value.Returnless code) scopes :=
    hvalue.elim (fun hvalue => hvalue) fun herror => returnless_of_isError herror.1
  rw [hrun]
  refine .prepend (settled_printed lines) (.value (hm.grown lines count) hclear ?_)
  split
  · exact settled_singleton hclear
  · exact settled_nil

/-- The one step that makes a pending return. -/
theorem passes_returning (h : value.Clear (Value.Returnless code) scopes) :
    Passes code scopes true (step (Eval.returning value)) := by
  intro m hm _
  rw [show step (Eval.returning value) m = _ from step_new (Value.returning · value) m]
  show Returns code scopes true ([] ++ [.made (.returning m.objects value)]) _
  exact .pending (hm.grown [] 1) h settled_nil

theorem compositional_passes :
    Compositional code (Value.Returnless code) scopes (Passes code scopes) where
  weaken h hmay := fun m hm huntaken => (h m hm huntaken).weaken hmay
  halting _ := fun _ _ _ => .halt
  giving := passes_pure
  stepping := passes_step
  returning := passes_returning
  noting := passes_note
  taking _ _ := passes_take
  handingOn := Passes.handOn
  finishing := Passes.finish

end Traced

/-! ### Runs of programs -/

/-- In the evaluation of a node to a value, every `return` ends exactly the innermost call or program,
    and no pending return gets anywhere else. -/
structure Node.ReturnsContained (depth : Nat) (node : Node) (env : Env) (m : Machine) (value : Value)
    (m' : Machine) : Prop where
  ends : EndsCalls (node.trace depth env m)
  /-- No pending return is ever taken by a construct, bound, passed to a call, given by a call or a
      program, or put into a new value. -/
  held : ∀ event ∈ node.trace depth env m, ∀ value ∈ event.held,
    value.All fun inner => inner.isReturning = false
  result : value.All fun inner => inner.isReturning = false
  /-- Neither the environment nor any scope that was opened holds a pending return in the end. -/
  leaves : ∀ value, m'.Holds (fun scope => scope ∈ env.chain ∨ m.scopes.size ≤ scope) value →
    value.isReturning = false

variable {depth : Nat} {env : Env} {m m' : Machine} {value : Value}

theorem Node.ReturnsContained.untaken {node : Node} (h : node.ReturnsContained depth env m value m') :
    Untaken (node.trace depth env m) := by
  intro event hevent
  cases event with
  | taken part value =>
    have hvalue := (h.held _ hevent value List.mem_cons_self).here
    simp [Event.leaks, hvalue]
  | _ => rfl

theorem admissible_returnless {code : Node → Prop}
    (htaken : ∀ {node part : Node}, code node → part ∈ node.taken → code part)
    (hhanded : ∀ {node part : Node}, code node → part ∈ node.handed → code part) :
    Admissible code (Value.Returnless code) where
  taken := htaken
  handed := hhanded
  lenient _ _ hreturning hbody := ⟨hreturning, by simp [hbody]⟩
  function := by simp [Value.Returnless, Value.isReturning, Value.body?]

theorem returnsContained_of_untaken {code : Node → Prop}
    (hcode : Admissible code (Value.Returnless code)) {statements : List Node}
    (hprogram : code (.program statements))
    (henv : ∀ value, m.Holds (· ∈ env.chain) value → value.Returnless code)
    (hrun : (Node.program statements).evalWithin depth env m = .ok value m')
    (huntaken : Untaken ((Node.program statements).trace depth env m)) :
    (Node.program statements).ReturnsContained depth env m value m' := by
  have hroots : ∀ scope ∈ env.chain, m.Reached (· ∈ env.chain) scope := fun scope hscope => .inl hscope
  have hclear := Machine.clear_reached henv
  have hresult : ((Node.program statements).tracedWithin depth env m).result = .ok value m' :=
    (congrFun (erase_tracedWithin depth (.program statements) env) m).trans hrun
  have hpasses := compositional_passes.holds_tracedWithin hcode depth hprogram hroots
  have hreturns := hpasses m hclear huntaken
  rw [hresult] at hreturns
  cases hreturns with
  | value hm' hvalue hevents =>
    constructor
    · exact hevents.ends
    · intro event hevent part hpart inner hinner
      exact (hevents.held event hevent part hpart inner hinner).1.1
    · intro inner hinner
      exact (hvalue inner hinner).1.1
    · intro inner hinner
      apply (hm'.holds ?_ hinner).has.1
      rintro scope (hscope | hscope)
      · exact hroots scope hscope
      · exact hclear.fresh scope hscope

/-- For the run of a program to a value, in an environment that holds no pending return: each `return`
    ends the innermost call or the program, and no pending return gets anywhere else, exactly if no
    construct takes a pending return from a conditional that is one of its parts. -/
theorem returnsContained_iff {statements : List Node}
    (henv : ∀ value, m.Holds (· ∈ env.chain) value → value.isReturning = false)
    (hrun : (Node.program statements).evalWithin depth env m = .ok value m') :
    Untaken ((Node.program statements).trace depth env m) ↔
      (Node.program statements).ReturnsContained depth env m value m' := by
  constructor
  · have hcode : Admissible (fun _ => True) (Value.Returnless fun _ => True) :=
      admissible_returnless (fun _ _ => trivial) fun _ _ => trivial
    exact returnsContained_of_untaken hcode trivial (fun v hv => ⟨henv v hv, fun _ _ => trivial⟩) hrun
  · exact fun h => h.untaken

/-- A `return` in a branch, as a statement of a function body. -/
theorem returnsContained_statement :
    ∃ statements id m', parse "fn(a) \x7b if (a) \x7b return 1; \x7d 2 \x7d(true)" = ⟨statements, []⟩ ∧
      (Node.program statements).evalWithin depthLimit (Machine.openSession {}).1
        (Machine.openSession {}).2 = .ok (.integer id 1) m' ∧
      (Node.program statements).ReturnsContained depthLimit (Machine.openSession {}).1
        (Machine.openSession {}).2 (.integer id 1) m' :=
  ⟨_, _, _, rfl, rfl,
    (returnsContained_iff (fun _ h => absurd h Machine.not_holds_openSession) rfl).mp (by decide)⟩

/-- A `return` in a branch whose value is bound. -/
theorem not_returnsContained_let :
    ∃ statements id m', parse "let x = if (true) \x7b return 5; \x7d; 7" = ⟨statements, []⟩ ∧
      (Node.program statements).evalWithin depthLimit (Machine.openSession {}).1
        (Machine.openSession {}).2 = .ok (.integer id 7) m' ∧
      ¬ (Node.program statements).ReturnsContained depthLimit (Machine.openSession {}).1
        (Machine.openSession {}).2 (.integer id 7) m' :=
  ⟨_, _, _, rfl, rfl, fun h => absurd h.untaken (by decide)⟩

/-! ### Programs without such conditionals -/

/-- No construct in a node takes the value of a part that may be a pending return. -/
def Node.ReturnsDirectly (node : Node) : Prop :=
  ∀ inner, node.Contains inner → ∀ part ∈ inner.taken, part.mayReturn = false

theorem admissible_returnsDirectly :
    Admissible Node.ReturnsDirectly (Value.Returnless Node.ReturnsDirectly) :=
  admissible_returnless (fun h hpart inner hinner => h inner (.taken hpart hinner))
    fun h hpart inner hinner => h inner (.handed hpart hinner)

namespace Traced

variable {code : Node → Prop} {scopes : Nat → Prop} {may : Bool}

/-- From a clear machine, an evaluation takes no pending return. -/
def TakesNone (code : Node → Prop) (scopes : Nat → Prop) (x : Traced Value) : Prop :=
  ∀ m : Machine, m.Clear (Value.Returnless code) scopes → Untaken (x m).events

theorem leaks_of_clear {event : Event} (h : event.Clear (Value.Returnless code) scopes) :
    event.leaks = false := by
  cases event with
  | taken part value =>
    have hvalue : value.isReturning = false := (Value.Clear.has h).1
    simp [Event.leaks, hvalue]
  | _ => rfl

theorem takesNone_bind {x : Traced Value} {next : Value → Traced Value}
    (hx : Passes code scopes may x ∧ TakesNone code scopes x)
    (hvalue : ∀ value : Value, value.Clear (Value.Returnless code) scopes →
      TakesNone code scopes (next value))
    (hpending : may = true → ∀ id value m, Untaken (next (.returning id value) m).events) :
    TakesNone code scopes (x >>= next) := by
  intro m hm
  have huntaken := hx.2 m hm
  have hreturns := hx.1 m hm huntaken
  rw [bind_run]
  cases hrun : (x m).result with
  | error reason m' => exact huntaken
  | ok value m' =>
    rw [hrun] at hreturns
    refine List.forall_mem_append.mpr ⟨huntaken, ?_⟩
    generalize (x m).events = events at hreturns
    cases hreturns with
    | value hm' hclear _ => exact hvalue value hclear m' hm'
    | pending _ _ _ => exact hpending rfl _ _ m'

theorem compositional_takesNone
    (hcode : ∀ {node part : Node}, code node → part ∈ node.taken → part.mayReturn = false) :
    Compositional code (Value.Returnless code) scopes fun may x =>
      Passes code scopes may x ∧ TakesNone code scopes x where
  weaken h hmay := ⟨compositional_passes.weaken h.1 hmay, h.2⟩
  halting h := ⟨compositional_passes.halting h, fun _ _ => by simp [Untaken]⟩
  giving h := ⟨passes_pure h, fun _ _ => by simp [Untaken, pure]⟩
  stepping hx := by
    constructor
    · exact passes_step hx
    · intro m hm
      obtain ⟨value, lines, count, hrun, -⟩ := step_run (hx m hm)
      rw [hrun]
      intro event hevent
      rcases List.mem_append.mp hevent with hevent | hevent
      · obtain ⟨line, -, rfl⟩ := List.mem_map.mp hevent
        rfl
      · split at hevent
        · rw [List.mem_singleton.mp hevent]
          rfl
        · cases hevent
  returning {value} h := by
    constructor
    · exact passes_returning h
    · intro m _
      rw [show step (Eval.returning value) m = _ from step_new (Value.returning · value) m]
      simp [Untaken, Event.leaks]
  noting hevent hx := by
    constructor
    · apply passes_note hevent
      intro m hm
      obtain ⟨a, hrun, hm', hnext⟩ := hx m hm
      exact ⟨a, hrun, hm', hnext.1⟩
    · intro m hm
      obtain ⟨a, hrun, hm', hnext⟩ := hx m hm
      rw [bind_run]
      simp only [note, hrun]
      exact List.forall_mem_cons.mpr ⟨leaks_of_clear hevent, hnext.2 _ hm'⟩
  taking hnode hpart hx hnext := by
    constructor
    · exact passes_take hx.1 fun value hvalue => (hnext value hvalue).1
    · apply takesNone_bind hx
      · intro value hvalue m hm
        by_cases herror : value.isError = true
        · rw [if_pos herror]
          simp [Untaken, pure]
        · rw [if_neg herror]
          exact List.forall_mem_cons.mpr ⟨leaks_of_clear hvalue, (hnext value hvalue).2 m hm⟩
      · intro hmay
        rw [hcode hnode hpart] at hmay
        cases hmay
  handingOn hx hnext hsignal := by
    constructor
    · exact hx.1.handOn (fun value hvalue => (hnext value hvalue).1) hsignal
    · apply takesNone_bind hx (fun value hvalue => (hnext value hvalue).2)
      intro _ id value m
      rw [hsignal _ rfl]
      simp [Untaken, pure]
  finishing hx := by
    have hfinish (value : Value) (m : Machine) : Untaken (finish value m).events := by
      unfold finish
      split <;> simp [Untaken, pure, note, Event.leaks]
    exact ⟨hx.1.finish, takesNone_bind hx (fun value _ m _ => hfinish value m) fun _ _ _ => hfinish _⟩

end Traced

/-- If neither a program nor a function that its environment holds has a conditional with a `return`
    among the statements of its branches as a part that a construct goes on with, then no `return` leaks
    out of its call. -/
theorem returnsContained_of_returnsDirectly {statements : List Node}
    (hprogram : (Node.program statements).ReturnsDirectly)
    (henv : ∀ value, m.Holds (· ∈ env.chain) value → value.Returnless Node.ReturnsDirectly)
    (hrun : (Node.program statements).evalWithin depth env m = .ok value m') :
    (Node.program statements).ReturnsContained depth env m value m' := by
  have hroots : ∀ scope ∈ env.chain, m.Reached (· ∈ env.chain) scope := fun scope hscope => .inl hscope
  have hnone := (compositional_takesNone fun h => h _ .refl _).holds_tracedWithin
    admissible_returnsDirectly depth hprogram hroots
  exact returnsContained_of_untaken admissible_returnsDirectly hprogram henv hrun
    (hnone.2 m (Machine.clear_reached henv))

end Monkey
