import Monkey.Proofs.Evaluation.Correspondence
import Monkey.Proofs.Evaluation.Transfer
import Monkey.Session

/-!
# Runs that differ by a transfer

Two machines are paired if each scope of the first stands in the second, with the values in it transferred,
but for some names that are hidden: what they are bound to may be anything (`Pairing.Pairs`). The second
machine may hold more scopes, which nothing in the first stands for, and which were all opened before. So the
machines correspond, with all numbers greater by so many, and what is known of corresponding runs holds of paired
ones: evaluating a node is tracked by evaluating the same node, with other tokens if need be, in the environment
that stands for the first one (`mirrors_evalWithin`).

Machines also correspond if they differ by what has been printed on them alone, which has no bearing on what
an evaluation leaves (`Correspondence.clearOutput_evalWithin`).
-/

namespace Monkey

/-- How two runs belong together: how the values of the first stand in the second, which names a scope may
    bind otherwise in the second run, and which scopes the first run may look into. -/
structure Pairing extends Transfer where
  hidden : Nat → List String
  seen : Nat → Prop

namespace Pairing

variable (c : Pairing)

/-- No scope of an environment hides a name. -/
def Known (env : Env) (name : String) : Prop :=
  ∀ scope ∈ env.chain, name ∉ c.hidden scope

/-- The first run may look into all scopes of an environment. -/
def Sees (env : Env) : Prop :=
  ∀ scope ∈ env.chain, c.seen scope

/-- A function mentions no name that a scope of its environment hides. -/
def Admits (value : Value) : Prop :=
  ∀ scope ∈ value.captured, ∀ name ∈ value.names, name ∉ c.hidden scope

def Clear (value : Value) : Prop :=
  value.Clear c.Admits c.seen

/-- What is on the first machine stands on the second one, too. -/
structure Pairs (m m' : Machine) : Prop where
  size : m'.scopes.size = m.scopes.size + c.scopes
  objects : m'.objects = m.objects + c.objects
  output : m'.output = m.output
  bindings : ∀ scope, Bindings.without (c.hidden scope) (m'.bindings (scope + c.scopes)) =
    Assoc.mapValues (Value.transfer c.toTransfer) (Bindings.without (c.hidden scope) (m.bindings scope))
  fresh : ∀ scope, m.scopes.size ≤ scope → c.hidden scope = []
  clear : m.Clear c.Admits c.seen

/-- Both evaluations give a value or halt, the second one giving the image of the first one's value, and
    leave paired machines. -/
inductive Outcomes (c : Pairing) {ε α β : Type} (good : α → Prop) (h : α → β) :
    EStateM.Result ε Machine α → EStateM.Result ε Machine β → Prop where
  | ok {a : α} {m m' : Machine} (ha : good a) (hm : c.Pairs m m') : Outcomes c good h (.ok a m) (.ok (h a) m')
  | error {reason : ε} {m m' : Machine} (hm : c.Pairs m m') :
      Outcomes c good h (.error reason m) (.error reason m')

/-- On paired machines `x'` does what `x` does. -/
def Tracks {α β : Type} (c : Pairing) (good : α → Prop) (h : α → β) (x : Eval α) (x' : Eval β) : Prop :=
  ∀ m m' : Machine, c.Pairs m m' → c.Outcomes good h (x m) (x' m')

/-- What is said of evaluations that give values: the second gives the first one's, transferred. -/
abbrev Mirrors (c : Pairing) (x x' : Eval Value) : Prop :=
  c.Tracks c.Clear (Value.transfer c.toTransfer) x x'

variable {c : Pairing}

/-! ### Paired machines correspond -/

/-- The correspondence that a pairing is. -/
def correspondence (c : Pairing) : Correspondence :=
  { c.renumbering with hidden := c.hidden, seen := c.seen, printed := #[], printed' := #[] }

theorem renumber_correspondence (c : Pairing) :
    Value.renumber c.correspondence.toRenumbering = Value.transfer c.toTransfer :=
  funext fun value => (value.transfer_eq c.toTransfer).symm

section Machines

variable {m m' : Machine}

theorem matches_correspondence : c.correspondence.Matches m m' ↔ c.Pairs m m' := by
  constructor
  · rintro ⟨hscopes, hobjects, ⟨lines, hm, hm'⟩, hbindings, hfresh, hclear⟩
    rw [renumber_correspondence] at hbindings
    exact ⟨(hscopes 0).symm, (hobjects 0).symm, hm'.trans hm.symm, hbindings, hfresh, hclear⟩
  · rintro ⟨hsize, hobjects, houtput, hbindings, hfresh, hclear⟩
    refine ⟨fun i => ?_, fun i => ?_, ⟨m.output, ?_, ?_⟩, ?_, hfresh, hclear⟩
    · show m.scopes.size + i + c.scopes = _
      omega
    · show m.objects + i + c.objects = _
      omega
    · exact (Array.empty_append).symm
    · exact houtput.trans (Array.empty_append).symm
    · rw [renumber_correspondence]
      exact hbindings

theorem Pairs.openScope (h : c.Pairs m m') (outer outer' : List Nat) {bindings : Bindings}
    (hbindings : ∀ entry ∈ bindings, c.Clear entry.2) :
    c.Pairs (m.openScope outer bindings).2
      (m'.openScope outer' (Assoc.mapValues (Value.transfer c.toTransfer) bindings)).2 := by
  rw [← renumber_correspondence]
  exact matches_correspondence.mp ((matches_correspondence.mpr h).openScope outer outer' hbindings)

theorem Pairs.clearOutput (h : c.Pairs m m') : c.Pairs m.clearOutput m'.clearOutput where
  size := h.size
  objects := h.objects
  output := rfl
  bindings := h.bindings
  fresh := h.fresh
  clear := ⟨h.clear.fresh, h.clear.bound⟩

end Machines

/-! ### Corresponding runs are paired -/

theorem mirrors_of_correspondence {x x' : Eval Value} (h : c.correspondence.Mirrors x x') : c.Mirrors x x' := by
  intro m m' hm
  have houtcomes := h m m' (matches_correspondence.mpr hm)
  rw [renumber_correspondence] at houtcomes
  generalize x m = outcome, x' m' = outcome' at houtcomes ⊢
  cases houtcomes with
  | ok ha hm => exact .ok ha (matches_correspondence.mp hm)
  | error hm => exact .error (matches_correspondence.mp hm)

/-- Evaluating a node that names nothing hidden, with other tokens and in the environment that stands for the
    first one, does what evaluating the node does. -/
theorem mirrors_evalWithin (depth : Nat) (node : Node) {env : Env} (henv : c.Sees env)
    (hnames : ∀ name ∈ node.names, c.Known env name) :
    c.Mirrors (node.evalWithin depth env)
      ((node.relabel c.tokens).evalWithin depth (env.transfer c.toTransfer)) :=
  mirrors_of_correspondence (Correspondence.mirrors_evalWithin depth node henv hnames)

theorem mirrors_evalSequence (depth : Nat) {env : Env} (henv : c.Sees env) (statements : List Node)
    (hnames : ∀ name ∈ Node.namesAll statements, c.Known env name) (last : Value) (hlast : c.Clear last) :
    c.Mirrors (evalSequence (Node.evalWithin depth) env last statements)
      (evalSequence (Node.evalWithin depth) (env.transfer c.toTransfer) (last.transfer c.toTransfer)
        (Node.relabelAll c.tokens statements)) := by
  rw [Value.transfer_eq]
  exact mirrors_of_correspondence (Correspondence.mirrors_evalSequence (c := c.correspondence)
    (fun body env => Correspondence.mirrors_evalWithin depth body) henv statements hnames last hlast)

/-- The same for a text, which is read with the same tokens on both sides. -/
theorem outcomes_runText (source : String) {env : Env} {m m' : Machine}
    (htokens : c.tokens = Relocation.id.relabeling) (henv : c.Sees env)
    (hnames : ∀ program, parseProgram source = .ok program → ∀ name ∈ program.names, c.Known env name)
    (hm : c.Pairs m m') :
    c.Outcomes (fun result => c.Clear result.1) (fun result => (result.1.transfer c.toTransfer, result.2))
      (runText source env m) (runText source (env.transfer c.toTransfer) m') := by
  cases hparse : parseProgram source with
  | error errors =>
    simp only [runText, hparse]
    exact .error hm
  | ok program =>
    have hrun := mirrors_evalWithin depthLimit program henv (hnames program hparse) m m' hm
    rw [htokens, Node.relabel_id] at hrun
    simp only [runText, hparse, Bind.bind, EStateM.bind, Eval.toRun, Node.eval]
    generalize program.evalWithin depthLimit env m = outcome,
      program.evalWithin depthLimit (env.transfer c.toTransfer) m' = outcome' at hrun ⊢
    cases hrun with
    | @ok value _ _ hvalue hm => exact .ok (a := (value, program)) hvalue hm
    | error hm => exact .error hm

/-! ### Pairings that hide nothing -/

/-- The pairing that hides nothing and sees everything. -/
def whole (t : Transfer) : Pairing :=
  { t with hidden := fun _ => [], seen := fun _ => True }

section Whole

variable (t : Transfer)

theorem known_whole (env : Env) (name : String) : (whole t).Known env name :=
  fun _ _ => List.not_mem_nil

theorem sees_whole (env : Env) : (whole t).Sees env :=
  fun _ _ => trivial

theorem clear_whole (value : Value) : (whole t).Clear value :=
  fun _ _ => ⟨fun _ _ _ _ => List.not_mem_nil, fun _ _ => trivial⟩

theorem pairs_whole {m m' : Machine} (hsize : m'.scopes.size = m.scopes.size + t.scopes)
    (hobjects : m'.objects = m.objects + t.objects) (houtput : m'.output = m.output)
    (hbindings : ∀ scope,
      m'.bindings (scope + t.scopes) = Assoc.mapValues (Value.transfer t) (m.bindings scope)) :
    (whole t).Pairs m m' where
  size := hsize
  objects := hobjects
  output := houtput
  bindings scope := by
    show Bindings.without [] _ = Assoc.mapValues _ (Bindings.without [] _)
    rw [Bindings.without_nil, Bindings.without_nil]
    exact hbindings scope
  fresh _ _ := rfl
  clear := ⟨fun _ _ => trivial, fun _ _ entry _ => clear_whole t entry.2⟩

theorem Pairs.bindings_whole {m m' : Machine} (h : (whole t).Pairs m m') (scope : Nat) :
    m'.bindings (scope + t.scopes) = Assoc.mapValues (Value.transfer t) (m.bindings scope) := by
  have hbindings := h.bindings scope
  rwa [show (whole t).hidden scope = [] from rfl, Bindings.without_nil, Bindings.without_nil] at hbindings

theorem mirrors_whole (depth : Nat) (node : Node) (env : Env) :
    (whole t).Mirrors (node.evalWithin depth env)
      ((node.relabel t.tokens).evalWithin depth (env.transfer t)) :=
  mirrors_evalWithin depth node (sees_whole t env) fun name _ => known_whole t env name

end Whole

end Pairing

/-! ### What was printed before -/

namespace Correspondence

/-- The correspondence of machines that hold the same and differ by what has been printed on them. -/
def reprinted (printed printed' : Array String) : Correspondence :=
  { Transfer.id.renumbering with hidden := fun _ => [], seen := fun _ => True, printed, printed' }

variable {printed printed' : Array String} {m m' : Machine}

theorem renumber_reprinted : Value.renumber (reprinted printed printed').toRenumbering = Value.transfer .id :=
  funext fun value => (value.transfer_eq .id).symm

theorem clear_reprinted (value : Value) : (reprinted printed printed').Clear value :=
  fun _ _ => ⟨fun _ _ _ _ => List.not_mem_nil, fun _ _ => trivial⟩

theorem matches_reprinted (h : m'.clearOutput = m.clearOutput) :
    (reprinted m.output m'.output).Matches m m' := by
  obtain ⟨hscopes, hobjects, -⟩ := Machine.mk.inj h
  refine ⟨fun i => ?_, fun i => ?_, ?_, fun scope => ?_, fun _ _ => rfl, ?_⟩
  · show m.scopes.size + i + 0 = _
    rw [hscopes, Nat.add_zero]
  · show m.objects + i + 0 = _
    rw [hobjects, Nat.add_zero]
  · exact ⟨#[], Array.append_empty.symm, Array.append_empty.symm⟩
  · have hbindings : m'.bindings scope = m.bindings scope := by rw [Machine.bindings, Machine.bindings, hscopes]
    rw [renumber_reprinted, Assoc.mapValues_id]
    exact congrArg (Bindings.without []) hbindings
  · exact ⟨fun _ _ => trivial, fun _ _ entry _ => clear_reprinted entry.2⟩

theorem Matches.clearOutput_eq (h : (reprinted printed printed').Matches m m') :
    m'.clearOutput = m.clearOutput := by
  have hscopes : m'.scopes = m.scopes := by
    refine Machine.scopes_ext (h.scopes 0).symm fun scope => ?_
    have hbindings := h.bindings scope
    rw [renumber_reprinted, Assoc.mapValues_id] at hbindings
    rwa [show (reprinted printed printed').hidden scope = [] from rfl, Bindings.without_nil,
      Bindings.without_nil] at hbindings
  have hobjects : m'.objects = m.objects := (h.objects 0).symm
  rw [Machine.clearOutput, Machine.clearOutput, hscopes, hobjects]

/-- An evaluation leaves the same on machines that hold the same, whatever has been printed on them. -/
theorem clearOutput_evalWithin (h : m'.clearOutput = m.clearOutput) (depth : Nat) (node : Node) (env : Env) :
    ((node.evalWithin depth env).after m').clearOutput = ((node.evalWithin depth env).after m).clearOutput := by
  have henv : env.renumber (reprinted m.output m'.output).toRenumbering = env :=
    env.transfer_of_scopes (t := .id) rfl
  have hmirrors : (reprinted m.output m'.output).Mirrors (node.evalWithin depth env)
      ((node.relabel Relocation.id.relabeling).evalWithin depth (env.renumber _)) :=
    mirrors_evalWithin depth node (fun _ _ => trivial) fun _ _ _ _ => List.not_mem_nil
  rw [Node.relabel_id, henv] at hmirrors
  have hrun := hmirrors m m' (matches_reprinted h)
  rw [Eval.after, Eval.after]
  generalize node.evalWithin depth env m = outcome, node.evalWithin depth env m' = outcome' at hrun ⊢
  cases hrun with
  | ok _ hm => exact hm.clearOutput_eq
  | error hm => exact hm.clearOutput_eq

end Correspondence

end Monkey
