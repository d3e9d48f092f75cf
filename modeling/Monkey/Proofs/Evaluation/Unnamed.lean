import Monkey.Proofs.Evaluation.Pairing
import Monkey.Proofs.Grammar.Names

/-!
# Bindings that a program does not name

What a name is bound to makes no difference to a program that does not have this name among its identifiers,
unless it calls a function that has it. So a text is run with the same outcome, in every respect, in an
environment where the name is bound otherwise or not at all, if no function that looks names up there mentions
it (`runText_sameBut`). A function that was made elsewhere may mention the name: it never sees this binding.
-/

namespace Monkey

/-! ### Machines that differ in one binding -/

/-- The second machine differs from the first in what a name is bound to in one scope, and in nothing else. -/
structure Machine.SameBut (scope : Nat) (name : String) (m m' : Machine) : Prop where
  size : m'.scopes.size = m.scopes.size
  objects : m'.objects = m.objects
  output : m'.output = m.output
  own : Bindings.without [name] (m'.bindings scope) = Bindings.without [name] (m.bindings scope)
  others : ∀ other ≠ scope, m'.bindings other = m.bindings other

/-- Both runs give the same or fail alike, on machines that differ in the one binding only. -/
inductive SameOutcome (scope : Nat) (name : String) {ε α : Type} :
    EStateM.Result ε Machine α → EStateM.Result ε Machine α → Prop where
  | ok {a : α} {m m' : Machine} (hm : m.SameBut scope name m') : SameOutcome scope name (.ok a m) (.ok a m')
  | error {reason : ε} {m m' : Machine} (hm : m.SameBut scope name m') :
      SameOutcome scope name (.error reason m) (.error reason m')

namespace Machine

variable {scope : Nat} {name : String} {m m' : Machine}

theorem SameBut.refl (m : Machine) : m.SameBut scope name m :=
  ⟨rfl, rfl, rfl, rfl, fun _ _ => rfl⟩

/-- To bind a name in an environment changes nothing but this. -/
theorem sameBut_bind (m : Machine) (env : Env) (name : String) (value : Value) :
    m.SameBut env.scope name (m.bind env name value) := by
  have hframe := m.frame_bind env (List.mem_singleton_self name) value
  have hsize : (m.bind env name value).scopes.size = m.scopes.size := by simp [bind]
  have hbeyond (other : Nat) (hother : m.scopes.size ≤ other) :
      (m.bind env name value).bindings other = m.bindings other := by
    rw [bindings_of_size_le hother, bindings_of_size_le (hsize.symm ▸ hother)]
  refine ⟨hsize, rfl, rfl, ?_, fun other hne => ?_⟩
  · rcases Nat.lt_or_ge env.scope m.scopes.size with hscope | hscope
    · exact hframe.own hscope
    · rw [hbeyond _ hscope]
  · rcases Nat.lt_or_ge other m.scopes.size with hother | hother
    · exact hframe.others other hother hne
    · exact hbeyond other hother

/-- In a scope that there is not, no name is bound. -/
theorem SameBut.eq_of_size_le (h : m.SameBut scope name m') (hscope : m.scopes.size ≤ scope) : m' = m := by
  have hscopes : m'.scopes = m.scopes := by
    refine scopes_ext h.size fun other => ?_
    by_cases hother : other = scope
    · rw [hother, bindings_of_size_le hscope, bindings_of_size_le (h.size.symm ▸ hscope)]
    · exact h.others other hother
  obtain ⟨scopes, objects, output⟩ := m'
  simp only at hscopes
  rw [hscopes, show objects = m.objects from h.objects, show output = m.output from h.output]

end Machine

theorem SameOutcome.refl {scope : Nat} {name : String} {ε α : Type} (outcome : EStateM.Result ε Machine α) :
    SameOutcome scope name outcome outcome := by
  cases outcome with
  | ok a m => exact .ok (.refl m)
  | error reason m => exact .error (.refl m)

/-! ### The pairing of the two runs -/

namespace Pairing

/-- Runs that see the given scopes and need not agree on a name in one scope. -/
def allBut (scope : Nat) (name : String) (seen : Nat → Prop) : Pairing :=
  { Transfer.id with hidden := fun other => if other = scope then [name] else [], seen }

variable {scope : Nat} {name : String} {seen : Nat → Prop}

theorem hidden_allBut : (allBut scope name seen).hidden scope = [name] :=
  if_pos rfl

theorem hidden_allBut_of_ne {other : Nat} (h : other ≠ scope) : (allBut scope name seen).hidden other = [] :=
  if_neg h

theorem not_mem_hidden {other : Nat} {word : String} (h : other = scope → word ≠ name) :
    word ∉ (allBut scope name seen).hidden other := by
  by_cases hother : other = scope
  · rw [hother, hidden_allBut, List.mem_singleton]
    exact h hother
  · rw [hidden_allBut_of_ne hother]
    exact List.not_mem_nil

theorem pairs_allBut {m m' : Machine} (h : m.SameBut scope name m') (hscope : scope < m.scopes.size)
    (hclear : m.Clear (allBut scope name seen).Admits seen) : (allBut scope name seen).Pairs m m' where
  size := h.size
  objects := h.objects
  output := h.output
  bindings other := by
    refine Eq.trans ?_ (Assoc.mapValues_id _).symm
    by_cases hother : other = scope
    · rw [hother, hidden_allBut]
      exact h.own
    · exact congrArg _ (h.others other hother)
  fresh other hother := hidden_allBut_of_ne (by omega)
  clear := hclear

theorem sameBut_of_pairs {m m' : Machine} (h : (allBut scope name seen).Pairs m m') :
    m.SameBut scope name m' := by
  have hbindings (other : Nat) : Bindings.without ((allBut scope name seen).hidden other) (m'.bindings other) =
      Bindings.without ((allBut scope name seen).hidden other) (m.bindings other) :=
    (h.bindings other).trans (Assoc.mapValues_id _)
  refine ⟨h.size, h.objects, h.output, ?_, fun other hother => ?_⟩
  · have hown := hbindings scope
    rwa [hidden_allBut] at hown
  · have hother' := hbindings other
    rwa [hidden_allBut_of_ne hother, Bindings.without_nil, Bindings.without_nil] at hother'

theorem sameOutcome_of_outcomes {ε α : Type} {good : α → Prop} {h : α → α}
    {outcome outcome' : EStateM.Result ε Machine α} (hid : ∀ a, h a = a)
    (houtcomes : (allBut scope name seen).Outcomes good h outcome outcome') :
    SameOutcome scope name outcome outcome' := by
  cases houtcomes with
  | ok _ hm =>
    rw [hid]
    exact .ok (sameBut_of_pairs hm)
  | error hm => exact .error (sameBut_of_pairs hm)

end Pairing

/-! ### Programs -/

section

variable {env : Env} {m m' : Machine} {name : String}

/-- Running a text has the same outcome whatever a name is bound to that is no identifier of the text, and so
    has evaluating its program to any depth, if no function around that sees this binding mentions the name. -/
theorem runText_sameBut {source : String} (hname : name ∉ identifiersOf (tokenize source))
    (hvalues : ∀ value, m.Holds (· ∈ env.chain) value → env.scope ∈ value.captured → name ∉ value.names)
    (h : m.SameBut env.scope name m') :
    SameOutcome env.scope name (runText source env m) (runText source env m') ∧
      ∀ program, parseProgram source = .ok program → ∀ depth,
        SameOutcome env.scope name (program.evalWithin depth env m) (program.evalWithin depth env m') := by
  rcases Nat.lt_or_ge env.scope m.scopes.size with hscope | hscope
  · let c := Pairing.allBut env.scope name (m.Reached (· ∈ env.chain))
    have hadmits : ∀ value, m.Holds (· ∈ env.chain) value → c.Admits value := by
      intro value hvalue scope hcaptured word hword
      refine Pairing.not_mem_hidden fun hown heq => ?_
      exact hvalues value hvalue (hown ▸ hcaptured) (heq ▸ hword)
    have hpairs : c.Pairs m m' := Pairing.pairs_allBut h hscope (Machine.clear_reached hadmits)
    have hsees : c.Sees env := fun scope hscope => .inl hscope
    have hknown : ∀ program, parseProgram source = .ok program → ∀ word ∈ program.names, c.Known env word := by
      intro program hparse word hword scope _
      exact Pairing.not_mem_hidden fun _ heq => hname (heq ▸ names_of_parseProgram hparse hword)
    have henv : env.transfer c.toTransfer = env := env.transfer_of_scopes rfl
    constructor
    · have hrun := Pairing.outcomes_runText source rfl hsees hknown hpairs
      rw [henv] at hrun
      have hid : ∀ result : Value × Node, (result.1.transfer c.toTransfer, result.2) = result :=
        fun result => Prod.ext (Value.transfer_id result.1) rfl
      exact Pairing.sameOutcome_of_outcomes hid hrun
    · intro program hparse depth
      have hmirrors := Pairing.mirrors_evalWithin depth program hsees (hknown program hparse) m m' hpairs
      rw [henv, show c.tokens = Relocation.id.relabeling from rfl, Node.relabel_id] at hmirrors
      exact Pairing.sameOutcome_of_outcomes Value.transfer_id hmirrors
  · rw [h.eq_of_size_le hscope]
    exact ⟨.refl _, fun _ _ _ => .refl _⟩

theorem runText_sameBut_closures :
    let token : Token := ⟨.ident, "", 0, 0⟩
    let word (text : String) : Node := .identifier ⟨token, text⟩
    let body (node : Node) : Node := .block token [.expressionStatement token node]
    -- `secret` mentions the name and was made in a scope of its own, from where `call` takes it
    let elsewhere : Bindings := [("secret", .function 0 [] (body (word "z")) ⟨0, []⟩)]
    let around : Bindings :=
      [("y", .integer 1 5), ("call", .function 2 [] (body (.call token (word "secret") [])) ⟨0, []⟩),
        ("get", .function 3 ["x"] (body (.binary token (word "x") "+" (word "y"))) ⟨1, []⟩)]
    let m : Machine := { scopes := #[elsewhere, around], objects := 4 }
    let env : Env := ⟨1, []⟩
    let m' := m.bind env "z" (.function 4 ["get"] (body (word "z")) env)
    let source := "let a = get(1); puts(a); let b = fn(k) \x7b k + a \x7d; puts(b(2)); call()"
    "z" ∉ identifiersOf (tokenize source) ∧
      (∀ value, m.Holds (· ∈ env.chain) value → env.scope ∈ value.captured → "z" ∉ value.names) ∧
      m.SameBut env.scope "z" m' ∧
      SameOutcome env.scope "z" (runText source env m) (runText source env m') ∧
      ∀ program, parseProgram source = .ok program → ∀ depth,
        SameOutcome env.scope "z" (program.evalWithin depth env m) (program.evalWithin depth env m') := by
  intro token word body elsewhere around m env m' source
  have hname : "z" ∉ identifiersOf (tokenize source) := by decide +kernel
  have hbound : ∀ scope, ∀ entry ∈ m.bindings scope, entry ∈ elsewhere ++ around := by
    intro scope entry hentry
    match scope with
    | 0 => exact List.mem_append_left _ hentry
    | 1 => exact List.mem_append_right _ hentry
    | scope + 2 => cases hentry
  have hparts : ∀ entry ∈ elsewhere ++ around, entry.2.parts = [] := by simp [elsewhere, around, Value.parts]
  have hheld : ∀ value, m.Holds (· ∈ env.chain) value → ∃ entry ∈ elsewhere ++ around, entry.2 = value := by
    intro value hvalue
    induction hvalue with
    | bound _ hvalue => exact ⟨_, hbound _ _ hvalue, rfl⟩
    | part _ hpart ih =>
      obtain ⟨entry, hentry, rfl⟩ := ih
      rw [hparts entry hentry] at hpart
      cases hpart
    | captured _ _ hvalue => exact ⟨_, hbound _ _ hvalue, rfl⟩
  have hnames : ∀ entry ∈ elsewhere ++ around, env.scope ∈ entry.2.captured → "z" ∉ entry.2.names := by
    decide +kernel
  have hvalues : ∀ value, m.Holds (· ∈ env.chain) value → env.scope ∈ value.captured → "z" ∉ value.names := by
    intro value hvalue
    obtain ⟨entry, hentry, rfl⟩ := hheld value hvalue
    exact hnames entry hentry
  have hsame : m.SameBut env.scope "z" m' := m.sameBut_bind env "z" _
  exact ⟨hname, hvalues, hsame, runText_sameBut hname hvalues hsame⟩

end

end Monkey
