import Monkey.Proofs.Evaluation.Allocation

/-!
# The numbers given so far

Scopes and objects are numbered in the order in which they are opened and made, and a machine counts both.
Where evaluation leads, every number that turns up in a value has been given before: the values are
`Machine.Numbered`.

A bound that the count is still below moves with every step. So the induction is about two fixed bounds, which
the counts at the end of an evaluation do not exceed (`Traced.Bounded`). As the counts only grow, no number
that is given on the way exceeds the bounds either.

* `numbered_evalWithin`: an evaluation keeps a machine numbered, and so is the value that it gives.
* `numbered_sessionAfter`: so is the machine after a session has run some texts.
-/

namespace Monkey

open Traced

/-! ### Numbered values -/

/-- The number of an object, and those of the scopes in which it looks names up, are below two bounds. -/
structure Value.Below (scopes objects : Nat) (value : Value) : Prop where
  object : ∀ id, value.identity = .object id → id < objects
  captured : ∀ scope ∈ value.captured, scope < scopes

/-- So it is with all numbers that turn up in a value. -/
abbrev Value.Bounded (scopes objects : Nat) (value : Value) : Prop :=
  value.Clear (Below scopes objects) fun _ => True

/-- So it is with all numbers that turn up in the values bound. -/
abbrev Machine.Bounded (scopes objects : Nat) (m : Machine) : Prop :=
  m.Clear (Value.Below scopes objects) fun _ => True

/-- All numbers that turn up in a value have been given. -/
abbrev Machine.Numbers (m : Machine) (value : Value) : Prop :=
  value.Bounded m.scopes.size m.objects

/-- All numbers that turn up in the values bound have been given. -/
abbrev Machine.Numbered (m : Machine) : Prop :=
  m.Bounded m.scopes.size m.objects

/-- All scopes of an environment have been opened. -/
def Machine.Opened (m : Machine) (env : Env) : Prop :=
  ∀ scope ∈ env.chain, scope < m.scopes.size

/-- The counts of a machine do not exceed two bounds. -/
structure Machine.UpTo (scopes objects : Nat) (m : Machine) : Prop where
  size_le : m.scopes.size ≤ scopes
  objects_le : m.objects ≤ objects

variable {scopes objects : Nat} {m m' : Machine} {value : Value} {env : Env}

theorem Machine.opened_of_size_le (henv : m.Opened env) (h : m.scopes.size ≤ m'.scopes.size) : m'.Opened env :=
  fun scope hscope => Nat.lt_of_lt_of_le (henv scope hscope) h

theorem Value.below_shared (h : value.isShared = true) : value.Below scopes objects := by
  cases value with
  | null | boolean | builtin => exact ⟨nofun, nofun⟩
  | _ => cases h

theorem Machine.UpTo.below (h : m.UpTo scopes objects) (hvalue : value.Below m.scopes.size m.objects) :
    value.Below scopes objects := by
  constructor
  · intro id hid
    exact Nat.lt_of_lt_of_le (hvalue.object id hid) h.objects_le
  · intro scope hscope
    exact Nat.lt_of_lt_of_le (hvalue.captured scope hscope) h.size_le

theorem Machine.UpTo.numbers (h : m.UpTo scopes objects) (hvalue : m.Numbers value) : value.Bounded scopes objects :=
  fun inner hinner => ⟨h.below (hvalue inner hinner).1, fun _ _ => trivial⟩

theorem Machine.UpTo.numbered (h : m.UpTo scopes objects) (hm : m.Numbered) : m.Bounded scopes objects :=
  ⟨fun _ _ => trivial, fun scope _ entry hentry => h.numbers (hm.bound scope trivial entry hentry)⟩

theorem Machine.Numbered.grown (hm : m.Numbered) (lines : List String) (count : Nat) :
    (m.grown lines count).Numbered := by
  have hupto : m.UpTo (m.grown lines count).scopes.size (m.grown lines count).objects :=
    ⟨Nat.le_refl _, Nat.le_add_right _ _⟩
  exact Clear.grown (hupto.numbered hm) lines count

/-! ### Counting -/

theorem Event.size_le_apply (event : Event) (m : Machine) : m.scopes.size ≤ (event.apply m).scopes.size := by
  cases event with
  | bound scope name value => simp [apply, Machine.bind]
  | called callee arguments => cases callee <;> simp [apply, Machine.openScope]
  | _ => exact Nat.le_refl _

theorem size_le_foldl (events : List Event) (m : Machine) :
    m.scopes.size ≤ (events.foldl Event.apply m).scopes.size := by
  induction events generalizing m with
  | nil => exact Nat.le_refl _
  | cons event rest ih => exact Nat.le_trans (event.size_le_apply m) (ih _)

theorem Machine.UpTo.of_foldl {events : List Event} (h : (events.foldl Event.apply m).UpTo scopes objects) :
    m.UpTo scopes objects :=
  ⟨Nat.le_trans (size_le_foldl events m) h.size_le, Nat.le_trans (objects_le_foldl events m) h.objects_le⟩

/-! ### Evaluations -/

namespace Traced

variable {α : Type} {x : Traced Value} {next : Value → Traced Value}

/-- As long as the counts of the machine do not exceed the bounds, neither do the numbers in what an evaluation
    gives and leaves behind. -/
def Bounded (scopes objects : Nat) (x : Traced Value) : Prop :=
  ∀ m : Machine, m.Bounded scopes objects → ((x m).events.foldl Event.apply m).UpTo scopes objects →
    (x m).last = (x m).events.foldl Event.apply m ∧ (x m).last.Bounded scopes objects ∧
      ∀ value m', (x m).result = .ok value m' → value.Bounded scopes objects

theorem bounded_pure (h : value.Bounded scopes objects) : Bounded scopes objects (pure value) := by
  intro m hm _
  refine ⟨rfl, hm, ?_⟩
  rintro _ _ ⟨⟩
  exact h

theorem bounded_halt (reason : Halt) : Bounded scopes objects fun m => ⟨[], .error reason m⟩ :=
  fun _ hm _ => ⟨rfl, hm, nofun⟩

theorem Bounded.bind (hx : Bounded scopes objects x)
    (hnext : ∀ value : Value, value.Bounded scopes objects → Bounded scopes objects (next value)) :
    Bounded scopes objects (x >>= next) := by
  intro m hm hupto
  rw [bind_run] at hupto ⊢
  cases hrun : (x m).result with
  | error reason m' =>
    rw [hrun] at hupto
    obtain ⟨hlast, hclear, -⟩ := hx m hm hupto
    rw [Trace.last, hrun] at hlast hclear
    refine ⟨hlast, hclear, ?_⟩
    rintro _ _ ⟨⟩
  | ok value m' =>
    simp only [hrun, List.foldl_append] at hupto
    obtain ⟨hlast, hclear, hvalue⟩ := hx m hm hupto.of_foldl
    rw [Trace.last, hrun] at hlast hclear
    dsimp only at hlast hclear
    rw [← hlast] at hupto
    obtain ⟨hlast', hclear', hvalue'⟩ := hnext value (hvalue value m' hrun) m' hclear hupto
    refine ⟨?_, hclear', hvalue'⟩
    dsimp only
    rw [List.foldl_append, ← hlast, ← hlast']
    rfl

theorem bounded_note {event : Event} {x : Eval α} {next : α → Traced Value}
    (hevent : event.Clear (Value.Below scopes objects) fun _ => True)
    (hx : ∀ m, ∃ a, x m = .ok a (event.apply m) ∧
      ((event.apply m).UpTo scopes objects → Bounded scopes objects (next a))) :
    Bounded scopes objects (note event x >>= next) := by
  intro m hm hupto
  obtain ⟨a, hrun, hnext⟩ := hx m
  rw [bind_run] at hupto ⊢
  simp only [note, hrun, List.cons_append, List.nil_append, List.foldl_cons] at hupto ⊢
  exact hnext hupto.of_foldl (event.apply m) (Event.clear_apply hm hevent) hupto

theorem bounded_step {x : Eval Value}
    (h : ∀ m : Machine, m.Bounded scopes objects → Eval.Supplies (Value.Bounded scopes objects)
      (fun value => (∀ id, value.identity = .object id → id < objects) → value.Bounded scopes objects) x m) :
    Bounded scopes objects (step x) := by
  intro m hm hupto
  cases h m hm with
  | found lines hrun hvalue =>
    rw [step_eq hrun (Nat.zero_le 1), if_neg Nat.zero_ne_one, List.append_nil]
    refine ⟨(foldl_printed lines m).symm, hm.grown lines 0, ?_⟩
    rintro _ _ ⟨⟩
    exact hvalue
  | @made value hrun hvalue hid =>
    rw [step_eq hrun (Nat.le_refl 1), if_pos rfl, List.map_nil, List.nil_append] at hupto ⊢
    refine ⟨rfl, hm.grown [] 1, ?_⟩
    rintro _ _ ⟨⟩
    refine hvalue fun id hid' => ?_
    rw [hid] at hid'
    cases hid'
    exact hupto.objects_le

theorem bounded_finish (hx : Bounded scopes objects x) : Bounded scopes objects (x >>= finish) := by
  apply hx.bind
  intro value hvalue
  by_cases herror : value.isError = true
  · rw [finish, if_pos herror]
    exact bounded_pure hvalue
  · have hunwrapped : value.unwrapped.Bounded scopes objects := clear_unwrapped hvalue
    rw [finish_of_value herror]
    exact bounded_note hunwrapped fun _ => ⟨(), rfl, fun _ => bounded_pure hunwrapped⟩

/-- Of what the primitive steps make, only a function captures anything. -/
theorem respected_below : Respected (Value.Bounded scopes objects) fun value =>
    (∀ id, value.identity = .object id → id < objects) → value.Bounded scopes objects where
  part h hpart := h.part hpart
  null := clear_leaf (Value.below_shared rfl) rfl rfl
  boolean _ := clear_leaf (Value.below_shared rfl) rfl rfl
  builtin _ := clear_leaf (Value.below_shared rfl) rfl rfl
  error _ _ h := clear_leaf ⟨h, nofun⟩ rfl rfl
  wrapped _ _ h := clear_leaf ⟨h, nofun⟩ rfl rfl
  stringLength _ _ h := clear_leaf ⟨h, nofun⟩ rfl rfl
  arrayLength _ _ h := clear_leaf ⟨h, nofun⟩ rfl rfl
  string _ _ h := clear_leaf ⟨h, nofun⟩ rfl rfl
  array _ _ helements h := clear_array ⟨h, nofun⟩ helements

theorem structural_bounded : Structural (fun _ => True) (Value.Bounded scopes objects)
    (∀ entry ∈ ·, entry.2.1.Bounded scopes objects ∧ entry.2.2.Bounded scopes objects)
    (∀ scope ∈ ·.chain, scope < scopes) fun _ => Bounded scopes objects where
  taken _ _ := trivial
  handed _ _ := trivial
  body _ := trivial
  weaken h _ := h
  entering _ hx := bounded_note trivial fun _ => ⟨(), rfl, fun _ => hx⟩
  taking _ _ hx hnext := by
    apply hx.bind
    intro value hvalue
    by_cases herror : value.isError = true
    · rw [if_pos herror]
      exact bounded_pure hvalue
    · rw [if_neg herror]
      exact bounded_note hvalue fun _ => ⟨(), rfl, fun _ => hnext value hvalue⟩
  handingOn hx hnext _ := hx.bind hnext
  finishing := bounded_finish
  missing _ := bounded_halt .missingNode
  tooDeep := bounded_halt .tooDeep
  null := respected_below.null
  giving := bounded_pure
  boolean value := bounded_pure (respected_below.boolean value)
  error fault := bounded_step fun _ _ => Eval.supplies_error respected_below fault
  integer _ := bounded_step fun _ _ =>
    Eval.supplies_new (fun _ h => clear_leaf ⟨h, nofun⟩ rfl rfl) fun _ => rfl
  string text := bounded_step fun _ _ => Eval.supplies_string respected_below text
  array helements := bounded_step fun _ _ => Eval.supplies_array respected_below helements
  function henv _ := bounded_step fun _ _ =>
    Eval.supplies_new (fun _ h => clear_function ⟨h, henv⟩ fun _ _ => trivial) fun _ => rfl
  returning hvalue := bounded_step fun _ _ =>
    Eval.supplies_new (fun _ h => clear_returning ⟨h, nofun⟩ hvalue) fun _ => rfl
  name _ _ := bounded_step fun _ hm =>
    Eval.supplies_evalName respected_below fun _ hvalue => hm.lookup (fun _ _ => trivial) hvalue
  prefixed operator operand _ := bounded_step fun _ _ =>
    Eval.supplies_applyPrefix respected_below operator operand
  binary operator first second _ _ := bounded_step fun _ _ =>
    Eval.supplies_applyBinary respected_below operator first second
  index hfirst _ := bounded_step fun _ _ => Eval.supplies_applyIndex respected_below hfirst _
  noEntries := List.forall_mem_nil _
  entry hentries _ hkey hvalue := clear_insert hentries hkey hvalue
  hash hentries := bounded_step fun _ _ =>
    Eval.supplies_new (fun _ h => clear_hash ⟨h, nofun⟩ hentries) fun _ => rfl
  binding _ _ _ hvalue := bounded_note hvalue fun _ => ⟨(), rfl, fun _ => bounded_pure respected_below.null⟩
  callingBuiltin builtin arguments harguments := by
    have hcalled : (Event.called (.builtin builtin) arguments).Clear (Value.Below scopes objects) fun _ => True :=
      List.forall_mem_cons.mpr ⟨respected_below.builtin builtin, harguments⟩
    refine bounded_note hcalled fun _ => ⟨(), rfl, fun _ => bounded_step fun _ _ => ?_⟩
    exact Eval.supplies_builtin respected_below builtin harguments
  calling {id parameters body env arguments traceBody} hcallee harguments hbody := by
    have hcalled : (Event.called (.function id parameters body env) arguments).Clear
        (Value.Below scopes objects) fun _ => True :=
      List.forall_mem_cons.mpr ⟨hcallee, harguments⟩
    refine bounded_note hcalled fun m => ⟨_, rfl, fun hupto => bounded_finish (hbody _ ?_)⟩
    refine List.forall_mem_cons.mpr ⟨?_, hcallee.has.captured⟩
    have hsize := hupto.size_le
    simp only [Event.apply, Machine.openScope, Array.size_push] at hsize
    exact hsize

end Traced

/-- Where an evaluation leads from a numbered machine, the values are numbered as well. -/
theorem numbered_evalWithin (hm : m.Numbered) (henv : m.Opened env) (depth : Nat) (node : Node) :
    ((node.evalWithin depth env).after m).Numbered ∧
      ∀ value m', node.evalWithin depth env m = .ok value m' → m'.Numbers value := by
  have hreplays := replays_tracedWithin depth node env m
  have hafter := after_evalWithin depth node env m
  generalize hlast : (node.tracedWithin depth env m).last = last at hreplays hafter
  have hupto : m.UpTo last.scopes.size last.objects := by
    rw [hreplays]
    exact ⟨size_le_foldl _ m, objects_le_foldl _ m⟩
  have henv' : last.Opened env := Machine.opened_of_size_le henv hupto.size_le
  have hbounded : Bounded last.scopes.size last.objects (node.tracedWithin depth env) :=
    structural_bounded.holds_tracedWithin depth trivial henv'
  obtain ⟨-, hclear, hvalue⟩ := hbounded m (hupto.numbered hm)
    (hreplays ▸ ⟨Nat.le_refl _, Nat.le_refl _⟩)
  rw [hlast] at hclear
  refine ⟨hafter ▸ hclear, fun value m' hrun => ?_⟩
  rw [← erase_tracedWithin] at hrun
  have hm' : last = m' := by
    rw [← hlast, Trace.last, show (node.tracedWithin depth env m).result = _ from hrun]
  exact hm' ▸ hvalue value m' hrun

/-! ### Sessions -/

theorem numbered_runAfter (hm : m.Numbered) (henv : m.Opened env) (text : String) :
    (runAfter text env m).Numbered := by
  rw [runAfter_eq]
  cases parseProgram text with
  | error errors => exact hm
  | ok program => exact (numbered_evalWithin hm henv depthLimit program).1

/-- Whatever texts are run on a numbered machine, it stays numbered. -/
theorem numbered_sessionAfter (hm : m.Numbered) (henv : m.Opened env) (texts : List String) :
    (sessionAfter texts env m).Numbered := by
  induction texts generalizing m with
  | nil => exact hm
  | cons text rest ih =>
    have hsize : m.scopes.size ≤ (runAfter text env m).scopes.size := by
      rw [runAfter_eq_foldl]
      exact size_le_foldl _ m
    exact ih (numbered_runAfter hm henv text) (Machine.opened_of_size_le henv hsize)

/-- On the machine that everything starts with, nothing is bound. -/
theorem numbered_empty : Machine.Numbered {} := by
  refine ⟨fun _ _ => trivial, fun scope _ entry hentry => ?_⟩
  rw [Machine.bindings_of_size_le (Nat.zero_le scope)] at hentry
  cases hentry

theorem numbered_openSession (hm : m.Numbered) : m.openSession.2.Numbered := by
  have hupto : m.UpTo m.openSession.2.scopes.size m.openSession.2.objects :=
    ⟨by simp [Machine.openSession, Machine.openScope], Nat.le_refl _⟩
  exact (hupto.numbered hm).openScope [] (List.forall_mem_nil _)

theorem opened_openSession (m : Machine) : m.openSession.2.Opened m.openSession.1 := by
  simp [Machine.Opened, Machine.openSession, Machine.openScope, Env.chain]

end Monkey
