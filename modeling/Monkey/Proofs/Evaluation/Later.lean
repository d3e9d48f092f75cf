import Monkey.Proofs.Evaluation.Correspondence
import Monkey.Proofs.Evaluation.Numbering

/-!
# Calls that are made later

A call looks up what has been bound when it is made, and numbers what it makes by what has been made before. So
when it is made later, after other things have happened that change no binding, the only difference is in the
numbers of what it makes itself (`call_later`). The two runs are compared as `Correspondence` has it, by the
renumbering that skips what has been opened and made in between.
-/

namespace Monkey

open Traced

/-! ### Later machines -/

/-- On the way from `m` to `m'` no binding is changed, and the given lines are printed. -/
structure Machine.Prints (m : Machine) (lines : List String) (m' : Machine) : Prop where
  keeps : m.Keeps m'
  objects_le : m.objects ≤ m'.objects
  output : m'.output = m.output ++ lines.toArray

namespace Machine

variable {m m' m'' : Machine} {lines lines' : List String}

theorem Prints.refl (m : Machine) : m.Prints [] m :=
  ⟨.refl m, Nat.le_refl _, by simp⟩

theorem Prints.trans (h : m.Prints lines m') (h' : m'.Prints lines' m'') : m.Prints (lines ++ lines') m'' := by
  refine ⟨h.keeps.trans h'.keeps, Nat.le_trans h.objects_le h'.objects_le, ?_⟩
  simp [h'.output, h.output]

theorem prints_grown (m : Machine) (lines : List String) (count : Nat) : m.Prints lines (m.grown lines count) :=
  ⟨keeps_of_scopes_eq rfl, Nat.le_add_right _ _, rfl⟩

theorem prints_openScope (m : Machine) (outer : List Nat) (bindings : Bindings) :
    m.Prints [] (m.openScope outer bindings).2 :=
  ⟨m.keeps_openScope outer bindings, Nat.le_refl _, by simp [openScope]⟩

/-- A call changes no binding. -/
theorem prints_applyWith {depth : Nat} {callee value : Value} {arguments : List Value}
    (hrun : applyWith (Node.evalWithin depth) callee arguments m = .ok value m')
    (houtput : m'.output = m.output ++ lines.toArray) : m.Prints lines m' := by
  have hkeeps := Eval.keeps_applyWith (Eval.bodyFrames_evalWithin depth) callee arguments m
  rw [Eval.after, hrun] at hkeeps
  have hreplays : Replays (applyTraced (Node.tracedWithin depth) callee arguments) :=
    (compositional_replays.structural admissible_true).holds_applyTraced
      (fun body env _ _ => replays_tracedWithin depth body env) callee.clear_true
      fun argument _ => argument.clear_true
  have hlast : (applyTraced (Node.tracedWithin depth) callee arguments m).last = m' := by
    rw [← erase_applyTraced (erase_tracedWithin depth)] at hrun
    rw [Trace.last, show (applyTraced (Node.tracedWithin depth) callee arguments m).result = _ from hrun]
  have hobjects := objects_le_foldl (applyTraced (Node.tracedWithin depth) callee arguments m).events m
  rw [← hreplays m, hlast] at hobjects
  exact ⟨hkeeps, hobjects, houtput⟩

end Machine

/-! ### Renumberings of what is still to be made -/

/-- A renumbering that concerns only what is still to be made on a machine. -/
structure Renumbering.Fixes (r : Renumbering) (m : Machine) : Prop where
  tokens : r.tokens = Relocation.id.relabeling
  scope : ∀ i < m.scopes.size, r.scope i = i
  object : ∀ i < m.objects, r.object i = i

namespace Renumbering

variable {r : Renumbering} {m : Machine}

theorem Fixes.number (h : r.Fixes m) {value : Value} (hvalue : m.Numbers value) {id : Nat}
    (hid : value.identity = .object id) : r.object id = id :=
  h.object id (hvalue.has.object id hid)

theorem Fixes.env (h : r.Fixes m) {env : Env} (henv : ∀ scope ∈ env.chain, scope < m.scopes.size) :
    env.renumber r = env := by
  obtain ⟨hscope, houter⟩ := List.forall_mem_cons.mp henv
  rw [Env.renumber, h.scope _ hscope, List.map_congr_left fun i hi => h.scope i (houter i hi), List.map_id']

mutual

theorem Fixes.value (h : r.Fixes m) (value : Value) (hvalue : m.Numbers value) : value.renumber r = value := by
  cases value with
  | null | boolean | builtin => rfl
  | integer id | string id | error id => simp only [Value.renumber, h.number hvalue rfl]
  | array id elements =>
    simp only [Value.renumber, h.number hvalue rfl, h.values elements fun _ hpart => hvalue.part hpart]
  | hash id entries =>
    simp only [Value.renumber, h.number hvalue rfl, h.entries entries fun _ hpart => hvalue.part hpart]
  | function id parameters body env =>
    simp only [Value.renumber, h.number hvalue rfl, h.env hvalue.has.captured, h.tokens, Node.relabel_id]
  | returning id value =>
    simp only [Value.renumber, h.number hvalue rfl, h.value value (hvalue.part List.mem_cons_self)]

theorem Fixes.values (h : r.Fixes m) (values : List Value) (hvalues : ∀ value ∈ values, m.Numbers value) :
    Value.renumberAll r values = values := by
  match values with
  | [] => rfl
  | value :: rest =>
    obtain ⟨hvalue, hrest⟩ := List.forall_mem_cons.mp hvalues
    simp only [Value.renumberAll, h.value value hvalue, h.values rest hrest]

theorem Fixes.entries (h : r.Fixes m) (entries : List (HashKey × Value × Value))
    (hentries : ∀ value ∈ entries.flatMap fun entry => [entry.2.1, entry.2.2], m.Numbers value) :
    Value.renumberEntries r entries = entries := by
  match entries with
  | [] => rfl
  | (hashKey, key, value) :: rest =>
    rw [List.flatMap_cons, List.forall_mem_append, List.forall_mem_cons, List.forall_mem_singleton] at hentries
    obtain ⟨⟨hkey, hvalue⟩, hrest⟩ := hentries
    simp only [Value.renumberEntries, h.value key hkey, h.value value hvalue, h.entries rest hrest]

end

end Renumbering

/-! ### What comes later corresponds -/

/-- Leave the numbers below a bound as they are, and skip some there. -/
def skip (bound count i : Nat) : Nat :=
  if i < bound then i else i + count

theorem skip_injective (bound count : Nat) : Function.Injective (skip bound count) := by
  intro i j h
  unfold skip at h
  split at h <;> split at h <;> omega

namespace Machine

variable {m s : Machine}

/-- The renumbering of what is still to be made on a machine by what is still to be made on a later one. -/
def later (m s : Machine) : Renumbering where
  tokens := Relocation.id.relabeling
  scope := skip m.scopes.size (s.scopes.size - m.scopes.size)
  object := skip m.objects (s.objects - m.objects)
  scope_injective := skip_injective _ _
  object_injective := skip_injective _ _

theorem fixes_later (m s : Machine) : (m.later s).Fixes m :=
  ⟨rfl, fun _ hi => if_pos hi, fun _ hi => if_pos hi⟩

/-- What happens on a machine corresponds to what happens on a later one. -/
def onwards (m s : Machine) : Correspondence :=
  { m.later s with hidden := fun _ => [], seen := fun _ => True, printed := m.output, printed' := s.output }

theorem clear_onwards (m s : Machine) (value : Value) : (m.onwards s).Clear value :=
  fun _ _ => ⟨fun _ _ _ _ => List.not_mem_nil, fun _ _ => trivial⟩

theorem matches_onwards (hm : m.Numbered) {lines : List String} (hs : m.Prints lines s) :
    (m.onwards s).Matches m s where
  scopes i := by
    have hle := hs.keeps.size_le
    show skip m.scopes.size _ _ = _
    rw [skip, if_neg (by omega)]
    omega
  objects i := by
    have hle := hs.objects_le
    show skip m.objects _ _ = _
    rw [skip, if_neg (by omega)]
    omega
  output := ⟨#[], by simp [onwards], by simp [onwards]⟩
  bindings scope := by
    show Bindings.without [] (s.bindings (skip _ _ scope)) =
      Assoc.mapValues _ (Bindings.without [] (m.bindings scope))
    rw [Bindings.without_nil, Bindings.without_nil, skip]
    split
    · next hscope =>
      rw [hs.keeps.bindings_eq scope hscope]
      refine (List.map_id' _).symm.trans (List.map_congr_left fun entry hentry => ?_)
      exact Prod.ext rfl ((fixes_later m s).value entry.2 (hm.bound scope trivial entry hentry)).symm
    · next hscope =>
      have hle := hs.keeps.size_le
      rw [bindings_of_size_le (by omega), bindings_of_size_le (by omega)]
      rfl
  fresh _ _ := rfl
  clear := ⟨fun _ _ => trivial, fun _ _ entry _ => clear_onwards m s entry.2⟩

end Machine

/-- A call does on any later machine what it does on a machine: it gives the same value, but for the numbers of
    what is made in its course, and prints the same. -/
theorem call_later {depth : Nat} {callee value : Value} {arguments : List Value} {m m' s : Machine}
    {before lines : List String} (hm : m.Numbered) (hcallee : m.Numbers callee)
    (harguments : ∀ argument ∈ arguments, m.Numbers argument) (hs : m.Prints before s)
    (hrun : applyWith (Node.evalWithin depth) callee arguments m = .ok value m')
    (houtput : m'.output = m.output ++ lines.toArray) :
    ∃ s', applyWith (Node.evalWithin depth) callee arguments s = .ok (value.renumber (m.later s)) s' ∧
      s'.output = s.output ++ lines.toArray := by
  have hmirrors := Correspondence.mirrors_applyWith (c := m.onwards s)
    (fun body env => Correspondence.mirrors_evalWithin depth body) (Machine.clear_onwards m s callee)
    (fun argument (_ : argument ∈ arguments) => Machine.clear_onwards m s argument)
  have houtcomes := hmirrors m s (Machine.matches_onwards hm hs)
  have hfixes := m.fixes_later s
  have hsame : arguments.map (Value.renumber (m.later s)) = arguments := by
    rw [List.map_congr_left fun argument hargument => hfixes.value argument (harguments argument hargument)]
    exact List.map_id' arguments
  rw [show (m.onwards s).toRenumbering = m.later s from rfl, hfixes.value callee hcallee, hsame, hrun] at houtcomes
  generalize applyWith (Node.evalWithin depth) callee arguments s = outcome at houtcomes ⊢
  cases houtcomes with
  | @ok _ _ s' _ hmatches =>
    obtain ⟨printed, hprinted, hprinted'⟩ := hmatches.output
    have hlines : printed = lines.toArray :=
      Array.append_right_inj m.output |>.mp (hprinted.symm.trans houtput)
    exact ⟨s', rfl, hlines ▸ hprinted'⟩

/-! ### Calls with one argument -/

/-- A call of a function with a value ends with a value that is no error, and prints some lines. -/
def Machine.Yields (m : Machine) (f x : Value) (call : Value × List String) : Prop :=
  ∃ depth m', applyWith (Node.evalWithin depth) f [x] m = .ok call.1 m' ∧ call.1.isError = false ∧
    m'.output = m.output ++ call.2.toArray

/-- Two values are the same but for the numbers of what has been made from a machine on. -/
def Machine.Alike (m : Machine) (value value' : Value) : Prop :=
  ∃ r : Renumbering, r.Fixes m ∧ value' = value.renumber r

/-- From a machine on, a call yields always the same, but for the numbers of what it makes. -/
def Machine.Answers (m : Machine) (f x : Value) (call : Value × List String) : Prop :=
  ∀ lines s, m.Prints lines s → ∃ value, m.Alike call.1 value ∧ s.Yields f x (value, call.2)

theorem Machine.Yields.answers {m : Machine} {f x : Value} {call : Value × List String} (h : m.Yields f x call)
    (hm : m.Numbered) (hf : m.Numbers f) (hx : m.Numbers x) : m.Answers f x call := by
  intro lines s hs
  obtain ⟨depth, m', hrun, herror, houtput⟩ := h
  obtain ⟨s', hrun', houtput'⟩ := call_later hm hf (List.forall_mem_singleton.mpr hx) hs hrun houtput
  refine ⟨_, ⟨_, m.fixes_later s, rfl⟩, depth, s', hrun', ?_, houtput'⟩
  rw [Value.isError_renumber, herror]

end Monkey
