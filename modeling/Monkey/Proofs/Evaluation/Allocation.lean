import Monkey.Proofs.Evaluation.WellFormed

/-!
# The order in which objects are made

Every object is numbered by the objects made before it, and from then on it is passed around as it is. So the
values around in a session at any moment are the shared ones and those that have been made up to it
(`Value.Known`), no two of these have the same identity (`Orderly.known_unique`), and none has a number still
to be given (`Orderly.known_lt`).

What is known grows with every event, while an induction over evaluations is about one property of values.
`Traced.Allots` is therefore stated for any property `p` that the shared values have: as long as the objects
made have it, so has everything else that turns up. Of a beginning of the events that is said too, and for
this `p` may be "known at its end".

* `orderly_sessionTrace`: this holds of all that happens in a session.
-/

namespace Monkey

open Traced

/-! ### Orderly events -/

/-- Whether a value exists once, without being made. -/
def Value.isShared : Value → Bool
  | .null | .boolean _ | .builtin _ => true
  | _ => false

/-- The shared values, and those that have been made in the course of some events. -/
def Value.Known (events : List Event) (value : Value) : Prop :=
  value.isShared = true ∨ .made value ∈ events

/-- In the events from a machine on only values with a property turn up, and each object is numbered by those
    made before it. -/
def Orderly (p : Value → Prop) (scopes : Nat → Prop) : Machine → List Event → Prop
  | _, [] => True
  | m, event :: rest => event.Clear p scopes ∧
    (∀ value, event = .made value → value.identity = .object m.objects) ∧ Orderly p scopes (event.apply m) rest

/-- All objects that are made in the course of some events have a property. -/
def AllMade (p : Value → Prop) (events : List Event) : Prop :=
  ∀ value, .made value ∈ events → p value

variable {p : Value → Prop} {scopes : Nat → Prop} {m : Machine} {events rest : List Event}
  {value other : Value}

theorem allMade_append : AllMade p (events ++ rest) ↔ AllMade p events ∧ AllMade p rest := by
  constructor
  · intro h
    constructor
    · intro value hvalue
      exact h value (List.mem_append_left _ hvalue)
    · intro value hvalue
      exact h value (List.mem_append_right _ hvalue)
  · rintro ⟨hevents, hrest⟩ value hvalue
    rcases List.mem_append.mp hvalue with hvalue | hvalue
    · exact hevents value hvalue
    · exact hrest value hvalue

theorem orderly_append : Orderly p scopes m (events ++ rest) ↔
    Orderly p scopes m events ∧ Orderly p scopes (events.foldl Event.apply m) rest := by
  induction events generalizing m with
  | nil =>
    constructor
    · intro h
      exact ⟨trivial, h⟩
    · exact And.right
  | cons event events ih =>
    rw [List.cons_append, Orderly, ih, List.foldl_cons, Orderly]
    constructor
    · rintro ⟨hclear, hnumber, hevents, hrest⟩
      exact ⟨⟨hclear, hnumber, hevents⟩, hrest⟩
    · rintro ⟨⟨hclear, hnumber, hevents⟩, hrest⟩
      exact ⟨hclear, hnumber, hevents, hrest⟩

theorem Orderly.clear (h : Orderly p scopes m events) {event : Event} (hevent : event ∈ events) :
    event.Clear p scopes := by
  induction events generalizing m with
  | nil => cases hevent
  | cons first rest ih =>
    rcases List.mem_cons.mp hevent with rfl | hevent
    · exact h.1
    · exact ih h.2.2 hevent

theorem Event.clear_apply {event : Event} (hm : m.Clear p scopes) (hevent : event.Clear p scopes) :
    (event.apply m).Clear p scopes := by
  cases event with
  | made value => exact hm.grown [] 1
  | printed line => exact hm.grown [line] 0
  | bound scope name value => exact hm.bind hevent _ name
  | called callee arguments =>
    obtain ⟨hcallee, harguments⟩ := List.forall_mem_cons.mp hevent
    cases callee with
    | function id parameters body env =>
      exact hm.openScope env.chain (Machine.clear_insertAll harguments parameters (List.forall_mem_nil _))
    | _ => exact hm
  | _ => exact hm

theorem Orderly.machine (h : Orderly p scopes m events) (hm : m.Clear p scopes) :
    (events.foldl Event.apply m).Clear p scopes := by
  induction events generalizing m with
  | nil => exact hm
  | cons event rest ih => exact ih h.2.2 (Event.clear_apply hm h.1)

/-! ### Numbers -/

theorem Event.objects_le_apply (event : Event) (m : Machine) : m.objects ≤ (event.apply m).objects := by
  cases event with
  | made value => exact Nat.le_add_right _ _
  | called callee arguments => cases callee <;> exact Nat.le_refl _
  | _ => exact Nat.le_refl _

theorem objects_le_foldl (events : List Event) (m : Machine) :
    m.objects ≤ (events.foldl Event.apply m).objects := by
  induction events generalizing m with
  | nil => exact Nat.le_refl _
  | cons event rest ih => exact Nat.le_trans (event.objects_le_apply m) (ih _)

/-- The numbers of the objects made lie between the count before and the count behind. -/
theorem Orderly.made_number (h : Orderly p scopes m events) (hvalue : .made value ∈ events) :
    ∃ id, value.identity = .object id ∧ m.objects ≤ id ∧ id < (events.foldl Event.apply m).objects := by
  induction events generalizing m with
  | nil => cases hvalue
  | cons event rest ih =>
    obtain ⟨-, hnumber, hrest⟩ := h
    rcases List.mem_cons.mp hvalue with rfl | hvalue
    · exact ⟨m.objects, hnumber value rfl, Nat.le_refl _, objects_le_foldl rest (m.grown [] 1)⟩
    · obtain ⟨id, hid, hle, hlt⟩ := ih hrest hvalue
      exact ⟨id, hid, Nat.le_trans (event.objects_le_apply m) hle, hlt⟩

/-- No number is given twice. -/
theorem Orderly.made_unique (h : Orderly p scopes m events) (hvalue : .made value ∈ events)
    (hother : .made other ∈ events) (heq : value.identity = other.identity) : value = other := by
  -- The first object has the count before it as its number, and all later ones have a greater number.
  have hlater {first later : Value} {rest : List Event} {m : Machine}
      (h : Orderly p scopes m (.made first :: rest)) (hlater : .made later ∈ rest) :
      first.identity ≠ later.identity := by
    obtain ⟨id, hid, hle, -⟩ := h.2.2.made_number hlater
    rw [h.2.1 first rfl, hid]
    have hlt : m.objects < id := hle
    rintro ⟨⟩
    exact Nat.lt_irrefl _ hlt
  induction events generalizing m with
  | nil => cases hvalue
  | cons event rest ih =>
    rcases List.mem_cons.mp hvalue with rfl | hvalue'
    · rcases List.mem_cons.mp hother with hfirst | hother'
      · cases hfirst
        rfl
      · exact absurd heq (hlater h hother')
    · rcases List.mem_cons.mp hother with rfl | hother'
      · exact absurd heq.symm (hlater h hvalue')
      · exact ih h.2.2 hvalue' hother'

theorem Value.isShared_of_identity (h : value.isShared = true) (heq : value.identity = other.identity) :
    value = other := by
  cases value <;> cases h <;> cases other <;> cases heq <;> rfl

/-- Among the values known at a moment, the identity of a value says which one it is. -/
theorem Orderly.known_unique (h : Orderly p scopes m events) (hvalue : value.Known events)
    (hother : other.Known events) (heq : value.identity = other.identity) : value = other := by
  rcases hvalue with hvalue | hvalue
  · exact Value.isShared_of_identity hvalue heq
  · rcases hother with hother | hother
    · exact (Value.isShared_of_identity hother heq.symm).symm
    · exact h.made_unique hvalue hother heq

theorem Orderly.known_lt (h : Orderly p scopes m events) (hvalue : value.Known events) {id : Nat}
    (hid : value.identity = .object id) : id < (events.foldl Event.apply m).objects := by
  rcases hvalue with hvalue | hvalue
  · cases value <;> cases hvalue <;> cases hid
  · obtain ⟨id', hid', -, hlt⟩ := h.made_number hvalue
    rw [hid] at hid'
    cases hid'
    exact hlt

/-! ### Evaluations -/

namespace Traced

variable {α : Type} {x : Traced Value} {next : Value → Traced Value}

/-- As long as the objects that an evaluation makes have a property, it is orderly, and so is a beginning of it
    as long as the objects made there have the property. -/
structure Allots (p : Value → Prop) (scopes : Nat → Prop) (x : Traced Value) : Prop where
  orderly (m : Machine) (hm : m.Clear p scopes) (before behind : List Event)
    (h : (x m).events = before ++ behind) (hmade : AllMade p before) : Orderly p scopes m before
  gives (m : Machine) (hm : m.Clear p scopes) (hmade : AllMade p (x m).events) :
    (x m).last = (x m).events.foldl Event.apply m ∧
      ∀ value m', (x m).result = .ok value m' → value.Clear p scopes

theorem Allots.whole (hx : Allots p scopes x) (hm : m.Clear p scopes) (hmade : AllMade p (x m).events) :
    Orderly p scopes m (x m).events :=
  hx.orderly m hm _ [] (List.append_nil _).symm hmade

theorem allots_pure (h : value.Clear p scopes) : Allots p scopes (pure value) := by
  constructor
  · intro m _ before behind hbefore _
    rw [(List.append_eq_nil_iff.mp hbefore.symm).1]
    trivial
  · intro m _ _
    refine ⟨rfl, ?_⟩
    rintro _ _ ⟨⟩
    exact h

theorem allots_halt (reason : Halt) : Allots p scopes fun m => ⟨[], .error reason m⟩ := by
  constructor
  · intro m _ before behind hbefore _
    rw [(List.append_eq_nil_iff.mp hbefore.symm).1]
    trivial
  · intro m _ _
    refine ⟨rfl, ?_⟩
    rintro _ _ ⟨⟩

theorem Allots.bind (hx : Allots p scopes x)
    (hnext : ∀ value : Value, value.Clear p scopes → Allots p scopes (next value)) :
    Allots p scopes (x >>= next) := by
  have hgoes {m : Machine} (hm : m.Clear p scopes) {value : Value} {m' : Machine}
      (hrun : (x m).result = .ok value m') (hmade : AllMade p (x m).events) :
      m' = (x m).events.foldl Event.apply m ∧ m'.Clear p scopes ∧ Allots p scopes (next value) := by
    obtain ⟨hlast, hclear⟩ := hx.gives m hm hmade
    rw [Trace.last, hrun] at hlast
    dsimp only at hlast
    refine ⟨hlast, ?_, hnext value (hclear value m' hrun)⟩
    rw [hlast]
    exact (hx.whole hm hmade).machine hm
  constructor
  · intro m hm before behind hbefore hmade
    rw [bind_run] at hbefore
    cases hrun : (x m).result with
    | error reason m' =>
      rw [hrun] at hbefore
      exact hx.orderly m hm before behind hbefore hmade
    | ok value m' =>
      rw [hrun] at hbefore
      rcases List.append_eq_append_iff.mp hbefore with ⟨before', rfl, hbefore'⟩ | ⟨behind', hbefore', -⟩
      · obtain ⟨hmade, hmade'⟩ := allMade_append.mp hmade
        obtain ⟨hm', hclear, hallots⟩ := hgoes hm hrun hmade
        refine orderly_append.mpr ⟨hx.whole hm hmade, ?_⟩
        rw [← hm']
        exact hallots.orderly m' hclear before' behind hbefore' hmade'
      · exact hx.orderly m hm before behind' hbefore' hmade
  · intro m hm hmade
    rw [bind_run] at hmade ⊢
    cases hrun : (x m).result with
    | error reason m' =>
      rw [hrun] at hmade
      have hlast := (hx.gives m hm hmade).1
      rw [Trace.last, hrun] at hlast
      refine ⟨hlast, ?_⟩
      rintro _ _ ⟨⟩
    | ok value m' =>
      rw [hrun] at hmade
      obtain ⟨hmade, hmade'⟩ := allMade_append.mp hmade
      obtain ⟨hm', hclear, hallots⟩ := hgoes hm hrun hmade
      obtain ⟨hlast, hgives⟩ := hallots.gives m' hclear hmade'
      refine ⟨?_, hgives⟩
      dsimp only
      rw [List.foldl_append, ← hm', ← hlast]
      rfl

/-- An event that makes nothing, and what goes on behind it. -/
theorem allots_note {event : Event} {x : Eval α} {next : α → Traced Value} (hevent : event.Clear p scopes)
    (hnew : ∀ value, event ≠ .made value)
    (hx : ∀ m : Machine, m.Clear p scopes → ∃ a, x m = .ok a (event.apply m) ∧ Allots p scopes (next a)) :
    Allots p scopes (note event x >>= next) := by
  constructor
  · intro m hm before behind hbefore hmade
    obtain ⟨a, hrun, hallots⟩ := hx m hm
    rw [bind_run] at hbefore
    simp only [note, hrun] at hbefore
    cases before with
    | nil => trivial
    | cons first before =>
      obtain ⟨rfl, htail⟩ := List.cons.inj hbefore
      refine ⟨hevent, fun value hvalue => absurd hvalue (hnew value), ?_⟩
      have hmade' : AllMade p before := by
        intro value hvalue
        exact hmade value (List.mem_cons_of_mem _ hvalue)
      exact hallots.orderly _ (Event.clear_apply hm hevent) before behind htail hmade'
  · intro m hm hmade
    obtain ⟨a, hrun, hallots⟩ := hx m hm
    rw [bind_run] at hmade ⊢
    simp only [note, hrun] at hmade ⊢
    exact hallots.gives _ (Event.clear_apply hm hevent) fun value hvalue =>
      hmade value (List.mem_cons_of_mem _ hvalue)

theorem orderly_printed (lines : List String) (m : Machine) :
    Orderly p scopes m (lines.map Event.printed) := by
  induction lines generalizing m with
  | nil => trivial
  | cons line rest ih =>
    refine ⟨trivial, ?_, ih _⟩
    rintro _ ⟨⟩

theorem allots_step {x : Eval Value} (h : ∀ m : Machine, m.Clear p scopes → Eval.Supplies
    (Value.Clear p scopes) (fun value => p value → value.Clear p scopes) x m) : Allots p scopes (step x) := by
  constructor
  · intro m hm before behind hbefore hmade
    cases h m hm with
    | found lines hrun hvalue =>
      rw [step_eq hrun (Nat.zero_le 1), if_neg Nat.zero_ne_one, List.append_nil] at hbefore
      have heq : lines.map Event.printed = before ++ behind := hbefore
      have hprinted : Orderly p scopes m (before ++ behind) := heq ▸ orderly_printed lines m
      exact (orderly_append.mp hprinted).1
    | @made value hrun hvalue hid =>
      rw [step_eq hrun (Nat.le_refl 1), if_pos rfl, List.map_nil, List.nil_append] at hbefore
      rcases List.append_eq_singleton_iff.mp hbefore.symm with ⟨rfl, -⟩ | ⟨rfl, -⟩
      · trivial
      · refine ⟨hvalue (hmade value List.mem_cons_self), ?_, trivial⟩
        rintro _ ⟨⟩
        exact hid
  · intro m hm hmade
    cases h m hm with
    | found lines hrun hvalue =>
      rw [step_eq hrun (Nat.zero_le 1), if_neg Nat.zero_ne_one, List.append_nil] at hmade ⊢
      refine ⟨(foldl_printed lines m).symm, ?_⟩
      rintro _ _ ⟨⟩
      exact hvalue
    | made hrun hvalue hid =>
      rw [step_eq hrun (Nat.le_refl 1), if_pos rfl, List.map_nil, List.nil_append] at hmade ⊢
      refine ⟨rfl, ?_⟩
      rintro _ _ ⟨⟩
      exact hvalue (hmade _ List.mem_cons_self)

theorem finish_of_value (herror : ¬ value.isError = true) :
    finish value = (note (.gave value.unwrapped) (pure ()) >>= fun _ => pure value.unwrapped) := by
  rw [finish, if_neg herror]
  rfl

theorem allots_finish (hx : Allots p scopes x) : Allots p scopes (x >>= finish) := by
  apply hx.bind
  intro value hvalue
  by_cases herror : value.isError = true
  · rw [finish, if_pos herror]
    exact allots_pure hvalue
  · have hunwrapped : value.unwrapped.Clear p scopes := clear_unwrapped hvalue
    have hgave : (Event.gave value.unwrapped).Clear p scopes := hunwrapped
    rw [finish_of_value herror]
    apply allots_note hgave
    · rintro _ ⟨⟩
    · intro m _
      exact ⟨(), rfl, allots_pure hunwrapped⟩

end Traced

/-! ### The values that turn up -/

section

variable (hshared : ∀ value : Value, value.isShared = true → p value)

include hshared

/-- The primitive steps find shared values and parts of what they are given, and make new objects of these. -/
theorem respected_clear :
    Respected (Value.Clear p scopes) fun value => p value → value.Clear p scopes where
  part h hpart := h.part hpart
  null := clear_leaf (hshared _ rfl) rfl rfl
  boolean _ := clear_leaf (hshared _ rfl) rfl rfl
  builtin _ := clear_leaf (hshared _ rfl) rfl rfl
  error _ _ h := clear_leaf h rfl rfl
  wrapped _ _ h := clear_leaf h rfl rfl
  stringLength _ _ h := clear_leaf h rfl rfl
  arrayLength _ _ h := clear_leaf h rfl rfl
  string _ _ h := clear_leaf h rfl rfl
  array _ _ helements h := clear_array h helements

theorem structural_allots : Structural (fun _ => True) (Value.Clear p scopes)
    (∀ entry ∈ ·, entry.2.1.Clear p scopes ∧ entry.2.2.Clear p scopes) (∀ scope ∈ ·.chain, scopes scope)
    fun _ => Allots p scopes where
  taken _ _ := trivial
  handed _ _ := trivial
  body _ := trivial
  weaken h _ := h
  entering _ hx := allots_note trivial nofun fun _ _ => ⟨(), rfl, hx⟩
  taking _ _ hx hnext := by
    apply hx.bind
    intro value hvalue
    by_cases herror : value.isError = true
    · rw [if_pos herror]
      exact allots_pure hvalue
    · rw [if_neg herror]
      exact allots_note hvalue nofun fun _ _ => ⟨(), rfl, hnext value hvalue⟩
  handingOn hx hnext _ := hx.bind hnext
  finishing := allots_finish
  missing _ := allots_halt .missingNode
  tooDeep := allots_halt .tooDeep
  null := (respected_clear hshared).null
  giving := allots_pure
  boolean value := allots_pure ((respected_clear hshared).boolean value)
  error fault := allots_step fun _ _ => Eval.supplies_error (respected_clear hshared) fault
  integer _ := allots_step fun _ _ => Eval.supplies_new (fun _ h => clear_leaf h rfl rfl) fun _ => rfl
  string text := allots_step fun _ _ => Eval.supplies_string (respected_clear hshared) text
  array helements := allots_step fun _ _ => Eval.supplies_array (respected_clear hshared) helements
  function henv _ := allots_step fun _ _ => Eval.supplies_new (fun _ h => clear_function h henv) fun _ => rfl
  returning hvalue := allots_step fun _ _ =>
    Eval.supplies_new (fun _ h => clear_returning h hvalue) fun _ => rfl
  name henv _ := allots_step fun _ hm =>
    Eval.supplies_evalName (respected_clear hshared) fun _ hvalue => hm.lookup henv hvalue
  prefixed operator operand _ := allots_step fun _ _ =>
    Eval.supplies_applyPrefix (respected_clear hshared) operator operand
  binary operator first second _ _ := allots_step fun _ _ =>
    Eval.supplies_applyBinary (respected_clear hshared) operator first second
  index hfirst _ := allots_step fun _ _ => Eval.supplies_applyIndex (respected_clear hshared) hfirst _
  noEntries := List.forall_mem_nil _
  entry hentries _ hkey hvalue := clear_insert hentries hkey hvalue
  hash hentries := allots_step fun _ _ => Eval.supplies_new (fun _ h => clear_hash h hentries) fun _ => rfl
  binding _ _ _ hvalue := allots_note hvalue nofun fun _ _ =>
    ⟨(), rfl, allots_pure (respected_clear hshared).null⟩
  callingBuiltin builtin arguments harguments := by
    have hbuiltin : (Value.builtin builtin).Clear p scopes := (respected_clear hshared).builtin builtin
    have hcalled : (Event.called (.builtin builtin) arguments).Clear p scopes :=
      List.forall_mem_cons.mpr ⟨hbuiltin, harguments⟩
    apply allots_note hcalled nofun
    intro m _
    exact ⟨(), rfl, allots_step fun _ _ => Eval.supplies_builtin (respected_clear hshared) builtin harguments⟩
  calling {id parameters body env arguments traceBody} hcallee harguments hbody := by
    have hcalled : (Event.called (.function id parameters body env) arguments).Clear p scopes :=
      List.forall_mem_cons.mpr ⟨hcallee, harguments⟩
    apply allots_note hcalled nofun
    intro m hm
    refine ⟨_, rfl, allots_finish (hbody _ fun scope hscope => ?_)⟩
    rcases List.mem_cons.mp hscope with rfl | hscope
    · exact hm.fresh _ (Nat.le_refl _)
    · exact hcallee.here.2 scope hscope

theorem allots_tracedWithin (depth : Nat) (node : Node) {env : Env}
    (henv : ∀ scope ∈ env.chain, scopes scope) : Allots p scopes (node.tracedWithin depth env) :=
  (structural_allots hshared).holds_tracedWithin depth trivial henv

end

/-! ### Sessions -/

theorem runAfter_eq_foldl (text : String) (env : Env) (m : Machine) :
    runAfter text env m = (runTrace text env m).foldl Event.apply m := by
  rw [runAfter_eq, runTrace]
  cases parseProgram text with
  | error errors => rfl
  | ok program => exact (after_evalWithin ..).trans (replays_tracedWithin depthLimit program env m)

theorem sessionAfter_eq_foldl (texts : List String) (env : Env) (m : Machine) :
    sessionAfter texts env m = (sessionTrace texts env m).foldl Event.apply m := by
  induction texts generalizing m with
  | nil => rfl
  | cons text rest ih =>
    rw [sessionTrace, List.foldl_append, ← runAfter_eq_foldl]
    exact ih _

/-- What happens in a session, up to any moment of it, is orderly, as long as what is made has the property. -/
theorem orderly_sessionTrace (hshared : ∀ value : Value, value.isShared = true → p value) {env : Env}
    (henv : ∀ scope ∈ env.chain, scopes scope) (hm : m.Clear p scopes) {texts : List String}
    {before behind : List Event} (h : sessionTrace texts env m = before ++ behind)
    (hmade : AllMade p before) : Orderly p scopes m before := by
  induction texts generalizing m before with
  | nil =>
    rw [(List.append_eq_nil_iff.mp h.symm).1]
    trivial
  | cons text texts ih =>
    have hrun {before behind : List Event} (h : runTrace text env m = before ++ behind)
        (hmade : AllMade p before) : Orderly p scopes m before := by
      rw [runTrace] at h
      cases hprogram : parseProgram text with
      | error errors =>
        rw [hprogram] at h
        rw [(List.append_eq_nil_iff.mp h.symm).1]
        trivial
      | ok program =>
        rw [hprogram] at h
        exact (allots_tracedWithin hshared depthLimit program henv).orderly m hm before behind h hmade
    rw [sessionTrace] at h
    rcases List.append_eq_append_iff.mp h with ⟨before', rfl, h'⟩ | ⟨behind', h', -⟩
    · obtain ⟨hmade, hmade'⟩ := allMade_append.mp hmade
      have hfirst : Orderly p scopes m (runTrace text env m) := hrun (List.append_nil _).symm hmade
      refine orderly_append.mpr ⟨hfirst, ?_⟩
      have hafter : (runAfter text env m).Clear p scopes := by
        rw [runAfter_eq_foldl]
        exact hfirst.machine hm
      rw [← runAfter_eq_foldl]
      exact ih hafter h' hmade'
    · exact hrun h' hmade

end Monkey
