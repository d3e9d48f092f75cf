import Monkey.Proofs.Evaluation.Depth
import Monkey.Proofs.Evaluation.Steps

/-!
# A program that maps a function over an array

The program defines a function `map` in which an inner function `iter` calls itself by name, and so is found
in a scope that it was bound in after it had captured it. The inner function takes the elements from the front
of an array one by one, and pushes what the given function gives for each to what has been accumulated.

The proof follows the rounds of the inner function. What is bound around a round is fixed (`Ready`) and no
call changes it, so a round on an empty array gives what has been accumulated (`Stands.last_round`), and any
other calls the given function once and goes on with the next (`Stands.next_round`). The induction on the
array puts the rounds together (`iteration_accumulates`). By then the function is called on other machines
than the one at the start; that its calls yield the same there is `Machine.Yields.answers`.

* `definition_maps`: the function that the program defines maps.
-/

namespace Monkey

namespace Mapping

/-! ### The program

The syntax tree is put together from pieces, for any tokens, as the tokens are of no concern for its
evaluation. -/

section

variable (t : Nat → Token)

def word (i : Nat) (name : String) : Node :=
  .identifier ⟨t i, name⟩

/-- Whether there is nothing left to map. -/
def test : Node :=
  .binary (t 26) (.call (t 23) (word t 22 "len") [word t 24 "arr"]) "==" (.integer (t 27) 0)

/-- What is left to map behind the first element. -/
def remaining : Node :=
  .call (t 37) (word t 36 "rest") [word t 38 "arr"]

/-- The value of the function for the first element. -/
def mapped : Node :=
  .call (t 46) (word t 45 "f") [.call (t 48) (word t 47 "first") [word t 49 "arr"]]

def extended : Node :=
  .call (t 42) (word t 41 "push") [word t 43 "accumulated", mapped t]

/-- The body of the inner function, which adds the value for the first element to those accumulated and goes on
    with the remaining elements. -/
def iterBody : Node :=
  .block (t 19) [.expressionStatement (t 20) (.conditional (t 20) (test t)
    (.block (t 29) [.expressionStatement (t 30) (word t 30 "accumulated")])
    (.block (t 33) [.expressionStatement (t 34)
      (.call (t 35) (word t 34 "iter") [remaining t, extended t])]))]

def body : Node :=
  .block (t 9) [
    .letStatement (t 10) ⟨t 11, "iter"⟩ (.function (t 13) [⟨t 15, "arr"⟩, ⟨t 17, "accumulated"⟩] (iterBody t)),
    .expressionStatement (t 58) (.call (t 59) (word t 58 "iter") [word t 60 "arr", .array (t 62) []])]

def definition : Node :=
  .letStatement (t 0) ⟨t 1, "map"⟩ (.function (t 3) [⟨t 5, "arr"⟩, ⟨t 7, "f"⟩] (body t))

end

/-- The program as it is written. -/
def text : String :=
  "let map = fn(arr, f) \x7b
  let iter = fn(arr, accumulated) \x7b
    if (len(arr) == 0) \x7b
      accumulated
    \x7d else \x7b
      iter(rest(arr), push(accumulated, f(first(arr))));
    \x7d
  \x7d;
  iter(arr, []);
\x7d;
"

example : parse text = ⟨[definition fun i => (Parser.ofText text).tokens.getD i default], []⟩ := by cbv

/-! ### What the names stand for -/

variable {t : Nat → Token} {outer : Env} {f : Value} {m m₁ m' : Machine}

/-- The inner function, made in the scope of a call. -/
def iteration (t : Nat → Token) (id : Nat) (outer : Env) : Value :=
  .function id ["arr", "accumulated"] (iterBody t) outer

/-- The environment of a round of the inner function, and the machine at the start of it. -/
def entered (outer : Env) (array accumulated : Value) (m : Machine) : Env × Machine :=
  m.openScope outer.chain [("arr", array), ("accumulated", accumulated)]

/-- What the body of the inner function names around it: itself, the function that is applied, and four built-in
    functions. -/
structure Ready (outer : Env) (iter f : Value) (m : Machine) : Prop where
  opened : m.Opened outer
  iter : m.lookup outer "iter" = some iter
  function : m.lookup outer "f" = some f
  builtin : ∀ builtin ∈ [Builtin.len, .rest, .push, .first], m.lookup outer builtin.name = none

/-- What the names in it stand for during a round. -/
structure Stands (env : Env) (iter f array accumulated : Value) (m : Machine) : Prop
    extends Ready env iter f m where
  array : m.lookup env "arr" = some array
  accumulated : m.lookup env "accumulated" = some accumulated

theorem Ready.keeps {env : Env} {iter : Value} (h : Ready env iter f m) (hm : m.Keeps m') :
    Ready env iter f m' where
  opened := hm.opened h.opened
  iter := (hm.lookup h.opened _).trans h.iter
  function := (hm.lookup h.opened _).trans h.function
  builtin builtin hbuiltin := (hm.lookup h.opened builtin.name).trans (h.builtin builtin hbuiltin)

theorem Stands.keeps {env : Env} {iter array accumulated : Value} (h : Stands env iter f array accumulated m)
    (hm : m.Keeps m') : Stands env iter f array accumulated m' where
  toReady := h.toReady.keeps hm
  array := (hm.lookup h.opened _).trans h.array
  accumulated := (hm.lookup h.opened _).trans h.accumulated

section

variable {env : Env} {depth i : Nat} {xs : List Value} {iter accumulated : Value}

theorem word_run {name : String} {value : Value} (h : m.lookup env name = some value) (k : Nat) :
    (word t k name).evalWithin (depth + 1) env m = .ok value m :=
  names_of_lookup h depth _ rfl

theorem Stands.builtin_run {array : Value} {name : String} {token : Token} {arguments : List Node}
    {values : List Value} (h : Stands env iter f array accumulated m) (builtin : Builtin)
    (hbuiltin : builtin ∈ [Builtin.len, .rest, .push, .first]) (hname : builtin.name = name) (k : Nat)
    (harguments : evalAll (Node.evalWithin depth) env arguments m = .ok (.ok values) m') :
    (Node.call token (word t k name) arguments).evalWithin (depth + 1) env m = builtin.apply values m' :=
  evalWithin_call (names_builtin (h.builtin builtin hbuiltin) depth ⟨t k, name⟩ hname.symm) rfl harguments

theorem Stands.array_run {array : Value} (h : Stands env iter f array accumulated m)
    (herror : array.isError = false) (k : Nat) :
    evalAll (Node.evalWithin depth) env [word t k "arr"] m = .ok (.ok [array]) m :=
  evalAll_cons_run (word_run h.array k) herror evalAll_nil_run

theorem Stands.test_run (h : Stands env iter f (.array i xs) accumulated m) :
    (test t).evalWithin (depth + 1) env m = .ok (.boolean xs.isEmpty) (m.grown [] 2) := by
  have hlen : (Node.call (t 23) (word t 22 "len") [word t 24 "arr"]).evalWithin (depth + 1) env m =
      .ok (.integer m.objects xs.length) (m.grown [] 1) :=
    (h.builtin_run .len (by simp) rfl 22 (h.array_run rfl 24)).trans (Eval.new_run _ m)
  have hzero : (Node.integer (t 27) 0).evalWithin (depth + 1) env (m.grown [] 1) =
      .ok (.integer (m.objects + 1) 0) (m.grown [] 2) :=
    new_run_grown _ m 1
  have hempty : decide ((xs.length : Int) = 0) = xs.isEmpty := by
    cases xs with
    | nil => rfl
    | cons x rest =>
      simp only [List.length_cons, List.isEmpty_cons, decide_eq_false_iff_not]
      omega
  rw [test, evalWithin_binary hlen rfl hzero rfl, ← hempty]
  rfl

/-- A round on an empty array gives what has been accumulated. -/
theorem Stands.last_round (h : Stands env iter f (.array i []) accumulated m) :
    (iterBody t).evalWithin (depth + 1) env m = .ok accumulated (m.grown [] 2) := by
  rw [iterBody, evalWithin_block, evalWithin_conditional h.test_run rfl rfl]
  simp only [List.isEmpty_nil, Value.isTruthy, if_true]
  rw [evalWithin_block]
  exact word_run ((h.keeps (m.prints_grown [] 2).keeps).accumulated) 30

/-- A round on any other array calls the function with the first element, and goes on with the rest. -/
theorem Stands.next_round {x v : Value} {rest vs : List Value} {j : Nat}
    (h : Stands env iter f (.array i (x :: rest)) (.array j vs) m) (hiter : iter.isError = false)
    (hf : f.isError = false) (hx : x.isError = false)
    (hcall : applyWith (Node.evalWithin depth) f [x] (m.grown [] 3) = .ok v m₁) (hv : v.isError = false) :
    (iterBody t).evalWithin (depth + 1) env m = applyWith (Node.evalWithin depth) iter
      [.array (m.objects + 2) rest, .array m₁.objects (vs ++ [v])] (m₁.grown [] 1) := by
  have h2 := h.keeps (m.prints_grown [] 2).keeps
  have h3 := h.keeps (m.prints_grown [] 3).keeps
  have hremaining : (remaining t).evalWithin (depth + 1) env (m.grown [] 2) =
      .ok (.array (m.objects + 2) rest) (m.grown [] 3) :=
    (h2.builtin_run .rest (by simp) rfl 36 (h2.array_run rfl 38)).trans (new_run_grown _ m 2)
  have hfirst : (Node.call (t 48) (word t 47 "first") [word t 49 "arr"]).evalWithin (depth + 1) env
      (m.grown [] 3) = .ok x (m.grown [] 3) :=
    h3.builtin_run .first (by simp) rfl 47 (h3.array_run rfl 49)
  have hmapped : (mapped t).evalWithin (depth + 1) env (m.grown [] 3) = .ok v m₁ :=
    (evalWithin_call (word_run h3.function 45) hf (evalAll_cons_run hfirst hx evalAll_nil_run)).trans hcall
  have hextended : (extended t).evalWithin (depth + 1) env (m.grown [] 3) =
      .ok (.array m₁.objects (vs ++ [v])) (m₁.grown [] 1) := by
    have harguments : evalAll (Node.evalWithin depth) env [word t 43 "accumulated", mapped t] (m.grown [] 3) =
        .ok (.ok [.array j vs, v]) m₁ :=
      evalAll_cons_run (word_run h3.accumulated 43) rfl (evalAll_cons_run hmapped hv evalAll_nil_run)
    exact (h3.builtin_run .push (by simp) rfl 41 harguments).trans (Eval.array_run (vs ++ [v]) m₁)
  rw [iterBody, evalWithin_block, evalWithin_conditional h.test_run rfl rfl]
  simp only [List.isEmpty_cons, Value.isTruthy, Bool.false_eq_true, if_false]
  rw [evalWithin_block]
  have harguments := evalAll_cons_run hextended rfl evalAll_nil_run
  exact evalWithin_call (word_run h2.iter 34) hiter (evalAll_cons_run hremaining rfl harguments)

end

/-! ### All rounds -/

section

variable {depth id i j : Nat} {xs vs : List Value}

theorem Ready.stands {iter : Value} (h : Ready outer iter f m) (array accumulated : Value) :
    Stands (entered outer array accumulated m).1 iter f array accumulated
      (entered outer array accumulated m).2 := by
  have hopen := m.prints_openScope outer.chain [("arr", array), ("accumulated", accumulated)]
  have hlookup := m.lookup_openScope h.opened [("arr", array), ("accumulated", accumulated)]
  constructor
  · constructor
    · refine List.forall_mem_cons.mpr ⟨?_, hopen.keeps.opened h.opened⟩
      simp [entered, Machine.openScope]
    · exact (hlookup "iter").trans h.iter
    · exact (hlookup "f").trans h.function
    · intro builtin hbuiltin
      refine (hlookup builtin.name).trans ?_
      rw [h.builtin builtin hbuiltin, Option.or_none]
      simp only [List.mem_cons, List.not_mem_nil, or_false] at hbuiltin
      rcases hbuiltin with rfl | rfl | rfl | rfl <;> rfl
  · exact hlookup "arr"
  · exact hlookup "accumulated"

theorem iteration_run (array accumulated : Value) :
    applyWith (Node.evalWithin depth) (iteration t id outer) [array, accumulated] m =
      ((iterBody t).evalWithin depth (entered outer array accumulated m).1 >>=
        fun result => pure result.unwrapped) (entered outer array accumulated m).2 := rfl

theorem isError_callee {evalBody : Node → Env → Eval Value} {arguments : List Value} {v : Value}
    (h : applyWith evalBody f arguments m = .ok v m') (herror : v.isError = false) : f.isError = false := by
  cases f with
  | error id fault =>
    have hrun := h.symm.trans (Eval.error_run _ m)
    cases hrun
    cases herror
  | _ => rfl

/-- The inner function accumulates what the function gives for the elements. The calls are compared with those
    that are made on `base`, as their results are still known when other calls have been made. -/
theorem iteration_accumulates {base : Machine} {lines : List String} {calls : List (Value × List String)}
    (hbase : base.Prints lines m) (hready : Ready outer (iteration t id outer) f m)
    (hxs : ∀ x ∈ xs, x.isError = false)
    (hcalls : List.Forall₂ (base.Answers f) xs calls) (hj : j ≤ m.objects) :
    ∃ values number m', List.Forall₂ (fun call v => base.Alike call.1 v) calls values ∧ j ≤ number ∧
      m.Prints (calls.flatMap Prod.snd) m' ∧ ∃ least, ∀ depth, least ≤ depth →
        applyWith (Node.evalWithin depth) (iteration t id outer) [.array i xs, .array j vs] m =
          .ok (.array number (vs ++ values)) m' := by
  induction hcalls generalizing m i j vs lines with
  | nil =>
    have hstands := hready.stands (.array i []) (.array j vs)
    have hopen := m.prints_openScope outer.chain [("arr", .array i []), ("accumulated", .array j vs)]
    refine ⟨[], j, (entered outer (.array i []) (.array j vs) m).2.grown [] 2, .nil, Nat.le_refl j, ?_, 1, ?_⟩
    · exact hopen.trans (Machine.prints_grown _ [] 2)
    · intro depth hdepth
      obtain ⟨depth, rfl⟩ := Nat.exists_eq_add_of_le' hdepth
      rw [iteration_run, Eval.bind_run, hstands.last_round, List.append_nil]
      rfl
  | @cons x call rest calls hcall hcalls ih =>
    obtain ⟨hx, hrest⟩ := List.forall_mem_cons.mp hxs
    let start := entered outer (.array i (x :: rest)) (.array j vs) m
    have hbefore : m.Prints [] (start.2.grown [] 3) :=
      (m.prints_openScope outer.chain _).trans (start.2.prints_grown [] 3)
    obtain ⟨v, halike, depth₁, after, hrun, hv, houtput⟩ := hcall _ _ (hbase.trans hbefore)
    have hafter : m.Prints call.2 (after.grown [] 1) := by
      have hwhole := (hbefore.trans (Machine.prints_applyWith hrun houtput)).trans (after.prints_grown [] 1)
      rwa [List.nil_append, List.append_nil] at hwhole
    obtain ⟨values, number, m', hvalues, hnumber, hprints, least, hrounds⟩ :=
      ih (hbase.trans hafter) (hready.keeps hafter.keeps) hrest (Nat.le_succ after.objects)
    refine ⟨v :: values, number, m', .cons halike hvalues, ?_, ?_, max depth₁ least + 1, ?_⟩
    · exact Nat.le_trans hj (Nat.le_trans hbefore.objects_le (Nat.le_trans
        (Machine.prints_applyWith hrun houtput).objects_le hnumber))
    · rw [List.flatMap_cons]
      exact hafter.trans hprints
    · intro depth hdepth
      obtain ⟨depth, rfl⟩ := Nat.exists_eq_add_of_le' (Nat.le_trans (Nat.le_add_left 1 _) hdepth)
      have hdeep : depth₁ ≤ depth := by omega
      have hround := (hready.stands (.array i (x :: rest)) (.array j vs)).next_round (t := t) rfl
        (isError_callee hrun hv) hx (Eval.call_of_le hdeep hrun) hv
      rw [iteration_run, Eval.bind_run, hround, hrounds depth (by omega), List.append_assoc]
      rfl

end

/-! ### The whole call -/

section

variable {home : Env} {i : Nat} {xs : List Value}

/-- The function that the definition makes. -/
def mapping (t : Nat → Token) (id : Nat) (home : Env) : Value :=
  .function id ["arr", "f"] (body t) home

/-- Where the inner function has been bound, it finds what it needs. -/
theorem ready_openScope (hhome : m.Opened home)
    (hbuiltin : ∀ builtin ∈ [Builtin.len, .rest, .push, .first], m.lookup home builtin.name = none)
    (array iter : Value) :
    Ready ⟨m.scopes.size, home.chain⟩ iter f
      (m.openScope home.chain [("arr", array), ("f", f), ("iter", iter)]).2 := by
  have hlookup := m.lookup_openScope hhome [("arr", array), ("f", f), ("iter", iter)]
  have hopen := m.prints_openScope home.chain [("arr", array), ("f", f), ("iter", iter)]
  constructor
  · refine List.forall_mem_cons.mpr ⟨?_, hopen.keeps.opened hhome⟩
    simp [Machine.openScope]
  · exact hlookup "iter"
  · exact hlookup "f"
  · intro builtin hmem
    refine (hlookup builtin.name).trans ?_
    rw [hbuiltin builtin hmem, Option.or_none]
    simp only [List.mem_cons, List.not_mem_nil, or_false] at hmem
    rcases hmem with rfl | rfl | rfl | rfl <;> rfl

/-- The body makes the inner function, binds it and calls it. -/
theorem body_run (hhome : m.Opened home)
    (hbuiltin : ∀ builtin ∈ [Builtin.len, .rest, .push, .first], m.lookup home builtin.name = none) (depth : Nat) :
    let outer : Env := ⟨m.scopes.size, home.chain⟩
    let iter := iteration t m.objects outer
    let start := (m.openScope home.chain [("arr", .array i xs), ("f", f)]).2
    let made := (m.openScope home.chain [("arr", .array i xs), ("f", f), ("iter", iter)]).2
    (body t).evalWithin (depth + 1) outer start =
      applyWith (Node.evalWithin depth) iter [.array i xs, .array (m.objects + 1) []] (made.grown [] 2) := by
  intro outer iter start made
  have hfunction : (Node.function (t 13) [⟨t 15, "arr"⟩, ⟨t 17, "accumulated"⟩] (iterBody t)).evalWithin
      (depth + 1) outer start = .ok iter (start.grown [] 1) :=
    Eval.new_run _ start
  have hbound : (start.grown [] 1).bind outer "iter" iter = made.grown [] 1 :=
    congrArg (Machine.grown · [] 1) (m.bind_openScope home.chain home.chain _ "iter" iter)
  have hready : Ready outer iter f (made.grown [] 1) :=
    (ready_openScope hhome hbuiltin (.array i xs) iter).keeps (made.prints_grown [] 1).keeps
  have harray : (made.grown [] 1).lookup outer "arr" = some (.array i xs) :=
    m.lookup_openScope hhome _ "arr"
  have hempty : (Node.array (t 62) []).evalWithin (depth + 1) outer (made.grown [] 1) =
      .ok (.array (m.objects + 1) []) (made.grown [] 2) :=
    (evalWithin_array evalAll_nil_run).trans (by rw [Machine.grown_append]; rfl)
  rw [body, evalWithin_block_let hfunction rfl, hbound, evalWithin_block]
  exact evalWithin_call (word_run hready.iter 58) rfl
    (evalAll_cons_run (word_run harray 60) rfl (evalAll_cons_run hempty rfl evalAll_nil_run))

/-- The function maps. -/
theorem mapping_run {calls : List (Value × List String)} (hhome : m.Opened home)
    (hbuiltin : ∀ builtin ∈ [Builtin.len, .rest, .push, .first], m.lookup home builtin.name = none)
    (hxs : ∀ x ∈ xs, x.isError = false)
    (hcalls : List.Forall₂ (m.Answers f) xs calls) (id : Nat) :
    ∃ values number m', List.Forall₂ (fun call v => m.Alike call.1 v) calls values ∧ m.objects ≤ number ∧
      m.Prints (calls.flatMap Prod.snd) m' ∧ ∃ least, ∀ depth, least ≤ depth →
        applyWith (Node.evalWithin depth) (mapping t id home) [.array i xs, f] m =
          .ok (.array number values) m' := by
  let outer : Env := ⟨m.scopes.size, home.chain⟩
  let iter := iteration t m.objects outer
  let made := (m.openScope home.chain [("arr", .array i xs), ("f", f), ("iter", iter)]).2
  have hmade : m.Prints [] (made.grown [] 2) := (m.prints_openScope home.chain _).trans (made.prints_grown [] 2)
  have hready : Ready outer iter f (made.grown [] 2) :=
    (ready_openScope hhome hbuiltin (.array i xs) iter).keeps (made.prints_grown [] 2).keeps
  obtain ⟨values, number, m', hvalues, hnumber, hprints, least, hrounds⟩ :=
    iteration_accumulates (i := i) hmade hready hxs hcalls (Nat.le_succ (m.objects + 1))
  refine ⟨values, number, m', hvalues, by omega, hmade.trans hprints, least + 2, fun depth hdepth => ?_⟩
  obtain ⟨depth, rfl⟩ := Nat.exists_eq_add_of_le' (Nat.le_trans (Nat.le_add_left 1 (least + 1)) hdepth)
  have hcall : applyWith (Node.evalWithin (depth + 1)) (mapping t id home) [.array i xs, f] m =
      ((body t).evalWithin (depth + 1) outer >>= fun result => pure result.unwrapped)
        (m.openScope home.chain [("arr", .array i xs), ("f", f)]).2 := rfl
  rw [hcall, Eval.bind_run, body_run hhome hbuiltin, hrounds depth (by omega), List.nil_append]
  rfl

theorem lookup_definition {depth : Nat} {value : Value} (hhome : m.Opened home)
    (hdefined : (definition t).evalWithin depth home m = .ok value m') :
    ∃ id, m'.lookup home "map" = some (mapping t id home) := by
  cases depth with
  | zero => cases hdefined
  | succ depth =>
    have hfunction : (Node.function (t 3) [⟨t 5, "arr"⟩, ⟨t 7, "f"⟩] (body t)).evalWithin (depth + 1) home m =
        .ok (mapping t m.objects home) (m.grown [] 1) :=
      Eval.new_run _ m
    rw [definition, evalWithin_let hfunction rfl] at hdefined
    cases hdefined
    exact ⟨m.objects, Machine.lookup_bind (hhome home.scope List.mem_cons_self) "map" _⟩

/-- Where the function has been defined, and none of the four built-in functions that it uses is hidden, it
    maps: called with an array and a function whose calls with the elements yield something each, it ends if
    calls may nest deep enough, gives a new array of their values in order, prints what they print in order, and
    changes no binding. The calls are taken as each is made by itself on the machine at the start, so the values
    are theirs but for the numbers of the objects that they make. That the machine and the values around are
    numbered holds wherever evaluation leads (`numbered_evalWithin`), and so does it that no element is an error
    (`clear_sessionAfter`). -/
theorem definition_maps {m₀ : Machine} {depth : Nat} {value : Value} {calls : List (Value × List String)}
    (hhome : m₀.Opened home) (hdefined : (definition t).evalWithin depth home m₀ = .ok value m₁)
    (hmap : m.lookup home "map" = m₁.lookup home "map") (hm : m.Numbered)
    (hbuiltin : ∀ name ∈ ["len", "rest", "push", "first"], m.lookup home name = none)
    (hf : m.Numbers f) (hxs : ∀ x ∈ xs, m.Numbers x ∧ x.isError = false)
    (hcalls : List.Forall₂ (m.Yields f) xs calls) :
    ∃ map number values m', m.lookup home "map" = some map ∧ m.objects ≤ number ∧
      List.Forall₂ (fun call v => m.Alike call.1 v) calls values ∧
      m'.output = m.output ++ (calls.flatMap Prod.snd).toArray ∧ m.Keeps m' ∧
      ∃ least, ∀ depth, least ≤ depth →
        applyWith (Node.evalWithin depth) map [.array i xs, f] m = .ok (.array number values) m' := by
  obtain ⟨id, hid⟩ := lookup_definition hhome hdefined
  have hlookup := hmap.trans hid
  have hopened : m.Opened home := (hm.lookup (fun _ _ => trivial) hlookup).has.captured
  have hnames : ∀ builtin ∈ [Builtin.len, .rest, .push, .first], m.lookup home builtin.name = none :=
    fun builtin hmem => hbuiltin builtin.name (List.mem_map_of_mem (f := Builtin.name) hmem)
  have hanswers : List.Forall₂ (m.Answers f) xs calls :=
    List.Forall₂.imp (fun x call h => h.2.answers hm hf h.1)
      ((List.forall₂_and_left xs calls).mpr ⟨fun x hx => (hxs x hx).1, hcalls⟩)
  obtain ⟨values, number, m', hvalues, hnumber, hprints, hrun⟩ :=
    mapping_run (i := i) hopened hnames (fun x hx => (hxs x hx).2) hanswers id
  exact ⟨_, number, values, m', hlookup, hnumber, hvalues, hprints.output, hprints.keeps, hrun⟩

/-- Two integers are printed and doubled. By itself either call would give its result the same number. -/
theorem definition_maps_doubling :
    let t := fun _ : Nat => (default : Token)
    let home := (Machine.openSession {}).1
    let start := (Machine.openSession {}).2
    let defined := ((definition t).evalWithin 1 home).after start
    let m := defined.grown [] 4
    let f := Value.function 1 ["x"] (.block (t 0) [
      .expressionStatement (t 0) (.call (t 0) (word t 0 "puts") [word t 0 "x"]),
      .expressionStatement (t 0) (.binary (t 0) (word t 0 "x") "*" (.integer (t 0) 2))]) home
    let xs := [Value.integer 2 3, .integer 3 4]
    let calls := [(Value.integer 6 6, ["3"]), (.integer 6 8, ["4"])]
    start.Opened home ∧ (definition t).evalWithin 1 home start = .ok .null defined ∧ m.Numbered ∧ m.Numbers f ∧
      (∀ x ∈ xs, m.Numbers x ∧ x.isError = false) ∧ List.Forall₂ (m.Yields f) xs calls ∧
    ∃ map number values m', m.lookup home "map" = some map ∧ m.objects ≤ number ∧
      List.Forall₂ (fun call v => m.Alike call.1 v) calls values ∧
      m'.output = m.output ++ (calls.flatMap Prod.snd).toArray ∧ m.Keeps m' ∧
      ∃ least, ∀ depth, least ≤ depth →
        applyWith (Node.evalWithin depth) map [.array 4 xs, f] m = .ok (.array number values) m' := by
  intro t home start defined m f xs calls
  have hstart : start.Opened home := opened_openSession {}
  have hdefined : (definition t).evalWithin 1 home start = .ok .null defined := rfl
  have hm : m.Numbered :=
    (numbered_evalWithin (numbered_openSession numbered_empty) hstart 1 (definition t)).1.grown [] 4
  have hf : m.Numbers f := clear_function ⟨by rintro _ ⟨⟩; decide, by decide⟩ fun _ _ => trivial
  have hinteger (id : Nat) (n : Int) (hid : id < m.objects) : m.Numbers (.integer id n) :=
    clear_leaf ⟨by rintro _ ⟨⟩; exact hid, nofun⟩ rfl rfl
  have hxs : ∀ x ∈ xs, m.Numbers x ∧ x.isError = false :=
    List.forall_mem_cons.mpr ⟨⟨hinteger 2 3 (by decide), rfl⟩,
      List.forall_mem_singleton.mpr ⟨hinteger 3 4 (by decide), rfl⟩⟩
  have hcalls : List.Forall₂ (m.Yields f) xs calls :=
    .cons ⟨2, _, rfl, rfl, rfl⟩ (.cons ⟨2, _, rfl, rfl, rfl⟩ .nil)
  exact ⟨hstart, hdefined, hm, hf, hxs, hcalls,
    definition_maps hstart hdefined rfl hm (by decide) hf hxs hcalls⟩

end

end Mapping

end Monkey
