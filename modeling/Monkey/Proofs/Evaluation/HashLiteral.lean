import Mathlib.Data.List.Find
import Mathlib.Data.List.Sort
import Monkey.Proofs.Assoc
import Monkey.Proofs.Evaluation.WellFormed

/-!
# Hash literals

The pairs of a hash literal are evaluated in the order in which they are written, each key before its value,
as long as nothing goes wrong. The first part that is an error is then the value of the literal, or the first
key that cannot be one makes an error of its own, and no further part is evaluated (`Ends`). If all goes well,
what has been gathered makes the hash: each key has one entry, in the place where it came first and with the
key and the value that came last (`LastWins`), so that indexing searches the pairs from the end.

* `LastWins.unique`: this leaves nothing about the entries open.
* `evalWithin_hash`: a hash literal ends as `Ends` says and in no other way, and indexing a hash of such entries
  is searching the pairs from the end.
-/

namespace Monkey

/-! ### Keys -/

namespace Value

/-- Whether a value can be the key of a hash. -/
def Hashable (value : Value) : Prop :=
  value.kind ∈ [.integer, .boolean, .string]

instance : DecidablePred Hashable :=
  fun value => inferInstanceAs (Decidable (value.kind ∈ [.integer, .boolean, .string]))

/-- Whether two values are the same key: of the same kind and with the same content. -/
def sameKey : Value → Value → Bool
  | .integer _ n, .integer _ n' => n = n'
  | .boolean b, .boolean b' => b = b'
  | .string _ text, .string _ text' => text = text'
  | _, _ => false

variable {value other : Value} {key key' : HashKey}

theorem hashable_iff : value.Hashable ↔ ∃ key, value.hashKey? = some key := by
  constructor
  · intro h
    cases value with
    | integer id n => exact ⟨_, rfl⟩
    | boolean b => exact ⟨_, rfl⟩
    | string id text => exact ⟨_, rfl⟩
    | _ => simp [Hashable, kind] at h
  · rintro ⟨key, h⟩
    exact kind_of_hashKey? h

theorem hashKey?_eq_none (h : ¬ value.Hashable) : value.hashKey? = none := by
  cases hkey : value.hashKey? with
  | none => rfl
  | some key => exact absurd (hashable_iff.mpr ⟨key, hkey⟩) h

theorem Hashable.isError (h : value.Hashable) : value.isError = false := by
  cases value with
  | error id fault => simp [Hashable, kind] at h
  | _ => rfl

theorem sameKey_of_hashKey? (h : value.hashKey? = some key) (h' : other.hashKey? = some key') :
    value.sameKey other = (key == key') := by
  cases value <;> cases h <;> cases other <;> cases h' <;> simp [sameKey, beq_eq_decide]

theorem sameKey_iff :
    value.sameKey other = true ↔ ∃ key, value.hashKey? = some key ∧ other.hashKey? = some key := by
  constructor
  · intro h
    cases value <;> cases other <;> simp_all [sameKey, hashKey?]
  · rintro ⟨key, h, h'⟩
    rw [sameKey_of_hashKey? h h', beq_self_eq_true]

theorem sameKey_congr (h : value.sameKey other = true) (key : Value) : key.sameKey value = key.sameKey other := by
  obtain ⟨hashKey, hvalue, hother⟩ := sameKey_iff.mp h
  rw [Bool.eq_iff_iff, sameKey_iff, sameKey_iff, hvalue, hother]

end Value

/-! ### What the entries of a hash are -/

/-- The last of some pairs whose key is the given one. -/
def lastWith (gathered : List (Value × Value)) (key : Value) : Option (Value × Value) :=
  gathered.findRev? fun pair => pair.1.sameKey key

/-- How many pairs stand in front of the first one whose key is the given one. -/
def firstAt (gathered : List (Value × Value)) (key : Value) : Nat :=
  gathered.findIdx fun pair => pair.1.sameKey key

/-- The entries of the hash that some pairs of keys and values make. -/
structure LastWins (gathered : List (Value × Value)) (entries : List (HashKey × Value × Value)) : Prop where
  keyed : ∀ entry ∈ entries, entry.2.1.hashKey? = some entry.1
  one : ∀ pair ∈ gathered, ∃! entry, entry ∈ entries ∧ pair.1.sameKey entry.2.1 = true
  last : ∀ entry ∈ entries, lastWith gathered entry.2.1 = some entry.2
  ordered : entries.Pairwise fun entry entry' => firstAt gathered entry.2.1 < firstAt gathered entry'.2.1

section

variable {gathered : List (Value × Value)} {entries entries' : List (HashKey × Value × Value)}

theorem mem_of_lastWith {key : Value} {pair : Value × Value} (h : lastWith gathered key = some pair) :
    pair ∈ gathered ∧ pair.1.sameKey key = true := by
  rw [lastWith, List.findRev?_eq_find?_reverse] at h
  have hkey := List.find?_some h
  exact ⟨List.mem_reverse.mp (List.mem_of_find?_eq_some h), hkey⟩

theorem lastWith_congr {key key' : Value} (h : key.sameKey key' = true) :
    lastWith gathered key = lastWith gathered key' := by
  have hcongr : (fun pair : Value × Value => pair.1.sameKey key) = fun pair => pair.1.sameKey key' := by
    funext pair
    exact Value.sameKey_congr h pair.1
  rw [lastWith, hcongr, lastWith]

/-- What pairs make of each key is settled by the pairs alone. -/
theorem LastWins.unique (h : LastWins gathered entries) (h' : LastWins gathered entries') :
    entries = entries' := by
  have hsub {entries entries' : List (HashKey × Value × Value)} (h : LastWins gathered entries)
      (h' : LastWins gathered entries') : ∀ entry ∈ entries, entry ∈ entries' := by
    intro entry hentry
    obtain ⟨hpair, -⟩ := mem_of_lastWith (h.last entry hentry)
    obtain ⟨entry', ⟨hentry', hsame⟩, -⟩ := h'.one entry.2 hpair
    have hlast : entry.2 = entry'.2 := by
      rw [← Option.some_inj, ← h.last entry hentry, ← h'.last entry' hentry']
      exact lastWith_congr hsame
    have hkey : entry.1 = entry'.1 := by
      rw [← Option.some_inj, ← h.keyed entry hentry, ← h'.keyed entry' hentry', hlast]
    rwa [Prod.ext hkey hlast]
  have hirrefl : Std.Irrefl fun entry entry' : HashKey × Value × Value =>
      firstAt gathered entry.2.1 < firstAt gathered entry'.2.1 := ⟨fun _ => Nat.lt_irrefl _⟩
  have hantisymm : Std.Antisymm fun entry entry' : HashKey × Value × Value =>
      firstAt gathered entry.2.1 < firstAt gathered entry'.2.1 :=
    ⟨fun _ _ hlt hlt' => absurd hlt' (Nat.lt_asymm hlt)⟩
  apply h.ordered.eq_of_mem_iff h'.ordered
  intro entry
  exact ⟨hsub h h' entry, hsub h' h entry⟩

/-- A search among the entries finds what a search of the pairs from the end finds. -/
theorem LastWins.valueAt (h : LastWins gathered entries) {key : Value} {hashKey : HashKey}
    (hkey : key.hashKey? = some hashKey) :
    valueAt entries hashKey = ((lastWith gathered key).map Prod.snd).getD .null := by
  unfold Monkey.valueAt
  cases hlookup : entries.lookup hashKey with
  | some found =>
    obtain ⟨front, back, hentries, -⟩ := List.lookup_eq_some_iff.mp hlookup
    have hentry : (hashKey, found) ∈ entries := by simp [hentries]
    have hsame : found.1.sameKey key = true := Value.sameKey_iff.mpr ⟨hashKey, h.keyed _ hentry, hkey⟩
    rw [← lastWith_congr hsame, h.last _ hentry]
    rfl
  | none =>
    cases hlast : lastWith gathered key with
    | none => rfl
    | some pair =>
      obtain ⟨hpair, hsame⟩ := mem_of_lastWith hlast
      obtain ⟨entry, ⟨hentry, hsame'⟩, -⟩ := h.one pair hpair
      obtain ⟨hashKey', hpairKey, hkey'⟩ := Value.sameKey_iff.mp hsame
      obtain ⟨_, hpairKey', hentryKey⟩ := Value.sameKey_iff.mp hsame'
      have hfound : entry.1 = hashKey := by
        have hentryKey' := h.keyed entry hentry
        simp_all
      have hnone := List.lookup_eq_none_iff.mp hlookup entry hentry
      simp [hfound] at hnone

/-! ### Insertions -/

variable {pairs : List (HashKey × Value × Value)} {key : Value} {hashKey : HashKey}
  (hpairs : ∀ pair ∈ pairs, pair.2.1.hashKey? = some pair.1)

include hpairs

theorem lastWith_map (hkey : key.hashKey? = some hashKey) :
    lastWith (pairs.map Prod.snd) key = (Assoc.lastWith pairs hashKey).map Prod.snd := by
  rw [lastWith, Assoc.lastWith, List.findRev?_eq_find?_reverse, List.findRev?_eq_find?_reverse,
    ← List.map_reverse, List.find?_map]
  congr 1
  apply List.find?_congr
  intro pair hpair
  exact Value.sameKey_of_hashKey? (hpairs pair (List.mem_reverse.mp hpair)) hkey

theorem firstAt_map (hkey : key.hashKey? = some hashKey) :
    firstAt (pairs.map Prod.snd) key = Assoc.firstAt pairs hashKey := by
  induction pairs with
  | nil => rfl
  | cons pair rest ih =>
    obtain ⟨hpair, hrest⟩ := List.forall_mem_cons.mp hpairs
    have ih := ih hrest
    rw [firstAt, Assoc.firstAt] at ih ⊢
    rw [List.map_cons, List.findIdx_cons, List.findIdx_cons, ih, Value.sameKey_of_hashKey? hpair hkey]

/-- To insert pairs one after the other is to let the last one win. -/
theorem lastWins_insertAll : LastWins (pairs.map Prod.snd) (Assoc.insertAll pairs []) := by
  have hkeyed : ∀ entry ∈ Assoc.insertAll pairs [], entry.2.1.hashKey? = some entry.1 := by
    intro entry hentry
    exact hpairs entry (Assoc.mem_of_lastWith (Assoc.mem_insertAll.mp hentry))
  constructor
  · exact hkeyed
  · intro _ hmem
    obtain ⟨pair, hpair, rfl⟩ := List.mem_map.mp hmem
    have hkey : pair.1 ∈ Assoc.keys (Assoc.insertAll pairs []) :=
      Assoc.mem_keys_insertAll.mpr (List.mem_map.mpr ⟨pair, hpair, rfl⟩)
    obtain ⟨entry, hentry⟩ := Assoc.mem_keys_iff.mp hkey
    refine ⟨(pair.1, entry), ⟨hentry, ?_⟩, ?_⟩
    · exact Value.sameKey_iff.mpr ⟨pair.1, hpairs pair hpair, hkeyed _ hentry⟩
    · rintro other ⟨hother, hsame⟩
      rw [Value.sameKey_of_hashKey? (hpairs pair hpair) (hkeyed other hother)] at hsame
      exact List.inj_on_of_nodup_map (Assoc.nodup_insertAll pairs) hother hentry (eq_of_beq hsame).symm
  · intro entry hentry
    rw [lastWith_map hpairs (hkeyed entry hentry), Assoc.mem_insertAll.mp hentry]
    rfl
  · have hordered := List.pairwise_map.mp (Assoc.ordered_insertAll pairs)
    apply hordered.imp_of_mem
    intro entry entry' hentry hentry' hlt
    rwa [firstAt_map hpairs (hkeyed entry hentry), firstAt_map hpairs (hkeyed entry' hentry')]

end

/-! ### How a literal is evaluated -/

/-- Evaluating some pairs one after the other, each key before its value, gives these keys and values: all
    keys can be one, and no value is an error. -/
inductive Gathers (eval : Node → Eval Value) :
    List (Node × Node) → Machine → List (Value × Value) → Machine → Prop where
  | nil {m : Machine} : Gathers eval [] m [] m
  | cons {left right : Node} {rest : List (Node × Node)} {key value : Value}
      {gathered : List (Value × Value)} {m m₁ m₂ m' : Machine} (hkey : eval left m = .ok key m₁)
      (hhashable : key.Hashable) (hvalue : eval right m₁ = .ok value m₂) (herror : value.isError = false)
      (hrest : Gathers eval rest m₂ gathered m') :
      Gathers eval ((left, right) :: rest) m ((key, value) :: gathered) m'

/-- The evaluation of some pairs comes to a key, all pairs in front of which have been gathered. -/
inductive ComesToKey (eval : Node → Eval Value) (pairs : List (Node × Node)) (m : Machine) :
    Node → Machine → Prop where
  | intro {front back : List (Node × Node)} {left right : Node} {gathered : List (Value × Value)}
      {m' : Machine} (hpairs : pairs = front ++ (left, right) :: back)
      (hfront : Gathers eval front m gathered m') : ComesToKey eval pairs m left m'

/-- The evaluation of some pairs comes to a key or, if this one can be a key, to its value. -/
inductive ComesTo (eval : Node → Eval Value) (pairs : List (Node × Node)) (m : Machine) :
    Node → Machine → Prop where
  | key {left : Node} {m' : Machine} (h : ComesToKey eval pairs m left m') : ComesTo eval pairs m left m'
  | value {front back : List (Node × Node)} {left right : Node} {gathered : List (Value × Value)}
      {key : Value} {m₁ m' : Machine} (hpairs : pairs = front ++ (left, right) :: back)
      (hfront : Gathers eval front m gathered m₁) (hkey : eval left m₁ = .ok key m')
      (hhashable : key.Hashable) : ComesTo eval pairs m right m'

/-- How the evaluation of a hash literal with some pairs may end. -/
inductive Ends (eval : Node → Eval Value) (pairs : List (Node × Node)) (m : Machine) :
    EStateM.Result Halt Machine Value → Prop where
  | hash {gathered : List (Value × Value)} {entries : List (HashKey × Value × Value)} {m' : Machine}
      (hpairs : Gathers eval pairs m gathered m') (hentries : LastWins gathered entries) :
      Ends eval pairs m (.ok (.hash m'.objects entries) (m'.grown [] 1))
  | failure {part : Node} {error : Value} {m₁ m' : Machine} (hpart : ComesTo eval pairs m part m₁)
      (hrun : eval part m₁ = .ok error m') (herror : error.isError = true) :
      Ends eval pairs m (.ok error m')
  | unusable {left : Node} {key : Value} {m₁ m' : Machine} (hleft : ComesToKey eval pairs m left m₁)
      (hrun : eval left m₁ = .ok key m') (herror : key.isError = false) (hkey : ¬ key.Hashable) :
      Ends eval pairs m (.ok (.error m'.objects (.unusableKey key.kind)) (m'.grown [] 1))
  | halt {part : Node} {reason : Halt} {m₁ m' : Machine} (hpart : ComesTo eval pairs m part m₁)
      (hrun : eval part m₁ = .error reason m') : Ends eval pairs m (.error reason m')

section

variable {eval : Node → Eval Value} {front : List (Node × Node)} {left right : Node} {key value : Value}
  {gathered : List (Value × Value)} {m m₁ m₂ m' : Machine}

theorem Gathers.concat (h : Gathers eval front m gathered m₁) (hkey : eval left m₁ = .ok key m₂)
    (hhashable : key.Hashable) (hvalue : eval right m₂ = .ok value m') (herror : value.isError = false) :
    Gathers eval (front ++ [(left, right)]) m (gathered ++ [(key, value)]) m' := by
  induction h with
  | nil => exact .cons hkey hhashable hvalue herror .nil
  | cons hkey' hhashable' hvalue' herror' _ ih => exact .cons hkey' hhashable' hvalue' herror' (ih hkey)

/-- What has been gathered can be put under hash keys. -/
theorem Gathers.keyed (h : Gathers eval front m gathered m') :
    ∃ pairs : List (HashKey × Value × Value), pairs.map Prod.snd = gathered ∧
      ∀ pair ∈ pairs, pair.2.1.hashKey? = some pair.1 := by
  induction h with
  | nil => exact ⟨[], rfl, List.forall_mem_nil _⟩
  | @cons _ _ _ key value _ _ _ _ _ _ hhashable _ _ _ ih =>
    obtain ⟨pairs, rfl, hpairs⟩ := ih
    obtain ⟨hashKey, hhash⟩ := Value.hashable_iff.mp hhashable
    exact ⟨(hashKey, key, value) :: pairs, rfl, List.forall_mem_cons.mpr ⟨hhash, hpairs⟩⟩

/-- Pairs are gathered to the end, or the evaluation ends at one of them. -/
theorem exists_ends (h : Gathers eval front m gathered m₁) (rest : List (Node × Node)) :
    ∃ result, Ends eval (front ++ rest) m result := by
  induction rest generalizing front gathered m₁ with
  | nil =>
    obtain ⟨pairs, rfl, hpairs⟩ := h.keyed
    rw [List.append_nil]
    exact ⟨_, .hash h (lastWins_insertAll hpairs)⟩
  | cons pair rest ih =>
    obtain ⟨left, right⟩ := pair
    have hleft : ComesToKey eval (front ++ (left, right) :: rest) m left m₁ := .intro rfl h
    cases hkey : eval left m₁ with
    | error reason m₂ => exact ⟨_, .halt (.key hleft) hkey⟩
    | ok key m₂ =>
      by_cases hhashable : key.Hashable
      · have hright : ComesTo eval (front ++ (left, right) :: rest) m right m₂ :=
          .value rfl h hkey hhashable
        cases hvalue : eval right m₂ with
        | error reason m₃ => exact ⟨_, .halt hright hvalue⟩
        | ok value m₃ =>
          cases herror : value.isError with
          | true => exact ⟨_, .failure hright hvalue herror⟩
          | false =>
            obtain ⟨result, hresult⟩ := ih (h.concat hkey hhashable hvalue herror)
            rw [List.append_assoc, List.singleton_append] at hresult
            exact ⟨result, hresult⟩
      · cases herror : key.isError with
        | true => exact ⟨_, .failure (.key hleft) hkey herror⟩
        | false => exact ⟨_, .unusable hleft hkey herror hhashable⟩

end

/-! ### Evaluation ends so -/

section

variable {evalBody : Node → Env → Eval Value} {env : Env}

/-- Evaluating a pair and the ones behind it. -/
theorem evalPairs_cons (entries : List (HashKey × Value × Value)) (left right : Node)
    (rest : List (Node × Node)) (m : Machine) : evalPairs evalBody env entries ((left, right) :: rest) m =
      match left.evalWith evalBody env m with
      | .error reason m₁ => .error reason m₁
      | .ok key m₁ => if key.isError then .ok key m₁ else match key.hashKey? with
        | none => .ok (.error m₁.objects (.unusableKey key.kind)) (m₁.grown [] 1)
        | some hashKey => match right.evalWith evalBody env m₁ with
          | .error reason m₂ => .error reason m₂
          | .ok value m₂ => if value.isError then .ok value m₂
            else evalPairs evalBody env (Assoc.insert hashKey (key, value) entries) rest m₂ := by
  rw [evalPairs, Eval.bind_run]
  cases left.evalWith evalBody env m with
  | error reason m₁ => rfl
  | ok key m₁ =>
    simp only [Value.proceed]
    split
    · rfl
    · cases key.hashKey? with
      | none => exact Eval.error_run _ m₁
      | some hashKey =>
        simp only [Eval.bind_run]
        cases right.evalWith evalBody env m₁ with
        | error reason m₂ => rfl
        | ok value m₂ => cases herror : value.isError <;> simp only [herror] <;> rfl

/-- What has been gathered is inserted, and the evaluation goes on behind it. -/
theorem evalPairs_append {front : List (Node × Node)} {m m' : Machine}
    {pairs : List (HashKey × Value × Value)}
    (h : Gathers (Node.evalWith evalBody env) front m (pairs.map Prod.snd) m')
    (hpairs : ∀ pair ∈ pairs, pair.2.1.hashKey? = some pair.1) (entries : List (HashKey × Value × Value))
    (rest : List (Node × Node)) : evalPairs evalBody env entries (front ++ rest) m =
      evalPairs evalBody env (Assoc.insertAll pairs entries) rest m' := by
  induction pairs generalizing front m entries with
  | nil =>
    cases h
    rfl
  | cons pair pairs ih =>
    obtain ⟨hashKey, key, value⟩ := pair
    obtain ⟨hhash, hrest⟩ := List.forall_mem_cons.mp hpairs
    cases h with
    | cons hkey hhashable hvalue herror h =>
      rw [List.cons_append, evalPairs_cons]
      simp only [hkey, hhashable.isError, hhash, hvalue, herror, Bool.false_eq_true, if_false]
      exact ih h hrest _

/-- The evaluation of a literal comes to what the rest of it comes to behind the pairs gathered. -/
theorem exists_evalPairs {front : List (Node × Node)} {gathered : List (Value × Value)} {m m' : Machine}
    (h : Gathers (Node.evalWith evalBody env) front m gathered m') :
    ∃ entries, LastWins gathered entries ∧ ∀ rest, evalPairs evalBody env [] (front ++ rest) m =
      evalPairs evalBody env entries rest m' := by
  obtain ⟨pairs, rfl, hpairs⟩ := h.keyed
  exact ⟨_, lastWins_insertAll hpairs, evalPairs_append h hpairs []⟩

theorem evalPairs_of_ends {pairs : List (Node × Node)} {m : Machine}
    {result : EStateM.Result Halt Machine Value} (h : Ends (Node.evalWith evalBody env) pairs m result) :
    evalPairs evalBody env [] pairs m = result := by
  cases h with
  | hash hpairs hentries =>
    obtain ⟨entries, hlast, heval⟩ := exists_evalPairs hpairs
    rw [← List.append_nil pairs, heval, hlast.unique hentries]
    exact Eval.new_run _ _
  | failure hpart hrun herror =>
    rcases hpart with ⟨⟨rfl, hfront⟩⟩ | ⟨rfl, hfront, hkey, hhashable⟩
    · obtain ⟨entries, -, heval⟩ := exists_evalPairs hfront
      simp only [heval, evalPairs_cons, hrun, herror, if_true]
    · obtain ⟨entries, -, heval⟩ := exists_evalPairs hfront
      obtain ⟨hashKey, hhash⟩ := Value.hashable_iff.mp hhashable
      simp only [heval, evalPairs_cons, hkey, hhashable.isError, hhash, hrun, herror, Bool.false_eq_true,
        if_false, if_true]
  | unusable hleft hrun herror hkey =>
    obtain ⟨rfl, hfront⟩ := hleft
    obtain ⟨entries, -, heval⟩ := exists_evalPairs hfront
    simp only [heval, evalPairs_cons, hrun, herror, Value.hashKey?_eq_none hkey, Bool.false_eq_true, if_false]
  | halt hpart hrun =>
    rcases hpart with ⟨⟨rfl, hfront⟩⟩ | ⟨rfl, hfront, hkey, hhashable⟩
    · obtain ⟨entries, -, heval⟩ := exists_evalPairs hfront
      simp only [heval, evalPairs_cons, hrun]
    · obtain ⟨entries, -, heval⟩ := exists_evalPairs hfront
      obtain ⟨hashKey, hhash⟩ := Value.hashable_iff.mp hhashable
      simp only [heval, evalPairs_cons, hkey, hhashable.isError, hhash, hrun, Bool.false_eq_true, if_false]

end

/-- A hash literal ends in the way that the values of its parts say, and in no other: with the hash that its
    pairs make, or with what goes wrong first. Indexing such a hash with anything that can be a key gives the
    value of the last pair with this key, or null. -/
theorem evalWithin_hash (depth : Nat) (token : Token) (pairs : List (Node × Node)) (env : Env) (m : Machine) :
    (∀ result, (Node.hash token pairs).evalWithin (depth + 1) env m = result ↔
      Ends (fun part => part.evalWithin (depth + 1) env) pairs m result) ∧
    ∀ gathered entries, LastWins gathered entries → ∀ id subscript m', subscript.Hashable →
      applyIndex (.hash id entries) subscript m' =
        .ok (((lastWith gathered subscript).map Prod.snd).getD .null) m' := by
  constructor
  · intro result
    constructor
    · rintro rfl
      have hnil : Gathers (Node.evalWith (Node.evalWithin depth) env) [] m [] m := .nil
      obtain ⟨result, hresult⟩ := exists_ends hnil pairs
      rw [List.nil_append] at hresult
      have heval := evalPairs_of_ends hresult
      rwa [← heval] at hresult
    · exact evalPairs_of_ends
  · intro gathered entries hentries id subscript m' hsubscript
    obtain ⟨hashKey, hhash⟩ := Value.hashable_iff.mp hsubscript
    simp only [applyIndex, hhash, hentries.valueAt hhash]
    rfl

/-- The key `1` comes first and last, `true` and `"1"` are other keys. -/
theorem evalWithin_hash_overwritten :
    let token : Token := ⟨.ident, "", 0, 0⟩
    let one : Node := .integer token 1
    let pairs : List (Node × Node) := [(one, .string token "a"), (.boolean token true, .string token "b"),
      (.string token "1", .string token "c"), (one, .string token "d")]
    let gathered : List (Value × Value) := [(.integer 0 1, .string 1 "a"), (.boolean true, .string 2 "b"),
      (.string 3 "1", .string 4 "c"), (.integer 5 1, .string 6 "d")]
    let entries : List (HashKey × Value × Value) := [(.integer 1, .integer 5 1, .string 6 "d"),
      (.boolean true, .boolean true, .string 2 "b"), (.string "1", .string 3 "1", .string 4 "c")]
    let env : Env := ⟨0, []⟩
    let m : Machine := { objects := 8 }
    LastWins gathered entries ∧ (Value.integer 8 1).Hashable ∧
      Ends (fun part => part.evalWithin 1 env) pairs {} (.ok (.hash 7 entries) m) ∧
      applyIndex (.hash 7 entries) (.integer 8 1) m = .ok (.string 6 "d") m := by
  intro token one pairs gathered entries env m
  have hkeyed : ∀ pair ∈ [(HashKey.integer 1, (Value.integer 0 1, Value.string 1 "a")),
      (.boolean true, (.boolean true, .string 2 "b")), (.string "1", (.string 3 "1", .string 4 "c")),
      (.integer 1, (.integer 5 1, .string 6 "d"))], pair.2.1.hashKey? = some pair.1 := by decide
  have hentries : LastWins gathered entries := lastWins_insertAll hkeyed
  have hsubscript : (Value.integer 8 1).Hashable := by decide
  obtain ⟨hends, hindex⟩ := evalWithin_hash 0 token pairs env {}
  exact ⟨hentries, hsubscript, (hends _).mp rfl, hindex gathered entries hentries 7 _ m hsubscript⟩

end Monkey
