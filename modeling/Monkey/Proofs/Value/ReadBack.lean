import Monkey.Proofs.Grammar.Rendering
import Monkey.Proofs.Session
import Monkey.Proofs.Value.Content

/-!
# The text of data is read back

Integers, booleans, and arrays and hashes of such values are shown as they are written in a program: their
text is one expression (`Value.literal`), and the program that consists of it has a value of the same content
(`run_inspect`). Only negative integers are not read as literals. They are read as a minus sign in front of a
literal, which is why the least integer of 64 bits is left out: its absolute value is no literal.
-/

namespace Monkey

open Grammar Lexical

/-! ### Data -/

/-- Integers, except for the least one, booleans, and arrays and hashes of such values. A hash holds each
    entry under the hash key of the entry's key, and has no two entries under the same one. -/
inductive Value.IsData : Value → Prop where
  | integer {id value} (hvalue : value.natAbs ≤ valueLimit) : IsData (.integer id value)
  | boolean (value : Bool) : IsData (.boolean value)
  | array {id elements} (helements : ∀ element ∈ elements, IsData element) : IsData (.array id elements)
  | hash {id entries} (hkeys : ∀ entry ∈ entries, IsData entry.2.1)
      (hvalues : ∀ entry ∈ entries, IsData entry.2.2)
      (hashed : ∀ entry ∈ entries, entry.2.1.hashKey? = some entry.1)
      (hdistinct : (Assoc.keys entries).Nodup) : IsData (.hash id entries)

namespace Value

theorem IsData.isError {value : Value} (h : value.IsData) : value.isError = false := by
  cases h <;> rfl

/-- The literal for a number that is not negative. -/
def numeral (n : Nat) : Node :=
  .integer ⟨.int, toString n, 0, 0⟩ n

mutual

/-- The expression that the text of a value is read as, for data. -/
def literal : Value → Node
  | .integer _ value =>
    if value < 0 then .prefixed (sign .minus) "-" (numeral value.natAbs) else numeral value.natAbs
  | .boolean value => .boolean (truth value) value
  | .array _ elements => .array (sign .lbracket) (literals elements)
  | .hash _ entries => .hash (sign .lbrace) (literalPairs entries)
  | _ => .missing

def literals : List Value → List Node
  | [] => []
  | value :: rest => value.literal :: literals rest

def literalPairs : List (HashKey × Value × Value) → List (Node × Node)
  | [] => []
  | (_, key, value) :: rest => (key.literal, value.literal) :: literalPairs rest

end

/-! ### Decimal digits -/

theorem isNumeral_toString (n : Nat) : IsNumeral (toString n) := by
  rw [Nat.toString_eq_repr]
  refine ⟨by simp, fun c hc => ?_⟩
  rw [Nat.toList_repr] at hc
  have hdigit := Nat.isDigit_of_mem_toDigits (by decide) (by decide) hc
  rw [Char.isDigit, Bool.and_eq_true] at hdigit
  exact ⟨of_decide_eq_true hdigit.1, of_decide_eq_true hdigit.2⟩

theorem decimalValue_toString (n : Nat) : decimalValue (toString n) = n := by
  rw [Nat.toString_eq_repr, decimalValue, Nat.toList_repr]
  exact Nat.ofDigitChars_ten_toDigits

theorem length_toString_le {n : Nat} (h : n ≤ valueLimit) : (toString n).length ≤ digitLimit := by
  have hdigits : (Nat.toDigits 10 n).length ≤ 19 := by
    rw [Nat.length_toDigits_le_iff (by decide) (by decide)]
    exact Nat.lt_of_le_of_lt h (by decide)
  rw [Nat.toString_eq_repr, ← String.length_toList, Nat.toList_repr]
  exact Nat.le_trans hdigits (by decide)

theorem numeral_renders {n : Nat} (h : n ≤ valueLimit) : (numeral n).Renders := by
  have hrenders := Node.Renders.integer (isNumeral_toString n) (length_toString_le h)
    ((decimalValue_toString n).symm ▸ h)
  rwa [decimalValue_toString] at hrenders

/-! ### The text of data is scanned as the tokens of an expression -/

theorem toString_of_neg {value : Int} (h : value < 0) :
    toString value = "-" ++ toString value.natAbs := by
  obtain ⟨n, rfl⟩ := Int.eq_negSucc_of_lt_zero h
  rfl

theorem toString_of_nonneg {value : Int} (h : 0 ≤ value) : toString value = toString value.natAbs := by
  obtain ⟨n, rfl⟩ := Int.eq_ofNat_of_zero_le h
  rfl

theorem inspectAll_eq_map (values : List Value) : inspectAll values = values.map inspect := by
  induction values with
  | nil => rfl
  | cons value rest ih => rw [inspectAll, ih, List.map_cons]

theorem literals_eq_map (values : List Value) : literals values = values.map literal := by
  induction values with
  | nil => rfl
  | cons value rest ih => rw [literals, ih, List.map_cons]

/-- The text of an entry of a hash. -/
def entryText (entry : HashKey × Value × Value) : String :=
  entry.2.1.inspect ++ ": " ++ entry.2.2.inspect

def entryLiteral (entry : HashKey × Value × Value) : Node × Node :=
  (entry.2.1.literal, entry.2.2.literal)

theorem inspectEntries_eq_map (entries : List (HashKey × Value × Value)) :
    inspectEntries entries = entries.map entryText := by
  induction entries with
  | nil => rfl
  | cons entry rest ih => rw [inspectEntries, ih, List.map_cons]; rfl

theorem literalPairs_eq_map (entries : List (HashKey × Value × Value)) :
    literalPairs entries = entries.map entryLiteral := by
  induction entries with
  | nil => rfl
  | cons entry rest ih => rw [literalPairs, ih, List.map_cons]; rfl

theorem shows_integer {id : Nat} {value : Int} (h : value.natAbs ≤ valueLimit) :
    Shows (inspect (.integer id value)) (literal (.integer id value)) := by
  obtain ⟨tokens, hspells, hderives⟩ := (numeral_renders h).derived
  by_cases hneg : value < 0
  · rw [inspect, literal, if_pos hneg, toString_of_neg hneg]
    refine ⟨sign .minus :: tokens, ?_, fun rest => ?_⟩
    · intro rest hrest
      have hminus : bareTokens ('-' :: ((toString value.natAbs).toList ++ rest)) = _ :=
        bareTokens_mark .minus '-'
      rw [String.toList_append]
      exact hminus.trans (congrArg (sign .minus :: ·) (hspells rest hrest))
    · exact .descend (Nat.zero_le _) (by decide)
        (.prefixed (.inr rfl) (.loosen unaryTier (by decide) (hderives rest)))
  · rw [inspect, literal, if_neg hneg, toString_of_nonneg (Int.not_lt.mp hneg)]
    exact ⟨tokens, hspells, fun rest => .loosen 0 (by decide) (hderives rest)⟩

theorem showsPair_entry {entry : HashKey × Value × Value} (hkey : Shows entry.2.1.inspect entry.2.1.literal)
    (hvalue : Shows entry.2.2.inspect entry.2.2.literal) :
    ShowsPair (entryText entry) (entryLiteral entry) := by
  obtain ⟨tokens, hspells, hderives⟩ := hkey
  obtain ⟨tokens', hspells', hderives'⟩ := hvalue
  refine ⟨tokens, tokens', ?_, hderives, hderives'⟩
  intro rest hrest
  have htext : (entryText entry).toList = entry.2.1.inspect.toList ++ ':' :: ' ' :: entry.2.2.inspect.toList := by
    simp [entryText]
  simp only [htext, List.cons_append, List.append_assoc]
  rw [hspells _ (stops_mark ':'), bareTokens_mark .colon ':', bareTokens_space, hspells' _ hrest]

/-- The text of data is scanned as tokens that an expression is derived from. -/
theorem IsData.shows {value : Value} (h : value.IsData) : Shows value.inspect value.literal := by
  induction h with
  | integer hvalue => exact shows_integer hvalue
  | boolean value =>
    have hshows := (Node.Renders.boolean value).shows
    cases value <;> exact hshows
  | array _ ih =>
    rw [inspect, literal, inspectAll_eq_map, literals_eq_map]
    exact (shows_array inspect literal ih).shows
  | hash _ _ _ _ ihkeys ihvalues =>
    rw [inspect, literal, inspectEntries_eq_map, literalPairs_eq_map]
    exact (shows_hash entryText entryLiteral fun entry hentry =>
      showsPair_entry (ihkeys entry hentry) (ihvalues entry hentry)).shows

end Value

/-! ### The expression has a value of the same content -/

/-- Evaluating a node makes a value of the given content, wherever and on whatever machine it is evaluated. -/
def Node.Makes (node : Node) (content : Content) : Prop :=
  ∀ evalBody env m, ∃ result m', node.evalWith evalBody env m = .ok result m' ∧ result.content = content

namespace Value

theorem makes_numeral (n : Nat) : (numeral n).Makes (.integer n) :=
  fun _ _ _ => ⟨_, _, rfl, rfl⟩

/-- Within 64 bits, the sign of an integer can be changed. -/
theorem wrap_neg {value : Int} (h : value.natAbs ≤ valueLimit) (hneg : value < 0) :
    Arithmetic.wrap (-value.natAbs) = value := by
  have hlimit : value.natAbs ≤ 9223372036854775807 := h
  rw [Arithmetic.wrap, Arithmetic.span, Int.bmod_eq_of_le] <;> omega

theorem makes_integer {value : Int} (h : value.natAbs ≤ valueLimit) (id : Nat) :
    (literal (.integer id value)).Makes (.integer value) := by
  rw [literal]
  split
  next hneg =>
    refine fun _ _ m => ⟨_, _, rfl, ?_⟩
    exact congrArg Content.integer (wrap_neg h hneg)
  next hpos =>
    have habs : (value.natAbs : Int) = value := by omega
    exact habs ▸ makes_numeral value.natAbs

section

variable (evalBody : Node → Env → Eval Value) (env : Env)

/-- The results of expressions, one for each. -/
theorem makes_all {elements : List Value} (hdata : ∀ element ∈ elements, element.isError = false)
    (h : ∀ element ∈ elements, element.literal.Makes element.content) (m : Machine) :
    ∃ results m', evalAll evalBody env (literals elements) m = .ok (.ok results) m' ∧
      contents results = contents elements := by
  induction elements generalizing m with
  | nil => exact ⟨[], m, rfl, rfl⟩
  | cons element rest ih =>
    rw [List.forall_mem_cons] at hdata h
    obtain ⟨result, m', hresult, hcontent⟩ := h.1 evalBody env m
    obtain ⟨results, m'', hresults, hcontents⟩ := ih hdata.2 h.2 m'
    have hvalue : result.isError = false := (isError_of_content hcontent).trans hdata.1
    refine ⟨result :: results, m'', ?_, by rw [contents, contents, hcontent, hcontents]⟩
    simp only [literals, evalAll, Eval.bind_run, hresult, hvalue, Bool.false_eq_true, if_false, hresults]
    rfl

/-- A hash of the entries so far and of the ones that follow, as long as no key comes twice. -/
theorem makes_pairs {done entries : List (HashKey × Value × Value)}
    (hkeys : ∀ entry ∈ entries, entry.2.1.IsData) (hvalues : ∀ entry ∈ entries, entry.2.2.IsData)
    (hashed : ∀ entry ∈ entries, entry.2.1.hashKey? = some entry.1)
    (hkey : ∀ entry ∈ entries, entry.2.1.literal.Makes entry.2.1.content)
    (hvalue : ∀ entry ∈ entries, entry.2.2.literal.Makes entry.2.2.content)
    (hdistinct : (Assoc.keys done ++ Assoc.keys entries).Nodup) (m : Machine) :
    ∃ result last, evalPairs evalBody env done (literalPairs entries) m = .ok result last ∧
      result.content = .hash (entryContents done ++ entryContents entries) := by
  induction entries generalizing done m with
  | nil => exact ⟨_, _, rfl, congrArg Content.hash (List.append_nil _).symm⟩
  | cons entry rest ih =>
    obtain ⟨hashKey, key, value⟩ := entry
    rw [List.forall_mem_cons] at hkeys hvalues hashed hkey hvalue
    obtain ⟨first, m', hfirst, hcontent⟩ := hkey.1 evalBody env m
    obtain ⟨second, m'', hsecond, hcontent'⟩ := hvalue.1 evalBody env m'
    have herror : first.isError = false := (isError_of_content hcontent).trans hkeys.1.isError
    have herror' : second.isError = false := (isError_of_content hcontent').trans hvalues.1.isError
    have hfound : first.hashKey? = some hashKey := (hashKey?_of_content hcontent).trans hashed.1
    -- the key is new, so its entry goes to the end
    have hnew : hashKey ∉ Assoc.keys done := fun hmem =>
      (List.nodup_append.mp hdistinct).2.2 hashKey hmem hashKey List.mem_cons_self rfl
    have hdistinct' : (Assoc.keys (done ++ [(hashKey, first, second)]) ++ Assoc.keys rest).Nodup := by
      simpa [Assoc.keys] using hdistinct
    obtain ⟨result, last, hrest, hresult⟩ :=
      ih hkeys.2 hvalues.2 hashed.2 hkey.2 hvalue.2 hdistinct' m''
    refine ⟨result, last, ?_, ?_⟩
    · simp only [literalPairs, evalPairs, Eval.bind_run, hfirst, Value.proceed, herror, hfound, hsecond,
        herror', Bool.false_eq_true, if_false, Assoc.insert_of_not_mem hnew]
      exact hrest
    · rw [hresult, entryContents_append, List.append_assoc]
      simp only [entryContents, List.cons_append, List.nil_append, hcontent, hcontent']

end

/-- Evaluating the expression that data is shown as makes data of the same content. -/
theorem IsData.makes {value : Value} (h : value.IsData) : value.literal.Makes value.content := by
  induction h with
  | @integer id value hvalue => exact makes_integer hvalue id
  | boolean value => exact fun _ _ m => ⟨_, m, rfl, rfl⟩
  | @array id elements helements ih =>
    intro evalBody env m
    have hdata : ∀ element ∈ elements, element.isError = false := fun element hmem =>
      (helements element hmem).isError
    obtain ⟨results, m', hresults, hcontents⟩ := makes_all evalBody env hdata ih m
    refine ⟨.array m'.objects results, m'.newObject.2, ?_, congrArg Content.array hcontents⟩
    simp only [literal, Node.evalWith, Eval.bind_run, hresults]
    rfl
  | @hash id entries hkeys hvalues hashed hdistinct ihkeys ihvalues =>
    intro evalBody env m
    have hdistinct : (Assoc.keys ([] : List (HashKey × Value × Value)) ++ Assoc.keys entries).Nodup := hdistinct
    exact makes_pairs evalBody env hkeys hvalues hashed ihkeys ihvalues hdistinct m

theorem IsData.unwrapped {value result : Value} (h : value.IsData) (hresult : result.content = value.content) :
    result.unwrapped = result := by
  cases result with
  | returning => cases h <;> cases hresult
  | _ => rfl

/-! ### Reading back -/

/-- The text of data is a program without parse errors. In every environment the program gives data of the
    same content, with the entries of every hash in the same order, and so it is shown alike again. -/
theorem run_inspect {value : Value} (h : value.IsData) (env : Env) (m : Machine) :
    (parse value.inspect).errors = [] ∧ ∃ result program m',
      runText value.inspect env m = .ok (result, program) m' ∧ result.content = value.content ∧
        result.inspect = value.inspect := by
  obtain ⟨first, hprogram⟩ := h.shows.program
  obtain ⟨herrors, hnodes⟩ := (program_bareTokens_iff _ _).mp hprogram
  -- without places, the statements of the text are the one expression
  obtain ⟨result, m', hresult, hcontent⟩ := h.makes (Node.evalWithin (depthLimit - 1)) env m.bare
  have hsequence : evalStatements [.expressionStatement first value.literal] env m.bare = .ok result m' := by
    simp only [evalStatements, evalSequence, Node.evalWith, Eval.bind_run, hresult]
    split <;> rfl
  have hbare := evalStatements_bare (parse value.inspect).statements env m
  rw [hnodes, hsequence] at hbare
  refine ⟨herrors, ?_⟩
  rw [runText_run herrors]
  cases heval : evalStatements (parse value.inspect).statements env m with
  | error reason m'' => rw [heval] at hbare; cases hbare
  | ok result' m'' =>
    rw [heval] at hbare
    cases hbare
    have hcontent' : result'.content = value.content := (content_relabel result').symm.trans hcontent
    refine ⟨result'.unwrapped, _, m'', rfl, ?_⟩
    rw [h.unwrapped hcontent']
    exact ⟨hcontent', inspect_of_content result' value hcontent'⟩

theorem run_inspect_nested :
    let value : Value := .hash 0 [(.integer (-9223372036854775807), .integer 1 (-9223372036854775807),
      .array 2 [.boolean true, .array 3 []]), (.boolean false, .boolean false, .hash 4 [])]
    let env := (Machine.openSession {}).1
    let m := (Machine.openSession {}).2
    value.IsData ∧ (parse value.inspect).errors = [] ∧ ∃ result program m',
      runText value.inspect env m = .ok (result, program) m' ∧ result.content = value.content ∧
        result.inspect = value.inspect := by
  intro value env m
  have hdata : value.IsData := by
    refine .hash ?_ ?_ ?_ (by decide) <;> simp only [List.forall_mem_cons]
    · exact ⟨.integer (by decide), .boolean false, by simp⟩
    · refine ⟨.array ?_, .hash (by simp) (by simp) (by simp) (by decide), by simp⟩
      simp only [List.forall_mem_cons]
      exact ⟨.boolean true, .array (by simp), by simp⟩
    · exact ⟨rfl, rfl, by simp⟩
  exact ⟨hdata, run_inspect hdata env m⟩

end Value

end Monkey
