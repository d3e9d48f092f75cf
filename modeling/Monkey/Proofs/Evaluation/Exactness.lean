import Mathlib.Data.Int.ModEq
import Mathlib.Data.Rat.Floor
import Monkey.Proofs.Evaluation.WellFormed

/-!
# Exact arithmetic

Every operation of a program on integers wraps its result, so the value of an expression is put together from
wrapped values of its parts. That makes no difference: congruence modulo 2^64 is kept by sums, differences,
products and negations, and among the congruent integers only one fits into 64 bits. So the value is the exact
value of the expression, an integer without any bound, wrapped once (`Exact.evalWith`).

Quotients are not kept by congruence. They fit all but one, so only that one is changed by wrapping
(`fits_quotient`).
-/

namespace Monkey

/-! ### Congruent integers -/

namespace Arithmetic

variable {a b n : Int}

theorem wrap_modEq (n : Int) : wrap n ≡ n [ZMOD 2 ^ 64] :=
  Int.bmod_emod

/-- Congruent integers wrap to the same one. -/
theorem wrap_congr (h : a ≡ b [ZMOD 2 ^ 64]) : wrap a = wrap b := by
  have hmod : a % (span : Int) = b % (span : Int) := h
  rw [wrap, wrap, ← Int.emod_bmod a, hmod, Int.emod_bmod]

theorem wrap_of_fits (h : Fits n) : wrap n = n := by
  obtain ⟨hle, hge⟩ := h
  rw [wrap, span, Int.bmod_eq_of_le] <;> omega

/-- Of the integers that are congruent to a given one, only one fits. -/
theorem fits_and_modEq_iff {value : Int} : Fits value ∧ value ≡ n [ZMOD 2 ^ 64] ↔ value = wrap n := by
  constructor
  · rintro ⟨hfits, hmod⟩
    rw [← wrap_congr hmod, wrap_of_fits hfits]
  · rintro rfl
    exact ⟨fits_wrap n, wrap_modEq n⟩

end Arithmetic

open Arithmetic

/-! ### Exact values of expressions -/

/-- The exact value of an expression made of integer literals, names that integers are bound to, `-`, `+` and
    `*`, whatever its size. -/
inductive Exact (m : Machine) (env : Env) : Node → Int → Prop where
  | literal {token n} (h : Fits n) : Exact m env (.integer token n) n
  | name {name id n} (hbound : m.lookup env name.name = some (.integer id n)) (h : Fits n) :
      Exact m env (.identifier name) n
  | negation {token right n} (h : Exact m env right n) : Exact m env (.prefixed token "-" right) (-n)
  | sum {token left right a b} (hleft : Exact m env left a) (hright : Exact m env right b) :
      Exact m env (.binary token left "+" right) (a + b)
  | difference {token left right a b} (hleft : Exact m env left a) (hright : Exact m env right b) :
      Exact m env (.binary token left "-" right) (a - b)
  | product {token left right a b} (hleft : Exact m env left a) (hright : Exact m env right b) :
      Exact m env (.binary token left "*" right) (a * b)

/-- An evaluation that gives an integer wherever these scopes are open, and that only makes objects. -/
def Computes (scopes : Array Bindings) (x : Eval Value) (n : Int) : Prop :=
  ∀ m : Machine, m.scopes = scopes → ∃ id count, x m = .ok (.integer id n) (m.grown [] count)

variable {evalBody : Node → Env → Eval Value} {env : Env} {m : Machine} {scopes : Array Bindings}

theorem computes_integer (n : Int) : Computes scopes (Eval.integer n) n :=
  fun m _ => ⟨m.objects, 1, Eval.new_run _ m⟩

theorem Computes.proceed {x : Eval Value} {next : Value → Eval Value} {a n : Int} (hx : Computes scopes x a)
    (hnext : ∀ id, Computes scopes (next (.integer id a)) n) :
    Computes scopes (x >>= fun value => value.proceed (next value)) n := by
  intro m hm
  obtain ⟨id, count, hrun⟩ := hx m hm
  obtain ⟨id', count', hrun'⟩ := hnext id (m.grown [] count) hm
  refine ⟨id', count + count', ?_⟩
  rw [Eval.bind_run, hrun]
  show next (.integer id a) (m.grown [] count) = _
  rw [hrun', Machine.grown_append, List.nil_append]

theorem computes_binary {token : Token} {left right : Node} {operator : String} {a b n : Int}
    (hleft : Computes scopes (left.evalWith evalBody env) a)
    (hright : Computes scopes (right.evalWith evalBody env) b)
    (hoperator : applyIntegers operator a b = Eval.integer n) :
    Computes scopes ((Node.binary token left operator right).evalWith evalBody env) n := by
  apply hleft.proceed
  intro id
  refine hright.proceed fun id' => ?_
  rw [applyBinary, hoperator]
  exact computes_integer n

/-- The value of an expression is its exact value, wrapped once. -/
theorem Exact.evalWith {node : Node} {n : Int} (h : Exact m env node n) :
    Computes m.scopes (node.evalWith evalBody env) (wrap n) := by
  induction h with
  | literal h =>
    rw [wrap_of_fits h]
    exact computes_integer _
  | @name name id n hbound h =>
    intro m' hm'
    have hlookup : Eval.lookup env name.name m' = .ok (some (.integer id n)) m' := by
      rw [← hbound]
      simp only [Machine.lookup, Machine.bindings, ← hm']
      rfl
    refine ⟨id, 0, ?_⟩
    rw [wrap_of_fits h, Machine.grown_zero, Node.evalWith, evalName, Eval.bind_run, hlookup]
    rfl
  | @negation token right n _ ih =>
    apply ih.proceed
    intro id
    have hwrap : wrap (-wrap n) = wrap (-n) := wrap_congr (wrap_modEq n).neg
    rw [applyPrefix, hwrap]
    exact computes_integer _
  | @sum token left right a b _ _ ihleft ihright =>
    have hwrap : wrap (wrap a + wrap b) = wrap (a + b) := wrap_congr ((wrap_modEq a).add (wrap_modEq b))
    apply computes_binary ihleft ihright
    rw [applyIntegers, hwrap]
  | @difference token left right a b _ _ ihleft ihright =>
    have hwrap : wrap (wrap a - wrap b) = wrap (a - b) := wrap_congr ((wrap_modEq a).sub (wrap_modEq b))
    apply computes_binary ihleft ihright
    rw [applyIntegers, hwrap]
  | @product token left right a b _ _ ihleft ihright =>
    have hwrap : wrap (wrap a * wrap b) = wrap (a * b) := wrap_congr ((wrap_modEq a).mul (wrap_modEq b))
    apply computes_binary ihleft ihright
    rw [applyIntegers, hwrap]

/-! ### Quotients -/

namespace Arithmetic

/-- The quotient of two integers of 64 bits: the exact quotient, rounded toward zero, and what is left over is
    less than the divisor and has the sign of the dividend. One quotient does not fit, and stays negative. -/
def Divides (a b q : Int) : Prop :=
  if a = -9223372036854775808 ∧ b = -1 then q = -9223372036854775808
  else q = (if 0 ≤ (a / b : ℚ) then ⌊(a / b : ℚ)⌋ else ⌈(a / b : ℚ)⌉) ∧
    ∃ r, a = b * q + r ∧ |r| < |b| ∧ (r = 0 ∨ r.sign = a.sign)

variable {a b : Int}

theorem quotient_neg_neg (a b : Int) : quotient (-a) (-b) = quotient a b := by
  rw [quotient, Int.tdiv_neg, Int.neg_tdiv, Int.neg_neg]
  rfl

/-- The quotient is the exact one, rounded toward zero. -/
theorem quotient_eq_round (a : Int) (hb : b ≠ 0) :
    quotient a b = if 0 ≤ (a / b : ℚ) then ⌊(a / b : ℚ)⌋ else ⌈(a / b : ℚ)⌉ := by
  -- both sides stay as they are if the signs of dividend and divisor are changed
  wlog hpos : 0 < b generalizing a b
  · have h := this (-a) (b := -b) (by omega) (by omega)
    rwa [quotient_neg_neg, Int.cast_neg, Int.cast_neg, neg_div_neg_eq] at h
  have hfloor (n : Int) : ⌊(n / b : ℚ)⌋ = n / b := by
    lift b to Nat using hpos.le
    rw [Int.cast_natCast]
    exact Rat.floor_intCast_div_natCast n b
  have hpos' : (0 : ℚ) < b := Int.cast_pos.mpr hpos
  rcases le_or_gt 0 a with ha | ha
  · have hnonneg : 0 ≤ (a / b : ℚ) := div_nonneg (by exact_mod_cast ha) hpos'.le
    rw [if_pos hnonneg, hfloor, quotient, Int.tdiv_eq_ediv_of_nonneg ha]
  · have hneg : ¬ 0 ≤ (a / b : ℚ) := not_le.mpr (div_neg_of_neg_of_pos (Int.cast_lt_zero.mpr ha) hpos')
    have hceil : ⌈(a / b : ℚ)⌉ = -⌊((-a : Int) / b : ℚ)⌋ := by
      rw [← Int.ceil_neg, Int.cast_neg, neg_div, neg_neg]
    have hquotient : quotient a b = -((-a) / b) := by
      rw [quotient, ← Int.tdiv_eq_ediv_of_nonneg (by omega), Int.neg_tdiv, neg_neg]
    rw [if_neg hneg, hceil, hfloor, hquotient]

theorem quotient_remainder (a : Int) (hb : b ≠ 0) :
    ∃ r, a = b * quotient a b + r ∧ |r| < |b| ∧ (r = 0 ∨ r.sign = a.sign) := by
  refine ⟨a.tmod b, (Int.mul_tdiv_add_tmod a b).symm, ?_, ?_⟩
  · rw [Int.abs_eq_natAbs, Int.abs_eq_natAbs, Int.natAbs_tmod]
    exact Int.ofNat_lt.mpr (Nat.mod_lt _ (Int.natAbs_pos.mpr hb))
  · rw [Int.sign_tmod]
    by_cases hdvd : b ∣ a
    · exact .inl (Int.tmod_eq_zero_of_dvd hdvd)
    · exact .inr (if_neg hdvd)

theorem fits_quotient (ha : Fits a) (h : ¬ (a = -9223372036854775808 ∧ b = -1)) : Fits (quotient a b) := by
  obtain ⟨hlow, hhigh⟩ := ha
  have habs : (quotient a b).natAbs = a.natAbs / b.natAbs := Int.natAbs_tdiv a b
  by_cases hb : 2 ≤ b.natAbs
  · -- a divisor that is not 0, 1 or -1 halves the dividend at least
    have hhalf : a.natAbs / b.natAbs ≤ a.natAbs / 2 := Nat.div_le_div_left hb (by decide)
    unfold Fits
    omega
  · obtain rfl | rfl | rfl : b = 0 ∨ b = 1 ∨ b = -1 := by omega
    · rw [quotient, Int.tdiv_zero]
      exact ⟨by decide, by decide⟩
    · rw [quotient, Int.tdiv_one]
      exact ⟨hlow, hhigh⟩
    · rw [quotient, Int.tdiv_neg, Int.tdiv_one]
      unfold Fits
      omega

theorem divides_quotient (ha : Fits a) (hb : b ≠ 0) : Divides a b (wrap (quotient a b)) := by
  rw [Divides]
  split
  · next h =>
    obtain ⟨rfl, rfl⟩ := h
    decide
  · next h =>
    rw [wrap_of_fits (fits_quotient ha h)]
    exact ⟨quotient_eq_round a hb, quotient_remainder a hb⟩

end Arithmetic

/-- Integer arithmetic is exact arithmetic modulo 2^64: the value of an expression is the one integer that fits
    and is congruent to its exact value. Of two integers, the quotient is an error exactly if the divisor is
    zero, and otherwise the exact one, rounded toward zero. -/
theorem arithmetic_exact :
    (∀ depth (env : Env) (m : Machine) (node : Node) (n : Int), Exact m env node n →
      ∃ id value count, node.evalWithin (depth + 1) env m = .ok (.integer id value) (m.grown [] count) ∧
        value = wrap n ∧ ∀ other, Fits other ∧ other ≡ n [ZMOD 2 ^ 64] ↔ other = value) ∧
    ∀ depth (env : Env) (m m₁ m₂ : Machine) (token : Token) (left right : Node) (i j : Nat) (a b : Int),
      left.evalWithin depth env m = .ok (.integer i a) m₁ →
      right.evalWithin depth env m₁ = .ok (.integer j b) m₂ → Fits a → Fits b →
      ∃ result, (Node.binary token left "/" right).evalWithin depth env m = .ok result (m₂.grown [] 1) ∧
        (result.isError = true ↔ b = 0) ∧ (b ≠ 0 → ∃ id q, result = .integer id q ∧ Divides a b q) := by
  constructor
  · intro depth env m node n h
    obtain ⟨id, count, hrun⟩ : ∃ id count, node.evalWith (Node.evalWithin depth) env m =
        .ok (.integer id (wrap n)) (m.grown [] count) := h.evalWith m rfl
    exact ⟨id, wrap n, count, hrun, rfl, fun _ => fits_and_modEq_iff⟩
  · intro depth env m m₁ m₂ token left right i j a b hleft hright ha hb
    cases depth with
    | zero => cases hleft
    | succ depth =>
      have hrun : (Node.binary token left "/" right).evalWithin (depth + 1) env m = applyIntegers "/" a b m₂ := by
        simp only [Node.evalWithin] at hleft hright ⊢
        rw [Node.evalWith, Eval.bind_run, hleft]
        show (right.evalWith _ env >>= fun second => second.proceed _) m₁ = _
        rw [Eval.bind_run, hright]
        rfl
      rw [hrun, applyIntegers]
      by_cases hzero : b = 0
      · rw [if_pos hzero]
        exact ⟨_, Eval.error_run _ m₂, iff_of_true rfl hzero, fun hb => absurd hzero hb⟩
      · rw [if_neg hzero]
        refine ⟨_, Eval.new_run _ m₂, iff_of_false Bool.false_ne_true hzero, fun hb => ⟨_, _, rfl, ?_⟩⟩
        exact divides_quotient ha hb

/-- The lowest integer, negated, taken three times and divided by -1. -/
theorem arithmetic_exact_lowest :
    let m : Machine := { scopes := #[[("x", .integer 0 (-9223372036854775808))]], objects := 1 }
    let x := Node.identifier ⟨default, "x"⟩
    let product := Node.binary default (.prefixed default "-" x) "*" (.integer default 3)
    let minusOne := Node.prefixed default "-" (.integer default 1)
    (Exact m ⟨0, []⟩ product (- -9223372036854775808 * 3) ∧
      ∃ id count, product.evalWithin 1 ⟨0, []⟩ m =
        .ok (.integer id (wrap (- -9223372036854775808 * 3))) (m.grown [] count)) ∧
    ∃ id q count, (Node.binary default x "/" minusOne).evalWithin 1 ⟨0, []⟩ m =
      .ok (.integer id q) (m.grown [] count) ∧ Divides (-9223372036854775808) (-1) q := by
  intro m x product minusOne
  have hx : Exact m ⟨0, []⟩ x (-9223372036854775808) := .name rfl ⟨by decide, by decide⟩
  have hproduct : Exact m ⟨0, []⟩ product (- -9223372036854775808 * 3) :=
    .product hx.negation (.literal ⟨by decide, by decide⟩)
  obtain ⟨id, _, count, hrun, rfl, -⟩ := arithmetic_exact.1 0 ⟨0, []⟩ m product _ hproduct
  obtain ⟨_, hquotient, -, hdivides⟩ := arithmetic_exact.2 1 ⟨0, []⟩ m m (m.grown [] 2) default x minusOne 0 2
    (-9223372036854775808) (-1) rfl rfl ⟨by decide, by decide⟩ ⟨by decide, by decide⟩
  obtain ⟨id', q, rfl, hq⟩ := hdivides (by decide)
  exact ⟨⟨hproduct, id, count, hrun⟩, id', q, 3, hquotient, hq⟩

end Monkey
