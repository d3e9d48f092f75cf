import Monkey.Machine

/-!
# Operators

What the operators and the index do with the values of their operands. Two integers are added,
subtracted, multiplied, divided and compared as numbers; two strings are joined by `+` and refused by
every other operator. Any other pair of values has only `==` and `!=`, which ask for identity, so two
arrays of the same content are different.

Integers wrap around: a result that does not fit into 64 bits with a sign is replaced by the one integer
that does and differs from it by a multiple of 2^64. Quotients are rounded toward zero.
-/

namespace Monkey

/-! ### Integers of 64 bits -/

namespace Arithmetic

/-- The number of integers of 64 bits, 2^64. -/
def span : Nat := 18446744073709551616

/-- The integer of 64 bits, signed, that is congruent to `n` modulo 2^64. -/
def wrap (n : Int) : Int :=
  n.bmod span

/-- The quotient of two integers, rounded toward zero and not wrapped. -/
def quotient (a b : Int) : Int :=
  a.tdiv b

end Arithmetic

/-! ### Operators and the index -/

def applyPrefix (operator : String) (right : Value) : Eval Value :=
  match operator, right with
  | "!", _ => return .boolean (!right.isTruthy)
  | "-", .integer _ n => Eval.integer (Arithmetic.wrap (-n))
  | _, _ => Eval.error (.unknownPrefix operator right.kind)

def applyIntegers (operator : String) (a b : Int) : Eval Value :=
  match operator with
  | "+" => Eval.integer (Arithmetic.wrap (a + b))
  | "-" => Eval.integer (Arithmetic.wrap (a - b))
  | "*" => Eval.integer (Arithmetic.wrap (a * b))
  | "/" =>
    if b = 0 then Eval.error (.divisionByZero a)
    else Eval.integer (Arithmetic.wrap (Arithmetic.quotient a b))
  | "<" => return .boolean (a < b)
  | ">" => return .boolean (b < a)
  | "==" => return .boolean (a = b)
  | "!=" => return .boolean (a ≠ b)
  | _ => Eval.error (.unknownBinary .integer operator .integer)

def applyStrings (operator : String) (a b : String) : Eval Value :=
  match operator with
  | "+" => Eval.string (a ++ b)
  | _ => Eval.error (.unknownBinary .string operator .string)

/-- The result of a binary operator on two values that are neither both integers nor both strings. -/
def applyMixed (operator : String) (left right : Value) : Eval Value :=
  match operator with
  | "==" => return .boolean (left.same right)
  | "!=" => return .boolean (!left.same right)
  | _ =>
    if left.kind = right.kind then Eval.error (.unknownBinary left.kind operator right.kind)
    else Eval.error (.kindMismatch left.kind operator right.kind)

def applyBinary (operator : String) (left right : Value) : Eval Value :=
  match left, right with
  | .integer _ a, .integer _ b => applyIntegers operator a b
  | .string _ a, .string _ b => applyStrings operator a b
  | _, _ => applyMixed operator left right

/-- The element of an array at an index, which counts from zero; null outside the array. -/
def elementAt (elements : List Value) (i : Int) : Value :=
  if i < 0 then .null else elements.getD i.toNat .null

/-- The value of a hash under a key; null if the key has no entry. -/
def valueAt (entries : List (HashKey × Value × Value)) (key : HashKey) : Value :=
  match entries.lookup key with
  | some (_, value) => value
  | none => .null

/-- The result of indexing a value. What is neither an array nor a hash has nothing at any index. -/
def applyIndex (left subscript : Value) : Eval Value :=
  match left, subscript with
  | .array _ elements, .integer _ i => return elementAt elements i
  | .hash _ entries, _ =>
    match subscript.hashKey? with
    | some key => return valueAt entries key
    | none => Eval.error (.unusableKey subscript.kind)
  | _, _ => return .null

end Monkey
