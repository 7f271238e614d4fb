import Multistage.Text.Numeral

/-!
# JSON values

A JSON value keeps what its text says: numbers as they are spelled, and object fields in order, also
when a key is repeated.

Main definitions:

* `Json`, with `Json.depth`, the number of nested arrays and objects;
* `Json.required?` and `Json.optional?`, which find a field by its key and refuse a repeated one.
-/

namespace Multistage

/-- A JSON value. -/
inductive Json where
  | null
  | bool (value : Bool)
  | number (value : Numeral)
  | string (value : String)
  | array (items : List Json)
  | object (fields : List (String × Json))
  deriving Inhabited, Repr

namespace Json

/-! ## Nesting -/

mutual
/-- How many arrays and objects are nested in a value. -/
def depth : Json → Nat
  | .array items => depthItems items + 1
  | .object fields => depthFields fields + 1
  | _ => 0

/-- The greatest depth among the items of an array. -/
def depthItems : List Json → Nat
  | [] => 0
  | item :: rest => max (depth item) (depthItems rest)

/-- The greatest depth among the fields of an object. -/
def depthFields : List (String × Json) → Nat
  | [] => 0
  | (_, value) :: rest => max (depth value) (depthFields rest)
end

/-! ## Taking values apart -/

/-- All values stored under a key. -/
def valuesOf (fields : List (String × Json)) (key : String) : List Json :=
  (fields.filter (·.1 = key)).map (·.2)

/-- The value of a key that must occur exactly once. -/
def required? (fields : List (String × Json)) (key : String) : Option Json :=
  match valuesOf fields key with
  | [value] => some value
  | _ => none

/-- The value of a key that may be left out. A repeated key is refused. -/
def optional? (fields : List (String × Json)) (key : String) : Option (Option Json) :=
  match valuesOf fields key with
  | [] => some none
  | [value] => some (some value)
  | _ => none

/-- The fields of an object. -/
def fields? : Json → Option (List (String × Json))
  | .object fields => some fields
  | _ => none

/-- The items of an array. -/
def items? : Json → Option (List Json)
  | .array items => some items
  | _ => none

/-- The text of a string. -/
def string? : Json → Option String
  | .string s => some s
  | _ => none

/-- A truth value. -/
def bool? : Json → Option Bool
  | .bool b => some b
  | _ => none

/-- A number without fraction and exponent. -/
def int? : Json → Option Int
  | .number n => n.toInt?
  | _ => none

/-- A whole number from zero up to, and without, `bound`. -/
def natBelow? (bound : Nat) (j : Json) : Option Nat := do
  let n ← j.int?
  if 0 ≤ n ∧ n < bound then some n.toNat else none

/-- A whole number that fits 64 bits with a sign. -/
def int64? (j : Json) : Option Int64 := do
  let n ← j.int?
  if Int64.minValue.toInt ≤ n ∧ n ≤ Int64.maxValue.toInt then some (Int64.ofInt n) else none

/-- Any number, as a double. -/
def float? : Json → Option Float
  | .number n => n.toFloat?
  | _ => none

/-- The value of a field that is present and not null. -/
def nonNull : Option Json → Option Json
  | some .null => none
  | field => field

end Json

end Multistage
