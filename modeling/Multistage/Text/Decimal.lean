/-!
# Shortest decimals of doubles

A double stands for all reals that round to it. `shortest` picks, among the decimals in that interval,
one with the fewest digits, and of those the one nearest to the double.

Main definitions:

* `Magnitude`: a positive double as `mantissa * 2 ^ exponent`, with `Magnitude.ofFloat`;
* `Decimal`: `digits * 10 ^ exponent`, and `Magnitude.admits`, the test that a decimal reads back;
* `shortest`: the search over ever finer grids of decimals.

All comparisons are exact, between natural numbers.
-/

namespace Multistage

/-- Which of two equally near decimals is taken. -/
inductive Tie where
  | up
  | even
  deriving DecidableEq, Repr

/-- The number `digits * 10 ^ exponent`. -/
structure Decimal where
  digits : Nat
  exponent : Int
  deriving DecidableEq, Inhabited, Repr

/-- The number `mantissa * 2 ^ exponent`. Below a power of two doubles lie half as far apart as above
it, which `narrow` records. -/
structure Magnitude where
  mantissa : Nat
  exponent : Int
  narrow : Bool
  deriving DecidableEq, Repr

namespace Magnitude

/-- The absolute value of a finite double. -/
def ofFloat (x : Float) : Magnitude :=
  let biased := (x.toBits >>> 52 &&& 0x7FF).toNat
  let fraction := (x.toBits &&& 0xFFFFFFFFFFFFF).toNat
  if biased = 0 then ⟨fraction, -1074, false⟩
  else ⟨1 <<< 52 + fraction, biased - 1075, fraction == 0 && biased > 1⟩

/-- How `d` compares with `quarters / 4` units of the last binary place. -/
def compareQuarters (x : Magnitude) (d : Decimal) (quarters : Nat) : Ordering :=
  let e := x.exponent - 2
  compare ((d.digits * Nat.pow 10 d.exponent.toNat) <<< (-e).toNat)
    ((quarters * Nat.pow 10 (-d.exponent).toNat) <<< e.toNat)

/-- Whether `d` rounds to `x`: it lies within half a place on either side, where the ends belong to
`x` if its mantissa is even. -/
def admits (x : Magnitude) (d : Decimal) : Bool :=
  let below := x.compareQuarters d (4 * x.mantissa - if x.narrow then 1 else 2)
  let above := x.compareQuarters d (4 * x.mantissa + 2)
  if x.mantissa % 2 = 0 then below.isGE && above.isLE else below.isGT && above.isLT

/-- The decimal exponent of the leading digit. -/
def leading (x : Magnitude) : Int :=
  -- No double is below `10 ^ -324`, so 400 more places leave a whole number with that digit in front.
  let scaled := (x.mantissa * Nat.pow 10 400) <<< x.exponent.toNat >>> (-x.exponent).toNat
  ((Nat.toDigits 10 scaled).length : Int) - 401

/-- `x / 10 ^ place`, rounded down. -/
def floorAt (x : Magnitude) (place : Int) : Nat :=
  (x.mantissa * Nat.pow 10 (-place).toNat) <<< x.exponent.toNat /
    Nat.pow 10 place.toNat <<< (-x.exponent).toNat

/-- Of the two multiples of `10 ^ place` around `x`, the nearest one that reads back. -/
def nearestAt? (x : Magnitude) (tie : Tie) (place : Int) : Option Decimal :=
  let low : Decimal := ⟨x.floorAt place, place⟩
  let high : Decimal := ⟨low.digits + 1, place⟩
  match x.admits low, x.admits high with
  | false, false => none
  | true, false => some low
  | false, true => some high
  | true, true =>
    -- the midpoint of the two, in tenths, against the value
    match x.compareQuarters ⟨10 * low.digits + 5, place - 1⟩ (4 * x.mantissa) with
    | .gt => some low
    | .lt => some high
    | .eq =>
      match tie with
      | .up => some high
      | .even => if low.digits % 2 = 0 then some low else some high

/-- The value itself as a decimal. -/
def exact (x : Magnitude) : Decimal :=
  ⟨(x.mantissa * Nat.pow 5 (-x.exponent).toNat) <<< x.exponent.toNat, min x.exponent 0⟩

end Magnitude

namespace Decimal

/-- Move trailing zeros into the exponent; `fuel` bounds their number. -/
def strip (d : Decimal) : Nat → Decimal
  | 0 => d
  | fuel + 1 =>
    if d.digits % 10 = 0 ∧ d.digits ≠ 0 then strip ⟨d.digits / 10, d.exponent + 1⟩ fuel else d

/-- The fewest digits that read back as `x`, which is not zero; seventeen digits are always enough. -/
def shortest (x : Magnitude) (tie : Tie) : Decimal :=
  let places := (List.range 17).map fun (i : Nat) => x.leading - i
  ((places.findSome? (x.nearestAt? tie)).getD x.exact).strip 20

end Decimal

end Multistage
