import Multistage.Text.Decimal

/-!
# Numbers as they are spelled

A `Numeral` is a decimal number on paper: sign, digits before and after the point, exponent. Doubles
are written as numerals by a `Layout`, which fixes where scientific notation starts and which small
marks are kept, and numerals are read as doubles by `Numeral.toFloat?`.

Reading rounds twice: the leading digits that fit 64 bits become the nearest double, and that double is
then multiplied or divided by a power of ten.
-/

namespace Multistage

/-- A spelled number. Without a point `fraction` is empty. -/
structure Numeral where
  negative : Bool := false
  whole : List Char
  fraction : List Char := []
  exponent : Option Int := none
  deriving DecidableEq, Inhabited, Repr

namespace Numeral

/-- The digits of a natural number. -/
def digitsOf (n : Nat) : List Char := Nat.toDigits 10 n

/-- The number that a run of digits stands for. -/
def valueOf (digits : List Char) : Nat :=
  digits.foldl (fun n c => 10 * n + (c.toNat - '0'.toNat)) 0

/-- A whole number, without point and exponent. -/
def ofInt (n : Int) : Numeral := { negative := n < 0, whole := digitsOf n.natAbs }

/-- The exponent part; `plus` says whether a sign is written before a positive exponent. -/
def exponentChars (plus : Bool) (e : Int) : List Char :=
  'e' :: (if e < 0 then ['-'] else if plus then ['+'] else []) ++ digitsOf e.natAbs

/-- The characters of a numeral. -/
def chars (plus : Bool) (n : Numeral) : List Char :=
  (if n.negative then ['-'] else []) ++ n.whole ++
    (if n.fraction.isEmpty then [] else '.' :: n.fraction) ++
    (n.exponent.map (exponentChars plus)).getD []

/-- Whether the numeral has neither point nor exponent. -/
def isWhole (n : Numeral) : Bool := n.fraction.isEmpty && n.exponent.isNone

/-- The integer that a numeral without point and exponent spells. A zero with a sign is no integer. -/
def toInt? (n : Numeral) : Option Int :=
  let value := valueOf n.whole
  if !n.isWhole || (n.negative && value = 0) then none
  else some (if n.negative then -value else value)

/-! ## Writing doubles -/

/-- How doubles are laid out. -/
structure Layout where
  /-- the exponents of the leading digit for which the number is written without an exponent -/
  positional : Int → Bool
  /-- whether a whole number keeps a fraction of zero -/
  pointZero : Bool
  /-- which of two equally near decimals is written -/
  tie : Tie

/-- Lay out `digits * 10 ^ exponent` with the given sign. -/
def ofDecimal (layout : Layout) (negative : Bool) (d : Decimal) : Numeral :=
  let digits := digitsOf d.digits
  let leading := d.exponent + digits.length - 1
  let zero := if layout.pointZero then ['0'] else []
  if layout.positional leading then
    if leading < 0 then
      ⟨negative, ['0'], List.replicate (-leading - 1).toNat '0' ++ digits, none⟩
    else
      let point := leading.toNat + 1
      let fraction := digits.drop point
      ⟨negative, digits.take point ++ List.replicate (point - digits.length) '0',
        if fraction.isEmpty then zero else fraction, none⟩
  else ⟨negative, digits.take 1, digits.drop 1, some leading⟩

/-- The numeral of a finite double. -/
def ofFloat (layout : Layout) (x : Float) : Numeral :=
  -- the sign bit, so that minus zero keeps its sign
  let negative := x.toBits >>> 63 = 1
  let size := Magnitude.ofFloat x
  if size.mantissa = 0 then ⟨negative, ['0'], if layout.pointZero then ['0'] else [], none⟩
  else ofDecimal layout negative (Decimal.shortest size layout.tie)

/-! ## Reading doubles -/

/-- The leading digits of a numeral, as far as they fit 64 bits. -/
structure Significand where
  value : Nat := 0
  /-- the power of ten that `value` is short of -/
  exponent : Int := 0
  /-- whether digits have been left out since the last part began -/
  full : Bool := false
  deriving DecidableEq, Inhabited, Repr

namespace Significand

/-- Append a digit; once one does not fit, the rest of its part is left out. -/
def push (s : Significand) (c : Char) (ifKept ifDropped : Int) : Significand :=
  let value := 10 * s.value + (c.toNat - '0'.toNat)
  if s.full || value ≥ UInt64.size then { s with exponent := s.exponent + ifDropped, full := true }
  else { s with value := value, exponent := s.exponent + ifKept }

/-- The leading digits of the whole part and then of the fraction. -/
def ofParts (whole fraction : List Char) : Significand :=
  let s : Significand := whole.foldl (fun s c => push s c 0 1) {}
  fraction.foldl (fun s c => push s c (-1) 0) { s with full := false }

end Significand

/-- Ten to the power `n`, as the nearest double. -/
def powerOfTen (n : Nat) : Float := Float.ofScientific 1 false n

/-- Scale a double by a power of ten in steps that are themselves doubles. Nothing that fits 64 bits
survives a division by more than two such steps. -/
def scale? (x : Float) (exponent : Int) : Option Float :=
  if x == 0 then some x
  else if exponent > 308 then none
  else if exponent ≥ 0 then
    let y := x * powerOfTen exponent.toNat
    if y.isInf then none else some y
  else if exponent ≥ -308 then some (x / powerOfTen (-exponent).toNat)
  else if exponent ≥ -616 then some (x / powerOfTen 308 / powerOfTen (-exponent - 308).toNat)
  else some 0

/-- Read a numeral as a double; a number out of range is refused. -/
def toFloat? (n : Numeral) : Option Float :=
  let s := Significand.ofParts n.whole n.fraction
  (scale? (Float.ofNat s.value) (s.exponent + n.exponent.getD 0)).map fun x =>
    if n.negative then -x else x

end Numeral

end Multistage
