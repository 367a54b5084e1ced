/-!
The shortest decimal that reads back as a given double.

A double is `units * 2 ^ exponent`. The reals that round to it form an interval; on the grid of
multiples of `10 ^ place` only the two neighbours of the value can lie in it first. The coarsest
grid with a hit has the fewest digits; of two hits the nearer wins, and a tie goes up.
-/
namespace LoxLang.Number

/-- The reals that are read back as one positive double, in units of `2 ^ exponent`. -/
structure Rounding where
  low : Nat
  value : Nat
  high : Nat
  exponent : Int
  closed : Bool

structure Decimal where
  digits : Nat
  place : Int
deriving DecidableEq, Repr

/-- The least number of units of a double that is not subnormal. -/
def leadingBit : Nat := Nat.pow 2 52

def leastExponent : Int := -1074

/-- Quarter units make both ends whole: below a power of two the next double is only half as far. -/
def Rounding.ofDouble (units : Nat) (exponent : Int) : Rounding where
  low := 4 * units - if units = leadingBit ∧ leastExponent < exponent then 1 else 2
  value := 4 * units
  high := 4 * units + 2
  exponent := exponent - 2
  closed := units % 2 = 0

namespace Rounding

def holds (r : Rounding) (factor point : Nat) : Bool :=
  if r.closed then r.low * factor ≤ point && point ≤ r.high * factor
  else r.low * factor < point && point < r.high * factor

/-- The multiple of `10 ^ place` nearest to the value among its two neighbours that read back. -/
def onGrid? (r : Rounding) (place : Int) : Option Nat :=
  let factor := Nat.pow 2 r.exponent.toNat * Nat.pow 10 (-place).toNat
  let cell := Nat.pow 2 (-r.exponent).toNat * Nat.pow 10 place.toNat
  let value := r.value * factor
  let t := value / cell
  match r.holds factor (t * cell), r.holds factor ((t + 1) * cell) with
  | true, true => some (if 2 * (value - t * cell) < cell then t else t + 1)
  | true, false => some t
  | false, true => some (t + 1)
  | false, false => none

/-- A place before the first digit; `0.30103` is a little over `log10 2`. -/
def startPlace (r : Rounding) : Int :=
  (r.exponent + r.value.log2 + 1) * 30103 / 100000 + 1

def firstHit (r : Rounding) : Nat → Int → Decimal
  | 0, place => ⟨r.value, place⟩
  | places + 1, place =>
    match r.onGrid? place with
    | some digits => ⟨digits, place⟩
    | none => r.firstHit places (place - 1)

/- The value itself lies on every grid from its last binary place on. -/
def shortest (r : Rounding) : Decimal :=
  r.firstHit ((r.startPlace - min r.exponent 0).toNat + 1) r.startPlace

end Rounding
end LoxLang.Number
