/-
  The shortest decimal of a finite double: the fewest digits that read back to
  the same double, and of those the decimal nearest to its value.

  A finite double `m · 2 ^ q` is the nearest double of every real strictly
  between the midpoints to its two neighbours (ends included iff `m` is even).
  For one, two, … seventeen digits `shortest` tests the two points of that
  decimal grid next to the value, in exact natural arithmetic.
-/
import QueryShapes.Number.Double

namespace QueryShapes

/-- The decimal `coefficient · 10 ^ exponent`. -/
structure Decimal where
  coefficient : Nat
  exponent : Int
deriving DecidableEq, Repr, Inhabited

/-- Which of two equally near shortest decimals is taken. -/
inductive Tie where
  /-- The one with an even last digit. -/
  | toEven
  /-- The larger one. -/
  | up
deriving DecidableEq, Repr

namespace Decimal

/-- Moves trailing zeros of the coefficient into the exponent. -/
def normalizeWith : Nat → Decimal → Decimal
  | 0, d => d
  | fuel + 1, d =>
    if d.coefficient ≠ 0 ∧ d.coefficient % 10 = 0 then
      normalizeWith fuel ⟨d.coefficient / 10, d.exponent + 1⟩
    else d

/-- The same decimal without trailing zeros. -/
def normalize (d : Decimal) : Decimal := normalizeWith d.coefficient.log2 d

end Decimal

/-- The reals that read back to a double, as quarters of its last binary place over a common
    denominator: `low / denominator` to `high / denominator` around `value / denominator`. -/
structure RoundingInterval where
  value : Nat
  low : Nat
  high : Nat
  denominator : Nat
  /-- Whether the two ends belong to the interval. -/
  closed : Bool
deriving Repr

namespace RoundingInterval

/-- The rounding interval of a finite nonzero double.  Below a power of two the lower
    neighbour is half as far away as the upper one. -/
def ofDouble (x : Double) : RoundingInterval :=
  let m := x.significand
  let unit := Nat.pow 2 (x.scale - 2).toNat
  let below := if x.fractionBits = 0 ∧ 1 < x.exponentBits then 1 else 2
  { value := 4 * m * unit
    low := (4 * m - below) * unit
    high := (4 * m + 2) * unit
    denominator := Nat.pow 2 (2 - x.scale).toNat
    closed := m % 2 == 0 }

/-- Whether `c · 10 ^ g` lies in the interval. -/
def holds (r : RoundingInterval) (c : Nat) (g : Int) : Bool :=
  let point := c * Nat.pow 10 g.toNat * r.denominator
  let step := Nat.pow 10 (-g).toNat
  if r.closed then r.low * step ≤ point && point ≤ r.high * step
  else r.low * step < point && point < r.high * step

/-- The number of decimal digits before the point (positive), or minus the number of zeros
    that follow it: `10 ^ (k - 1) ≤ value < 10 ^ k`. -/
def magnitude (r : RoundingInterval) : Int :=
  if r.denominator ≤ r.value then ((r.value / r.denominator).repr.length : Int)
  else 1 - ((r.denominator / r.value).repr.length : Int)

/-- The shortest decimal on the grid of `10 ^ g`, if one of the two points next to the value
    reads back. -/
def onGrid? (r : RoundingInterval) (tie : Tie) (g : Int) : Option Decimal :=
  let step := r.denominator * Nat.pow 10 g.toNat
  let value := r.value * Nat.pow 10 (-g).toNat
  let c := value / step
  let rest := 2 * (value % step)
  let below := r.holds c g
  let above := r.holds (c + 1) g
  let upward := rest > step || (rest == step && (tie == .up || c % 2 == 1))
  if below && above then some ⟨if upward then c + 1 else c, g⟩
  else if below then some ⟨c, g⟩
  else if above then some ⟨c + 1, g⟩
  else none

end RoundingInterval

/-- The shortest decimal of the magnitude of a finite double. -/
def Double.shortest (tie : Tie) (x : Double) : Decimal :=
  if x.significand = 0 then ⟨0, 0⟩
  else
    let r := RoundingInterval.ofDouble x
    let k := r.magnitude
    let found := (List.range 17).findSome? fun n => r.onGrid? tie (k - (n + 1 : Nat))
    (found.getD ⟨x.significand, x.scale⟩).normalize

end QueryShapes
