/-
  Binary64 numbers as bit patterns: classification, the equality of the
  arithmetic standard, and correct rounding of an exact quotient.

  A double is its 64 bits, so equality of values of the type is equality of
  bits; `ieeeEq` is the comparison that identifies the two zeros and separates
  a NaN from itself.  `ofRatio` rounds to nearest, ties to even.
-/

namespace QueryShapes

/-- A binary64 number, given by its bits. -/
structure Double where
  bits : UInt64
deriving DecidableEq, Repr, Inhabited

namespace Double

/-! ## Fields of the bit pattern -/

/-- The weight of the sign bit. -/
def signWeight : Nat := 0x8000000000000000

/-- The weight of the lowest exponent bit, above the fifty-two fraction bits. -/
def exponentWeight : Nat := 0x10000000000000

def isNegative (x : Double) : Bool := decide (signWeight ≤ x.bits.toNat)

/-- The eleven exponent bits. -/
def exponentBits (x : Double) : Nat := x.bits.toNat / exponentWeight % 2048

/-- The fraction bits. -/
def fractionBits (x : Double) : Nat := x.bits.toNat % exponentWeight

def isFinite (x : Double) : Bool := x.exponentBits != 2047

def isNaN (x : Double) : Bool := x.exponentBits == 2047 && x.fractionBits != 0

def isZero (x : Double) : Bool := x.exponentBits == 0 && x.fractionBits == 0

/-- The integer `m` of `|x| = m · 2 ^ q`, for a finite `x`. -/
def significand (x : Double) : Nat :=
  if x.exponentBits = 0 then x.fractionBits else exponentWeight + x.fractionBits

/-- The integer `q` of `|x| = m · 2 ^ q`, for a finite `x`. -/
def scale (x : Double) : Int :=
  if x.exponentBits = 0 then -1074 else (x.exponentBits : Int) - 1075

/-- Equality of the arithmetic standard: the two zeros are equal, a NaN equals nothing. -/
def ieeeEq (x y : Double) : Bool :=
  !x.isNaN && !y.isNaN && (x == y || (x.isZero && y.isZero))

theorem ieeeEq_self (x : Double) : x.ieeeEq x = !x.isNaN := by
  simp [ieeeEq]

theorem ieeeEq_comm (x y : Double) : x.ieeeEq y = y.ieeeEq x := by
  unfold ieeeEq
  rw [show (x == y) = (y == x) from BEq.comm]
  cases x.isNaN <;> cases y.isNaN <;> cases x.isZero <;> cases y.isZero <;> simp

/-! ## Named values -/

def positiveInfinity : Double := ⟨0x7ff0000000000000⟩

def negativeInfinity : Double := ⟨0xfff0000000000000⟩

/-- The quiet NaN with an empty payload. -/
def notANumber : Double := ⟨0x7ff8000000000000⟩

/-- The magnitude of the two infinities. -/
def infiniteMagnitude : Nat := 2047 * exponentWeight

/-- The bits of a magnitude, under the sign bit when `negative`. -/
def withSign (negative : Bool) (magnitude : Nat) : Double :=
  ⟨UInt64.ofNat (if negative then signWeight + magnitude else magnitude)⟩

/-! ## Rounding -/

/-- The integer nearest to `n / d`, of two the even one. -/
def roundHalfEven (n d : Nat) : Nat :=
  let q := n / d
  let r := 2 * (n % d)
  if r < d then q else if d < r then q + 1 else q + q % 2

theorem roundHalfEven_one (n : Nat) : roundHalfEven n 1 = n := by
  simp [roundHalfEven, Nat.mod_one]

/-- The exponent `e` with `2 ^ e ≤ n / d < 2 ^ (e + 1)`, for positive `n` and `d`. -/
def binaryExponent (n d : Nat) : Int :=
  let e : Int := (n.log2 : Int) - (d.log2 : Int)
  if n * Nat.pow 2 (-e).toNat < d * Nat.pow 2 e.toNat then e - 1 else e

/-- The double nearest to `n / d`, ties to even; too large a magnitude becomes infinite.
    The significand is added to the exponent field, so a carry moves into the exponent. -/
def ofRatio (negative : Bool) (n d : Nat) : Double :=
  if n = 0 then withSign negative 0
  else
    let q := max (binaryExponent n d - 52) (-1074)
    let m := roundHalfEven (n * Nat.pow 2 (-q).toNat) (d * Nat.pow 2 q.toNat)
    let magnitude := (q + 1074).toNat * exponentWeight + m
    withSign negative (min magnitude infiniteMagnitude)

/-- The double nearest to `coefficient · 10 ^ exponent`.  Exponents far outside the range are
    settled without computing the power. -/
def ofDecimal (negative : Bool) (coefficient : Nat) (exponent : Int) : Double :=
  if coefficient = 0 then withSign negative 0
  else
    let leading : Int := exponent + (coefficient.log2 : Int) / 3
    if 400 < exponent then withSign negative infiniteMagnitude
    else if leading < -400 then withSign negative 0
    else ofRatio negative (coefficient * Nat.pow 10 exponent.toNat) (Nat.pow 10 (-exponent).toNat)

/-- The double nearest to an integer. -/
def ofInt (i : Int) : Double := ofRatio (i < 0) i.natAbs 1

end Double

end QueryShapes
