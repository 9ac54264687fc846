/-!
# Number — double-precision values by their bits

A double is kept as its 64 bits, so that every value, the two zeros and
the values that are not numbers included, can be told apart and reasoned
about. A finite one is read as a sign and a magnitude `m * 2 ^ q` with
`m` and `q` whole; everything that is printed is computed from these two
in exact arithmetic.
-/

namespace Splice

-- Powers are the built-in ones, also where a module knows powers in every monoid.
attribute [scoped instance (high), default_instance (high + 1)] instPowNat

/-- A double-precision value. -/
structure Double where
  /-- Sign, eleven bits of exponent, fifty-two bits of fraction. -/
  bits : UInt64
deriving DecidableEq, Repr, Inhabited

/-- The exact magnitude `m * 2 ^ q` of a finite double, with the spacing
of the doubles around it. -/
structure Magnitude where
  /-- The significand. -/
  m : Nat
  /-- The exponent of two. -/
  q : Int
  /-- Whether the doubles just below lie half as far apart as those just above. -/
  narrow : Bool
deriving DecidableEq, Repr

namespace Double

variable (x : Double)

/-- Whether the sign bit is set. -/
def isNegative : Bool := 2 ^ 63 ≤ x.bits.toNat

/-- The exponent field. -/
def biased : Nat := x.bits.toNat / 2 ^ 52 % 2048

/-- The fraction field. -/
def fraction : Nat := x.bits.toNat % 2 ^ 52

/-- Whether the value is a number, neither infinite nor undefined. -/
def isFinite : Bool := x.biased != 2047

/-- Whether the value is not a number. -/
def isNaN : Bool := x.biased == 2047 && x.fraction != 0

/-- Whether the value is one of the two zeros. -/
def isZero : Bool := x.biased == 0 && x.fraction == 0

/-- The magnitude of a finite value. -/
def magnitude : Magnitude :=
  if x.biased = 0 then ⟨x.fraction, -1074, false⟩
  else ⟨2 ^ 52 + x.fraction, x.biased - 1075, x.fraction == 0 && 1 < x.biased⟩

end Double

namespace Magnitude

variable (x : Magnitude)

/-- Whether `m * 2 ^ q` is a whole number. -/
def isWhole : Bool := 0 ≤ x.q || x.m % 2 ^ (-x.q).toNat == 0

/-- The whole part of `m * 2 ^ q`. -/
def floor : Nat := x.m * 2 ^ x.q.toNat / 2 ^ (-x.q).toNat

end Magnitude

namespace Double

/-- The exact value of a finite double that is a whole number. -/
def whole? (x : Double) : Option Int :=
  if x.isFinite && x.magnitude.isWhole then
    some (if x.isNegative then -(x.magnitude.floor : Int) else x.magnitude.floor)
  else none

end Double

end Splice
