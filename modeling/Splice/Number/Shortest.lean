import Splice.Number.Double
/-!
# Number — the shortest decimal that reads back

A decimal reads back as a double if it lies among the reals that round to
it: the interval that reaches half way to each neighbour, its ends
included if the significand is even. `Magnitude.shortest` tries one digit,
two digits and so on up to seventeen. Each count is a grid of decimals,
and if any point of the grid reads back then so does one of the two next
to the value; the first grid with a hit wins, the nearer of two hits is
taken, and of two that are equally near the even one.
-/

namespace Splice

/-- The decimal `digits * 10 ^ scale`. -/
structure Decimal where
  /-- The digits, read as a whole number. -/
  digits : Nat
  /-- The exponent of ten. -/
  scale : Int
deriving DecidableEq, Repr

namespace Magnitude

variable (x : Magnitude)

/-! Values `d * 10 ^ s` and `m * 2 ^ q` are compared as whole numbers:
the first times `tenSide`, the second times `twoSide`. -/

/-- What a count of `10 ^ s` is multiplied by for the comparison with `x`. -/
def tenSide (s : Int) : Nat := 10 ^ s.toNat * 2 ^ (-x.q).toNat

/-- What a count of `2 ^ q` is multiplied by for the comparison with `10 ^ s`. -/
def twoSide (s : Int) : Nat := 2 ^ x.q.toNat * 10 ^ (-s).toNat

/-- Whether `d * 10 ^ s` rounds to `m * 2 ^ q`. -/
def readsBack (d : Nat) (s : Int) : Bool :=
  let point := 4 * d * x.tenSide s
  let low := (4 * x.m - if x.narrow then 1 else 2) * x.twoSide s
  let high := (4 * x.m + 2) * x.twoSide s
  if x.m % 2 = 0 then low ≤ point && point ≤ high else low < point && point < high

/-- The greatest `d` with `d * 10 ^ s` at most the value. -/
def below (s : Int) : Nat := x.m * x.twoSide s / x.tenSide s

/-- Of `d` and `d + 1` the one whose multiple of `10 ^ s` is nearer to the
value, the even one if both are as near. -/
def nearer (d : Nat) (s : Int) : Nat :=
  let value := 2 * x.m * x.twoSide s
  let middle := (2 * d + 1) * x.tenSide s
  if value < middle then d
  else if middle < value then d + 1
  else if d % 2 = 0 then d else d + 1

/-- The number of digits before the decimal point, negative for a value
below a tenth. A double is more than `10 ^ -400`, so its digits after
that place do not matter. -/
def pointPosition : Int :=
  (Nat.toDigits 10 (x.m * 2 ^ x.q.toNat * 10 ^ 400 / 2 ^ (-x.q).toNat)).length - 400

/-- The decimal with `n` digits that reads back, if there is one. -/
def withDigits? (n : Nat) : Option Decimal :=
  let s := x.pointPosition - n
  let d := x.below s
  match x.readsBack d s, x.readsBack (d + 1) s with
  | true, true => some ⟨x.nearer d s, s⟩
  | true, false => some ⟨d, s⟩
  | false, true => some ⟨d + 1, s⟩
  | false, false => none

/-- The nearest decimal with seventeen digits, which reads back for every double. -/
def withAllDigits : Decimal :=
  let s := x.pointPosition - 17
  ⟨x.nearer (x.below s) s, s⟩

/-- The shortest decimal that reads back. -/
def shortest : Decimal :=
  ((List.range' 1 17).findSome? x.withDigits?).getD x.withAllDigits

end Magnitude

end Splice
