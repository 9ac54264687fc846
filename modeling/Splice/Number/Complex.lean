import Splice.Number.Arithmetic
import Splice.Number.Layout
/-!
# Number — complex values in double precision

A complex value is a pair of doubles. It takes no part in generated code,
but counts may be complex: sums are taken part by part, and products by
the rule `(a + bi)(c + di) = (ac - bd) + (ad + bc)i`, each operation
rounded.
-/

namespace Splice

/-- A complex value in double precision. -/
structure ComplexDouble where
  /-- The real part. -/
  re : Double
  /-- The imaginary part. -/
  im : Double
deriving DecidableEq, Repr, Inhabited

/-- The text of a part of a complex value, a sign before it if `signed`.
There is no point after a whole part. -/
def Double.partText (signed : Bool) (x : Double) : Text :=
  let plus : Text := if signed then [.char '+'] else []
  if x.isFinite then (if x.isNegative then [] else plus) ++ x.laidOut false
  else if x.isNaN then plus ++ Text.ofString "nan"
  else if x.isNegative then Text.ofString "-inf"
  else plus ++ Text.ofString "inf"

namespace ComplexDouble

/-- A double as a complex value. -/
def ofDouble (x : Double) : ComplexDouble := ⟨x, .zero⟩

/-- The sum of two complex values. -/
def add (z w : ComplexDouble) : ComplexDouble := ⟨z.re.add w.re, z.im.add w.im⟩

/-- The product of two complex values. -/
def mul (z w : ComplexDouble) : ComplexDouble :=
  ⟨(z.re.mul w.re).sub (z.im.mul w.im), (z.re.mul w.im).add (z.im.mul w.re)⟩

/-- Whether a complex value is zero. -/
def isZero (z : ComplexDouble) : Bool := z.re.isZero && z.im.isZero

/-- Whether two complex values are equal as numbers. -/
def equals (z w : ComplexDouble) : Bool := z.re.equals w.re && z.im.equals w.im

/-- The text of a complex value. A real part that is positive zero is left
out, and with it the brackets. -/
def text (z : ComplexDouble) : Text :=
  if z.re = .zero then z.im.partText false ++ [.char 'j']
  else .char '(' :: z.re.partText false ++ z.im.partText true ++ Text.ofString "j)"

end ComplexDouble

end Splice
