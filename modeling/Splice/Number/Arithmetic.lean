import Splice.Number.Double
/-!
# Number — arithmetic on doubles

Sums and products of doubles are rounded to the nearest double. A whole
number takes part as the double nearest to it, and one whose nearest
double would be infinite takes no part at all. Of the doubles that are
not numbers there are many, told apart by their fraction; `Double.undefined`
makes one for each mark.
-/

namespace Splice

namespace Double

/-- Positive zero. -/
def zero : Double := ⟨0⟩

/-- The double nearest to a whole number, unless that is infinite. -/
def ofInt? (n : Int) : Option Double :=
  let x : Double := ⟨(Float.ofInt n).toBits⟩
  if x.isFinite then some x else none

/-- The sum of two doubles. -/
def add (x y : Double) : Double := ⟨(Float.ofBits x.bits + Float.ofBits y.bits).toBits⟩

/-- The difference of two doubles. -/
def sub (x y : Double) : Double := ⟨(Float.ofBits x.bits - Float.ofBits y.bits).toBits⟩

/-- The product of two doubles. -/
def mul (x y : Double) : Double := ⟨(Float.ofBits x.bits * Float.ofBits y.bits).toBits⟩

/-- The double that is not a number and has the given mark in its fraction. -/
def undefined (mark : Nat) : Double := ⟨(0x7ff8000000000000 + mark % 2 ^ 51).toUInt64⟩

/-- Whether two doubles are equal as numbers. -/
def equals (x y : Double) : Bool :=
  !x.isNaN && !y.isNaN && (x.bits == y.bits || (x.isZero && y.isZero))

end Double

end Splice
