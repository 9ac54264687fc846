import Splice.Text.CodePoint
import Splice.Number.Shortest
/-!
# Number — how digits are laid out as text

Whole numbers are written in decimal; one of more than 4300 digits is not
written at all. A finite double has two written forms. In literals of data
and in messages it is the shortest digits that read back, always with a
point or an exponent, and exponents of ten from -4 to 15 are written
positionally. In code a whole number below `10 ^ 21` is written out
exactly. Any other is written as in a literal, and if there is an exponent
in that, the text is laid out anew: an exponent from -6 on becomes zeros
before the digits, and any other loses its padding.
-/

namespace Splice

/-- The decimal digits of a natural number. -/
def Text.ofNat (n : Nat) : Text := (Nat.toDigits 10 n).map .char

/-- The decimal digits of a whole number, a minus sign before those of a
negative one. -/
def Text.ofInt : Int → Text
  | .ofNat n => Text.ofNat n
  | .negSucc n => .char '-' :: Text.ofNat (n + 1)

/-- Whether a whole number has few enough digits to be written. -/
def isPrintableInt (n : Int) : Bool := n.natAbs < 10 ^ 4300

namespace Layout

/-- Zeros in a row. -/
def zeros (n : Nat) : Text := List.replicate n (.char '0')

/-- The digits with the point after the digit of exponent zero. If no digit
is after the point, a zero is, or the point is left out. -/
def positional (keepsPoint : Bool) (digits : Text) (exponent : Int) : Text :=
  if exponent < 0 then Text.ofString "0." ++ zeros (-exponent - 1).toNat ++ digits
  else
    let whole := exponent.toNat + 1
    if digits.length ≤ whole then
      digits ++ zeros (whole - digits.length) ++ (if keepsPoint then Text.ofString ".0" else [])
    else digits.take whole ++ .char '.' :: digits.drop whole

/-- One digit before the point. -/
def mantissa (digits : Text) : Text :=
  match digits with
  | [] => []
  | [d] => [d]
  | d :: ds => d :: .char '.' :: ds

/-- One digit before the point, and the exponent with its sign, in two
digits at least. -/
def exponential (digits : Text) (exponent : Int) : Text :=
  let written := Text.ofNat exponent.natAbs
  mantissa digits ++ .char 'e' :: .char (if exponent < 0 then '-' else '+') ::
    (zeros (2 - written.length) ++ written)

/-- The text of `d₁.d₂d₃… * 10 ^ exponent`. -/
def place (keepsPoint : Bool) (digits : Text) (exponent : Int) : Text :=
  if -4 ≤ exponent ∧ exponent ≤ 15 then positional keepsPoint digits exponent
  else exponential digits exponent

end Layout

namespace Text

/-- The number that decimal digits stand for. -/
def digitsValue (ds : Text) : Nat := ds.foldl (fun n c => 10 * n + (c.toNat - 48)) 0

/-- The number that decimal digits stand for, with a sign before them or
none. -/
def signedValue : Text → Int
  | .char '-' :: ds => -(digitsValue ds : Int)
  | .char '+' :: ds => digitsValue ds
  | ds => digitsValue ds

/-- A written number laid out anew, if there is an exponent in it. -/
def relaid (t : Text) : Text :=
  let before := t.takeWhile (· != .char 'e')
  match t.dropWhile (· != .char 'e') with
  | [] => t
  | _ :: after =>
    let exponent := signedValue after
    if -7 < exponent ∧ exponent < 0 then
      (if before.head? == some (.char '-') then [.char '-'] else []) ++ Text.ofString "0." ++
        Layout.zeros (-exponent - 1).toNat ++
        (before.dropWhile (· == .char '-')).filter (· != .char '.')
    else
      before ++ .char 'e' :: .char (if 0 < exponent then '+' else '-') ::
        Text.ofNat exponent.natAbs

end Text

namespace Decimal

/-- The digits without the zeros at their end. -/
def significant (d : Decimal) : Text :=
  (((Nat.toDigits 10 d.digits).reverse.dropWhile (· == '0')).reverse).map .char

/-- The exponent of ten of the first digit. -/
def exponent (d : Decimal) : Int :=
  (Nat.toDigits 10 d.digits).length + d.scale - 1

end Decimal

namespace Double

variable (x : Double)

/-- The shortest digits that read back, and the exponent of ten of the
first. Zero is its own digit. -/
def digits : Text × Int :=
  if x.isZero then ([.char '0'], 0)
  else (x.magnitude.shortest.significant, x.magnitude.shortest.exponent)

/-- The text of a finite value by its shortest digits. -/
def laidOut (keepsPoint : Bool) : Text :=
  (if x.isNegative then [.char '-'] else []) ++ Layout.place keepsPoint x.digits.1 x.digits.2

/-- The text of a value in a literal of data and in messages. -/
def literalText : Text :=
  if x.isFinite then x.laidOut true
  else if x.isNaN then "nan"
  else if x.isNegative then "-inf"
  else "inf"

/-- The text of a value as code. -/
def codeText : Text :=
  if x.isFinite then
    match x.whole? with
    | some n => if n.natAbs < 10 ^ 21 then Text.ofInt n else x.literalText.relaid
    | none => x.literalText.relaid
  else if x.isNaN then "NaN"
  else if x.isNegative then "-Infinity"
  else "Infinity"

end Double

end Splice
