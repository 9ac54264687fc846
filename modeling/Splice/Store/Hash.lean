import Splice.Store.Equal
/-!
# Store — when two values hash alike

Values that can be keys of a map have a hash, and equal ones hash alike.
The hash of a number is its residue modulo a Mersenne prime, that of a
sequence is mixed from the hashes of its elements, and both are known. The
hash of a text or of bytes depends on the run and on nothing but what is
stored: two of them hash alike if the same bytes are, and the empty ones
hash to zero. A name hashes as its text does. Everything else hashes by
its identity.
-/

namespace Splice

/-- A hash as two's complement in 64 bits. -/
abbrev Hash := UInt64

namespace Hash

/-- The prime that numbers are reduced by. -/
def modulus : Nat := 2 ^ 61 - 1

/-- The hash of a whole number, or of any number with this residue. Minus
one is kept free. -/
def ofWhole (negative : Bool) (n : Nat) : Hash :=
  let h : Hash := (n % modulus).toUInt64
  if negative then (if h = 1 then -2 else -h) else h

/-- One more element mixed into the hash of a sequence. -/
def mix (acc lane : Hash) : Hash :=
  let acc := acc + lane * 14029467366897019727
  ((acc <<< 31) ||| (acc >>> 33)) * 11400714785074694791

/-- The hash of a sequence, from those of its elements. -/
def ofElements (hashes : List Hash) : Hash :=
  let seed : Hash := 2870177450012600261
  let h := hashes.foldl mix seed + (hashes.length.toUInt64 ^^^ (seed ^^^ 3527539))
  if h = -1 then 1546275796 else h

/-- The hash of the set whose only element is one. -/
def ofSetOfOne : Hash := -558064481276695278

end Hash

/-- The hash of a number. A double that is not a number has none, and a
power of two depends on its exponent modulo 61 only. -/
def Double.hash? (x : Double) : Option Hash :=
  if x.isFinite then
    some (.ofWhole x.isNegative (x.magnitude.m * 2 ^ (x.magnitude.q % 61).toNat))
  else if x.isNaN then none
  else some (if x.isNegative then -314159 else 314159)

/-- The hash of a scalar, unless it hashes by its identity. -/
def Scalar.hash? : Scalar → Option Hash
  | .null => none
  | .bool b => some (if b then 1 else 0)
  | .int n => some (.ofWhole (n < 0) n.natAbs)
  | .float x => x.hash?

/-- The hash of a complex value. -/
def ComplexDouble.hash? (z : ComplexDouble) : Option Hash := do
  let h := (← z.re.hash?) + 1000003 * (← z.im.hash?)
  return if h = -1 then -2 else h

namespace Text

/-- How many bytes each code point of a text is stored in. -/
def width (t : Text) : Nat :=
  if t.all (·.toNat < 0x100) then 1 else if t.all (·.toNat < 0x10000) then 2 else 4

/-- A number in so many bytes, the lowest first. -/
def bytesOf : Nat → Nat → Bytes
  | 0, _ => []
  | width + 1, n => n.toUInt8 :: bytesOf width (n / 256)

/-- The bytes that a text is stored as. -/
def stored (t : Text) : Bytes :=
  let width := t.width
  t.flatMap fun c => bytesOf width c.toNat

end Text

namespace Foreign

/-- Whether an object can be hashed. -/
def isHashable : Foreign → Bool
  | set | byteArray _ => false
  | _ => true

/-- The hash of an object, unless it depends on the run. -/
def hash? : Foreign → Option Hash
  | frozenSet => some .ofSetOfOne
  | bytes [] => some 0
  | complex z => z.hash?
  | range => some (.ofElements [3, 0, 1])
  | _ => none

end Foreign

namespace Store

variable (s : Store)

/-- Whether a value can be a key of a map, with at most so many sequences
nested in each other. -/
def isHashableTo : Nat → Value → Bool
  | 0, .object _ => false
  | depth + 1, .object r => match s.get r with
    | .tuple xs => xs.all (isHashableTo depth)
    | .foreign kind _ => kind.isHashable
    | _ => false
  | _, _ => true

/-- Whether a value can be a key of a map. -/
def isHashable (v : Value) : Bool := s.isHashableTo (s.objects.size + 1) v

/-- The hash of a value, unless it depends on the run. -/
def hashTo? : Nat → Value → Option Hash
  | _, .scalar c => c.hash?
  | _, .text [] => some 0
  | depth + 1, .object r => match s.get r with
    | .tuple xs => (xs.mapM (hashTo? depth)).map .ofElements
    | .foreign kind _ => kind.hash?
    | _ => none
  | _, _ => none

/-- The bytes that a value is hashed by, if it is made of any. -/
def hashedBytes? : Value → Option Bytes
  | .name n => some n.text.stored
  | .text t => some t.stored
  | .scalar _ => none
  | .object r => match s.get r with
    | .foreign (.bytes content) _ => some content
    | _ => none

/-- Whether two values that can be keys hash alike. -/
def hashesLike : Nat → Value → Value → Bool
  | 0, _, _ => false
  | depth + 1, a, b =>
    match s.hashTo? depth a, s.hashTo? depth b with
    | some h, some k => h == k
    | none, none => match s.hashedBytes? a, s.hashedBytes? b with
      | some bs, some cs => bs == cs
      | none, none => match a, b with
        | .object r, .object q => match s.get r, s.get q with
          | .tuple xs, .tuple ys =>
            xs.length == ys.length && (xs.zip ys).all fun p => hashesLike depth p.1 p.2
          | .foreign k _, .foreign l _ => r == q || k.equals l
          | _, _ => r == q
        | a, b => a == b
      | _, _ => false
    | _, _ => false

/-- Whether two values hash alike, if both can be keys. -/
def hashEqual (a b : Value) : Except Failure Bool :=
  if s.isHashable a && s.isHashable b then .ok (s.hashesLike (s.objects.size + 2) a b)
  else .error .wrongKind

end Store

end Splice
