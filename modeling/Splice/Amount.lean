import Splice.Store.Session
/-!
# Amounts — values that can be added up

Usage maps count in whole numbers as a rule, but any amounts will do that
can be multiplied by a whole number and added to each other: numbers of
all kinds, which mix, and texts, lists, tuples and bytes, which are
repeated and joined. Where numbers mix, whole ones become doubles and
doubles become complex. Neither the size of a number nor that of a
container is unlimited.
-/

namespace Splice

/-- A value that can be multiplied and added. -/
inductive Amount
  | whole (n : Int)
  | real (x : Double)
  | complex (z : ComplexDouble)
  | text (t : Text)
  | list (items : List Value)
  | tuple (items : List Value)
  | bytes (content : Bytes)
  | byteArray (content : Bytes)
deriving DecidableEq

namespace Amount

/-- A real number as a double. -/
def toDouble : Amount → Except Failure Double
  | .whole n => match Double.ofInt? n with
    | some x => .ok x
    | none => .error .overflow
  | .real x => .ok x
  | _ => .error .wrongKind

/-- A number as a complex value. -/
def toComplex : Amount → Except Failure ComplexDouble
  | .complex z => .ok z
  | a => a.toDouble.map .ofDouble

/-- How many elements there is room for. -/
def room : Nat := 2 ^ 32

/-- A sequence repeated `factor` times, which is nothing if the factor is
not positive. A factor has to fit into 64 bits, and the length of a
sequence as well, or there is `tooLong`. -/
def repeated {α : Type} (tooLong : Failure) (factor : Int) (xs : List α) :
    Except Failure (List α) :=
  if factor < -2 ^ 63 ∨ 2 ^ 63 ≤ factor then .error .overflow
  else if xs.isEmpty then .ok []
  else if 2 ^ 63 ≤ factor * xs.length then .error tooLong
  else if room < factor * xs.length then .error .outOfMemory
  else .ok (List.replicate factor.toNat xs).flatten

/-- An amount times a whole number. -/
def times (factor : Int) : Amount → Except Failure Amount
  | .whole n => .ok (.whole (factor * n))
  | .real x => do
    let k ← (Amount.whole factor).toDouble
    return .real (k.mul x)
  | .complex z => do
    let k ← (Amount.whole factor).toComplex
    return .complex (k.mul z)
  | .text t => (repeated .overflow factor t).map .text
  | .list xs => (repeated .outOfMemory factor xs).map .list
  | .tuple xs => (repeated .outOfMemory factor xs).map .tuple
  | .bytes bs => (repeated .overflow factor bs).map .bytes
  | .byteArray bs => (repeated .outOfMemory factor bs).map .byteArray

/-- The sum of two amounts: of numbers of any kind, or of containers of
one kind. Bytes of both kinds add up to the kind of the first. -/
def plus : Amount → Amount → Except Failure Amount
  | .whole m, .whole n => .ok (.whole (m + n))
  | .text t, .text u => .ok (.text (t ++ u))
  | .list xs, .list ys => .ok (.list (xs ++ ys))
  | .tuple xs, .tuple ys => .ok (.tuple (xs ++ ys))
  | .bytes bs, .bytes cs => .ok (.bytes (bs ++ cs))
  | .bytes bs, .byteArray cs => .ok (.bytes (bs ++ cs))
  | .byteArray bs, .bytes cs => .ok (.byteArray (bs ++ cs))
  | .byteArray bs, .byteArray cs => .ok (.byteArray (bs ++ cs))
  | .complex z, b => do
    let w ← b.toComplex
    return .complex (z.add w)
  | a, .complex w => do
    let z ← a.toComplex
    return .complex (z.add w)
  | .real x, b => do
    let y ← b.toDouble
    return .real (x.add y)
  | a, .real y => do
    let x ← a.toDouble
    return .real (x.add y)
  | _, _ => .error .wrongKind

end Amount

namespace Store

variable (s : Store)

/-- The amount that a value stands for. Truth values are one and zero. -/
def amount : Value → Except Failure Amount
  | .scalar (.bool b) => .ok (.whole (Scalar.ofBool b))
  | .scalar (.int n) => .ok (.whole n)
  | .scalar (.float x) => .ok (.real x)
  | .text t => .ok (.text t)
  | .object r => match s.get r with
    | .list xs => .ok (.list xs)
    | .tuple xs => .ok (.tuple xs)
    | .foreign (.bytes bs) _ => .ok (.bytes bs)
    | .foreign (.byteArray bs) _ => .ok (.byteArray bs)
    | .foreign (.complex z) _ => .ok (.complex z)
    | _ => .error .wrongKind
  | _ => .error .wrongKind

/-- What a value counts for: its amount, and zero if it counts as false. -/
def countedAmount (v : Value) : Except Failure Amount :=
  if s.isTruthy v then s.amount v else .ok (.whole 0)

end Store

namespace Build

/-- The value of an amount. A container is a new object. -/
def ofAmount : Amount → Build Value
  | .whole n => return .scalar (.int n)
  | .real x => if x.isNaN then undefined else return .scalar (.float x)
  | .complex z => alloc (.foreign (.complex z) none)
  | .text t => return .text t
  | .list xs => alloc (.list xs)
  | .tuple xs => alloc (.tuple xs)
  | .bytes bs => alloc (.foreign (.bytes bs) none)
  | .byteArray bs => alloc (.foreign (.byteArray bs) none)

end Build

end Splice
