import Splice.Store.Print
/-!
# Store — when two values are equal

Names are equal by their text, numbers by their value whatever they are
written as, and containers by their elements, where an element is always
equal to itself. Two fragments are equal if they have the same text and
are both string expressions or both not. Keys of a map are told apart by
equality.
-/

namespace Splice

namespace Scalar

/-- The whole number a truth value counts as. -/
def ofBool (b : Bool) : Int := if b then 1 else 0

/-- Whether two scalars are equal: numbers by value, truth values as one and zero. -/
def equals : Scalar → Scalar → Bool
  | .null, .null => true
  | .null, _ => false
  | _, .null => false
  | .bool a, .bool b => a == b
  | .bool a, .int b => ofBool a == b
  | .bool a, .float y => y.whole? == some (ofBool a)
  | .int a, .bool b => a == ofBool b
  | .int a, .int b => a == b
  | .int a, .float y => y.whole? == some a
  | .float x, .bool b => x.whole? == some (ofBool b)
  | .float x, .int b => x.whole? == some b
  | .float x, .float y => x.equals y

end Scalar

/-- Whether a complex value equals a scalar. -/
def ComplexDouble.equalsScalar (z : ComplexDouble) (c : Scalar) : Bool :=
  z.im.isZero && (Scalar.float z.re).equals c

/-- Whether two objects are equal without being the same. -/
def Foreign.equals : Foreign → Foreign → Bool
  | .object, _ => false
  | .function, _ => false
  | .set, .frozenSet => true
  | .frozenSet, .set => true
  | .bytes content, .byteArray other => content == other
  | .byteArray content, .bytes other => content == other
  | .complex z, .complex w => z.equals w
  | a, b => a == b

/-- Whether two elements are the same, or equal by `equal`. A value that is
not a number is the same as itself, though it equals nothing. -/
def sameOr (equal : Value → Value → Except Failure Bool) (a b : Value) : Except Failure Bool :=
  if a = b then .ok true else equal a b

/-- Whether the elements of two sequences are equal one by one. -/
def sameElements (equal : Value → Value → Except Failure Bool) :
    List Value → List Value → Except Failure Bool
  | [], [] => .ok true
  | a :: as, b :: bs => do
    if ← sameOr equal a b then sameElements equal as bs else return false
  | _, _ => .ok false

/-- The value under a key, where keys are told apart by `equal`. -/
def valueUnder (equal : Value → Value → Except Failure Bool) (key : Value) :
    List (Value × Value) → Except Failure (Option Value)
  | [] => .ok none
  | e :: es => do
    if ← sameOr equal e.1 key then return some e.2 else valueUnder equal key es

/-- Whether a map has equal values under all the given keys. -/
def sameEntries (equal : Value → Value → Except Failure Bool) (es : List (Value × Value)) :
    List (Value × Value) → Except Failure Bool
  | [] => .ok true
  | (key, value) :: fs => do
    match ← valueUnder equal key es with
    | none => return false
    | some other =>
      if ← sameOr equal other value then sameEntries equal es fs else return false

namespace Store

variable (s : Store)

/-- Whether two values are equal, with at most so many containers nested
in each other. -/
def equalTo : Nat → Value → Value → Except Failure Bool
  | _, .name a, .name b => .ok (a == b)
  | _, .text a, .text b => .ok (a == b)
  | _, .scalar a, .scalar b => .ok (a.equals b)
  | 0, .object _, .object _ => .error .tooDeep
  | depth + 1, .object r, .object q =>
    match s.get r, s.get q with
    | .fragment _ _ a, .fragment _ _ b => do
      let t ← s.print r
      let u ← s.print q
      return t == u && a == b
    | o, o' =>
      if r = q then .ok true
      else match o, o' with
        | .list xs, .list ys =>
          if xs.length = ys.length then sameElements (equalTo depth) xs ys else .ok false
        | .tuple xs, .tuple ys => sameElements (equalTo depth) xs ys
        | .dict es, .dict fs =>
          if es.length = fs.length then sameEntries (equalTo depth) fs es else .ok false
        | .tracked a t, .tracked b u =>
          if t.isSome = u.isSome then
            sameElements (equalTo depth) (a :: t.toList) (b :: u.toList)
          else .ok false
        | .foreign a _, .foreign b _ => .ok (a.equals b)
        | _, _ => .ok false
  | _, .object r, .scalar c => match s.get r with
    | .foreign (.complex z) _ => .ok (z.equalsScalar c)
    | _ => .ok false
  | _, .scalar c, .object r => match s.get r with
    | .foreign (.complex z) _ => .ok (z.equalsScalar c)
    | _ => .ok false
  | _, _, _ => .ok false

/-- Whether two values are equal. -/
def equal (a b : Value) : Except Failure Bool := s.equalTo Datum.maxDisplayDepth a b

/-- Whether two values are the same key of a map. -/
def sameKey (a b : Value) : Bool :=
  match sameOr s.equal a b with
  | .ok e => e
  | .error _ => false

@[simp] theorem sameKey_text (a b : Text) : s.sameKey (.text a) (.text b) = (a == b) := by
  by_cases h : a = b <;> simp [sameKey, sameOr, equal, equalTo, h]

/-- The value under a key of a map. -/
def valueAt (es : List (Value × Value)) (key : Value) : Except Failure Value :=
  match es.find? fun e => s.sameKey e.1 key with
  | some e => .ok e.2
  | none => .error .missingKey

end Store

end Splice
