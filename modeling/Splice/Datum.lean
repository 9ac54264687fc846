import Splice.Store.Object
/-!
# Data — values unfolded to finite trees

Encoding and display read a whole value at once. `Store.datum` unfolds
the objects behind a value into a `Datum`, a finite tree: where an object
is met again below itself, the tree ends in a `cycle` that remembers what
kind of container it is. Values nested too deep have neither a literal nor
a display, so the tree also ends in `deeper` where it is deeper than that.
-/

namespace Splice

/-- The kinds of object that hold other values. -/
inductive Container
  | list
  | tuple
  | dict
  | fragment
  | tracked
deriving DecidableEq, Repr

/-- A value as a finite tree. -/
inductive Datum
  | scalar (s : Scalar)
  | text (t : Text)
  | name (n : Name)
  | list (items : List Datum)
  | tuple (items : List Datum)
  | dict (entries : List (Datum × Datum))
  | fragment (items used : Datum) (isExpression : Bool)
  /-- The usage map that an object carries, and its text if it has one. -/
  | tracked (members : List Datum)
  | foreign (kind : Foreign)
  /-- An object met again below itself. -/
  | cycle (container : Container)
  /-- An object that lies deeper than trees reach. -/
  | deeper
deriving Inhabited

/-- The name of a kind of container, as messages give it. -/
def Container.typeName : Container → Text
  | .list => "list"
  | .tuple => "tuple"
  | .dict => "dict"
  | .fragment => "Fragment"
  | .tracked => "SimpleNamespace"

/-- The name of the kind of a scalar, as messages give it. -/
def Scalar.typeName : Scalar → Text
  | .null => "NoneType"
  | .bool _ => "bool"
  | .int _ => "int"
  | .float _ => "float"

/-- The name of the kind of a value, as messages give it. -/
def Datum.typeName : Datum → Text
  | .scalar s => s.typeName
  | .text _ => "str"
  | .name _ => "Name"
  | .list _ => Container.list.typeName
  | .tuple _ => Container.tuple.typeName
  | .dict _ => Container.dict.typeName
  | .fragment .. => Container.fragment.typeName
  | .tracked _ => Container.tracked.typeName
  | .foreign kind => kind.typeName
  | .cycle c => c.typeName
  | .deeper => Foreign.object.typeName

/-- How deep trees reach: deeper than any value that has a literal or a display. -/
def Datum.reach : Nat := 1000

/-- The kind of container an object is, if it is one. -/
def Object.container? : Object → Option Container
  | .list _ => some .list
  | .tuple _ => some .tuple
  | .dict _ => some .dict
  | .fragment .. => some .fragment
  | .tracked .. => some .tracked
  | .foreign .. => none

namespace Store

variable (s : Store)

/-- What an object looks like where it is met again below itself. -/
def back (r : Ref) : Datum := .cycle ((s.get r).container?.getD .list)

/-- The tree of a value below the objects of `path`, so many objects deep. -/
def unfold : Nat → List Ref → Value → Datum
  | _, _, .name n => .name n
  | _, _, .text t => .text t
  | _, _, .scalar c => .scalar c
  | 0, _, .object _ => .deeper
  | fuel + 1, path, .object r =>
    if r ∈ path then s.back r
    else match s.get r with
      | .list xs => .list (xs.map (unfold fuel (r :: path)))
      | .tuple xs => .tuple (xs.map (unfold fuel (r :: path)))
      | .dict es =>
        .dict (es.map fun e => (unfold fuel (r :: path) e.1, unfold fuel (r :: path) e.2))
      | .fragment items used isExpression =>
        .fragment (unfold fuel (r :: path) items) (unfold fuel (r :: path) used) isExpression
      | .tracked used text? =>
        .tracked ((used :: text?.toList).map (unfold fuel (r :: path)))
      | .foreign kind _ => .foreign kind

/-- The tree of a value. -/
def datum (v : Value) : Datum := s.unfold Datum.reach [] v

@[simp] theorem datum_scalar (c : Scalar) : s.datum (.scalar c) = .scalar c := rfl

end Store

end Splice
