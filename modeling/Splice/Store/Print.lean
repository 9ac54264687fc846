import Splice.Item.Render
import Splice.Datum.Display
/-!
# Store — how values print inside code

A fragment prints as the texts of its items, one after the other; any
other object prints as messages show it. Fragments that lie too deep in
each other have no text, and neither has a fragment that is reached again
from its own items.
-/

namespace Splice

/-- Whether a scalar counts as true. -/
def Scalar.isTruthy : Scalar → Bool
  | .null => false
  | .bool b => b
  | .int n => n != 0
  | .float x => !x.isZero

/-- The one element of a name that is taken apart: the pair of the word
`text` and the identifier. -/
def Name.field (n : Name) : Object := .tuple [.text "text", .text n.text]

/-- The element at a position of a sequence. -/
def elementAt (xs : List Value) (i : Nat) : Except Failure Value :=
  match xs[i]? with
  | some x => .ok x
  | none => .error .missingIndex

namespace Store

variable (s : Store)

/-- The elements of a value that holds elements, in order; those of a map
are its keys. The element of a name is no object of the store, so names
are left out. -/
def elements : Value → Except Failure (List Value)
  | .text t => .ok (t.map fun c => .text [c])
  | .object r => match s.get r with
    | .list xs => .ok xs
    | .tuple xs => .ok xs
    | .dict es => .ok (es.map Prod.fst)
    | .foreign kind _ => match kind.elements? with
      | some ns => .ok (ns.map fun n => .scalar (.int n))
      | none => .error .wrongKind
    | _ => .error .wrongKind
  | _ => .error .wrongKind

/-- Whether a value counts as true: zeros and everything empty do not. -/
def isTruthy : Value → Bool
  | .name _ => true
  | .text t => !t.isEmpty
  | .scalar c => c.isTruthy
  | .object r => match s.get r with
    | .list xs => !xs.isEmpty
    | .tuple xs => !xs.isEmpty
    | .dict es => !es.isEmpty
    | .foreign kind _ => kind.isTruthy
    | _ => true

/-- A value as messages show it. -/
def display (v : Value) : Except Failure Text := (s.datum v).display

/-- An object as code, given the text of the fragments it may be. -/
def printWith (fragmentText : Ref → Except Failure Text) (r : Ref) : Except Failure Text :=
  match s.get r with
  | .fragment .. => fragmentText r
  | _ => s.display (.object r)

/-- How many fragments may lie in each other. -/
def maxNesting : Nat := 164

/-- The text of a fragment with at most so many fragments in each other. -/
def fragmentText : Nat → Ref → Except Failure Text
  | 0, _ => .error .tooDeep
  | fuel + 1, r => match s.get r with
    | .fragment (.name n) _ _ => (s.push n.field).display (.object s.next)
    | .fragment items _ _ => do
      let xs ← s.elements items
      Item.renderAll (s.printWith (fragmentText fuel)) xs
    | _ => .error .missingMember

/-- The text of an object as code. -/
def print (r : Ref) : Except Failure Text :=
  s.printWith (s.fragmentText maxNesting) r

/-- The text of a value as code. -/
def render (v : Value) : Except Failure Text := v.render s.print

/-- The text of a value in a report: as code, but a scalar as messages
show it. -/
def plainText : Value → Except Failure Text
  | .scalar c => c.display
  | v => s.render v

end Store

end Splice
