import Splice.Store.Session
/-!
# Templates — the segments between arguments

The segments of a template are usually texts in a row, known when the
template is built. They may also be held by an object; such segments are
read one at a time while arguments are spliced, so that a list that is
folded meanwhile is seen as it then is.
-/

namespace Splice

/-- The segments of a template. -/
inductive Segments
  /-- Values in a row. -/
  | fixed (items : List Value)
  /-- The elements of an object. -/
  | held (r : Ref)

namespace Segments

/-- Segments given as strings. -/
def ofStrings (ss : List String) : Segments := .fixed (ss.map fun s => .text (Text.ofString s))

/-- Segments given as texts. -/
def ofTexts (ts : List Text) : Segments := .fixed (ts.map .text)

/-- The segments that a value holds: each code point of a text is one. -/
def ofValue : Value → Except Failure Segments
  | .text t => .ok (.fixed (t.map fun c => .text [c]))
  | .object r => .ok (.held r)
  | _ => .error .wrongKind

/-- How many segments there are. -/
def size : Segments → Build Nat
  | .fixed items => return items.length
  | .held r => Build.read fun s => (s.elements (.object r)).map List.length

/-- The segment at a position. A map is asked for the position as a key. -/
def get (i : Nat) : Segments → Build Value
  | .fixed items => Build.read fun _ => elementAt items i
  | .held r => Build.read fun s => match s.get r with
    | .list items => elementAt items i
    | .tuple items => elementAt items i
    | .dict es => s.valueAt es (.scalar (.int i))
    | .foreign kind _ => match kind.isIndexed, kind.elements? with
      | true, some ns => elementAt (ns.map fun n => .scalar (.int n)) i
      | _, _ => .error .wrongKind
    | _ => .error .wrongKind

end Segments

end Splice
