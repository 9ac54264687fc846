import Splice.Failure
/-!
# Templates — format strings split into segments

A format string marks the place of each argument by an empty pair of
braces, and a doubled brace stands for the brace itself. `Format.split`
takes it apart into the segments between the arguments.

The scanner is an automaton over code points. It knows the full syntax of
a field, a name, an optional conversion and an optional specification,
so that a complete field that is not bare and a brace that does not match
are told apart; whichever comes first from the left is reported.
-/

namespace Splice

namespace Format

/-- Where in a format string the scanner is. Inside a field, `bare` tells
whether the field has been empty so far. -/
inductive Position
  /-- Between fields. -/
  | literal
  /-- After an opening brace. -/
  | opened
  /-- After a closing brace. -/
  | closed
  /-- In the name of a field. -/
  | name (bare : Bool)
  /-- In square brackets in the name of a field. -/
  | bracketed
  /-- Where the conversion stands. -/
  | conversion (bare : Bool)
  /-- After the conversion. -/
  | converted (bare : Bool)
  /-- In the specification, inside so many pairs of braces of its own. -/
  | spec (bare : Bool) (depth : Nat)
deriving DecidableEq, Repr

/-- What keeps a format string from being split. -/
inductive Deviation
  /-- Braces that do not match. -/
  | braces (error : BraceError)
  /-- A complete field that is not bare. -/
  | notBare
deriving DecidableEq, Repr

/-- What a code point does. -/
inductive Action
  /-- The scanner moves on. -/
  | move (position : Position)
  /-- A code point of the segment has been read. -/
  | emit (c : CodePoint)
  /-- A bare field is complete. -/
  | close
deriving DecidableEq, Repr

/-- The end of a field. -/
def finish (bare : Bool) : Except Deviation Action :=
  if bare then .ok .close else .error .notBare

/-- A code point in the name of a field. -/
def inName (bare : Bool) (c : CodePoint) : Except Deviation Action :=
  if c = .char '\x7b' then .error (.braces .openingInName)
  else if c = .char '[' then .ok (.move .bracketed)
  else if c = .char '\x7d' then finish bare
  else if c = .char ':' then .ok (.move (.spec bare 0))
  else if c = .char '!' then .ok (.move (.conversion bare))
  else .ok (.move (.name false))

/-- What a code point does at a position. A conversion is any one code
point; the null character counts as no conversion. -/
def step : Position → CodePoint → Except Deviation Action
  | .literal, c =>
    if c = .char '\x7b' then .ok (.move .opened)
    else if c = .char '\x7d' then .ok (.move .closed)
    else .ok (.emit c)
  | .opened, c => if c = .char '\x7b' then .ok (.emit c) else inName true c
  | .closed, c => if c = .char '\x7d' then .ok (.emit c) else .error (.braces .closingAlone)
  | .name bare, c => inName bare c
  | .bracketed, c => if c = .char ']' then .ok (.move (.name false)) else .ok (.move .bracketed)
  | .conversion bare, c => .ok (.move (.converted (bare && c = .char '\x00')))
  | .converted bare, c =>
    if c = .char '\x7d' then finish bare
    else if c = .char ':' then .ok (.move (.spec bare 0))
    else .error (.braces .afterConversion)
  | .spec bare depth, c =>
    if c = .char '\x7b' then .ok (.move (.spec false (depth + 1)))
    else if c = .char '\x7d' then
      match depth with
      | 0 => finish bare
      | depth + 1 => .ok (.move (.spec false depth))
    else .ok (.move (.spec false depth))

/-- What is wrong if the format string ends at a position. -/
def atEnd : Position → Option BraceError
  | .literal => none
  | .opened => some .openingAtEnd
  | .closed => some .closingAlone
  | .name _ => some .nameUnclosed
  | .bracketed => some .nameUnclosed
  | .conversion _ => some .conversionMissing
  | .converted _ => some .specUnclosed
  | .spec .. => some .specUnclosed

/-- The rest of the segment at a position, and the segments after it. -/
def scan : Position → Text → Except Deviation (Text × List Text)
  | p, [] => match atEnd p with
    | none => .ok ([], [])
    | some e => .error (.braces e)
  | p, c :: rest => do
    match ← step p c with
    | .move q => scan q rest
    | .emit d => do
      let (t, ts) ← scan .literal rest
      return (d :: t, ts)
    | .close => do
      let (t, ts) ← scan .literal rest
      return ([], t :: ts)

/-- The failure that a deviation in a format string is. -/
def Deviation.failure (template : Text) : Deviation → Failure
  | .braces e => .braces e
  | .notBare => .fieldNotBare template

/-- The segments of a format string, one more than it has fields. -/
def split (template : Text) : Except Failure (List Text) :=
  match scan .literal template with
  | .ok (t, ts) => .ok (t :: ts)
  | .error d => .error (d.failure template)

end Format

end Splice
