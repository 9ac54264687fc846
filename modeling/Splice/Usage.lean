import Splice.Amount
/-!
# Usage — how often names are used

A usage map counts the uses of each name, in order of first use. Adding a
source to a map adds every count of the source, times a factor; a name
that the map lacks starts from zero, and a missing or empty count adds
nothing but the name.
-/

namespace Splice

/-- A usage map: names and their counts, in order of first use. -/
abbrev Usage := List (Value × Value)

namespace Usage

variable (s : Store)

/-- Puts a value under a key, in the place of the old value or at the end. -/
def put (key value : Value) : Usage → Usage
  | [] => [(key, value)]
  | e :: es => if s.sameKey e.1 key then (e.1, value) :: es else e :: put key value es

/-- The count of a key, zero if it is not there. -/
def count (key : Value) (m : Usage) : Value :=
  match s.valueAt m key with
  | .ok v => v
  | .error _ => .scalar (.int 0)

/-- The sum of the count of a key and another count times a factor. The
product comes first. -/
def total (factor : Int) (key count : Value) (m : Usage) : Except Failure Amount := do
  let product ← (← s.countedAmount count).times factor
  (← s.amount (m.count s key)).plus product

end Usage

namespace Store

variable (s : Store)

/-- The counts in the usage map that a value carries; a value that counts
as false carries none. The items of a fragment are no counts. -/
def countsIn (used : Value) : Except Failure Usage :=
  if s.isTruthy used then
    match used with
    | .object r => match s.get r with
      | .dict es => .ok es
      | .fragment .. => .error .wrongKind
      | _ => .error .missingMember
    | _ => .error .missingMember
  else .ok []

/-- The names that a value uses, with their counts: a name uses itself
once, and an object with a usage map what the map counts. -/
def usesOf : Value → Except Failure Usage
  | .name n => .ok [(.text n.text, .scalar (.int 1))]
  | .object r => match s.get r with
    | .fragment _ used _ => s.countsIn used
    | .tracked used _ => s.countsIn used
    | _ => .ok []
  | _ => .ok []

end Store

namespace Build

/-- A usage map with a count, times a factor, added under its key. -/
def addCount (factor : Int) (m : Usage) (entry : Value × Value) : Build Usage := do
  let total ← ofAmount (← read fun s => m.total s factor entry.1 entry.2)
  ask fun s => m.put s entry.1 total

/-- A usage map with the uses of a value added, one after the other. -/
def addUses (m : Usage) (source : Value) : Build Usage := do
  (← read fun s => s.usesOf source).foldlM (addCount 1) m

/-- Adds a count, times a factor, to the map `into` under its key. -/
def addCountTo (into : Value) (factor : Int) (entry : Value × Value) : Build Unit := do
  match into with
  | .object r => do
    match ← load r with
    | .dict es => write r (.dict (← addCount factor es entry))
    | _ => throw .missingMember
  | _ => throw .missingMember

/-- Adds the uses of `source`, times a factor, to the map `into`. They are
added one after the other, and those before a failure stay added. With a
source that uses nothing, `into` may be any value. -/
def countUses (source into : Value) (factor : Int) : Build Unit := do
  (← read fun s => s.usesOf source).forM (addCountTo into factor)

/-- The usage map of a code value: a new one for a name, the map that a
fragment carries, and none for anything else. -/
def usage (v : Value) : Build Value := do
  match v with
  | .name n => alloc (.dict [(.text n.text, .scalar (.int 1))])
  | .object r => do
    match ← load r with
    | .fragment _ used _ => return used
    | _ => return .scalar .null
  | _ => return .scalar .null

end Build

end Splice
