import Splice.Handle
import Splice.Store.Session
/-!
# Handles — tracking values through places

Values at hand are put into objects and read off them again, and are still
the same then. The places that they can be read off are few: the items and
the usage map of a fragment, an assigned text, and the sole element of an
object, since a text that stands alone is not copied when it is rendered.
A `Ledger` remembers the handles of the values at such places. A value
that nobody put there has no handle until it is read, and keeps the one it
gets then for as long as it stays.
-/

namespace Splice

/-- A place that a value can be read off. -/
inductive Place
  /-- The items of a fragment. -/
  | items (r : Ref)
  /-- The usage map of a fragment. -/
  | used (r : Ref)
  /-- The text assigned to an object. -/
  | text (r : Ref)
  /-- The sole element of a list or tuple, or the sole key of a map. -/
  | sole (r : Ref)
deriving DecidableEq

namespace Store

variable (s : Store)

/-- The value at a place, if there is one. -/
def heldAt : Place → Option Value
  | .items r => match s.get r with
    | .fragment items _ _ => some items
    | _ => none
  | .used r => match s.get r with
    | .fragment _ used _ => some used
    | _ => none
  | .text r => match s.get r with
    | .tracked _ text? => text?
    | .foreign _ text? => text?
    | _ => none
  | .sole r => match s.get r with
    | .list [v] => some v
    | .tuple [v] => some v
    | .dict [e] => some e.1
    | _ => none

/-- The place of the sole item of a fragment, or of the sole element of
another object. -/
def solePlace (r : Ref) : Place :=
  match s.get r with
  | .fragment (.object q) _ _ => .sole q
  | _ => .sole r

end Store

/-- The handles of values at places, and the next new mark. -/
structure Ledger where
  /-- The handles, the latest first. -/
  entries : List (Place × Handle)
  /-- A mark that no handle has. -/
  next : Nat

namespace Ledger

/-- The ledger before anything is at hand. -/
def initial : Ledger := ⟨[], Handle.sharedMark + 1⟩

/-- The handle of the value `v` at a place, if it is known. -/
def find? (l : Ledger) (p : Place) (v : Value) : Option Handle :=
  (l.entries.find? fun e => e.1 = p && e.2.value = v).map Prod.snd

/-- The ledger with the handle of the value at one more place. -/
def insert (l : Ledger) (p : Place) (h : Handle) : Ledger := ⟨(p, h) :: l.entries, l.next⟩

/-- The ledger without the handles of values that have gone. -/
def tidy (l : Ledger) (s : Store) : Ledger :=
  ⟨l.entries.filter fun e => s.heldAt e.1 = some e.2.value, l.next⟩

end Ledger

/-- An operation that tracks the values at hand. When it fails, nothing
that it has put anywhere is at hand. -/
abbrev Tracking := StateT Ledger Build

namespace Tracking

/-- A new mark. -/
def mark : Tracking Nat := modifyGet fun l => (l.next, ⟨l.entries, l.next + 1⟩)

/-- The handle of a value that is read or made anew. -/
def read (v : Value) : Tracking Handle := do
  if v.isShared then return .shared v
  let m ← mark
  return ⟨v, m, m⟩

/-- The handle of a text that is put together. Of such texts only the empty
one is kept once. -/
def made (t : Text) : Tracking Handle := do
  if t.isEmpty then return .shared (.text t) else return .ofText t (← mark)

/-- Remembers the handle of the value at a place. Objects are known by
their address. -/
def record (p : Place) (h : Handle) : Tracking Unit := do
  match h.value with
  | .object _ => return ()
  | _ => modify fun l => l.insert p h

/-- The handle of the value at a place, if there is one. -/
def find (p : Place) : Tracking (Option Handle) := do
  match ← Build.ask fun s => s.heldAt p with
  | none => return none
  | some v =>
    match (← get).find? p v with
    | some h => return some h
    | none => do
      let h ← read v
      record p h
      return some h

/-- The handle of the sole item of a fragment, or of the sole element of
another object. -/
def sole (r : Ref) : Tracking (Option Handle) := do find (← Build.ask fun s => s.solePlace r)

/-- Finds out where the sole element of an object comes from: it is the
first of the contributors that is equal to it or has it as the sole
element. An element that was known before stays what it is. -/
def adopt (r : Ref) : List Handle → Tracking Unit
  | [] => return ()
  | c :: cs => do
    let p ← Build.ask fun s => s.solePlace r
    match ← Build.ask fun s => s.heldAt p with
    | none => return ()
    | some v =>
      if ((← get).find? p v).isSome then return ()
      else if c.value = v then record p c
      else match c.value with
        | .object q => do
          match ← sole q with
          | some h => if h.value = v then record p h else adopt r cs
          | none => adopt r cs
        | _ => adopt r cs

/-- The handle of a new object that is made from the given values. -/
def derived (contributors : List Handle) (v : Value) : Tracking Handle := do
  match v with
  | .object r => do
    adopt r contributors
    read v
  | _ => read v

end Tracking

end Splice
