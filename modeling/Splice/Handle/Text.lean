import Splice.Handle.Tracking
import Splice.Fragment
/-!
# Handles — the texts of values at hand

A text that is put together is a new one. But a name and a text answer the
very text they were made of, a fragment answers that of its item if it has
only one, and an assigned text is answered itself. Truth values, missing
values and some other scalars are written as words, and of each word only
one is kept; so it is with the literals of empty containers.
-/

namespace Splice

/-- Whether a scalar is written as a word in code. -/
def Scalar.isWord : Scalar → Bool
  | .null => true
  | .bool _ => true
  | .int _ => false
  | .float x => !x.isFinite

/-- Whether only one literal is kept of all values that look like this one. -/
def Store.hasSharedLiteral (s : Store) : Value → Bool
  | .scalar .null => true
  | .scalar (.bool _) => true
  | .object r => match s.get r with
    | .list [] | .tuple [] | .dict [] => true
    | _ => false
  | _ => false

namespace Tracking

/-- The mark of the text that a value renders as, unless that is put
together anew. Fragments are followed into each other so many times. -/
def ownMark : Nat → Handle → Tracking (Option Nat)
  | 0, _ => return none
  | fuel + 1, h => do
    match h.value with
    | .name _ => return some h.textMark
    | .text _ => return some h.textMark
    | .scalar c => return if c.isWord then some Handle.sharedMark else none
    | .object r => do
      match ← Build.load r with
      | .fragment .. => do
        match ← sole r with
        | some item => ownMark fuel item
        | none => return none
      | _ => return none

/-- The handle of the text `t` that a value renders as. -/
def rendered (h : Handle) (t : Text) : Tracking Handle := do
  match ← ownMark Store.maxNesting h with
  | some m => return .ofText t m
  | none => made t

/-- The handle of the text `t` that messages show a value as. -/
def shown (h : Handle) (t : Text) : Tracking Handle := do
  match h.value with
  | .scalar (.bool _) => return .shared (.text t)
  | _ => made t

/-- The handle of the literal `t` of a value. -/
def encoded (h : Handle) (t : Text) : Tracking Handle := do
  if ← Build.ask fun s => s.hasSharedLiteral h.value then return .shared (.text t) else made t

/-- The literal of a value of which only one is kept. -/
def sharedLiteral? (h : Handle) : Tracking (Option Handle) := do
  if ← Build.ask fun s => s.hasSharedLiteral h.value then
    return some (.shared (.text (← Build.literal h.value)))
  else return none

/-- A value as code. -/
def render (h : Handle) : Tracking Handle := do
  rendered h (← Build.read fun s => s.render h.value)

/-- The text of a value in a report. -/
def plainText (h : Handle) : Tracking Handle := do
  let t ← Build.read fun s => s.plainText h.value
  match h.value with
  | .scalar _ => shown h t
  | _ => rendered h t

/-- A value as messages show it. -/
def display (h : Handle) : Tracking Handle := do
  shown h (← Build.read fun s => s.display h.value)

/-- The literal of a value. -/
def literal (h : Handle) : Tracking Handle := do encoded h (← Build.literal h.value)

/-- The text of a value: that of a code value, or one that was assigned. -/
def textOf (h : Handle) : Tracking Handle := do
  match ← Build.read fun s => s.textOf h.value, h.value with
  | .text t, .object r => do
    match ← find (.text r) with
    | some assigned => return assigned
    | none => rendered h t
  | .text t, _ => rendered h t
  | v, .object r => return (← find (.text r)).getD (← read v)
  | v, _ => read v

/-- Assigns the text of a value. -/
def setText (h text : Handle) : Tracking Unit := do
  Build.setText h.value text.value
  match h.value with
  | .object r => record (.text r) text
  | _ => return ()

end Tracking

end Splice
