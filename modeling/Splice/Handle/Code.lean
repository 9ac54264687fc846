import Splice.Handle.Text
import Splice.Template
/-!
# Handles — code made of values at hand

Names and fragments that are made of values at hand, and the values that
are read off them again. An operation that answers one of its arguments
answers the very value that it was given.
-/

namespace Splice

namespace Tracking

/-- A list of values. -/
def list (hs : List Handle) : Tracking Handle := do
  derived hs (← Build.alloc (.list (hs.map Handle.value)))

/-- A sequence of values that cannot change. -/
def tuple (hs : List Handle) : Tracking Handle := do
  derived hs (← Build.alloc (.tuple (hs.map Handle.value)))

/-- The name of a text, which keeps the text. -/
def name (h : Handle) : Tracking Handle := do
  return ⟨← Build.name h.value, ← mark, h.textMark⟩

/-- A new fragment. -/
def fragment (items used : Handle) (isExpression : Bool) : Tracking Handle := do
  let v ← Build.fragment items.value used.value isExpression
  match v with
  | .object r => do
    record (.items r) items
    record (.used r) used
    derived [items] v
  | _ => read v

/-- The literal of a value as a fragment. -/
def literalFragment (h : Handle) : Tracking Handle := do
  let v ← Build.literalFragment h.value
  match v with
  | .object r => do
    let p ← Build.ask fun s => s.solePlace r
    match ← Build.ask fun s => s.heldAt p with
    | some (.text t) => record p (← encoded h t)
    | _ => pure ()
    read v
  | _ => read v

/-- What an argument goes in as: itself, or its literal if it is data. -/
def argument (h : Handle) : Tracking Handle := do
  match ← Build.argument h.value with
  | .text t => encoded h t
  | _ => return h

/-- What an argument of a string expression goes in as. A list of elements
joined by commas is a text put together. -/
def operand (h : Handle) : Tracking Handle := do
  match ← Build.operand h.value with
  | .text t => do
    if (← Build.ask fun s => s.listed? h.value).isSome then made t else encoded h t
  | _ => return h

/-- Where the names that a value uses come from: the text of a name, or the
usage map that an object carries. -/
def usesOf (h : Handle) : Tracking (Option Handle) := do
  match h.value with
  | .name n => return some (.ofText n.text h.textMark)
  | .object r => do
    match ← Build.load r with
    | .fragment _ used _ => return some (.shared used)
    | .tracked used _ => return some (.shared used)
    | _ => return none
  | _ => return none

/-- Adds the uses of `source`, times a factor, to the map `into`. -/
def countUses (source into : Handle) (factor : Int) : Tracking Unit := do
  Build.countUses source.value into.value factor
  match into.value with
  | .object r => adopt r (← usesOf source).toList
  | _ => return ()

/-- The handle of a fragment that is put together from the given values
and uses what the arguments use. -/
def assembled (contributors args : List Handle) (v : Value) : Tracking Handle := do
  match v with
  | .object r => do
    match ← Build.load r with
    | .fragment _ (.object used) _ => adopt used (← args.filterMapM usesOf)
    | _ => pure ()
    derived contributors v
  | _ => read v

/-- A fragment of code. A sole item is the first segment. A text that
stands for its code points has no segments of its own. -/
def code (segments : Handle) (args : List Handle) : Tracking Handle := do
  let v ← Build.code (← Build.read fun _ => Segments.ofValue segments.value)
    (args.map Handle.value)
  match segments.value with
  | .object _ => assembled [segments] args v
  | _ => assembled [] args v

/-- The handle of a string expression. A sole item is the item of an
argument, or the literal of an argument or of the first segment. -/
def joined (segments : List Handle) (args : List Handle) (v : Value) : Tracking Handle := do
  let literals ← (segments ++ args).filterMapM sharedLiteral?
  assembled (args ++ literals) args v

/-- A string expression. -/
def expression (segments : Handle) (args : List Handle) : Tracking Handle := do
  let v ← Build.expression (← Build.read fun _ => Segments.ofValue segments.value)
    (args.map Handle.value)
  match segments.value with
  | .object r => joined (← sole r).toList args v
  | _ => joined [] args v

/-- A list of the segments of a format template. A template without
braces is its own segment. -/
def formatSegments (template : Handle) : Tracking Handle := do
  let ts ← Build.formatSegments template.value
  derived [template] (← Build.alloc (.list (ts.map .text)))

/-- A fragment of code by a format template. -/
def codeOfFormat (template : Handle) (args : List Handle) : Tracking Handle := do
  assembled [template] args (← Build.codeOfFormat template.value (args.map Handle.value))

/-- A string expression by a format template. -/
def expressionOfFormat (template : Handle) (args : List Handle) : Tracking Handle := do
  joined [] args (← Build.expressionOfFormat template.value (args.map Handle.value))

/-- The concatenation of two string expressions. -/
def concat (a b : Handle) : Tracking Handle := do
  let v ← Build.concat a.value b.value
  if v = a.value then return a else if v = b.value then return b else assembled [] [a, b] v

/-- Folds a code value in place and answers it. -/
def foldCode (h : Handle) : Tracking Handle := do
  let _ ← Build.foldCode h.value
  return h

/-- The items of a fragment. -/
def itemsOf (h : Handle) : Tracking Handle := do
  let v ← Build.read fun s => s.itemsOf h.value
  match h.value with
  | .object r => return (← find (.items r)).getD (← read v)
  | _ => read v

/-- The usage map of a code value. -/
def usage (h : Handle) : Tracking Handle := do
  let v ← Build.usage h.value
  match h.value with
  | .name n => derived [.ofText n.text h.textMark] v
  | .object r => return (← find (.used r)).getD (← read v)
  | _ => read v

/-- Pushes the items of a code value onto a list. -/
def pushOnto (h target : Handle) : Tracking Unit := do
  Build.pushOnto h.value target.value
  match target.value with
  | .object r => adopt r [h]
  | _ => return ()

end Tracking

end Splice
