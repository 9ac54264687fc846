import Splice.Item.Fold
import Splice.Datum.Literal
import Splice.Usage
/-!
# Fragments — pieces of generated source

A fragment holds a list of items, the map of the names they use, and
whether it is a string expression. Names and fragments are the code
values: they have a text, they can be pushed onto a list of items, and
they say whether they are empty. Folding works in place, on the list that
the fragment holds.
-/

namespace Splice

namespace Store

variable (s : Store)

/-- The text of a code value. -/
def codeText : Value → Except Failure Text
  | .name n => .ok n.text
  | .object r => match s.get r with
    | .fragment .. => s.print r
    | _ => .error .missingMember
  | _ => .error .missingMember

/-- The text of a value: that of a code value, or one that was assigned. -/
def textOf : Value → Except Failure Value
  | .object r => match s.get r with
    | .tracked _ (some text) => .ok text
    | .foreign _ (some text) => .ok text
    | _ => (s.codeText (.object r)).map .text
  | v => (s.codeText v).map .text

/-- Whether a code value renders as nothing or as the empty literal. A
name never does. -/
def isEmpty : Value → Except Failure Bool
  | .name _ => .ok false
  | v => do
    let t ← s.codeText v
    return t == [] || t == Text.literal []

/-- Whether a code value is a string expression. -/
def isExpression : Value → Except Failure Bool
  | .name _ => .ok false
  | .object r => match s.get r with
    | .fragment _ _ isExpression => .ok isExpression
    | _ => .error .missingMember
  | _ => .error .missingMember

/-- Whether a value is a name or a fragment. -/
def isCode : Value → Bool
  | .name _ => true
  | .object r => match s.get r with
    | .fragment .. => true
    | _ => false
  | _ => false

/-- The items of a fragment, as the value it holds. -/
def itemsOf : Value → Except Failure Value
  | .object r => match s.get r with
    | .fragment items _ _ => .ok items
    | _ => .error .missingMember
  | _ => .error .missingMember

/-- Looks for the first merge in items that cannot be changed, the item at
each position being given; a merge there is a failure. -/
def scanFixed (item : Nat → Except Failure Value) : List Nat → Except Failure Unit
  | [] => .ok ()
  | i :: is => do
    if (← item i).isPlus then
      match ← Item.merge? s.print (← item (i - 1)) (← item (i + 1)) with
      | some _ => throw .wrongKind
      | none => scanFixed item is
    else scanFixed item is

/-- The positions between the first and the last of `n`. -/
def innerPositions (n : Nat) : List Nat := List.range' 1 (n - 2)

/-- Looks for the first merge in items given as a list that cannot be changed. -/
def scanList (xs : List Value) : Except Failure Unit :=
  let items := xs.toArray
  s.scanFixed (fun i => match items[i]? with
    | some x => .ok x
    | none => .error .missingIndex) (innerPositions xs.length)

/-- Looks for the first merge in the values of a map under the keys 0, 1, 2 and so on. -/
def scanEntries (es : Usage) : Except Failure Unit :=
  s.scanFixed (fun i => s.valueAt es (.scalar (.int i))) (innerPositions es.length)

end Store

namespace Build

/-- A new fragment. Text as items stands for a list with that one text; a
list is kept, not copied. -/
def fragment (items used : Value) (isExpression : Bool) : Build Value := do
  match items with
  | .text t => do
    let list ← alloc (.list [.text t])
    alloc (.fragment list used isExpression)
  | _ => alloc (.fragment items used isExpression)

/-- Folds the constant concatenations of a value's elements in place, and
answers how many merges were made. Only a list can be changed. When the
fold fails on the way, the merges made before stay made. -/
def foldItems (v : Value) : Build Nat := do
  match v with
  | .text t => do
    read fun s => s.scanList (t.map fun c => .text [c])
    return 0
  | .object r => do
    match ← load r with
    | .list xs => do
      let folded ← ask fun s => fold (fun now q => (s.set r (.list now)).print q) xs
      write r (.list folded.items)
      match folded.failure? with
      | none => return folded.merges
      | some e => throw e
    | .tuple xs => do
      read fun s => s.scanList xs
      return 0
    | .dict es => do
      read fun s => s.scanEntries es
      return 0
    | .foreign kind _ => if kind.elements?.isSome then return 0 else throw .wrongKind
    | _ => throw .wrongKind
  | _ => throw .wrongKind

/-- How many elements a value has. -/
def elementCount (v : Value) : Build Nat := read fun s => (s.elements v).map List.length

/-- Folds a code value in place and answers it. A name is left as it is. -/
def foldCode (v : Value) : Build Value := do
  match v with
  | .name _ => return v
  | _ => do
    let items ← read fun s => s.itemsOf v
    let merges ← foldItems items
    if merges != 0 then
      report (.folded merges (← elementCount items))
    return v

/-- What a list gains when a code value is pushed onto it: a name itself,
the items of a fragment as they are now. -/
def pushed (v : Value) : Build (List Value) := do
  match v with
  | .name _ => return [v]
  | _ => elements (← read fun s => s.itemsOf v)

/-- The byte that a value stands for. -/
def byte : Value → Build UInt8
  | .scalar (.bool b) => return if b then 1 else 0
  | .scalar (.int n) => if 0 ≤ n ∧ n < 256 then return n.toNat.toUInt8 else throw .notByte
  | _ => throw .wrongKind

/-- Pushes the items of a code value onto a list. A fragment that is
pushed onto its own list repeats what the list held. Bytes that can change
take in items too if all of them are bytes. -/
def pushOnto (v target : Value) : Build Unit := do
  match target with
  | .object r => do
    match ← load r with
    | .list old => do
      let new ← pushed v
      write r (.list (old ++ new))
    | .foreign (.byteArray old) text? => do
      let new ← (← pushed v).mapM byte
      write r (.foreign (.byteArray (old ++ new)) text?)
    | _ => throw .missingMember
  | _ => throw .missingMember

/-- Assigns the text of a value. A name cannot change, and the text of a
fragment is computed from its items; functions, and objects that carry a
usage map, keep the text. -/
def setText (v text : Value) : Build Unit := do
  match v with
  | .name _ => throw .frozen
  | .object r => do
    match ← load r with
    | .tracked used _ => write r (.tracked used (some text))
    | .foreign .function _ => write r (.foreign .function (some text))
    | .foreign .type _ => throw .wrongKind
    | _ => throw .missingMember
  | _ => throw .missingMember

/-- The literal of a value. A value that has none is reported first. -/
def literal (v : Value) : Build Text := fun σ =>
  let d := σ.store.datum v
  match d.encode with
  | .ok t => .ok t σ
  | .error fault =>
    .error (.notEncodable d.typeName fault) ⟨σ.store, σ.log ++ [.encodingFailed d.typeName fault]⟩

/-- The literal of a value as a fragment. -/
def literalFragment (v : Value) : Build Value := do
  let t ← literal v
  fragment (.text t) (.scalar .null) false

end Build

end Splice
