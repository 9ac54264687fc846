import Splice.Item
import Splice.Number.Complex
import Splice.Text.Bytes
/-!
# Store — the objects that values refer to

Lists, maps and fragments are mutable and shared: a list kept by a
fragment is the caller's list, and folding it shows through every
reference. So values refer to objects by `Ref`, and a `Store` holds what
each reference stands for. Address 0 is the shared empty fragment, whose
item list is at address 1.
-/

namespace Splice

/-- A reference to an object of the store. -/
structure Ref where
  /-- The object's address. -/
  address : Nat
deriving DecidableEq, Repr, Inhabited

/-- A value: an item that may refer to an object. -/
abbrev Value := Item Ref

/-- An object that is neither data nor code. Some hold bytes or a number,
the others look all alike. -/
inductive Foreign
  | object
  | function
  | builtin
  /-- The set whose only element is one, which can change. -/
  | set
  /-- The set whose only element is one, which cannot change. -/
  | frozenSet
  /-- Bytes, which cannot change. -/
  | bytes (content : Bytes)
  /-- Bytes, which can change. -/
  | byteArray (content : Bytes)
  /-- A complex value. -/
  | complex (value : ComplexDouble)
  /-- The whole numbers from zero up to three, three left out. -/
  | range
  | ellipsis
  /-- The type of whole numbers. -/
  | type
deriving DecidableEq, Repr, Inhabited

namespace Foreign

/-- The name of the kind, as messages give it. -/
def typeName : Foreign → Text
  | object => "object"
  | function => "function"
  | builtin => "builtin_function_or_method"
  | set => "set"
  | frozenSet => "frozenset"
  | bytes _ => "bytes"
  | byteArray _ => "bytearray"
  | complex _ => "complex"
  | range => "range"
  | ellipsis => "ellipsis"
  | type => "type"

/-- The text an object prints as. -/
def printed : Foreign → Text
  | object => "<object>"
  | function => "<function>"
  | builtin => "<built-in function>"
  | set => "\x7b1\x7d"
  | frozenSet => "frozenset(\x7b1\x7d)"
  | bytes content => content.quoted
  | byteArray content => Text.ofString "bytearray(" ++ content.quoted ++ [.char ')']
  | complex value => value.text
  | range => "range(0, 3)"
  | ellipsis => "Ellipsis"
  | type => "<class 'int'>"

/-- The whole numbers an object holds, in order, if it is made of any. -/
def elements? : Foreign → Option (List Int)
  | set | frozenSet => some [1]
  | bytes content | byteArray content => some (content.map fun b => (b.toNat : Int))
  | range => some [0, 1, 2]
  | _ => none

/-- Whether the elements can be reached by position. -/
def isIndexed : Foreign → Bool
  | bytes _ | byteArray _ | range => true
  | _ => false

/-- Whether an object counts as true: a zero and empty bytes do not. -/
def isTruthy : Foreign → Bool
  | bytes content | byteArray content => !content.isEmpty
  | complex value => !value.isZero
  | _ => true

end Foreign

/-- An object of the store. -/
inductive Object
  /-- A list, which can change. -/
  | list (items : List Value)
  /-- A sequence that cannot change. -/
  | tuple (items : List Value)
  /-- A map, as its entries in order of insertion. -/
  | dict (entries : List (Value × Value))
  /-- A fragment of code: its items, the map of the names it uses, and
  whether it is a string expression. -/
  | fragment (items used : Value) (isExpression : Bool)
  /-- An object that is not code but carries a usage map, and a text once
  one is assigned. -/
  | tracked (used : Value) (text? : Option Value)
  /-- An object that is neither data nor code. Functions keep a text once
  one is assigned. -/
  | foreign (kind : Foreign) (text? : Option Value)
deriving Inhabited

/-- The objects by address. -/
structure Store where
  /-- The object at each address. -/
  objects : Array Object
deriving Inhabited

namespace Store

variable (s : Store)

/-- The object a reference stands for. -/
def get (r : Ref) : Object := s.objects.getD r.address (.foreign .object none)

/-- The store with another object at an address. -/
def set (r : Ref) (o : Object) : Store := ⟨s.objects.setIfInBounds r.address o⟩

/-- The store with one more object. -/
def push (o : Object) : Store := ⟨s.objects.push o⟩

/-- The reference the next object gets. -/
def next : Ref := ⟨s.objects.size⟩

/-- The reference of the shared empty fragment. -/
def nilRef : Ref := ⟨0⟩

/-- The reference of the item list of the shared empty fragment. -/
def nilItems : Ref := ⟨1⟩

/-- The store that holds nothing but the shared empty fragment. -/
def initial : Store :=
  ⟨#[.fragment (.object nilItems) (.scalar .null) false, .list [.text []]]⟩

/-- Whether a reference stands for an object of the store. -/
def Live (r : Ref) : Prop := r.address < s.objects.size

variable {s} {r r' : Ref} {o : Object}

theorem get_set_self (h : s.Live r) : (s.set r o).get r = o := by
  simp [get, set, Array.getD_eq_getD_getElem?, Array.getElem?_setIfInBounds_self_of_lt h]

theorem get_set_ne (h : r ≠ r') : (s.set r o).get r' = s.get r' := by
  have : r.address ≠ r'.address := fun e => h (by cases r; cases r'; simp_all)
  simp [get, set, Array.getD_eq_getD_getElem?, Array.getElem?_setIfInBounds_ne this]

theorem get_push_live (h : s.Live r) : (s.push o).get r = s.get r := by
  simp [get, push, Array.getD_eq_getD_getElem?, Array.getElem?_push, Nat.ne_of_lt h]

theorem get_push_next : (s.push o).get s.next = o := by
  simp [get, push, next, Array.getD_eq_getD_getElem?]

end Store

/-- The fragment that holds the one empty text, shared by everything built from it. -/
def nil : Value := .object Store.nilRef

end Splice
