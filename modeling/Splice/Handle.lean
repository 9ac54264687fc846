import Splice.Store.Object
/-!
# Handles — when two values are the same one

An object is the same as another if both are at one address. Names,
numbers and texts are not kept by address, and two of them may be equal
without being the same: one that is read or made anew is not the one that
was there before. So a value at hand is a `Handle`, which adds a mark, and
values at hand are the same if they are equal and have the same mark. Of
some values only one is kept, and these all have one mark.
-/

namespace Splice

/-- A value at hand. -/
structure Handle where
  /-- The value. -/
  value : Value
  /-- What tells the value from others that are equal to it. -/
  mark : Nat
  /-- The mark of the value's text: of the text that a name was made of,
  and of a text itself. -/
  textMark : Nat
deriving Inhabited

/-- Of the truth values, of the whole numbers from -5 to 256, of the empty
text and of each text of one code point below 256 only one is kept. Objects
need no mark either. -/
def Value.isShared : Value → Bool
  | .scalar .null => true
  | .scalar (.bool _) => true
  | .scalar (.int n) => -5 ≤ n && n ≤ 256
  | .scalar (.float _) => false
  | .text [] => true
  | .text [c] => c.toNat < 0x100
  | .text _ => false
  | .name _ => false
  | .object _ => true

/-- Whether objects at different addresses are one all the same: of the
empty sequence that cannot change and of some foreign ones only one is kept. -/
def Object.isSameAs : Object → Object → Bool
  | .tuple [], .tuple [] => true
  | .foreign k _, .foreign l _ => k == l && match k with
    | .builtin | .bytes _ | .complex _ | .ellipsis | .type => true
    | _ => false
  | _, _ => false

namespace Handle

/-- The mark of the values of which only one is kept. -/
def sharedMark : Nat := 0

/-- The handle of a value of which only one is kept. -/
def shared (v : Value) : Handle := ⟨v, sharedMark, sharedMark⟩

/-- The handle of a text with a mark. -/
def ofText (t : Text) (mark : Nat) : Handle := ⟨.text t, mark, mark⟩

/-- Whether two values at hand are the same one. -/
def isSameAs (s : Store) (a b : Handle) : Bool :=
  match a.value, b.value with
  | .object r, .object q => r == q || (s.get r).isSameAs (s.get q)
  | v, w => v == w && a.mark == b.mark

end Handle

end Splice
