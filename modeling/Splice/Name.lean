import Splice.Text.CodePoint
/-!
# Names — identifiers of the generated program

A name is a live reference to a variable of the generated program. It is
an ASCII letter, underscore or dollar sign followed by such characters
and digits, and a `Name` carries the proof that its text is one.
-/

namespace Splice

namespace CodePoint

/-- Whether a code point may begin an identifier. -/
def isIdentifierStart : CodePoint → Bool
  | .char c => c.isAlpha || c == '_' || c == '$'
  | .surrogate _ => false

/-- Whether a code point may follow in an identifier. -/
def isIdentifierPart : CodePoint → Bool
  | .char c => c.isAlphanum || c == '_' || c == '$'
  | .surrogate _ => false

end CodePoint

/-- Whether a text is a bare identifier. -/
def Text.isIdentifier : Text → Bool
  | [] => false
  | c :: cs => c.isIdentifierStart && cs.all CodePoint.isIdentifierPart

/-- A validated identifier. -/
structure Name where
  /-- The identifier. -/
  text : Text
  isIdentifier : text.isIdentifier = true
deriving DecidableEq

namespace Name

/-- The name of a text, if the text is an identifier. -/
def ofText? (t : Text) : Option Name :=
  if h : t.isIdentifier = true then some ⟨t, h⟩ else none

@[ext] theorem ext {a b : Name} (h : a.text = b.text) : a = b := by
  cases a; cases b; cases h; rfl

theorem ofText?_eq_some_iff {t : Text} {n : Name} : ofText? t = some n ↔ n.text = t := by
  constructor
  · intro h
    unfold ofText? at h
    split at h
    · rw [← Option.some.inj h]
    · cases h
  · rintro rfl
    simp [ofText?, n.isIdentifier]

end Name

end Splice
