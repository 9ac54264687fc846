/-!
# Text — sequences of code points, surrogates included

Generated source and the data spliced into it are sequences of code
points. A code point is a Unicode scalar value or a surrogate: data may
hold a surrogate that stands alone, and the encoder has to see it in
order to escape it, so a `String` is not enough. `units` is the reading
of a text as UTF-16 code units, where a high and a low surrogate in a row
are the same as the character they stand for.
-/

namespace Splice

/-- A code point: a scalar value, or the surrogate `0xD800 + n`. -/
inductive CodePoint
  /-- A Unicode scalar value. -/
  | char (c : Char)
  /-- A surrogate, counted from `0xD800`. -/
  | surrogate (n : Fin 2048)
deriving DecidableEq, Repr, Inhabited

/-- A text is a list of code points. -/
abbrev Text := List CodePoint

namespace CodePoint

instance : Coe Char CodePoint := ⟨.char⟩

/-- The number of a code point. -/
def toNat : CodePoint → Nat
  | .char c => c.toNat
  | .surrogate n => 0xD800 + n

/-- The code point of a number, if it has one. -/
def ofNat? (n : Nat) : Option CodePoint :=
  if h : 0xD800 ≤ n ∧ n < 0xE000 then some (.surrogate ⟨n - 0xD800, by omega⟩)
  else if n < 0x110000 then some (.char (Char.ofNat n))
  else none

/-- Whether a code point is a surrogate. -/
def isSurrogate : CodePoint → Bool
  | .char _ => false
  | .surrogate _ => true

/-- The scalar value of a code point that is one. -/
def char? : CodePoint → Option Char
  | .char c => some c
  | .surrogate _ => none

/-- The UTF-16 code units of one code point. -/
def units (c : CodePoint) : List Nat :=
  if c.toNat < 0x10000 then [c.toNat]
  else [0xD800 + (c.toNat - 0x10000) / 0x400, 0xDC00 + (c.toNat - 0x10000) % 0x400]

end CodePoint

/-- The text of a string. -/
def Text.ofString (s : String) : Text := s.toList.map .char

instance : Coe String Text := ⟨Text.ofString⟩

/-- A text as UTF-16 code units. -/
def Text.units (t : Text) : List Nat := t.flatMap CodePoint.units

/-- The text as a string, unless it holds a surrogate. -/
def Text.toString? (t : Text) : Option String :=
  (t.mapM CodePoint.char?).map String.ofList

/-- The order of texts by code point, an initial part first. -/
def Text.le : Text → Text → Bool
  | [], _ => true
  | _ :: _, [] => false
  | a :: s, b :: t => a.toNat < b.toNat || (a.toNat == b.toNat && Text.le s t)

/-- The texts one after the other, `separator` between neighbours. -/
def Text.join (separator : Text) : List Text → Text
  | [] => []
  | [t] => t
  | t :: ts => t ++ separator ++ Text.join separator ts

@[simp] theorem Text.join_nil (separator : Text) : Text.join separator [] = [] := rfl

@[simp] theorem Text.join_singleton (separator t : Text) : Text.join separator [t] = t := rfl

theorem Text.join_cons_cons (separator t u : Text) (ts : List Text) :
    Text.join separator (t :: u :: ts) = t ++ separator ++ Text.join separator (u :: ts) := rfl

/-- Lower-case hexadecimal digits of `n`, at least `width` of them. -/
def Text.hex (width n : Nat) : Text :=
  let digits := Nat.toDigits 16 n
  (List.replicate (width - digits.length) '0' ++ digits).map CodePoint.char

end Splice
