import Splice.Datum
import Splice.Failure
/-!
# Literals — data as quoted literals

Data goes into generated code as JSON without blanks. It is encoded in
two passes. The first writes the value out: text stands between double
quotes, where quotes, backslashes and control characters are escaped and
everything else is kept. The second goes over what has been written and
escapes what may not stand in source as it is: the line separators U+2028
and U+2029, which end a line in some readers, and surrogates, which
cannot be written out. A value that holds something else than data has no
literal, and the fault reported is the first in the order in which the
value is written, a key before its value.
-/

namespace Splice

/-- The escape of a code point by its number, in four hexadecimal digits. -/
def CodePoint.numbered (c : CodePoint) : Text := Text.ofString "\\u" ++ Text.hex 4 c.toNat

/-- One code point between quotes, as the first pass writes it. -/
def CodePoint.escaped (c : CodePoint) : Text :=
  if c = .char '"' then Text.ofString "\\\""
  else if c = .char '\\' then Text.ofString "\\\\"
  else if c = .char '\n' then Text.ofString "\\n"
  else if c = .char '\r' then Text.ofString "\\r"
  else if c = .char '\t' then Text.ofString "\\t"
  else if c = .char '\x08' then Text.ofString "\\b"
  else if c = .char '\x0c' then Text.ofString "\\f"
  else if c.toNat < 0x20 then c.numbered
  else [c]

/-- A text between quotes, as the first pass writes it. -/
def Text.encoded (t : Text) : Text :=
  .char '"' :: t.flatMap CodePoint.escaped ++ [.char '"']

/-- Whether a code point may not stand in source as it is. -/
def CodePoint.isBarred (c : CodePoint) : Bool :=
  c.toNat == 0x2028 || c.toNat == 0x2029 || c.isSurrogate

/-- One code point of what has been written, as the second pass leaves it. -/
def CodePoint.cleared (c : CodePoint) : Text := if c.isBarred then c.numbered else [c]

/-- What has been written, as the second pass leaves it. -/
def Text.cleared (t : Text) : Text := t.flatMap CodePoint.cleared

/-- A text as a literal. -/
def Text.literal (t : Text) : Text := t.encoded.cleared

/-- A scalar, as the first pass writes it. -/
def Scalar.encode : Scalar → Except Fault Text
  | .null => .ok "null"
  | .bool true => .ok "true"
  | .bool false => .ok "false"
  | .int n => if isPrintableInt n then .ok (Text.ofInt n) else .error .tooManyDigits
  | .float x => if x.isFinite then .ok x.literalText else .error .outOfRange

namespace Datum

/-- The greatest depth of nested containers that has a literal. -/
def maxDepth : Nat := 990

/-- The text of a key: its own if it is text, what is written for a scalar. -/
def keyText : Datum → Except Fault Text
  | .text t => .ok t
  | .scalar s => s.encode
  | d => .error (.badKey d.typeName)

mutual

/-- A value with at most `depth` containers nested in each other, as the
first pass writes it. -/
def encodeTo (depth : Nat) : Datum → Except Fault Text
  | .scalar s => s.encode
  | .text t => .ok t.encoded
  | .list xs => match depth with
    | 0 => .error .tooDeep
    | depth + 1 => do
      let parts ← encodeItems depth xs
      return .char '[' :: Text.join [.char ','] parts ++ [.char ']']
  | .tuple xs => match depth with
    | 0 => .error .tooDeep
    | depth + 1 => do
      let parts ← encodeItems depth xs
      return .char '[' :: Text.join [.char ','] parts ++ [.char ']']
  | .dict es => match depth with
    | 0 => .error .tooDeep
    | depth + 1 => do
      let parts ← encodeEntries depth es
      return .char '\x7b' :: Text.join [.char ','] parts ++ [.char '\x7d']
  | .cycle .fragment => .error (.notData Container.fragment.typeName)
  | .cycle .tracked => .error (.notData Container.tracked.typeName)
  | .cycle _ => .error .circular
  | .deeper => .error .tooDeep
  | .name n => .error (.notData (typeName (.name n)))
  | .fragment .. => .error (.notData Container.fragment.typeName)
  | .tracked _ => .error (.notData Container.tracked.typeName)
  | .foreign kind => .error (.notData kind.typeName)

/-- Values in a row, as the first pass writes them. -/
def encodeItems (depth : Nat) : List Datum → Except Fault (List Text)
  | [] => .ok []
  | x :: xs => do
    let part ← encodeTo depth x
    let parts ← encodeItems depth xs
    return part :: parts

/-- Entries in a row, each a key, a colon and a value, as the first pass
writes them. -/
def encodeEntries (depth : Nat) : List (Datum × Datum) → Except Fault (List Text)
  | [] => .ok []
  | (key, value) :: es => do
    let keyPart ← key.keyText
    let part ← encodeTo depth value
    let parts ← encodeEntries depth es
    return (keyPart.encoded ++ .char ':' :: part) :: parts

end

/-- The literal of a value. -/
def encode (d : Datum) : Except Fault Text := (d.encodeTo maxDepth).map Text.cleared

end Datum

end Splice
