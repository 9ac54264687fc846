import Splice.Text.Quoted
import Splice.Store.Object
/-!
# Failures — what can go wrong, and its wording

A failure is a cause. The causes that are reported to the author of a
generator have a message, and `Failure.message?` is the one place that
words them; the others are only told apart.
-/

namespace Splice

/-- Why a value has no literal. -/
inductive Fault
  /-- A double that is not a number. -/
  | outOfRange
  /-- A whole number of too many digits. -/
  | tooManyDigits
  /-- An object that is not data. -/
  | notData (typeName : Text)
  /-- A key that is neither text nor a scalar. -/
  | badKey (typeName : Text)
  /-- A container that holds itself. -/
  | circular
  /-- Containers nested too deep. -/
  | tooDeep
deriving DecidableEq, Repr

/-- The kinds of error that lie behind a value without a literal. -/
inductive Cause
  /-- A value, or a key, of a kind that is not written. -/
  | kind
  /-- A value of the right kind that cannot be written. -/
  | value
  /-- Values nested too deep. -/
  | depth
deriving DecidableEq, Repr

/-- What is wrong with the braces of a format template. -/
inductive BraceError
  /-- A closing brace that closes nothing. -/
  | closingAlone
  /-- An opening brace at the end. -/
  | openingAtEnd
  /-- An opening brace inside a field name. -/
  | openingInName
  /-- The end inside a field name. -/
  | nameUnclosed
  /-- The end where the conversion should be. -/
  | conversionMissing
  /-- Something other than a colon or the end of the field after the conversion. -/
  | afterConversion
  /-- The end inside a format specification. -/
  | specUnclosed
deriving DecidableEq, Repr

/-- The causes of failure. -/
inductive Failure
  /-- A name was to be made of a value that is no identifier; `shown` is
  the value as the message gives it. -/
  | notIdentifier (rejected : Value) (shown : Text)
  /-- A value of the named type has no literal. -/
  | notEncodable (typeName : Text) (fault : Fault)
  /-- Segments and arguments do not interleave. -/
  | arity (arguments segments : Nat)
  /-- A format template has a field that is not bare. -/
  | fieldNotBare (template : Text)
  /-- The braces of a format template do not match. -/
  | braces (error : BraceError)
  /-- A whole number has too many digits to be printed. -/
  | tooManyDigits
  /-- A value is nested too deep to be printed or compared. -/
  | tooDeep
  /-- A value is of a kind that the operation does not take. -/
  | wrongKind
  /-- A value lacks the member that the operation uses. -/
  | missingMember
  /-- A map lacks a key. -/
  | missingKey
  /-- A sequence lacks a position. -/
  | missingIndex
  /-- An assignment to a value that cannot change. -/
  | frozen
  /-- A number is beyond the range of its kind. -/
  | overflow
  /-- There is no room for a value. -/
  | outOfMemory
  /-- A whole number is no byte. -/
  | notByte
deriving DecidableEq

/-- The wording for a whole number that has too many digits. -/
def tooManyDigitsText : Text :=
  Text.ofString "Exceeds the limit (4300 digits) for integer string conversion; " ++
    "use sys.set_int_max_str_digits() to increase the limit"

namespace Fault

/-- The reason a value has no literal, in words. -/
def reason : Fault → Text
  | outOfRange => "Out of range float values are not JSON compliant"
  | tooManyDigits => tooManyDigitsText
  | notData t => Text.ofString "Object of type " ++ t ++ Text.ofString " is not JSON serializable"
  | badKey t => Text.ofString "keys must be str, int, float, bool or None, not " ++ t
  | circular => "Circular reference detected"
  | tooDeep => "maximum recursion depth exceeded while encoding a JSON object"

/-- The kind of error that lies behind. -/
def cause : Fault → Cause
  | outOfRange | tooManyDigits | circular => .value
  | notData _ | badKey _ => .kind
  | tooDeep => .depth

end Fault

namespace BraceError

/-- What is wrong with the braces, in words. -/
def reason : BraceError → Text
  | closingAlone => "Single '\x7d' encountered in format string"
  | openingAtEnd => "Single '\x7b' encountered in format string"
  | openingInName => "unexpected '\x7b' in field name"
  | nameUnclosed => "expected '\x7d' before end of string"
  | conversionMissing => "end of string while looking for conversion specifier"
  | afterConversion => "expected ':' after conversion specifier"
  | specUnclosed => "unmatched '\x7b' in format spec"

end BraceError

namespace Failure

/-- The message of a failure, if it has one. -/
def message? : Failure → Option Text
  | notIdentifier _ shown =>
    some (Text.ofString "CodeGen: name must be a valid identifier, got " ++ shown)
  | notEncodable t fault =>
    some (Text.ofString "Cannot encode " ++ t ++ Text.ofString " as a literal: " ++ fault.reason)
  | arity arguments segments =>
    some (Text.ofString "Template needs " ++ Text.ofNat (arguments + 1) ++
      Text.ofString " segments for " ++ Text.ofNat arguments ++
      Text.ofString " arguments, got " ++ Text.ofNat segments)
  | fieldNotBare template =>
    some (Text.ofString "Only bare \x7b\x7d fields are supported, got " ++ template.quoted)
  | braces error => some error.reason
  | tooManyDigits => some tooManyDigitsText
  | notByte => some "byte must be in range(0, 256)"
  | _ => none

/-- The kind of error that lies behind a failure, if it comes from another one. -/
def cause? : Failure → Option Cause
  | notEncodable _ fault => some fault.cause
  | _ => none

end Failure

end Splice
