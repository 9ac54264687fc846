import Splice.Datum
import Splice.Failure
/-!
# Display — values as messages show them

The display of a value is for people who read messages, and it is also
how a value that is no code item prints inside code. Text is quoted,
containers show their elements, and a container met again below itself is
shown by three dots in its brackets.
-/

namespace Splice

/-- A scalar as messages show it. -/
def Scalar.display : Scalar → Except Failure Text
  | .null => .ok "None"
  | .bool true => .ok "True"
  | .bool false => .ok "False"
  | .int n => if isPrintableInt n then .ok (Text.ofInt n) else .error .tooManyDigits
  | .float x => .ok x.literalText

/-- The mark for a container met again below itself. -/
def Container.displayedAgain : Container → Text
  | .list => "[...]"
  | .tuple => "(...)"
  | .dict => "\x7b...\x7d"
  | .fragment => "..."
  | .tracked => "namespace(...)"

namespace Datum

/-- The greatest depth of nested containers that is displayed, where a
fragment counts three times. -/
def maxDisplayDepth : Nat := 990

/-- The comma between displayed elements. -/
def comma : Text := ", "

/-- The names of the members of an object that carries a usage map. -/
def memberNames : List Text := [Text.ofString "used_names", Text.ofString "text"]

/-- Elements between round brackets; a single one is followed by a comma. -/
def inTuple : List Text → Text
  | [t] => .char '(' :: t ++ Text.ofString ",)"
  | ts => .char '(' :: Text.join comma ts ++ [.char ')']

mutual

/-- The display of a value with at most `depth` containers nested in each other. -/
def displayTo (depth : Nat) : Datum → Except Failure Text
  | .scalar s => s.display
  | .text t => .ok t.quoted
  | .name n => .ok (Text.ofString "Name(" ++ n.text.quoted ++ [.char ')'])
  | .foreign kind => .ok kind.printed
  | .cycle c => .ok c.displayedAgain
  | .deeper => .error .tooDeep
  | .list xs => match depth with
    | 0 => .error .tooDeep
    | depth + 1 => do
      let parts ← displayItems depth xs
      return .char '[' :: Text.join comma parts ++ [.char ']']
  | .tuple xs => match depth with
    | 0 => .error .tooDeep
    | depth + 1 => do
      let parts ← displayItems depth xs
      return inTuple parts
  | .dict es => match depth with
    | 0 => .error .tooDeep
    | depth + 1 => do
      let parts ← displayEntries depth es
      return .char '\x7b' :: Text.join comma parts ++ [.char '\x7d']
  | .fragment items used isExpression => match depth with
    | 0 | 1 | 2 => .error .tooDeep
    | depth + 3 => do
      let items ← displayTo depth items
      let used ← displayTo depth used
      return Text.ofString "Fragment(items=" ++ items ++ Text.ofString ", used_names=" ++ used ++
        Text.ofString ", is_expression=" ++
        Text.ofString (if isExpression then "True)" else "False)")
  | .tracked members => match depth with
    | 0 => .error .tooDeep
    | depth + 1 => do
      let parts ← displayItems depth members
      return Text.ofString "namespace(" ++
        Text.join comma (memberNames.zipWith (· ++ .char '=' :: ·) parts) ++ [.char ')']

/-- The displays of values in a row. -/
def displayItems (depth : Nat) : List Datum → Except Failure (List Text)
  | [] => .ok []
  | x :: xs => do
    let part ← displayTo depth x
    let parts ← displayItems depth xs
    return part :: parts

/-- The displays of entries in a row. -/
def displayEntries (depth : Nat) : List (Datum × Datum) → Except Failure (List Text)
  | [] => .ok []
  | (key, value) :: es => do
    let keyPart ← displayTo depth key
    let part ← displayTo depth value
    let parts ← displayEntries depth es
    return (keyPart ++ Text.ofString ": " ++ part) :: parts

end

/-- A value as messages show it. -/
def display (d : Datum) : Except Failure Text := d.displayTo maxDisplayDepth

end Datum

end Splice
