import Splice.Template
/-!
# Validators — an example of generated source

From a schema, a map with the required properties and the greatest
lengths, this generates the source of a function that collects error
messages about its argument. It also lists how often the function uses
each name.
-/

namespace Splice

namespace Validator

open Build

/-- A check that a required property is present. -/
def presenceCheck (data errors prop : Value) : Build Value := do
  let access ← property prop
  let message ← expression (.ofStrings ["missing property '", "'"]) [prop]
  code (.ofStrings ["if (", "", " === undefined) ", ".push(", ");\n"])
    [data, access, errors, message]

/-- A check that a property is not longer than a limit. The message ends
in the length that the property has when the generated program runs. -/
def lengthCheck (data errors prop limit : Value) : Build Value := do
  let value ← code (.ofStrings ["", "", ""]) [data, ← property prop]
  let fixed ← expression (.ofStrings ["", " must be at most ", " characters, got "]) [prop, limit]
  let length ← code (.ofStrings ["", ".length"]) [value]
  let message ← concat fixed (← expression (.ofStrings ["", ""]) [length])
  code (.ofStrings ["if (", ".length > ", ") ", ".push(", ");\n"]) [value, limit, errors, message]

/-- The value of a schema under a key. -/
def field (schema : Value) (key : String) : Build Value :=
  read fun s => match schema with
    | .object r => match s.get r with
      | .dict es => s.valueAt es (.text (Text.ofString key))
      | _ => .error .wrongKind
    | _ => .error .wrongKind

/-- The entries of a map. The items of a fragment are none. -/
def entries (v : Value) : Build (List (Value × Value)) :=
  read fun s => match v with
    | .object r => match s.get r with
      | .dict es => .ok es
      | .fragment .. => .error .wrongKind
      | _ => .error .missingMember
    | _ => .error .missingMember

/-- Adds the checks for the required properties from position `i` on to a
body, at most so many. Each property is read when its turn comes: a list of
properties may be folded while it is gone through. -/
def addPresence (data errors required : Value) : Nat → Nat → Value → Build Value
  | 0, _, body => return body
  | count + 1, i, body => do
    match (← elements required)[i]? with
    | none => return body
    | some prop => do
      let check ← presenceCheck data errors prop
      let body ← code (.ofStrings ["", "", ""]) [body, check]
      addPresence data errors required count (i + 1) body

/-- Adds the checks for greatest lengths to a body. -/
def addLengths (data errors : Value) : List (Value × Value) → Value → Build Value
  | [], body => return body
  | (prop, limit) :: es, body => do
    let check ← lengthCheck data errors prop limit
    let body ← code (.ofStrings ["", "", ""]) [body, check]
    addLengths data errors es body

/-- The validating function of a schema. -/
def generate (schema : Value) : Build Value := do
  let data ← name (.text "data")
  let errors ← name (.text "errors")
  let required ← field schema "required"
  let body ← addPresence data errors required (← elements required).length 0 nil
  let limits ← entries (← field schema "maxLength")
  let body ← addLengths data errors limits body
  code (.ofStrings ["function validate(", ") \x7b\n  const ", " = [];\n", "  return ", ";\n\x7d\n"])
    [data, errors, body, errors]

/-- A text on a line of its own. -/
def line (t : Text) : Text := t ++ [.char '\n']

/-- A line that repeats a character. -/
def rule (c : Char) (n : Nat) : Text := line (List.replicate n (.char c))

/-- Whether an entry of a map has a text as its key. -/
def hasTextKey (e : Value × Value) : Bool :=
  match e.1 with
  | .text _ => true
  | _ => false

/-- Whether an entry of a map comes no later than another: texts by their
code points, and any other keys as they are. -/
def comesBefore (a b : Value × Value) : Bool :=
  match a.1, b.1 with
  | .text t, .text u => t.le u
  | _, _ => true

/-- The lines of a usage map, a name and its count on each. Keys that are
no texts have no order. -/
def usageLines (s : Store) (m : Usage) : Except Failure Text :=
  if m.all hasTextKey then
    ((m.mergeSort comesBefore).mapM fun (e : Value × Value) => do
      let key ← s.plainText e.1
      let count ← s.plainText e.2
      return line (Text.ofString "  " ++ key ++ Text.ofString ": " ++ count)).map List.flatten
  else .error .wrongKind

/-- The report on a schema: the generated source, and the names it uses. -/
def report (schema : Value) : Build Text := do
  let function ← generate schema
  let source ← read fun s => s.codeText function
  let uses ← read fun s => do usageLines s (← s.usesOf function)
  return rule '=' 60 ++ line "Validator Generation Example" ++ rule '=' 60 ++ line [] ++
    line "Generated source:" ++ rule '-' 40 ++ line source ++
    line "Name usage:" ++ rule '-' 40 ++ uses

/-- A schema with two required properties and one greatest length. -/
def sample : Build Value := do
  let required ← alloc (.list [.text "id", .text "display-name"])
  let limits ← alloc (.dict [(.text "id", .scalar (.int 8))])
  alloc (.dict [(.text "required", required), (.text "maxLength", limits)])

end Validator

end Splice
