import Splice.Template.Format
import Splice.Template.Segments
import Splice.Fragment
/-!
# Templates — arguments spliced between segments

A template is segments `L₀ … Lₙ` with arguments `A₁ … Aₙ` between them.
`code` splices the arguments as code. `expression` builds an expression
that evaluates to a text when the generated program runs: segments become
literals, and the operator `+` joins them to the arguments. Names,
fragments and scalars go in as they are; any other argument is data and
goes in as a literal.
-/

namespace Splice

/-- A fragment in the making. -/
structure Assembly where
  /-- The items so far. -/
  items : Array Value
  /-- The names used so far. -/
  used : Usage

namespace Assembly

/-- One more item. -/
def push (a : Assembly) (v : Value) : Assembly := ⟨a.items.push v, a.used⟩

/-- More items, and the names used then. -/
def append (a : Assembly) (items : List Value) (used : Usage) : Assembly := ⟨a.items ++ items, used⟩

/-- The operator `+` after what is there, if anything is. -/
def join (a : Assembly) : Assembly := if a.items.isEmpty then a else a.push Item.plus

end Assembly

namespace Store

variable (s : Store)

/-- Whether an argument goes in as itself: names, fragments and scalars do. -/
def goesInBare : Value → Bool
  | .scalar _ => true
  | v => s.isCode v

/-- The elements of a list argument. -/
def listed? : Value → Option (List Value)
  | .object r => match s.get r with
    | .list xs => some xs
    | .tuple xs => some xs
    | _ => none
  | _ => none

/-- The text of an element of a list argument; a missing one has none. -/
def elementText : Value → Except Failure Text
  | .scalar .null => .ok []
  | v => s.render v

/-- The elements of a list argument joined by commas. -/
def joinElements (xs : List Value) : Except Failure Text :=
  (xs.mapM s.elementText).map (Text.join [.char ','])

end Store

namespace Build

/-- Fails unless there is one more segment than there are arguments. -/
def checkArity (segments : Segments) (args : List Value) : Build Unit := do
  let n ← segments.size
  if n = args.length + 1 then return ()
  else throw (.arity args.length n)

/-- What an argument goes in as: itself, or its literal if it is data. -/
def argument (v : Value) : Build Value := do
  if ← ask fun s => s.goesInBare v then return v
  else return .text (← literal v)

/-- What an argument of a string expression goes in as: the elements of a
list are joined by commas first. -/
def operand (v : Value) : Build Value := do
  match ← ask fun s => s.listed? v with
  | some xs => argument (.text (← read fun s => s.joinElements xs))
  | none => argument v

/-- Splices a code value into a string expression. Its uses are counted as
its map tells them, and its items are taken over as they are. -/
def spliceOperand (a : Assembly) (v : Value) : Build Assembly := do
  let used ← addUses a.used v
  let items ← pushed v
  return a.append items used

/-- Splices a code value into code. Its uses are counted as its map tells
them, and a string expression is folded before its items are taken. -/
def spliceCode (a : Assembly) (v : Value) : Build Assembly := do
  let used ← addUses a.used v
  if ← read fun s => s.isExpression v then
    let _ ← foldCode v
  let items ← pushed v
  return a.append items used

/-- The fragment of a finished assembly. -/
def assemble (a : Assembly) (isExpression : Bool) : Build Value := do
  let items ← alloc (.list a.items.toList)
  let used ← alloc (.dict a.used)
  fragment items used isExpression

/-- Splices one argument as code. -/
def addArgument (a : Assembly) (arg : Value) : Build Assembly := do
  let v ← argument arg
  if ← ask fun s => s.isCode v then spliceCode a v else return a.push v

/-- Splices arguments as code, the segment at position `i` after the first of them. -/
def codeArguments (segments : Segments) : Nat → List Value → Assembly → Build Assembly
  | _, [], a => return a
  | i, arg :: args, a => do
    let a ← addArgument a arg
    let segment ← segments.get i
    codeArguments segments (i + 1) args (a.push segment)

/-- A fragment of code: the segments, and the arguments between them. -/
def code (segments : Segments) (args : List Value) : Build Value := do
  checkArity segments args
  let first ← segments.get 0
  let a ← codeArguments segments 1 args ⟨#[first], []⟩
  assemble a false

/-- The literal of a segment of a string expression, unless the segment is empty. -/
def segmentLiteral (segment : Value) : Build (Option Text) := do
  if ← ask fun s => s.isTruthy segment then return some (← literal segment)
  else return none

/-- Adds one argument to a string expression. -/
def addOperand (a : Assembly) (arg : Value) : Build Assembly := do
  let v ← operand arg
  if ← ask fun s => s.isCode v then spliceOperand a v else return a.push v

/-- Adds a segment to a string expression, unless the segment is empty. -/
def addSegment (a : Assembly) (segment : Value) : Build Assembly := do
  match ← segmentLiteral segment with
  | some t => return (a.push Item.plus).push (.text t)
  | none => return a

/-- Adds arguments to a string expression, the segment at position `i` after the first of them. -/
def expressionArguments (segments : Segments) : Nat → List Value → Assembly → Build Assembly
  | _, [], a => return a
  | i, arg :: args, a => do
    let a ← addOperand a.join arg
    let a ← addSegment a (← segments.get i)
    expressionArguments segments (i + 1) args a

/-- A string expression: the segments as literals, and the arguments between them. -/
def expression (segments : Segments) (args : List Value) : Build Value := do
  checkArity segments args
  let first ← segmentLiteral (← segments.get 0)
  let a ← expressionArguments segments 1 args ⟨(first.map Item.text).toArray, []⟩
  assemble a true

/-- The segments of a format template, which has to be text. -/
def formatSegments (template : Value) : Build (List Text) :=
  read fun _ => match template with
    | .text t => Format.split t
    | _ => .error .wrongKind

/-- A fragment of code by a format template. -/
def codeOfFormat (template : Value) (args : List Value) : Build Value := do
  code (.ofTexts (← formatSegments template)) args

/-- A string expression by a format template. -/
def expressionOfFormat (template : Value) (args : List Value) : Build Value := do
  expression (.ofTexts (← formatSegments template)) args

/-- The concatenation of two string expressions. An empty operand is
dropped, and the other is then answered itself. -/
def concat (a b : Value) : Build Value := do
  if ← read fun s => s.isEmpty b then return a
  else if ← read fun s => s.isEmpty a then return b
  else expression (.ofStrings ["", "", ""]) [a, b]

/-- The access to a property: a dot before an identifier, square brackets
around any other key. -/
def property (key : Value) : Build Value := do
  match key with
  | .text t =>
    if t.isIdentifier then fragment (.text (.char '.' :: t)) (.scalar .null) false
    else code (.ofStrings ["[", "]"]) [key]
  | _ => code (.ofStrings ["[", "]"]) [key]

end Build

end Splice
