import Splice.Name
import Splice.Number.Layout
/-!
# Items — the pieces generated source is made of

Source text is kept as a sequence of items until it is rendered: names,
pieces of text, and scalars. The item type is open at one end: an item
may also refer to an object of type `ρ`, which the store of mutable
objects uses and which `Empty` rules out.
-/

namespace Splice

/-- The scalars of the data that is spliced into code. -/
inductive Scalar
  | null
  | bool (b : Bool)
  | int (n : Int)
  | float (x : Double)
deriving DecidableEq, Repr, Inhabited

/-- One item, possibly a reference to an object. -/
inductive Item (ρ : Type)
  /-- A live reference to a variable of the generated program. -/
  | name (n : Name)
  /-- A piece of text: code, a quoted literal, or an operator. -/
  | text (t : Text)
  /-- A scalar, rendered when the source is. -/
  | scalar (s : Scalar)
  /-- An object, by reference. -/
  | object (r : ρ)
deriving DecidableEq

instance {ρ : Type} : Inhabited (Item ρ) := ⟨.scalar .null⟩

/-- Whether a text begins with a double quote. -/
def Text.startsQuoted (t : Text) : Bool := t.head? == some (.char '"')

/-- Whether a text ends with a double quote. -/
def Text.endsQuoted (t : Text) : Bool := t.getLast? == some (.char '"')

namespace Item

variable {ρ : Type}

/-- The text of the operator that joins the operands of a string expression. -/
def plusText : Text := [.char '+']

/-- The operator that joins the operands of a string expression. -/
def plus : Item ρ := .text plusText

/-- Whether an item is the joining operator. -/
def isPlus : Item ρ → Bool
  | .text t => t == plusText
  | _ => false

/-- Whether an item is a name. -/
def isName : Item ρ → Bool
  | .name _ => true
  | _ => false

/-- Whether an item is text that begins with a double quote. -/
def startsQuoted : Item ρ → Bool
  | .text t => t.startsQuoted
  | _ => false

/-- Whether an item is text that ends with a double quote. -/
def endsQuoted : Item ρ → Bool
  | .text t => t.endsQuoted
  | _ => false

@[simp] theorem isPlus_plus : (plus : Item ρ).isPlus = true := by simp [plus, isPlus]

theorem isPlus_iff {x : Item ρ} : x.isPlus = true ↔ x = plus := by
  cases x <;> simp [isPlus, plus]

end Item

end Splice
