import Splice.Item
import Splice.Failure
/-!
# Items — the text of an item as code

Names and text stand for themselves, scalars are written as the target
language prints them, and an object is printed by a function that is
given, since what it prints depends on the store.
-/

namespace Splice

/-- A scalar as code. Whole numbers of too many digits cannot be printed. -/
def Scalar.render : Scalar → Except Failure Text
  | .null => .ok "null"
  | .bool true => .ok "true"
  | .bool false => .ok "false"
  | .int n => if isPrintableInt n then .ok (Text.ofInt n) else .error .tooManyDigits
  | .float x => .ok x.codeText

namespace Item

variable {ρ : Type}

/-- An item as code. -/
def render (print : ρ → Except Failure Text) : Item ρ → Except Failure Text
  | .name n => .ok n.text
  | .text t => .ok t
  | .scalar s => s.render
  | .object r => print r

/-- Items as code, one after the other. -/
def renderAll (print : ρ → Except Failure Text) (items : List (Item ρ)) : Except Failure Text :=
  (items.mapM (render print)).map List.flatten

end Item

end Splice
