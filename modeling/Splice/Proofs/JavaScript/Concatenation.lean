import Splice.Proofs.JavaScript.StringLiteral
/-!
# JavaScript — the value of operands joined by `+`

The operator `+` adds from the left. As soon as one side is a string it
joins the texts of both; on two values of other kinds it does whatever the
runtime does with them. `Environment.evaluate?` is the value of a list of
items read in this way, with the operator at every other place.

What an operand contributes once there is a string is its text, and the
texts of all operands in a row are `Environment.spelled?`. If the first
operand or the second is a string, that is what the whole evaluates to
(`Runtime.total?_of_string`, `Runtime.total?_of_string_second`).
Converting a value to text may throw, as it does for symbols, and so may
adding; `none` stands for both.

The text of a scalar at run time need not be the text that is written for
it in code. Where it is, the runtime echoes the scalar (`Runtime.Echoes`),
and if it echoes all of them, the operands spell what is written
(`Environment.written?`).
-/

namespace Splice

/-- The texts that `f` gives for the elements, one after the other. -/
def concat? {α : Type} (f : α → Option (List Nat)) : List α → Option (List Nat)
  | [] => some []
  | x :: xs => (f x).bind fun us => (concat? f xs).map fun vs => us ++ vs

section Concat

variable {α : Type} {f : α → Option (List Nat)}

theorem concat?_singleton (x : α) : concat? f [x] = f x := by
  cases h : f x <;> simp [concat?, h]

theorem concat?_append (xs ys : List α) :
    concat? f (xs ++ ys) =
      (concat? f xs).bind fun us => (concat? f ys).map fun vs => us ++ vs := by
  induction xs with
  | nil => cases h : concat? f ys <;> simp [concat?, h]
  | cons x xs ih =>
    rw [List.cons_append, concat?, ih, concat?]
    cases f x <;> cases concat? f xs <;> cases concat? f ys <;> simp

theorem concat?_congr {g : α → Option (List Nat)} {xs : List α} (h : ∀ x ∈ xs, f x = g x) :
    concat? f xs = concat? g xs := by
  induction xs with
  | nil => rfl
  | cons x xs ih =>
    obtain ⟨hx, hxs⟩ := List.forall_mem_cons.1 h
    rw [concat?, concat?, hx, ih hxs]

/-- **Texts in a row tell the elements apart**, if no text that one function
gives for an element begins with another one that the other gives for it. -/
theorem eq_of_concat?_eq {g : α → Option (List Nat)} {xs : List α} {us : List Nat}
    (h : ∀ x ∈ xs, ∀ vs ws, f x = some vs → g x = some ws → vs <+: ws ∨ ws <+: vs → vs = ws)
    (hf : concat? f xs = some us) (hg : concat? g xs = some us) : ∀ x ∈ xs, f x = g x := by
  induction xs generalizing us with
  | nil => exact nofun
  | cons x xs ih =>
    obtain ⟨hx, hxs⟩ := List.forall_mem_cons.1 h
    obtain ⟨vs, hvs, hf⟩ := Option.bind_eq_some_iff.1 hf
    obtain ⟨ws, hws, hg⟩ := Option.bind_eq_some_iff.1 hg
    obtain ⟨vs', hf, hvs'⟩ := Option.map_eq_some_iff.1 hf
    obtain ⟨ws', hg, hws'⟩ := Option.map_eq_some_iff.1 hg
    have hprefix : vs <+: ws ∨ ws <+: vs :=
      List.prefix_or_prefix_of_prefix ⟨vs', hvs'⟩ ⟨ws', hws'⟩
    obtain rfl : vs = ws := hx vs ws hvs hws hprefix
    obtain rfl : vs' = ws' := List.append_cancel_left (hvs'.trans hws'.symm)
    exact List.forall_mem_cons.2 ⟨hvs.trans hws.symm, ih hxs hf hg⟩

end Concat

/-- Separators stand only between elements, so the first element comes first. -/
theorem intersperse_eq_cons_tail {α : Type} (sep x : α) (xs : List α) :
    (x :: xs).intersperse sep = x :: ((x :: xs).intersperse sep).tail := by
  cases xs <;> rfl

namespace JavaScript

/-- A primitive value: a string, as its UTF-16 code units, or a value of
another kind. -/
inductive Primitive (Other : Type)
  | string (units : List Nat)
  | other (value : Other)

/-- What a runtime does with the primitive values that are no strings. -/
structure Runtime where
  /-- The primitive values that are no strings. -/
  Other : Type
  /-- The text of a value, unless it cannot be converted. -/
  text? : Other → Option (List Nat)
  /-- The sum of two values, unless adding them throws. -/
  add? : Other → Other → Option (Primitive Other)
  /-- The value of a scalar. -/
  ofScalar : Scalar → Other

/-- A runtime whose other values are the scalars, with the text that is
written for them, and that adds strings only. -/
instance : Inhabited Runtime where
  default :=
    { Other := Scalar
      text? := fun c => c.render.toOption.map Text.units
      add? := fun _ _ => none
      ofScalar := id }

namespace Runtime

variable (J : Runtime)

/-- The primitive values. -/
abbrev Value : Type := Primitive J.Other

/-- The text of a value, unless it cannot be converted. -/
def toText? : J.Value → Option (List Nat)
  | .string us => some us
  | .other x => J.text? x

/-- The operator `+`. -/
def plus? : J.Value → J.Value → Option J.Value
  | .other x, .other y => J.add? x y
  | v, w => do
    let us ← J.toText? v
    let vs ← J.toText? w
    return .string (us ++ vs)

/-- What the names of the generated program, and code that is spliced in as
one operand, evaluate to. -/
structure Environment where
  /-- The value of each variable. -/
  names : Name → J.Value
  /-- The value of each piece of code. -/
  code : Text → J.Value

variable {J}

/-- The value of a scalar has the text that is written for the scalar. -/
def Echoes (J : Runtime) (c : Scalar) : Prop :=
  ∀ t, c.render = .ok t → J.text? (J.ofScalar c) = some t.units

/-- So it is for all scalars among items. -/
def EchoesAll {ρ : Type} (J : Runtime) (xs : List (Item ρ)) : Prop :=
  ∀ c, .scalar c ∈ xs → J.Echoes c

theorem echoes_default (c : Scalar) : (default : Runtime).Echoes c := by
  intro t ht
  change c.render.toOption.map Text.units = some t.units
  rw [ht]
  rfl

theorem plus?_string_left (us : List Nat) (w : J.Value) :
    J.plus? (.string us) w = (J.toText? w).map fun vs => .string (us ++ vs) := by
  cases w with
  | string vs => rfl
  | other x => cases h : J.text? x <;> simp [plus?, toText?, h]

theorem plus?_string_right (v : J.Value) (vs : List Nat) :
    J.plus? v (.string vs) = (J.toText? v).map fun us => .string (us ++ vs) := by
  cases v with
  | string us => rfl
  | other x => cases h : J.text? x <;> simp [plus?, toText?, h]

/-! ## Sums from the left -/

section Sum

variable {α : Type} (f : α → Option J.Value)

/-- The text of an operand, by the values of operands. -/
def textOf? (x : α) : Option (List Nat) := (f x).bind J.toText?

/-- A value with one more operand added, by the values of operands. -/
def plusOf? (v : J.Value) (x : α) : Option J.Value := (f x).bind fun w => J.plus? v w

/-- The sum of operands, by their values. -/
def total? : List α → Option J.Value
  | [] => none
  | x :: xs => (f x).bind fun v => xs.foldlM (plusOf? f) v

/-- To a string, operands add their texts. -/
theorem foldlM_plusOf?_string (xs : List α) (us : List Nat) :
    xs.foldlM (plusOf? f) (.string us) =
      (concat? (textOf? f) xs).map fun vs => .string (us ++ vs) := by
  induction xs generalizing us with
  | nil => simp [concat?]
  | cons x xs ih =>
    rw [List.foldlM_cons, concat?, textOf?, plusOf?]
    cases f x with
    | none => rfl
    | some w =>
      cases hw : J.toText? w with
      | none => simp [plus?_string_left, hw]
      | some vs => cases h : concat? (textOf? f) xs <;> simp [plus?_string_left, hw, ih, h]

/-- **Behind a string, a sum is the texts of the operands in a row.** -/
theorem total?_of_string {x : α} {us : List Nat} (hx : f x = some (.string us)) (xs : List α) :
    total? f (x :: xs) = (concat? (textOf? f) (x :: xs)).map .string := by
  have htext : textOf? f x = some us := by simp [textOf?, hx, toText?]
  rw [total?, hx, concat?, htext]
  simp only [Option.bind_some, foldlM_plusOf?_string]
  cases concat? (textOf? f) xs <;> rfl

/-- And so it is if the second operand is a string. -/
theorem total?_of_string_second {x y : α} {us : List Nat} (hy : f y = some (.string us))
    (xs : List α) :
    total? f (x :: y :: xs) = (concat? (textOf? f) (x :: y :: xs)).map .string := by
  have htext : textOf? f y = some us := by simp [textOf?, hy, toText?]
  rw [total?, concat?, concat?, htext, textOf?]
  cases f x with
  | none => rfl
  | some v =>
    simp only [Option.bind_some, List.foldlM_cons, plusOf?, hy, plus?_string_right]
    cases J.toText? v with
    | none => rfl
    | some vs =>
      simp only [Option.map_some, Option.bind_some, Option.bind_eq_bind, foldlM_plusOf?_string]
      cases concat? (textOf? f) xs <;> simp

/-- Where the first two values cannot be added, there is no sum. -/
theorem total?_eq_none {x y : α} {v w : J.Other} (hx : f x = some (.other v))
    (hy : f y = some (.other w)) (h : J.add? v w = none) (xs : List α) :
    total? f (x :: y :: xs) = none := by
  have hsum : plusOf? f (.other v) y = none := by
    rw [plusOf?, hy]
    exact h
  rw [total?, hx, Option.bind_some, List.foldlM_cons, hsum]
  rfl

end Sum

end Runtime

namespace Runtime.Environment

variable {J : Runtime} (E : J.Environment) {ρ : Type}

/-- The value of an operand. Text that begins with a double quote is a
string literal, other text is code. Objects are no operands. -/
def operand? : Item ρ → Option J.Value
  | .name n => some (E.names n)
  | .scalar c => some (.other (J.ofScalar c))
  | .text t => if t.startsQuoted then (stringValue? t).map .string else some (E.code t)
  | .object _ => none

/-- A value with the operands after it added, each with the operator
before it. -/
def sum? : J.Value → List (Item ρ) → Option J.Value
  | v, [] => some v
  | v, op :: x :: rest =>
    if op.isPlus then do
      let w ← E.operand? x
      let u ← J.plus? v w
      sum? u rest
    else none
  | _, [_] => none

/-- The value of operands with the operator between neighbours. -/
def evaluate? : List (Item ρ) → Option J.Value
  | [] => none
  | x :: rest => do
    let v ← E.operand? x
    E.sum? v rest

/-- The text of an operand. -/
def text? (x : Item ρ) : Option (List Nat) := (E.operand? x).bind J.toText?

/-- The texts of operands, one after the other. -/
def spelled? (xs : List (Item ρ)) : Option (List Nat) := concat? E.text? xs

/-- A value with one more operand added. -/
def add? (v : J.Value) (x : Item ρ) : Option J.Value :=
  (E.operand? x).bind fun w => J.plus? v w

/-- **The value of operands in a row**, each added to the sum of those
before it. -/
theorem evaluate?_intersperse (x : Item ρ) (xs : List (Item ρ)) :
    E.evaluate? ((x :: xs).intersperse Item.plus) =
      (E.operand? x).bind fun v => xs.foldlM E.add? v := by
  have hsum : ∀ (xs : List (Item ρ)) (x : Item ρ) (v : J.Value),
      E.sum? v ((x :: xs).intersperse Item.plus).tail = xs.foldlM E.add? v := by
    intro xs
    induction xs with
    | nil => intro x v; rfl
    | cons y ys ih =>
      intro x v
      rw [List.intersperse_cons_cons, List.tail_cons, intersperse_eq_cons_tail, sum?,
        if_pos Item.isPlus_plus, List.foldlM_cons, add?]
      cases E.operand? y with
      | none => rfl
      | some w =>
        cases hw : J.plus? v w with
        | none => simp [hw]
        | some u => simpa [hw] using ih y u
  rw [intersperse_eq_cons_tail, evaluate?]
  cases E.operand? x with
  | none => rfl
  | some v => exact hsum xs x v

/-- Behind a string, the value is the texts of the operands in a row. -/
theorem evaluate?_of_string {x : Item ρ} {us : List Nat} (hx : E.operand? x = some (.string us))
    (xs : List (Item ρ)) :
    E.evaluate? ((x :: xs).intersperse Item.plus) = (E.spelled? (x :: xs)).map .string :=
  (E.evaluate?_intersperse x xs).trans (total?_of_string E.operand? hx xs)

/-- And so it is if the second operand is a string. -/
theorem evaluate?_of_string_second {x y : Item ρ} {us : List Nat}
    (hy : E.operand? y = some (.string us)) (xs : List (Item ρ)) :
    E.evaluate? ((x :: y :: xs).intersperse Item.plus) =
      (E.spelled? (x :: y :: xs)).map .string :=
  (E.evaluate?_intersperse x (y :: xs)).trans (total?_of_string_second E.operand? hy xs)

/-- A JSON string evaluates to what it stands for. -/
theorem operand?_of_isString {t : Text} {us : List Nat} (h : Json.IsString t us) :
    E.operand? (.text t : Item ρ) = some (.string us) := by
  rw [operand?, if_pos h.startsQuoted, stringValue?_of_isString h]
  rfl

/-- A scalar that is echoed has the text that is written for it. -/
theorem text?_scalar {c : Scalar} {t : Text} (hJ : J.Echoes c) (h : c.render = .ok t) :
    E.text? (.scalar c : Item ρ) = some t.units := hJ t h

/-! ## Scalars that are echoed -/

/-- The text that is written for a scalar, and that of another operand. -/
def writtenText? : Item ρ → Option (List Nat)
  | .scalar c => c.render.toOption.map Text.units
  | x => E.text? x

/-- The texts of operands, one after the other, with scalars as they are
written. -/
def written? (xs : List (Item ρ)) : Option (List Nat) := concat? E.writtenText? xs

theorem writtenText?_scalar {c : Scalar} {t : Text} (h : c.render = .ok t) :
    E.writtenText? (.scalar c : Item ρ) = some t.units := by
  rw [writtenText?, h]
  rfl

end Runtime.Environment

end JavaScript

end Splice
