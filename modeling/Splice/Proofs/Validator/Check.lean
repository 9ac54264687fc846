import Splice.Validator
import Splice.Proofs.Validator.Parts
/-!
# Validators — one check

What a check is as code is said by its text: a presence check compares
the member access of the property, and its message is one literal
(`Validator.IsPresenceCheck`). A length check compares the length of the
access, and its message is one literal and the length of the same access,
joined (`Validator.IsLengthCheck`). Literals and accesses are read as the
generated program reads them, so it is the property that the check is
about, whatever its characters are.

Both checks can be made in any sound store, and put in such a text with
the uses of the two names (`Build.presenceCheck_puts`,
`Build.lengthCheck_puts`).
-/

namespace Splice

open Build Folded JavaScript Store

namespace Validator

/-! ## What a check is -/

/-- The name of the argument of the function. -/
def data : Name := ⟨Text.ofString "data", by decide⟩

/-- The name of the list of messages. -/
def errors : Name := ⟨Text.ofString "errors", by decide⟩

/-- The chain is the access to the property of the argument. -/
def IsMember (prop : Text) (c : MemberChain) : Prop := c.root = data ∧ c.keys? = some [prop.units]

/-- What the message about a missing property says. -/
def missing (prop : Text) : Text := "missing property '" ++ prop ++ Text.ofString "'"

/-- What the message about a property that is too long begins with. -/
def tooLong (prop : Text) (limit : Int) : Text :=
  prop ++ Text.ofString " must be at most " ++ Text.ofInt limit ++
    Text.ofString " characters, got "

/-- The text is a presence check of the property. -/
def IsPresenceCheck (prop t : Text) : Prop :=
  ∃ (c : MemberChain) (message : Text), IsMember prop c ∧
    stringValue? message = some (missing prop).units ∧
    t = "if (" ++ c.text ++ Text.ofString " === undefined) errors.push(" ++ message ++
      Text.ofString ");\n"

/-- The text is a length check of the property, with its limit. -/
def IsLengthCheck (entry : Text × Int) (t : Text) : Prop :=
  ∃ (c : MemberChain) (message : Text), IsMember entry.1 c ∧
    stringValue? message = some (tooLong entry.1 entry.2).units ∧
    t = "if (" ++ c.text ++ Text.ofString ".length > " ++ Text.ofInt entry.2 ++
      Text.ofString ") errors.push(" ++ message ++ Text.ofString "+" ++ c.text ++
      Text.ofString ".length" ++ Text.ofString ");\n"

/-- So many uses of the two names, and none of any other. -/
def uses (d e : Nat) (n : Name) : Nat := d * namesIn [.name data] n + e * namesIn [.name errors] n

theorem uses_add (d e d' e' : Nat) (n : Name) :
    uses d e n + uses d' e' n = uses (d + d') (e + e') n := by
  simp only [uses]
  ring

/-- A chain of one access behind the argument is the member access of its key. -/
theorem isMember_ofKeys (prop : Text) : IsMember prop (.ofKeys data [prop]) :=
  ⟨rfl, MemberChain.keys?_ofKeys data [prop]⟩

theorem text_ofKeys (prop : Text) :
    (MemberChain.ofKeys data [prop]).text = data.text ++ (Access.ofKey prop).text := by
  simp [MemberChain.text, MemberChain.ofKeys]

/-- The length that a property has at run time, as an operand. -/
def lengthOf (value : Value) : Build Value := do
  let length ← code (.ofStrings ["", ".length"]) [value]
  expression (.ofStrings ["", ""]) [length]

/-- The message of a length check. -/
def lengthMessage (value prop limit : Value) : Build Value := do
  let fixed ← expression (.ofStrings ["", " must be at most ", " characters, got "]) [prop, limit]
  let length ← lengthOf value
  concat fixed length

/-- A length check is a comparison and a message. -/
theorem lengthCheck_eq (d e : Value) (prop : Text) (limit : Value) :
    lengthCheck d e (.text prop) limit = (do
      let value ← member d prop
      let message ← lengthMessage value (.text prop) limit
      code (.ofStrings ["if (", ".length > ", ") ", ".push(", ");\n"])
        [value, limit, e, message]) := by
  simp only [lengthCheck, lengthMessage, lengthOf, member, bind_assoc]

/-- The items of the length of a property. -/
def lengthItems (prop : Text) : List Value :=
  .text [] :: Row.member data (Access.ofKey prop) ++ [.text ".length"]

theorem inert_lengthItems (prop : Text) :
    Row.Inert (lengthItems prop) (data.text ++ (Access.ofKey prop).text ++ ".length") :=
  ((Row.Inert.of_text (t := []) (by decide) (by decide)).append (Row.inert_member data prop)).append
    (.of_text (by decide) (by decide))

theorem namesIn_lengthItems (prop : Text) : namesIn (lengthItems prop) = namesIn [.name data] := by
  have hblank (t : Text) : namesIn [.text t] = fun _ => 0 := namesIn_of_forall_ne (by simp)
  have hlength : lengthItems prop =
      [.text []] ++ Row.member data (Access.ofKey prop) ++ [.text ".length"] := rfl
  simp only [hlength, namesIn_append, hblank, Row.namesIn_member, Nat.add_zero, Nat.zero_add]

end Validator

namespace Build

open Validator

variable {σ : Session} {hand : List Value}

/-! ## Presence checks -/

/-- The message of a presence check. -/
theorem presenceMessage_made (h : σ.store.Sound hand) (prop : Text) :
    ∃ v τ xs, expression (.ofStrings ["missing property '", "'"]) [.text prop] σ = .ok v τ ∧
      σ.store.Made τ.store hand v xs true ∧
      FoldsTo xs [.text (missing prop).literal] := by
  let rest : List (List Value × Text) := [([segmentItem prop], "'")]
  have hargs : σ.store.Blocks [.text prop] rest := .cons (.literal rfl rfl rfl) .nil
  obtain ⟨v, τ, hrun, hmade⟩ := expression_made (t := "missing property '") h hargs
  have hquotes := ((Row.Quotes.literal "missing property '").append (.literal prop)).append
    (.literal "'")
  exact ⟨v, τ, _, hrun, hmade, hquotes.foldsTo.2⟩

/-- **A presence check** can be made, and is one. -/
theorem presenceCheck_puts (h : σ.store.Sound hand) (prop : Text) :
    ∃ v τ hand' t, presenceCheck (.name data) (.name errors) (.text prop) σ = .ok v τ ∧
      IsPresenceCheck prop t ∧ σ.store.Puts τ.store hand' v t (uses 1 1) := by
  obtain ⟨access, σ₁, haccess, hmade₁⟩ := property_made h prop
  obtain ⟨message, σ₂, xs, hmessage, hmade₂, hfolds⟩ := presenceMessage_made hmade₁.sound prop
  have hmade := hmade₁.after h hmade₂
  have hholds := hmade₁.holds.grows hmade₂.grows
  have haccess₂ : σ₂.store.PutsIn access (Access.ofKey prop).text fun _ => 0 := by
    rw [← Row.namesIn_access]
    exact hholds.putsIn rfl (Row.inert_access prop).text
  have hmessage₂ : σ₂.store.PutsIn message (missing prop).literal fun _ => 0 := by
    rw [← hfolds.namesIn_eq_zero]
    exact hmade₂.holds.putsIn hfolds (Item.renderAll_singleton rfl)
  let pieces : List (Text × (Name → Nat) × Text) :=
    [(data.text, namesIn [.name data], []),
      ((Access.ofKey prop).text, fun _ => 0, " === undefined) "),
      (errors.text, namesIn [.name errors], ".push("), ((missing prop).literal, fun _ => 0, ");\n")]
  have hargs : List.Forall₂ (fun v p => σ₂.store.PutsIn v p.1 p.2.1)
      [.name data, access, .name errors, message] pieces :=
    .cons (.name data) (.cons haccess₂ (.cons (.name errors) (.cons hmessage₂ .nil)))
  have hrecent : ∀ v ∈ [.name data, access, .name errors, message], σ.store.Recent σ₂.store v :=
    List.forall_mem_cons.2 ⟨.of_code rfl, List.forall_mem_cons.2 ⟨.of_code hholds.isExpression,
      List.forall_mem_cons.2 ⟨.of_code rfl, List.forall_mem_singleton.2 hmade.recent⟩⟩⟩
  obtain ⟨v, τ, hrun, hputs⟩ :=
    code_puts (t := "if (") h hmade.grows hmade.develops hmade.sound hargs hrecent
  have hcheck : IsPresenceCheck prop ("if (" ++ pieces.flatMap fun p => p.1 ++ p.2.2) := by
    refine ⟨.ofKeys data [prop], (missing prop).literal, isMember_ofKeys prop,
      stringValue?_of_isString (Text.isString_literal _), ?_⟩
    rw [text_ofKeys]
    simp only [pieces, List.flatMap_cons, List.flatMap_nil, List.append_assoc, List.append_nil]
    rfl
  have huses : (fun n => (pieces.map fun p => p.2.1 n).sum) = uses 1 1 := by
    funext n
    simp [pieces, uses]
  rw [huses] at hputs
  refine ⟨v, τ, _, _, ?_, hcheck, hputs⟩
  rw [presenceCheck, bind_of_ok haccess, bind_of_ok hmessage]
  exact hrun

/-! ## Length checks -/

/-- The message of a length check begins with what is known of it. -/
theorem fixedMessage_made (h : σ.store.Sound hand) (prop : Text) {n : Int}
    (hn : isPrintableInt n = true) :
    ∃ v τ xs, expression (.ofStrings ["", " must be at most ", " characters, got "])
        [.text prop, .scalar (.int n)] σ = .ok v τ ∧
      σ.store.Made τ.store hand v xs true ∧ Steady xs ∧ .plus ∈ xs ∧
      FoldsTo xs [.text (tooLong prop n).literal] := by
  let rest : List (List Value × Text) :=
    [([segmentItem prop], " must be at most "), ([.scalar (.int n)], " characters, got ")]
  have hargs : σ.store.Blocks [.text prop, .scalar (.int n)] rest :=
    .cons (.literal rfl rfl rfl) (.cons (.scalar _) .nil)
  obtain ⟨v, τ, hrun, hmade⟩ := expression_made (t := []) h hargs
  have hquotes := (((Row.Quotes.literal prop).append (.literal " must be at most ")).append
    (.int hn)).append (.literal " characters, got ")
  obtain ⟨hsteady, hfolds⟩ := hquotes.foldsTo
  exact ⟨v, τ, _, hrun, hmade, hsteady, List.mem_cons_of_mem _ List.mem_cons_self, hfolds⟩

/-- It goes on with the length of the property. -/
theorem lengthOf_made {value : Value} (h : σ.store.Sound hand) {prop : Text}
    (hvalue : σ.store.Holds value (Row.member data (Access.ofKey prop)) false) :
    ∃ v τ hand', lengthOf value σ = .ok v τ ∧
      σ.store.Made τ.store hand' v (lengthItems prop) true := by
  let blocks : List (List Value × Text) := [(Row.member data (Access.ofKey prop), ".length")]
  have hsplices : List.Forall₂ (fun arg p => σ.store.Splices arg p.1) [value] blocks :=
    .cons (.fragment hvalue) .nil
  obtain ⟨length, τ, hlength, hmade⟩ := code_made (t := []) h hsplices
  have hitems : Row.spliced [] blocks = lengthItems prop := by
    simp [blocks, Row.spliced, lengthItems]
  rw [hitems] at hmade
  let rest : List (List Value × Text) := [(lengthItems prop, [])]
  have hargs : τ.store.Blocks [length] rest := .cons (.fragment hmade.holds) .nil
  obtain ⟨v, υ, hv, hmade'⟩ := expression_made (t := []) hmade.sound hargs
  have hitems' : Row.laid Item.plus segmentItem (Row.head segmentItem []) rest =
      lengthItems prop := by
    simp [rest, Row.laid, Row.head, Row.join, Row.segment]
  rw [hitems'] at hmade'
  exact ⟨v, υ, _, (bind_of_ok hlength).trans hv, hmade.after h hmade'⟩

/-- The message folds up to the operator before the length. -/
theorem lengthMessage_made {value : Value} (h : σ.store.Sound hand) {prop : Text}
    (hvalue : σ.store.Holds value (Row.member data (Access.ofKey prop)) false) {n : Int}
    (hn : isPrintableInt n = true) :
    ∃ v τ hand' xs, lengthMessage value (.text prop) (.scalar (.int n)) σ = .ok v τ ∧
      σ.store.Made τ.store hand' v xs true ∧
      FoldsTo xs ([.text (tooLong prop n).literal] ++ .plus :: lengthItems prop) := by
  obtain ⟨fixed, σ₁, xs, hfixed, hmade₁, hsteady, hplus, hfolds⟩ := fixedMessage_made h prop hn
  obtain ⟨length, σ₂, hand₂, hlength, hmade₂⟩ :=
    lengthOf_made hmade₁.sound (hvalue.grows hmade₁.grows)
  -- Neither operand is empty: there is an operator in one, and a dot in the other.
  have hinert := inert_lengthItems prop
  have hx : (⟨xs, true⟩ : View).isEmpty = .ok false :=
    View.not_isEmpty_of_steady hsteady hplus List.mem_cons_self (by decide)
  have hy : (⟨lengthItems prop, true⟩ : View).isEmpty = .ok false :=
    View.not_isEmpty_of_steady hinert.steady (t := ".length") (c := .char '.')
      (List.mem_append_right _ List.mem_cons_self) (by decide) (by decide)
  obtain ⟨v, τ, hconcat, hmade₃⟩ :=
    concat_made hmade₂.sound (hmade₁.holds.grows hmade₂.grows) hmade₂.holds hx hy
  refine ⟨v, τ, _, _, ?_, hmade₁.after h (hmade₂.after hmade₁.sound hmade₃),
    hfolds.joined hsteady hinert ?_⟩
  · rw [lengthMessage, bind_of_ok hfixed, bind_of_ok hlength]
    exact hconcat
  · rintro x ⟨⟩ u hinner
    exact absurd hinner Item.not_right_nil

/-- **A length check** can be made, and is one. -/
theorem lengthCheck_puts (h : σ.store.Sound hand) (prop : Text) {n : Int}
    (hn : isPrintableInt n = true) :
    ∃ v τ hand' t, lengthCheck (.name data) (.name errors) (.text prop) (.scalar (.int n)) σ =
        .ok v τ ∧
      IsLengthCheck (prop, n) t ∧ σ.store.Puts τ.store hand' v t (uses 2 1) := by
  obtain ⟨value, σ₁, hand₁, hvalue, hmade₁⟩ := member_made h data prop
  obtain ⟨message, σ₂, hand₂, xs, hmessage, hmade₂, hfolds⟩ :=
    lengthMessage_made hmade₁.sound hmade₁.holds hn
  have hmade := hmade₁.after h hmade₂
  have hholds := hmade₁.holds.grows hmade₂.grows
  let literal : Text := (tooLong prop n).literal
  let access : Text := data.text ++ (Access.ofKey prop).text
  have hvalue₂ : σ₂.store.PutsIn value access (namesIn [.name data]) := by
    rw [← Row.namesIn_member]
    exact hholds.putsIn rfl (Row.inert_member data prop).text
  let joined : Text := literal ++ (Text.ofString "+" ++ (access ++ Text.ofString ".length"))
  have hmessage₂ : σ₂.store.PutsIn message joined (namesIn [.name data]) := by
    have hnames : namesIn xs = namesIn [.name data] := by
      have hconstant : namesIn ([.text literal] ++ [.plus]) = fun _ => 0 :=
        namesIn_of_forall_ne (by simp [Item.plus])
      rw [← hfolds.namesIn_eq, ← namesIn_lengthItems prop, List.append_cons, namesIn_append,
        hconstant]
      simp only [Nat.zero_add]
    rw [← hnames]
    exact hmade₂.holds.putsIn hfolds (Item.renderAll_append_of_ok (Item.renderAll_singleton rfl)
      (Item.renderAll_cons_of_ok (x := .plus) rfl (inert_lengthItems prop).text))
  let pieces : List (Text × (Name → Nat) × Text) :=
    [(access, namesIn [.name data], ".length > "), (Text.ofInt n, fun _ => 0, ") "),
      (errors.text, namesIn [.name errors], ".push("), (joined, namesIn [.name data], ");\n")]
  have hargs : List.Forall₂ (fun v p => σ₂.store.PutsIn v p.1 p.2.1)
      [value, .scalar (.int n), .name errors, message] pieces :=
    .cons hvalue₂ (.cons (.scalar (Scalar.render_int hn)) (.cons (.name errors)
      (.cons hmessage₂ .nil)))
  have hrecent : ∀ v ∈ [value, .scalar (.int n), .name errors, message],
      σ.store.Recent σ₂.store v :=
    List.forall_mem_cons.2 ⟨.of_code hholds.isExpression, List.forall_mem_cons.2 ⟨.of_scalar _,
      List.forall_mem_cons.2 ⟨.of_code rfl, List.forall_mem_singleton.2 hmade.recent⟩⟩⟩
  obtain ⟨v, τ, hrun, hputs⟩ :=
    code_puts (t := "if (") h hmade.grows hmade.develops hmade.sound hargs hrecent
  have hcheck : IsLengthCheck (prop, n) ("if (" ++ pieces.flatMap fun p => p.1 ++ p.2.2) := by
    refine ⟨.ofKeys data [prop], literal, isMember_ofKeys prop,
      stringValue?_of_isString (Text.isString_literal _), ?_⟩
    rw [text_ofKeys]
    simp only [pieces, joined, access, List.flatMap_cons, List.flatMap_nil, List.append_assoc,
      List.append_nil]
    rfl
  have huses : (fun n => (pieces.map fun p => p.2.1 n).sum) = uses 2 1 := by
    funext n
    simp only [pieces, uses, List.map_cons, List.map_nil, List.sum_cons, List.sum_nil]
    ring
  rw [huses] at hputs
  refine ⟨v, τ, _, _, ?_, hcheck, hputs⟩
  rw [lengthCheck_eq, bind_of_ok hvalue, bind_of_ok hmessage]
  exact hrun

end Build

end Splice
