import Splice.Proofs.Usage.Tally
import Splice.Template
/-!
# Concatenation — what is seen of it

Of a code value one sees its items and whether it is a string expression
(`View`). The text, the emptiness and the names all come from these. So a
concatenation is a function of what is seen of its operands
(`View.concat`), and this function makes a monoid of what is seen: it is
associative (`View.concat_assoc`), also in what fails, and an empty operand
next to another one leaves that as it is.

Two things carry this. A text with the operator in it is not empty
(`View.isEmpty_joined`), so what has been joined is never dropped later.
And an empty text has no name in it (`View.namesIn_of_isEmpty`), so no
name is dropped with it.
-/

namespace Splice

/-! ## Texts of items -/

/-- Only a number of too many digits has no text. -/
theorem Scalar.render_error {c : Scalar} {e : Failure} (h : c.render = .error e) :
    e = .tooManyDigits := by
  cases c with
  | null => cases h
  | bool b => cases b <;> cases h
  | int n =>
    by_cases hn : isPrintableInt n = true
    · rw [render, if_pos hn] at h
      cases h
    · rw [render, if_neg hn] at h
      cases h
      rfl
  | float x => cases h

namespace Item

variable {ρ : Type} {print : ρ → Except Failure Text} {xs ys : List (Item ρ)} {t : Text}

/-- The text of two rows is that of the one and that of the other. -/
theorem renderAll_append (print : ρ → Except Failure Text) (xs ys : List (Item ρ)) :
    renderAll print (xs ++ ys) = do
      let t ← renderAll print xs
      let u ← renderAll print ys
      return t ++ u := by
  rw [renderAll, List.mapM_append, renderAll, renderAll]
  cases xs.mapM (render print) with
  | error e => rfl
  | ok ts =>
    cases ys.mapM (render print) with
    | error e => rfl
    | ok us =>
      show Except.ok (ts ++ us).flatten = Except.ok (ts.flatten ++ us.flatten)
      rw [List.flatten_append]

theorem renderAll_cons (print : ρ → Except Failure Text) (x : Item ρ) (xs : List (Item ρ)) :
    renderAll print (x :: xs) = do
      let t ← x.render print
      let u ← renderAll print xs
      return t ++ u := by
  rw [renderAll, List.mapM_cons, renderAll]
  cases x.render print with
  | error e => rfl
  | ok t => cases xs.mapM (render print) <;> rfl

theorem renderAll_cons_of_ok {x : Item ρ} {u : Text} (hx : x.render print = .ok t)
    (hxs : renderAll print xs = .ok u) : renderAll print (x :: xs) = .ok (t ++ u) := by
  rw [renderAll_cons, hx, hxs]
  rfl

theorem renderAll_append_of_ok {u : Text} (hxs : renderAll print xs = .ok t)
    (hys : renderAll print ys = .ok u) : renderAll print (xs ++ ys) = .ok (t ++ u) := by
  rw [renderAll_append, hxs, hys]
  rfl

theorem renderAll_singleton {x : Item ρ} (hx : x.render print = .ok t) :
    renderAll print [x] = .ok t := by
  rw [renderAll_cons, hx]
  show Except.ok (t ++ []) = _
  rw [List.append_nil]

/-- What the text of an item consists of is in the text of the row. -/
theorem mem_of_renderAll (h : renderAll print xs = .ok t) {x : Item ρ} (hx : x ∈ xs) :
    ∃ u, x.render print = .ok u ∧ ∀ c ∈ u, c ∈ t := by
  induction xs generalizing t with
  | nil => cases hx
  | cons y xs ih =>
    rw [renderAll_cons] at h
    obtain ⟨u, hy, h⟩ := exists_of_bind_eq_ok h
    obtain ⟨v, hxs, h⟩ := exists_of_bind_eq_ok h
    cases h
    rcases List.mem_cons.1 hx with rfl | hx
    · exact ⟨u, hy, fun c => List.mem_append_left v⟩
    · obtain ⟨w, hw, hmem⟩ := ih hxs hx
      exact ⟨w, hw, fun c hc => List.mem_append_right u (hmem c hc)⟩

/-- A row has a text if each of its items has one. -/
theorem exists_renderAll (h : ∀ x ∈ xs, ∃ u, x.render print = .ok u) :
    ∃ t, renderAll print xs = .ok t := by
  induction xs with
  | nil => exact ⟨[], rfl⟩
  | cons x xs ih =>
    obtain ⟨⟨u, hu⟩, hxs⟩ := List.forall_mem_cons.1 h
    obtain ⟨t, ht⟩ := ih hxs
    exact ⟨u ++ t, renderAll_cons_of_ok hu ht⟩

/-- If objects have a text, only a number of too many digits has none. -/
theorem renderAll_error {e : Failure} (h : renderAll (fun _ : ρ => .ok []) xs = .error e) :
    e = .tooManyDigits := by
  induction xs with
  | nil => cases h
  | cons x xs ih =>
    rw [renderAll_cons] at h
    rcases cases_of_bind_eq_error h with hx | ⟨t, -, h⟩
    · cases x with
      | scalar c => exact Scalar.render_error hx
      | _ => cases hx
    · rcases cases_of_bind_eq_error h with hxs | ⟨u, -, h⟩
      · exact ih hxs
      · cases h

end Item

/-! ## What is seen -/

/-- Whether a text is empty as code: there is nothing in it, or it is the
literal of the empty text. -/
def Text.isBlank (t : Text) : Bool := t == [] || t == literal []

theorem Text.isBlank_iff {t : Text} : t.isBlank = true ↔ t = [] ∨ t = literal [] := by
  rw [isBlank, Bool.or_eq_true, beq_iff_eq, beq_iff_eq]

/-- Where the letters of a name are, there is something: the first of them
is no quote. -/
theorem Name.isBlank_of_subset (n : Name) {t : Text} (h : ∀ c ∈ n.text, c ∈ t) :
    t.isBlank = false := by
  have hidentifier := n.isIdentifier
  cases hn : n.text with
  | nil =>
    rw [hn] at hidentifier
    cases hidentifier
  | cons c cs =>
    rw [hn, Text.isIdentifier, Bool.and_eq_true] at hidentifier
    have hc : c ∈ t := h c (hn ▸ List.mem_cons_self)
    refine Bool.eq_false_iff.2 fun hblank => ?_
    rcases Text.isBlank_iff.1 hblank with rfl | rfl
    · cases hc
    · have hquote : c = .char '"' := by simpa using (show c ∈ [.char '"', .char '"'] from hc)
      rw [hquote] at hidentifier
      exact absurd hidentifier.1 (by decide)

/-- What is seen of a code value. -/
structure View where
  /-- The items that it stands for. -/
  items : List Value
  /-- Whether it is a string expression. -/
  isExpression : Bool

namespace View

variable {x y z : View}

/-- The text of the items, of which none is an object. -/
def text (x : View) : Except Failure Text := Item.renderAll (fun _ => .ok []) x.items

def isEmpty (x : View) : Except Failure Bool := x.text.map Text.isBlank

/-- Two operands with the operator between them. -/
def joined (x y : View) : View := ⟨x.items ++ Item.plus :: y.items, true⟩

/-- What is seen of a concatenation. -/
def concat (x y : View) : Except Failure View := do
  if ← y.isEmpty then return x
  else if ← x.isEmpty then return y
  else return x.joined y

theorem isEmpty_of_text {t : Text} (h : x.text = .ok t) : x.isEmpty = .ok t.isBlank := by
  rw [isEmpty, h]
  rfl

theorem exists_text {b : Bool} (h : x.isEmpty = .ok b) : ∃ t, x.text = .ok t ∧ t.isBlank = b := by
  cases ht : x.text with
  | ok t => exact ⟨t, rfl, Except.ok.inj ((isEmpty_of_text ht).symm.trans h)⟩
  | error e =>
    rw [isEmpty, ht] at h
    cases h

/-- What has no items is empty. -/
theorem items_ne_nil (h : x.isEmpty = .ok false) : x.items ≠ [] := by
  intro hitems
  have htext : x.text = .ok [] := by
    rw [text, hitems]
    rfl
  cases (isEmpty_of_text htext).symm.trans h

theorem text_error {e : Failure} (h : x.isEmpty = .error e) : x.text = .error e := by
  cases ht : x.text with
  | ok t => cases (isEmpty_of_text ht).symm.trans h
  | error f =>
    rw [isEmpty, ht] at h
    cases h
    rfl

/-- There is one reason only not to have a text. -/
theorem isEmpty_cases (x : View) :
    x.isEmpty = .ok true ∨ x.isEmpty = .ok false ∨ x.isEmpty = .error .tooManyDigits := by
  cases ht : x.text with
  | ok t =>
    rw [isEmpty_of_text ht]
    cases t.isBlank <;> simp
  | error e =>
    obtain rfl := Item.renderAll_error ht
    rw [isEmpty, ht]
    exact .inr (.inr rfl)

/-- **What has been joined is not empty.** -/
theorem isEmpty_joined {b c : Bool} (hx : x.isEmpty = .ok b) (hy : y.isEmpty = .ok c) :
    (x.joined y).isEmpty = .ok false := by
  obtain ⟨t, ht, -⟩ := exists_text hx
  obtain ⟨u, hu, -⟩ := exists_text hy
  have htext : (x.joined y).text = .ok (t ++ .char '+' :: u) := by
    have hplus : (Item.plus : Value).render (fun _ => .ok []) = .ok [.char '+'] := rfl
    rw [text, joined, Item.renderAll_append, Item.renderAll_cons, hplus]
    rw [text] at ht hu
    rw [ht, hu]
    rfl
  rw [isEmpty_of_text htext]
  have hmem : .char '+' ∈ t ++ .char '+' :: u := by simp
  refine congrArg _ (Bool.eq_false_iff.2 fun hblank => ?_)
  rcases Text.isBlank_iff.1 hblank with hempty | hliteral
  · rw [hempty] at hmem
    cases hmem
  · rw [hliteral] at hmem
    exact absurd hmem (by decide)

/-! ## The monoid -/

theorem concat_of_isEmpty (hy : y.isEmpty = .ok true) : x.concat y = .ok x := by
  rw [concat, hy]
  rfl

theorem concat_of_isEmpty_left (hx : x.isEmpty = .ok true) (hy : y.isEmpty = .ok false) :
    x.concat y = .ok y := by
  rw [concat, hy, hx]
  rfl

theorem concat_of_not_isEmpty (hx : x.isEmpty = .ok false) (hy : y.isEmpty = .ok false) :
    x.concat y = .ok (x.joined y) := by
  rw [concat, hy, hx]
  rfl

theorem concat_error {e : Failure} (hy : y.isEmpty = .error e) : x.concat y = .error e := by
  rw [concat, hy]
  rfl

theorem concat_error_left {e : Failure} (hx : x.isEmpty = .error e) (hy : y.isEmpty = .ok false) :
    x.concat y = .error e := by
  rw [concat, hy, hx]
  rfl

/-- **What a concatenation is**: an operand next to an empty one, both
joined, or none, if there is a number of too many digits. -/
theorem concat_cases (x y : View) :
    y.isEmpty = .ok true ∧ x.concat y = .ok x ∨
    (x.isEmpty = .ok true ∧ y.isEmpty = .ok false) ∧ x.concat y = .ok y ∨
    (x.isEmpty = .ok false ∧ y.isEmpty = .ok false) ∧ x.concat y = .ok (x.joined y) ∨
    (y.isEmpty = .error .tooManyDigits ∨
      x.isEmpty = .error .tooManyDigits ∧ y.isEmpty = .ok false) ∧
      x.concat y = .error .tooManyDigits := by
  rcases y.isEmpty_cases with hy | hy | hy
  · exact .inl ⟨hy, concat_of_isEmpty hy⟩
  · rcases x.isEmpty_cases with hx | hx | hx
    · exact .inr (.inl ⟨⟨hx, hy⟩, concat_of_isEmpty_left hx hy⟩)
    · exact .inr (.inr (.inl ⟨⟨hx, hy⟩, concat_of_not_isEmpty hx hy⟩))
    · exact .inr (.inr (.inr ⟨.inr ⟨hx, hy⟩, concat_error_left hx hy⟩))
  · exact .inr (.inr (.inr ⟨.inl hy, concat_error hy⟩))

/-- **Concatenation is associative**, whatever is empty or fails. -/
theorem concat_assoc (x y z : View) : (x.concat y >>= (·.concat z)) = y.concat z >>= x.concat := by
  have hbind : ∀ {v : View} {f : View → Except Failure View}, (.ok v >>= f) = f v := rfl
  rcases z.isEmpty_cases with hz | hz | hz
  · rw [concat_of_isEmpty hz, hbind]
    cases x.concat y with
    | error e => rfl
    | ok v => exact concat_of_isEmpty hz
  · rcases y.isEmpty_cases with hy | hy | hy
    · rw [concat_of_isEmpty hy, concat_of_isEmpty_left hy hz, hbind, hbind]
    · -- What y and z are joined to is not empty, so only x may be dropped.
      have hyz := isEmpty_joined hy hz
      rw [concat_of_not_isEmpty hy hz, hbind]
      rcases x.isEmpty_cases with hx | hx | hx
      · rw [concat_of_isEmpty_left hx hy, concat_of_isEmpty_left hx hyz, hbind,
          concat_of_not_isEmpty hy hz]
      · rw [concat_of_not_isEmpty hx hy, concat_of_not_isEmpty hx hyz, hbind,
          concat_of_not_isEmpty (isEmpty_joined hx hy) hz]
        simp [joined]
      · rw [concat_error_left hx hy, concat_error_left hx hyz]
        rfl
    · rw [concat_error hy, concat_error_left hy hz]
      rfl
  · -- If the first operands cannot be concatenated, it is for the same reason.
    rw [concat_error hz]
    rcases concat_cases x y with ⟨-, h⟩ | ⟨-, h⟩ | ⟨-, h⟩ | ⟨-, h⟩ <;> rw [h]
    · exact concat_error hz
    · exact concat_error hz
    · exact concat_error hz
    · rfl

/-- What cannot be concatenated has no text, the one or the other. -/
theorem text_of_concat_error {e : Failure} (h : x.concat y = .error e) :
    x.text = .error e ∨ y.text = .error e := by
  rcases concat_cases x y with ⟨-, hz⟩ | ⟨-, hz⟩ | ⟨-, hz⟩ | ⟨hxy, hz⟩ <;> cases h.symm.trans hz
  rcases hxy with hy | ⟨hx, -⟩
  · exact .inr (text_error hy)
  · exact .inl (text_error hx)

/-- And a concatenation has no text only if an operand has none. -/
theorem text_of_concat {e : Failure} (h : x.concat y = .ok z) (hz : z.text = .error e) :
    x.text = .error e ∨ y.text = .error e := by
  rcases concat_cases x y with ⟨-, h'⟩ | ⟨-, h'⟩ | ⟨⟨hx, hy⟩, h'⟩ | ⟨-, h'⟩ <;>
    cases h.symm.trans h'
  · exact .inl hz
  · exact .inr hz
  · obtain ⟨t, ht, -⟩ := exists_text (isEmpty_joined hx hy)
    cases ht.symm.trans hz

/-- So three can be concatenated if they all have a text. -/
theorem text_of_concat_concat_error {e : Failure}
    (h : (x.concat y >>= (·.concat z)) = .error e) :
    x.text = .error e ∨ y.text = .error e ∨ z.text = .error e := by
  rcases cases_of_bind_eq_error h with hxy | ⟨u, hxy, h⟩
  · exact (text_of_concat_error hxy).imp_right .inl
  · rcases text_of_concat_error h with hu | hz
    · exact (text_of_concat hxy hu).imp_right .inl
    · exact .inr (.inr hz)

/-- **A concatenation is empty** exactly if both operands are. -/
theorem isEmpty_concat (h : x.concat y = .ok z) :
    z.isEmpty = .ok true ↔ x.isEmpty = .ok true ∧ y.isEmpty = .ok true := by
  rcases concat_cases x y with ⟨hy, hz⟩ | ⟨⟨hx, hy⟩, hz⟩ | ⟨⟨hx, hy⟩, hz⟩ | ⟨-, hz⟩ <;>
    cases h.symm.trans hz
  · simp [hy]
  · simp [hy]
  · simp [hx, isEmpty_joined hx hy]

/-- **An empty text has no name in it.** -/
theorem namesIn_of_isEmpty (h : x.isEmpty = .ok true) : namesIn x.items = fun _ => 0 := by
  obtain ⟨t, ht, hblank⟩ := exists_text h
  refine namesIn_of_forall_ne fun y hy n hn => ?_
  subst hn
  obtain ⟨u, hu, hmem⟩ := Item.mem_of_renderAll ht hy
  cases hu
  rw [n.isBlank_of_subset hmem] at hblank
  cases hblank

/-- **The names in a concatenation** are those in both operands, also if
one has been dropped. -/
theorem namesIn_concat (h : x.concat y = .ok z) :
    namesIn z.items = fun n => namesIn x.items n + namesIn y.items n := by
  have hplus : namesIn [Item.plus] = fun _ => 0 := namesIn_of_forall_ne (by simp [Item.plus])
  rcases concat_cases x y with ⟨hy, hz⟩ | ⟨⟨hx, hy⟩, hz⟩ | ⟨-, hz⟩ | ⟨-, hz⟩ <;>
    cases h.symm.trans hz
  · simp [namesIn_of_isEmpty hy]
  · simp [namesIn_of_isEmpty hx]
  · rw [joined, ← List.singleton_append, namesIn_append, namesIn_append, hplus]
    simp

end View

end Splice
