import Splice.Proofs.Folding.NormalForm
/-!
# Folding — the order of merges does not matter

A merge keeps what its left operand has before the quote at its end
(`Item.Left`) and what its right operand has behind the quote at its start
(`Item.Right`). An item is steady if it is a name, a scalar that can be
written, or any text but a single quote. A steady item that is the right
operand of one merge and the left operand of another has a quote for each,
so the two come to the same whichever is made first, and merges that do
not share an operand do not see each other (`Folded.Merges.diamond`).
Hence every way of merging steady items ends in one list, the one that the
fold leaves (`fold_eq_of_reaches`), and it makes no difference if a part of
the list has been folded before (`fold_append_fold`).

A closed item is a steady one with quotes at both ends or at none. In a
row of closed items a merge joins the insides of its operands
(`Item.Inner`) and puts quotes around them.
-/

namespace Splice

open Relation

variable {ρ : Type}

/-! ## Items that merge -/

namespace Text

/-- A text that has a quote at one of its ends has one at each. -/
def IsClosed (t : Text) : Prop :=
  t.startsQuoted = true ∨ t.endsQuoted = true →
    2 ≤ t.length ∧ t.startsQuoted = true ∧ t.endsQuoted = true

instance (t : Text) : Decidable t.IsClosed :=
  inferInstanceAs (Decidable (t.startsQuoted = true ∨ t.endsQuoted = true →
    2 ≤ t.length ∧ t.startsQuoted = true ∧ t.endsQuoted = true))

/-- A text with quotes around it. -/
def enclosed (body : Text) : Text := .char '"' :: body ++ [.char '"']

variable {t body : Text}

theorem startsQuoted_enclosed (body : Text) : body.enclosed.startsQuoted = true := rfl

theorem endsQuoted_enclosed (body : Text) : body.enclosed.endsQuoted = true := by
  rw [endsQuoted, enclosed, List.getLast?_concat]
  rfl

theorem tail_enclosed (body : Text) : body.enclosed.tail = body ++ [.char '"'] := rfl

theorem isClosed_enclosed (body : Text) : body.enclosed.IsClosed := fun _ =>
  ⟨by simp [enclosed], body.startsQuoted_enclosed, body.endsQuoted_enclosed⟩

/-- A text with quotes at its ends has something between them. -/
theorem eq_enclosed (hlength : 2 ≤ t.length) (hstart : t.startsQuoted = true)
    (hend : t.endsQuoted = true) : ∃ body, t = enclosed body := by
  simp only [startsQuoted, endsQuoted, beq_iff_eq] at hstart hend
  obtain ⟨c, rest, rfl⟩ := List.exists_cons_of_length_pos (by omega : 0 < t.length)
  obtain rfl : c = .char '"' := by simpa using hstart
  rcases List.eq_nil_or_concat rest with rfl | ⟨body, d, rfl⟩
  · simp at hlength
  · have hlast : (CodePoint.char '"' :: body ++ [d]).getLast? = some d := List.getLast?_concat
    obtain rfl : d = .char '"' := by
      rw [List.cons_append] at hlast
      exact Option.some.inj (hlast.symm.trans (by simpa using hend))
    exact ⟨body, by simp [enclosed]⟩

end Text

namespace Item

/-- What an item keeps when it merges with the one behind it. -/
inductive Left : Item ρ → Text → Prop
  /-- A text loses the quote at its end. -/
  | text (t : Text) : Left (.text (t ++ [.char '"'])) t
  /-- A scalar gets a quote in front. -/
  | scalar {c : Scalar} {t : Text} : c.render = .ok t → Left (.scalar c) (.char '"' :: t)

/-- What an item keeps when it merges with the one in front of it. -/
inductive Right : Item ρ → Text → Prop
  /-- A text loses the quote at its start. -/
  | text (t : Text) : Right (.text (.char '"' :: t)) t
  /-- A scalar gets a quote behind. -/
  | scalar {c : Scalar} {t : Text} : c.render = .ok t → Right (.scalar c) (t ++ [.char '"'])

/-- What an item puts between the quotes when it merges. -/
inductive Inner : Item ρ → Text → Prop
  /-- A quoted text puts in what is between its own. -/
  | quoted (body : Text) : Inner (.text body.enclosed) body
  /-- A scalar puts in its text. -/
  | scalar {c : Scalar} {t : Text} : c.render = .ok t → Inner (.scalar c) t

/-- A text, of code or quoted. -/
def IsText (x : Item ρ) : Prop := ∃ t, x = .text t

/-- A text between quotes. -/
def IsQuoted (x : Item ρ) : Prop := ∃ body, x = .text (Text.enclosed body)

/-- An item that can be written, and is not a single quote. -/
inductive IsSteady : Item ρ → Prop
  /-- A name. -/
  | name (n : Name) : IsSteady (.name n)
  /-- Any text but a single quote. -/
  | text {t : Text} : t ≠ [.char '"'] → IsSteady (.text t)
  /-- A scalar that can be written. -/
  | scalar {c : Scalar} {t : Text} : c.render = .ok t → IsSteady (.scalar c)

/-- An item without a quote at one of its ends only, which can be written. -/
inductive IsClosed : Item ρ → Prop
  /-- A name. -/
  | name (n : Name) : IsClosed (.name n)
  /-- A text with quotes at both ends or at none. -/
  | text {t : Text} : t.IsClosed → IsClosed (.text t)
  /-- A scalar that can be written. -/
  | scalar {c : Scalar} {t : Text} : c.render = .ok t → IsClosed (.scalar c)

variable {print : ρ → Except Failure Text} {a b : Item ρ} {t u v : Text}

theorem IsSteady.isBare (h : a.IsSteady) : a.IsBare := by
  cases h <;> exact nofun

theorem IsQuoted.isText (h : a.IsQuoted) : a.IsText := h.imp' Text.enclosed fun _ => id

/-- A text with a quote at its end keeps what is before it. -/
theorem left_of_endsQuoted (h : t.endsQuoted = true) : ∃ u, (.text t : Item ρ).Left u := by
  rw [Text.endsQuoted, beq_iff_eq] at h
  obtain ⟨u, rfl⟩ := List.getLast?_eq_some_iff.1 h
  exact ⟨u, .text u⟩

/-- A text with a quote at its start keeps what is behind it. -/
theorem right_of_startsQuoted (h : t.startsQuoted = true) : ∃ u, (.text t : Item ρ).Right u := by
  rw [Text.startsQuoted, beq_iff_eq] at h
  obtain ⟨u, rfl⟩ := List.head?_eq_some_iff.1 h
  exact ⟨u, .text u⟩

theorem Left.unique (h : a.Left t) (h' : a.Left u) : t = u := by
  cases h with
  | text =>
    generalize hv : t ++ [CodePoint.char '"'] = v at h'
    cases h' with
    | text => exact (List.append_inj' hv rfl).1
  | scalar h =>
    cases h' with
    | scalar h' => rw [Except.ok.inj (h.symm.trans h')]

theorem Right.unique (h : a.Right t) (h' : a.Right u) : t = u := by
  cases h with
  | text => cases h' with | text => rfl
  | scalar h =>
    cases h' with
    | scalar h' => rw [Except.ok.inj (h.symm.trans h')]

/-- The operator is no left operand of a merge. -/
theorem Left.ne_plus (h : a.Left t) : a ≠ plus := by
  rintro rfl
  generalize hx : (plus : Item ρ) = x at h
  cases h with
  | text =>
    have hends := congrArg Text.endsQuoted (text.inj hx)
    rw [Text.endsQuoted, Text.endsQuoted, List.getLast?_concat] at hends
    exact absurd hends (by decide)
  | scalar => cases hx

/-- Nor is it a right operand. -/
theorem Right.ne_plus (h : a.Right t) : a ≠ plus := by
  rintro rfl
  generalize hx : (plus : Item ρ) = x at h
  cases h with
  | text => cases hx
  | scalar => cases hx

/-- A steady item keeps something in front of the joint. -/
theorem Left.ne_nil (h : a.Left t) (ha : a.IsSteady) : t ≠ [] := by
  rintro rfl
  cases h with
  | text => cases ha with | text hne => exact hne rfl

/-- And something behind it. -/
theorem Right.ne_nil (h : a.Right t) (ha : a.IsSteady) : t ≠ [] := by
  rintro rfl
  generalize hu : ([] : Text) = u at h
  cases h with
  | text => cases ha with | text hne => exact hne (hu ▸ rfl)
  | scalar => simp at hu

/-- **A merge joins what its operands keep.** -/
theorem merge?_of_sides (ha : a.Left t) (hb : b.Right u) (htext : a.IsText ∨ b.IsText) :
    a.merge? print b = .ok (some (t ++ u)) := by
  have hends : (t ++ [CodePoint.char '"']).endsQuoted = true := by
    rw [Text.endsQuoted, List.getLast?_concat]
    rfl
  cases ha with
  | text =>
    cases hb with
    | text => simp [merge?, hends, Text.startsQuoted]
    | scalar hc => simp [merge?, hends, render, hc, pure, Except.pure, bind, Except.bind]
  | scalar hc =>
    cases hb with
    | text => simp [merge?, Text.startsQuoted, render, hc, pure, Except.pure, bind, Except.bind]
    | scalar hd => rcases htext with ⟨_, h⟩ | ⟨_, h⟩ <;> cases h

/-- **Steady items merge in this way only**, and do not fail to. -/
theorem merge?_steady (ha : a.IsSteady) (hb : b.IsSteady) :
    a.merge? print b = .ok none ∨
      ∃ t u, a.Left t ∧ b.Right u ∧ (a.IsText ∨ b.IsText) := by
  cases ha with
  | name n => exact .inl rfl
  | @scalar c v hc =>
    cases hb with
    | name n => exact .inl rfl
    | scalar hd => exact .inl rfl
    | @text w hw =>
      by_cases hstart : w.startsQuoted = true
      · obtain ⟨u, hu⟩ := right_of_startsQuoted hstart
        exact .inr ⟨_, u, .scalar hc, hu, .inr ⟨w, rfl⟩⟩
      · exact .inl (by simp [merge?, hstart])
  | @text w hw =>
    by_cases hend : w.endsQuoted = true
    · obtain ⟨t, ht⟩ := left_of_endsQuoted hend
      cases hb with
      | name n => exact .inl rfl
      | scalar hd => exact .inr ⟨t, _, ht, .scalar hd, .inl ⟨w, rfl⟩⟩
      | @text w' hw' =>
        by_cases hstart : w'.startsQuoted = true
        · obtain ⟨u, hu⟩ := right_of_startsQuoted hstart
          exact .inr ⟨t, u, ht, hu, .inl ⟨w, rfl⟩⟩
        · exact .inl (by simp [merge?, hstart])
    · cases hb with
      | name n => exact .inl rfl
      | scalar hd => exact .inl (by simp [merge?, hend])
      | text => exact .inl (by simp [merge?, hend])

/-! ### What is between quotes -/

theorem Inner.left (h : a.Inner t) : a.Left (.char '"' :: t) := by
  cases h with
  | quoted => exact .text (.char '"' :: t)
  | scalar hc => exact .scalar hc

theorem Inner.right (h : a.Inner t) : a.Right (t ++ [.char '"']) := by
  cases h with
  | quoted => exact .text (t ++ [.char '"'])
  | scalar hc => exact .scalar hc

/-- An item puts in one text only. -/
theorem Inner.unique (h : a.Inner t) (h' : a.Inner u) : t = u :=
  (List.cons.inj (h.left.unique h'.left)).2

/-- The operator is no operand of a merge. -/
theorem Inner.ne_plus (h : a.Inner t) : a ≠ plus := h.left.ne_plus

/-- A merge joins what is inside, and puts quotes around it. -/
theorem merge?_of_inner (ha : a.Inner t) (hb : b.Inner u) (hq : a.IsQuoted ∨ b.IsQuoted) :
    a.merge? print b = .ok (some (t ++ u).enclosed) := by
  rw [merge?_of_sides ha.left hb.right (hq.imp IsQuoted.isText IsQuoted.isText)]
  simp [Text.enclosed]

/-- **A steady operand of two merges** is a scalar or quoted. -/
theorem exists_inner (h : a.IsSteady) (hl : a.Left t) (hr : a.Right u) : ∃ v, a.Inner v := by
  cases hl with
  | text =>
    -- The quote at the start is another one than that at the end.
    cases t with
    | nil => cases h with | text hne => exact absurd rfl hne
    | cons c t =>
      cases hr with
      | text => exact ⟨t, .quoted t⟩
  | scalar hc => exact ⟨_, .scalar hc⟩

/-- A closed text is one between quotes, or has no quote at either end. -/
theorem IsClosed.cases_text (h : (.text t : Item ρ).IsClosed) :
    (∃ body, t = Text.enclosed body) ∨ t.startsQuoted = false ∧ t.endsQuoted = false := by
  cases h with
  | text h =>
    by_cases hq : t.startsQuoted = true ∨ t.endsQuoted = true
    · obtain ⟨hlength, hstart, hend⟩ := h hq
      exact .inl (Text.eq_enclosed hlength hstart hend)
    · simpa [not_or] using Or.inr hq

theorem IsClosed.isSteady (h : a.IsClosed) : a.IsSteady := by
  cases h with
  | name n => exact .name n
  | text h =>
    refine .text ?_
    rintro rfl
    exact absurd (h (.inl rfl)).1 (by decide)
  | scalar hc => exact .scalar hc

/-- A closed left operand is a scalar or quoted. -/
theorem IsClosed.inner_of_left (h : a.IsClosed) (hl : a.Left t) : ∃ v, a.Inner v := by
  cases hl with
  | text =>
    rcases h.cases_text with ⟨body, hbody⟩ | ⟨-, hend⟩
    · exact ⟨body, hbody ▸ .quoted body⟩
    · rw [Text.endsQuoted, List.getLast?_concat] at hend
      exact absurd hend (by decide)
  | scalar hc => exact ⟨_, .scalar hc⟩

/-- And so is a closed right operand. -/
theorem IsClosed.inner_of_right (h : a.IsClosed) (hr : a.Right t) : ∃ v, a.Inner v := by
  cases hr with
  | text =>
    rcases h.cases_text with ⟨body, hbody⟩ | ⟨hstart, -⟩
    · exact ⟨body, hbody ▸ .quoted body⟩
    · cases hstart
  | scalar hc => exact ⟨_, .scalar hc⟩

end Item

/-! ## Two merges of one list -/

namespace Folded

variable {print : List (Item ρ) → ρ → Except Failure Text} {xs ys zs : List (Item ρ)}

/-- A row of steady items. -/
def Steady (xs : List (Item ρ)) : Prop := ∀ x ∈ xs, x.IsSteady

/-- A row of closed items. -/
def Closed (xs : List (Item ρ)) : Prop := ∀ x ∈ xs, x.IsClosed

theorem Steady.of_append {l r : List (Item ρ)} (h : Steady (l ++ xs ++ r)) : Steady xs :=
  fun x hx => h x (by simp [hx])

theorem Steady.isBare (h : Steady xs) : ∀ x ∈ xs, x.IsBare := fun x hx => (h x hx).isBare

theorem Closed.of_append {l r : List (Item ρ)} (h : Closed (l ++ xs ++ r)) : Closed xs :=
  fun x hx => h x (by simp [hx])

theorem Closed.steady (h : Closed xs) : Steady xs := fun x hx => (h x hx).isSteady

/-- A merge by what the operands keep. -/
theorem Merges.of_sides {l r : List (Item ρ)} {a b : Item ρ} {t u : Text} (ha : a.Left t)
    (hb : b.Right u) (htext : a.IsText ∨ b.IsText) :
    Merges print (l ++ a :: .plus :: b :: r) (l ++ .text (t ++ u) :: r) :=
  .merge (Item.merge?_of_sides ha hb htext)

/-- A merge by what is inside the operands. -/
theorem Merges.of_inner {l r : List (Item ρ)} {a b : Item ρ} {t u : Text} (ha : a.Inner t)
    (hb : b.Inner u) (hq : a.IsQuoted ∨ b.IsQuoted) :
    Merges print (l ++ a :: .plus :: b :: r) (l ++ .text (t ++ u).enclosed :: r) :=
  .merge (Item.merge?_of_inner ha hb hq)

/-- **A merge in a steady row** is one by what the operands keep. -/
theorem Merges.steady_cases (h : Merges print xs ys) (hxs : Steady xs) :
    ∃ l r a b t u, xs = l ++ a :: .plus :: b :: r ∧ ys = l ++ .text (t ++ u) :: r ∧
      a.Left t ∧ b.Right u ∧ (a.IsText ∨ b.IsText) := by
  obtain @⟨l, r, a, b, v, hm⟩ := h
  rcases Item.merge?_steady (hxs a (by simp)) (hxs b (by simp)) with hnone | ⟨t, u, ha, hb, hq⟩
  · cases hnone.symm.trans hm
  · obtain rfl : t ++ u = v :=
      Option.some.inj (Except.ok.inj ((Item.merge?_of_sides ha hb hq).symm.trans hm))
    exact ⟨l, r, a, b, t, u, rfl, rfl, ha, hb, hq⟩

/-- What two steady operands come to is steady. -/
theorem isSteady_merged {a b : Item ρ} {t u : Text} (ha : a.IsSteady) (hb : b.IsSteady)
    (ht : a.Left t) (hu : b.Right u) : (.text (t ++ u) : Item ρ).IsSteady := by
  refine .text fun h => ?_
  have hlength := congrArg List.length h
  have hleft := List.length_pos_iff.2 (ht.ne_nil ha)
  have hright := List.length_pos_iff.2 (hu.ne_nil hb)
  simp only [List.length_append, List.length_singleton] at hlength
  omega

/-- A merge keeps a row steady. -/
theorem Merges.steady (h : Merges print xs ys) (hxs : Steady xs) : Steady ys := by
  obtain ⟨l, r, a, b, t, u, rfl, rfl, ht, hu, -⟩ := h.steady_cases hxs
  simp only [Steady, List.forall_mem_append, List.forall_mem_cons] at hxs ⊢
  exact ⟨hxs.1, isSteady_merged hxs.2.1 hxs.2.2.2.1 ht hu, hxs.2.2.2.2⟩

/-- A merge keeps a row closed. -/
theorem Merges.closed (h : Merges print xs ys) (hxs : Closed xs) : Closed ys := by
  obtain ⟨l, r, a, b, t, u, rfl, rfl, ht, hu, -⟩ := h.steady_cases hxs.steady
  obtain ⟨v, hv⟩ := (hxs a (by simp)).inner_of_left ht
  obtain ⟨w, hw⟩ := (hxs b (by simp)).inner_of_right hu
  have hmerged : t ++ u = (v ++ w).enclosed := by
    rw [ht.unique hv.left, hu.unique hw.right]
    simp [Text.enclosed]
  simp only [Closed, List.forall_mem_append, List.forall_mem_cons] at hxs ⊢
  exact ⟨hxs.1, hmerged ▸ .text (Text.isClosed_enclosed _), hxs.2.2.2.2⟩

/-- A merge in a part of a row is one in the row. -/
theorem Merges.append {print' : List (Item ρ) → ρ → Except Failure Text} (h : Merges print xs ys)
    (hxs : Steady xs) (l r : List (Item ρ)) : Merges print' (l ++ xs ++ r) (l ++ ys ++ r) := by
  obtain ⟨l', r', a, b, t, u, rfl, rfl, ha, hb, hq⟩ := h.steady_cases hxs
  have hmerge : Merges print' (l ++ l' ++ a :: .plus :: b :: (r' ++ r))
      (l ++ l' ++ .text (t ++ u) :: (r' ++ r)) := .of_sides ha hb hq
  simpa using hmerge

/-- Two merges of which the second is no further to the left. -/
theorem exists_merges_of_window (print : List (Item ρ) → ρ → Except Failure Text)
    {l as r r' : List (Item ρ)} {a b a' b' : Item ρ} {t u t' u' : Text} (hsteady : b.IsSteady)
    (ha : a.Left t) (hb : b.Right u) (hq : a.IsText ∨ b.IsText) (ha' : a'.Left t')
    (hb' : b'.Right u') (hq' : a'.IsText ∨ b'.IsText)
    (h : a :: .plus :: b :: r = as ++ a' :: .plus :: b' :: r') :
    l ++ .text (t ++ u) :: r = l ++ as ++ .text (t' ++ u') :: r' ∨
      ∃ ws, Merges print (l ++ .text (t ++ u) :: r) ws ∧
        Merges print (l ++ as ++ .text (t' ++ u') :: r') ws := by
  match as with
  | [] =>
    -- The same operands.
    obtain ⟨rfl, rfl, rfl⟩ : a = a' ∧ b = b' ∧ r = r' := by simpa using h
    rw [ha.unique ha', hb.unique hb']
    exact .inl (by simp)
  | [c] =>
    -- An operator is no operand.
    obtain ⟨-, hplus, -⟩ : a = c ∧ Item.plus = a' ∧ b :: r = .plus :: b' :: r' := by simpa using h
    exact absurd hplus.symm ha'.ne_plus
  | [c, d] =>
    -- The right operand of the first is the left operand of the second.
    obtain ⟨rfl, rfl, rfl, rfl⟩ : a = c ∧ Item.plus = d ∧ b = a' ∧ r = .plus :: b' :: r' := by
      simpa using h
    obtain ⟨body, hbody⟩ := Item.exists_inner hsteady ha' hb
    obtain rfl := ha'.unique hbody.left
    obtain rfl := hb.unique hbody.right
    refine .inr ⟨l ++ .text (t ++ body ++ u') :: r', ?_, ?_⟩
    · rw [← List.append_assoc t]
      exact .of_sides (.text _) hb' (.inl ⟨_, rfl⟩)
    · have hmerge : Merges print (l ++ a :: .plus :: .text (.char '"' :: (body ++ u')) :: r')
          (l ++ .text (t ++ (body ++ u')) :: r') := .of_sides ha (.text _) (.inr ⟨_, rfl⟩)
      simpa [List.append_assoc] using hmerge
  | c :: d :: e :: as =>
    -- The operands have nothing in common.
    obtain ⟨rfl, rfl, rfl, rfl⟩ :
        a = c ∧ Item.plus = d ∧ b = e ∧ r = as ++ a' :: .plus :: b' :: r' := by
      simpa using h
    refine .inr ⟨l ++ .text (t ++ u) :: (as ++ .text (t' ++ u') :: r'), ?_, ?_⟩
    · have hmerge : Merges print (l ++ .text (t ++ u) :: as ++ a' :: .plus :: b' :: r')
          (l ++ .text (t ++ u) :: as ++ .text (t' ++ u') :: r') := .of_sides ha' hb' hq'
      simpa using hmerge
    · have hmerge : Merges print (l ++ a :: .plus :: b :: (as ++ .text (t' ++ u') :: r'))
          (l ++ .text (t ++ u) :: (as ++ .text (t' ++ u') :: r')) := .of_sides ha hb hq
      simpa using hmerge

/-- **The diamond.** Two merges of one steady row come to the same, or to
rows that one more merge each makes the same. -/
theorem Merges.diamond (hxs : Steady xs) (h : Merges print xs ys) (h' : Merges print xs zs) :
    ys = zs ∨ ∃ ws, Merges print ys ws ∧ Merges print zs ws := by
  obtain ⟨l, r, a, b, t, u, rfl, rfl, ha, hb, hq⟩ := h.steady_cases hxs
  obtain ⟨l', r', a', b', t', u', hsplit, rfl, ha', hb', hq'⟩ := h'.steady_cases hxs
  have hsteady : b.IsSteady := hxs b (by simp)
  have hsteady' : b'.IsSteady := hxs b' (by simp [hsplit])
  rcases List.append_eq_append_iff.1 hsplit with ⟨as, rfl, hwindow⟩ | ⟨as, rfl, hwindow⟩
  · exact exists_merges_of_window print hsteady ha hb hq ha' hb' hq' hwindow
  · rcases exists_merges_of_window print (l := l') hsteady' ha' hb' hq' ha hb hq hwindow with
      heq | ⟨ws, hws, hws'⟩
    · exact .inl heq.symm
    · exact .inr ⟨ws, hws', hws⟩

/-- A steady row stays steady, however often it is merged. -/
theorem steady_of_reaches (h : ReflTransGen (Merges print) xs ys) (hxs : Steady xs) :
    Steady ys := by
  induction h with
  | refl => exact hxs
  | tail _ hstep ih => exact hstep.steady ih

/-- And a closed row stays closed. -/
theorem closed_of_reaches (h : ReflTransGen (Merges print) xs ys) (hxs : Closed xs) :
    Closed ys := by
  induction h with
  | refl => exact hxs
  | tail _ hstep ih => exact hstep.closed ih

/-- What a part of a steady row is merged into, the row is merged into with it. -/
theorem reaches_append {print' : List (Item ρ) → ρ → Except Failure Text}
    (h : ReflTransGen (Merges print) xs ys) (hxs : Steady xs) (l r : List (Item ρ)) :
    ReflTransGen (Merges print') (l ++ xs ++ r) (l ++ ys ++ r) := by
  induction h with
  | refl => exact .refl
  | tail hreach hstep ih => exact ih.tail (hstep.append (steady_of_reaches hreach hxs) l r)

/-- Rows that are merged side by side. -/
theorem reaches_append_append {xs' ys' : List (Item ρ)} (hxs : Steady xs) (hys : Steady ys)
    (hx : ReflTransGen (Merges print) xs xs') (hy : ReflTransGen (Merges print) ys ys') :
    ReflTransGen (Merges print) (xs ++ ys) (xs' ++ ys') := by
  have hleft : ReflTransGen (Merges print) (xs ++ ys) (xs' ++ ys) := reaches_append hx hxs [] ys
  have hright : ReflTransGen (Merges print) (xs' ++ ys ++ []) (xs' ++ ys' ++ []) :=
    reaches_append hy hys xs' []
  rw [List.append_nil, List.append_nil] at hright
  exact hleft.trans hright

/-- **All ways of merging a steady row come together.** -/
theorem reaches_join (hxs : Steady xs) (h : ReflTransGen (Merges print) xs ys)
    (h' : ReflTransGen (Merges print) xs zs) :
    Join (ReflTransGen (Merges print)) ys zs := by
  -- The diamond needs rows to be steady, so it is one of the merges of steady rows.
  let R (as bs : List (Item ρ)) : Prop := Steady as ∧ Merges print as bs
  have hsteady : ∀ {bs}, ReflTransGen (Merges print) xs bs → ReflTransGen R xs bs := by
    intro bs hreach
    induction hreach with
    | refl => exact .refl
    | tail hreach hstep ih => exact ih.tail ⟨steady_of_reaches hreach hxs, hstep⟩
  have hdiamond : ∀ as bs cs, R as bs → R as cs →
      ∃ ds, ReflGen R bs ds ∧ ReflTransGen R cs ds := by
    rintro as bs cs ⟨has, hb⟩ ⟨-, hc⟩
    rcases hb.diamond has hc with rfl | ⟨ds, hbd, hcd⟩
    · exact ⟨bs, .refl, .refl⟩
    · exact ⟨ds, .single ⟨hb.steady has, hbd⟩, .single ⟨hc.steady has, hcd⟩⟩
  obtain ⟨ws, hys, hzs⟩ := church_rosser hdiamond (hsteady h) (hsteady h')
  exact ⟨ws, ReflTransGen.mono (fun _ _ => And.right) _ _ hys,
    ReflTransGen.mono (fun _ _ => And.right) _ _ hzs⟩

/-- A row that nothing merges in stays what it is. -/
theorem eq_of_reaches (hys : ∀ zs, ¬ Merges print ys zs)
    (h : ReflTransGen (Merges print) ys zs) : ys = zs := by
  rcases h.cases_head with h | ⟨ws, hstep, -⟩
  · exact h
  · exact absurd hstep (hys ws)

end Folded

open Folded

/-! ## The fold -/

section Fold

variable {print : List (Item ρ) → ρ → Except Failure Text} {xs ys : List (Item ρ)}

/-- A fold of steady items does not fail. -/
theorem fold_steady_failure? (h : Steady xs) : (fold print xs).failure? = none := by
  refine fold_failure? (fun hstep => hstep.steady) (fun {l r a b} hsteady => ?_) h
  rcases Item.merge?_steady (hsteady a (by simp)) (hsteady b (by simp)) with
    hnone | ⟨t, u, ha, hb, hq⟩
  · exact ⟨none, hnone⟩
  · exact ⟨_, Item.merge?_of_sides ha hb hq⟩

theorem fold_steady (h : Steady xs) : Steady (fold print xs).items :=
  steady_of_reaches (fold_reaches xs) h

theorem fold_closed (h : Closed xs) : Closed (fold print xs).items :=
  closed_of_reaches (fold_reaches xs) h

/-- **Every way of merging steady items to the end ends in their fold.** -/
theorem fold_eq_of_reaches (hxs : Steady xs) (h : ReflTransGen (Merges print) xs ys)
    (hys : ∀ zs, ¬ Merges print ys zs) : (fold print xs).items = ys := by
  have hquiet : Quiet (fold print xs).items := fold_quiet (fold_steady_failure? hxs)
  obtain ⟨ws, hws, hws'⟩ := reaches_join hxs (fold_reaches xs) h
  rw [eq_of_reaches (fun _ => hquiet.not_merges) hws, eq_of_reaches hys hws']

/-- Merging steady items does not change what they fold to. -/
theorem fold_items_of_reaches (hxs : Steady xs) (h : ReflTransGen (Merges print) xs ys) :
    (fold print ys).items = (fold print xs).items := by
  have hys : Steady ys := steady_of_reaches h hxs
  have hquiet : Quiet (fold print ys).items := fold_quiet (fold_steady_failure? hys)
  exact (fold_eq_of_reaches hxs (h.trans (fold_reaches ys)) fun _ => hquiet.not_merges).symm

/-- **A part of a row may be folded before the row is.** The same items
are left, and the merges add up. -/
theorem fold_append_fold {l r : List (Item ρ)} (h : Steady (l ++ xs ++ r)) :
    (fold print (l ++ (fold print xs).items ++ r)).items = (fold print (l ++ xs ++ r)).items ∧
      (fold print (l ++ xs ++ r)).merges =
        (fold print xs).merges + (fold print (l ++ (fold print xs).items ++ r)).merges := by
  have hitems : (fold print (l ++ (fold print xs).items ++ r)).items =
      (fold print (l ++ xs ++ r)).items :=
    fold_items_of_reaches h (reaches_append (fold_reaches xs) h.of_append l r)
  refine ⟨hitems, ?_⟩
  have hwhole := fold_length print (l ++ xs ++ r)
  have hpart := fold_length print xs
  have hrest := fold_length print (l ++ (fold print xs).items ++ r)
  rw [hitems] at hrest
  simp only [List.length_append] at hwhole hrest
  omega

end Fold

end Splice
