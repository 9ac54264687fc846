import Splice.Proofs.Expression.Concat
import Splice.Proofs.Folding.Confluence
import Splice.Proofs.JavaScript.Numeral
/-!
# Folding — two folded rows side by side

Two rows that have been folded are joined by an operator, and the row is
folded. Only there can anything merge (`Folded.Merges.at_joint`), and that
merge takes a text with a quote from one of the rows at least. It takes one
from each at a seam (`Folded.IsSeam`), where the one row ends in a text with
a quote at its end and the other one begins with a text with a quote at its
start.

That decides what it means to drop a row whose text is the empty literal.
The fold has the text of the other row at a seam, and only there
(`renderAll_fold_joined_right`, `renderAll_fold_joined_left`): elsewhere
the operator stays, or a quote comes to stand where the other row has
none.
-/

namespace Splice

open Folded Relation

variable {ρ : Type}

/-! ## The texts of steady rows -/

/-- A scalar is not written as nothing. -/
theorem Scalar.render_ne_nil {c : Scalar} : c.render ≠ .ok [] := by
  have hnumeral : ∀ {q : ℚ} {t : Text}, JavaScript.numeral? t = some q → t ≠ [] := by
    rintro q t h rfl
    cases h
  intro h
  cases c with
  | null => cases h
  | bool b => cases b <;> cases h
  | int n =>
    rw [render] at h
    split at h
    · exact hnumeral (Text.numeral?_ofInt n) (Except.ok.inj h)
    · cases h
  | float x =>
    have htext : x.codeText = [] := Except.ok.inj h
    by_cases hx : x.isFinite = true
    · by_cases hout : x.IsWrittenOut
      · exact hnumeral ((Double.numeral?_codeText hx).1 hout) htext
      · exact hnumeral ((Double.numeral?_codeText hx).2 hout) htext
    · rw [Double.codeText, if_neg hx] at htext
      split at htext
      · cases htext
      · split at htext <;> cases htext

/-- A scalar is written without a quote at either end. -/
theorem Scalar.not_quoted_render {c : Scalar} {t : Text} (h : c.render = .ok t) :
    t.startsQuoted = false ∧ t.endsQuoted = false := by
  have hnone : ∀ b, b ∈ t → b ≠ .char '"' := fun b hb =>
    CodePoint.ne_quote_of_isPlain (Scalar.plain_render h b hb)
  constructor
  · refine Bool.eq_false_iff.2 fun hstart => hnone _ (List.mem_of_head? ?_) rfl
    simpa [Text.startsQuoted] using hstart
  · refine Bool.eq_false_iff.2 fun hend => hnone _ (List.mem_of_getLast? ?_) rfl
    simpa [Text.endsQuoted] using hend

namespace Text

variable {t u : Text}

theorem startsQuoted_append (ht : t ≠ []) : (t ++ u).startsQuoted = t.startsQuoted := by
  rw [startsQuoted, startsQuoted, List.head?_append_of_ne_nil t ht]

theorem endsQuoted_append (hu : u ≠ []) : (t ++ u).endsQuoted = u.endsQuoted := by
  rw [endsQuoted, endsQuoted, List.getLast?_append_of_ne_nil t hu]

theorem endsQuoted_concat (t : Text) : (t ++ [CodePoint.char '"']).endsQuoted = true :=
  endsQuoted_append (u := [.char '"']) nofun

end Text

namespace Item

variable {p : ρ → Except Failure Text} {a : Item ρ} {t u : Text}

theorem IsSteady.exists_render (h : a.IsSteady) : ∃ t, a.render p = .ok t := by
  cases h with
  | name n => exact ⟨_, rfl⟩
  | text _ => exact ⟨_, rfl⟩
  | scalar hc => exact ⟨_, hc⟩

/-- A quote in front of a left operand is in what it keeps. -/
theorem Left.startsQuoted (h : a.Left t) (ha : a.IsSteady) (hu : a.render p = .ok u) (v : Text)
    (hstart : (u ++ v).startsQuoted = true) : t.startsQuoted = true := by
  have hne := h.ne_nil ha
  cases h with
  | text =>
    cases hu
    rwa [List.append_assoc, Text.startsQuoted_append hne] at hstart
  | scalar => rfl

/-- A quote behind a right operand is in what it keeps. -/
theorem Right.endsQuoted (h : a.Right t) (ha : a.IsSteady) (hu : a.render p = .ok u) (v : Text)
    (hend : (v ++ u).endsQuoted = true) : t.endsQuoted = true := by
  have hne := h.ne_nil ha
  cases h with
  | text =>
    cases hu
    rwa [List.append_cons, Text.endsQuoted_append hne] at hend
  | scalar => exact Text.endsQuoted_concat _

/-- A left operand is a text if it is written with a quote at its end. -/
theorem Left.exists_text (h : a.Left t) (hu : a.render p = .ok u) (v : Text)
    (hend : (v ++ u).endsQuoted = true) : a = .text (t ++ [.char '"']) := by
  cases h with
  | text => rfl
  | scalar hc =>
    cases hc.symm.trans hu
    have hne : u ≠ [] := fun h => Scalar.render_ne_nil (h ▸ hc)
    rw [Text.endsQuoted_append hne, (Scalar.not_quoted_render hc).2] at hend
    cases hend

/-- And a right operand if it is written with one at its start. -/
theorem Right.exists_text (h : a.Right t) (hu : a.render p = .ok u) (v : Text)
    (hstart : (u ++ v).startsQuoted = true) : a = .text (.char '"' :: t) := by
  cases h with
  | text => rfl
  | scalar hc =>
    cases hc.symm.trans hu
    have hne : u ≠ [] := fun h => Scalar.render_ne_nil (h ▸ hc)
    rw [Text.startsQuoted_append hne, (Scalar.not_quoted_render hc).1] at hstart
    cases hstart

end Item

namespace Folded

variable {print : List (Item ρ) → ρ → Except Failure Text} {p : ρ → Except Failure Text}
  {xs ys zs l r : List (Item ρ)} {t u : Text}

theorem Steady.exists_renderAll (h : Steady xs) (p : ρ → Except Failure Text) :
    ∃ t, Item.renderAll p xs = .ok t := Item.exists_renderAll fun x hx => (h x hx).exists_render

/-- **Quotes at the ends of a text stay there**, whatever merges. -/
theorem Merges.quoted_ends (h : Merges print xs ys) (hxs : Steady xs)
    (ht : Item.renderAll p xs = .ok t) (hu : Item.renderAll p ys = .ok u) :
    (t.startsQuoted = true → u.startsQuoted = true) ∧
      (t.endsQuoted = true → u.endsQuoted = true) := by
  obtain ⟨l, r, a, b, v, w, rfl, rfl, hv, hw, -⟩ := h.steady_cases hxs
  simp only [Steady, List.forall_mem_append, List.forall_mem_cons] at hxs
  obtain ⟨hl, ha, -, hb, hr⟩ := hxs
  obtain ⟨tl, htl⟩ := Steady.exists_renderAll hl p
  obtain ⟨ta, hta⟩ := ha.exists_render (p := p)
  obtain ⟨tb, htb⟩ := hb.exists_render (p := p)
  obtain ⟨tr, htr⟩ := Steady.exists_renderAll hr p
  have hplus : Item.render p (.plus : Item ρ) = .ok [.char '+'] := rfl
  cases (Item.renderAll_append_of_ok htl (Item.renderAll_cons_of_ok hta
    (Item.renderAll_cons_of_ok hplus (Item.renderAll_cons_of_ok htb htr)))).symm.trans ht
  cases (Item.renderAll_append_of_ok htl (Item.renderAll_cons_of_ok rfl htr)).symm.trans hu
  constructor
  · intro hstart
    by_cases hempty : tl = []
    · subst hempty
      rw [List.nil_append, List.append_assoc, Text.startsQuoted_append (hv.ne_nil ha)]
      exact hv.startsQuoted ha hta _ hstart
    · rwa [Text.startsQuoted_append hempty] at hstart ⊢
  · intro hend
    by_cases hempty : tr = []
    · subst hempty
      rw [List.append_nil, ← List.append_assoc, Text.endsQuoted_append (hw.ne_nil hb)]
      refine hw.endsQuoted hb htb (tl ++ (ta ++ [.char '+'])) ?_
      simpa using hend
    · rw [← List.append_assoc, Text.endsQuoted_append hempty]
      rw [← List.append_assoc, ← List.append_assoc, ← List.append_assoc,
        Text.endsQuoted_append hempty] at hend
      exact hend

theorem quoted_ends_of_reaches (h : ReflTransGen (Merges print) xs ys) (hxs : Steady xs)
    (ht : Item.renderAll p xs = .ok t) (hu : Item.renderAll p ys = .ok u) :
    (t.startsQuoted = true → u.startsQuoted = true) ∧
      (t.endsQuoted = true → u.endsQuoted = true) := by
  induction h generalizing u with
  | refl =>
    cases ht.symm.trans hu
    exact ⟨id, id⟩
  | @tail ys zs hreach hstep ih =>
    have hys := steady_of_reaches hreach hxs
    obtain ⟨v, hv⟩ := hys.exists_renderAll p
    obtain ⟨hstart, hend⟩ := ih hv
    obtain ⟨hstart', hend'⟩ := hstep.quoted_ends hys hv hu
    exact ⟨hstart' ∘ hstart, hend' ∘ hend⟩

/-- What is merged is not written as nothing. -/
theorem Merges.renderAll_ne_nil (h : Merges print xs ys) (hxs : Steady xs) :
    Item.renderAll p ys ≠ .ok [] := by
  intro hys
  obtain ⟨l, r, a, b, v, w, rfl, rfl, hv, -⟩ := h.steady_cases hxs
  obtain ⟨c, v, rfl⟩ := List.exists_cons_of_ne_nil (hv.ne_nil (hxs a (by simp)))
  obtain ⟨u, hu, hsub⟩ :=
    Item.mem_of_renderAll hys (List.mem_append_right l List.mem_cons_self)
  cases hu
  exact List.not_mem_nil (hsub c (by simp))

/-! ## The operator between two rows -/

/-- A row with no operator in it is quiet. -/
theorem quiet_of_not_mem (h : .plus ∉ xs) : Quiet xs := by
  rintro l a b r rfl
  simp at h

/-- A row without a text has no operator in it. -/
theorem not_mem_plus_of_renderAll (ht : Item.renderAll p xs = .ok t) (hplus : .char '+' ∉ t) :
    .plus ∉ xs := by
  intro hmem
  obtain ⟨u, hu, hsub⟩ := Item.mem_of_renderAll ht hmem
  cases hu
  exact hplus (hsub _ List.mem_cons_self)

theorem Steady.joined (hxs : Steady xs) (hys : Steady ys) : Steady (xs ++ .plus :: ys) :=
  List.forall_mem_append.2 ⟨hxs, List.forall_mem_cons.2 ⟨.text (by decide), hys⟩⟩

/-- The text of joined rows. -/
theorem renderAll_joined (ht : Item.renderAll p xs = .ok t) (hu : Item.renderAll p ys = .ok u) :
    Item.renderAll p (xs ++ .plus :: ys) = .ok (t ++ .char '+' :: u) :=
  Item.renderAll_append_of_ok ht (Item.renderAll_cons_of_ok (t := [.char '+']) rfl hu)

/-- **Two quiet rows merge where they are joined only**, the last item of
the one with the first item of the other. -/
theorem Merges.at_joint (hxs : Steady xs) (hys : Steady ys) (hquiet : Quiet xs)
    (hquiet' : Quiet ys) (h : Merges print (xs ++ .plus :: ys) zs) :
    ∃ l a b r t u, xs = l ++ [a] ∧ ys = b :: r ∧ zs = l ++ .text (t ++ u) :: r ∧
      a.Left t ∧ b.Right u := by
  obtain ⟨l, r, a, b, t, u, hsplit, rfl, ha, hb, hq⟩ := h.steady_cases (hxs.joined hys)
  have hmerge : a.merge? (fun _ => .ok []) b = .ok (some (t ++ u)) :=
    Item.merge?_of_sides ha hb hq
  rcases List.append_eq_append_iff.1 hsplit with ⟨as, rfl, has⟩ | ⟨as, rfl, has⟩
  · -- The merge would be in the row on the right.
    rcases as with _ | ⟨c, as⟩
    · exact absurd (List.cons.inj has).1.symm ha.ne_plus
    · obtain ⟨-, rfl⟩ := List.cons.inj has
      cases (hquiet' as a b r rfl _).symm.trans hmerge
  · match as with
    | [] => exact absurd (List.cons.inj has).1 ha.ne_plus
    | [c] =>
      obtain ⟨rfl, rfl⟩ : a = c ∧ b :: r = ys := by simpa using has
      exact ⟨l, a, b, r, t, u, rfl, rfl, rfl, ha, hb⟩
    | [c, d] =>
      obtain ⟨-, -, hplus, -⟩ : a = c ∧ Item.plus = d ∧ b = .plus ∧ r = ys := by simpa using has
      exact absurd hplus hb.ne_plus
    | c :: d :: e :: as =>
      -- The merge would be in the row on the left.
      obtain ⟨rfl, rfl, rfl, -⟩ :
          a = c ∧ Item.plus = d ∧ b = e ∧ r = as ++ .plus :: ys := by simpa using has
      cases (hquiet l a b as rfl _).symm.trans hmerge

/-- The one row ends in a text with a quote at its end, and the other one
begins with a text with a quote at its start. -/
def IsSeam (xs ys : List (Item ρ)) : Prop :=
  xs.getLast?.any Item.endsQuoted = true ∧ ys.head?.any Item.startsQuoted = true

instance (xs ys : List (Item ρ)) : Decidable (IsSeam xs ys) :=
  inferInstanceAs (Decidable (_ ∧ _))

theorem isSeam_iff :
    IsSeam xs ys ↔
      ∃ l v w r, xs = l ++ [.text (v ++ [.char '"'])] ∧ ys = .text (.char '"' :: w) :: r := by
  constructor
  · rintro ⟨hend, hstart⟩
    rcases List.eq_nil_or_concat xs with rfl | ⟨l, a, rfl⟩
    · cases hend
    rcases ys with _ | ⟨b, r⟩
    · cases hstart
    have ha : a.endsQuoted = true := by simpa using hend
    have hb : b.startsQuoted = true := by simpa using hstart
    cases a with
    | text v =>
      cases b with
      | text w =>
        obtain ⟨v, rfl⟩ := List.getLast?_eq_some_iff.1 (beq_iff_eq.1 ha)
        obtain ⟨w, rfl⟩ := List.head?_eq_some_iff.1 (beq_iff_eq.1 hb)
        exact ⟨l, v, w, r, by simp, rfl⟩
      | _ => cases hb
    | _ => cases ha
  · rintro ⟨l, v, w, r, rfl, rfl⟩
    exact ⟨by simpa [Item.endsQuoted] using Text.endsQuoted_concat v, rfl⟩

/-- A merge of two folded rows is one at a seam if the texts have quotes there. -/
theorem isSeam_of_merges (hxs : Steady xs) (hys : Steady ys) (hquiet : Quiet xs)
    (hquiet' : Quiet ys) (h : Merges print (xs ++ .plus :: ys) zs)
    (ht : Item.renderAll p xs = .ok t) (hend : t.endsQuoted = true)
    (hu : Item.renderAll p ys = .ok u) (hstart : u.startsQuoted = true) : IsSeam xs ys := by
  obtain ⟨l, a, b, r, v, w, rfl, rfl, -, ha, hb⟩ := h.at_joint hxs hys hquiet hquiet'
  simp only [Steady, List.forall_mem_append, List.forall_mem_cons] at hxs hys
  obtain ⟨tl, htl⟩ := Steady.exists_renderAll hxs.1 p
  obtain ⟨ta, hta⟩ := hxs.2.1.exists_render (p := p)
  obtain ⟨tb, htb⟩ := hys.1.exists_render (p := p)
  obtain ⟨tr, htr⟩ := Steady.exists_renderAll hys.2 p
  cases (Item.renderAll_append_of_ok htl (Item.renderAll_singleton hta)).symm.trans ht
  cases (Item.renderAll_cons_of_ok htb htr).symm.trans hu
  have hleft := ha.exists_text hta tl hend
  have hright := hb.exists_text htb tr hstart
  exact isSeam_iff.2 ⟨l, v, w, r, by rw [hleft], by rw [hright]⟩

end Folded

/-! ## The fold of two rows -/

section Fold

variable {print : List (Item ρ) → ρ → Except Failure Text} {p : ρ → Except Failure Text}
  {xs ys l r : List (Item ρ)} {t u v w : Text}

/-- At a seam the texts become one, and if the rest is quiet then, that is all. -/
theorem fold_joined
    (hsteady : Steady (l ++ [.text (v ++ [.char '"'])] ++ .plus :: .text (.char '"' :: w) :: r))
    (hne : (.text (v ++ w) : Item ρ) ≠ .plus) (hleft : Quiet (l ++ [.text (v ++ w)]))
    (hright : Quiet (.text (v ++ w) :: r)) :
    (fold print (l ++ [.text (v ++ [.char '"'])] ++ .plus :: .text (.char '"' :: w) :: r)).items =
      l ++ .text (v ++ w) :: r := by
  have hquiet : Quiet (l ++ .text (v ++ w) :: r) := (windows_append_cons hne).2 ⟨hleft, hright⟩
  rw [List.append_assoc] at hsteady ⊢
  exact fold_eq_of_reaches hsteady (.single (.of_sides (.text v) (.text w) (.inl ⟨_, rfl⟩)))
    fun _ => hquiet.not_merges

/-- A text that is more than a quote and ends the literal of the empty text is the literal. -/
theorem Text.eq_nil_of_append_concat (hv : v ≠ [])
    (h : t ++ (v ++ [.char '"']) = Text.literal []) : t = [] ∧ v = [.char '"'] := by
  have hliteral : Text.literal [] = [CodePoint.char '"'] ++ [.char '"'] := rfl
  rw [hliteral, ← List.append_assoc] at h
  have hinner := (List.append_inj' h rfl).1
  rcases List.append_eq_singleton_iff.1 hinner with h | ⟨-, h⟩
  · exact h
  · exact absurd h hv

/-- And so is one that begins it. -/
theorem Text.eq_nil_of_cons_append (hw : w ≠ [])
    (h : .char '"' :: w ++ u = Text.literal []) : w = [.char '"'] ∧ u = [] := by
  have hinner : w ++ u = [.char '"'] := (List.cons.inj h).2
  rcases List.append_eq_singleton_iff.1 hinner with ⟨h, -⟩ | h
  · exact absurd h hw
  · exact h

variable (hxs : Steady xs) (hys : Steady ys) (hquiet : Quiet xs) (hquiet' : Quiet ys)
  (ht : Item.renderAll p xs = .ok t) (hu : Item.renderAll p ys = .ok u)

include hxs hys hquiet hquiet' ht hu

/-- Elsewhere than at a seam the operator stays, or a quote at an end of
the fold is new. -/
theorem isSeam_of_renderAll_fold
    (hfold : Item.renderAll p (fold print (xs ++ .plus :: ys)).items = .ok w)
    (hne : w ≠ t ++ .char '+' :: u) (hend : t.endsQuoted = true) (hstart : u.startsQuoted = true) :
    IsSeam xs ys := by
  by_cases hmerges : ∃ zs, Merges print (xs ++ .plus :: ys) zs
  · obtain ⟨zs, hmerges⟩ := hmerges
    exact isSeam_of_merges hxs hys hquiet hquiet' hmerges ht hend hu hstart
  · have hrest := fold_eq_of_reaches (hxs.joined hys) .refl (not_exists.1 hmerges)
    rw [hrest] at hfold
    exact absurd (Except.ok.inj (hfold.symm.trans (renderAll_joined ht hu))) hne

/-- **Dropping an empty row on the right** leaves the text of the fold
exactly if there is a seam. -/
theorem renderAll_fold_joined_right (hempty : u = Text.literal []) :
    Item.renderAll p (fold print (xs ++ .plus :: ys)).items = .ok t ↔ IsSeam xs ys := by
  constructor
  · intro hfold
    have hends := quoted_ends_of_reaches (fold_reaches _) (hxs.joined hys)
      (renderAll_joined ht hu) hfold
    refine isSeam_of_renderAll_fold hxs hys hquiet hquiet' ht hu hfold ?_ (hends.2 ?_) ?_
    · intro h
      have hlength := congrArg List.length h
      simp at hlength
    · rw [hempty]
      exact Text.endsQuoted_append (u := .char '+' :: Text.literal []) nofun
    · rw [hempty]
      rfl
  · intro hseam
    obtain ⟨l, v, w, r, rfl, rfl⟩ := isSeam_iff.1 hseam
    have hsteady := hxs.joined hys
    obtain ⟨hfirst, hrest⟩ := List.forall_mem_cons.1 hys
    obtain ⟨tr, htr⟩ := Steady.exists_renderAll hrest p
    cases (Item.renderAll_cons_of_ok rfl htr).symm.trans hu
    obtain ⟨rfl, rfl⟩ := Text.eq_nil_of_cons_append ((Item.Right.text w).ne_nil hfirst) hempty
    have hne : (.text (v ++ [.char '"']) : Item ρ) ≠ .plus := (Item.Left.text v).ne_plus
    have hr : .plus ∉ r := not_mem_plus_of_renderAll htr List.not_mem_nil
    have hright : Quiet (.text (v ++ [.char '"']) :: r) :=
      quiet_of_not_mem (List.not_mem_cons_of_ne_of_not_mem hne.symm hr)
    rw [fold_joined hsteady hne hquiet hright, List.append_cons,
      Item.renderAll_append_of_ok ht htr, List.append_nil]

/-- **Dropping an empty row on the left** does so too. -/
theorem renderAll_fold_joined_left (hempty : t = Text.literal []) :
    Item.renderAll p (fold print (xs ++ .plus :: ys)).items = .ok u ↔ IsSeam xs ys := by
  constructor
  · intro hfold
    have hends := quoted_ends_of_reaches (fold_reaches _) (hxs.joined hys)
      (renderAll_joined ht hu) hfold
    refine isSeam_of_renderAll_fold hxs hys hquiet hquiet' ht hu hfold ?_ ?_ (hends.1 ?_)
    · intro h
      have hlength := congrArg List.length h
      simp at hlength
      omega
    · rw [hempty]
      rfl
    · rw [hempty]
      rfl
  · intro hseam
    obtain ⟨l, v, w, r, rfl, rfl⟩ := isSeam_iff.1 hseam
    have hsteady := hxs.joined hys
    obtain ⟨hrest, hlast⟩ := List.forall_mem_append.1 hxs
    obtain ⟨tl, htl⟩ := Steady.exists_renderAll hrest p
    cases (Item.renderAll_append_of_ok htl (Item.renderAll_singleton rfl)).symm.trans ht
    obtain ⟨rfl, rfl⟩ := Text.eq_nil_of_append_concat
      ((Item.Left.text v).ne_nil (List.forall_mem_singleton.1 hlast)) hempty
    have hne : (.text (.char '"' :: w) : Item ρ) ≠ .plus := (Item.Right.text w).ne_plus
    have hl : .plus ∉ l := not_mem_plus_of_renderAll htl List.not_mem_nil
    have hleft : Quiet (l ++ [.text (.char '"' :: w)]) := by
      refine quiet_of_not_mem fun hmem => ?_
      rcases List.mem_append.1 hmem with hmem | hmem
      · exact hl hmem
      · exact hne (List.mem_singleton.1 hmem).symm
    rw [fold_joined hsteady hne hleft hquiet']
    exact Item.renderAll_append_of_ok htl hu

end Fold

end Splice
