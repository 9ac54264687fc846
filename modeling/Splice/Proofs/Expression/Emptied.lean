import Splice.Proofs.Folding.Seam
import Splice.Proofs.Store.Rewrite
/-!
# Concatenation — operands that have been folded

Whether an operand is empty is read off its text. So an expression of
several empty strings is not empty, but it is once it has been folded, and
then it is dropped where it would have been joined before. What two
operands are concatenated and folded to may thus depend on whether they
have been folded before.

It does not if they fit (`View.Fits.concatText_eq`), and if they do not, it
makes a difference to have both of them folded (`View.fits_iff`). They do
not fit only if folding makes one of them empty, and even then they may
meet at a seam once they are folded, where the empty literal is taken in by
the literal next to it.

What is said of rows here needs the texts in them to be more than a lone
quote (`View.NoLoneQuote`): whatever else a text begins or ends with, it
keeps its other end when it merges.
-/

namespace Splice

open Folded Relation

namespace View

/-- What is seen of a code value that has been folded. -/
def folded (x : View) : View := ⟨(fold (fun _ _ => .ok []) x.items).items, x.isExpression⟩

/-- The text that is left by a fold, if that does not fail. -/
def foldedText (x : View) : Except Failure Text :=
  match (fold (fun _ _ => .ok []) x.items).failure? with
  | none => x.folded.text
  | some e => .error e

/-- The text of what two operands are concatenated and folded to. -/
def concatText (x y : View) : Except Failure Text := x.concat y >>= foldedText

/-- No text is a quote and nothing else. -/
def NoLoneQuote (x : View) : Prop := .text [.char '"'] ∉ x.items

/-- What it takes that operands may be folded or not before they are
concatenated. -/
structure Fits (x y : View) : Prop where
  /-- If operands are not empty, but one is when it is folded, both meet at
  a seam when they are folded. -/
  seam : x.isEmpty = .ok false → y.isEmpty = .ok false →
    x.folded.isEmpty = .ok true ∨ y.folded.isEmpty = .ok true →
    IsSeam x.folded.items y.folded.items
  /-- If the left operand is empty, and the right one only when it is
  folded, both are the literal of the empty text then. -/
  blank : x.isEmpty = .ok true → y.isEmpty = .ok false → y.folded.isEmpty = .ok true →
    x.text = .ok (Text.literal [])

variable {x y x' y' : View} {t : Text}

/-! ## One operand -/

theorem text_congr (h : x'.items = x.items) : x'.text = x.text := by rw [text, text, h]

theorem isEmpty_congr (h : x'.items = x.items) : x'.isEmpty = x.isEmpty := by
  rw [isEmpty, isEmpty, text_congr h]

/-- With a text and without a lone quote, all items are steady. -/
theorem steady_of_text (hbare : ∀ i ∈ x.items, i.IsBare) (hquote : x.NoLoneQuote)
    (ht : x.text = .ok t) : Steady x.items := by
  intro i hi
  obtain ⟨u, hu, -⟩ := Item.mem_of_renderAll ht hi
  cases i with
  | name n => exact .name n
  | text t => exact .text fun h => hquote (h ▸ hi)
  | scalar c => exact .scalar hu
  | object r => exact absurd rfl (hbare _ hi r)

/-- There is no operator in what is empty, so nothing merges. -/
theorem quiet_of_isEmpty (h : x.isEmpty = .ok true) : Quiet x.items := by
  obtain ⟨t, ht, hblank⟩ := exists_text h
  refine quiet_of_not_mem (not_mem_plus_of_renderAll ht fun hplus => ?_)
  rcases Text.isBlank_iff.1 hblank with rfl | rfl
  · cases hplus
  · exact absurd hplus (by decide)

theorem items_folded_of_isEmpty (h : x.isEmpty = .ok true) : x.folded.items = x.items := by
  rw [folded, fold_of_quiet (quiet_of_isEmpty h)]

/-- So it stays empty. -/
theorem isEmpty_of_mergesTo (h : MergesTo x.items x'.items) (hempty : x.isEmpty = .ok true) :
    x'.isEmpty = .ok true :=
  (isEmpty_congr (h.eq_of_quiet (quiet_of_isEmpty hempty))).trans hempty

section Steady

variable (hx : Steady x.items)

include hx

theorem exists_isEmpty : ∃ b, x.isEmpty = .ok b := by
  obtain ⟨t, ht⟩ := hx.exists_renderAll fun _ => .ok []
  exact ⟨_, isEmpty_of_text ht⟩

/-- What has been merged folds to the same. -/
theorem items_folded_of_mergesTo (h : MergesTo x.items x'.items) :
    x'.folded.items = x.folded.items := fold_items_of_reaches hx (h _)

/-- What has been merged until it is empty is empty when it is folded. -/
theorem isEmpty_folded_of_mergesTo (h : MergesTo x.items x'.items)
    (hempty : x'.isEmpty = .ok true) : x.folded.isEmpty = .ok true := by
  rw [← hempty, isEmpty_congr (items_folded_of_mergesTo hx h).symm,
    isEmpty_congr (items_folded_of_isEmpty hempty)]

theorem foldedText_of_mergesTo (h : MergesTo x.items x'.items) :
    x'.foldedText = x.folded.text := by
  have hsteady : Steady x'.items := steady_of_reaches (h fun _ _ => .ok []) hx
  rw [foldedText, fold_steady_failure? hsteady]
  exact text_congr (items_folded_of_mergesTo hx h)

theorem quiet_folded : Quiet x.folded.items := fold_quiet (fold_steady_failure? hx)

theorem steady_folded : Steady x.folded.items := fold_steady hx

theorem mergesTo_folded : MergesTo x.items x.folded.items := mergesTo_fold hx.isBare

/-- **What only a fold makes empty** is the literal of the empty text then. -/
theorem text_folded_of_isEmpty (h : x.isEmpty = .ok false) (hfolded : x.folded.isEmpty = .ok true) :
    x.folded.text = .ok (Text.literal []) := by
  obtain ⟨t, ht, hblank⟩ := exists_text hfolded
  rcases (mergesTo_folded hx fun _ _ => .ok []).cases_tail with heq | ⟨ys, hreach, hstep⟩
  · cases h.symm.trans ((isEmpty_congr heq).symm.trans hfolded)
  · -- The last merge leaves a text, so there is something.
    have hne := hstep.renderAll_ne_nil (p := fun _ => .ok []) (steady_of_reaches hreach hx)
    rcases Text.isBlank_iff.1 hblank with rfl | rfl
    · exact absurd ht hne
    · exact ht

end Steady

/-! ## Two operands -/

theorem concatText_of_isEmpty (hy : y.isEmpty = .ok true) : x.concatText y = x.foldedText := by
  rw [concatText, concat_of_isEmpty hy]
  rfl

theorem concatText_of_isEmpty_left (hx : x.isEmpty = .ok true) (hy : y.isEmpty = .ok false) :
    x.concatText y = y.foldedText := by
  rw [concatText, concat_of_isEmpty_left hx hy]
  rfl

theorem concatText_of_not_isEmpty (hx : x.isEmpty = .ok false) (hy : y.isEmpty = .ok false) :
    x.concatText y = (x.joined y).foldedText := by
  rw [concatText, concat_of_not_isEmpty hx hy]
  rfl

section Steady

variable (hx : Steady x.items) (hy : Steady y.items)

include hx hy

theorem mergesTo_joined (hx' : MergesTo x.items x'.items) (hy' : MergesTo y.items y'.items) :
    MergesTo (x.joined y).items (x'.joined y').items := fun print =>
  have hplus : ReflTransGen (Merges print) ([.plus] ++ y.items) ([.plus] ++ y'.items) :=
    reaches_append_append (List.forall_mem_singleton.2 (.text (by decide))) hy .refl (hy' print)
  reaches_append_append hx (List.forall_mem_cons.2 ⟨.text (by decide), hy⟩) (hx' print) hplus

/-- **Operands that are joined** fold to the same, however they have been
merged before. -/
theorem foldedText_joined (hx' : MergesTo x.items x'.items) (hy' : MergesTo y.items y'.items) :
    (x'.joined y').foldedText = (x.folded.joined y.folded).folded.text := by
  have hsteady : Steady (x.joined y).items := hx.joined hy
  have hfolded := mergesTo_joined hx hy (mergesTo_folded hx) (mergesTo_folded hy)
  rw [foldedText_of_mergesTo hsteady (mergesTo_joined hx hy hx' hy')]
  exact text_congr (items_folded_of_mergesTo hsteady hfolded).symm

/-- Dropping what a fold makes empty from the right leaves the text exactly
at a seam. -/
theorem foldedText_joined_right (h : y.isEmpty = .ok false) (h' : y.folded.isEmpty = .ok true) :
    (x.joined y).foldedText = x.folded.text ↔ IsSeam x.folded.items y.folded.items := by
  obtain ⟨t, ht⟩ : ∃ t, x.folded.text = .ok t := (steady_folded hx).exists_renderAll _
  have hu := text_folded_of_isEmpty hy h h'
  rw [foldedText_joined hx hy (.refl _) (.refl _), ht]
  exact renderAll_fold_joined_right (steady_folded hx) (steady_folded hy) (quiet_folded hx)
    (quiet_folded hy) ht hu rfl

/-- And dropping it from the left does so too. -/
theorem foldedText_joined_left (h : x.isEmpty = .ok false) (h' : x.folded.isEmpty = .ok true) :
    (x.joined y).foldedText = y.folded.text ↔ IsSeam x.folded.items y.folded.items := by
  have ht := text_folded_of_isEmpty hx h h'
  obtain ⟨u, hu⟩ : ∃ u, y.folded.text = .ok u := (steady_folded hy).exists_renderAll _
  rw [foldedText_joined hx hy (.refl _) (.refl _), hu]
  exact renderAll_fold_joined_left (steady_folded hx) (steady_folded hy) (quiet_folded hx)
    (quiet_folded hy) ht hu rfl

/-- Operands that fit are concatenated and folded to the same text, however
they have been merged before. -/
theorem Fits.concatText_eq_of_steady (h : x.Fits y) (hx' : MergesTo x.items x'.items)
    (hy' : MergesTo y.items y'.items) : x'.concatText y' = x.concatText y := by
  obtain ⟨b, hb⟩ := exists_isEmpty hx
  obtain ⟨c, hc⟩ := exists_isEmpty hy
  obtain ⟨b', hb'⟩ := exists_isEmpty (steady_of_reaches (hx' fun _ _ => .ok []) hx)
  obtain ⟨c', hc'⟩ := exists_isEmpty (steady_of_reaches (hy' fun _ _ => .ok []) hy)
  cases c with
  | true =>
    rw [concatText_of_isEmpty (isEmpty_of_mergesTo hy' hc), concatText_of_isEmpty hc,
      foldedText_of_mergesTo hx hx', foldedText_of_mergesTo hx (.refl _)]
  | false =>
    cases c' with
    | true =>
      -- The right operand is empty by now.
      have hfolded := isEmpty_folded_of_mergesTo hy hy' hc'
      rw [concatText_of_isEmpty hc', foldedText_of_mergesTo hx hx']
      cases b with
      | true =>
        rw [concatText_of_isEmpty_left hb hc, foldedText_of_mergesTo hy (.refl _),
          text_folded_of_isEmpty hy hc hfolded, text_congr (items_folded_of_isEmpty hb),
          h.blank hb hc hfolded]
      | false =>
        rw [concatText_of_not_isEmpty hb hc]
        exact ((foldedText_joined_right hx hy hc hfolded).2 (h.seam hb hc (.inr hfolded))).symm
    | false =>
      cases b with
      | true =>
        rw [concatText_of_isEmpty_left (isEmpty_of_mergesTo hx' hb) hc',
          concatText_of_isEmpty_left hb hc, foldedText_of_mergesTo hy hy',
          foldedText_of_mergesTo hy (.refl _)]
      | false =>
        rw [concatText_of_not_isEmpty hb hc]
        cases b' with
        | true =>
          -- The left operand is empty by now.
          have hfolded := isEmpty_folded_of_mergesTo hx hx' hb'
          rw [concatText_of_isEmpty_left hb' hc', foldedText_of_mergesTo hy hy']
          exact ((foldedText_joined_left hx hy hb hfolded).2 (h.seam hb hc (.inl hfolded))).symm
        | false =>
          rw [concatText_of_not_isEmpty hb' hc', foldedText_joined hx hy hx' hy',
            foldedText_joined hx hy (.refl _) (.refl _)]

/-- Operands that do not fit show it when both have been folded. -/
theorem fits_of_steady (h : x.folded.concatText y.folded = x.concatText y) : x.Fits y where
  seam := by
    intro hb hc hfolded
    rw [concatText_of_not_isEmpty hb hc] at h
    obtain ⟨c, hc'⟩ := exists_isEmpty (steady_folded hy)
    cases c with
    | true =>
      rw [concatText_of_isEmpty hc', foldedText_of_mergesTo hx (mergesTo_folded hx)] at h
      exact (foldedText_joined_right hx hy hc hc').1 h.symm
    | false =>
      have hb' : x.folded.isEmpty = .ok true := by simpa [hc'] using hfolded
      rw [concatText_of_isEmpty_left hb' hc', foldedText_of_mergesTo hy (mergesTo_folded hy)] at h
      exact (foldedText_joined_left hx hy hb hb').1 h.symm
  blank := by
    intro hb hc hc'
    rw [concatText_of_isEmpty hc', foldedText_of_mergesTo hx (mergesTo_folded hx),
      concatText_of_isEmpty_left hb hc, foldedText_of_mergesTo hy (.refl _),
      text_folded_of_isEmpty hy hc hc', text_congr (items_folded_of_isEmpty hb)] at h
    exact h

end Steady

end View

/-! ## Operands without a text -/

section Failure

variable {ρ : Type} {print : List (Item ρ) → ρ → Except Failure Text} {p : ρ → Except Failure Text}
  {a b : Item ρ} {t : Text} {xs ys : List (Item ρ)} {e : Failure}

/-- A bare item that merges has a text. -/
theorem Item.exists_render_of_merge? (ha : a.IsBare) (hb : b.IsBare)
    (h : a.merge? p b = .ok (some t)) : (∃ u, a.render p = .ok u) ∧ ∃ u, b.render p = .ok u := by
  have hinner : ∀ {x : Except Failure Text} {f : Text → Text},
      (do let inner ← x; return some (f inner) : Except Failure (Option Text)) = .ok (some t) →
        ∃ u, x = .ok u := by
    intro x f hx
    obtain ⟨u, hu, -⟩ := exists_of_bind_eq_ok hx
    exact ⟨u, hu⟩
  cases a with
  | object r => exact absurd rfl (ha r)
  | name n => cases h
  | text t =>
    refine ⟨⟨t, rfl⟩, ?_⟩
    cases b with
    | object r => exact absurd rfl (hb r)
    | name n => cases h
    | text u => exact ⟨u, rfl⟩
    | scalar c =>
      simp only [merge?] at h
      split at h
      · exact hinner h
      · cases h
  | scalar c =>
    cases b with
    | object r => exact absurd rfl (hb r)
    | name n => cases h
    | scalar d => cases h
    | text u =>
      refine ⟨?_, ⟨u, rfl⟩⟩
      simp only [merge?] at h
      split at h
      · exact hinner h
      · cases h

/-- So a row that has no text has none after a merge. -/
theorem Folded.Merges.exists_renderAll (h : Merges print xs ys) (hxs : ∀ x ∈ xs, x.IsBare)
    (hys : Item.renderAll p ys = .ok t) : ∃ u, Item.renderAll p xs = .ok u := by
  obtain @⟨l, r, a, b, v, hm⟩ := h
  have hrest : ∀ x ∈ l ++ .text v :: r, ∃ u, x.render p = .ok u := fun x hx =>
    (Item.mem_of_renderAll hys hx).imp fun _ => And.left
  simp only [List.forall_mem_append, List.forall_mem_cons] at hxs hrest
  obtain ⟨-, ha, -, hb, -⟩ := hxs
  rw [Item.merge?_of_isBare ha hb] at hm
  obtain ⟨hta, htb⟩ := Item.exists_render_of_merge? (p := p) ha hb hm
  refine Item.exists_renderAll ?_
  simp only [List.forall_mem_append, List.forall_mem_cons]
  exact ⟨hrest.1, hta, ⟨_, rfl⟩, htb, hrest.2.2⟩

theorem Folded.exists_renderAll_of_reaches (h : ReflTransGen (Merges print) xs ys)
    (hxs : ∀ x ∈ xs, x.IsBare) (hys : Item.renderAll p ys = .ok t) :
    ∃ u, Item.renderAll p xs = .ok u := by
  induction h using ReflTransGen.head_induction_on with
  | refl => exact ⟨t, hys⟩
  | head hstep _ ih =>
    obtain ⟨u, hu⟩ := ih (hstep.isBare hxs)
    exact hstep.exists_renderAll hxs hu

/-- If objects have a text, only a number of too many digits fails to merge. -/
theorem Item.merge?_error (h : a.merge? (fun _ => .ok []) b = .error e) : e = .tooManyDigits := by
  have hrender : ∀ {x : Item ρ} {f : Text → Text},
      (do let inner ← x.render fun _ => .ok []; return some (f inner) :
        Except Failure (Option Text)) = .error e → e = .tooManyDigits := by
    intro x f hx
    rcases cases_of_bind_eq_error hx with hx | ⟨u, -, hx⟩
    · cases x with
      | scalar c => exact c.render_error hx
      | _ => cases hx
    · cases hx
  cases a <;> cases b <;> simp only [merge?] at h <;> try split at h
  all_goals first
    | exact hrender h
    | cases h

/-- And only such a number fails a fold. -/
theorem fold_failure?_eq (h : (fold (fun _ _ => .ok []) xs).failure? = some e) :
    e = .tooManyDigits := by
  obtain ⟨l, a, b, r, -, hmerge⟩ := fold_stops h
  exact Item.merge?_error hmerge

end Failure

namespace View

variable {x y x' y' : View} {e : Failure}

/-- What has a text after merges had one before. -/
theorem exists_text_of_mergesTo {t : Text} (hbare : ∀ i ∈ x.items, i.IsBare)
    (h : MergesTo x.items x'.items) (ht : x'.text = .ok t) : ∃ u, x.text = .ok u :=
  exists_renderAll_of_reaches (h fun _ _ => .ok []) hbare ht

theorem foldedText_error (hbare : ∀ i ∈ x.items, i.IsBare) (h : x.text = .error e) :
    x.foldedText = .error .tooManyDigits := by
  rw [foldedText]
  split
  · cases ht : x.folded.text with
    | ok t =>
      obtain ⟨u, hu⟩ := exists_text_of_mergesTo hbare (mergesTo_fold hbare) ht
      cases h.symm.trans hu
    | error f => rw [Item.renderAll_error ht]
  · rename_i f hf
    rw [fold_failure?_eq hf]

section NoText

variable (h : ∀ t u, x.text = .ok t → y.text ≠ .ok u)

include h

theorem isEmpty_ne_of_no_text {b c : Bool} (hb : x.isEmpty = .ok b) : y.isEmpty ≠ .ok c := by
  intro hc
  obtain ⟨t, ht, -⟩ := exists_text hb
  obtain ⟨u, hu, -⟩ := exists_text hc
  exact h t u ht hu

/-- Where an operand has no text, there is none. -/
theorem concatText_error (hbare : ∀ i ∈ x.items, i.IsBare) :
    x.concatText y = .error .tooManyDigits := by
  rcases x.concat_cases y with ⟨hc, -⟩ | ⟨⟨hb, hc⟩, -⟩ | ⟨⟨hb, hc⟩, -⟩ | ⟨-, hz⟩
  · rw [concatText_of_isEmpty hc]
    cases ht : x.text with
    | ok t => exact absurd hc (isEmpty_ne_of_no_text h (isEmpty_of_text ht))
    | error e => exact foldedText_error hbare ht
  · exact absurd hc (isEmpty_ne_of_no_text h hb)
  · exact absurd hc (isEmpty_ne_of_no_text h hb)
  · rw [concatText, hz]
    rfl

/-- Then there is nothing that has to fit. -/
theorem fits_of_no_text : x.Fits y where
  seam hb hc := absurd hc (isEmpty_ne_of_no_text h hb)
  blank hb hc := absurd hc (isEmpty_ne_of_no_text h hb)

end NoText

/-! ## Any two operands -/

section Bare

variable (hx : ∀ i ∈ x.items, i.IsBare) (hy : ∀ i ∈ y.items, i.IsBare) (hquote : x.NoLoneQuote)
  (hquote' : y.NoLoneQuote)

include hx hy hquote hquote'

/-- **Operands that fit** are concatenated and folded to the same text,
however they have been merged before, or they fail to be. -/
theorem Fits.concatText_eq (h : x.Fits y) (hx' : MergesTo x.items x'.items)
    (hy' : MergesTo y.items y'.items) : x'.concatText y' = x.concatText y := by
  by_cases htexts : ∃ t u, x.text = .ok t ∧ y.text = .ok u
  · obtain ⟨t, u, ht, hu⟩ := htexts
    exact h.concatText_eq_of_steady (steady_of_text hx hquote ht) (steady_of_text hy hquote' hu)
      hx' hy'
  · rw [concatText_error (fun t u ht hu => htexts ⟨t, u, ht, hu⟩) hx]
    refine concatText_error (fun t u ht hu => htexts ?_) (hx'.isBare hx)
    obtain ⟨t, ht⟩ := exists_text_of_mergesTo hx hx' ht
    obtain ⟨u, hu⟩ := exists_text_of_mergesTo hy hy' hu
    exact ⟨t, u, ht, hu⟩

/-- **Operands fit** exactly if it makes no difference to have both folded. -/
theorem fits_iff : x.Fits y ↔ x.folded.concatText y.folded = x.concatText y := by
  refine ⟨fun h => h.concatText_eq hx hy hquote hquote' (mergesTo_fold hx) (mergesTo_fold hy),
    fun h => ?_⟩
  by_cases htexts : ∃ t u, x.text = .ok t ∧ y.text = .ok u
  · obtain ⟨t, u, ht, hu⟩ := htexts
    exact fits_of_steady (steady_of_text hx hquote ht) (steady_of_text hy hquote' hu) h
  · exact fits_of_no_text fun t u ht hu => htexts ⟨t, u, ht, hu⟩

end Bare

end View

end Splice
