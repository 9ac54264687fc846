import Splice.Proofs.Expression.Emptied
import Splice.Proofs.Expression.Folding
import Splice.Proofs.History.Concat
/-!
# Histories — what has happened before a concatenation

A history goes on (`Continues`): values that are at hand are folded, or
spliced into code, which folds them too, or other things happen. What a
code value shows has been merged by then, and nothing else
(`Continues.exists_shows`), and the text of a concatenation, folded, is a
matter of what its operands show (`Build.answeredText_concat`).

So the text of a concatenation that is folded is the same at any time
exactly if its operands fit, and if they do not, it is another one once
both have been folded (`Reachable.concat_at_any_time_iff`).
-/

namespace Splice

open Folded Store

/-! ## Histories that go on -/

/-- The sessions that a history goes on to, with the values at hand then. -/
inductive Continues (σ : Session) (hand : List Value) : Session → List Value → Prop
  /-- Nothing more has happened. -/
  | refl : Continues σ hand σ hand
  /-- Data has been made. -/
  | data {τ : Session} {hand' : List Value} {o : Object} : Continues σ hand τ hand' →
      o.isFragment = false →
      Continues σ hand ⟨τ.store.push o, τ.log⟩ (.object τ.store.next :: hand')
  /-- A call has been answered. -/
  | answered {τ υ : Session} {hand' : List Value} {c : Call} {v : Value} :
      Continues σ hand τ hand' → c.IsGiven τ.store hand' → c.run τ = .ok v υ →
      Continues σ hand υ (v :: hand')
  /-- A call has failed. -/
  | failed {τ υ : Session} {hand' : List Value} {c : Call} {e : Failure} :
      Continues σ hand τ hand' → c.IsGiven τ.store hand' → c.run τ = .error e υ →
      Continues σ hand υ hand'

theorem Continues.trans {σ τ υ : Session} {hand hand' hand'' : List Value}
    (hτ : Continues σ hand τ hand') (hυ : Continues τ hand' υ hand'') :
    Continues σ hand υ hand'' := by
  induction hυ with
  | refl => exact hτ
  | data _ ho ih => exact ih.data ho
  | answered _ hc hrun ih => exact ih.answered hc hrun
  | failed _ hc hrun ih => exact ih.failed hc hrun

theorem Reachable.continues {σ τ : Session} {hand hand' : List Value} (h : Reachable σ hand)
    (hτ : Continues σ hand τ hand') : Reachable τ hand' := by
  induction hτ with
  | refl => exact h
  | data _ ho ih => exact ih.data ho
  | answered _ hc hrun ih => exact ih.answered hc hrun
  | failed _ hc hrun ih => exact ih.failed hc hrun

namespace Store

variable {s s' : Store} {hand : List Value} {v : Value} {x x' : View} {L : Ref → Prop}

/-- **When lists are merged**, a code value shows what it has shown, merged. -/
theorem Sound.shows_of_rewrites (h : s.Sound hand) (hw : Rewrites MergesTo L s s')
    (hL : ∀ q, L q → s.IsItems q) (hx : s.Shows v x) :
    ∃ xs, s'.Shows v ⟨xs, x.isExpression⟩ ∧ MergesTo x.items xs := by
  rcases h.shows_cases hx with ⟨n, rfl, rfl⟩ | ⟨hr, hq, -⟩
  · exact ⟨_, s'.shows_name n, .refl _⟩
  · obtain ⟨ys, hys, hmerges⟩ := hw.get_list hq
    have hr' := (h.get_fragment hw hL).2 hr
    exact ⟨ys, (h.rewrites hw hL).shows_of_get hr' hys, hmerges⟩

end Store

/-- **While a history goes on**, what a code value shows is merged, and
nothing else happens to it. -/
theorem Continues.exists_shows {σ τ : Session} {hand hand' : List Value} {v : Value} {x : View}
    (h : Reachable σ hand) (hτ : Continues σ hand τ hand') (hx : σ.store.Shows v x) :
    ∃ xs, τ.store.Shows v ⟨xs, x.isExpression⟩ ∧ MergesTo x.items xs := by
  induction hτ with
  | refl => exact ⟨x.items, hx, .refl _⟩
  | data hτ ho ih =>
    obtain ⟨xs, hxs, hmerges⟩ := ih
    exact ⟨xs, (h.continues hτ).sound.shows_of_grows hxs (Store.grows_push _ _), hmerges⟩
  | answered hτ hc hrun ih =>
    obtain ⟨xs, hxs, hmerges⟩ := ih
    have hsound := (h.continues hτ).sound
    obtain ⟨s, hw, hy⟩ := (Call.does_run hsound hc).ok hrun
    have hmerged := hw.imp FoldsTo.mergesTo
    obtain ⟨ys, hys, hmerges'⟩ :=
      hsound.shows_of_rewrites hmerged (fun q => Call.FoldsList.isItems) hxs
    have hsound' := hsound.rewrites hmerged fun q => Call.FoldsList.isItems
    exact ⟨ys, hsound'.shows_of_grows hys hy.grows, hmerges.trans hmerges'⟩
  | failed hτ hc hrun ih =>
    obtain ⟨xs, hxs, hmerges⟩ := ih
    have hsound := (h.continues hτ).sound
    have hmerged := (Call.does_run hsound hc).error hrun
    obtain ⟨ys, hys, hmerges'⟩ :=
      hsound.shows_of_rewrites hmerged (fun q => Call.FoldsList.isItems) hxs
    exact ⟨ys, hys, hmerges.trans hmerges'⟩

/-- A code value can be folded if its items can. -/
theorem Reachable.exists_folded {σ : Session} {hand : List Value} {v : Value} {x : View}
    (h : Reachable σ hand) (hv : IsGiven hand v) (hx : σ.store.Shows v x)
    (hfold : (fold (fun _ _ => .ok []) x.items).failure? = none) :
    ∃ τ, Build.foldCode v σ = .ok v τ ∧ Continues σ hand τ (v :: hand) ∧
      τ.store.Shows v x.folded := by
  have hgiven : (Call.foldCode v).IsGiven σ.store hand :=
    ⟨List.forall_mem_singleton.2 hv, trivial⟩
  have hcontinues : ∀ {τ}, Build.foldCode v σ = .ok v τ → Continues σ hand τ (v :: hand) :=
    fun hrun => .answered (c := .foldCode v) .refl hgiven hrun
  rcases h.sound.shows_cases hx with ⟨n, rfl, rfl⟩ | @⟨r, q, used, _, _, hr, hq, -⟩
  · refine ⟨σ, rfl, hcontinues rfl, ?_⟩
    rwa [View.folded, fold_of_quiet (quiet_of_length_le (by simp))]
  · have hprint : fold (σ.store.printWhile q) x.items = fold (fun _ _ => .ok []) x.items :=
      fold_of_isBare (h.sound.bare_of_shows hx) _ _
    obtain ⟨log, hrun⟩ := Build.foldCode_of_fold hr hq (hprint ▸ hfold)
    have hτ := hcontinues hrun
    refine ⟨_, hrun, hτ, ?_⟩
    rw [View.folded, ← hprint]
    exact (h.continues hτ).sound.shows_of_get (get_fragment_of_set hq hr)
      (get_set_self (live_of_list hq))

/-! ## The text of a concatenation -/

namespace Build

variable {σ : Session} {hand : List Value} {a b v : Value} {x y : View}

/-- The text of the code value that a run answers. -/
def answeredText (run : Build Value) (σ : Session) : Except Failure Text :=
  match run σ with
  | .ok v τ => τ.store.codeText v
  | .error e _ => .error e

theorem answeredText_of_ok {run : Build Value} {τ : Session} (h : run σ = .ok v τ) :
    answeredText run σ = τ.store.codeText v := by rw [answeredText, h]

theorem answeredText_of_error {run : Build Value} {τ : Session} {e : Failure}
    (h : run σ = .error e τ) : answeredText run σ = .error e := by rw [answeredText, h]

/-- **The text of a fold** is that of what is shown, folded. -/
theorem answeredText_foldCode (h : σ.store.Sound hand) (hx : σ.store.Shows v x) :
    answeredText (foldCode v) σ = x.foldedText := by
  rcases h.shows_cases hx with ⟨n, rfl, rfl⟩ | @⟨r, q, used, _, _, hr, hq, -⟩
  · have hquiet : Quiet ([.name n] : List Value) := quiet_of_length_le (by simp)
    rw [View.foldedText, View.folded, fold_of_quiet hquiet]
    exact hx.text
  · have hbare := h.bare_of_shows hx
    have hprint : fold (σ.store.printWhile q) x.items = fold (fun _ _ => .ok []) x.items :=
      fold_of_isBare hbare _ _
    rw [View.foldedText]
    split
    · rename_i hfold
      obtain ⟨log, hrun⟩ := foldCode_of_fold hr hq (hprint ▸ hfold)
      rw [answeredText_of_ok hrun, codeText_of_get (get_fragment_of_set hq hr)
        (get_set_self (live_of_list hq)), hprint,
        Item.renderAll_of_isBare ((mergesTo_fold hbare).isBare hbare)]
      rfl
    · rename_i e hfold
      exact answeredText_of_error (foldCode_of_failure hr hq (hprint ▸ hfold))

theorem answeredText_bind {run : Build Value} {k : Value → Build Value} {τ : Session}
    (h : run σ = .ok v τ) : answeredText (run >>= k) σ = answeredText (k v) τ := by
  rw [answeredText, answeredText, bind_of_ok h]

/-- **The text of a concatenation**, folded, is a matter of what its
operands show. -/
theorem answeredText_concat (h : σ.store.Sound hand) (ha : σ.store.Shows a x)
    (hb : σ.store.Shows b y) : answeredText (concat a b >>= foldCode) σ = x.concatText y := by
  have hconcat := concat_answers h ha hb
  rw [View.concatText]
  cases hz : x.concat y with
  | error e =>
    rw [hz] at hconcat
    obtain ⟨τ, hrun⟩ := hconcat
    exact answeredText_of_error (bind_of_error hrun)
  | ok z =>
    rw [hz] at hconcat
    obtain ⟨v, τ, hand', hrun, hv, -, hsound⟩ := hconcat
    exact (answeredText_bind hrun).trans (answeredText_foldCode hsound hv)

end Build

namespace Reachable

section Operands

variable {σ : Session} {hand : List Value} {a b : Value} {x y : View}

/-- **Both operands can be folded**, one after the other, and show it then. -/
theorem exists_folded_both (h : Reachable σ hand) (ha : IsGiven hand a) (hb : IsGiven hand b)
    (hx : σ.store.Shows a x) (hy : σ.store.Shows b y) (hsteady : Steady x.items)
    (hsteady' : Steady y.items) :
    ∃ τ υ, Build.foldCode a σ = .ok a τ ∧ Build.foldCode b τ = .ok b υ ∧
      Continues σ hand υ (b :: a :: hand) ∧ υ.store.Shows a x.folded ∧
      υ.store.Shows b y.folded := by
  obtain ⟨τ, hrun, hτ, hxτ⟩ := h.exists_folded ha hx (fold_steady_failure? hsteady)
  obtain ⟨ys, hyτ, hys⟩ := hτ.exists_shows h hy
  have hgiven : IsGiven (a :: hand) b := fun r hr => List.mem_cons_of_mem a (hb r hr)
  obtain ⟨υ, hrun', hυ, hyυ⟩ := (h.continues hτ).exists_folded hgiven hyτ
    (fold_steady_failure? (steady_of_reaches (hys fun _ _ => .ok []) hsteady'))
  obtain ⟨xs, hxυ, hxs⟩ := hυ.exists_shows (h.continues hτ) hxτ
  -- The left operand has stayed folded, and the right one folds to what it would have before.
  obtain rfl : xs = x.folded.items := hxs.eq_of_quiet (View.quiet_folded hsteady)
  have hfolded : (⟨ys, y.isExpression⟩ : View).folded = y.folded :=
    congrArg (View.mk · y.isExpression) (View.items_folded_of_mergesTo hsteady' hys)
  exact ⟨τ, υ, hrun, hrun', hτ.trans hυ, hxυ, hfolded ▸ hyυ⟩

/-- **The text of a concatenation does not depend on what has happened
before**, that is, on which of its operands have been folded by then,
exactly if the operands fit. If they do not, the text is another one as
soon as both have been folded. -/
theorem concat_at_any_time_iff (h : Reachable σ hand) (ha : IsGiven hand a) (hb : IsGiven hand b)
    (hx : σ.store.Shows a x) (hy : σ.store.Shows b y) (hquote : x.NoLoneQuote)
    (hquote' : y.NoLoneQuote) :
    ((∀ τ hand', Continues σ hand τ hand' →
      Build.answeredText (Build.concat a b >>= Build.foldCode) τ =
        Build.answeredText (Build.concat a b >>= Build.foldCode) σ) ↔ x.Fits y) ∧
    (¬ x.Fits y → ∃ τ υ, Build.foldCode a σ = .ok a τ ∧ Build.foldCode b τ = .ok b υ ∧
      Build.answeredText (Build.concat a b >>= Build.foldCode) υ ≠
        Build.answeredText (Build.concat a b >>= Build.foldCode) σ) := by
  have hbare := h.sound.bare_of_shows hx
  have hbare' := h.sound.bare_of_shows hy
  have hdiffer : ¬ x.Fits y → ∃ τ υ, Build.foldCode a σ = .ok a τ ∧ Build.foldCode b τ = .ok b υ ∧
      Continues σ hand υ (b :: a :: hand) ∧
      Build.answeredText (Build.concat a b >>= Build.foldCode) υ ≠
        Build.answeredText (Build.concat a b >>= Build.foldCode) σ := by
    intro hfits
    by_cases htexts : ∃ t u, x.text = .ok t ∧ y.text = .ok u
    · obtain ⟨t, u, ht, hu⟩ := htexts
      obtain ⟨τ, υ, hrun, hrun', hυ, hxυ, hyυ⟩ := h.exists_folded_both ha hb hx hy
        (View.steady_of_text hbare hquote ht) (View.steady_of_text hbare' hquote' hu)
      refine ⟨τ, υ, hrun, hrun', hυ, ?_⟩
      rw [Build.answeredText_concat (h.continues hυ).sound hxυ hyυ,
        Build.answeredText_concat h.sound hx hy]
      exact fun heq => hfits ((View.fits_iff hbare hbare' hquote hquote').2 heq)
    · exact absurd (View.fits_of_no_text fun t u ht hu => htexts ⟨t, u, ht, hu⟩) hfits
  refine ⟨⟨fun hsame => ?_, fun hfits τ hand' hτ => ?_⟩, fun hfits => ?_⟩
  · by_contra hfits
    obtain ⟨τ, υ, -, -, hυ, hne⟩ := hdiffer hfits
    exact hne (hsame υ _ hυ)
  · obtain ⟨xs, hxτ, hxs⟩ := hτ.exists_shows h hx
    obtain ⟨ys, hyτ, hys⟩ := hτ.exists_shows h hy
    rw [Build.answeredText_concat (h.continues hτ).sound hxτ hyτ,
      Build.answeredText_concat h.sound hx hy]
    exact hfits.concatText_eq hbare hbare' hquote hquote' hxs hys
  · obtain ⟨τ, υ, hrun, hrun', -, hne⟩ := hdiffer hfits
    exact ⟨τ, υ, hrun, hrun', hne⟩

/-- Two empty strings, and code that begins with a literal but does not end
with one, which fit, and the empty strings in front of a name, which do not. -/
theorem concat_at_any_time_iff_seam :
    let x : Name := ⟨Text.ofString "x", by decide⟩
    let left : List Value := [.text "\"\"", .plus, .text "\"\""]
    let right : List Value := [.text "\"k\"+f(", .name x, .text ")"]
    let σ : Session := ⟨⟨#[.fragment (.object ⟨1⟩) (.scalar .null) false, .list [.text []],
      .list left, .dict [], .fragment (.object ⟨2⟩) (.object ⟨3⟩) true,
      .list right, .dict [(.text "x", .scalar (.int 1))],
      .fragment (.object ⟨5⟩) (.object ⟨6⟩) false]⟩, []⟩
    let a : Value := .object ⟨4⟩
    let b : Value := .object ⟨7⟩
    let hand : List Value := [b, a, nil]
    (Reachable σ hand ∧ IsGiven hand a ∧ IsGiven hand b ∧ σ.store.Shows a ⟨left, true⟩ ∧
      σ.store.Shows b ⟨right, false⟩ ∧ (⟨left, true⟩ : View).NoLoneQuote ∧
      (⟨right, false⟩ : View).NoLoneQuote) ∧
    ((∀ τ hand', Continues σ hand τ hand' →
      Build.answeredText (Build.concat a b >>= Build.foldCode) τ =
        Build.answeredText (Build.concat a b >>= Build.foldCode) σ) ↔
      (⟨left, true⟩ : View).Fits ⟨right, false⟩) ∧
    (⟨left, true⟩ : View).isEmpty = .ok false ∧
    (⟨left, true⟩ : View).folded.isEmpty = .ok true ∧ (⟨left, true⟩ : View).Fits ⟨right, false⟩ ∧
    ∃ τ υ, Build.foldCode a σ = .ok a τ ∧ Build.foldCode (.name x) τ = .ok (.name x) υ ∧
      Build.answeredText (Build.concat a (.name x) >>= Build.foldCode) υ ≠
        Build.answeredText (Build.concat a (.name x) >>= Build.foldCode) σ := by
  intro x left right σ a b hand
  let σ' : Session := ⟨⟨σ.store.objects.extract 0 5⟩, []⟩
  have hleft : Reachable σ' [a, nil] := by
    refine .answered (c := .expression (.ofStrings ["", "", ""]) [.text [], .text []]) .start
      ⟨?_, ?_⟩ rfl
    · simp [Call.args, Store.IsGiven]
    · exact Call.areGiven_ofStrings _ _
  have hreach : Reachable σ hand := by
    refine .answered (c := .code (.ofStrings ["\"k\"+f(", ")"]) [.name x]) hleft ⟨?_, ?_⟩ rfl
    · simp [Call.args, Store.IsGiven]
    · exact Call.areGiven_ofStrings _ _
  have ha : IsGiven hand a := by simp [IsGiven, hand]
  have hb : IsGiven hand b := by simp [IsGiven, hand]
  have hx : σ.store.Shows a ⟨left, true⟩ := hreach.sound.shows_of_get rfl rfl
  have hy : σ.store.Shows b ⟨right, false⟩ := hreach.sound.shows_of_get rfl rfl
  have hz : σ.store.Shows (.name x) ⟨[.name x], false⟩ := σ.store.shows_name x
  have hquote : (⟨left, true⟩ : View).NoLoneQuote := by
    simp [View.NoLoneQuote, left, Item.plus]
    decide
  have hquote' : (⟨right, false⟩ : View).NoLoneQuote := by
    simp [View.NoLoneQuote, right]
    decide
  have hempty : (⟨left, true⟩ : View).isEmpty = .ok false := by with_unfolding_all rfl
  have hemptied : (⟨left, true⟩ : View).folded.isEmpty = .ok true := by with_unfolding_all rfl
  have hname : (⟨[.name x], false⟩ : View).isEmpty = .ok false := by with_unfolding_all rfl
  have hfits : (⟨left, true⟩ : View).Fits ⟨right, false⟩ := by
    refine ⟨fun _ _ _ => ⟨?_, ?_⟩, fun hleft => ?_⟩
    · with_unfolding_all rfl
    · with_unfolding_all rfl
    · cases hleft
  have hstart : (⟨[.name x], false⟩ : View).folded.items.head?.any Item.startsQuoted = false := by
    with_unfolding_all rfl
  have hunfit : ¬ (⟨left, true⟩ : View).Fits ⟨[.name x], false⟩ := fun h =>
    Bool.eq_false_iff.1 hstart (h.seam hempty hname (.inl hemptied)).2
  exact ⟨⟨hreach, ha, hb, hx, hy, hquote, hquote'⟩,
    (hreach.concat_at_any_time_iff ha hb hx hy hquote hquote').1, hempty, hemptied, hfits,
    (hreach.concat_at_any_time_iff ha (by simp [IsGiven]) hx hz hquote
      (by simp [View.NoLoneQuote])).2 hunfit⟩

end Operands

/-- An expression of two empty strings is not empty until it is folded.
Then it is dropped, and a name is left to itself. And a lone quote takes in
what is on its left or what is on its right, whichever it meets first. -/
theorem concat_after_fold_ne :
    (let x : Name := ⟨Text.ofString "x", by decide⟩
      let σ : Session := ⟨⟨#[.fragment (.object ⟨1⟩) (.scalar .null) false, .list [.text []],
        .list [.text "\"\"", .plus, .text "\"\""], .dict [],
        .fragment (.object ⟨2⟩) (.object ⟨3⟩) true]⟩, []⟩
      let a : Value := .object ⟨4⟩
      Reachable σ [a, nil] ∧ ∃ τ, Build.foldCode a σ = .ok a τ ∧
        Build.answeredText (Build.concat a (.name x) >>= Build.foldCode) σ = .ok "\"\"+x" ∧
        Build.answeredText (Build.concat a (.name x) >>= Build.foldCode) τ = .ok "x") ∧
    let σ : Session := ⟨⟨#[.fragment (.object ⟨1⟩) (.scalar .null) false, .list [.text []],
      .list [], .dict [], .fragment (.object ⟨2⟩) (.object ⟨3⟩) true,
      .list [.text "\"", .plus, .scalar .null, .text []], .dict [],
      .fragment (.object ⟨5⟩) (.object ⟨6⟩) false,
      .list [.scalar (.bool true)], .dict [], .fragment (.object ⟨8⟩) (.object ⟨9⟩) true]⟩, []⟩
    let a : Value := .object ⟨10⟩
    let b : Value := .object ⟨7⟩
    Reachable σ [a, b, .object ⟨4⟩, nil] ∧ ∃ τ, Build.foldCode b σ = .ok b τ ∧
      Build.answeredText (Build.concat a b >>= Build.foldCode) σ = .ok "\"true+null" ∧
      Build.answeredText (Build.concat a b >>= Build.foldCode) τ = .ok "true+null\"" := by
  constructor
  · intro x σ a
    have hreach : Reachable σ [a, nil] := by
      refine .answered (c := .expression (.ofStrings ["", "", ""]) [.text [], .text []]) .start
        ⟨?_, ?_⟩ rfl
      · simp [Call.args, Store.IsGiven]
      · exact Call.areGiven_ofStrings _ _
    have ha := hreach.sound.shows_of_get (r := ⟨4⟩) rfl rfl
    obtain ⟨τ, hrun, hτ, ha'⟩ :=
      hreach.exists_folded (by simp [IsGiven, a]) ha (by with_unfolding_all rfl)
    refine ⟨hreach, τ, hrun, ?_, ?_⟩
    · rw [Build.answeredText_concat hreach.sound ha (σ.store.shows_name x)]
      with_unfolding_all rfl
    · rw [Build.answeredText_concat (hreach.continues hτ).sound ha' (τ.store.shows_name x)]
      with_unfolding_all rfl
  · intro σ a b
    let σ₁ : Session := ⟨⟨σ.store.objects.extract 0 5⟩, []⟩
    let σ₂ : Session := ⟨⟨σ.store.objects.extract 0 8⟩, []⟩
    have hempty : Reachable σ₁ [.object ⟨4⟩, nil] := by
      refine .answered (c := .expression (.ofStrings [""]) []) .start ⟨?_, ?_⟩ rfl
      · simp [Call.args]
      · exact Call.areGiven_ofStrings _ _
    have hcode : Reachable σ₂ [b, .object ⟨4⟩, nil] := by
      refine .answered (c := .code (.ofStrings ["\"", "+", ""]) [.object ⟨4⟩, .scalar .null])
        hempty ⟨?_, ?_⟩ rfl
      · simp [Call.args, Store.IsGiven]
      · exact Call.areGiven_ofStrings _ _
    have hreach : Reachable σ [a, b, .object ⟨4⟩, nil] := by
      refine .answered (c := .expression (.ofStrings ["", ""]) [.scalar (.bool true)]) hcode
        ⟨?_, ?_⟩ rfl
      · simp [Call.args, Store.IsGiven]
      · exact Call.areGiven_ofStrings _ _
    have ha := hreach.sound.shows_of_get (r := ⟨10⟩) rfl rfl
    have hb := hreach.sound.shows_of_get (r := ⟨7⟩) rfl rfl
    obtain ⟨τ, hrun, hτ, hb'⟩ :=
      hreach.exists_folded (by simp [IsGiven, b]) hb (by with_unfolding_all rfl)
    obtain ⟨xs, ha', hxs⟩ := hτ.exists_shows hreach ha
    obtain rfl := hxs.eq_of_quiet (quiet_of_length_le (by simp))
    refine ⟨hreach, τ, hrun, ?_, ?_⟩
    · rw [Build.answeredText_concat hreach.sound ha hb]
      with_unfolding_all rfl
    · rw [Build.answeredText_concat (hreach.continues hτ).sound ha' hb']
      with_unfolding_all rfl

end Reachable

end Splice
