import Splice.Item.Fold
import Mathlib.Logic.Relation
/-!
# Folding — the scan as a row of merges

`Folded.Merges` is a single merge, anywhere in a list of items and
without regard to where the scan is: the operands of one operator, and
the operator between them, are replaced by the literal that stands for
them. Whatever the scan does on its way, back and forth, what it leaves
is reached from what it was given by single merges (`scan_reaches`), also
when a failure stops it. So a property that each single merge keeps is
kept by the whole fold (`fold_keeps`), and a fold does not fail where no
single merge can (`fold_failure?`).
-/

namespace Splice

variable {ρ : Type} {print : List (Item ρ) → ρ → Except Failure Text}

namespace Folded

/-- One merge in a list of items. -/
inductive Merges (print : List (Item ρ) → ρ → Except Failure Text) :
    List (Item ρ) → List (Item ρ) → Prop
  /-- The operands of an operator become the literal that stands for them. -/
  | merge {l r : List (Item ρ)} {a b : Item ρ} {t : Text} :
      a.merge? (print (l ++ a :: .plus :: b :: r)) b = .ok (some t) →
      Merges print (l ++ a :: .plus :: b :: r) (l ++ .text t :: r)

theorem around_cons (a : Item ρ) (before after : List (Item ρ)) :
    around (a :: before) after = around before (a :: after) := by
  simp [around]

/-- A merge at the point where the scan is. -/
theorem Merges.at_point {before after : List (Item ρ)} {a op b : Item ρ} {t : Text}
    (hop : op.isPlus = true)
    (h : a.merge? (print (around (a :: before) (op :: b :: after))) b = .ok (some t)) :
    Merges print (around (a :: before) (op :: b :: after))
      (around (stepBack t before after).1 (stepBack t before after).2) := by
  obtain rfl := Item.isPlus_iff.1 hop
  rw [around_stepBack]
  rw [around_cons] at h ⊢
  exact .merge h

/-- **What a scan leaves is reached by single merges.** -/
theorem scan_reaches (merges : Nat) (before after : List (Item ρ)) :
    Relation.ReflTransGen (Merges print) (around before after)
      (scan print merges before after).items := by
  -- The cases are a merge that fails, none, one that is made, no operator, and the end.
  fun_induction scan print merges before after with
  | case1 merges a before op b after hop e he =>
    simp only [he]
    exact .refl
  | case2 merges a before op b after hop he ih =>
    simp only [he]
    rwa [around_cons] at ih
  | case3 merges a before op b after hop t ht ih =>
    simp only [ht]
    exact .head (Merges.at_point hop ht) ih
  | case4 merges a before op b after hop ih => rwa [around_cons] at ih
  | case5 merges before after h => exact .refl

/-- **A scan that fails stops at one merge**, before a list that single
merges have led to. -/
theorem scan_stops (merges : Nat) (before after : List (Item ρ)) {e : Failure}
    (h : (scan print merges before after).failure? = some e) :
    ∃ l a b r, Relation.ReflTransGen (Merges print) (around before after)
        (l ++ a :: .plus :: b :: r) ∧
      a.merge? (print (l ++ a :: .plus :: b :: r)) b = .error e := by
  fun_induction scan print merges before after with
  | case1 merges a before op b after hop f hf =>
    obtain rfl := Item.isPlus_iff.1 hop
    simp only [hf] at h
    obtain rfl := Option.some.inj h
    rw [around_cons] at hf ⊢
    exact ⟨before.reverse, a, b, after, .refl, hf⟩
  | case2 merges a before op b after hop he ih =>
    simp only [he] at h
    rw [around_cons] at ih
    exact ih h
  | case3 merges a before op b after hop t ht ih =>
    simp only [ht] at h
    obtain ⟨l, a', b', r, hreach, hfails⟩ := ih h
    exact ⟨l, a', b', r, .head (Merges.at_point hop ht) hreach, hfails⟩
  | case4 merges a before op b after hop ih =>
    rw [around_cons] at ih
    exact ih h
  | case5 merges before after hend => cases h

/-- What every single merge keeps is kept by a row of them. -/
theorem kept_of_reaches {P : List (Item ρ) → Prop}
    (keeps : ∀ {xs ys}, Merges print xs ys → P xs → P ys) {xs ys : List (Item ρ)}
    (h : Relation.ReflTransGen (Merges print) xs ys) (hxs : P xs) : P ys := by
  induction h with
  | refl => exact hxs
  | tail _ hstep ih => exact keeps hstep ih

end Folded

open Folded

/-- **What a fold leaves is reached by single merges.** -/
theorem fold_reaches (xs : List (Item ρ)) :
    Relation.ReflTransGen (Merges print) xs (fold print xs).items := by
  cases xs with
  | nil => exact .refl
  | cons x xs => exact scan_reaches 0 [x] xs

/-- **A fold keeps what every single merge keeps.** -/
theorem fold_keeps {P : List (Item ρ) → Prop}
    (keeps : ∀ {xs ys}, Merges print xs ys → P xs → P ys) {xs : List (Item ρ)} (h : P xs) :
    P (fold print xs).items := kept_of_reaches keeps (fold_reaches xs) h

/-- A fold that fails stops at one merge. -/
theorem fold_stops {xs : List (Item ρ)} {e : Failure} (h : (fold print xs).failure? = some e) :
    ∃ l a b r, Relation.ReflTransGen (Merges print) xs (l ++ a :: .plus :: b :: r) ∧
      a.merge? (print (l ++ a :: .plus :: b :: r)) b = .error e := by
  cases xs with
  | nil => cases h
  | cons x xs => exact scan_stops 0 [x] xs h

/-- **A fold does not fail where no single merge does.** -/
theorem fold_failure? {P : List (Item ρ) → Prop}
    (keeps : ∀ {xs ys}, Merges print xs ys → P xs → P ys)
    (total : ∀ {l r a b}, P (l ++ a :: .plus :: b :: r) →
      ∃ t?, a.merge? (print (l ++ a :: .plus :: b :: r)) b = .ok t?)
    {xs : List (Item ρ)} (h : P xs) : (fold print xs).failure? = none := by
  cases hfails : (fold print xs).failure? with
  | none => rfl
  | some e =>
    obtain ⟨l, a, b, r, hreach, hmerge⟩ := fold_stops hfails
    obtain ⟨t?, ht⟩ := total (kept_of_reaches keeps hreach h)
    cases ht.symm.trans hmerge

end Splice
