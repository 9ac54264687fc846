import Splice.Proofs.Folding.Scan
/-!
# Folding — where a fold comes to rest

`Folded.Quiet` says of a list of items that no operator in it has operands
that merge. The scan keeps quiet what it has left behind: a merge can only
wake the operators next to the merged literal, and stepping back two
places is far enough to see them again (`quiet_stepBack`). So a fold that
does not fail leaves a quiet list (`fold_quiet`), and a fold of a quiet
list does nothing (`fold_of_quiet`): folding twice is folding once. Each
merge takes two items away, so the number of merges can be told from the
lengths (`fold_length`).

Being quiet is a property of the operands of each operator
(`Folded.Windows`). Any such property can be checked on the two sides of an
item that is no operator (`windows_append_cons`), where one end of each side
may give way to another item of which the same is true
(`windows_cons_congr`).

Items that are no objects merge alike however objects print
(`merge?_of_isBare`), and the names among them, being no operands of any
merge, stay what they are (`Folded.Merges.count_name`).
-/

namespace Splice

variable {ρ : Type}

namespace Item

/-- An item that is no object. -/
def IsBare (x : Item ρ) : Prop := ∀ r, x ≠ .object r

theorem isBare_name (n : Name) : (name n : Item ρ).IsBare := nofun

theorem isBare_text (t : Text) : (text t : Item ρ).IsBare := nofun

theorem isBare_scalar (c : Scalar) : (scalar c : Item ρ).IsBare := nofun

variable {print print' : ρ → Except Failure Text} {a b : Item ρ} {t : Text}

/-- Bare items are rendered alike however objects print. -/
theorem render_of_isBare (h : a.IsBare) : a.render print = a.render print' := by
  cases a with
  | object r => exact absurd rfl (h r)
  | _ => rfl

/-- And so is a row of them. -/
theorem renderAll_of_isBare {xs : List (Item ρ)} (h : ∀ x ∈ xs, x.IsBare) :
    renderAll print xs = renderAll print' xs := by
  have hrow : xs.mapM (render print) = xs.mapM (render print') := by
    induction xs with
    | nil => rfl
    | cons x xs ih =>
      obtain ⟨hx, hxs⟩ := List.forall_mem_cons.1 h
      rw [List.mapM_cons, List.mapM_cons, render_of_isBare hx, ih hxs]
  rw [renderAll, renderAll, hrow]

/-- Bare items merge alike however objects print. -/
theorem merge?_of_isBare (ha : a.IsBare) (hb : b.IsBare) :
    a.merge? print b = a.merge? print' b := by
  have hrender : a.render print = a.render print' := render_of_isBare ha
  have hrender' : b.render print = b.render print' := render_of_isBare hb
  cases a <;> cases b <;> simp only [merge?, hrender, hrender']

/-- Whether two items merge at all does not depend on how objects print. -/
theorem merge?_eq_none (h : a.merge? print b = .ok none) : a.merge? print' b = .ok none := by
  -- Where there is something to render, the answer is a literal or a failure.
  have hsome : ∀ {x : Except Failure Text} {f : Text → Text},
      (do let inner ← x; return some (f inner) : Except Failure (Option Text)) ≠ .ok none := by
    intro x f hx
    cases x <;> cases hx
  cases a <;> cases b <;> simp only [merge?] at h ⊢ <;> split at h
  all_goals first
    | exact absurd h hsome
    | simp_all

/-- The operands of a merge are no names. -/
theorem not_name_of_merge? (h : a.merge? print b = .ok (some t)) (n : Name) :
    a ≠ .name n ∧ b ≠ .name n := by
  constructor
  · rintro rfl
    cases h
  · rintro rfl
    cases a <;> cases h

end Item

namespace Folded

/-! ## The operands of each operator -/

/-- A property of the operands of each operator in a list. -/
def Windows (W : Item ρ → Item ρ → Prop) (xs : List (Item ρ)) : Prop :=
  ∀ l a b r, xs = l ++ a :: .plus :: b :: r → W a b

section Windows

variable {W : Item ρ → Item ρ → Prop} {l r : List (Item ρ)} {a b m : Item ρ}

/-- No operator is looked past an item that is none. -/
theorem windows_append_cons (hm : m ≠ .plus) :
    Windows W (l ++ m :: r) ↔ Windows W (l ++ [m]) ∧ Windows W (m :: r) := by
  constructor
  · intro h
    exact ⟨fun l' a b r' hl => h l' a b (r' ++ r) (by simpa using congrArg (· ++ r) hl),
      fun l' a b r' hr => h (l ++ l') a b r' (by simp [hr])⟩
  · rintro ⟨hl, hr⟩ l' a b r' hsplit
    rcases List.append_eq_append_iff.1 hsplit with ⟨as, rfl, has⟩ | ⟨as, rfl, has⟩
    · exact hr as a b r' has
    · -- The operator is to the left of the item, or the item is its right operand.
      match as with
      | [] => exact hr [] a b r' (by simpa using has.symm)
      | [c] =>
        obtain ⟨-, hplus, -⟩ : a = c ∧ Item.plus = m ∧ _ := by simpa using has
        exact absurd hplus.symm hm
      | [c, d] =>
        obtain ⟨rfl, rfl, rfl, -⟩ : a = c ∧ Item.plus = d ∧ b = m ∧ r' = r := by simpa using has
        exact hl l' a b [] (by simp)
      | c :: d :: e :: as =>
        obtain ⟨rfl, rfl, rfl, -⟩ : a = c ∧ Item.plus = d ∧ b = e ∧ r' = as ++ m :: r := by
          simpa using has
        exact hl l' a b (as ++ [m]) (by simp)

theorem windows_cons_plus (hb : b ≠ .plus) :
    Windows W (a :: .plus :: b :: r) ↔ W a b ∧ Windows W (b :: r) := by
  have hwindow : Windows W ([a, .plus] ++ [b]) ↔ W a b := by
    refine ⟨fun h => h [] a b [] rfl, fun h l' a' b' r' hsplit => ?_⟩
    obtain ⟨rfl, rfl⟩ : l' = [] ∧ r' = [] := by
      have hlength := congrArg List.length hsplit
      simp only [List.length_append, List.length_cons, List.length_nil] at hlength
      exact ⟨List.length_eq_zero_iff.1 (by omega), List.length_eq_zero_iff.1 (by omega)⟩
    obtain ⟨rfl, rfl⟩ : a = a' ∧ b = b' := by simpa using hsplit
    exact h
  exact (windows_append_cons (l := [a, .plus]) hb).trans (and_congr_left fun _ => hwindow)

/-- The last item of a list is a right operand only. -/
theorem windows_concat_congr (h : ∀ x ∈ l, W x a ↔ W x b) :
    Windows W (l ++ [a]) ↔ Windows W (l ++ [b]) := by
  have hone : ∀ {a b : Item ρ}, (∀ x ∈ l, W x a → W x b) → Windows W (l ++ [a]) →
      Windows W (l ++ [b]) := by
    intro a b h hw l' a' b' r' hsplit
    rcases List.eq_nil_or_concat r' with rfl | ⟨r', c, rfl⟩
    · obtain ⟨rfl, hb⟩ : l = l' ++ [a', .plus] ∧ [b] = [b'] :=
        List.append_inj' (by simpa using hsplit) rfl
      obtain rfl : b = b' := by simpa using hb
      exact h a' (by simp) (hw l' a' a [] (by simp))
    · obtain ⟨rfl, -⟩ : l = l' ++ a' :: .plus :: b' :: r' ∧ [b] = [c] :=
        List.append_inj' (by simpa using hsplit) rfl
      exact hw l' a' b' (r' ++ [a]) (by simp)
  exact ⟨hone fun x hx => (h x hx).1, hone fun x hx => (h x hx).2⟩

/-- The first item of a list is a left operand only. -/
theorem windows_cons_congr (h : ∀ x ∈ r, W a x ↔ W b x) :
    Windows W (a :: r) ↔ Windows W (b :: r) := by
  have hone : ∀ {a b : Item ρ}, (∀ x ∈ r, W a x → W b x) → Windows W (a :: r) →
      Windows W (b :: r) := by
    intro a b h hw l' a' b' r' hsplit
    rcases l' with _ | ⟨c, l'⟩
    · obtain ⟨rfl, rfl⟩ : b = a' ∧ r = .plus :: b' :: r' := by simpa using hsplit
      exact h b' (by simp) (hw [] a b' r' rfl)
    · obtain ⟨-, rfl⟩ : b = c ∧ r = l' ++ a' :: .plus :: b' :: r' := by simpa using hsplit
      exact hw (a :: l') a' b' r' rfl
  exact ⟨hone fun x hx => (h x hx).1, hone fun x hx => (h x hx).2⟩

end Windows

/-- No operator in the list has operands that merge. -/
def Quiet (xs : List (Item ρ)) : Prop :=
  ∀ l a b r, xs = l ++ a :: .plus :: b :: r → ∀ print, a.merge? print b = .ok none

section Quiet

variable {xs ys zs : List (Item ρ)} {a b op : Item ρ}

theorem Quiet.of_append (h : Quiet (xs ++ ys ++ zs)) : Quiet ys := by
  intro l a b r hys
  exact h (xs ++ l) a b (r ++ zs) (by simp [hys])

theorem quiet_of_length_le (h : xs.length ≤ 2) : Quiet xs := by
  rintro l a b r rfl
  simp only [List.length_append, List.length_cons] at h
  omega

/-- One more item brings one more operator to look at, the one before it. -/
theorem Quiet.concat (h : Quiet (xs ++ [a, op]))
    (hop : op = .plus → ∀ print, a.merge? print b = .ok none) : Quiet (xs ++ [a, op, b]) := by
  intro l a' b' r hxs
  rcases List.eq_nil_or_concat r with rfl | ⟨r, c, rfl⟩
  · obtain ⟨-, hwindow⟩ := List.append_inj' hxs rfl
    simp only [List.cons.injEq, and_true] at hwindow
    obtain ⟨rfl, rfl, rfl⟩ := hwindow
    exact hop rfl
  · have hsplit : (xs ++ [a, op]) ++ [b] = (l ++ a' :: .plus :: b' :: r) ++ [c] := by
      simpa using hxs
    exact h l a' b' r (List.append_inj' hsplit rfl).1

/-- In a quiet list there is nothing to merge. -/
theorem Quiet.not_merges {print : List (Item ρ) → ρ → Except Failure Text} (h : Quiet xs) :
    ¬ Merges print xs ys := by
  rintro (@⟨l, r, a, b, t, hm⟩)
  cases (h l a b r rfl _).symm.trans hm

/-- After a merge the scan goes on from where everything behind it is quiet. -/
theorem quiet_stepBack (t : Text) {before after : List (Item ρ)} (h : Quiet before.reverse) :
    Quiet (around (stepBack t before after).1 ((stepBack t before after).2.take 1)) := by
  match before with
  | [] =>
    refine quiet_of_length_le ?_
    simp only [stepBack, around, List.length_append, List.length_reverse, List.length_cons,
      List.length_nil, List.length_take]
    omega
  | [x] => exact quiet_of_length_le (by simp [stepBack, around])
  | x :: y :: before => simpa [stepBack, around] using h

end Quiet

variable {print : List (Item ρ) → ρ → Except Failure Text}

theorem stepBack_ne_nil (t : Text) (before after : List (Item ρ)) :
    (stepBack t before after).1 ≠ [] := by
  match before with
  | [] => simp [stepBack]
  | [x] => simp [stepBack]
  | x :: y :: before => simp [stepBack]

/-- **What a scan leaves is quiet**, if what it has behind it is. -/
theorem scan_quiet (merges : Nat) {before after : List (Item ρ)} (hne : before ≠ [])
    (hquiet : Quiet (around before (after.take 1)))
    (h : (scan print merges before after).failure? = none) :
    Quiet (scan print merges before after).items := by
  fun_induction scan print merges before after with
  | case1 merges a before op b after hop e he =>
    rw [he] at h
    cases h
  | case2 merges a before op b after hop he ih =>
    rw [he] at h ⊢
    refine ih (by simp) ?_ h
    have hbehind : Quiet (before.reverse ++ [a, op]) := by simpa [around] using hquiet
    simpa [around] using hbehind.concat fun _ _ => Item.merge?_eq_none he
  | case3 merges a before op b after hop t ht ih =>
    rw [ht] at h ⊢
    have hbehind : Quiet ([] ++ before.reverse ++ [a, op]) := by simpa [around] using hquiet
    exact ih (stepBack_ne_nil t before after) (quiet_stepBack t hbehind.of_append) h
  | case4 merges a before op b after hop ih =>
    refine ih (by simp) ?_ h
    have hbehind : Quiet (before.reverse ++ [a, op]) := by simpa [around] using hquiet
    simpa [around] using hbehind.concat fun hplus => absurd (Item.isPlus_iff.2 hplus) hop
  | case5 merges before after hend =>
    -- The scan ends where there is no operator with an operand behind it.
    obtain ⟨a, before, rfl⟩ := List.exists_cons_of_ne_nil hne
    rcases after with _ | ⟨op, _ | ⟨b, after⟩⟩
    · simpa using hquiet
    · simpa using hquiet
    · exact absurd rfl (hend a before op b after rfl)

/-- A scan of a quiet list does nothing. -/
theorem scan_of_quiet (merges : Nat) {before after : List (Item ρ)}
    (h : Quiet (around before after)) :
    scan print merges before after = ⟨around before after, merges, none⟩ := by
  fun_induction scan print merges before after with
  | case1 merges a before op b after hop e he =>
    obtain rfl := Item.isPlus_iff.1 hop
    cases (h before.reverse a b after (by simp [around]) _).symm.trans he
  | case2 merges a before op b after hop he ih =>
    rw [he]
    rw [around_cons] at ih
    exact ih h
  | case3 merges a before op b after hop t ht ih =>
    obtain rfl := Item.isPlus_iff.1 hop
    cases (h before.reverse a b after (by simp [around]) _).symm.trans ht
  | case4 merges a before op b after hop ih =>
    rw [around_cons] at ih
    exact ih h
  | case5 merges before after hend => rfl

/-- Each merge takes two items away. -/
theorem scan_length (print : List (Item ρ) → ρ → Except Failure Text) (merges : Nat)
    (before after : List (Item ρ)) :
    2 * (scan print merges before after).merges + (scan print merges before after).items.length =
      2 * merges + (around before after).length := by
  fun_induction scan print merges before after with
  | case1 merges a before op b after hop e he => rw [he]
  | case2 merges a before op b after hop he ih =>
    rw [he]
    rwa [around_cons] at ih
  | case3 merges a before op b after hop t ht ih =>
    rw [ht]
    rw [around_stepBack] at ih
    simp only [around, List.length_append, List.length_reverse, List.length_cons] at ih ⊢
    omega
  | case4 merges a before op b after hop ih => rwa [around_cons] at ih
  | case5 merges before after hend => rfl

/-- A merge of bare items leaves bare items. -/
theorem Merges.isBare {xs ys : List (Item ρ)} (h : Merges print xs ys)
    (hxs : ∀ x ∈ xs, x.IsBare) : ∀ y ∈ ys, y.IsBare := by
  obtain @⟨l, r, a, b, t, -⟩ := h
  simp only [List.forall_mem_append, List.forall_mem_cons] at hxs ⊢
  exact ⟨hxs.1, Item.isBare_text t, hxs.2.2.2.2⟩

/-- **A merge leaves the names as they are.** -/
theorem Merges.count_name {xs ys : List (Item ρ)} [BEq (Item ρ)] [LawfulBEq (Item ρ)]
    (h : Merges print xs ys) (n : Name) : ys.count (.name n) = xs.count (.name n) := by
  obtain @⟨l, r, a, b, t, hm⟩ := h
  obtain ⟨ha, hb⟩ := Item.not_name_of_merge? hm n
  simp [List.count_append, ha, hb, Item.plus]

/-- The scan does the same however objects print, if there are none. -/
theorem scan_of_isBare {print' : List (Item ρ) → ρ → Except Failure Text} (merges : Nat)
    {before after : List (Item ρ)} (h : ∀ x ∈ around before after, x.IsBare) :
    scan print merges before after = scan print' merges before after := by
  have hsame : ∀ {a op b : Item ρ} {before after : List (Item ρ)} {p p' : ρ → Except Failure Text},
      (∀ x ∈ around (a :: before) (op :: b :: after), x.IsBare) → a.merge? p b = a.merge? p' b :=
    fun h => Item.merge?_of_isBare (h _ (by simp [around])) (h _ (by simp [around]))
  fun_induction scan print merges before after with
  | case1 merges a before op b after hop e he => rw [scan, if_pos hop, he, ← hsame h, he]
  | case2 merges a before op b after hop he ih =>
    rw [around_cons] at ih
    rw [scan, if_pos hop, he, ← hsame h, he]
    exact ih h
  | case3 merges a before op b after hop t ht ih =>
    rw [scan, if_pos hop, ht, ← hsame h, ht]
    exact ih ((Merges.at_point hop ht).isBare h)
  | case4 merges a before op b after hop ih =>
    rw [around_cons] at ih
    rw [scan, if_neg hop]
    exact ih h
  | case5 merges before after hend =>
    rw [scan]
    exact hend

end Folded

open Folded

section Fold

variable {print print' : List (Item ρ) → ρ → Except Failure Text} {xs : List (Item ρ)}

/-- **What a fold leaves is quiet**, if it does not fail. -/
theorem fold_quiet (h : (fold print xs).failure? = none) : Quiet (fold print xs).items := by
  cases xs with
  | nil => exact quiet_of_length_le (by simp [fold])
  | cons x xs =>
    refine scan_quiet 0 (by simp) (quiet_of_length_le ?_) h
    simp only [around, List.length_append, List.length_reverse, List.length_singleton,
      List.length_take]
    omega

/-- **A fold of a quiet list does nothing.** -/
theorem fold_of_quiet (h : Quiet xs) : fold print xs = ⟨xs, 0, none⟩ := by
  cases xs with
  | nil => rfl
  | cons x xs => exact scan_of_quiet 0 h

/-- **The merges of a fold** are half of what the list gets shorter. -/
theorem fold_length (print : List (Item ρ) → ρ → Except Failure Text) (xs : List (Item ρ)) :
    2 * (fold print xs).merges + (fold print xs).items.length = xs.length := by
  cases xs with
  | nil => rfl
  | cons x xs => simpa [fold, around] using scan_length print 0 [x] xs

/-- **A fold does the same however objects print**, if there are none. -/
theorem fold_of_isBare (h : ∀ x ∈ xs, x.IsBare)
    (print print' : List (Item ρ) → ρ → Except Failure Text) : fold print xs = fold print' xs := by
  cases xs with
  | nil => rfl
  | cons x xs => exact scan_of_isBare 0 h

end Fold

end Splice
