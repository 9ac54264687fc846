import Splice.Proofs.Folding.NormalForm
/-!
# Folding — names stay out of it

A name is no operand of a merge. So a fold keeps the names of a list in
their order (`Folded.Merges.names`), and it comes to the same texts
whatever the names are: with other names in their places, items fold to
what they fold to with these, but for the names (`fold_rename`).
-/

namespace Splice

variable {ρ : Type}

namespace Item

/-- The name that an item is, if it is one. -/
def name? : Item ρ → Option Name
  | .name n => some n
  | _ => none

/-- The names among items, in order. -/
def names (xs : List (Item ρ)) : List Name := xs.filterMap name?

/-- An item, with another name in its place if it is a name. -/
def rename (f : Name → Name) : Item ρ → Item ρ
  | .name n => .name (f n)
  | x => x

section Names

variable {x : Item ρ}

@[simp] theorem names_append (xs ys : List (Item ρ)) : names (xs ++ ys) = names xs ++ names ys :=
  List.filterMap_append

theorem names_cons (x : Item ρ) (xs : List (Item ρ)) : names (x :: xs) = names [x] ++ names xs :=
  names_append [x] xs

@[simp] theorem names_name (n : Name) : names [(.name n : Item ρ)] = [n] := rfl

theorem names_of_ne (h : ∀ n, x ≠ .name n) : names [x] = [] := by
  cases x with
  | name n => exact absurd rfl (h n)
  | _ => rfl

@[simp] theorem names_text (t : Text) : names [(.text t : Item ρ)] = [] := rfl

/-- The items that are names are the names, as items. -/
theorem filter_isName (xs : List (Item ρ)) : xs.filter isName = (names xs).map .name := by
  induction xs with
  | nil => rfl
  | cons x xs ih =>
    rw [names_cons, List.map_append, ← ih]
    cases x <;> rfl

/-- A name is among the names as often as among the items. -/
theorem count_names [DecidableEq ρ] (xs : List (Item ρ)) (n : Name) :
    (names xs).count n = xs.count (.name n) := by
  induction xs with
  | nil => rfl
  | cons x xs ih =>
    rw [names_cons, List.count_append, ih, List.count_cons, Nat.add_comm]
    cases x with
    | name m => simp [List.count_singleton]
    | _ => rfl

end Names

section Rename

variable (f : Name → Name) {print : ρ → Except Failure Text}

/-- Whether items merge, and into what, is the same for all names. -/
theorem merge?_rename (a b : Item ρ) :
    (a.rename f).merge? print (b.rename f) = a.merge? print b := by
  cases a <;> cases b <;> rfl

theorem isPlus_rename (a : Item ρ) : (a.rename f).isPlus = a.isPlus := by
  cases a <;> rfl

end Rename

end Item

open Item

namespace Folded

/-- **A merge keeps the names**, and their order. -/
theorem Merges.names {print : List (Item ρ) → ρ → Except Failure Text} {xs ys : List (Item ρ)}
    (h : Merges print xs ys) : Item.names ys = Item.names xs := by
  obtain @⟨l, r, a, b, t, hm⟩ := h
  have ha : Item.names [a] = [] := names_of_ne fun n => (not_name_of_merge? hm n).1
  have hb : Item.names [b] = [] := names_of_ne fun n => (not_name_of_merge? hm n).2
  rw [names_append, names_append, names_cons, names_cons a, names_cons .plus, names_cons b, ha, hb]
  rfl

/-- The outcome of a fold with other names. -/
def rename (f : Name → Name) (r : Folded ρ) : Folded ρ :=
  ⟨r.items.map (Item.rename f), r.merges, r.failure?⟩

variable (f : Name → Name)

theorem around_rename (before after : List (Item ρ)) :
    around (before.map (Item.rename f)) (after.map (Item.rename f)) =
      (around before after).map (Item.rename f) := by
  simp [around]

theorem stepBack_rename (t : Text) (before after : List (Item ρ)) :
    stepBack t (before.map (Item.rename f)) (after.map (Item.rename f)) =
      ((stepBack t before after).1.map (Item.rename f),
        (stepBack t before after).2.map (Item.rename f)) := by
  match before with
  | [] => rfl
  | [x] => rfl
  | x :: y :: before => rfl

variable {print : List (Item ρ) → ρ → Except Failure Text}

/-- The operands of the next operator merge into the same. -/
theorem merge?_around_rename (before after : List (Item ρ)) (a op b : Item ρ) :
    (a.rename f).merge? (print (around (a.rename f :: before.map (Item.rename f))
      (op.rename f :: b.rename f :: after.map (Item.rename f)))) (b.rename f) =
      a.merge? (print ((around (a :: before) (op :: b :: after)).map (Item.rename f))) b := by
  rw [merge?_rename, ← around_rename]
  rfl

/-- The scan makes the same turns whatever the names are. -/
theorem scan_rename (merges : Nat) (before after : List (Item ρ)) :
    scan print merges (before.map (Item.rename f)) (after.map (Item.rename f)) =
      (scan (fun xs => print (xs.map (Item.rename f))) merges before after).rename f := by
  -- The cases are a merge that fails, none, one that is made, no operator, and the end.
  fun_induction scan (fun xs => print (xs.map (Item.rename f))) merges before after with
  | case1 merges a before op b after hop e he =>
    rw [List.map_cons, List.map_cons, List.map_cons, scan, isPlus_rename, if_pos hop,
      merge?_around_rename, he]
    simp only [rename, ← around_rename, List.map_cons]
  | case2 merges a before op b after hop he ih =>
    rw [List.map_cons, List.map_cons, List.map_cons, scan, isPlus_rename, if_pos hop,
      merge?_around_rename, he]
    exact ih
  | case3 merges a before op b after hop t ht ih =>
    rw [List.map_cons, List.map_cons, List.map_cons, scan, isPlus_rename, if_pos hop,
      merge?_around_rename, ht]
    simp only [stepBack_rename]
    exact ih
  | case4 merges a before op b after hop ih =>
    rw [List.map_cons, List.map_cons, List.map_cons, scan, isPlus_rename, if_neg hop]
    exact ih
  | case5 merges before after hend =>
    rw [scan]
    · rw [around_rename]
      rfl
    · intro a before' op b after' hbefore hafter
      obtain ⟨a, before, rfl, -, -⟩ := List.map_eq_cons_iff.1 hbefore
      obtain ⟨op, rest, rfl, -, hrest⟩ := List.map_eq_cons_iff.1 hafter
      obtain ⟨b, after, rfl, -, -⟩ := List.map_eq_cons_iff.1 hrest
      exact hend a before op b after rfl rfl

end Folded

open Folded

/-- **Folding does not look at names.** With other names in their places,
items fold to what they fold to with these, but for the names, and it
takes as many merges and fails where it does. -/
theorem fold_rename (f : Name → Name) (print : List (Item ρ) → ρ → Except Failure Text)
    (xs : List (Item ρ)) :
    fold print (xs.map (Item.rename f)) =
      (fold (fun xs => print (xs.map (Item.rename f))) xs).rename f := by
  cases xs with
  | nil => rfl
  | cons x xs => exact scan_rename f 0 [x] xs

end Splice
