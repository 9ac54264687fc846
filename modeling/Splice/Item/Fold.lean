import Splice.Item.Render
/-!
# Folding — constant concatenations merged ahead of time

A string expression is a run of items joined by the operator `+`. Folding
merges two quoted literals on both sides of an operator into one, and
lets a literal absorb a scalar next to it, so that the generated program
does not concatenate constants. Names stay live.

The scan keeps the items before the operator, nearest first, and the
items from the operator on. An object that is absorbed may refer to the
very items being folded, so the function that prints it is told what they
are at that point. After a merge it steps back far enough to
look at the operator before the merged literal, so that chains collapse
fully. Each merge takes two items away, and each other step brings the
scan nearer to the end.
-/

namespace Splice

namespace Item

variable {ρ : Type} (print : ρ → Except Failure Text)

/-- The literal that stands for `a + b`, if both are known ahead of time:
two literals are joined at their seam, and a literal takes in the text of
a neighbour that is neither text nor a name. -/
def merge? : Item ρ → Item ρ → Except Failure (Option Text)
  | .name _, _ => .ok none
  | _, .name _ => .ok none
  | .text a, .text b =>
    .ok (if a.endsQuoted && b.startsQuoted then some (a.dropLast ++ b.tail) else none)
  | .text a, b =>
    if a.endsQuoted then do
      let inner ← b.render print
      return some (a.dropLast ++ inner ++ [.char '"'])
    else .ok none
  | a, .text b =>
    if b.startsQuoted then do
      let inner ← a.render print
      return some (.char '"' :: inner ++ b.tail)
    else .ok none
  | _, _ => .ok none

end Item

/-- The outcome of a fold: the items as they are afterwards, the merges
that were made, and the failure that stopped it, if one did. -/
structure Folded (ρ : Type) where
  /-- The items afterwards. -/
  items : List (Item ρ)
  /-- How many merges were made. -/
  merges : Nat
  /-- The failure that stopped the fold. -/
  failure? : Option Failure

namespace Folded

variable {ρ : Type}

/-- All the items, at a point where those before it are kept nearest first. -/
def around (before after : List (Item ρ)) : List (Item ρ) := before.reverse ++ after

/-- The point from which the scan goes on after a merge into `t`: two
places back, but not before the second item. -/
def stepBack (t : Text) : List (Item ρ) → List (Item ρ) → List (Item ρ) × List (Item ρ)
  | [], after => ([.text t], after)
  | [x], after => ([x], .text t :: after)
  | x :: y :: before, after => (y :: before, x :: .text t :: after)

theorem around_stepBack (t : Text) (before after : List (Item ρ)) :
    around (stepBack t before after).1 (stepBack t before after).2 =
      around before (.text t :: after) := by
  match before with
  | [] => rfl
  | [x] => rfl
  | x :: y :: before => simp [around, stepBack]

theorem length_stepBack (t : Text) (before after : List (Item ρ)) :
    2 * (stepBack t before after).1.length + 3 * (stepBack t before after).2.length ≤
      2 * before.length + 3 * after.length + 4 := by
  match before with
  | [] => simp [stepBack]; omega
  | [x] => simp [stepBack]; omega
  | x :: y :: before => simp [stepBack]; omega

variable (print : List (Item ρ) → ρ → Except Failure Text)

/-- The fold from a point on: `before` holds the items before the next
candidate operator, nearest first, and `after` the rest. -/
def scan (merges : Nat) (before after : List (Item ρ)) : Folded ρ :=
  match before, after with
  | a :: before', op :: b :: after' =>
    if op.isPlus then
      match a.merge? (print (around before after)) b with
      | .error e => ⟨around before after, merges, some e⟩
      | .ok none => scan merges (op :: a :: before') (b :: after')
      | .ok (some t) =>
        scan (merges + 1) (stepBack t before' after').1 (stepBack t before' after').2
    else scan merges (op :: a :: before') (b :: after')
  | _, _ => ⟨around before after, merges, none⟩
termination_by 2 * before.length + 3 * after.length
decreasing_by
  · simp only [List.length_cons]; omega
  · have := length_stepBack t before' after'
    simp only [List.length_cons]; omega
  · simp only [List.length_cons]; omega

end Folded

/-- Folds the constant concatenations of a list of items. An object is
printed by `print`, given the items as they are when it is. -/
def fold {ρ : Type} (print : List (Item ρ) → ρ → Except Failure Text) : List (Item ρ) → Folded ρ
  | [] => ⟨[], 0, none⟩
  | x :: xs => Folded.scan print 0 [x] xs

end Splice
