import Splice.Proofs.Build
import Splice.Proofs.Folding.NormalForm
/-!
# Store — lists rewritten in place

What folding does to a store is to put other items into some of its lists
(`Store.Rewrites`). When a fold succeeds, a list becomes what it folds to
(`FoldsTo`). When it fails, the list has been merged as far as the fold
came (`MergesTo`). Both ways of rewriting can be done twice in a row, a
list that has been folded folding to itself, so what an operation has done
to the lists is put together from what its steps do (`Rewrites.trans`).
-/

namespace Splice

open Folded Relation

/-! ## From one list of items to another -/

/-- The first list folds to the second, however objects print. -/
def FoldsTo (xs ys : List Value) : Prop :=
  ∀ print : List Value → Ref → Except Failure Text,
    (fold print xs).failure? = none ∧ (fold print xs).items = ys

/-- The second list is reached from the first by single merges, however
objects print. -/
def MergesTo (xs ys : List Value) : Prop :=
  ∀ print : List Value → Ref → Except Failure Text, ReflTransGen (Merges print) xs ys

section Lists

variable {xs ys zs : List Value}

theorem FoldsTo.mergesTo (h : FoldsTo xs ys) : MergesTo xs ys := fun print =>
  (h print).2 ▸ fold_reaches xs

/-- **A list that has been folded** folds to itself. -/
theorem FoldsTo.trans (h : FoldsTo xs ys) (h' : FoldsTo ys zs) : FoldsTo xs zs := by
  intro print
  obtain ⟨hfailure, rfl⟩ := h print
  have hitems := (h' print).2
  rw [fold_of_quiet (fold_quiet hfailure)] at hitems
  exact ⟨hfailure, hitems⟩

/-- A list folds to one list only. -/
theorem FoldsTo.unique (h : FoldsTo xs ys) (h' : FoldsTo xs zs) : ys = zs :=
  (h fun _ _ => .ok []).2.symm.trans (h' fun _ _ => .ok []).2

/-- What a list has been folded to folds to itself. -/
theorem FoldsTo.self (h : FoldsTo xs ys) : FoldsTo ys ys := by
  intro print
  obtain ⟨hfailure, rfl⟩ := h print
  rw [fold_of_quiet (fold_quiet hfailure)]
  exact ⟨rfl, rfl⟩

theorem MergesTo.refl (xs : List Value) : MergesTo xs xs := fun _ => .refl

theorem MergesTo.trans (h : MergesTo xs ys) (h' : MergesTo ys zs) : MergesTo xs zs :=
  fun print => (h print).trans (h' print)

/-- A quiet list is merged into nothing else. -/
theorem MergesTo.eq_of_quiet (h : MergesTo xs ys) (hxs : Quiet xs) : ys = xs := by
  rcases (h fun _ _ => .ok []).cases_head with heq | ⟨zs, hstep, -⟩
  · exact heq.symm
  · exact absurd hstep hxs.not_merges

theorem MergesTo.isBare (h : MergesTo xs ys) (hxs : ∀ x ∈ xs, x.IsBare) : ∀ y ∈ ys, y.IsBare := by
  have hreach := h fun _ _ => .ok []
  clear h
  induction hreach with
  | refl => exact hxs
  | tail _ hstep ih => exact hstep.isBare ih

theorem MergesTo.count_name (h : MergesTo xs ys) (n : Name) :
    ys.count (.name n) = xs.count (.name n) := by
  have hreach := h fun _ _ => .ok []
  clear h
  induction hreach with
  | refl => rfl
  | tail _ hstep ih => rw [hstep.count_name n, ih]

/-- A fold of bare items that succeeds would do the same however objects
print. -/
theorem foldsTo_fold {print : List Value → Ref → Except Failure Text} (h : ∀ x ∈ xs, x.IsBare)
    (hfold : (fold print xs).failure? = none) : FoldsTo xs (fold print xs).items := fun print' => by
  rw [fold_of_isBare h print' print]
  exact ⟨hfold, rfl⟩

/-- And so would one that fails. -/
theorem mergesTo_fold {print : List Value → Ref → Except Failure Text} (h : ∀ x ∈ xs, x.IsBare) :
    MergesTo xs (fold print xs).items := fun print' => by
  rw [fold_of_isBare h print print']
  exact fold_reaches xs

end Lists

/-! ## From one store to another -/

namespace Store

/-- The objects are the same but for some lists, and these hold other items. -/
structure Rewrites (K : List Value → List Value → Prop) (L : Ref → Prop) (s s' : Store) : Prop where
  /-- No object is new. -/
  size : s'.objects.size = s.objects.size
  /-- Any other object is as it was. -/
  kept : ∀ {r}, ¬ L r → s'.get r = s.get r
  /-- A list has been rewritten. -/
  rewritten : ∀ {q xs}, L q → s.get q = .list xs → ∃ ys, s'.get q = .list ys ∧ K xs ys

namespace Rewrites

variable {K K' : List Value → List Value → Prop} {L L' : Ref → Prop} {s s' s'' : Store}

theorem of_none (h : ∀ q, ¬ L q) : Rewrites K L s s :=
  ⟨rfl, fun _ => rfl, fun hq _ => absurd hq (h _)⟩

theorem refl : Rewrites MergesTo L s s :=
  ⟨rfl, fun _ => rfl, fun _ hxs => ⟨_, hxs, .refl _⟩⟩

theorem imp (h : Rewrites K L s s') (hK : ∀ {xs ys}, K xs ys → K' xs ys) : Rewrites K' L s s' :=
  ⟨h.size, h.kept, fun hq hxs => (h.rewritten hq hxs).imp fun _ hys => ⟨hys.1, hK hys.2⟩⟩

theorem congr (h : Rewrites K L s s') (hL : ∀ q, L q ↔ L' q) : Rewrites K L' s s' :=
  ⟨h.size, fun hr => h.kept (mt (hL _).1 hr), fun hq => h.rewritten ((hL _).2 hq)⟩

/-- More lists might have been merged. -/
theorem mono (h : Rewrites MergesTo L s s') (hL : ∀ q, L q → L' q) : Rewrites MergesTo L' s s' := by
  refine ⟨h.size, fun hr => h.kept (mt (hL _) hr), fun {q xs} _ hxs => ?_⟩
  by_cases hq : L q
  · exact h.rewritten hq hxs
  · exact ⟨xs, (h.kept hq).trans hxs, .refl xs⟩

/-- **Rewriting twice**, first some lists and then others, rewrites all of
them once. -/
theorem trans (hK : ∀ {xs ys zs}, K xs ys → K ys zs → K xs zs) (h : Rewrites K L s s')
    (h' : Rewrites K L' s' s'') : Rewrites K (fun q => L q ∨ L' q) s s'' := by
  refine ⟨h'.size.trans h.size, fun hr => ?_, fun {q xs} hq hxs => ?_⟩
  · rw [h'.kept (mt .inr hr), h.kept (mt .inl hr)]
  · by_cases hfirst : L q
    · obtain ⟨ys, hys, hK₁⟩ := h.rewritten hfirst hxs
      by_cases hsecond : L' q
      · obtain ⟨zs, hzs, hK₂⟩ := h'.rewritten hsecond hys
        exact ⟨zs, hzs, hK hK₁ hK₂⟩
      · exact ⟨ys, (h'.kept hsecond).trans hys, hK₁⟩
    · exact h'.rewritten (hq.resolve_left hfirst) ((h.kept hfirst).trans hxs)

/-- Writing to one list. -/
theorem of_set {q : Ref} {xs ys : List Value} (hq : s.get q = .list xs) (hK : K xs ys)
    (hL : ∀ p, L p ↔ p = q) : Rewrites K L s (s.set q (.list ys)) := by
  refine ⟨by simp [set], fun hr => get_set_ne fun e => hr ((hL _).2 e.symm), fun hp hxs => ?_⟩
  obtain rfl := (hL _).1 hp
  cases hq.symm.trans hxs
  exact ⟨ys, get_set_self (live_of_list hq), hK⟩

theorem live (h : Rewrites K L s s') {r : Ref} : s'.Live r ↔ s.Live r := by
  rw [Live, Live, h.size]

/-- Lists are rewritten to lists, and no other object is rewritten. -/
theorem get_iff (h : Rewrites K L s s') (hL : ∀ q, L q → ∃ xs, s.get q = .list xs) {r : Ref}
    {o : Object} (ho : ∀ xs, o ≠ .list xs) : s'.get r = o ↔ s.get r = o := by
  by_cases hr : L r
  · obtain ⟨xs, hxs⟩ := hL r hr
    obtain ⟨ys, hys, -⟩ := h.rewritten hr hxs
    rw [hxs, hys]
    exact ⟨fun e => absurd e.symm (ho ys), fun e => absurd e.symm (ho xs)⟩
  · rw [h.kept hr]

/-- A list is merged into another one, if only into itself. -/
theorem get_list (h : Rewrites MergesTo L s s') {q : Ref} {xs : List Value}
    (hq : s.get q = .list xs) : ∃ ys, s'.get q = .list ys ∧ MergesTo xs ys := by
  by_cases hr : L q
  · exact h.rewritten hr hq
  · exact ⟨xs, (h.kept hr).trans hq, .refl xs⟩

end Rewrites

end Store

end Splice
