import Splice.Proofs.Folding.Names
import Splice.Proofs.Folding.Value
/-!
# Folding — any list of code comes to rest

A fold is given whatever the generator has spliced together: names,
scalars, and texts that may be operators, complete literals, or a lone
quote. None of that makes a merge fail (`Item.merge?_code`), and what a
merge leaves is code again, so the fold of such a list does not fail
(`fold_code_failure?`). It keeps the names in their order
(`Folded.Merges.names`), comes to a list in which nothing merges,
and leaves that list alone if it is made once more
(`Build.foldItems_rests`).
-/

namespace Splice

variable {ρ : Type}

namespace Item

/-- An item of code: not an object, and a scalar only if it can be written. -/
inductive IsCode : Item ρ → Prop
  /-- A name. -/
  | name (n : Name) : IsCode (.name n)
  /-- Any text, also part of a literal, or the operator. -/
  | text (t : Text) : IsCode (.text t)
  /-- A scalar that can be written. -/
  | scalar {c : Scalar} {t : Text} : c.render = .ok t → IsCode (.scalar c)

variable {print : ρ → Except Failure Text} {a b : Item ρ}

/-- **A merge of code does not fail.** -/
theorem merge?_code (ha : a.IsCode) (hb : b.IsCode) : ∃ t?, a.merge? print b = .ok t? := by
  cases ha with
  | name n => exact ⟨none, rfl⟩
  | text t =>
    cases hb with
    | name n => exact ⟨none, rfl⟩
    | text u => exact ⟨_, rfl⟩
    | @scalar c u hc =>
      by_cases hquote : t.endsQuoted = true
      · exact ⟨some (t.dropLast ++ u ++ [.char '"']), by simp [merge?, hquote, render, hc]⟩
      · exact ⟨none, by simp [merge?, hquote]⟩
  | @scalar c t hc =>
    cases hb with
    | name n => exact ⟨none, rfl⟩
    | scalar hd => exact ⟨none, rfl⟩
    | text u =>
      by_cases hquote : u.startsQuoted = true
      · exact ⟨some (.char '"' :: t ++ u.tail), by simp [merge?, hquote, render, hc]⟩
      · exact ⟨none, by simp [merge?, hquote]⟩

end Item

namespace Folded

variable {print : List (Item ρ) → ρ → Except Failure Text} {xs ys : List (Item ρ)}

theorem Merges.isCode (h : Merges print xs ys) (hxs : ∀ x ∈ xs, x.IsCode) :
    ∀ y ∈ ys, y.IsCode := by
  obtain @⟨l, r, a, b, t, -⟩ := h
  simp only [List.forall_mem_append, List.forall_mem_cons] at hxs ⊢
  exact ⟨hxs.1, .text t, hxs.2.2.2.2⟩

end Folded

open Folded

/-- **A fold of code does not fail.** -/
theorem fold_code_failure? {print : List (Item ρ) → ρ → Except Failure Text}
    {xs : List (Item ρ)} (h : ∀ x ∈ xs, x.IsCode) : (fold print xs).failure? = none :=
  fold_failure? (fun hstep => hstep.isCode)
    (fun hcode => Item.merge?_code (hcode _ (by simp)) (hcode _ (by simp))) h

namespace Build

variable {σ : Session} {r : Ref} {xs : List Value}

/-- A fold of a list in which nothing merges changes nothing. -/
theorem foldItems_of_quiet (hlist : σ.store.get r = .list xs) (h : Quiet xs) :
    foldItems (.object r) σ = .ok 0 ⟨σ.store.set r (.list xs), σ.log⟩ := by
  have hfold : fold (σ.store.printWhile r) xs = ⟨xs, 0, none⟩ := fold_of_quiet h
  have hrun := foldItems_of_list hlist (by rw [hfold])
  rwa [hfold] at hrun

/-- **Folding any list of code in place comes to rest.** It succeeds, every
merge takes two items away, the names are what they were and in the same
order, and no operator is left whose operands merge. So folding once more
makes no merge and leaves everything as it is. -/
theorem foldItems_rests (hlist : σ.store.get r = .list xs) (hxs : ∀ x ∈ xs, x.IsCode) :
    ∃ n ys τ, foldItems (.object r) σ = .ok n τ ∧ τ = ⟨σ.store.set r (.list ys), σ.log⟩ ∧
      xs.length = ys.length + 2 * n ∧
      ys.filter Item.isName = xs.filter Item.isName ∧ Quiet ys ∧
      foldItems (.object r) τ = .ok 0 τ := by
  let print : List Value → Ref → Except Failure Text := σ.store.printWhile r
  let ys : List Value := (fold print xs).items
  have hnone : (fold print xs).failure? = none := fold_code_failure? hxs
  have hquiet : Quiet ys := fold_quiet hnone
  have hlength : xs.length = ys.length + 2 * (fold print xs).merges := by
    rw [← fold_length print xs, Nat.add_comm]
  have hnames : Item.names ys = Item.names xs :=
    fold_keeps (P := fun zs => Item.names zs = Item.names xs)
      (fun hstep hzs => hstep.names.trans hzs) rfl
  have hfilter : ys.filter Item.isName = xs.filter Item.isName := by
    rw [Item.filter_isName, hnames, ← Item.filter_isName]
  let τ : Session := ⟨σ.store.set r (.list ys), σ.log⟩
  have hagain : foldItems (.object r) τ = .ok 0 τ := by
    have hτ : τ.store.get r = .list ys := Store.get_set_self (Store.live_of_list hlist)
    rw [foldItems_of_quiet hτ hquiet, Store.set_set]
  exact ⟨_, ys, τ, foldItems_of_list hlist hnone, rfl, hlength, hfilter, hquiet, hagain⟩

/-- Two lone quotes around an operator become an operator, which then has a
literal on each side and merges too. -/
theorem foldItems_rests_lone_quotes :
    let x : Name := ⟨Text.ofString "x", by decide⟩
    let xs : List Value := [.name x, .text "\"a\"", .text "+\"", .plus, .text "\"", .text "\"b\"",
      .plus, .scalar .null]
    let σ : Session := ⟨⟨#[.list xs]⟩, []⟩
    (σ.store.get ⟨0⟩ = .list xs ∧ ∀ y ∈ xs, y.IsCode) ∧
      ∃ n ys τ, foldItems (.object ⟨0⟩) σ = .ok n τ ∧
        τ = ⟨σ.store.set ⟨0⟩ (.list ys), σ.log⟩ ∧ xs.length = ys.length + 2 * n ∧
        ys.filter Item.isName = xs.filter Item.isName ∧ Quiet ys ∧
        foldItems (.object ⟨0⟩) τ = .ok 0 τ := by
  intro x xs σ
  have hxs : ∀ y ∈ xs, y.IsCode := by
    simp only [xs, List.forall_mem_cons]
    exact ⟨.name x, .text _, .text _, .text _, .text _, .text _, .text _, .scalar rfl, by simp⟩
  exact ⟨⟨rfl, hxs⟩, foldItems_rests rfl hxs⟩

end Build

end Splice
