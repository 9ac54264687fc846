import Splice.Template
import Splice.Proofs.Usage
import Splice.Proofs.Folding.Value
import Mathlib.Data.List.Forall2
/-!
# Fragments — what a fragment holds

A fragment, its list of items and its usage map are three objects.
`Store.Holds` reads them as one: the value is a fragment with these items,
and what it counts are whole numbers. This is what assembling a fragment
establishes (`Build.assemble_holds`), what splicing it elsewhere needs
(`Holds.pushed`, `Holds.addUses`), and what folding it in place keeps, with
the folded items (`Build.foldCode_of_holds`).
-/

namespace Splice

/-- Items that can be rendered one by one. -/
theorem Item.renderAll_of_forall₂ {ρ : Type} {print : ρ → Except Failure Text}
    {xs : List (Item ρ)} {ts : List Text}
    (h : List.Forall₂ (fun x t => x.render print = .ok t) xs ts) :
    renderAll print xs = .ok ts.flatten := by
  have hrow : xs.mapM (render print) = .ok ts := by
    induction h with
    | nil => rfl
    | cons hx _ ih =>
      rw [List.mapM_cons, hx, ih]
      rfl
  rw [renderAll, hrow]
  rfl

/-- Pushed, a fragment gives the items of its list. -/
theorem Build.pushed_of_get {σ : Session} {r q : Ref} {used : Value} {e : Bool} {xs : List Value}
    (hr : σ.store.get r = .fragment (.object q) used e) (hq : σ.store.get q = .list xs) :
    Build.pushed (.object r) σ = .ok xs σ := by
  have hitems : σ.store.itemsOf (.object r) = .ok (.object q) := by simp [Store.itemsOf, hr]
  have helements : σ.store.elements (.object q) = .ok xs := by simp [Store.elements, hq]
  simp only [Build.pushed]
  rw [Build.bind_of_ok (Build.read_of_ok hitems)]
  exact Build.read_of_ok (f := fun s => s.elements (.object q)) helements

namespace Store

/-- The value is a fragment that holds these items. -/
inductive Holds (s : Store) : Value → List Value → Bool → Prop
  /-- A fragment, the list of its items, and what it counts. -/
  | fragment {r q : Ref} {used : Value} {xs : List Value} {isExpression : Bool} :
      s.get r = .fragment (.object q) used isExpression → s.get q = .list xs → s.Counts used →
      Holds s (.object r) xs isExpression

/-- All objects of a store are in the other one as they were. -/
def Grows (s s' : Store) : Prop := ∀ r, s.Live r → s'.Live r ∧ s'.get r = s.get r

theorem Grows.refl (s : Store) : s.Grows s := fun _ hr => ⟨hr, rfl⟩

theorem grows_push (s : Store) (o : Object) : s.Grows (s.push o) :=
  fun _ hr => ⟨live_push hr, get_push_live hr⟩

variable {s s' : Store} {v : Value} {xs ys : List Value} {e : Bool}

theorem Grows.trans {t : Store} (h : s.Grows s') (h' : s'.Grows t) : s.Grows t := fun r hr =>
  ⟨(h' r (h r hr).1).1, ((h' r (h r hr).1).2).trans (h r hr).2⟩

/-- What an object is known to be, it still is in a store that has grown. -/
theorem Grows.get (h : s.Grows s') {r : Ref} {o : Object} (hr : s.get r = o)
    (ho : o ≠ .foreign .object none) : s'.get r = o := by
  rw [(h r (live_of_get hr ho)).2, hr]

/-- What stands for a usage map still does while that map is as it was. -/
theorem Counts.kept {used : Value} (h : s.Counts used)
    (hkept : ∀ {u : Ref} {m : Usage}, used = .object u → s.get u = .dict m → s'.get u = .dict m) :
    s'.Counts used := by
  cases h with
  | none => exact .none
  | map hu hm => exact .map (hkept rfl hu) hm

/-- The text of a fragment is that of its items. Fragments among them may
lie in each other one time less. -/
theorem codeText_of_get {r q : Ref} {used : Value} (hr : s.get r = .fragment (.object q) used e)
    (hq : s.get q = .list xs) :
    s.codeText (.object r) = Item.renderAll (s.printWith (s.fragmentText 163)) xs := by
  have helements : s.elements (.object q) = .ok xs := by simp [elements, hq]
  have hnesting : maxNesting = 163 + 1 := rfl
  have hcode : s.codeText (.object r) = s.print r := by simp [codeText, hr]
  have hprint : s.print r = s.fragmentText maxNesting r := by simp [print, printWith, hr]
  rw [hcode, hprint, hnesting, fragmentText]
  simp only [hr]
  rw [helements]
  rfl

namespace Holds

theorem isCode (h : s.Holds v xs e) : s.isCode v = true := by
  obtain ⟨hr, -, -⟩ := h
  simp [Store.isCode, hr]

theorem isExpression (h : s.Holds v xs e) : s.isExpression v = .ok e := by
  obtain ⟨hr, -, -⟩ := h
  simp [Store.isExpression, hr]

/-- A fragment holds one list of items. -/
theorem unique (h : s.Holds v xs e) {e' : Bool} (h' : s.Holds v ys e') : xs = ys := by
  obtain ⟨hr, hq, -⟩ := h
  obtain ⟨hr', hq', -⟩ := h'
  cases hr.symm.trans hr'
  cases hq.symm.trans hq'
  rfl

/-- A fragment holds its items in any store that leaves it, its items and
its usage map alone. -/
theorem kept {r : Ref} {items used : Value} {e' : Bool} (h : s.Holds (.object r) xs e)
    (hr : s.get r = .fragment items used e')
    (hkept : ∀ q, q = r ∨ .object q = items ∨ .object q = used → s'.get q = s.get q) :
    s'.Holds (.object r) xs e := by
  obtain @⟨_, q, used', _, _, hr', hq, hused⟩ := h
  cases hr.symm.trans hr'
  have hcounts : s'.Counts used :=
    hused.kept fun hu hm => (hkept _ (.inr (.inr hu.symm))).trans hm
  exact .fragment ((hkept r (.inl rfl)).trans hr) ((hkept q (.inr (.inl rfl))).trans hq) hcounts

/-- And so it does in a store that has grown. -/
theorem grows (h : s.Holds v xs e) (hgrows : s.Grows s') : s'.Holds v xs e := by
  obtain ⟨hr, hq, hused⟩ := h
  exact .fragment (hgrows.get hr nofun) (hgrows.get hq nofun)
    (hused.kept fun _ hm => hgrows.get hm nofun)

/-- A fragment whose list of items is written to holds what is written. -/
theorem of_set {r q : Ref} {used : Value} {zs : List Value}
    (hr : s.get r = .fragment (.object q) used e) (hq : s.get q = .list ys)
    (hused : s.Counts used) : (s.set q (.list zs)).Holds (.object r) zs e :=
  .fragment (get_fragment_of_set hq hr) (get_set_self (live_of_get hq nofun))
    (hused.kept fun _ hm => get_set_of_ne hq hm nofun)

/-- Any other fragment holds what it held. -/
theorem set_list {q : Ref} (h : s.Holds v xs e) (hq : s.get q = .list ys) (zs : List Value) :
    (s.set q (.list zs)).Holds v xs e ∨ xs = ys ∧ (s.set q (.list zs)).Holds v zs e := by
  obtain @⟨r, q', used, _, _, hr, hq', hused⟩ := h
  by_cases hsame : q = q'
  · subst hsame
    cases hq.symm.trans hq'
    exact .inr ⟨rfl, .of_set hr hq hused⟩
  · exact .inl (.fragment (get_fragment_of_set hq hr) ((get_set_ne hsame).trans hq')
      (hused.kept fun _ hm => get_set_of_ne hq hm nofun))

theorem usesOf (h : s.Holds v xs e) : ∃ uses : Usage, s.usesOf v = .ok uses ∧ uses.IsWhole := by
  obtain ⟨hr, -, hused⟩ := h
  obtain ⟨uses, huses, hwhole⟩ := Build.countsIn_of_counts hused
  exact ⟨uses, by simp [Store.usesOf, hr, huses], hwhole⟩

/-- **The text of a fragment** whose items are no objects is the texts of
its items, one after the other. -/
theorem codeText (h : s.Holds v xs e) {ts : List Text}
    (hts : List.Forall₂ (fun x t => ∀ print, Item.render print x = .ok t) xs ts) :
    s.codeText v = .ok ts.flatten := by
  obtain ⟨hr, hq, -⟩ := h
  rw [codeText_of_get hr hq]
  exact Item.renderAll_of_forall₂ (List.Forall₂.imp (fun _ _ h => h _) hts)

variable {σ : Session}

/-- Pushed, a fragment gives its items. -/
theorem pushed (h : σ.store.Holds v xs e) : Build.pushed v σ = .ok xs σ := by
  obtain ⟨hr, hq, -⟩ := h
  exact Build.pushed_of_get hr hq

/-- The uses of a fragment can be added. -/
theorem addUses {m : Usage} (h : σ.store.Holds v xs e) (hm : m.IsWhole) :
    ∃ m', Build.addUses m v σ = .ok m' σ ∧ m'.IsWhole := by
  obtain ⟨uses, huses, hwhole⟩ := h.usesOf
  exact Build.addUses_of_usesOf huses hwhole hm

end Holds

end Store

namespace Build

variable {σ : Session} {v : Value} {xs : List Value} {e : Bool}

/-- **An assembly becomes a fragment that holds its items**, and nothing
else changes. -/
theorem assemble_holds {a : Assembly} (ha : a.used.IsWhole) (e : Bool) :
    ∃ v τ, assemble a e σ = .ok v τ ∧ τ.store.Holds v a.items.toList e ∧
      σ.store.Grows τ.store ∧ τ.log = σ.log := by
  let s₁ := σ.store.push (.list a.items.toList)
  let s₂ := s₁.push (.dict a.used)
  let o : Object := .fragment (.object σ.store.next) (.object s₁.next) e
  have hlist : s₂.get σ.store.next = .list a.items.toList := by
    rw [Store.get_push_live Store.live_next_push, Store.get_push_next]
  have hdict : s₂.get s₁.next = .dict a.used := Store.get_push_next
  have hgrows : s₂.Grows (s₂.push o) := s₂.grows_push o
  refine ⟨.object s₂.next, ⟨s₂.push o, σ.log⟩, ?_, ?_, ?_, rfl⟩
  · rw [assemble, bind_of_ok (alloc_apply _), bind_of_ok (alloc_apply _)]
    rfl
  · exact .fragment Store.get_push_next (hgrows.get hlist nofun)
      (.map (hgrows.get hdict nofun) ha)
  · exact ((σ.store.grows_push _).trans (s₁.grows_push _)).trans hgrows

/-- A fold that fails leaves its items in the list it was given. -/
theorem foldItems_of_failure {q : Ref} {f : Failure} (hq : σ.store.get q = .list xs)
    (hfold : (fold (σ.store.printWhile q) xs).failure? = some f) :
    foldItems (.object q) σ =
      .error f ⟨σ.store.set q (.list (fold (σ.store.printWhile q) xs).items), σ.log⟩ := by
  simp only [foldItems]
  rw [bind_of_ok (load_apply q)]
  simp only [hq]
  rw [bind_of_ok (ask_apply _), bind_of_ok (write_apply _ _)]
  simp only [hfold]
  rfl

section FoldCode

variable {r q : Ref} {used : Value} (hr : σ.store.get r = .fragment (.object q) used e)
  (hq : σ.store.get q = .list xs)

include hr hq

/-- **Folding a fragment** writes the folded items into its list of items,
and no other object changes. -/
theorem foldCode_of_fold (hfold : (fold (σ.store.printWhile q) xs).failure? = none) :
    ∃ log, foldCode (.object r) σ = .ok (.object r)
      ⟨σ.store.set q (.list (fold (σ.store.printWhile q) xs).items), log⟩ := by
  have hitems : σ.store.itemsOf (.object r) = .ok (.object q) := by simp [Store.itemsOf, hr]
  let s' := σ.store.set q (.list (fold (σ.store.printWhile q) xs).items)
  have hcount : elementCount (.object q) ⟨s', σ.log⟩ =
      .ok (fold (σ.store.printWhile q) xs).items.length ⟨s', σ.log⟩ := by
    refine read_of_ok ?_
    have hlist : s'.get q = .list (fold (σ.store.printWhile q) xs).items :=
      Store.get_set_self (Store.live_of_get hq nofun)
    simp [Store.elements, hlist, Except.map]
  simp only [foldCode]
  rw [bind_of_ok (read_of_ok hitems), bind_of_ok (foldItems_of_list hq hfold)]
  by_cases hmerges : (fold (σ.store.printWhile q) xs).merges = 0
  · exact ⟨σ.log, by simp [hmerges]⟩
  · refine ⟨σ.log ++ [.folded (fold (σ.store.printWhile q) xs).merges
      (fold (σ.store.printWhile q) xs).items.length], ?_⟩
    simp only [bne_iff_ne, ne_eq, hmerges, not_false_eq_true, if_true]
    rw [bind_of_ok hcount]
    rfl

/-- A fold of a fragment that fails writes the items as far as it came. -/
theorem foldCode_of_failure {f : Failure}
    (hfold : (fold (σ.store.printWhile q) xs).failure? = some f) :
    foldCode (.object r) σ =
      .error f ⟨σ.store.set q (.list (fold (σ.store.printWhile q) xs).items), σ.log⟩ := by
  have hitems : σ.store.itemsOf (.object r) = .ok (.object q) := by simp [Store.itemsOf, hr]
  simp only [foldCode]
  rw [bind_of_ok (read_of_ok hitems), bind_of_error (foldItems_of_failure hq hfold)]

end FoldCode

/-- **Folding a fragment in place** leaves it a fragment that holds the
folded items, if no way of printing objects makes the fold fail. -/
theorem foldCode_of_holds (h : σ.store.Holds v xs e)
    (hfold : ∀ print : List Value → Ref → Except Failure Text, (fold print xs).failure? = none) :
    ∃ print τ, foldCode v σ = .ok v τ ∧ τ.store.Holds v (fold print xs).items e := by
  obtain @⟨r, q, used, _, _, hr, hq, hused⟩ := h
  obtain ⟨log, hrun⟩ := foldCode_of_fold hr hq (hfold _)
  exact ⟨σ.store.printWhile q, _, hrun, .of_set hr hq hused⟩

end Build

end Splice
