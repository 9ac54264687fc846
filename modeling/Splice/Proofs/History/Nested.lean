import Mathlib.Algebra.GroupWithZero.Nat
import Splice.Proofs.Code
import Splice.Proofs.History.Concat
import Splice.Proofs.Nested
/-!
# Histories — code inside code

The text of code is that of its segments and arguments, one after the
other, and so is the text of a tree of calls (`Reachable.nested_text`).
That is not quite a matter of one call: a string expression is folded
where it is spliced first, in place, and may be spliced again further
right or further out. But it is folded to the same items each time, so an
argument puts in the same text and counts the same uses at any time while
a tree is built (`Store.PutsIn.develops`).

Inlining a call keeps the arguments and what stands between them, so what
is built then has the same text and counts the same uses.
-/

namespace Splice

open Folded Relation Store

/-! ## What an argument puts in -/

namespace Store

/-- An argument of code, with the text that stands for it there and the
uses that it brings. A string expression stands there folded. Data is not
the list in which a fragment keeps its items, and does not hold it. -/
inductive Argument (s : Store) : Value → Text → (Name → Nat) → Prop
  /-- A scalar is rendered. -/
  | scalar {c : Scalar} {t : Text} : c.render = .ok t → Argument s (.scalar c) t fun _ => 0
  /-- Data is encoded as a literal. -/
  | data {v : Value} {t : Text} : s.goesInBare v = false → (∀ r, s.Reaches v r → ¬ s.IsItems r) →
      Build.literal v ⟨s, []⟩ = .ok t ⟨s, []⟩ → Argument s v t fun _ => 0
  /-- A name, or a fragment that is no string expression. -/
  | code {v : Value} {t : Text} {m : Usage} {f : Name → Nat} : s.isExpression v = .ok false →
      s.codeText v = .ok t → s.usesOf v = .ok m → m.Tallies f → Argument s v t f
  /-- A string expression has a text once it is folded. -/
  | expression {v : Value} {t : Text} {m : Usage} {f : Name → Nat} {τ : Session} :
      s.isExpression v = .ok true → Build.foldCode v ⟨s, []⟩ = .ok v τ →
      τ.store.codeText v = .ok t → s.usesOf v = .ok m → m.Tallies f → Argument s v t f

/-- The items that a fragment adds to code. -/
def Adds (e : Bool) (xs ys : List Value) : Prop := if e then FoldsTo xs ys else ys = xs

/-- What an argument puts into code, in a sound store. -/
inductive PutsIn (s : Store) : Value → Text → (Name → Nat) → Prop
  /-- A name. -/
  | name (n : Name) : PutsIn s (.name n) n.text (namesIn [.name n])
  /-- A scalar. -/
  | scalar {c : Scalar} {t : Text} : c.render = .ok t → PutsIn s (.scalar c) t fun _ => 0
  /-- Data. -/
  | data {v : Value} {t : Text} : s.goesInBare v = false → (∀ r, s.Reaches v r → ¬ s.IsItems r) →
      (s.datum v).encode = .ok t → PutsIn s v t fun _ => 0
  /-- A fragment, by its items or by what they fold to. -/
  | fragment {r q : Ref} {used : Value} {e : Bool} {xs ys : List Value} {t : Text} :
      s.get r = .fragment (.object q) used e → s.get q = .list xs → Adds e xs ys →
      Item.renderAll (fun _ => .ok []) ys = .ok t → PutsIn s (.object r) t (namesIn xs)

/-- What building code does to a store: string expressions may be folded,
and there may be new objects. -/
structure Develops (s s' : Store) : Prop where
  /-- No object is lost. -/
  live : ∀ {r}, s.Live r → s'.Live r
  /-- Only lists of items change. -/
  kept : ∀ {r}, s.Live r → ¬ s.IsItems r → s'.get r = s.get r
  /-- The list of a fragment is as it was, or folded if that is an expression. -/
  items : ∀ {r q used e xs}, s.get r = .fragment (.object q) used e → s.get q = .list xs →
    ∃ ys, s'.get q = .list ys ∧ (ys = xs ∨ e = true ∧ FoldsTo xs ys)
  /-- No fragment has got a list of items that was there. -/
  isItems : ∀ {q}, s.Live q → s'.IsItems q → s.IsItems q

section

variable {xs ys zs : List Value} {e : Bool}

theorem Adds.mergesTo (h : Adds e xs ys) : MergesTo xs ys := by
  cases e with
  | true => exact FoldsTo.mergesTo h
  | false =>
    obtain rfl : ys = xs := h
    exact .refl _

/-- What is added is the same when the list has been folded meanwhile. -/
theorem Adds.of_folded (h : Adds e xs ys) (hzs : zs = xs ∨ e = true ∧ FoldsTo xs zs) :
    Adds e zs ys := by
  rcases hzs with rfl | ⟨rfl, hzs⟩
  · exact h
  · obtain rfl := FoldsTo.unique h hzs
    exact hzs.self

end

variable {s s' s'' : Store} {hand args : List Value} {v : Value} {t : Text} {f : Name → Nat}
  {r q u : Ref}

/-! ## Stores that develop -/

namespace Sound

/-- A fragment is no list of items. -/
theorem not_isItems_of_fragment (h : s.Sound hand) {items used : Value} {e : Bool}
    (hr : s.get r = .fragment items used e) : ¬ s.IsItems r := by
  intro hitems
  obtain ⟨xs, hxs⟩ := h.exists_list hitems
  cases hr.symm.trans hxs

/-- The expressions among arguments are folded. -/
theorem develops_of_rewrites (h : s.Sound hand)
    (hw : Rewrites FoldsTo (s.ExpressionItems args) s s') : s.Develops s' where
  live := hw.live.2
  kept _ hitems := hw.kept fun hq => hitems hq.isItems
  items := by
    intro r q used e xs hr hq
    by_cases hexpression : s.ExpressionItems args q
    · obtain ⟨ys, hys, hfolds⟩ := hw.rewritten hexpression hq
      obtain ⟨v, -, he, hitems⟩ := hexpression
      obtain ⟨r', used', e', rfl, hr'⟩ := itemsOf_eq_ok.1 hitems
      -- The list belongs to one fragment, so the fragment is the expression.
      obtain rfl := h.apart (.items hr) (.items hr')
      cases hr.symm.trans hr'
      have htrue : e = true := by simpa [isExpression, hr] using he
      exact ⟨ys, hys, .inr ⟨htrue, hfolds⟩⟩
    · exact ⟨xs, (hw.kept hexpression).trans hq, .inl rfl⟩
  isItems _ hq :=
    (h.isItems_rewrites (hw.imp FoldsTo.mergesTo) fun _ => ExpressionItems.isItems).1 hq

theorem develops_trans (h : s.Sound hand) (h₁ : s.Develops s') (h₂ : s'.Develops s'') :
    s.Develops s'' where
  live hr := h₂.live (h₁.live hr)
  kept hr hitems := by
    rw [h₂.kept (h₁.live hr) fun hq => hitems (h₁.isItems hr hq), h₁.kept hr hitems]
  items := by
    intro r q used e xs hr hq
    obtain ⟨ys, hys, hfirst⟩ := h₁.items hr hq
    have hr' := (h₁.kept (live_of_fragment hr) (h.not_isItems_of_fragment hr)).trans hr
    obtain ⟨zs, hzs, hsecond⟩ := h₂.items hr' hys
    refine ⟨zs, hzs, ?_⟩
    rcases hfirst with rfl | ⟨he, hfirst⟩
    · exact hsecond
    · rcases hsecond with rfl | ⟨-, hsecond⟩
      · exact .inr ⟨he, hfirst⟩
      · exact .inr ⟨he, hfirst.trans hsecond⟩
  isItems hr hq := h₁.isItems hr (h₂.isItems (h₁.live hr) hq)

end Sound

/-- Making data makes no list of items. -/
theorem isItems_of_push {o : Object} (ho : o.isFragment = false) (hq : (s.push o).IsItems q) :
    s.IsItems q := by
  obtain ⟨r, used, e, hr⟩ := hq
  rw [get_push] at hr
  split at hr
  · rw [hr] at ho
    cases ho
  · exact ⟨r, used, e, hr⟩

/-- Making a fragment makes one of its own. -/
theorem isItems_of_push_fragment {p : Ref} {used : Value} {e : Bool}
    (hq : (s.push (.fragment (.object p) used e)).IsItems q) : q = p ∨ s.IsItems q := by
  obtain ⟨r, used', e', hr⟩ := hq
  rw [get_push] at hr
  split at hr
  · cases hr
    exact .inl rfl
  · exact .inr ⟨r, used', e', hr⟩

/-- A fragment that is made has a new list of items. -/
theorem Yields.develops (hy : s.Yields hand v s') : s.Develops s' where
  live hr := (hy.grows _ hr).1
  kept hr _ := (hy.grows _ hr).2
  items _ hq := ⟨_, hy.grows.get hq nofun, .inl rfl⟩
  isItems := by
    intro q hq hitems
    have hnext : q ≠ s.next := by
      rintro rfl
      exact Nat.lt_irrefl _ hq
    cases hy with
    | given _ => exact hitems
    | text _ =>
      exact isItems_of_push rfl ((isItems_of_push_fragment hitems).resolve_left hnext)
    | assembled _ _ _ =>
      exact isItems_of_push rfl
        (isItems_of_push rfl ((isItems_of_push_fragment hitems).resolve_left hnext))

theorem Develops.refl (s : Store) : s.Develops s where
  live := id
  kept _ _ := rfl
  items _ hq := ⟨_, hq, .inl rfl⟩
  isItems _ := id

/-- **An argument puts in the same at any time.** -/
theorem PutsIn.develops (hv : s.PutsIn v t f) (h : s.Sound hand) (hd : s.Develops s') :
    s'.PutsIn v t f := by
  cases hv with
  | name n => exact .name n
  | scalar hc => exact .scalar hc
  | data hbare hapart ht =>
    have hagree : s.AgreeOn s' v := fun r hr => hd.kept (live_of_reaches hr ht) (hapart r hr)
    refine .data ((goesInBare_congr hagree).trans hbare) (fun r hr hitems => ?_)
      ((datum_congr hagree).symm ▸ ht)
    have hr' := hagree.reaches hr
    exact hapart r hr' (hd.isItems (live_of_reaches hr' ht) hitems)
  | @fragment r q used e xs ys t hr hq hadds ht =>
    obtain ⟨zs, hzs, hfolded⟩ := hd.items hr hq
    have hr' := (hd.kept (live_of_fragment hr) (h.not_isItems_of_fragment hr)).trans hr
    have hadds' := hadds.of_folded hfolded
    have hnames : namesIn xs = namesIn zs := funext fun n =>
      (hadds.mergesTo.count_name n).symm.trans (hadds'.mergesTo.count_name n)
    rw [hnames]
    exact .fragment hr' hzs hadds' ht

/-! ## Arguments in a sound store -/

/-- What is counted for a fragment are the names among its items. -/
theorem Sound.tallies_of_usesOf (h : s.Sound hand) {used : Value} {e : Bool} {xs : List Value}
    {m : Usage} (hr : s.get r = .fragment (.object q) used e) (hq : s.get q = .list xs)
    (hm : s.usesOf (.object r) = .ok m) : m.Tallies (namesIn xs) := by
  obtain ⟨m', hm', htallies⟩ := (h.shows_of_get hr hq).uses
  cases hm.symm.trans hm'
  exact htallies

/-- The text of a fragment is that of its items. -/
theorem Sound.codeText_of_fragment (h : s.Sound hand) {used : Value} {e : Bool} {xs : List Value}
    (hr : s.get r = .fragment (.object q) used e) (hq : s.get q = .list xs) :
    s.codeText (.object r) = Item.renderAll (fun _ => .ok []) xs := (h.shows_of_get hr hq).text

/-- **An argument puts in its text**, in a sound store. -/
theorem Argument.putsIn (hv : s.Argument v t f) (h : s.Sound hand) : s.PutsIn v t f := by
  cases hv with
  | scalar hc => exact .scalar hc
  | data hbare hapart ht => exact .data hbare hapart (Build.literal_eq_ok.1 ht).1
  | code he ht hm hf =>
    rcases h.name_or_holds (Build.isCode_of_isExpression he) with ⟨n, rfl⟩ | ⟨xs, e, hholds⟩
    · cases ht
      cases hm
      rw [hf.unique (Usage.tallies_name n)]
      exact .name n
    · cases he.symm.trans hholds.isExpression
      obtain @⟨r, q, used, _, _, hr, hq, -⟩ := hholds
      rw [hf.unique (h.tallies_of_usesOf hr hq hm)]
      rw [h.codeText_of_fragment hr hq] at ht
      exact .fragment hr hq rfl ht
  | @expression _ _ _ _ τ he hfold ht hm hf =>
    rcases h.name_or_holds (Build.isCode_of_isExpression he) with ⟨n, rfl⟩ | ⟨xs, e, hholds⟩
    · cases he
    · cases he.symm.trans hholds.isExpression
      obtain @⟨r, q, used, _, _, hr, hq, -⟩ := hholds
      obtain ⟨-, hw⟩ := (Build.runs_foldCode (σ := ⟨s, []⟩) h (.object r)).ok hfold
      have hlist : s.itemsOf (.object r) = .ok (.object q) :=
        itemsOf_eq_ok.2 ⟨r, used, true, rfl, hr⟩
      obtain ⟨ys, hys, hfolds⟩ := hw.rewritten hlist hq
      have hmerged := hw.imp FoldsTo.mergesTo
      have hr' := (h.get_fragment hmerged fun _ => isItems_of_itemsOf).2 hr
      rw [(h.rewrites hmerged fun _ => isItems_of_itemsOf).codeText_of_fragment hr' hys] at ht
      rw [hf.unique (h.tallies_of_usesOf hr hq hm)]
      exact .fragment hr hq hfolds ht

end Store

/-! ## One call -/

namespace Build

variable {σ τ : Session} {hand : List Value} {a : Assembly} {v : Value} {t : Text}
  {f : Name → Nat}

/-- A string expression spliced into code adds what it folds to. -/
theorem addArgument_of_foldsTo {r q : Ref} {used : Value} {xs ys : List Value}
    (h : σ.store.Sound hand) (ha : a.IsTallied)
    (hr : σ.store.get r = .fragment (.object q) used true) (hq : σ.store.get q = .list xs)
    (hfolds : FoldsTo xs ys) :
    ∃ b τ, addArgument a (.object r) σ = .ok b τ ∧
      b.items.toList = a.items.toList ++ ys := by
  obtain ⟨zs, hholds⟩ := h.exists_holds hr
  obtain ⟨used', hused, -⟩ := hholds.addUses ha.tallies.isWhole
  obtain ⟨hfailure, rfl⟩ := hfolds (σ.store.printWhile q)
  obtain ⟨log, hfold⟩ := foldCode_of_fold hr hq hfailure
  let τ : Session := ⟨σ.store.set q (.list (fold (σ.store.printWhile q) xs).items), log⟩
  have hpushed : pushed (.object r) τ = .ok (fold (σ.store.printWhile q) xs).items τ :=
    pushed_of_get (get_fragment_of_set hq hr) (get_set_self (live_of_list hq))
  refine ⟨a.append (fold (σ.store.printWhile q) xs).items used', τ, ?_, by simp [Assembly.append]⟩
  simp only [addArgument]
  rw [bind_of_ok (argument_of_isCode hholds.isCode), bind_of_ok (ask_apply _)]
  simp only [hholds.isCode, if_true, spliceCode]
  rw [bind_of_ok hused, bind_of_ok (read_of_ok hholds.isExpression)]
  simp only [if_true]
  rw [bind_of_ok hfold, bind_of_ok hpushed]
  rfl

/-- **An argument of code** adds a block with its text and its names. -/
theorem addArgument_of_putsIn (h : σ.store.Sound hand) (ha : a.IsTallied)
    (hv : σ.store.PutsIn v t f) :
    ∃ b τ block, addArgument a v σ = .ok b τ ∧ b.items.toList = a.items.toList ++ block ∧
      Item.renderAll (fun _ => .ok []) block = .ok t ∧ namesIn block = f := by
  have hsplices : ∀ {block}, σ.store.Splices v block →
      ∃ b τ, addArgument a v σ = .ok b τ ∧ b.items.toList = a.items.toList ++ block := by
    intro block hblock
    obtain ⟨b, hb, hitems, -⟩ := addArgument_of_splices hblock ha.tallies.isWhole
    exact ⟨b, σ, hb, hitems⟩
  cases hv with
  | name n =>
    obtain ⟨b, τ, hb, hitems⟩ := hsplices (.name n)
    exact ⟨b, τ, _, hb, hitems, Item.renderAll_singleton rfl, rfl⟩
  | @scalar c t hc =>
    obtain ⟨b, τ, hb, hitems⟩ := hsplices (.scalar c)
    exact ⟨b, τ, _, hb, hitems, Item.renderAll_singleton hc, namesIn_of_forall_ne (by simp)⟩
  | data hbare _ ht =>
    obtain ⟨b, τ, hb, hitems⟩ := hsplices (.literal hbare ht)
    exact ⟨b, τ, _, hb, hitems, Item.renderAll_singleton rfl, namesIn_of_forall_ne (by simp)⟩
  | @fragment r q used e xs ys t hr hq hadds ht =>
    have hnames : namesIn ys = namesIn xs := funext hadds.mergesTo.count_name
    cases e with
    | true =>
      obtain ⟨b, τ, hb, hitems⟩ := addArgument_of_foldsTo h ha hr hq hadds
      exact ⟨b, τ, ys, hb, hitems, ht, hnames⟩
    | false =>
      obtain ⟨_, _, hlist, hq', -, hused⟩ := h.fragment hr
      cases hlist
      cases hq.symm.trans hq'
      obtain rfl : ys = xs := hadds
      obtain ⟨b, τ, hb, hitems⟩ := hsplices (.fragment (.fragment hr hq hused.counts))
      exact ⟨b, τ, ys, hb, hitems, ht, rfl⟩

/-- **Arguments of code** add blocks with their texts and their names, each
with the segment behind it. -/
theorem codeArguments_of_putsIn {segments : Segments} {args : List Value}
    {rest : List (Text × (Name → Nat) × Text)} {i : Nat}
    (hget : ∀ τ, segments.ReadFrom τ i (rest.map fun p => p.2.2)) (h : σ.store.Sound hand)
    (ha : a.IsTallied) (hargs : List.Forall₂ (fun v p => σ.store.PutsIn v p.1 p.2.1) args rest) :
    ∃ b τ block, codeArguments segments i args a σ = .ok b τ ∧
      b.items.toList = a.items.toList ++ block ∧
      Item.renderAll (fun _ => .ok []) block = .ok (rest.flatMap fun p => p.1 ++ p.2.2) ∧
      namesIn block = fun n => (rest.map fun p => p.2.1 n).sum := by
  -- The store develops from one argument to the next, so the induction is for any store.
  induction args generalizing σ i a rest with
  | nil =>
    cases hargs
    exact ⟨a, σ, [], rfl, by simp, rfl, namesIn_of_forall_ne nofun⟩
  | cons v args ih =>
    rcases hargs with _ | @⟨_, p, _, rest, hv, hargs⟩
    obtain ⟨b, τ, block, hb, hitems, ht, hnames⟩ := addArgument_of_putsIn h ha hv
    obtain ⟨hb', hw⟩ := (runs_addArgument h ha v).ok hb
    have hd : σ.store.Develops τ.store := h.develops_of_rewrites hw
    have hsound : τ.store.Sound hand :=
      h.rewrites (hw.imp FoldsTo.mergesTo) fun _ => ExpressionItems.isItems
    obtain ⟨c, υ, blocks, hc, hcitems, hts, hcnames⟩ := ih (fun τ => (hget τ).tail) hsound
      (hb'.push_text p.2.2) (hargs.imp fun _ _ hw => hw.develops h hd)
    refine ⟨c, υ, block ++ (.text p.2.2 :: blocks), ?_, ?_, ?_, ?_⟩
    · simp only [codeArguments]
      rw [bind_of_ok hb, bind_of_ok (hget τ).head]
      exact hc
    · rw [hcitems]
      simp [Assembly.push, hitems]
    · have hsegment : Item.renderAll (fun _ => .ok []) (.text p.2.2 :: blocks) =
          .ok (p.2.2 ++ rest.flatMap fun p => p.1 ++ p.2.2) :=
        Item.renderAll_cons_of_ok rfl hts
      rw [Item.renderAll_append_of_ok ht hsegment]
      simp
    · have hnone : namesIn [.text p.2.2] = fun _ => 0 := namesIn_of_forall_ne (by simp)
      rw [← List.singleton_append, namesIn_append, namesIn_append, hnames, hnone, hcnames]
      simp

/-- **Code has the texts of its arguments between its segments**, and uses
what they use. -/
theorem code_of_putsIn {args : List Value} {rest : List (Text × (Name → Nat) × Text)} (t : Text)
    (h : σ.store.Sound hand)
    (hargs : List.Forall₂ (fun v p => σ.store.PutsIn v p.1 p.2.1) args rest) :
    ∃ v τ, code (.ofTexts (t :: rest.map fun p => p.2.2)) args σ = .ok v τ ∧
      τ.store.Sound (v :: hand) ∧ σ.store.Develops τ.store ∧
      τ.store.isExpression v = .ok false ∧
      τ.store.PutsIn v (t ++ rest.flatMap fun p => p.1 ++ p.2.2)
        fun n => (rest.map fun p => p.2.1 n).sum := by
  let segments : Segments := .ofTexts (t :: rest.map fun p => p.2.2)
  have hsegments : ∀ σ : Session, segments.Are σ.store (t :: rest.map fun p => p.2.2) :=
    fun _ => rfl
  have htallied : (⟨#[.text t], []⟩ : Assembly).IsTallied := .of_texts [t]
  obtain ⟨b, τ, block, hb, hitems, hts, hnames⟩ :=
    codeArguments_of_putsIn (fun τ => Segments.readFrom_of_are (hsegments τ)) h htallied hargs
  obtain ⟨hb', -⟩ := (runs_codeArguments h (Call.areGiven_ofTexts _ _) htallied 1).ok hb
  obtain ⟨v, υ, hv, hholds, -⟩ := assemble_holds (σ := τ) hb'.tallies.isWhole false
  have hrun : code segments args σ = .ok v υ := by
    have hfirst : segments.get 0 σ = .ok (.text t) σ := Segments.get_of_are (hsegments σ) rfl
    have harity : checkArity segments args σ = .ok () σ :=
      checkArity_of_are (hsegments σ) (by simp [hargs.length_eq])
    simp only [code]
    rw [bind_of_ok harity, bind_of_ok hfirst, bind_of_ok hb, hv]
  obtain ⟨s, hw, hy⟩ := (runs_code h (Call.areGiven_ofTexts _ _)).ok hrun
  have hmiddle : s.Sound hand :=
    h.rewrites (hw.imp FoldsTo.mergesTo) fun _ => ExpressionItems.isItems
  have hsound := hmiddle.yields hy
  refine ⟨v, υ, hrun, hsound, h.develops_trans (h.develops_of_rewrites hw) hy.develops,
    hholds.isExpression, ?_⟩
  obtain ⟨hr, hq, -⟩ := hholds
  have htext : Item.renderAll (fun _ => .ok []) b.items.toList =
      .ok (t ++ rest.flatMap fun p => p.1 ++ p.2.2) := by
    rw [hitems]
    exact Item.renderAll_append_of_ok (Item.renderAll_singleton rfl) hts
  have hcounts : namesIn b.items.toList = fun n => (rest.map fun p => p.2.1 n).sum := by
    have hnone : namesIn [.text t] = fun _ => 0 := namesIn_of_forall_ne (by simp)
    rw [hitems, namesIn_append, hnames]
    simp [hnone]
  rw [← hcounts]
  exact .fragment hr hq rfl htext

end Build

/-! ## Trees of calls -/

section Trees

variable (text : Value → Text) (uses : Value → Name → Nat)

/-- The uses of the leaves, added up. -/
def usesOfLeaves (vs : List Value) (n : Name) : Nat := (vs.map fun v => uses v n).sum

/-- The arguments of a template, each with its text, its uses and the
segment behind it. -/
def Template.pieces : Template → List (Text × (Name → Nat) × Text)
  | .last _ => []
  | .next _ a rest => (a.text text, usesOfLeaves uses a.leaves, rest.first) :: rest.pieces

variable {text uses}

theorem Template.segments_pieces : ∀ p : Template,
    p.segments = p.first :: (p.pieces text uses).map fun x => x.2.2
  | .last t => rfl
  | .next t a rest => by
    rw [segments, segments_pieces rest]
    rfl

theorem Template.text_pieces : ∀ p : Template,
    p.text text = p.first ++ (p.pieces text uses).flatMap fun x => x.1 ++ x.2.2
  | .last t => by simp [Template.text, first, pieces]
  | .next t a rest => by
    rw [Template.text, text_pieces rest, pieces]
    simp [first]

theorem Template.uses_pieces : ∀ p : Template,
    usesOfLeaves uses p.leaves = fun n => ((p.pieces text uses).map fun x => x.2.1 n).sum
  | .last t => rfl
  | .next t a rest => by
    funext n
    have ih := congrFun (uses_pieces rest) n
    simp only [usesOfLeaves, leaves, pieces, List.map_append, List.sum_append, List.map_cons,
      List.sum_cons] at ih ⊢
    rw [ih]

/-- A call of arguments that have been built. -/
theorem Template.build_of_args {p : Template} {σ τ : Session} {hand hand' vs : List Value}
    (h : σ.store.Sound hand) (hvs : p.buildArgs σ = .ok vs τ) (hsound : τ.store.Sound hand')
    (hd : σ.store.Develops τ.store)
    (hargs : List.Forall₂ (fun v x => τ.store.PutsIn v x.1 x.2.1) vs (p.pieces text uses)) :
    ∃ v υ hand', (CodeTree.code p).build σ = .ok v υ ∧ υ.store.Sound hand' ∧
      σ.store.Develops υ.store ∧ υ.store.isExpression v = .ok false ∧
      υ.store.PutsIn v (p.text text) (usesOfLeaves uses p.leaves) := by
  obtain ⟨v, υ, hv, hsound', hd', he, hputs⟩ := Build.code_of_putsIn p.first hsound hargs
  refine ⟨v, υ, v :: hand', ?_, hsound', h.develops_trans hd hd', he, ?_⟩
  · rw [CodeTree.build, Build.bind_of_ok hvs, p.segments_pieces]
    exact hv
  · rw [p.text_pieces, p.uses_pieces]
    exact hputs

mutual

/-- **A tree of calls** can be built, and puts in its text. -/
theorem CodeTree.build_putsIn : ∀ (c : CodeTree) {σ : Session} {hand : List Value},
    σ.store.Sound hand → (∀ v ∈ c.leaves, σ.store.PutsIn v (text v) (uses v)) →
    ∃ v τ hand', c.build σ = .ok v τ ∧ τ.store.Sound hand' ∧ σ.store.Develops τ.store ∧
      τ.store.PutsIn v (c.text text) (usesOfLeaves uses c.leaves)
  | .leaf v, σ, hand, h, hleaves => by
    have hsum : usesOfLeaves uses (CodeTree.leaf v).leaves = uses v := by
      funext n
      simp [usesOfLeaves, CodeTree.leaves]
    refine ⟨v, σ, hand, rfl, h, .refl _, ?_⟩
    rw [hsum, CodeTree.text]
    exact hleaves v (by simp [CodeTree.leaves])
  | .code p, σ, hand, h, hleaves => by
    obtain ⟨vs, τ, hand', hvs, hsound, hd, hargs⟩ := p.buildArgs_putsIn h hleaves
    obtain ⟨v, υ, hand'', hv, hsound', hd', -, hputs⟩ :=
      Template.build_of_args h hvs hsound hd hargs
    exact ⟨v, υ, hand'', hv, hsound', hd', hputs⟩

/-- And so can the arguments of a call, one after the other. -/
theorem Template.buildArgs_putsIn : ∀ (p : Template) {σ : Session} {hand : List Value},
    σ.store.Sound hand → (∀ v ∈ p.leaves, σ.store.PutsIn v (text v) (uses v)) →
    ∃ vs τ hand', p.buildArgs σ = .ok vs τ ∧ τ.store.Sound hand' ∧ σ.store.Develops τ.store ∧
      List.Forall₂ (fun v x => τ.store.PutsIn v x.1 x.2.1) vs (p.pieces text uses)
  | .last t, σ, hand, h, _ => ⟨[], σ, hand, rfl, h, .refl _, .nil⟩
  | .next t a rest, σ, hand, h, hleaves => by
    rw [Template.leaves, List.forall_mem_append] at hleaves
    obtain ⟨hfirst, hrest⟩ := hleaves
    obtain ⟨v, τ, hand', hv, hsound, hd, hputs⟩ := a.build_putsIn h hfirst
    obtain ⟨vs, υ, hand'', hvs, hsound', hd', hargs⟩ := rest.buildArgs_putsIn hsound
      fun w hw => (hrest w hw).develops h hd
    refine ⟨v :: vs, υ, hand'', ?_, hsound', h.develops_trans hd hd',
      .cons (hputs.develops hsound hd') hargs⟩
    rw [Template.buildArgs, Build.bind_of_ok hv, Build.bind_of_ok hvs]
    rfl

end

end Trees

/-- What code puts in elsewhere is its own text, and its uses are counted. -/
theorem Store.PutsIn.codeText {s : Store} {hand : List Value} {v : Value} {t : Text}
    {f : Name → Nat} (hv : s.PutsIn v t f) (h : s.Sound hand) (he : s.isExpression v = .ok false) :
    s.codeText v = .ok t ∧ ∃ m, s.usesOf v = .ok m ∧ m.Tallies f := by
  cases hv with
  | name n => exact ⟨rfl, _, rfl, Usage.tallies_name n⟩
  | scalar _ => cases he
  | data hbare _ _ =>
    rw [goesInBare_of_isCode (Build.isCode_of_isExpression he)] at hbare
    cases hbare
  | @fragment r q used e xs ys t hr hq hadds ht =>
    obtain rfl : e = false := by simpa [isExpression, hr] using he
    obtain rfl : ys = xs := hadds
    obtain ⟨_, _, hitems, hq', -, hused⟩ := h.fragment hr
    cases hitems
    cases hq.symm.trans hq'
    obtain ⟨m, hm, -, htallies⟩ := hused.countsIn
    exact ⟨(h.codeText_of_fragment hr hq).trans ht, m, by simp [usesOf, hr, hm], htallies⟩

/-- A call whose arguments are trees of calls has their texts between its
segments, and counts the uses of the leaves. -/
theorem Template.build_code {p : Template} {text : Value → Text} {uses : Value → Name → Nat}
    {σ : Session} {hand : List Value} (h : σ.store.Sound hand)
    (hp : ∀ v ∈ p.leaves, σ.store.PutsIn v (text v) (uses v)) :
    ∃ v τ hand' m, (CodeTree.code p).build σ = .ok v τ ∧ τ.store.Sound hand' ∧
      σ.store.Develops τ.store ∧ τ.store.codeText v = .ok (p.text text) ∧
      τ.store.usesOf v = .ok m ∧ m.Tallies (usesOfLeaves uses p.leaves) := by
  obtain ⟨vs, τ, hand', hvs, hsound, hd, hargs⟩ := p.buildArgs_putsIn h hp
  obtain ⟨v, υ, hand'', hv, hsound', hd', he, hputs⟩ := p.build_of_args h hvs hsound hd hargs
  obtain ⟨htext, m, hm, htallies⟩ := hputs.codeText hsound' he
  exact ⟨v, υ, hand'', m, hv, hsound', hd', htext, hm, htallies⟩

namespace Reachable

/-- **Nested and flat templates agree.** At any point of any history, a
tree of calls can be built, and its text is the segments with the texts of
the leaves between them, string expressions folded. If calls inside others
are inlined, in any order, what is built then, before or after the tree
itself is, has the same text and counts the same uses: those of the leaves. -/
theorem nested_text {σ : Session} {hand : List Value} {p : Template} {text : Value → Text}
    {uses : Value → Name → Nat} (h : Reachable σ hand)
    (hp : ∀ v ∈ p.leaves, σ.store.Argument v (text v) (uses v)) :
    ∃ v τ m, (CodeTree.code p).build σ = .ok v τ ∧ τ.store.codeText v = .ok (p.text text) ∧
      τ.store.usesOf v = .ok m ∧ m.Tallies (usesOfLeaves uses p.leaves) ∧
      ∀ q, ReflTransGen Template.Inlines p q → ∀ ρ, ρ = σ ∨ ρ = τ →
        ∃ w υ m', (CodeTree.code q).build ρ = .ok w υ ∧
          υ.store.codeText w = .ok (p.text text) ∧ υ.store.usesOf w = .ok m' ∧ m'.Perm m := by
  have hputs : ∀ v ∈ p.leaves, σ.store.PutsIn v (text v) (uses v) :=
    fun v hv => (hp v hv).putsIn h.sound
  obtain ⟨v, τ, hand', m, hv, hsound, hd, htext, hm, htallies⟩ := Template.build_code h.sound hputs
  refine ⟨v, τ, m, hv, htext, hm, htallies, fun q hq ρ hρ => ?_⟩
  obtain ⟨hleaves, hsame⟩ : q.leaves = p.leaves ∧ q.text text = p.text text := by
    clear hputs hv htext hm htallies hp
    induction hq with
    | refl => exact ⟨rfl, rfl⟩
    | tail _ hstep ih => exact ⟨hstep.leaves.trans ih.1, (hstep.text text).trans ih.2⟩
  obtain ⟨handρ, hρsound, hρputs⟩ : ∃ hand, ρ.store.Sound hand ∧
      ∀ v ∈ q.leaves, ρ.store.PutsIn v (text v) (uses v) := by
    rw [hleaves]
    rcases hρ with rfl | rfl
    · exact ⟨hand, h.sound, hputs⟩
    · exact ⟨hand', hsound, fun v hv => (hputs v hv).develops h.sound hd⟩
  obtain ⟨w, υ, -, m', hw, -, -, htext', hm', htallies'⟩ := Template.build_code hρsound hρputs
  rw [hsame] at htext'
  rw [hleaves] at htallies'
  exact ⟨w, υ, m', hw, htext', hm', htallies'.perm htallies⟩

/-- A string expression that is spliced twice, further in first, beside a
name and a scalar. -/
theorem nested_text_twice :
    let x : Name := ⟨"x", by decide⟩
    let items : List Value :=
      [.text "\"a\"", .plus, .text "\"-\"", .plus, .text "\"b\""]
    let σ : Session := ⟨⟨#[.fragment (.object ⟨1⟩) (.scalar .null) false, .list [.text []],
      .list items, .dict [], .fragment (.object ⟨2⟩) (.object ⟨3⟩) true]⟩, []⟩
    let e : CodeTree := .leaf (.object ⟨4⟩)
    let p : Template := .next "f" (.code (.next "(" e (.next "," (.leaf (.name x)) (.next ","
      (.leaf (.scalar .null)) (.last ")"))))) (.next ";" e (.last []))
    let q : Template := .next "f(" e (.next "," (.leaf (.name x)) (.next ","
      (.leaf (.scalar .null)) (.next ");" e (.last []))))
    let t : Text := "f(\"a-b\",x,null);\"a-b\""
    (Reachable σ [.object ⟨4⟩, nil] ∧ ReflTransGen Template.Inlines p q) ∧
      ∃ v τ w υ m m', (CodeTree.code p).build σ = .ok v τ ∧ τ.store.codeText v = .ok t ∧
        (CodeTree.code q).build τ = .ok w υ ∧ υ.store.codeText w = .ok t ∧
        τ.store.usesOf v = .ok m ∧ υ.store.usesOf w = .ok m' ∧ m'.Perm m := by
  intro x items σ e p q t
  have hreach : Reachable σ [.object ⟨4⟩, nil] := by
    refine .answered (c := .expression (.ofStrings ["a", "b"]) [.text "-"]) .start ⟨?_, ?_⟩ rfl
    · simp [Call.args, Store.IsGiven]
    · exact Call.areGiven_ofStrings _ _
  have hinlines : ReflTransGen Template.Inlines p q := .single (.here "f" _ _)
  let text (v : Value) : Text :=
    if v = .name x then "x" else if v = .scalar .null then "null" else "\"a-b\""
  let uses (v : Value) : Name → Nat := if v = .name x then namesIn [.name x] else fun _ => 0
  have hitems : fold (σ.store.printWhile ⟨2⟩) items = ⟨[.text "\"a-b\""], 2, none⟩ := by
    with_unfolding_all rfl
  obtain ⟨log, hfold⟩ := Build.foldCode_of_fold (σ := ⟨σ.store, []⟩) (r := ⟨4⟩) (q := ⟨2⟩) rfl rfl
    (congrArg Folded.failure? hitems)
  rw [hitems] at hfold
  have he : σ.store.Argument (.object ⟨4⟩) "\"a-b\"" fun _ => 0 :=
    .expression rfl hfold rfl rfl .nil
  have hx : σ.store.Argument (.name x) "x" (namesIn [.name x]) :=
    .code rfl rfl rfl (Usage.tallies_name x)
  have hp : ∀ v ∈ p.leaves, σ.store.Argument v (text v) (uses v) := by
    simp only [p, e, Template.leaves, CodeTree.leaves, List.cons_append, List.nil_append,
      List.append_nil, List.forall_mem_cons]
    exact ⟨he, hx, .scalar rfl, he, List.forall_mem_nil _⟩
  obtain ⟨v, τ, m, hv, htext, hm, -, hinlined⟩ := hreach.nested_text hp
  obtain ⟨w, υ, m', hw, htext', hm', hperm⟩ := hinlined q hinlines τ (.inr rfl)
  exact ⟨⟨hreach, hinlines⟩, v, τ, w, υ, m, m', hv, htext, hw, htext', hm, hm', hperm⟩

end Reachable

end Splice
