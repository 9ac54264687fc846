import Splice.Proofs.Folding.Confluence
import Splice.Proofs.History.Step
/-!
# Histories — calls that follow each other

An author builds code by one call after the other: values that have been
answered are passed on, data is made in between, and a call that fails is
not the end (`Reachable`). Whatever the history, the store is sound
(`Reachable.sound`). So every fragment counts the names that it holds
(`Reachable.counts_names`), and a call leaves all there is as it was but
for the lists that it folds (`Reachable.respects`).
-/

namespace Splice

open Store

/-! ## Calls -/

/-- A call of one of the operations that build code. -/
inductive Call
  | code (segments : Segments) (args : List Value)
  | expression (segments : Segments) (args : List Value)
  | codeOfFormat (template : Value) (args : List Value)
  | expressionOfFormat (template : Value) (args : List Value)
  | concat (a b : Value)
  | property (key : Value)
  | literalFragment (v : Value)
  | foldCode (v : Value)

namespace Call

/-- What a call does. -/
def run : Call → Build Value
  | code segments args => Build.code segments args
  | expression segments args => Build.expression segments args
  | codeOfFormat template args => Build.codeOfFormat template args
  | expressionOfFormat template args => Build.expressionOfFormat template args
  | concat a b => Build.concat a b
  | property key => Build.property key
  | literalFragment v => Build.literalFragment v
  | foldCode v => Build.foldCode v

/-- The values that are passed. -/
def args : Call → List Value
  | code _ args => args
  | expression _ args => args
  | codeOfFormat template args => template :: args
  | expressionOfFormat template args => template :: args
  | concat a b => [a, b]
  | property key => [key]
  | literalFragment v => [v]
  | foldCode v => [v]

/-- The segments, where they are passed one by one, are texts. -/
def HasTexts (s : Store) (hand : List Value) : Call → Prop
  | code segments _ => segments.AreGiven s hand
  | expression segments _ => segments.AreGiven s hand
  | _ => True

/-- All that is passed refers to values at hand. -/
structure IsGiven (c : Call) (s : Store) (hand : List Value) : Prop where
  args : ∀ v ∈ c.args, Store.IsGiven hand v
  segments : c.HasTexts s hand

/-- The call folds the value: expressions that are spliced into code, and
what a fold is called for. -/
def Folds (s : Store) : Call → Value → Prop
  | code _ args, v => v ∈ args ∧ s.isExpression v = .ok true
  | codeOfFormat _ args, v => v ∈ args ∧ s.isExpression v = .ok true
  | property key, v => v = key ∧ s.isExpression v = .ok true
  | foldCode w, v => v = w
  | _, _ => False

/-- The call folds the list: it is the list of items of a value it folds. -/
def FoldsList (c : Call) (s : Store) (q : Ref) : Prop :=
  ∃ v, c.Folds s v ∧ s.itemsOf v = .ok (.object q)

/-- What a call leaves of a store. Lists that it folds are rewritten as `K`
says, and nothing else changes. -/
structure Respects (c : Call) (hand : List Value) (K : List Value → List Value → Prop)
    (s s' : Store) : Prop where
  /-- An object other than the lists that the call folds is as it was. -/
  kept : ∀ r, s.Live r → ¬ c.FoldsList s r → s'.get r = s.get r
  /-- A list that the call folds is rewritten. -/
  folded : ∀ q xs, c.FoldsList s q → s.get q = .list xs → ∃ ys, s'.get q = .list ys ∧ K xs ys
  /-- Every fragment has the list, the usage map and the flag that it had,
  and the map counts what it did. -/
  fragments : ∀ r items used e, s.get r = .fragment items used e →
    s'.get r = .fragment items used e ∧ ∀ u, used = .object u → s'.get u = s.get u
  /-- Values at hand, data among them, stand for the same objects. -/
  hand : ∀ r, .object r ∈ hand → s'.get r = s.get r
  /-- A fragment that the call does not fold has the same text. -/
  text : ∀ r, (s.get r).isFragment = true → ¬ c.Folds s (.object r) →
    s'.codeText (.object r) = s.codeText (.object r)
  /-- The shared empty fragment is as it was at the start. -/
  blank : s'.get nilRef = initial.get nilRef ∧ s'.get nilItems = initial.get nilItems

section Lists

variable {c : Call} {s : Store} {q : Ref}

theorem FoldsList.isItems (h : c.FoldsList s q) : s.IsItems q := by
  obtain ⟨v, -, hq⟩ := h
  exact isItems_of_itemsOf hq

theorem foldsList_code {segments : Segments} {args : List Value} :
    (code segments args).FoldsList s q ↔ s.ExpressionItems args q := by
  simp only [FoldsList, Folds, ExpressionItems, and_assoc]

theorem foldsList_codeOfFormat {template : Value} {args : List Value} :
    (codeOfFormat template args).FoldsList s q ↔ s.ExpressionItems args q := by
  simp only [FoldsList, Folds, ExpressionItems, and_assoc]

theorem foldsList_property {key : Value} :
    (property key).FoldsList s q ↔ s.ExpressionItems [key] q := by
  simp only [FoldsList, Folds, ExpressionItems, and_assoc, List.mem_singleton]

theorem foldsList_foldCode {v : Value} :
    (foldCode v).FoldsList s q ↔ s.itemsOf v = .ok (.object q) := by
  simp [FoldsList, Folds]

end Lists

/-! ## What one call does -/

variable {σ : Session} {hand : List Value} {c : Call}

/-- The operation folds the lists of the call, or merges them as far as it
comes, and then answers what it was given or a new fragment. -/
def Does (c : Call) (hand : List Value) (σ : Session) (x : Build Value) : Prop :=
  Build.Runs x σ
    (fun v τ => ∃ s, Rewrites FoldsTo (c.FoldsList σ.store) σ.store s ∧ s.Yields hand v τ.store)
    (Rewrites MergesTo (c.FoldsList σ.store) σ.store)

theorem areGiven_ofTexts (s : Store) (ts : List Text) :
    (Segments.ofTexts ts).AreGiven s hand := ⟨⟨ts, rfl⟩, nofun⟩

theorem areGiven_ofStrings (s : Store) (ss : List String) :
    (Segments.ofStrings ss).AreGiven s hand :=
  ⟨⟨ss.map Text.ofString, by simp [Segments.ofStrings, Segments.Are]⟩, nofun⟩

section Does

variable {segments : Segments} {args : List Value}

/-- A call that folds nothing may answer what it was given. -/
theorem does_pure {v : Value} (hv : Store.IsGiven hand v) (hL : ∀ q, ¬ c.FoldsList σ.store q) :
    c.Does hand σ (pure v) := .pure ⟨σ.store, .of_none hL, .given hv⟩

/-- Or a text as a fragment. -/
theorem does_fragment (t : Text) (hL : ∀ q, ¬ c.FoldsList σ.store q) :
    c.Does hand σ (Build.fragment (.text t) (.scalar .null) false) :=
  .of_ok (τ := ⟨_, σ.log⟩) rfl ⟨σ.store, .of_none hL, .text t⟩

/-- Or an expression. -/
theorem does_expression (h : σ.store.Sound hand) (hs : segments.AreGiven σ.store hand)
    (hL : ∀ q, ¬ c.FoldsList σ.store q) : c.Does hand σ (Build.expression segments args) := by
  refine (Build.runs_expression h hs).imp (fun v τ hy => ⟨σ.store, .of_none hL, hy⟩) ?_
  rintro s rfl
  exact .refl

/-- Code folds the expressions among the arguments. -/
theorem does_code (h : σ.store.Sound hand) (hs : segments.AreGiven σ.store hand)
    (hL : ∀ q, c.FoldsList σ.store q ↔ σ.store.ExpressionItems args q) :
    c.Does hand σ (Build.code segments args) := by
  refine (Build.runs_code h hs).imp ?_ fun s hw => hw.congr fun q => (hL q).symm
  rintro v τ ⟨s, hw, hy⟩
  exact ⟨s, hw.congr fun q => (hL q).symm, hy⟩

/-- A step that only reads may come first. -/
theorem Does.read {α : Type} {f : Store → Except Failure α} {g : α → Build Value}
    (hg : ∀ a, c.Does hand σ (g a)) : c.Does hand σ (Build.read f >>= g) :=
  (Build.reads_read (P := fun _ => True) fun _ _ => trivial).bind .refl fun a _ => hg a

end Does

/-- **What a call does to a sound store.** -/
theorem does_run (h : σ.store.Sound hand) (hc : c.IsGiven σ.store hand) :
    c.Does hand σ c.run := by
  obtain ⟨hargs, hs⟩ := hc
  cases c with
  | code segments args => exact does_code h hs fun q => foldsList_code
  | expression segments args => exact does_expression h hs (by simp [FoldsList, Folds])
  | codeOfFormat template args =>
    exact .read fun ts => does_code h (areGiven_ofTexts _ ts) fun q => foldsList_codeOfFormat
  | expressionOfFormat template args =>
    exact .read fun ts => does_expression h (areGiven_ofTexts _ ts) (by simp [FoldsList, Folds])
  | concat a b =>
    have hnone : ∀ q, ¬ (concat a b).FoldsList σ.store q := by simp [FoldsList, Folds]
    refine .read fun e => ?_
    split
    · exact does_pure (hargs a (by simp [args])) hnone
    refine .read fun e => ?_
    split
    · exact does_pure (hargs b (by simp [args])) hnone
    · exact does_expression h (areGiven_ofStrings _ _) hnone
  | property key =>
    have hcode : (property key).Does hand σ (Build.code (.ofStrings ["[", "]"]) [key]) :=
      does_code h (areGiven_ofStrings _ _) fun q => foldsList_property
    cases key with
    | text t =>
      -- A text is no expression, so nothing is folded.
      have hnone : ∀ q, ¬ (property (.text t)).FoldsList σ.store q := by
        simp [FoldsList, Folds, isExpression]
      simp only [run, Build.property]
      split
      · exact does_fragment _ hnone
      · exact hcode
    | _ => exact hcode
  | literalFragment v =>
    have hnone : ∀ q, ¬ (literalFragment v).FoldsList σ.store q := by simp [FoldsList, Folds]
    exact (Build.reads_literal v).bind .refl fun t _ => does_fragment t hnone
  | foldCode v =>
    refine (Build.runs_foldCode h v).imp ?_ fun s hw => hw.congr fun q => foldsList_foldCode.symm
    rintro w τ ⟨rfl, hw⟩
    exact ⟨τ.store, hw.congr fun q => foldsList_foldCode.symm,
      .given (hargs w (List.mem_singleton_self w))⟩

/-! ## What a call leaves alone -/

/-- Lists that are rewritten in place and objects that are new are all that
is different after a call. -/
theorem respects_of_rewrites {K : List Value → List Value → Prop} {s s₁ s' : Store}
    (h : s.Sound hand) (hw : Rewrites K (c.FoldsList s) s s₁)
    (hK : ∀ {xs ys}, K xs ys → MergesTo xs ys) (hgrows : s₁.Grows s') :
    c.Respects hand K s s' := by
  have hmerged : Rewrites MergesTo (c.FoldsList s) s s₁ := hw.imp hK
  have hL : ∀ q, c.FoldsList s q → s.IsItems q := fun q => FoldsList.isItems
  have hgrown : ∀ {r}, s.Live r → s'.get r = s₁.get r := fun hr => (hgrows _ (hw.live.2 hr)).2
  constructor
  · intro r hr hfolds
    rw [hgrown hr, hw.kept hfolds]
  · intro q xs hq hxs
    obtain ⟨ys, hys, hK⟩ := hw.rewritten hq hxs
    exact ⟨ys, (hgrown (live_of_list hxs)).trans hys, hK⟩
  · intro r items used e hr
    refine ⟨(hgrown (live_of_fragment hr)).trans ((h.get_fragment hmerged hL).2 hr), ?_⟩
    rintro u rfl
    obtain ⟨_, _, -, -, -, hused⟩ := h.fragment hr
    cases hused with
    | map hu _ =>
      rw [hgrown (live_of_dict hu), (h.get_dict hmerged hL).2 hu, hu]
  · intro r hr
    rw [hgrown (h.free hr).1, h.get_hand hmerged hL hr]
  · intro r hr hfolds
    obtain ⟨items, used, e, hr⟩ : ∃ items used e, s.get r = .fragment items used e := by
      cases ho : s.get r with
      | fragment items used e => exact ⟨items, used, e, rfl⟩
      | _ => simp [ho, Object.isFragment] at hr
    obtain ⟨q, xs, rfl, hq, hbare, -⟩ := h.fragment hr
    -- No other fragment has this list, so it is not folded with another one.
    have hapart : ¬ c.FoldsList s q := by
      rintro ⟨v, hv, hitems⟩
      obtain ⟨r', used', e', rfl, hr'⟩ := itemsOf_eq_ok.1 hitems
      obtain rfl := h.apart (.items hr) (.items hr')
      exact hfolds hv
    have hr' := (hgrown (live_of_fragment hr)).trans ((h.get_fragment hmerged hL).2 hr)
    have hq' := (hgrown (live_of_list hq)).trans ((hw.kept hapart).trans hq)
    rw [codeText_of_get hr hq, codeText_of_get hr' hq', Item.renderAll_of_isBare hbare]
  · obtain ⟨hnil, hitems⟩ := (h.rewrites hmerged hL).blank
    exact ⟨(hgrows _ (live_of_fragment hnil)).2.trans hnil,
      (hgrows _ (live_of_list hitems)).2.trans hitems⟩

end Call

/-! ## Histories -/

/-- The sessions that a history leads to, with the values at hand then. It
starts with the shared empty fragment. Data may hold anything, and names,
texts and scalars need not be made. -/
inductive Reachable : Session → List Value → Prop
  /-- Nothing has happened. -/
  | start : Reachable .initial [nil]
  /-- Data has been made. -/
  | data {σ : Session} {hand : List Value} {o : Object} : Reachable σ hand →
      o.isFragment = false → Reachable ⟨σ.store.push o, σ.log⟩ (.object σ.store.next :: hand)
  /-- A call has been answered. -/
  | answered {σ τ : Session} {hand : List Value} {c : Call} {v : Value} : Reachable σ hand →
      c.IsGiven σ.store hand → c.run σ = .ok v τ → Reachable τ (v :: hand)
  /-- A call has failed. -/
  | failed {σ τ : Session} {hand : List Value} {c : Call} {e : Failure} : Reachable σ hand →
      c.IsGiven σ.store hand → c.run σ = .error e τ → Reachable τ hand

namespace Reachable

variable {σ : Session} {hand : List Value} {c : Call}

/-- **Whatever the history, the store is sound.** -/
theorem sound (h : Reachable σ hand) : σ.store.Sound hand := by
  induction h with
  | start => exact .initial
  | data _ ho ih => exact ih.push ho
  | answered _ hc hrun ih =>
    obtain ⟨s, hw, hy⟩ := (Call.does_run ih hc).ok hrun
    exact (ih.rewrites (hw.imp FoldsTo.mergesTo) fun q => Call.FoldsList.isItems).yields hy
  | failed _ hc hrun ih =>
    exact ih.rewrites ((Call.does_run ih hc).error hrun) fun q => Call.FoldsList.isItems

/-- **Every fragment counts its names.** At any point of any history, the
usage map of a fragment, no map being the empty one, has the number of
items that are the name for every name, and has no entry but for the names
that are among the items. -/
theorem counts_names (h : Reachable σ hand) {r : Ref} {items used : Value} {e : Bool}
    (hr : σ.store.get r = .fragment items used e) :
    ∃ (q : Ref) (xs : List Value) (m : Usage), items = .object q ∧ σ.store.get q = .list xs ∧
      (used = .scalar .null ∧ m = [] ∨ ∃ u, used = .object u ∧ σ.store.get u = .dict m) ∧
      σ.store.usesOf (.object r) = .ok m ∧
      (∀ n : Name, m.count σ.store (.text n.text) = .scalar (.int (xs.count (.name n)))) ∧
      (m.map Prod.fst).Nodup ∧
      ∀ entry ∈ m, ∃ n : Name,
        entry = (.text n.text, .scalar (.int (xs.count (.name n)))) ∧ 0 < xs.count (.name n) := by
  obtain ⟨q, xs, rfl, hq, -, hused⟩ := h.sound.fragment hr
  obtain ⟨m, hm, hmap, htallies⟩ := hused.countsIn
  exact ⟨q, xs, m, rfl, hq, hmap, by simp [usesOf, hr, hm], fun n => htallies.count n,
    htallies.nodup, fun entry => htallies.exists_entry⟩

/-- Code that is spliced into an expression, after a call that has failed
for want of an argument. -/
theorem counts_names_nested :
    let x : Name := ⟨Text.ofString "x", by decide⟩
    let inner : List Value := [.text "f(", .name x, .text ")"]
    let outer : List Value := inner ++ [.plus, .name x]
    let τ : Session := ⟨⟨#[.fragment (.object ⟨1⟩) (.scalar .null) false, .list [.text []],
      .list inner, .dict [(.text "x", .scalar (.int 1))],
      .fragment (.object ⟨2⟩) (.object ⟨3⟩) false,
      .list outer, .dict [(.text "x", .scalar (.int 2))],
      .fragment (.object ⟨5⟩) (.object ⟨6⟩) true]⟩, []⟩
    (Reachable τ [.object ⟨7⟩, .object ⟨4⟩, nil] ∧
      τ.store.get ⟨7⟩ = .fragment (.object ⟨5⟩) (.object ⟨6⟩) true) ∧
    ∃ (q : Ref) (xs : List Value) (m : Usage), (.object ⟨5⟩ : Value) = .object q ∧
      τ.store.get q = .list xs ∧
      ((.object ⟨6⟩ : Value) = .scalar .null ∧ m = [] ∨
        ∃ u, (.object ⟨6⟩ : Value) = .object u ∧ τ.store.get u = .dict m) ∧
      τ.store.usesOf (.object ⟨7⟩) = .ok m ∧
      (∀ n : Name, m.count τ.store (.text n.text) = .scalar (.int (xs.count (.name n)))) ∧
      (m.map Prod.fst).Nodup ∧
      ∀ entry ∈ m, ∃ n : Name,
        entry = (.text n.text, .scalar (.int (xs.count (.name n)))) ∧ 0 < xs.count (.name n) := by
  intro x inner outer τ
  let σ : Session := ⟨⟨τ.store.objects.extract 0 5⟩, []⟩
  have hcode : Reachable σ [.object ⟨4⟩, nil] := by
    refine .answered (c := .code (.ofStrings ["f(", ")"]) [.name x]) .start ⟨?_, ?_⟩ rfl
    · simp [Call.args, Store.IsGiven]
    · exact Call.areGiven_ofStrings _ _
  have hfailed : Reachable σ [.object ⟨4⟩, nil] := by
    refine .failed (c := .code (.ofStrings ["f(", ")"]) []) hcode ⟨?_, ?_⟩ rfl
    · simp [Call.args]
    · exact Call.areGiven_ofStrings _ _
  have hreach : Reachable τ [.object ⟨7⟩, .object ⟨4⟩, nil] := by
    refine .answered (c := .expression (.ofStrings ["", "", ""]) [.object ⟨4⟩, .name x]) hfailed
      ⟨?_, ?_⟩ rfl
    · simp [Call.args, Store.IsGiven]
    · exact Call.areGiven_ofStrings _ _
  exact ⟨⟨hreach, rfl⟩, hreach.counts_names rfl⟩

/-- **Fragments do not interfere.** No two of them share a list of items or
a usage map. A call that is answered leaves everything as it was but for
the lists of the fragments that it folds, and these hold their fold then.
A call that fails might have merged these lists in part. -/
theorem respects (h : Reachable σ hand) (hc : c.IsGiven σ.store hand) :
    (∀ r r' q, σ.store.Owns r q → σ.store.Owns r' q → r = r') ∧
    (∀ v τ, c.run σ = .ok v τ → c.Respects hand FoldsTo σ.store τ.store) ∧
    ∀ e τ, c.run σ = .error e τ → c.Respects hand MergesTo σ.store τ.store := by
  have hdoes := Call.does_run h.sound hc
  refine ⟨fun r r' q => h.sound.apart, fun v τ hrun => ?_, fun e τ hrun => ?_⟩
  · obtain ⟨s, hw, hy⟩ := hdoes.ok hrun
    exact Call.respects_of_rewrites h.sound hw FoldsTo.mergesTo hy.grows
  · exact Call.respects_of_rewrites h.sound (hdoes.error hrun) id fun r hr => ⟨hr, rfl⟩

/-- An expression is folded after its items have been taken over by another
one, which keeps them as they were. -/
theorem respects_parent :
    let items : List Value := [.text "\"a\"", .plus, .scalar .null, .plus, .text "\"b\""]
    let σ : Session := ⟨⟨#[.fragment (.object ⟨1⟩) (.scalar .null) false, .list [.text []],
      .list items, .dict [], .fragment (.object ⟨2⟩) (.object ⟨3⟩) true,
      .list items, .dict [], .fragment (.object ⟨5⟩) (.object ⟨6⟩) true]⟩, []⟩
    let hand : List Value := [.object ⟨7⟩, .object ⟨4⟩, nil]
    let c : Call := .foldCode (.object ⟨4⟩)
    ∃ τ, (Reachable σ hand ∧ c.IsGiven σ.store hand ∧ c.run σ = .ok (.object ⟨4⟩) τ) ∧
      c.Respects hand FoldsTo σ.store τ.store := by
  intro items σ hand c
  let σ' : Session := ⟨⟨σ.store.objects.extract 0 5⟩, []⟩
  have hchild : Reachable σ' [.object ⟨4⟩, nil] := by
    refine .answered (c := .expression (.ofStrings ["a", "b"]) [.scalar .null]) .start ⟨?_, ?_⟩ rfl
    · simp [Call.args, Store.IsGiven]
    · exact Call.areGiven_ofStrings _ _
  have hparent : Reachable σ hand := by
    refine .answered (c := .expression (.ofStrings ["", ""]) [.object ⟨4⟩]) hchild ⟨?_, ?_⟩ rfl
    · simp [Call.args, Store.IsGiven]
    · exact Call.areGiven_ofStrings _ _
  have hgiven : c.IsGiven σ.store hand := ⟨by simp [c, hand, Call.args, Store.IsGiven], trivial⟩
  have hsteady : Folded.Steady items := by
    simp only [items, Folded.Steady, List.forall_mem_cons]
    exact ⟨.text (by decide), .text (by decide), .scalar rfl, .text (by decide),
      .text (by decide), List.forall_mem_nil _⟩
  obtain ⟨log, hrun⟩ := Build.foldCode_of_fold (σ := σ) (r := ⟨4⟩) rfl rfl
    (fold_steady_failure? hsteady)
  exact ⟨_, ⟨hparent, hgiven, hrun⟩, (hparent.respects hgiven).2.1 _ _ hrun⟩

end Reachable

end Splice
