import Splice.Proofs.Expression.Constant
import Splice.Proofs.Expression.Folding
import Splice.Proofs.Folding.Seam
import Splice.Proofs.History.Nested
import Splice.Proofs.Property
/-!
# Validators — the parts of a check

A check is put together from fragments that are made one after the other.
Each leaves the store sound and everything that was there as it was, and
holds a known row of items (`Store.Made`): the access to a property behind
the name of the object (`Build.member_made`), and a message. Code is then
put together of their texts (`Build.code_puts`). That folds the message,
but in a list that is new, so it changes nothing older (`Store.Recent`).

The items of an access are inert (`Row.Inert`): they are steady, none of
them is the operator, and they do not begin with a literal. So a message
that goes on with an access folds up to the operator before it, and no
further (`FoldsTo.joined`).
-/

namespace Splice

open Folded JavaScript Relation Store

/-! ## Rows in which nothing merges -/

/-- A row of steady items without the operator, and its text. -/
structure Row.Inert (xs : List Value) (t : Text) : Prop where
  /-- No item is a single quote. -/
  steady : Steady xs
  /-- Nothing is joined. -/
  noPlus : .plus ∉ xs
  /-- The text of the row. -/
  text : Item.renderAll (fun _ => .ok []) xs = .ok t

namespace Row.Inert

variable {xs ys : List Value} {t u : Text}

theorem of_text (ht : t ≠ [.char '"']) (hplus : t ≠ Item.plusText) : Inert [.text t] t :=
  ⟨List.forall_mem_singleton.2 (.text ht), by simpa [Item.plus] using hplus.symm,
    Item.renderAll_singleton rfl⟩

theorem of_name (n : Name) : Inert [.name n] n.text :=
  ⟨List.forall_mem_singleton.2 (.name n), by simp [Item.plus], Item.renderAll_singleton rfl⟩

theorem append (hx : Inert xs t) (hy : Inert ys u) : Inert (xs ++ ys) (t ++ u) :=
  ⟨List.forall_mem_append.2 ⟨hx.steady, hy.steady⟩,
    fun hmem => (List.mem_append.1 hmem).elim hx.noPlus hy.noPlus,
    Item.renderAll_append_of_ok hx.text hy.text⟩

end Row.Inert

/-- The empty text is no operand of a merge. -/
theorem Item.not_right_nil {u : Text} : ¬ (.text [] : Value).Right u := nofun

/-- A folded row with an inert one joined to it is folded, unless the inert
row begins with something known. -/
theorem FoldsTo.joined {xs ys zs : List Value} {t : Text} (hxs : Steady xs) (hfold : FoldsTo xs ys)
    (hzs : Row.Inert zs t) (hfirst : ∀ x ∈ zs.head?, ∀ u, ¬ x.Right u) :
    FoldsTo (xs ++ .plus :: zs) (ys ++ .plus :: zs) := by
  intro print
  have hsteady : Steady (xs ++ .plus :: zs) := hxs.joined hzs.steady
  obtain ⟨hfailure, rfl⟩ := hfold print
  have hreach : ReflTransGen (Merges print) (xs ++ .plus :: zs)
      ((fold print xs).items ++ .plus :: zs) := by
    simpa using reaches_append (fold_reaches xs) hxs [] (.plus :: zs)
  refine ⟨fold_steady_failure? hsteady, fold_eq_of_reaches hsteady hreach fun ws hmerges => ?_⟩
  obtain ⟨-, -, b, r, -, u, -, rfl, -, -, hb⟩ := hmerges.at_joint (fold_steady hxs) hzs.steady
    (fold_quiet hfailure) (quiet_of_not_mem hzs.noPlus)
  exact hfirst b rfl u hb

/-- Folding does not change how often a name is there. -/
theorem FoldsTo.namesIn_eq {xs ys : List Value} (h : FoldsTo xs ys) : namesIn ys = namesIn xs :=
  funext h.mergesTo.count_name

/-- What folds to one text has no name in it. -/
theorem FoldsTo.namesIn_eq_zero {xs : List Value} {t : Text} (h : FoldsTo xs [.text t]) :
    namesIn xs = fun _ => 0 :=
  h.namesIn_eq.symm.trans (namesIn_of_forall_ne (by simp))

/-! ## Rows that are not empty -/

/-- A row of steady items is not empty if a text in it is more than quotes. -/
theorem View.not_isEmpty_of_steady {xs : List Value} {e : Bool} {t : Text} {c : CodePoint}
    (h : Steady xs) (hmem : .text t ∈ xs) (hc : c ∈ t) (hquote : c ≠ .char '"') :
    (⟨xs, e⟩ : View).isEmpty = .ok false := by
  obtain ⟨u, hu⟩ := h.exists_renderAll fun _ => .ok []
  obtain ⟨v, hv, hsubset⟩ := Item.mem_of_renderAll hu hmem
  cases hv
  have hblank : u.isBlank = false := by
    refine Bool.eq_false_iff.2 fun hblank => ?_
    rcases Text.isBlank_iff.1 hblank with rfl | rfl
    · exact absurd (hsubset c hc) List.not_mem_nil
    · exact hquote (by simpa using (show c ∈ [.char '"', .char '"'] from hsubset c hc))
  rw [View.isEmpty_of_text (x := ⟨xs, e⟩) hu, hblank]

/-! ## Fragments that are made -/

namespace Store

variable {s s' s'' : Store} {hand hand₁ hand₂ xs ys : List Value} {v w : Value} {e e' : Bool}
  {t : Text} {f : Name → Nat}

/-- If the value is an expression, its items are in a list that the older
store does not have: folding it leaves that store as it was. -/
def Recent (s s' : Store) (v : Value) : Prop :=
  s'.isExpression v = .ok true → ∀ q, s.Live q → s'.itemsOf v ≠ .ok (.object q)

theorem Recent.of_code (h : s'.isExpression v = .ok false) : s.Recent s' v :=
  fun he => nomatch h.symm.trans he

theorem Recent.of_scalar (c : Scalar) : s.Recent s' (.scalar c) := nofun

/-- A list is as it was in a store that has grown. -/
theorem Grows.get_list (h : s.Grows s') {q : Ref} (hq : s.get q = .list xs) :
    s'.get q = .list xs := h.get hq nofun

/-- What an expression is, it still is in a store that has grown. -/
theorem Grows.isExpression (h : s.Grows s') (hv : s.isExpression v = .ok e) :
    s'.isExpression v = .ok e := by
  unfold Store.isExpression at hv ⊢
  split at hv
  · exact hv
  · split at hv
    case _ hr =>
      rw [h.get hr nofun]
      exact hv
    · cases hv
  · cases hv

/-- A call has answered a fragment of these items, in a store that has only
grown and is sound. -/
structure Made (s s' : Store) (hand : List Value) (v : Value) (xs : List Value) (e : Bool) :
    Prop where
  /-- The items of the fragment. -/
  holds : s'.Holds v xs e
  /-- The new store is sound, and the fragment is at hand. -/
  sound : s'.Sound (v :: hand)
  /-- Every object is as it was. -/
  grows : s.Grows s'
  /-- No list has become that of a fragment. -/
  develops : s.Develops s'
  /-- The items of an expression are in a new list. -/
  recent : s.Recent s' v

/-- A call has put code together, in a store that has only grown and is
sound. The code has this text, and these uses. -/
structure Puts (s s' : Store) (hand : List Value) (v : Value) (t : Text) (f : Name → Nat) :
    Prop where
  /-- The new store is sound. -/
  sound : s'.Sound hand
  /-- Every object is as it was. -/
  grows : s.Grows s'
  /-- No list has become that of a fragment. -/
  develops : s.Develops s'
  /-- What is put together is no string expression. -/
  isCode : s'.isExpression v = .ok false
  /-- The text and the uses. -/
  putsIn : s'.PutsIn v t f

/-- What is made after something else. -/
theorem Made.after (h₁ : s.Made s' hand₁ v xs e) (h : s.Sound hand)
    (h₂ : s'.Made s'' hand₂ w ys e') : s.Made s'' hand₂ w ys e' :=
  ⟨h₂.holds, h₂.sound, h₁.grows.trans h₂.grows, h.develops_trans h₁.develops h₂.develops,
    fun he q hq => h₂.recent he q (h₁.grows q hq).1⟩

/-- What is put together after something else. -/
theorem Puts.after (hv : s'.Puts s'' hand₁ v t f) (h : s.Sound hand) (hgrows : s.Grows s')
    (hdevelops : s.Develops s') : s.Puts s'' hand₁ v t f :=
  ⟨hv.sound, hgrows.trans hv.grows, h.develops_trans hdevelops hv.develops, hv.isCode, hv.putsIn⟩

/-- A fragment puts what it adds into code. -/
theorem Holds.putsIn (h : s.Holds v xs e) (hadds : Adds e xs ys)
    (ht : Item.renderAll (fun _ => .ok []) ys = .ok t) : s.PutsIn v t (namesIn xs) := by
  obtain ⟨hr, hq, -⟩ := h
  exact .fragment hr hq hadds ht

end Store

namespace Build

variable {σ : Session} {hand args : List Value} {t : Text} {rest : List (List Value × Text)}

/-- Code of arguments that splice blocks is made. -/
theorem code_made (h : σ.store.Sound hand)
    (hargs : List.Forall₂ (fun arg p => σ.store.Splices arg p.1) args rest) :
    ∃ v τ, code (.ofTexts (t :: rest.map Prod.snd)) args σ = .ok v τ ∧
      σ.store.Made τ.store hand v (Row.spliced t rest) false := by
  have hsegments : (Segments.ofTexts (t :: rest.map Prod.snd)).Are σ.store
      (t :: rest.map Prod.snd) := rfl
  obtain ⟨v, τ, hrun, hholds, hgrows, -⟩ := code_of_splices hsegments hargs
  obtain ⟨s, hw, hy⟩ := (runs_code h (Call.areGiven_ofTexts _ _)).ok hrun
  have hmiddle : s.Sound hand :=
    h.rewrites (hw.imp FoldsTo.mergesTo) fun _ => ExpressionItems.isItems
  exact ⟨v, τ, hrun, hholds, hmiddle.yields hy, hgrows,
    h.develops_trans (h.develops_of_rewrites hw) hy.develops, .of_code hholds.isExpression⟩

/-- The items of an assembly are put in a new list. -/
theorem itemsOf_assemble {a : Assembly} {e : Bool} {v : Value} {τ : Session}
    (h : assemble a e σ = .ok v τ) : τ.store.itemsOf v = .ok (.object σ.store.next) := by
  let s₁ := σ.store.push (.list a.items.toList)
  let s₂ := s₁.push (.dict a.used)
  let o : Object := .fragment (.object σ.store.next) (.object s₁.next) e
  have hrun : assemble a e σ = .ok (.object s₂.next) ⟨s₂.push o, σ.log⟩ := by
    rw [assemble, bind_of_ok (alloc_apply _), bind_of_ok (alloc_apply _)]
    rfl
  cases h.symm.trans hrun
  exact itemsOf_eq_ok.2 ⟨s₂.next, _, _, rfl, get_push_next⟩

/-- An expression of arguments that contribute blocks is made. -/
theorem expression_made (h : σ.store.Sound hand) (hargs : σ.store.Blocks args rest) :
    ∃ v τ, expression (.ofTexts (t :: rest.map Prod.snd)) args σ = .ok v τ ∧
      σ.store.Made τ.store hand v
        (Row.laid Item.plus segmentItem (Row.head segmentItem t) rest) true := by
  have hsegments : (Segments.ofTexts (t :: rest.map Prod.snd)).Are σ.store
      (t :: rest.map Prod.snd) := rfl
  obtain ⟨v, τ, hrun, hholds, hgrows, -⟩ := expression_of_contributes hsegments hargs
  have hy := (runs_expression h (Call.areGiven_ofTexts _ _)).ok hrun
  refine ⟨v, τ, hrun, hholds, h.yields hy, hgrows, hy.develops, fun _ q hq hitems => ?_⟩
  obtain ⟨b, hb, -⟩ := expressionArguments_of_contributes
    (a := ⟨(Row.head segmentItem t).toArray, []⟩) (Segments.readFrom_of_are hsegments) hargs
    Usage.isWhole_nil
  rw [expression_bind hsegments (by simpa using hargs.length_eq), bind_of_ok hb] at hrun
  cases (itemsOf_assemble hrun).symm.trans hitems
  exact Nat.lt_irrefl _ hq

/-- Without empty operands, a concatenation is the expression of both. -/
theorem concat_made {a b : Value} {xs ys : List Value} {e e' : Bool} (h : σ.store.Sound hand)
    (ha : σ.store.Holds a xs e) (hb : σ.store.Holds b ys e')
    (hx : (⟨xs, e⟩ : View).isEmpty = .ok false) (hy : (⟨ys, e'⟩ : View).isEmpty = .ok false) :
    ∃ v τ, concat a b σ = .ok v τ ∧
      σ.store.Made τ.store hand v (xs ++ .plus :: ys) true := by
  have hblocks : σ.store.Blocks [a, b] [(xs, []), (ys, [])] :=
    .cons (.fragment ha) (.cons (.fragment hb) .nil)
  obtain ⟨v, τ, hrun, hmade⟩ := expression_made (t := []) h hblocks
  have hitems : Row.laid Item.plus segmentItem (Row.head segmentItem []) [(xs, []), (ys, [])] =
      xs ++ .plus :: ys := by
    have hne : xs ≠ [] := View.items_ne_nil hx
    simp [Row.laid, Row.head, Row.join, Row.segment, hne]
  rw [hitems] at hmade
  have hempty : σ.store.isEmpty a = .ok false := (h.shows_of_holds ha).isEmpty.trans hx
  refine ⟨v, τ, ?_, hmade⟩
  rw [concat_of_right ((h.shows_of_holds hb).isEmpty.trans hy),
    bind_of_ok (read_of_ok (f := fun s => s.isEmpty a) hempty)]
  exact hrun

/-- **Code is put together** of what its arguments put in. If the
expressions among them are new, every older object is as it was. -/
theorem code_puts {s : Store} {hand' : List Value} {pieces : List (Text × (Name → Nat) × Text)}
    (h : s.Sound hand) (hgrows : s.Grows σ.store) (hdevelops : s.Develops σ.store)
    (h' : σ.store.Sound hand')
    (hargs : List.Forall₂ (fun v p => σ.store.PutsIn v p.1 p.2.1) args pieces)
    (hrecent : ∀ v ∈ args, s.Recent σ.store v) :
    ∃ v τ, code (.ofTexts (t :: pieces.map fun p => p.2.2)) args σ = .ok v τ ∧
      s.Puts τ.store (v :: hand') v (t ++ pieces.flatMap fun p => p.1 ++ p.2.2)
        fun n => (pieces.map fun p => p.2.1 n).sum := by
  obtain ⟨v, τ, hrun, hsound, hdevelops', he, hputs⟩ := code_of_putsIn t h' hargs
  obtain ⟨s', hw, hy⟩ := (runs_code h' (Call.areGiven_ofTexts _ _)).ok hrun
  refine ⟨v, τ, hrun, hsound, fun q hq => ?_, h.develops_trans hdevelops hdevelops', he, hputs⟩
  obtain ⟨hlive, hget⟩ := hgrows q hq
  obtain ⟨hlive', hget'⟩ := hy.grows q (hw.live.2 hlive)
  have hkept : ¬ σ.store.ExpressionItems args q := by
    rintro ⟨v, hv, he, hitems⟩
    exact hrecent v hv he q hq hitems
  exact ⟨hlive', by rw [hget', hw.kept hkept, hget]⟩

end Build

/-! ## The access to a property -/

/-- The items of an access. -/
def JavaScript.Access.items : Access → List Value
  | dot n => [.text (.char '.' :: n.text)]
  | bracket t => [.text "[", .text t, .text "]"]

/-- The items of an access behind a name. -/
def Row.member (d : Name) (a : Access) : List Value :=
  [.text [], .name d, .text []] ++ a.items ++ [.text []]

theorem Row.inert_access (k : Text) : Row.Inert (Access.ofKey k).items (Access.ofKey k).text := by
  cases hk : k.isIdentifier with
  | true =>
    rw [Access.ofKey_of_isIdentifier hk]
    exact .of_text (by simp) (by simp [Item.plusText])
  | false =>
    rw [Access.ofKey_of_not_isIdentifier hk]
    have hliteral : Row.Inert [.text k.literal] k.literal := by
      rw [k.literal_eq_enclosed]
      exact .of_text (by simp [Text.enclosed]) (by simp [Text.enclosed, Item.plusText])
    exact ((Row.Inert.of_text (t := "[") (by decide) (by decide)).append hliteral).append
      (Row.Inert.of_text (t := "]") (by decide) (by decide))

theorem Row.inert_member (d : Name) (k : Text) :
    Row.Inert (Row.member d (Access.ofKey k)) (d.text ++ (Access.ofKey k).text) := by
  have hblank : Row.Inert [.text []] [] := .of_text (by decide) (by decide)
  have hfront := (hblank.append (.of_name d)).append hblank
  simpa [Row.member] using (hfront.append (Row.inert_access k)).append hblank

/-- An access has no name in it: the key is text. -/
theorem Row.namesIn_access (a : Access) : namesIn a.items = fun _ => 0 :=
  namesIn_of_forall_ne (by cases a <;> simp [Access.items])

/-- The only name there is that of the object. -/
theorem Row.namesIn_member (d : Name) (a : Access) :
    namesIn (Row.member d a) = namesIn [.name d] := by
  have hblank : namesIn [.text []] = fun _ => 0 := namesIn_of_forall_ne (by simp)
  have hfront : ([.text [], .name d, .text []] : List Value) =
      [.text []] ++ [.name d] ++ [.text []] := rfl
  rw [Row.member, hfront]
  simp only [namesIn_append, namesIn_access, hblank, Nat.add_zero, Nat.zero_add]

namespace Build

variable {σ : Session} {hand : List Value}

/-- **The access to a key** is made of its items. -/
theorem property_made (h : σ.store.Sound hand) (k : Text) :
    ∃ v τ, property (.text k) σ = .ok v τ ∧
      σ.store.Made τ.store hand v (Access.ofKey k).items false := by
  cases hk : k.isIdentifier with
  | true =>
    let s : Store := σ.store.push (.list [.text (.char '.' :: k)])
    have hlist : s.get σ.store.next = .list [.text (.char '.' :: k)] := get_push_next
    have hy : σ.store.Yields hand (.object s.next)
        (s.push (.fragment (.object σ.store.next) (.scalar .null) false)) := .text _
    have hholds : (s.push (.fragment (.object σ.store.next) (.scalar .null) false)).Holds
        (.object s.next) [.text (.char '.' :: k)] false :=
      .fragment get_push_next ((s.grows_push _).get hlist nofun) .none
    refine ⟨.object s.next, ⟨_, σ.log⟩, ?_, ?_, h.yields hy, hy.grows, hy.develops,
      .of_code hholds.isExpression⟩
    · rw [property, hk]
      rfl
    · rw [Access.ofKey_of_isIdentifier hk]
      exact hholds
  | false =>
    let blocks : List (List Value × Text) := [([segmentItem k], "]")]
    have hargs : List.Forall₂ (fun arg p => σ.store.Splices arg p.1) [.text k] blocks :=
      .cons (σ.store.splices_text k) .nil
    obtain ⟨v, τ, hrun, hmade⟩ := code_made (t := "[") h hargs
    refine ⟨v, τ, ?_, ?_⟩
    · rw [property, hk]
      exact hrun
    · rw [Access.ofKey_of_not_isIdentifier hk]
      exact hmade

/-- **The access to a key behind a name** is made of the items of both. -/
theorem member_made (h : σ.store.Sound hand) (d : Name) (k : Text) :
    ∃ v τ hand', member (.name d) k σ = .ok v τ ∧
      σ.store.Made τ.store hand' v (Row.member d (Access.ofKey k)) false := by
  obtain ⟨access, τ, haccess, hmade⟩ := property_made h k
  let blocks : List (List Value × Text) := [([.name d], []), ((Access.ofKey k).items, [])]
  have hargs : List.Forall₂ (fun arg p => τ.store.Splices arg p.1) [.name d, access] blocks :=
    .cons (.name d) (.cons (.fragment hmade.holds) .nil)
  obtain ⟨v, υ, hrun, hmade'⟩ := code_made (t := []) hmade.sound hargs
  have hitems : Row.spliced [] blocks = Row.member d (Access.ofKey k) := by
    simp [blocks, Row.spliced, Row.member]
  rw [hitems] at hmade'
  refine ⟨v, υ, access :: hand, ?_, hmade.after h hmade'⟩
  rw [member, bind_of_ok haccess]
  exact hrun

end Build

/-! ## Constant messages -/

namespace Row.Quotes

/-- The literal of a text. -/
theorem literal (t : Text) : Quotes [segmentItem t] t := by
  refine singleton ?_
  rw [segmentItem, t.literal_eq_enclosed]
  exact .quoted _

/-- A number. -/
theorem int {n : Int} (hn : isPrintableInt n = true) :
    Quotes [.scalar (.int n)] (Text.ofInt n) := by
  have hrender := Scalar.render_int hn
  refine singleton ?_
  rw [(Scalar.plain_render hrender).content]
  exact .scalar hrender

/-- Known operands fold to one literal if the first one is a literal. -/
theorem foldsTo {ops : List Value} {t u : Text} (h : Quotes (segmentItem u :: ops) t) :
    Steady ((segmentItem u :: ops).intersperse .plus) ∧
      FoldsTo ((segmentItem u :: ops).intersperse .plus) [.text t.literal] := by
  obtain ⟨ts, hts, -⟩ := id h
  refine ⟨steady_intersperse (steady_of_inner hts), h.fold_eq ⟨_, List.mem_cons_self, ?_⟩⟩
  exact ⟨u.content, by rw [segmentItem, u.literal_eq_enclosed]⟩

end Row.Quotes

end Splice
