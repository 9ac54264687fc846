import Splice.Proofs.Expression
import Splice.Proofs.History.Sound
import Splice.Proofs.Outcome
/-!
# Histories — what the operations do to a sound store

Building an expression reads the store and adds a fragment to it
(`Build.runs_expression`). Building code folds the expressions among the
arguments first (`Build.runs_code`), each just before its items are taken,
so when a later argument fails, those before it have been folded already
(`Build.runs_codeArguments`). In both, the items of the fragment in the
making and its counts grow side by side (`Assembly.IsTallied`).
-/

namespace Splice

open Store

/-! ## The assembly -/

/-- The items so far are bare, and the names among them are counted. -/
structure Assembly.IsTallied (a : Assembly) : Prop where
  bare : ∀ x ∈ a.items.toList, x.IsBare
  tallies : a.used.Tallies (namesIn a.items.toList)

namespace Assembly.IsTallied

variable {a : Assembly} {xs : List Value} {used : Usage}

theorem append (ha : a.IsTallied) (hxs : ∀ x ∈ xs, x.IsBare)
    (hused : used.Tallies fun n => namesIn a.items.toList n + namesIn xs n) :
    (a.append xs used).IsTallied := by
  have hitems : (a.append xs used).items.toList = a.items.toList ++ xs := by
    simp [Assembly.append]
  constructor
  · rw [hitems]
    exact List.forall_mem_append.2 ⟨ha.bare, hxs⟩
  · rw [hitems, namesIn_append]
    exact hused

/-- An item that is no name is not counted. -/
theorem push (ha : a.IsTallied) {v : Value} (hv : v.IsBare) (hname : ∀ n, v ≠ .name n) :
    (a.push v).IsTallied := by
  have hitems : (a.push v).items.toList = a.items.toList ++ [v] := by simp [Assembly.push]
  have hnone : namesIn [v] = fun _ => 0 :=
    namesIn_of_forall_ne (List.forall_mem_singleton.2 hname)
  constructor
  · rw [hitems]
    exact List.forall_mem_append.2 ⟨ha.bare, List.forall_mem_singleton.2 hv⟩
  · rw [hitems, namesIn_append, hnone]
    exact ha.tallies

theorem push_text (ha : a.IsTallied) (t : Text) : (a.push (.text t)).IsTallied :=
  ha.push (Item.isBare_text t) nofun

theorem join (ha : a.IsTallied) : a.join.IsTallied := by
  unfold Assembly.join
  split
  · exact ha
  · exact ha.push_text _

/-- An assembly of texts, with nothing counted. -/
theorem of_texts (ts : List Text) : (⟨(ts.map Item.text).toArray, []⟩ : Assembly).IsTallied := by
  have hnone : namesIn (ts.map Item.text) = fun _ => 0 := namesIn_of_forall_ne (by simp)
  constructor
  · simp [Item.isBare_text]
  · rw [List.toList_toArray, hnone]
    exact .nil

end Assembly.IsTallied

/-! ## What is known of an argument -/

/-- The list of items of a string expression among the arguments. -/
def Store.ExpressionItems (s : Store) (args : List Value) (q : Ref) : Prop :=
  ∃ v ∈ args, s.isExpression v = .ok true ∧ s.itemsOf v = .ok (.object q)

/-- The segments are texts, in a row or in an object at hand. -/
def Segments.AreGiven (s : Store) (hand : List Value) (segments : Segments) : Prop :=
  (∃ ts, segments.Are s ts) ∧ ∀ r, segments = .held r → .object r ∈ hand

namespace Store

variable {s s' : Store} {hand args : List Value} {v : Value} {q : Ref}

/-- Only fragments have items. -/
theorem itemsOf_eq_ok {items : Value} : s.itemsOf v = .ok items ↔
    ∃ r used e, v = .object r ∧ s.get r = .fragment items used e := by
  constructor
  · intro h
    unfold itemsOf at h
    split at h
    · split at h
      · cases h
        exact ⟨_, _, _, rfl, ‹_›⟩
      · cases h
    · cases h
  · rintro ⟨r, used, e, rfl, hr⟩
    simp [itemsOf, hr]

theorem isItems_of_itemsOf (h : s.itemsOf v = .ok (.object q)) : s.IsItems q := by
  obtain ⟨r, used, e, -, hr⟩ := itemsOf_eq_ok.1 h
  exact ⟨r, used, e, hr⟩

theorem ExpressionItems.isItems (h : s.ExpressionItems args q) : s.IsItems q := by
  obtain ⟨v, -, -, hq⟩ := h
  exact isItems_of_itemsOf hq

theorem expressionItems_cons {arg : Value} : s.ExpressionItems (arg :: args) q ↔
    s.ExpressionItems [arg] q ∨ s.ExpressionItems args q := by
  simp [ExpressionItems]

/-- Whether a value is a string expression, and which list it has, are
matters of the fragments alone. -/
theorem expressionItems_congr
    (h : ∀ r items used e, s'.get r = .fragment items used e ↔ s.get r = .fragment items used e) :
    s'.ExpressionItems args q ↔ s.ExpressionItems args q := by
  have hstep : ∀ {s s' : Store}, (∀ r items used e, s.get r = .fragment items used e →
      s'.get r = .fragment items used e) → s.ExpressionItems args q →
      s'.ExpressionItems args q := by
    rintro s s' hkept ⟨v, hv, he, hq⟩
    obtain ⟨r, used, e, rfl, hr⟩ := itemsOf_eq_ok.1 hq
    have hr' := hkept _ _ _ _ hr
    refine ⟨_, hv, ?_, itemsOf_eq_ok.2 ⟨r, used, e, rfl, hr'⟩⟩
    simpa [isExpression, hr, hr'] using he
  exact ⟨hstep fun r items used e => (h r items used e).1,
    hstep fun r items used e => (h r items used e).2⟩

theorem expressionItems_singleton :
    s.ExpressionItems [v] q ↔ s.isExpression v = .ok true ∧ s.itemsOf v = .ok (.object q) := by
  simp [ExpressionItems]

/-- **A code value in a sound store** can be counted and pushed, and what
is counted are the names in what is pushed. -/
theorem Sound.code {σ : Session} (h : σ.store.Sound hand) (hv : σ.store.isCode v = true) :
    ∃ xs uses, σ.store.usesOf v = .ok uses ∧ uses.Tallies (namesIn xs) ∧
      (∀ x ∈ xs, x.IsBare) ∧ Build.pushed v σ = .ok xs σ := by
  rcases h.name_or_holds hv with ⟨n, rfl⟩ | ⟨xs, e, hholds⟩
  · exact ⟨[.name n], _, rfl, Usage.tallies_name n,
      List.forall_mem_singleton.2 (Item.isBare_name n), rfl⟩
  · have hpushed : Build.pushed v σ = .ok xs σ := hholds.pushed
    obtain @⟨r, q, used, _, _, hr, hq, -⟩ := hholds
    obtain ⟨_, _, hitems, hq', hbare, hused⟩ := h.fragment hr
    cases hitems
    cases hq.symm.trans hq'
    obtain ⟨uses, huses, -, htallies⟩ := hused.countsIn
    exact ⟨xs, uses, by simp [usesOf, hr, huses], htallies, hbare, hpushed⟩

/-- Pushed after a fold, a code value gives what its items are merged into. -/
theorem Sound.pushed_rewrites {σ τ : Session} {L : Ref → Prop} {xs : List Value}
    (h : σ.store.Sound hand) (hw : Rewrites MergesTo L σ.store τ.store)
    (hL : ∀ q, L q → σ.store.IsItems q) (hv : σ.store.isCode v = true)
    (hpushed : Build.pushed v σ = .ok xs σ) :
    ∃ ys, MergesTo xs ys ∧ Build.pushed v τ = .ok ys τ := by
  rcases h.name_or_holds hv with ⟨n, rfl⟩ | ⟨zs, e, hholds⟩
  · cases hpushed
    exact ⟨_, .refl _, rfl⟩
  · cases hholds.pushed.symm.trans hpushed
    obtain ⟨hr, hq, -⟩ := hholds
    obtain ⟨ys, hys, hmerges⟩ := hw.get_list hq
    exact ⟨ys, hmerges, Build.pushed_of_get ((h.get_fragment hw hL).2 hr) hys⟩

end Store

namespace Segments

variable {s s' : Store} {hand : List Value} {L : Ref → Prop} {segments : Segments}

/-- Segments stay what they are while lists of items are merged. -/
theorem Are.rewrites {ts : List Text} (hts : segments.Are s ts)
    (hheld : ∀ r, segments = .held r → .object r ∈ hand) (h : s.Sound hand)
    (hw : Rewrites MergesTo L s s') (hL : ∀ q, L q → s.IsItems q) : segments.Are s' ts := by
  cases segments with
  | fixed items => exact hts
  | held r =>
    rw [Are, h.get_hand hw hL (hheld r rfl)]
    exact hts

theorem AreGiven.rewrites (hs : segments.AreGiven s hand) (h : s.Sound hand)
    (hw : Rewrites MergesTo L s s') (hL : ∀ q, L q → s.IsItems q) : segments.AreGiven s' hand := by
  obtain ⟨⟨ts, hts⟩, hheld⟩ := hs
  exact ⟨⟨ts, hts.rewrites hheld h hw hL⟩, hheld⟩

end Segments

namespace Build

variable {σ : Session} {hand args : List Value} {segments : Segments} {a : Assembly} {v arg : Value}

/-! ## Steps that read -/

theorem reads_segment (hs : segments.AreGiven σ.store hand) (i : Nat) :
    Reads (segments.get i) σ fun v => ∃ t, v = .text t := by
  obtain ⟨⟨ts, hts⟩, -⟩ := hs
  cases segments with
  | fixed items =>
    cases hts
    rw [Segments.get]
    exact reads_read fun v hv => (mem_of_elementAt hv).imp fun _ ht => ht.2
  | held r =>
    rw [Segments.get]
    refine reads_read fun v hv => ?_
    have hat : elementAt (ts.map .text) i = .ok v := by
      rcases hts with hts | hts <;> simpa only [hts] using hv
    exact (mem_of_elementAt hat).imp fun _ ht => ht.2

theorem reads_size (segments : Segments) : Reads segments.size σ fun _ => True := by
  cases segments with
  | fixed items => exact .pure trivial
  | held r =>
    rw [Segments.size]
    exact reads_read fun _ _ => trivial

theorem reads_checkArity (segments : Segments) (args : List Value) :
    Reads (checkArity segments args) σ fun _ => True := by
  refine (reads_size segments).trans fun n _ => ?_
  split
  · exact .pure trivial
  · exact reads_throw _

/-- An argument goes in as itself, or as its literal if it is data. -/
theorem reads_argument (v : Value) :
    Reads (argument v) σ fun w => w = v ∧ σ.store.goesInBare v = true ∨
      σ.store.goesInBare v = false ∧ ∃ t, w = .text t ∧ (σ.store.datum v).encode = .ok t := by
  refine (reads_ask _).trans fun b hb => ?_
  split
  · exact .pure (.inl ⟨rfl, hb ▸ ‹_›⟩)
  · exact (reads_literal v).trans fun t ht =>
      .pure (.inr ⟨hb ▸ Bool.eq_false_iff.2 ‹_›, t, rfl, ht⟩)

theorem reads_operand (v : Value) :
    Reads (operand v) σ fun w => w = v ∧ σ.store.goesInBare v = true ∨ ∃ t, w = .text t := by
  refine (reads_ask _).trans fun b hb => ?_
  split
  · refine (reads_read (P := fun _ => True) fun _ _ => trivial).trans fun t _ => ?_
    refine (reads_argument (.text t)).imp fun w hw => .inr ?_
    rcases hw with ⟨rfl, -⟩ | ⟨-, u, hw, -⟩
    · exact ⟨t, rfl⟩
    · exact ⟨u, hw⟩
  · refine (reads_argument v).imp fun w hw => hw.imp_right ?_
    rintro ⟨-, t, hw, -⟩
    exact ⟨t, hw⟩

/-- What goes in without being code is a scalar or a text. -/
theorem isTallied_push {w : Value} (ha : a.IsTallied) (hcode : σ.store.isCode w = false)
    (hw : w = v ∧ σ.store.goesInBare v = true ∨ ∃ t, w = .text t) : (a.push w).IsTallied := by
  rcases hw with ⟨rfl, hbare⟩ | ⟨t, rfl⟩
  · unfold goesInBare at hbare
    split at hbare
    · exact ha.push (Item.isBare_scalar _) nofun
    · exact absurd (hcode.symm.trans hbare) nofun
  · exact ha.push_text t

/-- A code value spliced into an expression. -/
theorem reads_spliceOperand (h : σ.store.Sound hand) (hv : σ.store.isCode v = true)
    (ha : a.IsTallied) : Reads (spliceOperand a v) σ Assembly.IsTallied := by
  obtain ⟨xs, uses, huses, htallies, hbare, hpushed⟩ := h.code hv
  obtain ⟨used, hused, hsum⟩ := addUses_of_tallies huses htallies ha.tallies
  refine reads_of_ok ?_ (ha.append hbare hsum)
  rw [spliceOperand, bind_of_ok hused, bind_of_ok hpushed]
  rfl

theorem reads_addOperand (h : σ.store.Sound hand) (ha : a.IsTallied) (arg : Value) :
    Reads (addOperand a arg) σ Assembly.IsTallied := by
  refine (reads_operand arg).trans fun w hw => (reads_ask _).trans fun b hb => ?_
  split
  · exact reads_spliceOperand h (hb ▸ ‹_›) ha
  · exact .pure (isTallied_push ha (hb ▸ Bool.eq_false_iff.2 ‹_›) hw)

theorem reads_segmentLiteral (v : Value) : Reads (segmentLiteral v) σ fun _ => True := by
  refine (reads_ask _).trans fun b _ => ?_
  split
  · exact (reads_literal v).trans fun t _ => .pure trivial
  · exact .pure trivial

theorem reads_addSegment (ha : a.IsTallied) (segment : Value) :
    Reads (addSegment a segment) σ Assembly.IsTallied := by
  refine (reads_segmentLiteral segment).trans fun t? _ => ?_
  split
  · exact .pure ((ha.push_text _).push_text _)
  · exact .pure ha

/-- **The arguments of an expression** are taken over, and no object changes. -/
theorem reads_expressionArguments (h : σ.store.Sound hand) (hs : segments.AreGiven σ.store hand)
    (ha : a.IsTallied) (i : Nat) :
    Reads (expressionArguments segments i args a) σ Assembly.IsTallied := by
  induction args generalizing i a with
  | nil => exact .pure ha
  | cons arg args ih =>
    refine (reads_addOperand h ha.join arg).trans fun b hb => ?_
    refine (reads_segment hs i).trans fun segment _ => ?_
    exact (reads_addSegment hb segment).trans fun c hc => ih hc (i + 1)

/-! ## Steps that change the store -/

/-- The fragment of an assembly is new. -/
theorem runs_assemble {E : Store → Prop} (ha : a.IsTallied) (e : Bool) :
    Runs (assemble a e) σ (fun v τ => σ.store.Yields hand v τ.store) E := by
  have hy : σ.store.Yields hand _ _ := .assembled e ha.bare ha.tallies
  refine .of_ok (τ := ⟨_, σ.log⟩) ?_ hy
  rw [assemble, bind_of_ok (alloc_apply _), bind_of_ok (alloc_apply _)]
  rfl

/-- **An expression is a new fragment**, and no object changes. -/
theorem runs_expression (h : σ.store.Sound hand) (hs : segments.AreGiven σ.store hand) :
    Runs (expression segments args) σ (fun v τ => σ.store.Yields hand v τ.store)
      fun s => s = σ.store := by
  refine (reads_checkArity segments args).bind rfl fun _ _ => ?_
  refine (reads_segment hs 0).bind rfl fun segment _ => ?_
  refine (reads_segmentLiteral segment).bind rfl fun first _ => ?_
  have ha : (⟨(first.map Item.text).toArray, []⟩ : Assembly).IsTallied := by
    cases first with
    | none => exact .of_texts []
    | some t => exact .of_texts [t]
  exact (reads_expressionArguments h hs ha 1).bind rfl fun b hb => runs_assemble hb true

/-- **A fold** rewrites the list of the fragment it is given, and no other
object. -/
theorem runs_foldCode (h : σ.store.Sound hand) (v : Value) :
    Runs (foldCode v) σ
      (fun w τ => w = v ∧
        Rewrites FoldsTo (fun q => σ.store.itemsOf v = .ok (.object q)) σ.store τ.store)
      (Rewrites MergesTo (fun q => σ.store.itemsOf v = .ok (.object q)) σ.store) := by
  cases hitems : σ.store.itemsOf v with
  | ok items =>
    obtain ⟨r, used, e, rfl, hr⟩ := itemsOf_eq_ok.1 hitems
    obtain ⟨q, xs, rfl, hq, hbare, -⟩ := h.fragment hr
    have hL : ∀ p, (Except.ok (.object q) : Except Failure Value) = .ok (.object p) ↔ p = q := by
      simp [eq_comm]
    cases hfold : (fold (σ.store.printWhile q) xs).failure? with
    | none =>
      obtain ⟨log, hrun⟩ := foldCode_of_fold hr hq hfold
      exact .of_ok hrun ⟨rfl, .of_set hq (foldsTo_fold hbare hfold) hL⟩
    | some f =>
      exact .of_error (foldCode_of_failure hr hq hfold) (.of_set hq (mergesTo_fold hbare) hL)
  | error f =>
    -- What has no items is a name, which is left as it is, or no code value.
    have hw : ∀ {K}, Rewrites K (fun q => (.error f : Except Failure Value) = .ok (.object q))
        σ.store σ.store := .of_none nofun
    by_cases hname : ∃ n, v = .name n
    · obtain ⟨n, rfl⟩ := hname
      exact .of_ok (τ := σ) rfl ⟨rfl, hw⟩
    · have hrun : foldCode v σ = .error f σ := by
        cases v with
        | name n => exact absurd ⟨n, rfl⟩ hname
        | _ =>
          simp only [foldCode]
          exact bind_of_error (read_of_error hitems)
      exact .of_error hrun hw

/-- **A code value spliced into code** is folded before its items are
taken, if it is an expression. Its names are counted before. -/
theorem runs_spliceCode (h : σ.store.Sound hand) (hv : σ.store.isCode v = true)
    (ha : a.IsTallied) :
    Runs (spliceCode a v) σ
      (fun b τ => b.IsTallied ∧ Rewrites FoldsTo (σ.store.ExpressionItems [v]) σ.store τ.store)
      (Rewrites MergesTo (σ.store.ExpressionItems [v]) σ.store) := by
  obtain ⟨xs, uses, huses, htallies, hbare, hpushed⟩ := h.code hv
  obtain ⟨used, hused, hsum⟩ := addUses_of_tallies huses htallies ha.tallies
  have hlists : ∀ q, σ.store.itemsOf v = .ok (.object q) → σ.store.IsItems q :=
    fun q => isItems_of_itemsOf
  refine (reads_of_ok (P := fun m => m = used) hused rfl).bind .refl ?_
  rintro used rfl
  refine (reads_read fun e he => he).bind .refl fun e he => ?_
  cases e with
  | true =>
    have hsame : ∀ q, σ.store.itemsOf v = .ok (.object q) ↔ σ.store.ExpressionItems [v] q :=
      fun q => by rw [expressionItems_singleton, and_iff_right he]
    have hfold : Runs (foldCode v) σ
        (fun _ τ => Rewrites FoldsTo (σ.store.ExpressionItems [v]) σ.store τ.store)
        (Rewrites MergesTo (σ.store.ExpressionItems [v]) σ.store) :=
      (runs_foldCode h v).imp (fun _ _ hw => hw.2.congr hsame) fun _ hw => hw.congr hsame
    refine hfold.bind fun _ τ hw => ?_
    -- What is pushed now has been merged, but the names in it are the same.
    obtain ⟨ys, hys, hpushed'⟩ := h.pushed_rewrites (hw.imp FoldsTo.mergesTo)
      (fun q => ExpressionItems.isItems) hv hpushed
    have hnames : namesIn ys = namesIn xs := funext hys.count_name
    refine .of_ok (τ := τ) (bind_of_ok hpushed') ⟨ha.append (hys.isBare hbare) ?_, hw⟩
    rwa [hnames]
  | false =>
    have hnone : ∀ q, ¬ σ.store.ExpressionItems [v] q := by
      intro q hq
      cases (expressionItems_singleton.1 hq).1.symm.trans he
    exact .of_ok (τ := σ) (bind_of_ok hpushed) ⟨ha.append hbare hsum, .of_none hnone⟩

/-- What says whether it is an expression is code. -/
theorem isCode_of_isExpression {s : Store} {e : Bool} (h : s.isExpression v = .ok e) :
    s.isCode v = true := by
  unfold isExpression at h
  split at h
  · rfl
  · split at h
    · simp [isCode, *]
    · cases h
  · cases h

theorem runs_addArgument (h : σ.store.Sound hand) (ha : a.IsTallied) (arg : Value) :
    Runs (addArgument a arg) σ
      (fun b τ => b.IsTallied ∧ Rewrites FoldsTo (σ.store.ExpressionItems [arg]) σ.store τ.store)
      (Rewrites MergesTo (σ.store.ExpressionItems [arg]) σ.store) := by
  refine (reads_argument arg).bind .refl fun w hw => (reads_ask _).bind .refl fun b hb => ?_
  split
  · have hcode : σ.store.isCode w = true := hb ▸ ‹_›
    rcases hw with ⟨rfl, -⟩ | ⟨-, t, rfl, -⟩
    · exact runs_spliceCode h hcode ha
    · cases hcode
  · have hcode : σ.store.isCode w = false := hb ▸ Bool.eq_false_iff.2 ‹_›
    have hnone : ∀ q, ¬ σ.store.ExpressionItems [arg] q := by
      intro q hq
      have harg : σ.store.isCode arg = true :=
        isCode_of_isExpression (expressionItems_singleton.1 hq).1
      rcases hw with ⟨rfl, -⟩ | ⟨hdata, -⟩
      · exact absurd (hcode.symm.trans harg) nofun
      · rw [Store.goesInBare_of_isCode harg] at hdata
        cases hdata
    have hitem : w = arg ∧ σ.store.goesInBare arg = true ∨ ∃ t, w = .text t :=
      hw.imp_right fun hdata => hdata.2.imp fun _ => And.left
    exact .pure ⟨isTallied_push ha hcode hitem, .of_none hnone⟩

/-- **The arguments of code**, one after the other. Each expression among
them is folded, until one argument fails. -/
theorem runs_codeArguments (h : σ.store.Sound hand) (hs : segments.AreGiven σ.store hand)
    (ha : a.IsTallied) (i : Nat) :
    Runs (codeArguments segments i args a) σ
      (fun b τ => b.IsTallied ∧ Rewrites FoldsTo (σ.store.ExpressionItems args) σ.store τ.store)
      (Rewrites MergesTo (σ.store.ExpressionItems args) σ.store) := by
  induction args generalizing σ i a with
  | nil => exact .pure ⟨ha, .of_none (by simp [ExpressionItems])⟩
  | cons arg args ih =>
    have hfirst : ∀ q, σ.store.ExpressionItems [arg] q → σ.store.ExpressionItems (arg :: args) q :=
      fun q hq => expressionItems_cons.2 (.inl hq)
    refine Runs.bind ((runs_addArgument h ha arg).imp (fun _ _ hτ => hτ)
      fun s hw => hw.mono hfirst) ?_
    rintro b τ ⟨hb, hw⟩
    have hmerged : Rewrites MergesTo (σ.store.ExpressionItems [arg]) σ.store τ.store :=
      hw.imp FoldsTo.mergesTo
    have hlists : ∀ q, σ.store.ExpressionItems [arg] q → σ.store.IsItems q :=
      fun q => ExpressionItems.isItems
    have hsame : ∀ q, σ.store.ExpressionItems [arg] q ∨ τ.store.ExpressionItems args q ↔
        σ.store.ExpressionItems (arg :: args) q := by
      intro q
      have htail : τ.store.ExpressionItems args q ↔ σ.store.ExpressionItems args q :=
        expressionItems_congr fun r items used e => h.get_fragment hmerged hlists
      rw [htail]
      exact expressionItems_cons.symm
    refine (reads_segment (hs.rewrites h hmerged hlists) i).bind (hmerged.mono hfirst) ?_
    rintro _ ⟨t, rfl⟩
    refine (ih (h.rewrites hmerged hlists) (hs.rewrites h hmerged hlists) (hb.push_text t)
      (i + 1)).imp ?_ ?_
    · rintro c υ ⟨hc, hw'⟩
      exact ⟨hc, (Rewrites.trans (K := FoldsTo) FoldsTo.trans hw hw').congr hsame⟩
    · exact fun s hw' =>
        (Rewrites.trans (K := MergesTo) MergesTo.trans hmerged hw').congr hsame

/-- **Code is a new fragment**, once the expressions among the arguments
are folded. -/
theorem runs_code (h : σ.store.Sound hand) (hs : segments.AreGiven σ.store hand) :
    Runs (code segments args) σ
      (fun v τ => ∃ s, Rewrites FoldsTo (σ.store.ExpressionItems args) σ.store s ∧
        s.Yields hand v τ.store)
      (Rewrites MergesTo (σ.store.ExpressionItems args) σ.store) := by
  refine (reads_checkArity segments args).bind .refl fun _ _ => ?_
  refine (reads_segment hs 0).bind .refl ?_
  rintro _ ⟨t, rfl⟩
  refine Runs.bind (runs_codeArguments h hs (.of_texts [t]) 1) ?_
  rintro b τ ⟨hb, hw⟩
  exact (runs_assemble hb false).imp (fun v υ hy => ⟨τ.store, hw, hy⟩) fun _ hs => hs

end Build

end Splice
