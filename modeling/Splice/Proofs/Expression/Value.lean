import Splice.Proofs.Expression
import Splice.Proofs.JavaScript.Conversion
/-!
# Templates — what a string expression evaluates to

The meaning of an argument is a list of parts, each a text that is known
or a variable whose text is not (`Denotes`). Arguments may be string
expressions themselves, folded or not, so this is a relation that grows
with the operations that are run. What carries through all of them is
`Store.SpellsOut`: the items that an argument adds are operands with the
operator between neighbours, and the texts of the operands in a row are
the texts of its parts. Building keeps it (`Build.expression_of_spellsOut`),
since blocks of operands laid out are operands in a row, and folding
keeps it (`Store.SpellsOut.fold`).

With a segment in front that is not empty, the first operand is a
literal. So adding up the operands is joining their texts, before the fold
and after it, and these are the texts of the parts as far as the scalars
that are left are echoed (`Build.evaluate?_expression`). A large number
need not be (`Build.evaluate?_expression_ne`).
-/

namespace Splice

open JavaScript

/-! ## Meaning -/

/-- A part of what a string expression evaluates to. -/
inductive Part
  /-- A text. -/
  | text (t : Text)
  /-- The text of a variable. -/
  | name (n : Name)

/-- The code units of a part, unless a value in it has no text. -/
def Part.text? {J : Runtime} (E : J.Environment) : Part → Option (List Nat)
  | .text t => some t.units
  | .name n => J.toText? (E.names n)

/-- The parts of arguments between segments. -/
def weave (t : Text) (rest : List (List Part × Text)) : List Part :=
  .text t :: rest.flatMap fun p => p.1 ++ [.text p.2]

/-- What an element of a list argument is written as. -/
inductive ElementText : Value → Text → Prop
  /-- A missing element is written as nothing. -/
  | missing : ElementText (.scalar .null) []
  /-- Any other scalar as it is in code. -/
  | scalar {c : Scalar} {t : Text} : c ≠ .null → c.render = .ok t → ElementText (.scalar c) t
  /-- Text as itself. -/
  | text (t : Text) : ElementText (.text t) t

/-- **What an argument of a string expression stands for** in a store. -/
inductive Denotes : Store → Value → List Part → Prop
  /-- Text stands for itself. -/
  | text {s : Store} (t : Text) : Denotes s (.text t) [.text t]
  /-- A scalar stands for what is written for it in code. -/
  | scalar {s : Store} {c : Scalar} {t : Text} : c.render = .ok t →
      Denotes s (.scalar c) [.text t]
  /-- A name stands for the text of the variable. -/
  | name {s : Store} (n : Name) : Denotes s (.name n) [.name n]
  /-- A list stands for its elements joined by commas. -/
  | listed {s : Store} {v : Value} {xs : List Value} {ts : List Text} : s.listed? v = some xs →
      List.Forall₂ ElementText xs ts → Denotes s v [.text (Text.join [.char ','] ts)]
  /-- A string expression stands for its segments and arguments in turn, if
  it has an operand at all. -/
  | expression {σ τ : Session} {segments : Segments} {args : List Value} {v : Value} {t : Text}
      {rest : List (List Part × Text)} : segments.Are σ.store (t :: rest.map Prod.snd) →
      t ≠ [] ∨ rest ≠ [] → args.length = rest.length →
      (∀ p ∈ args.zip rest, Denotes σ.store p.1 p.2.1) →
      Build.expression segments args σ = .ok v τ → Denotes τ.store v (weave t rest)
  /-- Folding it does not change what it stands for. -/
  | folded {σ τ : Session} {v w : Value} {ps : List Part} : Denotes σ.store v ps →
      Build.foldCode v σ = .ok w τ → Denotes τ.store v ps
  /-- Nor does anything that leaves it, its items and its usage map alone. -/
  | kept {s s' : Store} {r : Ref} {items used : Value} {e : Bool} {ps : List Part} :
      Denotes s (.object r) ps → s.get r = .fragment items used e →
      (∀ q, q = r ∨ .object q = items ∨ .object q = used → s'.get q = s.get q) →
      Denotes s' (.object r) ps

/-! ## Operands laid out -/

section Intersperse

variable {α : Type} {op : α} {literal : Text → α}

/-- A block of operands behind operands. -/
theorem join_append_intersperse {xs ys : List α} (hy : ys ≠ []) :
    Row.join op (xs.intersperse op) ++ ys.intersperse op = (xs ++ ys).intersperse op := by
  cases xs with
  | nil => simp [Row.join]
  | cons x xs =>
    have hne : (x :: xs).intersperse op ≠ [] := by simp [intersperse_eq_nil]
    rw [intersperse_append (by simp) hy, Row.join, if_neg (by simpa using hne),
      List.append_assoc]
    rfl

/-- A segment behind operands is an operand more, or none. -/
theorem intersperse_append_segment {xs : List α} (hx : xs ≠ []) (t : Text) :
    xs.intersperse op ++ Row.segment op literal t =
      (xs ++ Row.head literal t).intersperse op := by
  cases t with
  | nil => simp [Row.segment, Row.head]
  | cons c t =>
    have h : (Row.head literal (c :: t)).intersperse op = [literal (c :: t)] := rfl
    rw [intersperse_append hx (by simp [Row.head]), h]
    rfl

/-- **Blocks of operands laid out are operands in a row.** -/
theorem laid_intersperse {acc : List α} {rest : List (List α × Text)}
    (hrest : ∀ p ∈ rest, p.1 ≠ []) :
    Row.laid op literal (acc.intersperse op) (rest.map fun p => (p.1.intersperse op, p.2)) =
      (acc ++ rest.flatMap fun p => p.1 ++ Row.head literal p.2).intersperse op := by
  induction rest generalizing acc with
  | nil => simp [Row.laid]
  | cons p rest ih =>
    have hp : p.1 ≠ [] := hrest p (by simp)
    rw [List.map_cons, Row.laid, join_append_intersperse hp,
      intersperse_append_segment (by simp [hp]), ih fun q hq => hrest q (List.mem_cons_of_mem _ hq)]
    simp

end Intersperse

/-! ## What is carried through -/

/-- What an argument adds are operands, and they are written with the texts
of the parts. -/
def Store.SpellsOut (s : Store) (v : Value) (ps : List Part) : Prop :=
  ∃ ops : List Value, s.Contributes v (ops.intersperse .plus) ∧ ops ≠ [] ∧
    (∀ x ∈ ops, x.IsOperand) ∧
    ∀ {J : Runtime} (E : J.Environment), E.written? ops = concat? (Part.text? E) ps

theorem isOperand_segmentItem (t : Text) : (segmentItem t).IsOperand :=
  .literal (Text.isString_literal t)

theorem isOperand_head {t : Text} {x : Value} (h : x ∈ Row.head segmentItem t) :
    x.IsOperand := by
  unfold Row.head at h
  split at h
  · cases h
  · rw [List.mem_singleton.1 h]
    exact isOperand_segmentItem t

namespace JavaScript.Runtime.Environment

variable {J : Runtime} (E : J.Environment)

theorem written?_segmentItem (t : Text) : E.written? [segmentItem t] = some t.units := by
  rw [written?, concat?_singleton]
  exact E.writtenText?_of_spells (.literal t.isString_literal)

/-- A segment is written as itself, also where it is left out. -/
theorem written?_head (t : Text) : E.written? (Row.head segmentItem t) = some t.units := by
  cases t with
  | nil => rfl
  | cons c t => exact E.written?_segmentItem (c :: t)

end JavaScript.Runtime.Environment

variable {σ τ : Session} {s s' : Store} {v : Value} {ps : List Part}

/-- An argument that adds one operand. -/
theorem Store.spellsOut_singleton {x : Value} (hv : s.Contributes v [x]) (hx : x.IsOperand)
    (hwritten : ∀ {J : Runtime} (E : J.Environment),
      E.written? [x] = concat? (Part.text? E) ps) : s.SpellsOut v ps :=
  ⟨[x], hv, by simp, by simpa using hx, hwritten⟩

/-- An argument that goes in as a literal. -/
theorem Store.spellsOut_literal {t : Text} (hv : s.Contributes v [segmentItem t]) :
    s.SpellsOut v [.text t] :=
  Store.spellsOut_singleton hv (isOperand_segmentItem t) fun E =>
    (E.written?_segmentItem t).trans (concat?_singleton _).symm

/-- The blocks of arguments, as operands. -/
theorem Store.exists_operands {args : List Value} {rest : List (List Part × Text)}
    (h : List.Forall₂ (fun arg p => s.SpellsOut arg p.1) args rest) :
    ∃ blocks : List (List Value × Text), blocks.map Prod.snd = rest.map Prod.snd ∧
      s.Blocks args (blocks.map fun p => (p.1.intersperse Item.plus, p.2)) ∧
      (∀ p ∈ blocks, p.1 ≠ [] ∧ ∀ x ∈ p.1, x.IsOperand) ∧
      ∀ {J : Runtime} (E : J.Environment),
        E.written? (blocks.flatMap fun p => p.1 ++ Row.head segmentItem p.2) =
          concat? (Part.text? E) (rest.flatMap fun p => p.1 ++ [.text p.2]) := by
  induction h with
  | nil => exact ⟨[], rfl, .nil, by simp, fun E => rfl⟩
  | @cons arg p args rest hp _ ih =>
    obtain ⟨ops, hcontributes, hne, hops, hwritten⟩ := hp
    obtain ⟨blocks, hsnd, hblocks, hall, hrest⟩ := ih
    refine ⟨(ops, p.2) :: blocks, by simp [hsnd], .cons hcontributes hblocks,
      List.forall_mem_cons.2 ⟨⟨hne, hops⟩, hall⟩, fun E => ?_⟩
    have htext : concat? (Part.text? E) [.text p.2] = some p.2.units := concat?_singleton _
    rw [List.flatMap_cons, List.flatMap_cons, E.written?_append, E.written?_append,
      concat?_append, concat?_append, hwritten, hrest, E.written?_head, htext]

/-- **A string expression of arguments that spell their parts** can be
built, and spells the segments and the parts in turn. Its first operand
is the literal of the first segment, unless that is empty. -/
theorem Build.expression_of_spellsOut {segments : Segments} {args : List Value} {t : Text}
    {rest : List (List Part × Text)} (hsegments : segments.Are σ.store (t :: rest.map Prod.snd))
    (hargs : List.Forall₂ (fun arg p => σ.store.SpellsOut arg p.1) args rest) :
    ∃ v τ tail, Build.expression segments args σ = .ok v τ ∧
      τ.store.Holds v ((Row.head segmentItem t ++ tail).intersperse .plus) true ∧
      (rest ≠ [] → tail ≠ []) ∧ (∀ x ∈ Row.head segmentItem t ++ tail, x.IsOperand) ∧
      ∀ {J : Runtime} (E : J.Environment),
        E.written? (Row.head segmentItem t ++ tail) = concat? (Part.text? E) (weave t rest) := by
  obtain ⟨blocks, hsnd, hblocks, hall, hwritten⟩ := Store.exists_operands hargs
  have hsegments : segments.Are σ.store
      (t :: (blocks.map fun p => (p.1.intersperse Item.plus, p.2)).map Prod.snd) := by
    simpa [List.map_map, Function.comp_def, hsnd] using hsegments
  obtain ⟨v, τ, hv, hholds, -, -⟩ := Build.expression_of_contributes hsegments hblocks
  have hhead : Row.head segmentItem t = (Row.head segmentItem t).intersperse Item.plus := by
    cases t <;> rfl
  rw [hhead, laid_intersperse fun p hp => (hall p hp).1] at hholds
  refine ⟨v, τ, _, hv, hholds, ?_, ?_, fun E => ?_⟩
  · intro hrest htail
    obtain ⟨p, rest, rfl⟩ := List.exists_cons_of_ne_nil hrest
    cases blocks with
    | nil => cases hsnd
    | cons q blocks =>
      rw [List.flatMap_cons, List.append_eq_nil_iff, List.append_eq_nil_iff] at htail
      exact (hall q (by simp)).1 htail.1.1
  · intro x hx
    rcases List.mem_append.1 hx with hx | hx
    · exact isOperand_head hx
    · obtain ⟨p, hp, hx⟩ := List.mem_flatMap.1 hx
      rcases List.mem_append.1 hx with hx | hx
      · exact (hall p hp).2 x hx
      · exact isOperand_head hx
  · rw [E.written?_append, E.written?_head, hwritten]
    rfl

/-- A fragment that adds operands holds them. -/
theorem Store.SpellsOut.holds {xs : List Value} {e : Bool} (h : s.SpellsOut v ps)
    (hv : s.Holds v xs e) :
    ∃ ops, xs = ops.intersperse .plus ∧ ops ≠ [] ∧ (∀ x ∈ ops, x.IsOperand) ∧
      ∀ {J : Runtime} (E : J.Environment), E.written? ops = concat? (Part.text? E) ps := by
  obtain ⟨ops, hcontributes, hne, hops, hwritten⟩ := h
  exact ⟨ops, (hcontributes.unique (.fragment hv)).symm, hne, hops, hwritten⟩

/-- Code that adds operands is a name or a fragment that holds them. -/
theorem Store.SpellsOut.of_isCode (h : s.SpellsOut v ps) (hv : s.isCode v = true) :
    (∃ n, v = .name n) ∨ ∃ xs e, s.Holds v xs e := by
  obtain ⟨ops, hcontributes, -⟩ := h
  generalize ops.intersperse .plus = block at hcontributes
  cases hcontributes with
  | name n => exact .inl ⟨n, rfl⟩
  | scalar c => cases hv
  | literal hbare _ _ => cases hbare.symm.trans (goesInBare_of_isCode hv)
  | listed hlisted _ => cases hlisted.symm.trans (listed?_of_isCode hv)
  | fragment h => exact .inr ⟨_, _, h⟩

/-- **Folding keeps what a fragment spells.** -/
theorem Store.SpellsOut.fold {xs : List Value} {e : Bool} (h : σ.store.SpellsOut v ps)
    (hv : σ.store.Holds v xs e) :
    ∃ υ, Build.foldCode v σ = .ok v υ ∧ υ.store.SpellsOut v ps := by
  obtain ⟨ops, rfl, hne, hops, hwritten⟩ := h.holds hv
  let Q (ops' : List Value) : Prop := ops' ≠ [] ∧ ∀ {J : Runtime} (E : J.Environment),
    E.written? ops' = concat? (Part.text? E) ps
  have hkeeps : ∀ {before after : List Value} {a b : Value} {t : Text} {us vs : List Nat},
      a.Spells us → b.Spells vs → Json.IsString t (us ++ vs) → a.IsLiteral ∨ b.IsLiteral →
      Q (before ++ a :: b :: after) → Q (before ++ .text t :: after) := by
    rintro before after a b t us vs ha hb ht - ⟨-, hwritten⟩
    exact ⟨by simp, fun E => (E.written?_merge ha hb ht).trans (hwritten E)⟩
  have hfold := fun print : List Value → Ref → Except Failure Text =>
    fold_chain print hkeeps hops ⟨hne, hwritten⟩
  obtain ⟨print, υ, hυ, hholds⟩ := Build.foldCode_of_holds hv fun print => (hfold print).1
  obtain ⟨-, ops', hitems, hops', hne', hwritten'⟩ := hfold print
  rw [hitems] at hholds
  exact ⟨υ, hυ, ops', .fragment hholds, hne', hops', hwritten'⟩

/-- Only code is folded. -/
theorem Build.isCode_of_foldCode {w : Value} (h : Build.foldCode v σ = .ok w τ) :
    σ.store.isCode v = true := by
  unfold Build.foldCode at h
  split at h
  · rfl
  · obtain ⟨items, υ, hitems, -⟩ := bind_eq_ok.1 h
    have hitems := (read_eq_ok.1 hitems).1
    unfold Store.itemsOf at hitems
    unfold Store.isCode
    split at hitems
    · split at hitems
      · simp [*]
      · cases hitems
    · cases hitems

/-- Elements that can be written are joined by commas. -/
theorem Store.joinElements_of_forall₂ {xs : List Value} {ts : List Text}
    (h : List.Forall₂ ElementText xs ts) :
    s.joinElements xs = .ok (Text.join [.char ','] ts) := by
  have hmap : xs.mapM s.elementText = .ok ts := by
    induction h with
    | nil => rfl
    | @cons x t xs ts hx _ ih =>
      have ht : s.elementText x = .ok t := by
        cases hx with
        | missing => rfl
        | @scalar c t hc ht =>
          cases c with
          | null => exact absurd rfl hc
          | bool b => exact ht
          | int n => exact ht
          | float y => exact ht
        | text t => rfl
      rw [List.mapM_cons, ht, ih]
      rfl
  rw [Store.joinElements, hmap]
  rfl

/-- **What an argument stands for, it spells.** -/
theorem Denotes.spellsOut (h : Denotes s v ps) : s.SpellsOut v ps := by
  -- By how the meaning has come about: building, folding and leaving alone each keep it.
  induction h with
  | text t => exact Store.spellsOut_literal (.literal rfl rfl rfl)
  | @scalar s c t hc =>
    refine Store.spellsOut_singleton (.scalar c) (.scalar hc) fun E => ?_
    rw [Runtime.Environment.written?, concat?_singleton, E.writtenText?_scalar hc,
      concat?_singleton]
    rfl
  | @name s n =>
    refine Store.spellsOut_singleton (.name n) (.name n) fun E => ?_
    rw [Runtime.Environment.written?, concat?_singleton, concat?_singleton]
    rfl
  | listed hlisted helements =>
    exact Store.spellsOut_literal (.listed hlisted (Store.joinElements_of_forall₂ helements))
  | @expression σ τ segments args v t rest hsegments hoperand hlength _ hv ih =>
    have hargs : List.Forall₂ (fun arg p => σ.store.SpellsOut arg p.1) args rest :=
      List.forall₂_iff_zip.2 ⟨hlength, fun hmem => ih _ hmem⟩
    obtain ⟨w, υ, tail, hw, hholds, htail, hops, hwritten⟩ :=
      Build.expression_of_spellsOut hsegments hargs
    cases hw.symm.trans hv
    refine ⟨_, .fragment hholds, ?_, hops, hwritten⟩
    rcases hoperand with ht | hrest
    · cases t with
      | nil => exact absurd rfl ht
      | cons c t => simp [Row.head]
    · simp [htail hrest]
  | @folded σ τ v w ps _ hfold ih =>
    rcases ih.of_isCode (Build.isCode_of_foldCode hfold) with ⟨n, rfl⟩ | ⟨xs, e, hholds⟩
    · cases hfold
      exact ih
    · obtain ⟨υ, hυ, hspells⟩ := ih.fold hholds
      cases hυ.symm.trans hfold
      exact hspells
  | @kept s s' r items used e ps _ hr hkept ih =>
    rcases ih.of_isCode (by simp [Store.isCode, hr]) with ⟨n, hn⟩ | ⟨xs, e', hholds⟩
    · cases hn
    · obtain ⟨ops, rfl, hne, hops, hwritten⟩ := ih.holds hholds
      exact ⟨ops, .fragment (hholds.kept hr hkept), hne, hops, hwritten⟩

/-! ## The value -/

/-- A string expression spliced into code is folded, and its items are
taken over as they are then. -/
theorem Build.code_of_folded {l r : Value} {xs ys : List Value} (h : σ.store.Holds v xs true)
    (hfold : Build.foldCode v σ = .ok v τ) (hτ : τ.store.Holds v ys true) :
    ∃ w υ, Build.code (.fixed [l, r]) [v] σ = .ok w υ ∧
      υ.store.Holds w (l :: ys ++ [r]) false := by
  obtain ⟨used, hused, hwhole⟩ := h.addUses Usage.isWhole_nil
  have hadd : addArgument ⟨#[l], []⟩ v σ = .ok ⟨#[l] ++ ys, used⟩ τ := by
    simp only [addArgument]
    rw [bind_of_ok (argument_of_isCode h.isCode), bind_of_ok (ask_apply _)]
    simp only [h.isCode, if_true, spliceCode]
    rw [bind_of_ok hused, bind_of_ok (read_of_ok h.isExpression)]
    simp only [if_true]
    rw [bind_of_ok hfold, bind_of_ok hτ.pushed]
    rfl
  have harguments : codeArguments (.fixed [l, r]) 1 [v] ⟨#[l], []⟩ σ =
      .ok ⟨(#[l] ++ ys).push r, used⟩ τ := by
    simp only [codeArguments]
    rw [bind_of_ok hadd]
    rfl
  obtain ⟨w, υ, hw, hholds, -, -⟩ :=
    assemble_holds (σ := τ) (a := ⟨(#[l] ++ ys).push r, used⟩) hwhole false
  refine ⟨w, υ, ?_, by simpa using hholds⟩
  have hstart : Build.code (.fixed [l, r]) [v] σ =
      (codeArguments (.fixed [l, r]) 1 [v] ⟨#[l], []⟩ >>= fun a => assemble a false) σ := rfl
  rw [hstart, bind_of_ok harguments, hw]

/-- **When a string expression evaluates to its segments and arguments in
turn**, if its first segment is not empty. It can be built, and folded or
spliced between empty segments, its items have that value, whatever the
variables hold, if the scalars that are left among them are echoed. In a
runtime that converts scalars as JavaScript does it is only then that they
have it. -/
theorem Build.evaluate?_expression {segments : Segments} {args : List Value} {t : Text}
    {rest : List (List Part × Text)} (hsegments : segments.Are σ.store (t :: rest.map Prod.snd))
    (ht : t ≠ []) (hargs : List.Forall₂ (fun arg p => Denotes σ.store arg p.1) args rest) :
    ∃ v τ ys, Build.expression segments args σ = .ok v τ ∧
      (∃ υ, Build.foldCode v τ = .ok v υ ∧ υ.store.Holds v ys true) ∧
      (∃ w υ, Build.code (.ofStrings ["", ""]) [v] τ = .ok w υ ∧
        υ.store.Holds w (.text [] :: ys ++ [.text []]) false) ∧
      ∀ J : Runtime,
        (J.EchoesAll ys → ∀ E : J.Environment,
          E.evaluate? ys = (concat? (Part.text? E) (weave t rest)).map .string) ∧
        (J.ConvertsScalars → (∀ E : J.Environment,
          E.evaluate? ys = (concat? (Part.text? E) (weave t rest)).map .string) →
          J.EchoesAll ys) := by
  obtain ⟨c, t, rfl⟩ := List.exists_cons_of_ne_nil ht
  obtain ⟨v, τ, tail, hv, hholds, -, hops, hwritten⟩ :=
    Build.expression_of_spellsOut hsegments (hargs.imp fun _ _ h => h.spellsOut)
  have hhead : Row.head segmentItem (c :: t) ++ tail = segmentItem (c :: t) :: tail := rfl
  rw [hhead] at hholds hops hwritten
  -- The literal of the first segment is what makes every sum a string.
  have hliteral : ∃ x ∈ (segmentItem (c :: t) :: tail).take 2, x.IsLiteral :=
    ⟨segmentItem (c :: t), by simp, _, _, rfl, Text.isString_literal (c :: t)⟩
  have hfold := fun print : List Value → Ref → Except Failure Text =>
    fold_operands print hops hliteral
  obtain ⟨print, υ, hυ, hfolded⟩ := Build.foldCode_of_holds hholds fun print => (hfold print).1
  obtain ⟨-, ops, hitems, hops', hliteral', -, hwritten'⟩ := hfold print
  rw [hitems] at hfolded
  refine ⟨v, τ, _, hv, ⟨υ, hυ, hfolded⟩, Build.code_of_folded hholds hυ hfolded, fun J => ?_⟩
  simp only [Runtime.echoesAll_intersperse, ← hwritten, ← hwritten']
  exact ⟨fun hJ E => E.evaluate?_of_echoesAll hops' hliteral' hJ,
    fun hJ h => hJ.echoesAll_of_evaluate? hops' hliteral' h⟩

/-- What a string expression is folded to, if its items fold to the same
however objects print. -/
theorem Build.folded_of_contributes {segments : Segments} {args : List Value} {t : Text}
    {rest : List (List Value × Text)} (ys : List Value)
    (hsegments : segments.Are σ.store (t :: rest.map Prod.snd)) (hargs : σ.store.Blocks args rest)
    (hfold : ∀ print : List Value → Ref → Except Failure Text,
      (fold print (Row.laid Item.plus segmentItem (Row.head segmentItem t) rest)).failure? = none ∧
      (fold print (Row.laid Item.plus segmentItem (Row.head segmentItem t) rest)).items = ys) :
    ∃ v τ υ, Build.expression segments args σ = .ok v τ ∧ Build.foldCode v τ = .ok v υ ∧
      υ.store.Holds v ys true := by
  obtain ⟨v, τ, hv, hholds, -⟩ := Build.expression_of_contributes hsegments hargs
  obtain ⟨print, υ, hυ, hfolded⟩ := Build.foldCode_of_holds hholds fun print => (hfold print).1
  exact ⟨v, τ, υ, hv, hυ, (hfold print).2 ▸ hfolded⟩

/-- **A number that is left to itself has the text that JavaScript gives it**:
`2 ^ 63` behind a variable is not joined to the text that is written for it. -/
theorem Build.evaluate?_expression_ne :
    let x : Name := ⟨Text.ofString "x", by decide⟩
    let y : Scalar := .float ⟨0x43e0000000000000⟩
    let args : List Value := [.name x, .scalar y]
    let rest : List (List Part × Text) := [([.name x], []), ([.text "9223372036854775808"], [])]
    let ys : List Value := [.text "\"a\"", .plus, .name x, .plus, .scalar y]
    let σ : Session := ⟨⟨#[]⟩, []⟩
    (Segments.ofStrings ["a", "", ""]).Are σ.store (Text.ofString "a" :: rest.map Prod.snd) ∧
      List.Forall₂ (fun arg p => Denotes σ.store arg p.1) args rest ∧
      (∃ v τ υ, Build.expression (.ofStrings ["a", "", ""]) args σ = .ok v τ ∧
        Build.foldCode v τ = .ok v υ ∧ υ.store.Holds v ys true) ∧
      Runtime.integers.ConvertsScalars ∧
      ∀ (J : Runtime) (E : J.Environment) (us : List Nat), J.ConvertsScalars →
        J.toText? (E.names x) = some us →
        E.evaluate? ys =
          some (.string (Text.units "a" ++ us ++ Text.units "9223372036854776000")) ∧
        E.evaluate? ys ≠ (concat? (Part.text? E) (weave "a" rest)).map .string := by
  intro x y args rest ys σ
  have hy : y.render = .ok "9223372036854775808" := by decide +kernel
  have htext : Converts y "9223372036854776000" := by
    have hnumber : numberText ⟨0x43e0000000000000⟩ = "9223372036854776000" := by decide +kernel
    exact hnumber ▸ converts_numberText (by decide)
  have hsegments : (Segments.ofStrings ["a", "", ""]).Are σ.store
      (Text.ofString "a" :: rest.map Prod.snd) := rfl
  have hargs : List.Forall₂ (fun arg p => Denotes σ.store arg p.1) args rest :=
    .cons (.name x) (.cons (.scalar hy) .nil)
  have hblocks : σ.store.Blocks args [([.name x], []), ([.scalar y], [])] :=
    .cons (.name x) (.cons (.scalar y) .nil)
  have hfolded := Build.folded_of_contributes ys hsegments hblocks fun print => by
    constructor <;> with_unfolding_all rfl
  refine ⟨hsegments, hargs, hfolded, Runtime.convertsScalars_integers, fun J E us hJ hus => ?_⟩
  have hvalue : E.evaluate? ys =
      some (.string (Text.units "a" ++ us ++ Text.units "9223372036854776000")) := by
    have hfirst : E.operand? (.text (Text.literal "a") : Value) = some (.string (Text.units "a")) :=
      E.operand?_of_isString (Text.isString_literal "a")
    have htexts : E.spelled? [.text (Text.literal "a"), .name x, (.scalar y : Value)] =
        some (Text.units "a" ++ us ++ Text.units "9223372036854776000") := by
      have ha : E.text? (.text (Text.literal "a") : Value) = some (Text.units "a") := by
        rw [Runtime.Environment.text?, hfirst]
        rfl
      have hx : E.text? (.name x : Value) = some us := hus
      have hlast : E.text? (.scalar y : Value) = some (Text.units "9223372036854776000") :=
        hJ _ _ htext
      simp [Runtime.Environment.spelled?, concat?, ha, hx, hlast]
    exact (E.evaluate?_of_string hfirst [.name x, .scalar y]).trans (by rw [htexts]; rfl)
  refine ⟨hvalue, fun h => ?_⟩
  have hjoin : concat? (Part.text? E) (weave "a" rest) =
      some (Text.units "a" ++ us ++ Text.units "9223372036854775808") := by
    simp [weave, rest, concat?, Part.text?, hus, Text.units]
  rw [hvalue, hjoin] at h
  have hunits : Text.units "9223372036854776000" = Text.units "9223372036854775808" :=
    List.append_cancel_left (Primitive.string.inj (Option.some.inj h))
  exact absurd hunits (by decide)

/-- A string expression in a string expression, behind a number that is
left to itself: the inner one begins with a variable, has a list as an
argument, and has been folded. -/
theorem Build.evaluate?_expression_nested :
    let x : Name := ⟨Text.ofString "x", by decide⟩
    let half : Scalar := .float ⟨0x3fe0000000000000⟩
    let σ : Session := ⟨⟨#[.list [.scalar (.bool true), .scalar .null, .text "b"]]⟩, []⟩
    let ys : List Value := [.text "\"a\"", .plus, .name x, .plus, .scalar half, .plus,
      .name x, .plus, .text (Text.literal "\ntrue,,b")]
    let ps : List Part := [.text "a", .name x, .text [], .text "0.5", .text [], .text [], .name x,
      .text "\n", .text "true,,b", .text [], .text []]
    ∃ inner τ υ,
      Build.expression (.ofStrings ["", "\n", ""]) [.name x, .object ⟨0⟩] σ = .ok inner τ ∧
      Build.foldCode inner τ = .ok inner υ ∧
      ∃ v τ', Build.expression (.ofStrings ["a", "", "", ""])
          [.name x, .scalar half, inner] υ = .ok v τ' ∧
        (∃ υ', Build.foldCode v τ' = .ok v υ' ∧ υ'.store.Holds v ys true) ∧
        (∃ w υ', Build.code (.ofStrings ["", ""]) [v] τ' = .ok w υ' ∧
          υ'.store.Holds w (.text [] :: ys ++ [.text []]) false) ∧
        Runtime.integers.EchoesAll ys ∧
        ∀ E : Runtime.integers.Environment,
          E.evaluate? ys = (concat? (Part.text? E) ps).map .string := by
  intro x half σ ys ps
  have hlisted : σ.store.listed? (.object ⟨0⟩) =
      some [.scalar (.bool true), .scalar .null, .text "b"] := rfl
  have hlist : Denotes σ.store (.object ⟨0⟩) [.text "true,,b"] :=
    .listed hlisted (.cons (.scalar nofun rfl) (.cons .missing (.cons (.text _) .nil)))
  let inside : List (List Part × Text) := [([.name x], "\n"), ([.text "true,,b"], [])]
  have hargs : List.Forall₂ (fun arg p => Denotes σ.store arg p.1) [.name x, .object ⟨0⟩] inside :=
    .cons (.name x) (.cons hlist .nil)
  have hsegments : (Segments.ofStrings ["", "\n", ""]).Are σ.store ([] :: inside.map Prod.snd) :=
    rfl
  have hblocks : σ.store.Blocks [.name x, .object ⟨0⟩]
      [([.name x], "\n"), ([.text (Text.literal "true,,b")], [])] :=
    .cons (.name x) (.cons (.listed hlisted rfl) .nil)
  obtain ⟨inner, τ, υ, hexpression, hfold, hholds⟩ :=
    Build.folded_of_contributes [.name x, .plus, .text (Text.literal "\ntrue,,b")]
      hsegments hblocks fun print => by constructor <;> with_unfolding_all rfl
  have hdenotes : Denotes τ.store inner (weave [] inside) :=
    .expression hsegments (.inr (by simp [inside])) hargs.length_eq
      (fun p hp => (List.forall₂_iff_zip.1 hargs).2 hp) hexpression
  have hhalf : half.render = .ok "0.5" := by decide +kernel
  let outside : List (List Part × Text) :=
    [([.name x], []), ([.text "0.5"], []), (weave [] inside, [])]
  have hargs' : List.Forall₂ (fun arg p => Denotes υ.store arg p.1)
      [.name x, .scalar half, inner] outside :=
    .cons (.name x) (.cons (.scalar hhalf) (.cons (.folded hdenotes hfold) .nil))
  have hsegments' : (Segments.ofStrings ["a", "", "", ""]).Are υ.store
      (Text.ofString "a" :: outside.map Prod.snd) := rfl
  have hblocks' : υ.store.Blocks [.name x, .scalar half, inner] [([.name x], []),
      ([.scalar half], []), ([.name x, .plus, .text (Text.literal "\ntrue,,b")], [])] :=
    .cons (.name x) (.cons (.scalar _) (.cons (.fragment hholds) .nil))
  obtain ⟨v, τ', ys', hv, ⟨υ', hυ', hheld⟩, hcode, hvalue⟩ :=
    Build.evaluate?_expression hsegments' (by decide) hargs'
  obtain ⟨w, χ, χ', hw, hχ', hys⟩ :=
    Build.folded_of_contributes ys hsegments' hblocks' fun print => by
      constructor <;> with_unfolding_all rfl
  cases hv.symm.trans hw
  cases hυ'.symm.trans hχ'
  obtain rfl : ys' = ys := hheld.unique hys
  have hechoes : Runtime.integers.EchoesAll ys := by
    intro c hc
    obtain rfl : c = half := by simpa [ys, Item.plus] using hc
    have hwhole : Double.whole? ⟨0x3fe0000000000000⟩ = none := by decide +kernel
    exact (Runtime.convertsScalars_integers.echoes_float_iff (by decide)).2
      fun n hn => nomatch hwhole.symm.trans hn
  exact ⟨inner, τ, υ, hexpression, hfold, v, τ', hv, ⟨υ', hυ', hheld⟩, hcode, hechoes,
    (hvalue Runtime.integers).1 hechoes⟩

end Splice
