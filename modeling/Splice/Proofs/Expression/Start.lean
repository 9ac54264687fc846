import Splice.Proofs.Expression.Value
import Splice.Proofs.Folding.NormalForm
/-!
# Templates — string expressions without a segment in front

Where the first segment is empty, no literal makes the first sum a
string. A fold makes up for that if it can bring one far enough to the
left: a literal takes in the scalars before it, so it comes to be one of
the first two operands if there are only scalars between it and the first
(`Item.startsString`). No merge changes whether this is so
(`Item.startsString_merge`), and when nothing is left to merge it says
that one of the first two operands is a literal
(`exists_literal_of_startsString`).

Where it is not so, the first two operands are added as what they are, or
the first stays alone, and there are variables and a runtime for which no
string comes of it (`evaluate?_ne_of_not_startsString`). So the condition
is exact (`Build.evaluate?_expression_nil_iff`): two numbers are added
(`Build.evaluate?_expression_numbers`). Where it is so, the scalars that the
fold leaves as operands have to be echoed, as behind a segment.
-/

namespace Splice

open JavaScript

variable {ρ : Type}

namespace Item

/-- Whether operands begin with a literal, or with scalars and then one. -/
def reachesLiteral : List (Item ρ) → Bool
  | [] => false
  | .scalar _ :: xs => reachesLiteral xs
  | x :: _ => x.startsQuoted

/-- Whether a literal comes first, or second, or after scalars that do. -/
def startsString : List (Item ρ) → Bool
  | [] => false
  | x :: xs => x.startsQuoted || reachesLiteral xs

variable {before after ops : List (Item ρ)} {a b x : Item ρ} {t : Text} {us vs : List Nat}

/-- A literal has been reached. -/
theorem reachesLiteral_of_isLiteral (h : x.IsLiteral) : reachesLiteral (x :: after) = true := by
  obtain ⟨t, us, rfl, ht⟩ := h
  exact ht.startsQuoted

/-- Two constants of which one is a literal reach one. -/
theorem reachesLiteral_of_spells (ha : a.Spells us) (hliteral : a.IsLiteral ∨ b.IsLiteral) :
    reachesLiteral (a :: b :: after) = true := by
  cases ha with
  | literal ht => exact reachesLiteral_of_isLiteral ⟨_, _, rfl, ht⟩
  | scalar hc =>
    rcases hliteral with ⟨_, _, h, -⟩ | hb
    · cases h
    · rw [reachesLiteral]
      exact reachesLiteral_of_isLiteral hb

theorem reachesLiteral_merge (ha : a.Spells us) (ht : Json.IsString t vs)
    (hliteral : a.IsLiteral ∨ b.IsLiteral) :
    reachesLiteral (before ++ .text t :: after) = reachesLiteral (before ++ a :: b :: after) := by
  induction before with
  | nil =>
    exact (reachesLiteral_of_isLiteral ⟨t, vs, rfl, ht⟩).trans
      (reachesLiteral_of_spells ha hliteral).symm
  | cons x before ih =>
    cases x with
    | scalar c => exact ih
    | _ => rfl

/-- **A merge does not change whether a literal comes soon enough.** -/
theorem startsString_merge (ha : a.Spells us) (ht : Json.IsString t vs)
    (hliteral : a.IsLiteral ∨ b.IsLiteral) :
    startsString (before ++ .text t :: after) = startsString (before ++ a :: b :: after) := by
  cases before with
  | nil =>
    have hleft : startsString (.text t :: after) = true := by
      rw [startsString, IsLiteral.startsQuoted ⟨t, vs, rfl, ht⟩, Bool.true_or]
    have hright : startsString (a :: b :: after) = true := by
      rw [startsString, Bool.or_eq_true]
      exact hliteral.imp IsLiteral.startsQuoted reachesLiteral_of_isLiteral
    exact hleft.trans hright.symm
  | cons x before =>
    rw [List.cons_append, List.cons_append, startsString, startsString,
      reachesLiteral_merge ha ht hliteral]

end Item

open Item Folded

variable {ops : List (Item ρ)}

/-- The rest of a chain in which nothing merges. -/
theorem Folded.Quiet.tail_chain {x y : Item ρ} {xs : List (Item ρ)}
    (h : Quiet ((x :: y :: xs).intersperse .plus)) : Quiet ((y :: xs).intersperse .plus) := by
  have hrow : Quiet ([x, .plus] ++ (y :: xs).intersperse .plus ++ []) := by
    simpa [List.intersperse_cons_cons] using h
  exact hrow.of_append

/-- In a chain where nothing merges, the first operand is the literal that
is reached: a scalar before a literal would have been taken in. -/
theorem isLiteral_of_reachesLiteral {x : Item ρ} {xs : List (Item ρ)}
    (hops : ∀ y ∈ x :: xs, y.IsOperand) (hquiet : Quiet ((x :: xs).intersperse .plus))
    (h : reachesLiteral (x :: xs) = true) : x.IsLiteral := by
  induction xs generalizing x with
  | nil =>
    cases x with
    | scalar c => cases h
    | _ => exact (hops _ (by simp)).isLiteral h
  | cons y ys ih =>
    cases x with
    | scalar c =>
      obtain ⟨t, us, rfl, ht⟩ :=
        ih (fun z hz => hops z (List.mem_cons_of_mem _ hz)) hquiet.tail_chain h
      -- The scalar and the literal are the operands of the first operator.
      have hrow : ((.scalar c : Item ρ) :: .text t :: ys).intersperse .plus =
          [] ++ .scalar c :: .plus :: .text t :: ((.text t :: ys).intersperse .plus).tail := by
        rw [List.intersperse_cons_cons, intersperse_eq_cons_tail]
        rfl
      have hnone := hquiet [] (.scalar c) (.text t) _ hrow fun _ => .ok []
      have hc := hops (.scalar c) (by simp)
      cases hc with
      | scalar hc => simp [merge?, ht.startsQuoted, render, hc] at hnone
    | _ => exact (hops _ (by simp)).isLiteral h

/-- So a literal that comes soon enough is one of the first two operands. -/
theorem exists_literal_of_startsString (hops : ∀ x ∈ ops, x.IsOperand)
    (hquiet : Quiet (ops.intersperse .plus)) (h : startsString ops = true) :
    ∃ x ∈ ops.take 2, x.IsLiteral := by
  match ops with
  | [] => cases h
  | [x] =>
    rw [startsString, reachesLiteral, Bool.or_false] at h
    exact ⟨x, by simp, (hops x (by simp)).isLiteral h⟩
  | x :: y :: xs =>
    rw [startsString, Bool.or_eq_true] at h
    rcases h with hx | hy
    · exact ⟨x, by simp, (hops x (by simp)).isLiteral hx⟩
    · have htail : ∀ z ∈ y :: xs, z.IsOperand := fun z hz => hops z (List.mem_cons_of_mem _ hz)
      exact ⟨y, by simp, isLiteral_of_reachesLiteral htail hquiet.tail_chain hy⟩

/-! ## Where no string comes of it -/

/-- All variables and all code are null, in a runtime that adds strings only. -/
def allNull : (default : Runtime).Environment where
  names _ := .other .null
  code _ := .other .null

variable {x : Item ρ}

/-- An operand without a quote in front is no string there. -/
theorem operand?_allNull (hx : x.IsOperand) (hquote : x.startsQuoted = false) :
    ∃ v, allNull.operand? x = some (.other v) := by
  cases hx with
  | literal ht => exact absurd (ht.startsQuoted.symm.trans hquote) (by decide)
  | scalar => exact ⟨_, rfl⟩
  | name => exact ⟨_, rfl⟩
  | code hstart => exact ⟨.null, by rw [Runtime.Environment.operand?, hstart]; rfl⟩

/-- **Without a literal soon enough, a chain need not come to a string**:
there is no sum of the first two operands, or the only one is no string. -/
theorem evaluate?_ne_of_not_startsString (hne : ops ≠ []) (hops : ∀ x ∈ ops, x.IsOperand)
    (h : startsString ops = false) :
    allNull.evaluate? (ops.intersperse .plus) ≠ (allNull.written? ops).map .string := by
  obtain ⟨us, hus⟩ :=
    allNull.exists_written? (fun _ => ⟨_, rfl⟩) (fun _ => ⟨_, rfl⟩) hops
  rw [hus]
  match ops with
  | [] => exact absurd rfl hne
  | [x] =>
    rw [startsString, Bool.or_eq_false_iff] at h
    obtain ⟨v, hv⟩ := operand?_allNull (hops x (by simp)) h.1
    have hvalue : allNull.evaluate? ([x].intersperse .plus) = some (.other v) := by
      rw [Runtime.Environment.evaluate?_intersperse, hv]
      rfl
    rw [hvalue]
    nofun
  | x :: y :: xs =>
    rw [startsString, Bool.or_eq_false_iff] at h
    obtain ⟨v, hv⟩ := operand?_allNull (hops x (by simp)) h.1
    have hquote : y.startsQuoted = false := by
      cases y with
      | scalar c => rfl
      | _ => exact h.2
    obtain ⟨w, hw⟩ := operand?_allNull (hops y (by simp)) hquote
    have hvalue : allNull.evaluate? ((x :: y :: xs).intersperse .plus) = none :=
      (allNull.evaluate?_intersperse x (y :: xs)).trans (Runtime.total?_eq_none _ hv hw rfl xs)
    rw [hvalue]
    nofun

/-! ## The value -/

namespace Build

variable {σ : Session}

/-- **When a string expression without a segment in front evaluates to a
string.** It can be built and folded, and its items come to its segments and
arguments in turn, whatever the variables hold and whatever the runtime
makes of two values that are no strings, exactly if a literal comes first
among its operands, or with nothing but scalars between it and the first.
Of the scalars only those that are left need to be echoed for that, and in
a runtime that converts scalars as JavaScript does they need to be. -/
theorem evaluate?_expression_nil_iff {segments : Segments} {args : List Value}
    {rest : List (List Part × Text)} (hsegments : segments.Are σ.store ([] :: rest.map Prod.snd))
    (hrest : rest ≠ []) (hargs : List.Forall₂ (fun arg p => Denotes σ.store arg p.1) args rest) :
    ∃ v τ ops ys, expression segments args σ = .ok v τ ∧
      τ.store.Holds v (ops.intersperse .plus) true ∧
      (∃ υ, foldCode v τ = .ok v υ ∧ υ.store.Holds v ys true) ∧
      ((∀ (J : Runtime) (E : J.Environment), (∀ c, J.Echoes c) →
        E.evaluate? ys = (concat? (Part.text? E) (weave [] rest)).map .string) ↔
        startsString ops = true) ∧
      (startsString ops = true → ∀ J : Runtime,
        (J.EchoesAll ys → ∀ E : J.Environment,
          E.evaluate? ys = (concat? (Part.text? E) (weave [] rest)).map .string) ∧
        (J.ConvertsScalars → (∀ E : J.Environment,
          E.evaluate? ys = (concat? (Part.text? E) (weave [] rest)).map .string) →
          J.EchoesAll ys)) := by
  obtain ⟨v, τ, ops, hv, hholds, hne, hops, hwritten⟩ :=
    expression_of_spellsOut hsegments (hargs.imp fun _ _ h => h.spellsOut)
  replace hne : ops ≠ [] := hne hrest
  change τ.store.Holds v (ops.intersperse .plus) true at hholds
  change ∀ x ∈ ops, x.IsOperand at hops
  change ∀ {J : Runtime} (E : J.Environment),
    E.written? ops = concat? (Part.text? E) (weave [] rest) at hwritten
  let Q (ops' : List Value) : Prop := ops' ≠ [] ∧ startsString ops' = startsString ops ∧
    ∀ {J : Runtime} (E : J.Environment),
      E.written? ops' = concat? (Part.text? E) (weave [] rest)
  have hkeeps : ∀ {before after : List Value} {a b : Value} {t : Text} {us vs : List Nat},
      a.Spells us → b.Spells vs → Json.IsString t (us ++ vs) → a.IsLiteral ∨ b.IsLiteral →
      Q (before ++ a :: b :: after) → Q (before ++ .text t :: after) := by
    rintro before after a b t us vs ha hb ht hliteral ⟨-, hstarts, hwritten⟩
    exact ⟨by simp, (startsString_merge ha ht hliteral).trans hstarts,
      fun E => (E.written?_merge ha hb ht).trans (hwritten E)⟩
  have hfold := fun print : List Value → Ref → Except Failure Text =>
    fold_chain print hkeeps hops ⟨hne, rfl, hwritten⟩
  obtain ⟨print, υ, hυ, hfolded⟩ := foldCode_of_holds hholds fun print => (hfold print).1
  obtain ⟨hnone, ops', hitems, hops', hne', hstarts, hwritten'⟩ := hfold print
  have hquiet : Quiet (ops'.intersperse .plus) := hitems ▸ fold_quiet hnone
  rw [hitems] at hfolded
  have hstring (h : startsString ops = true) (J : Runtime) :
      (J.EchoesAll (ops'.intersperse .plus) → ∀ E : J.Environment,
        E.evaluate? (ops'.intersperse .plus) =
          (concat? (Part.text? E) (weave [] rest)).map .string) ∧
      (J.ConvertsScalars → (∀ E : J.Environment, E.evaluate? (ops'.intersperse .plus) =
        (concat? (Part.text? E) (weave [] rest)).map .string) →
        J.EchoesAll (ops'.intersperse .plus)) := by
    have hliteral := exists_literal_of_startsString hops' hquiet (hstarts.trans h)
    simp only [Runtime.echoesAll_intersperse, ← hwritten']
    exact ⟨fun hJ E => E.evaluate?_of_echoesAll hops' hliteral hJ,
      fun hJ h => hJ.echoesAll_of_evaluate? hops' hliteral h⟩
  refine ⟨v, τ, ops, _, hv, hholds, ⟨υ, hυ, hfolded⟩, ⟨fun hvalue => ?_, fun h J E hJ => ?_⟩,
    hstring⟩
  · by_contra h
    rw [← hstarts, Bool.not_eq_true] at h
    refine evaluate?_ne_of_not_startsString hne' hops' h ?_
    rw [hwritten']
    exact hvalue _ allNull Runtime.echoes_default
  · exact (hstring h J).1 (fun c _ => hJ c) E

/-- A variable and a scalar before the first literal, and a number behind it
that is left to itself. -/
theorem evaluate?_expression_nil_iff_number :
    let x : Name := ⟨Text.ofString "x", by decide⟩
    let σ : Session := ⟨⟨#[]⟩, []⟩
    let args : List Value := [.name x, .scalar (.bool true), .name x, .scalar (.int 7)]
    let rest : List (List Part × Text) :=
      [([.name x], []), ([.text "true"], "b"), ([.name x], []), ([.text "7"], [])]
    let ops : List Value :=
      [.name x, .scalar (.bool true), .text "\"b\"", .name x, .scalar (.int 7)]
    let ys : List Value :=
      [.name x, .plus, .text "\"trueb\"", .plus, .name x, .plus, .scalar (.int 7)]
    ((Segments.ofStrings ["", "", "b", "", ""]).Are σ.store ([] :: rest.map Prod.snd) ∧
        rest ≠ [] ∧ List.Forall₂ (fun arg p => Denotes σ.store arg p.1) args rest) ∧
      ∃ v τ, expression (.ofStrings ["", "", "b", "", ""]) args σ = .ok v τ ∧
        τ.store.Holds v (ops.intersperse .plus) true ∧
        (∃ υ, foldCode v τ = .ok v υ ∧ υ.store.Holds v ys true) ∧
        startsString ops = true ∧ Runtime.integers.EchoesAll ys ∧
        ∀ E : Runtime.integers.Environment,
          E.evaluate? ys = (concat? (Part.text? E) (weave [] rest)).map .string := by
  intro x σ args rest ops ys
  have hsegments : (Segments.ofStrings ["", "", "b", "", ""]).Are σ.store
      ([] :: rest.map Prod.snd) := rfl
  have hseven : (Scalar.int 7).render = .ok "7" := Scalar.render_int_of_lt (by decide)
  have hargs : List.Forall₂ (fun arg p => Denotes σ.store arg p.1) args rest :=
    .cons (.name x) (.cons (.scalar rfl) (.cons (.name x) (.cons (.scalar hseven) .nil)))
  have hrest : rest ≠ [] := by simp [rest]
  have hblocks : σ.store.Blocks args [([.name x], []), ([.scalar (.bool true)], "b"),
      ([.name x], []), ([.scalar (.int 7)], [])] :=
    .cons (.name x) (.cons (.scalar _) (.cons (.name x) (.cons (.scalar _) .nil)))
  obtain ⟨v, τ, ops', ys', hv, hholds, ⟨υ, hυ, hfolded⟩, -, hvalue⟩ :=
    evaluate?_expression_nil_iff hsegments hrest hargs
  -- What the expression holds and is folded to, here.
  obtain ⟨v', τ', hrun, hops, -⟩ := expression_of_contributes hsegments hblocks
  obtain ⟨w, χ, χ', hw, hχ', hys⟩ :=
    folded_of_contributes ys hsegments hblocks fun print => by
      constructor <;> with_unfolding_all rfl
  cases hv.symm.trans hrun
  cases hv.symm.trans hw
  cases hυ.symm.trans hχ'
  obtain rfl : ops' = ops := intersperse_inj (hholds.unique hops)
  obtain rfl : ys' = ys := hfolded.unique hys
  have hechoes : Runtime.integers.EchoesAll ys := by
    intro c hc
    obtain rfl : c = .int 7 := by simpa [ys, Item.plus] using hc
    exact Runtime.convertsScalars_integers.echoes_int (by decide)
  exact ⟨⟨hsegments, hrest, hargs⟩, v, τ, hv, hholds, ⟨υ, hυ, hfolded⟩, rfl, hechoes,
    (hvalue rfl Runtime.integers).1 hechoes⟩

/-- **Two numbers are added**, and not joined: nothing is merged between
empty segments, and the sum is a number. -/
theorem evaluate?_expression_numbers :
    let args : List Value := [.scalar (.int 1), .scalar (.int 2)]
    let rest : List (List Part × Text) := [([.text "1"], []), ([.text "2"], [])]
    let ys : List Value := [.scalar (.int 1), .plus, .scalar (.int 2)]
    let σ : Session := ⟨⟨#[]⟩, []⟩
    (Segments.ofStrings ["", "", ""]).Are σ.store ([] :: rest.map Prod.snd) ∧
      List.Forall₂ (fun arg p => Denotes σ.store arg p.1) args rest ∧
      (∃ v τ υ, expression (.ofStrings ["", "", ""]) args σ = .ok v τ ∧
        foldCode v τ = .ok v υ ∧ υ.store.Holds v ys true) ∧
      ∀ E : Runtime.integers.Environment, E.evaluate? ys = some (.other (.int 3)) ∧
        (concat? (Part.text? E) (weave [] rest)).map .string ≠ E.evaluate? ys := by
  intro args rest ys σ
  have hone : (Scalar.int 1).render = .ok "1" := Scalar.render_int_of_lt (by decide)
  have htwo : (Scalar.int 2).render = .ok "2" := Scalar.render_int_of_lt (by decide)
  have hsegments : (Segments.ofStrings ["", "", ""]).Are σ.store ([] :: rest.map Prod.snd) := rfl
  have hargs : List.Forall₂ (fun arg p => Denotes σ.store arg p.1) args rest :=
    .cons (.scalar hone) (.cons (.scalar htwo) .nil)
  have hblocks : σ.store.Blocks args [([.scalar (.int 1)], []), ([.scalar (.int 2)], [])] :=
    .cons (.scalar _) (.cons (.scalar _) .nil)
  obtain ⟨v, τ, hv, hholds, -⟩ := expression_of_contributes hsegments hblocks
  change τ.store.Holds v ys true at hholds
  have hfirst : Quiet ([] ++ [(.scalar (.int 1) : Value), .plus]) := quiet_of_length_le (by simp)
  have hquiet : Quiet ys := hfirst.concat fun _ _ => rfl
  obtain ⟨print, υ, hυ, hfolded⟩ := foldCode_of_holds hholds fun print => by
    rw [fold_of_quiet hquiet]
  rw [fold_of_quiet hquiet] at hfolded
  exact ⟨hsegments, hargs, ⟨v, τ, υ, hv, hυ, hfolded⟩, fun E => ⟨rfl, by nofun⟩⟩

end Build

end Splice
