import Splice.Proofs.Expression.Value
import Splice.Proofs.Expression.Folding
import Splice.Proofs.Folding.Formula
/-!
# Templates — code as an operand of a string expression

Code goes into a string expression as its items, without brackets around
it, and the operators of the one and of the other stand in one row. The
first and the last segment of code are blanks that nothing merges with, so
the fold of the whole is the fold of the code between what it is put
between. If no merge takes a factor of a product, the summands of the code
are added to the text in front one by one, each as its text. That is the
text of their sum exactly if the sum joins texts from the start: if there
is one summand only, or a string alone is the first or second of them
(`Build.formula?_operand_iff`). Two numbers that are to be added are
joined (`Build.formula?_operand_sum`). A number that is a summand by itself
may be merged into a text, so it has to be echoed for that; the factors of
a product stay with the runtime.
-/

namespace Splice

open JavaScript Folded

/-- A fragment of lexemes has the text that they are written as. -/
theorem Store.Holds.codeText_lexemes {s : Store} {v : Value} {xs : List Value} {e : Bool}
    (h : s.Holds v xs e) (hxs : ∀ x ∈ xs, x.IsLexeme) :
    s.codeText v = .ok (xs.flatMap Item.source) := by
  rw [List.flatMap_def]
  refine h.codeText ?_
  rw [List.forall₂_map_right_iff, List.forall₂_same]
  exact fun x hx print => (hxs x hx).render print

namespace Row

/-- Segments of blanks and operators with blocks of lexemes between them,
which are read as a sum of products. -/
structure IsFormula (t : Text) (rest : List (List Value × Text)) (ps : List (List Atom)) :
    Prop where
  /-- Each segment is blanks and operators. -/
  segments : ∀ u ∈ t :: rest.map Prod.snd, isOperators u = true
  /-- Each item that is put in is a lexeme. -/
  blocks : ∀ p ∈ rest, ∀ x ∈ p.1, x.IsLexeme
  /-- The tokens are read as the sum. -/
  products : products? ((spliced t rest).flatMap Item.tokens) = some ps

variable {t : Text} {rest : List (List Value × Text)} {ps : List (List Atom)}

theorem IsFormula.isLexeme (h : IsFormula t rest ps) : ∀ x ∈ spliced t rest, x.IsLexeme := by
  intro x hx
  rcases List.mem_cons.1 hx with rfl | hx
  · exact .operators (h.segments t (by simp))
  · obtain ⟨p, hp, hx⟩ := List.mem_flatMap.1 hx
    rcases List.mem_append.1 hx with hx | hx
    · exact h.blocks p hp x hx
    · rw [List.mem_singleton.1 hx]
      exact .operators (h.segments p.2 (List.mem_cons_of_mem _ (List.mem_map_of_mem hp)))

/-- An operator is no operand. -/
theorem ne_operand_of_mem_signs {u : Text} {k : Token} (hk : k ∈ u.filterMap sign?) (a : Atom) :
    k ≠ .operand a := by
  rintro rfl
  obtain ⟨c, -, hc⟩ := List.mem_filterMap.1 hk
  unfold sign? at hc
  split at hc
  · cases hc
  · split at hc <;> cases hc

/-- Where an operand comes first, no operator is in front of it. -/
theorem signs_eq_nil_of_head? {u : Text} {ks : List Token} {a : Atom}
    (h : (u.filterMap sign? ++ ks).head? = some (.operand a)) : u.filterMap sign? = [] := by
  by_contra hne
  obtain ⟨k, ks', hks⟩ := List.exists_cons_of_ne_nil hne
  have hk : k ∈ u.filterMap sign? := by simp [hks]
  rw [hks] at h
  exact ne_operand_of_mem_signs hk a (Option.some.inj h)

/-- Where an operand comes last, no operator is behind it. -/
theorem signs_eq_nil_of_getLast? {u : Text} {ks : List Token} {a : Atom}
    (h : (ks ++ u.filterMap sign?).getLast? = some (.operand a)) : u.filterMap sign? = [] := by
  by_contra hne
  obtain ⟨ks', k, hks⟩ := (List.eq_nil_or_concat (u.filterMap sign?)).resolve_left hne
  have hk : k ∈ u.filterMap sign? := by simp [hks]
  rw [hks, List.concat_eq_append, ← List.append_assoc, List.getLast?_concat] at h
  exact ne_operand_of_mem_signs hk a (Option.some.inj h)

/-- **A formula begins and ends with a segment of blanks**, which merges
with nothing. -/
theorem IsFormula.exists_ends (h : IsFormula t rest ps) :
    ∃ b zs c, spliced t rest = b :: zs ++ [c] ∧ b.IsInert ∧ c.IsInert := by
  obtain ⟨⟨a, ha⟩, d, hd⟩ := exists_ends_of_products? h.products
  have ht : isOperators t = true := h.segments t (by simp)
  have htokens : (.text t : Value).tokens = t.filterMap sign? := Item.tokens_operators ht
  rw [spliced, List.flatMap_cons, htokens] at ha
  have hfirst : t.filterMap sign? = [] := signs_eq_nil_of_head? ha
  rcases List.eq_nil_or_concat rest with rfl | ⟨rest, p, rfl⟩
  · rw [hfirst] at ha
    cases ha
  · have hp : isOperators p.2 = true := h.segments p.2 (by simp)
    have hrow : spliced t (rest.concat p) =
        .text t :: ((rest.flatMap fun p => p.1 ++ [.text p.2]) ++ p.1) ++ [.text p.2] := by
      simp [spliced]
    rw [hrow, List.flatMap_append, List.flatMap_singleton, Item.tokens_operators hp] at hd
    exact ⟨_, _, _, hrow, isInert_of_isOperators ht hfirst,
      isInert_of_isOperators hp (signs_eq_nil_of_getLast? hd)⟩

end Row

/-! ## The items of the whole -/

/-- Items between a segment in front and one behind, as literals. -/
def Row.enclosed (front back : Text) (xs : List Value) : List Value :=
  [segmentItem front, .plus] ++ xs ++ segment Item.plus segmentItem back

section Enclosed

variable {front back : Text} {xs : List Value}

theorem isLexeme_segmentItem (t : Text) : (segmentItem t).IsLexeme := .literal t.isString_literal

theorem isLexeme_enclosed (h : ∀ x ∈ xs, x.IsLexeme) :
    ∀ x ∈ Row.enclosed front back xs, x.IsLexeme := by
  have hbehind : ∀ x ∈ Row.segment Item.plus segmentItem back, x.IsLexeme := by
    unfold Row.segment
    split
    · simp
    · simpa using ⟨Item.IsLexeme.plus, isLexeme_segmentItem back⟩
  have hbefore : ∀ x ∈ [segmentItem front, Item.plus], x.IsLexeme := by
    simpa using ⟨isLexeme_segmentItem front, Item.IsLexeme.plus⟩
  exact List.forall_mem_append.2 ⟨List.forall_mem_append.2 ⟨hbefore, h⟩, hbehind⟩

theorem steady_enclosed (h : ∀ x ∈ xs, x.IsLexeme) : Steady (Row.enclosed front back xs) :=
  fun x hx => (isLexeme_enclosed h x hx).isSteady

/-- **Between literals a formula is folded by itself.** -/
theorem fold_enclosed {t : Text} {rest : List (List Value × Text)} {ps : List (List Atom)}
    (h : Row.IsFormula t rest ps) (print : List Value → Ref → Except Failure Text)
    (front back : Text) :
    ∃ ys, Relation.ReflTransGen (Merges print) (Row.spliced t rest) ys ∧
      (fold print (Row.enclosed front back (Row.spliced t rest))).items =
        Row.enclosed front back ys := by
  obtain ⟨b, zs, c, hrow, hb, hc⟩ := h.exists_ends
  have hfront : Quiet ([] ++ [segmentItem front, .plus, b]) :=
    (quiet_of_length_le (by simp)).concat fun _ print => (hb.2 _ print).2
  have hback : Quiet (c :: Row.segment Item.plus segmentItem back) := by
    unfold Row.segment
    split
    · exact quiet_of_length_le (by simp)
    · have hpair : Quiet ([] ++ [c, .plus]) := quiet_of_length_le (by simp)
      exact hpair.concat fun _ print => (hc.2 _ print).1
  have hsplit (zs : List Value) : Row.enclosed front back (b :: zs ++ [c]) =
      [segmentItem front, .plus] ++ [b] ++ zs ++ c :: Row.segment Item.plus segmentItem back := by
    simp [Row.enclosed]
  have hsteady : Steady (Row.enclosed front back (b :: zs ++ [c])) :=
    steady_enclosed (hrow ▸ h.isLexeme)
  rw [hsplit] at hsteady
  refine ⟨b :: (fold print zs).items ++ [c], ?_, ?_⟩
  · rw [hrow]
    exact reaches_append (fold_reaches zs) hsteady.of_append [b] [c]
  · rw [hrow, hsplit, hsplit]
    exact fold_between hsteady hb hc hfront hback

/-- The segment behind as a summand, if there is one. -/
def lastSummand (back : Text) : List (List Atom) :=
  if back.isEmpty then [] else [[.string back.units]]

/-- **What is enclosed is read as summands** between those of the segments. -/
theorem products?_enclosed {qs : List (List Atom)}
    (h : products? (xs.flatMap Item.tokens) = some qs) :
    products? ((Row.enclosed front back xs).flatMap Item.tokens) =
      some ([.string front.units] :: (qs ++ lastSummand back)) := by
  have hliteral (t : Text) : (segmentItem t).tokens = [.operand (.string t.units)] :=
    Item.tokens_literal t.isString_literal
  have hplus : (.plus : Value).tokens = [.plus] := rfl
  have hbehind : products? (xs.flatMap Item.tokens ++
      (Row.segment Item.plus segmentItem back).flatMap Item.tokens) =
      some (qs ++ lastSummand back) := by
    unfold Row.segment lastSummand
    split
    · simpa using h
    · have hpair : [Item.plus, segmentItem back].flatMap Item.tokens =
          [.plus, .operand (.string back.units)] := by
        rw [List.flatMap_cons, List.flatMap_singleton, hliteral, hplus]
        rfl
      rw [hpair, products?_append_plus, h]
      rfl
  have htokens : (Row.enclosed front back xs).flatMap Item.tokens =
      .operand (.string front.units) :: .plus :: (xs.flatMap Item.tokens ++
        (Row.segment Item.plus segmentItem back).flatMap Item.tokens) := by
    simp [Row.enclosed, List.flatMap_append, hliteral, hplus]
  rw [htokens, products?, hbehind]
  rfl

theorem spelled?_lastSummand {A : Arithmetic} {E : A.toRuntime.Environment}
    (qs : List (List Atom)) (back : Text) :
    A.spelled? E (qs ++ lastSummand back) = (A.spelled? E qs).map fun us => us ++ back.units := by
  rw [Arithmetic.spelled?, concat?_append, Arithmetic.spelled?]
  have hlast : concat? (Runtime.textOf? (A.product? E)) (lastSummand back) = some back.units := by
    cases back with
    | nil => rfl
    | cons c t => exact concat?_singleton _
  rw [hlast]
  cases concat? (Runtime.textOf? (A.product? E)) qs <;> rfl

end Enclosed

/-! ## The value -/

namespace Build

variable {σ : Session}

variable {segments : Segments} {args : List Value} {t front back : Text}
  {rest : List (List Value × Text)} {ps : List (List Atom)}

/-- **Code in a string expression adds the texts of its summands.** A formula
and the expression with it between two segments can be built, and the
expression can be spliced between empty segments. The text of the formula
has its value, and that of the whole the texts of its summands between those
of the segments. -/
theorem exists_operand_text (hsegments : segments.Are σ.store (t :: rest.map Prod.snd))
    (hargs : List.Forall₂ (fun arg p => σ.store.Splices arg p.1) args rest)
    (hformula : Row.IsFormula t rest ps)
    (hspares : ∀ print, SparesFactors print (Row.spliced t rest)) (hfront : front ≠ [])
    (back : Text) :
    ∃ c τ u e υ w ω v, code segments args σ = .ok c τ ∧ τ.store.codeText c = .ok u ∧
      expression (.ofTexts [front, back]) [c] τ = .ok e υ ∧
      code (.ofStrings ["", ""]) [e] υ = .ok w ω ∧ ω.store.codeText w = .ok v ∧
      ∀ (A : Arithmetic) (E : A.toRuntime.Environment),
        A.formula? E u = Runtime.total? (A.product? E) ps ∧
        (A.EchoesInts ps → A.formula? E v =
          (A.spelled? E ps).map fun us => .string (front.units ++ us ++ back.units)) := by
  obtain ⟨c, τ, hc, hholds, -⟩ := code_of_splices hsegments hargs
  have hlexemes : ∀ x ∈ Row.spliced t rest, x.IsLexeme := hformula.isLexeme
  -- The expression holds the formula between the segments.
  have htexts : (Segments.ofTexts [front, back]).Are τ.store
      (front :: [(Row.spliced t rest, back)].map Prod.snd) := rfl
  obtain ⟨e, υ, he, hheld, -⟩ :=
    expression_of_contributes htexts (.cons (.fragment hholds) .nil)
  have hrow : Row.laid Item.plus segmentItem (Row.head segmentItem front)
      [(Row.spliced t rest, back)] = Row.enclosed front back (Row.spliced t rest) := by
    obtain ⟨d, front, rfl⟩ := List.exists_cons_of_ne_nil hfront
    simp [Row.laid, Row.head, Row.join, Row.enclosed]
  rw [hrow] at hheld
  -- Spliced into code it is folded, which is to fold the formula.
  obtain ⟨print, χ, hχ, hfolded⟩ := foldCode_of_holds hheld fun print =>
    fold_steady_failure? (steady_enclosed hlexemes)
  obtain ⟨ys, hreach, hys⟩ := fold_enclosed hformula print front back
  rw [hys] at hfolded
  obtain ⟨w, ω, hw, hout⟩ := code_of_folded (l := .text []) (r := .text []) hheld hχ hfolded
  have hbetween : (.text [] : Value) :: Row.enclosed front back ys ++ [.text []] =
      Row.spliced [] [(Row.enclosed front back ys, [])] := by simp [Row.spliced]
  rw [hbetween] at hout
  obtain ⟨hmerged, qs, hqs, -, hspelled⟩ :=
    products?_of_reaches hreach hlexemes (hspares print) hformula.products
  have hsum : Row.IsFormula [] [(Row.enclosed front back ys, [])]
      ([.string front.units] :: (qs ++ lastSummand back)) := by
    refine ⟨by simp [isOperators], by simpa using isLexeme_enclosed hmerged, ?_⟩
    have hempty : (.text [] : Value).tokens = [] := rfl
    simpa [Row.spliced, hempty] using products?_enclosed hqs
  refine ⟨c, τ, _, e, υ, w, ω, _, hc, hholds.codeText_lexemes hlexemes, he, hw,
    hout.codeText_lexemes hsum.isLexeme, fun A E => ⟨?_, fun hA => ?_⟩⟩
  · exact formula?_lexemes hlexemes hformula.products
  · rw [formula?_lexemes hsum.isLexeme hsum.products, Arithmetic.total?_string_cons,
      spelled?_lastSummand, hspelled A E hA]
    cases A.spelled? E ps <;> simp

/-- **When code is one operand of a string expression.** A formula is put
between segments of which the first is not empty, and the expression is
spliced between empty segments. If no merge takes a factor of a product, the
text has the value of the formula as text between those of the segments,
whatever the variables hold, exactly if the formula joins texts. Of the
numbers only those that are summands by themselves need to be echoed for
that. -/
theorem formula?_operand_iff (hsegments : segments.Are σ.store (t :: rest.map Prod.snd))
    (hargs : List.Forall₂ (fun arg p => σ.store.Splices arg p.1) args rest)
    (hformula : Row.IsFormula t rest ps)
    (hspares : ∀ print, SparesFactors print (Row.spliced t rest)) (hfront : front ≠ []) :
    ∃ c τ u e υ w ω v, code segments args σ = .ok c τ ∧ τ.store.codeText c = .ok u ∧
      expression (.ofTexts [front, back]) [c] τ = .ok e υ ∧
      code (.ofStrings ["", ""]) [e] υ = .ok w ω ∧ ω.store.codeText w = .ok v ∧
      ((∀ (A : Arithmetic) (E : A.toRuntime.Environment), (∀ k, A.toRuntime.Echoes k) →
        A.formula? E v = ((A.formula? E u).bind A.toText?).map fun us =>
          .string (front.units ++ us ++ back.units)) ↔ JoinsTexts ps) ∧
      (JoinsTexts ps → ∀ (A : Arithmetic) (E : A.toRuntime.Environment), A.EchoesInts ps →
        A.formula? E v = ((A.formula? E u).bind A.toText?).map fun us =>
          .string (front.units ++ us ++ back.units)) := by
  obtain ⟨c, τ, u, e, υ, w, ω, v, hc, hu, he, hw, hv, hvalues⟩ :=
    exists_operand_text hsegments hargs hformula hspares hfront back
  have hinjective (A : Arithmetic) : Function.Injective fun us =>
      (.string (front.units ++ us ++ back.units) : A.toRuntime.Value) := by
    intro us us' h
    simpa using h
  have hsame (A : Arithmetic) (E : A.toRuntime.Environment) (hA : A.EchoesInts ps) :
      A.formula? E v = ((A.formula? E u).bind A.toText?).map (fun us =>
        .string (front.units ++ us ++ back.units)) ↔
      A.spelled? E ps = (Runtime.total? (A.product? E) ps).bind A.toText? := by
    rw [(hvalues A E).1, (hvalues A E).2 hA]
    exact (Option.map_injective (hinjective A)).eq_iff
  obtain ⟨hne, hfactors⟩ := products?_ne_nil hformula.products
  refine ⟨c, τ, u, e, υ, w, ω, v, hc, hu, he, hw, hv, ?_, fun h A E hA => ?_⟩
  · rw [← joinsTexts_iff hne hfactors]
    exact forall_congr' fun A => forall_congr' fun E => forall_congr' fun hA =>
      hsame A E fun n _ => hA (.int n)
  · exact (hsame A E hA).2 (h.toText?_total? A E).symm

/-- A text and a number that are merged, and a product behind them. -/
theorem formula?_operand_iff_product :
    let x : Name := ⟨Text.ofString "x", by decide⟩
    let σ : Session := ⟨⟨#[]⟩, []⟩
    let segments : Segments := .ofStrings ["", "+", " + ", "*", ""]
    let args : List Value := [.text "s", .scalar (.int 1), .name x, .scalar (.int 2)]
    let rest : List (List Value × Text) := [([segmentItem "s"], "+"),
      ([.scalar (.int 1)], " + "), ([.name x], "*"), ([.scalar (.int 2)], [])]
    let ps : List (List Atom) := [[.string (Text.units "s")], [.int 1], [.name x, .int 2]]
    (segments.Are σ.store ([] :: rest.map Prod.snd) ∧
        List.Forall₂ (fun arg p => σ.store.Splices arg p.1) args rest ∧
        Row.IsFormula [] rest ps ∧ (∀ print, SparesFactors print (Row.spliced [] rest)) ∧
        Text.ofString "a" ≠ []) ∧
      ∃ c τ u e υ w ω v, code segments args σ = .ok c τ ∧ τ.store.codeText c = .ok u ∧
        expression (.ofTexts ["a", []]) [c] τ = .ok e υ ∧
        code (.ofStrings ["", ""]) [e] υ = .ok w ω ∧ ω.store.codeText w = .ok v ∧
        JoinsTexts ps ∧ Arithmetic.integers.EchoesInts ps ∧
        ∀ E : Arithmetic.integers.toRuntime.Environment, Arithmetic.integers.formula? E v =
          ((Arithmetic.integers.formula? E u).bind Arithmetic.integers.toText?).map fun us =>
            .string (Text.units "a" ++ us ++ Text.units []) := by
  intro x σ segments args rest ps
  have hsegments : segments.Are σ.store ([] :: rest.map Prod.snd) := rfl
  have hargs : List.Forall₂ (fun arg p => σ.store.Splices arg p.1) args rest :=
    .cons (σ.store.splices_text "s") (.cons (.scalar _) (.cons (.name x) (.cons (.scalar _) .nil)))
  have hformula : Row.IsFormula [] rest ps := by
    refine ⟨by decide, ?_, rfl⟩
    simp only [rest, List.forall_mem_cons, List.not_mem_nil, false_imp_iff, implies_true, and_true]
    exact ⟨isLexeme_segmentItem "s", .int (isPrintableInt_of_lt (by decide)), .name x,
      .int (isPrintableInt_of_lt (by decide))⟩
  have hplain : PlainSums ([.text []] ++ segmentItem "s" :: .plus ::
      .scalar (.int 1) :: [.text " + ", .name x, .text "*", .scalar (.int 2), .text []]) :=
    plainSums_of_one (by decide) (by decide) nofun nofun
  have hspares : ∀ print, SparesFactors print (Row.spliced [] rest) := fun _ =>
    hplain.sparesFactors hformula.isLexeme
  have hfront : Text.ofString "a" ≠ [] := by decide
  have hjoins : JoinsTexts ps := .inr ⟨Text.units "s", List.mem_cons_self⟩
  have hechoes : Arithmetic.integers.EchoesInts ps := by
    intro n hn
    obtain rfl : n = 1 := by simpa [ps] using hn
    exact Runtime.convertsScalars_integers.echoes_int (by decide)
  obtain ⟨c, τ, u, e, υ, w, ω, v, hc, hu, he, hw, hv, -, hvalue⟩ :=
    formula?_operand_iff hsegments hargs hformula hspares hfront
  exact ⟨⟨hsegments, hargs, hformula, hspares, hfront⟩, c, τ, u, e, υ, w, ω, v, hc, hu, he, hw,
    hv, hjoins, hechoes, fun E => hvalue hjoins _ E hechoes⟩

/-- **Two numbers that are to be added are joined**: the sum of 1 and 2 is
3, but between two segments its operands come one after the other. -/
theorem formula?_operand_sum :
    let σ : Session := ⟨⟨#[]⟩, []⟩
    ∃ c τ u e υ w ω v,
      code (.ofStrings ["", "+", ""]) [.scalar (.int 1), .scalar (.int 2)] σ = .ok c τ ∧
      τ.store.codeText c = .ok u ∧ expression (.ofTexts ["a", "b"]) [c] τ = .ok e υ ∧
      code (.ofStrings ["", ""]) [e] υ = .ok w ω ∧ ω.store.codeText w = .ok v ∧
      ∀ E : Arithmetic.integers.toRuntime.Environment,
        Arithmetic.integers.formula? E u = some (.other (.int 3)) ∧
        Arithmetic.integers.formula? E v = some (.string (Text.units "a12b")) ∧
        ((Arithmetic.integers.formula? E u).bind Arithmetic.integers.toText?).map
          (fun us => .string (Text.units "a" ++ us ++ Text.units "b")) ≠
            Arithmetic.integers.formula? E v := by
  intro σ
  let rest : List (List Value × Text) := [([.scalar (.int 1)], "+"), ([.scalar (.int 2)], [])]
  let ps : List (List Atom) := [[.int 1], [.int 2]]
  have hsegments : (Segments.ofStrings ["", "+", ""]).Are σ.store ([] :: rest.map Prod.snd) := rfl
  have hargs : List.Forall₂ (fun arg p => σ.store.Splices arg p.1)
      [.scalar (.int 1), .scalar (.int 2)] rest := .cons (.scalar _) (.cons (.scalar _) .nil)
  have hformula : Row.IsFormula [] rest ps := by
    refine ⟨by decide, ?_, rfl⟩
    simp only [rest, List.forall_mem_cons, List.not_mem_nil, false_imp_iff, implies_true, and_true]
    exact ⟨.int (isPrintableInt_of_lt (by decide)), .int (isPrintableInt_of_lt (by decide))⟩
  have hplain : PlainSums ([.text []] ++ (.scalar (.int 1) : Value) :: .plus ::
      .scalar (.int 2) :: [.text []]) :=
    plainSums_of_one (by decide) (by decide) nofun nofun
  have hspares : ∀ print, SparesFactors print (Row.spliced [] rest) := fun _ =>
    hplain.sparesFactors hformula.isLexeme
  obtain ⟨c, τ, u, e, υ, w, ω, v, hc, hu, he, hw, hv, hvalues⟩ :=
    exists_operand_text hsegments hargs hformula hspares (by decide : Text.ofString "a" ≠ []) "b"
  refine ⟨c, τ, u, e, υ, w, ω, v, hc, hu, he, hw, hv, fun E => ?_⟩
  have hechoes {n : Int} (h : n.natAbs < 2 ^ 53) : Runtime.integers.Echoes (.int n) :=
    Runtime.convertsScalars_integers.echoes_int h
  have hsummands : Arithmetic.integers.EchoesInts ps := by
    intro n hn
    obtain rfl | rfl : n = 1 ∨ n = 2 := by simpa [ps] using hn
    · exact hechoes (by decide)
    · exact hechoes (by decide)
  have htext {n : Int} (h : n.natAbs < 2 ^ 53) :
      Arithmetic.integers.toText? (.other (.int n)) = some (Text.ofInt n).units :=
    hechoes h _ (Scalar.render_int_of_lt h)
  have hsum : Arithmetic.integers.formula? E u = some (.other (.int 3)) :=
    (hvalues Arithmetic.integers E).1
  have hspelled : Arithmetic.integers.spelled? E ps = some (Text.units "12") := by
    have hone : Runtime.textOf? (Arithmetic.integers.product? E) [.int 1] = some (Text.units "1") :=
      htext (by decide)
    have htwo : Runtime.textOf? (Arithmetic.integers.product? E) [.int 2] = some (Text.units "2") :=
      htext (by decide)
    rw [Arithmetic.spelled?, concat?, concat?, concat?, hone, htwo]
    rfl
  have hjoined : Arithmetic.integers.formula? E v = some (.string (Text.units "a12b")) := by
    rw [(hvalues Arithmetic.integers E).2 hsummands, hspelled]
    rfl
  refine ⟨hsum, hjoined, ?_⟩
  rw [hsum, hjoined, Option.bind_some, htext (by decide)]
  intro h
  cases h

end Build

end Splice
