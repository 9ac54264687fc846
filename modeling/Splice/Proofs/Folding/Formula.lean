import Splice.Proofs.Folding.Confluence
import Splice.Proofs.Folding.Value
import Splice.Proofs.JavaScript.Formula
/-!
# Folding — formulas of operands and operators

A lexeme is an item of a formula: a name, a whole number, a literal, or
blanks and operators (`Item.IsLexeme`). A row of lexemes is read token by
token, provided that no two operands are side by side (`lex?_lexemes`).

A fold looks for the operator `+` between constants, and does not know
that `*` binds its operands more tightly. If none of its merges takes a
factor of a product for an operand (`Folded.SparesFactors`), what is left
is a sum of products with the same texts as before
(`Folded.products?_of_reaches`). A row between items that merge with
nothing is folded by itself (`fold_between`).
-/

namespace Splice

open JavaScript Relation

variable {ρ : Type}

namespace Item

/-- What a lexeme is written as. -/
def source : Item ρ → Text
  | .name n => n.text
  | .text t => t
  | .scalar (.int n) => Text.ofInt n
  | _ => []

/-- The tokens of a lexeme. -/
def tokens : Item ρ → List Token
  | .name n => [.operand (.name n)]
  | .scalar (.int n) => [.operand (.int n)]
  | .text t =>
    match stringValue? t with
    | some us => [.operand (.string us)]
    | none => t.filterMap sign?
  | _ => []

/-- An item of a formula. -/
inductive IsLexeme : Item ρ → Prop
  /-- A variable. -/
  | name (n : Name) : IsLexeme (.name n)
  /-- A whole number that can be written. -/
  | int {n : Int} : isPrintableInt n = true → IsLexeme (.scalar (.int n))
  /-- A complete quoted literal. -/
  | literal {t : Text} {us : List Nat} : Json.IsString t us → IsLexeme (.text t)
  /-- Blanks and operators. -/
  | operators {t : Text} : isOperators t = true → IsLexeme (.text t)

variable {a b x : Item ρ} {t : Text} {us : List Nat}

/-- Blanks and operators are no quotes. -/
theorem ne_quote_of_isOperators (h : isOperators t = true) {c : CodePoint} (hc : c ∈ t) :
    c ≠ .char '"' := by
  rintro rfl
  exact absurd (List.all_eq_true.1 h _ hc) (by decide)

theorem not_quoted_of_isOperators (h : isOperators t = true) :
    t.startsQuoted = false ∧ t.endsQuoted = false := by
  constructor
  · rw [← Bool.not_eq_true, Text.startsQuoted, beq_iff_eq]
    exact fun hq => ne_quote_of_isOperators h (List.mem_of_head? hq) rfl
  · rw [← Bool.not_eq_true, Text.endsQuoted, beq_iff_eq]
    exact fun hq => ne_quote_of_isOperators h (List.mem_of_getLast? hq) rfl

theorem tokens_literal (h : Json.IsString t us) :
    (.text t : Item ρ).tokens = [.operand (.string us)] := by
  rw [tokens, stringValue?_of_isString h]

theorem tokens_operators (h : isOperators t = true) :
    (.text t : Item ρ).tokens = t.filterMap sign? := by
  have hnone : stringValue? t = none := by
    cases t with
    | nil => rfl
    | cons c t => rw [stringValue?, if_neg (ne_quote_of_isOperators h (by simp))]
  rw [tokens, hnone]

theorem IsLexeme.plus : (plus : Item ρ).IsLexeme := .operators rfl

/-- A lexeme is written as what it is, whatever objects print. -/
theorem IsLexeme.render (h : x.IsLexeme) (print : ρ → Except Failure Text) :
    x.render print = .ok x.source := by
  cases h with
  | name n => rfl
  | int hn => rw [Item.render, Scalar.render_int hn, source]
  | literal => rfl
  | operators => rfl

theorem IsLexeme.isSteady (h : x.IsLexeme) : x.IsSteady := by
  cases h with
  | name n => exact .name n
  | int hn => exact .scalar (Scalar.render_int hn)
  | literal ht =>
    obtain ⟨body, rfl, -⟩ := ht
    exact .text (by simp)
  | operators h =>
    refine .text ?_
    rintro rfl
    exact absurd h (by decide)

/-- A lexeme other than the operator `+` alone is an operand of a chain. -/
theorem IsLexeme.isOperand (h : x.IsLexeme) (hplus : x ≠ .plus) : x.IsOperand := by
  cases h with
  | name n => exact .name n
  | int hn => exact .scalar (Scalar.render_int hn)
  | literal ht => exact .literal ht
  | operators h =>
    obtain ⟨hstart, hend⟩ := not_quoted_of_isOperators h
    exact .code hstart hend fun ht => hplus (ht ▸ rfl)

/-- A constant lexeme is one operand, with the text that it spells if it is
echoed. -/
theorem IsLexeme.exists_atom (h : x.IsLexeme) (hspells : x.Spells us) :
    ∃ a, x.tokens = [.operand a] ∧
      ∀ (A : Arithmetic) (E : A.toRuntime.Environment),
        A.EchoesInts [[a]] → A.toText? (A.value E a) = some us := by
  cases hspells with
  | literal ht => exact ⟨_, tokens_literal ht, fun _ _ _ => rfl⟩
  | @scalar c t hc =>
    cases h with
    | @int n hn => exact ⟨.int n, rfl, fun A _ hA => hA n List.mem_cons_self t hc⟩

/-- **A merge of lexemes** is one of two operands, into the string of both. -/
theorem IsLexeme.merge {print : ρ → Except Failure Text} (ha : a.IsLexeme) (hb : b.IsLexeme)
    (h : a.merge? print b = .ok (some t)) :
    ∃ us vs, a.Spells us ∧ b.Spells vs ∧ Json.IsString t (us ++ vs) := by
  have hne : a ≠ .plus ∧ b ≠ .plus := by
    obtain hnone | ⟨u, v, hu, hv, -⟩ : a.merge? print b = .ok none ∨
        ∃ u v, a.Left u ∧ b.Right v ∧ (a.IsText ∨ b.IsText) :=
      merge?_steady ha.isSteady hb.isSteady
    · cases hnone.symm.trans h
    · exact ⟨hu.ne_plus, hv.ne_plus⟩
  obtain hnone | ⟨u, us, vs, hu, hus, hvs, hstring, -⟩ : a.merge? print b = .ok none ∨
      ∃ u us vs, a.merge? print b = .ok (some u) ∧ a.Spells us ∧ b.Spells vs ∧
        Json.IsString u (us ++ vs) ∧ (a.IsLiteral ∨ b.IsLiteral) :=
    merge?_operands (ha.isOperand hne.1) (hb.isOperand hne.2)
  · cases hnone.symm.trans h
  · obtain rfl : u = t := Option.some.inj (Except.ok.inj (hu.symm.trans h))
    exact ⟨us, vs, hus, hvs, hstring⟩

end Item

open Item

variable {xs ys : List (Item ρ)}

/-! ## The tokens of a row -/

/-- Behind an operand that another does not follow, a word ends. -/
theorem ends_of_lexemes (hxs : ∀ x ∈ xs, x.IsLexeme)
    (h : ∀ a, (xs.flatMap tokens).head? ≠ some (.operand a)) : Ends (xs.flatMap source) := by
  induction xs with
  | nil => exact nofun
  | cons x xs ih =>
    obtain ⟨hx, hrest⟩ := List.forall_mem_cons.1 hxs
    cases hx with
    | name n => exact absurd rfl (h (.name n))
    | @int n hn => exact absurd rfl (h (.int n))
    | @literal t us ht =>
      refine absurd ?_ (h (.string us))
      rw [List.flatMap_cons, tokens_literal ht]
      rfl
    | @operators t ht =>
      rw [List.flatMap_cons, tokens_operators ht] at h
      cases t with
      | nil => exact ih hrest h
      | cons c t =>
        intro d hd
        obtain rfl : c = d := by simpa [source] using hd
        -- A part of a word would be no blank and no operator.
        rw [← Bool.not_eq_true]
        intro hpart
        obtain ⟨hblank, hsign⟩ := isBlank_of_isIdentifierPart hpart
        simp [isOperators, hblank, hsign] at ht

/-- **A row of lexemes is read token by token.** -/
theorem lex?_lexemes (hxs : ∀ x ∈ xs, x.IsLexeme) (hapart : Apart (xs.flatMap tokens)) :
    lex? (xs.flatMap source) = some (xs.flatMap tokens) := by
  induction xs with
  | nil => rw [List.flatMap_nil, lex?, List.flatMap_nil]
  | cons x xs ih =>
    obtain ⟨hx, hxs⟩ := List.forall_mem_cons.1 hxs
    rw [List.flatMap_cons] at hapart ⊢
    have hrest : lex? (xs.flatMap source) = some (xs.flatMap tokens) := ih hxs hapart.of_append
    have hends : ∀ {a : Atom}, x.tokens = [.operand a] → Ends (xs.flatMap source) := by
      intro a ha
      refine ends_of_lexemes hxs fun b hb => ?_
      obtain ⟨r, hr⟩ := List.head?_eq_some_iff.1 hb
      exact hapart [] a b r (by rw [ha, hr]; rfl)
    rw [List.flatMap_cons]
    cases hx with
    | name n => exact (lex?_name n (hends rfl)).trans (by rw [hrest]; rfl)
    | @int n hn => exact (lex?_int n (hends rfl)).trans (by rw [hrest]; rfl)
    | literal ht => exact (lex?_string ht _).trans (by rw [hrest, tokens_literal ht]; rfl)
    | operators ht => exact (lex?_operators ht).trans (by rw [hrest, tokens_operators ht]; rfl)

/-- So the value of its text is that of the sum of products it is read as. -/
theorem formula?_lexemes {A : Arithmetic} {E : A.toRuntime.Environment} {ps : List (List Atom)}
    (hxs : ∀ x ∈ xs, x.IsLexeme) (hps : products? (xs.flatMap tokens) = some ps) :
    A.formula? E (xs.flatMap source) = Runtime.total? (A.product? E) ps :=
  Arithmetic.formula?_of_lex? (lex?_lexemes hxs (apart_of_products? hps)) hps

/-! ## Merges in a formula -/

namespace Folded

variable {print : List (Item ρ) → ρ → Except Failure Text}

/-- No merge that the row can come to takes a factor of a product for an
operand. -/
def SparesFactors (print : List (Item ρ) → ρ → Except Failure Text) (xs : List (Item ρ)) : Prop :=
  ∀ l a b r t, ReflTransGen (Merges print) xs (l ++ a :: .plus :: b :: r) →
    a.merge? (print (l ++ a :: .plus :: b :: r)) b = .ok (some t) →
    (l.flatMap tokens).getLast? ≠ some .times ∧ (r.flatMap tokens).head? ≠ some .times

/-- A merge of lexemes leaves lexemes. -/
theorem Merges.isLexeme (h : Merges print xs ys) (hxs : ∀ x ∈ xs, x.IsLexeme) :
    ∀ y ∈ ys, y.IsLexeme := by
  obtain @⟨l, r, a, b, t, hm⟩ := h
  obtain ⟨us, vs, -, -, hstring⟩ := (hxs a (by simp)).merge (hxs b (by simp)) hm
  simp only [List.forall_mem_append, List.forall_mem_cons] at hxs ⊢
  exact ⟨hxs.1, .literal hstring, hxs.2.2.2.2⟩

/-- Where the operator `+` alone is between constants, no `*` is beside them. -/
def PlainSums (xs : List (Item ρ)) : Prop :=
  ∀ l a b r us vs, xs = l ++ a :: .plus :: b :: r → a.Spells us → b.Spells vs →
    (l.flatMap tokens).getLast? ≠ some .times ∧ (r.flatMap tokens).head? ≠ some .times

/-- With one operator `+` alone, it is enough to look at the neighbours of
its operands. -/
theorem plainSums_of_one {l r : List (Item ρ)} {a b : Item ρ} (ha : .plus ∉ l ++ [a])
    (hb : .plus ∉ b :: r) (hl : (l.flatMap tokens).getLast? ≠ some .times)
    (hr : (r.flatMap tokens).head? ≠ some .times) : PlainSums (l ++ a :: .plus :: b :: r) := by
  intro l' a' b' r' us vs hsplit _ _
  have hcut : (l' ++ [a']) ++ .plus :: (b' :: r') = (l ++ [a]) ++ .plus :: (b :: r) := by
    simpa using hsplit.symm
  obtain ⟨hleft, -, hright⟩ := (List.append_cons_inj_of_notMem ha hb).1 hcut.symm
  obtain ⟨rfl, -⟩ := List.append_inj' hleft rfl
  obtain ⟨-, rfl⟩ := List.cons.inj hright
  exact ⟨hl, hr⟩

/-- The last token is that of the items behind a literal, if they have any. -/
theorem getLast?_literal_ne_times {l l' xs : List (Item ρ)} {t : Text} {us : List Nat}
    (ht : Json.IsString t us) (h : ((l' ++ xs).flatMap tokens).getLast? ≠ some .times) :
    ((l ++ .text t :: xs).flatMap tokens).getLast? ≠ some .times := by
  simp only [List.flatMap_append, List.flatMap_cons, tokens_literal ht, List.getLast?_append]
    at h ⊢
  cases hlast : (xs.flatMap tokens).getLast? with
  | none => simp
  | some k => simpa [hlast] using h

/-- And the first is that of the items in front of it. -/
theorem head?_literal_ne_times {r r' xs : List (Item ρ)} {t : Text} {us : List Nat}
    (ht : Json.IsString t us) (h : ((xs ++ r').flatMap tokens).head? ≠ some .times) :
    ((xs ++ .text t :: r).flatMap tokens).head? ≠ some .times := by
  simp only [List.flatMap_append, List.flatMap_cons, tokens_literal ht, List.head?_append] at h ⊢
  cases hhead : (xs.flatMap tokens).head? with
  | none => simp
  | some k => simpa [hhead] using h

/-- A merge keeps this: what is next to the literal it leaves was next to
one of the operands. -/
theorem Merges.plainSums (h : Merges print xs ys) (hxs : ∀ x ∈ xs, x.IsLexeme)
    (hplain : PlainSums xs) : PlainSums ys := by
  obtain @⟨l, r, a, b, t, hm⟩ := h
  obtain ⟨us, vs, hus, hvs, hstring⟩ := (hxs a (by simp)).merge (hxs b (by simp)) hm
  obtain ⟨hl, hr⟩ := hplain l a b r us vs rfl hus hvs
  intro l' a' b' r' us' vs' hsplit ha' hb'
  -- The literal is the left operand, the right one, or on either side of the two.
  have hleft (hl' : l' = l) (hr' : r = .plus :: b' :: r') :
      (l'.flatMap tokens).getLast? ≠ some .times ∧ (r'.flatMap tokens).head? ≠ some .times :=
    ⟨hl' ▸ hl, (hplain (l ++ [a, .plus]) b b' r' vs vs' (by simp [hr']) hvs hb').2⟩
  rcases List.append_eq_append_iff.1 hsplit with ⟨as, rfl, has⟩ | ⟨as, rfl, has⟩
  · match as with
    | [] => exact hleft (by simp) (by simpa using (List.cons.inj has).2)
    | x :: as =>
      obtain ⟨rfl, rfl⟩ : .text t = x ∧ r = as ++ a' :: .plus :: b' :: r' := by simpa using has
      obtain ⟨hlast, hhead⟩ :=
        hplain (l ++ a :: .plus :: b :: as) a' b' r' us' vs' (by simp) ha' hb'
      have hlast : ((l ++ [a, .plus, b] ++ as).flatMap tokens).getLast? ≠ some .times := by
        simpa using hlast
      exact ⟨getLast?_literal_ne_times hstring hlast, hhead⟩
  · match as with
    | [] => exact hleft (by simp) (by simpa using (List.cons.inj has).2.symm)
    | [x] =>
      obtain ⟨-, hplus, -⟩ : a' = x ∧ (.plus : Item ρ) = .text t ∧ b' :: r' = r := by
        simpa using has
      exact absurd hplus.symm (IsOperand.literal hstring).ne_plus
    | [x, y] =>
      obtain ⟨rfl, rfl, rfl, rfl⟩ : a' = x ∧ .plus = y ∧ b' = .text t ∧ r' = r := by
        simpa using has
      exact ⟨(hplain l' a' a (.plus :: b :: r') us' us (by simp) ha' hus).1, hr⟩
    | x :: y :: z :: as =>
      obtain ⟨rfl, rfl, rfl, rfl⟩ : a' = x ∧ .plus = y ∧ b' = z ∧ r' = as ++ .text t :: r := by
        simpa using has
      obtain ⟨hlast, hhead⟩ :=
        hplain l' a' b' (as ++ a :: .plus :: b :: r) us' vs' (by simp) ha' hb'
      exact ⟨hlast, head?_literal_ne_times hstring hhead⟩

/-- **Plain sums are folded without taking a factor.** -/
theorem PlainSums.sparesFactors (h : PlainSums xs) (hxs : ∀ x ∈ xs, x.IsLexeme) :
    SparesFactors print xs := by
  have hkeeps : ∀ {ys}, ReflTransGen (Merges print) xs ys →
      (∀ y ∈ ys, y.IsLexeme) ∧ PlainSums ys := by
    intro ys hreach
    induction hreach with
    | refl => exact ⟨hxs, h⟩
    | tail _ hstep ih => exact ⟨hstep.isLexeme ih.1, hstep.plainSums ih.1 ih.2⟩
  intro l a b r t hreach hm
  obtain ⟨hlexemes, hplain⟩ := hkeeps hreach
  obtain ⟨us, vs, hus, hvs, -⟩ := (hlexemes a (by simp)).merge (hlexemes b (by simp)) hm
  exact hplain l a b r us vs rfl hus hvs

/-- **Merges that spare the factors** leave a sum of products with the same
texts, if the numbers among them are echoed. -/
theorem products?_of_reaches {ps : List (List Atom)} (h : ReflTransGen (Merges print) xs ys)
    (hxs : ∀ x ∈ xs, x.IsLexeme) (hspares : SparesFactors print xs)
    (hps : products? (xs.flatMap tokens) = some ps) :
    (∀ y ∈ ys, y.IsLexeme) ∧ ∃ qs, products? (ys.flatMap tokens) = some qs ∧
      (∀ n, [.int n] ∈ qs → [.int n] ∈ ps) ∧
      ∀ (A : Arithmetic) (E : A.toRuntime.Environment),
        A.EchoesInts ps → A.spelled? E qs = A.spelled? E ps := by
  induction h with
  | refl => exact ⟨hxs, ps, hps, fun _ => id, fun _ _ _ => rfl⟩
  | tail hreach hstep ih =>
    obtain ⟨hlexemes, qs, hqs, hints, hspelled⟩ := ih
    have hmerged := hstep.isLexeme hlexemes
    obtain @⟨l, r, a, b, t, hm⟩ := hstep
    have ha : a.IsLexeme := hlexemes a (by simp)
    have hb : b.IsLexeme := hlexemes b (by simp)
    obtain ⟨us, vs, hus, hvs, hstring⟩ := ha.merge hb hm
    obtain ⟨c, hc, hctext⟩ := ha.exists_atom hus
    obtain ⟨d, hd, hdtext⟩ := hb.exists_atom hvs
    obtain ⟨hl, hr⟩ := hspares l a b r t hreach hm
    -- The tokens of the operands give way to that of the string of both.
    have hbefore : (l ++ a :: .plus :: b :: r).flatMap tokens =
        l.flatMap tokens ++ .operand c :: .plus :: .operand d :: r.flatMap tokens := by
      simp only [List.flatMap_append, List.flatMap_cons, hc, hd]
      rfl
    have hafter : (l ++ .text t :: r).flatMap tokens =
        l.flatMap tokens ++ .operand (.string (us ++ vs)) :: r.flatMap tokens := by
      simp only [List.flatMap_append, List.flatMap_cons, tokens_literal hstring]
      rfl
    rw [hbefore] at hqs
    obtain ⟨p, q, rfl, hpq⟩ := products?_merge hl hr hqs (.string (us ++ vs))
    refine ⟨hmerged, _, hafter ▸ hpq, fun n hn => hints n ?_, fun A E hA => ?_⟩
    · have hn : [.int n] ∈ p ∨ [.int n] ∈ q := by simpa using hn
      rcases hn with hn | hn <;> simp [hn]
    · have hmem : ∀ k ∈ [c, d], A.EchoesInts [[k]] := by
        intro k hk n hn
        obtain rfl : .int n = k := by simpa using hn
        refine hA n (hints n ?_)
        rcases List.mem_pair.1 hk with rfl | rfl <;> simp
      rw [Arithmetic.spelled?_merge (hctext A E (hmem c (by simp))) (hdtext A E (hmem d (by simp))),
        hspelled A E hA]

end Folded

open Folded

/-! ## A row between other items -/

/-- An item that merges with nothing, and is not the operator. -/
def Item.IsInert (x : Item ρ) : Prop :=
  x ≠ .plus ∧ ∀ (y : Item ρ) (print : ρ → Except Failure Text),
    x.merge? print y = .ok none ∧ y.merge? print x = .ok none

/-- Blanks merge with nothing. -/
theorem isInert_of_isOperators {t : Text} (ht : isOperators t = true)
    (hnone : t.filterMap sign? = []) : (.text t : Item ρ).IsInert := by
  obtain ⟨hstart, hend⟩ := not_quoted_of_isOperators ht
  refine ⟨fun hplus => ?_, fun y print => ⟨?_, ?_⟩⟩
  · obtain rfl : t = plusText := Item.text.inj hplus
    cases hnone
  · cases y <;> simp [merge?, hend]
  · cases y <;> simp [merge?, hstart]

variable {print : List (Item ρ) → ρ → Except Failure Text} {l r zs : List (Item ρ)} {b c : Item ρ}

/-- A row in which nothing merges stays so between inert items. -/
theorem quiet_between (hzs : Quiet zs) (hb : b.IsInert) (hc : c.IsInert) :
    Quiet (b :: zs ++ [c]) := by
  intro l x y r hsplit print
  rcases l with _ | ⟨z, l⟩
  · obtain ⟨rfl, -⟩ := List.cons.inj hsplit
    exact (hb.2 y print).1
  · obtain ⟨-, hsplit⟩ := List.cons.inj hsplit
    rcases List.eq_nil_or_concat r with rfl | ⟨r, w, rfl⟩
    · have hlast : zs ++ [c] = (l ++ [x, .plus]) ++ [y] := by simpa using hsplit
      obtain rfl : c = y := by simpa using (List.append_inj' hlast rfl).2
      exact (hc.2 x print).2
    · have hinner : zs ++ [c] = (l ++ x :: .plus :: y :: r) ++ [w] := by simpa using hsplit
      exact hzs l x y r (List.append_inj' hinner rfl).1 print

/-- **Between inert items a row is folded by itself**, if nothing else merges. -/
theorem fold_between (hsteady : Steady (l ++ [b] ++ zs ++ c :: r)) (hb : b.IsInert)
    (hc : c.IsInert) (hl : Quiet (l ++ [b])) (hr : Quiet (c :: r)) :
    (fold print (l ++ [b] ++ zs ++ c :: r)).items =
      l ++ [b] ++ (fold print zs).items ++ c :: r := by
  have hzs : Steady zs := hsteady.of_append
  have hquiet : Quiet (fold print zs).items := fold_quiet (fold_steady_failure? hzs)
  have hall : Quiet (l ++ [b] ++ (fold print zs).items ++ c :: r) := by
    have hmiddle : Quiet (b :: (fold print zs).items ++ c :: r) :=
      (windows_append_cons hc.1).2 ⟨quiet_between hquiet hb hc, hr⟩
    have hwhole : Quiet (l ++ b :: ((fold print zs).items ++ c :: r)) :=
      (windows_append_cons hb.1).2 ⟨hl, hmiddle⟩
    simpa using hwhole
  exact fold_eq_of_reaches hsteady (reaches_append (fold_reaches zs) hzs (l ++ [b]) (c :: r))
    fun _ => hall.not_merges

end Splice
