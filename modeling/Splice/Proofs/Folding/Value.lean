import Splice.Proofs.Build
import Splice.Proofs.Folding.Scan
import Splice.Proofs.JavaScript.Concatenation
/-!
# Folding — the value of a chain of operands

A chain is operands with the operator `+` between neighbours: quoted
literals, scalars, names, and code that neither begins nor ends with a
quote. A merge takes two constant operands, one of them a literal, and
puts the literal with both texts in their place (`merge?_operands`). So
every merge keeps what is written in the chain (`written?_merge`), and so
does the fold (`fold_operands`).

With a literal among the first two operands the value is the texts of all
in a row, since every sum from there on is a string, and every merge keeps
a literal among the first two. Scalars add the text that they have at run
time, and literals have taken in the text that is written for them: where
that is the same, the fold keeps the value of the chain (`evaluate?_fold`),
whatever adding does on two values that are no strings.
-/

namespace Splice

variable {ρ : Type} {print : List (Item ρ) → ρ → Except Failure Text}

namespace Item

/-- An operand that is a quoted literal. -/
def IsLiteral (x : Item ρ) : Prop := ∃ t us, x = .text t ∧ Json.IsString t us

/-- An operand of a chain. -/
inductive IsOperand : Item ρ → Prop
  /-- A complete quoted literal. -/
  | literal {t : Text} {us : List Nat} : Json.IsString t us → IsOperand (.text t)
  /-- A scalar that can be written. -/
  | scalar {c : Scalar} {t : Text} : c.render = .ok t → IsOperand (.scalar c)
  /-- A name. -/
  | name (n : Name) : IsOperand (.name n)
  /-- Code without a quote at either end. -/
  | code {t : Text} : t.startsQuoted = false → t.endsQuoted = false → t ≠ plusText →
      IsOperand (.text t)

/-- A constant operand, with the code units that it adds to a string. -/
inductive Spells : Item ρ → List Nat → Prop
  /-- A literal adds what it stands for. -/
  | literal {t : Text} {us : List Nat} : Json.IsString t us → Spells (.text t) us
  /-- A scalar adds what is written for it. -/
  | scalar {c : Scalar} {t : Text} : c.render = .ok t → Spells (.scalar c) t.units

/-- The operator is no operand. -/
theorem IsOperand.ne_plus {x : Item ρ} (h : x.IsOperand) : x ≠ plus := by
  rintro rfl
  cases h with
  | literal h => exact absurd h.startsQuoted (by decide)
  | code _ _ h => exact h rfl

theorem IsLiteral.startsQuoted {x : Item ρ} (h : x.IsLiteral) : x.startsQuoted = true := by
  obtain ⟨t, us, rfl, ht⟩ := h
  exact ht.startsQuoted

/-- An operand that begins with a quote is a literal. -/
theorem IsOperand.isLiteral {x : Item ρ} (h : x.IsOperand) (hquote : x.startsQuoted = true) :
    x.IsLiteral := by
  cases h with
  | literal ht => exact ⟨_, _, rfl, ht⟩
  | scalar => cases hquote
  | name => cases hquote
  | code hstart => exact absurd (hstart.symm.trans hquote) (by decide)

/-- **A merge of two operands** never fails. If it comes to something, both
are constant, one is a literal, and the result is the literal with both
texts. -/
theorem merge?_operands {print : ρ → Except Failure Text} {a b : Item ρ} (ha : a.IsOperand)
    (hb : b.IsOperand) :
    a.merge? print b = .ok none ∨
      ∃ t us vs, a.merge? print b = .ok (some t) ∧ a.Spells us ∧ b.Spells vs ∧
        Json.IsString t (us ++ vs) ∧ (a.IsLiteral ∨ b.IsLiteral) := by
  -- The quotes that a merge looks for are those of literals: other code has none at its ends.
  cases ha with
  | name n => exact .inl rfl
  | scalar hc =>
    cases hb with
    | name n => exact .inl rfl
    | scalar hd => exact .inl rfl
    | literal hu =>
      refine .inr ⟨_, _, _, ?_, .scalar hc, .literal hu,
        .absorb_left (.of_plain (Scalar.plain_render hc)) hu, .inr ⟨_, _, rfl, hu⟩⟩
      simp [merge?, hu.startsQuoted, render, hc]
    | code hstart hend hplus => exact .inl (by simp [merge?, hstart])
  | literal ht =>
    cases hb with
    | name n => exact .inl rfl
    | scalar hd =>
      refine .inr ⟨_, _, _, ?_, .literal ht, .scalar hd,
        ht.absorb_right (.of_plain (Scalar.plain_render hd)), .inl ⟨_, _, rfl, ht⟩⟩
      simp [merge?, ht.endsQuoted, render, hd]
    | literal hu =>
      refine .inr ⟨_, _, _, ?_, .literal ht, .literal hu, ht.seam hu, .inl ⟨_, _, rfl, ht⟩⟩
      simp [merge?, ht.endsQuoted, hu.startsQuoted]
    | code hstart hend hplus => exact .inl (by simp [merge?, hstart])
  | code hstart hend hplus =>
    cases hb with
    | name n => exact .inl rfl
    | scalar hd => exact .inl (by simp [merge?, hend])
    | literal hu => exact .inl (by simp [merge?, hend])
    | code hstart' hend' hplus' => exact .inl (by simp [merge?, hend])

end Item

/-! ## A window in a chain -/

section Window

variable {α : Type} {sep : α}

theorem tail_intersperse_congr (x y : α) (xs : List α) :
    ((x :: xs).intersperse sep).tail = ((y :: xs).intersperse sep).tail := by
  cases xs <;> rfl

theorem intersperse_cons_of_ne_nil (x : α) {xs : List α} (h : xs ≠ []) :
    (x :: xs).intersperse sep = x :: sep :: xs.intersperse sep := by
  cases xs with
  | nil => exact absurd rfl h
  | cons y ys => exact List.intersperse_cons_cons

theorem intersperse_append {xs ys : List α} (hx : xs ≠ []) (hy : ys ≠ []) :
    (xs ++ ys).intersperse sep = xs.intersperse sep ++ sep :: ys.intersperse sep := by
  induction xs with
  | nil => exact absurd rfl hx
  | cons x xs ih =>
    cases xs with
    | nil => exact intersperse_cons_of_ne_nil x hy
    | cons z xs =>
      rw [List.cons_append, intersperse_cons_of_ne_nil x (by simp), ih (by simp),
        List.intersperse_cons_cons]
      rfl

theorem intersperse_eq_nil {xs : List α} : xs.intersperse sep = [] ↔ xs = [] := by
  match xs with
  | [] => simp
  | [x] => simp
  | x :: y :: xs => simp

theorem intersperse_inj : ∀ {xs ys : List α}, xs.intersperse sep = ys.intersperse sep → xs = ys
  | [], ys, h => (intersperse_eq_nil.1 h.symm).symm
  | xs, [], h => intersperse_eq_nil.1 h
  | [x], [y], h => by simpa using h
  | [x], y :: z :: ys, h => by simp [List.intersperse_cons_cons] at h
  | x :: w :: xs, [y], h => by simp [List.intersperse_cons_cons] at h
  | x :: w :: xs, y :: z :: ys, h => by
    simp only [List.intersperse_cons_cons, List.cons.injEq, true_and] at h
    rw [h.1, intersperse_inj h.2]

/-- Between elements there is nothing but the separator. -/
theorem mem_intersperse {a : α} {xs : List α} (ha : a ≠ sep) :
    a ∈ xs.intersperse sep ↔ a ∈ xs := by
  match xs with
  | [] => rfl
  | [x] => rfl
  | x :: y :: xs =>
    rw [List.intersperse_cons_cons, List.mem_cons, List.mem_cons, mem_intersperse ha, List.mem_cons]
    simp [ha]

/-- **Two elements around a separator are neighbours**, if the separator is
no element, and one element may stand in for both. -/
theorem intersperse_window {a b : α} : ∀ {xs l r : List α}, (∀ x ∈ xs, x ≠ sep) →
    xs.intersperse sep = l ++ a :: sep :: b :: r →
    ∃ before after, xs = before ++ a :: b :: after ∧
      ∀ x, (before ++ x :: after).intersperse sep = l ++ x :: r
  | [], l, r, _, h => by simp at h
  | [x], l, r, _, h => by
    have hlen := congrArg List.length h
    simp only [List.intersperse_singleton, List.length_append, List.length_cons,
      List.length_nil] at hlen
    omega
  | x :: y :: xs, [], r, _, h => by
    rw [List.intersperse_cons_cons, intersperse_eq_cons_tail, List.nil_append] at h
    injection h with hx h
    injection h with _ h
    injection h with hy h
    subst hx hy
    refine ⟨[], xs, rfl, fun z => ?_⟩
    rw [List.nil_append, intersperse_eq_cons_tail, tail_intersperse_congr z y, h]
    rfl
  | x :: y :: xs, [c], r, hsep, h => by
    rw [List.intersperse_cons_cons, intersperse_eq_cons_tail] at h
    simp only [List.cons_append, List.nil_append, List.cons.injEq] at h
    exact absurd h.2.2.1 (hsep y (by simp))
  | x :: y :: xs, c :: d :: l, r, hsep, h => by
    rw [List.intersperse_cons_cons] at h
    simp only [List.cons_append, List.cons.injEq] at h
    obtain ⟨rfl, rfl, h⟩ := h
    obtain ⟨before, after, hxs, hmerged⟩ :=
      intersperse_window (fun z hz => hsep z (List.mem_cons_of_mem _ hz)) h
    refine ⟨x :: before, after, by rw [hxs]; rfl, fun z => ?_⟩
    rw [List.cons_append, intersperse_cons_of_ne_nil x (by simp), hmerged]
    rfl

end Window

/-! ## The value -/

namespace JavaScript.Runtime

variable {J : Runtime}

theorem echoesAll_intersperse {ops : List (Item ρ)} :
    J.EchoesAll (ops.intersperse .plus) ↔ J.EchoesAll ops := by
  refine forall_congr' fun c => ?_
  have hne : (.scalar c : Item ρ) ≠ .plus := nofun
  rw [mem_intersperse hne]

namespace Environment

variable (E : J.Environment)

/-- A constant operand is written as the text that it spells. -/
theorem writtenText?_of_spells {a : Item ρ} {us : List Nat} (h : a.Spells us) :
    E.writtenText? a = some us := by
  cases h with
  | literal h =>
    change (E.operand? _).bind J.toText? = some us
    rw [E.operand?_of_isString h]
    rfl
  | scalar h => exact E.writtenText?_scalar h

theorem written?_append (xs ys : List (Item ρ)) :
    E.written? (xs ++ ys) =
      (E.written? xs).bind fun us => (E.written? ys).map fun vs => us ++ vs :=
  concat?_append xs ys

/-- **A merge keeps what is written**: two constants are written as the
literal with both texts. -/
theorem written?_merge {before after : List (Item ρ)} {a b : Item ρ} {t : Text}
    {us vs : List Nat} (ha : a.Spells us) (hb : b.Spells vs) (ht : Json.IsString t (us ++ vs)) :
    E.written? (before ++ .text t :: after) = E.written? (before ++ a :: b :: after) := by
  have htext : E.writtenText? (.text t : Item ρ) = some (us ++ vs) :=
    E.writtenText?_of_spells (.literal ht)
  simp only [written?, concat?_append, concat?, htext, E.writtenText?_of_spells ha,
    E.writtenText?_of_spells hb, Option.bind_some]
  cases concat? E.writtenText? before <;> cases concat? E.writtenText? after <;> simp

variable {ops : List (Item ρ)}

/-- **Operands spell what is written** if the scalars among them are echoed. -/
theorem spelled?_eq_written? (hops : ∀ x ∈ ops, x.IsOperand) (hJ : J.EchoesAll ops) :
    E.spelled? ops = E.written? ops := by
  refine concat?_congr fun x hx => ?_
  cases hops x hx with
  | scalar hc => rw [E.text?_scalar (hJ _ hx) hc, E.writtenText?_scalar hc]
  | _ => rfl

/-- **Operands are written** where every variable and all code has a text. -/
theorem exists_written? (hnames : ∀ n, ∃ us, J.toText? (E.names n) = some us)
    (hcode : ∀ t, ∃ us, J.toText? (E.code t) = some us) (hops : ∀ x ∈ ops, x.IsOperand) :
    ∃ us, E.written? ops = some us := by
  induction ops with
  | nil => exact ⟨[], rfl⟩
  | cons x xs ih =>
    obtain ⟨hx, hxs⟩ := List.forall_mem_cons.1 hops
    obtain ⟨vs, hvs⟩ := ih hxs
    obtain ⟨us, hus⟩ : ∃ us, E.writtenText? x = some us := by
      cases hx with
      | literal ht => exact ⟨_, E.writtenText?_of_spells (.literal ht)⟩
      | scalar hc => exact ⟨_, E.writtenText?_scalar hc⟩
      | name n => exact hnames n
      | @code t hstart =>
        obtain ⟨us, hus⟩ := hcode t
        refine ⟨us, ?_⟩
        change (E.operand? (.text t : Item ρ)).bind J.toText? = some us
        rw [operand?, hstart]
        exact hus
    refine ⟨us ++ vs, ?_⟩
    rw [written?] at hvs ⊢
    rw [concat?, hus, hvs]
    rfl

/-- A literal is a string. -/
theorem operand?_of_isLiteral {a : Item ρ} (h : a.IsLiteral) :
    ∃ us, E.operand? a = some (.string us) := by
  obtain ⟨t, us, rfl, h⟩ := h
  exact ⟨us, E.operand?_of_isString h⟩

/-- **With a literal among the first two operands**, the value is the texts
of all of them in a row. -/
theorem evaluate?_of_literal (hliteral : ∃ x ∈ ops.take 2, x.IsLiteral) :
    E.evaluate? (ops.intersperse .plus) = (E.spelled? ops).map .string := by
  obtain ⟨x, hx, hliteral⟩ := hliteral
  obtain ⟨us, hus⟩ := E.operand?_of_isLiteral hliteral
  match ops with
  | [] => cases hx
  | [y] =>
    obtain rfl : x = y := by simpa using hx
    exact E.evaluate?_of_string hus []
  | y :: z :: ops =>
    obtain rfl | rfl : x = y ∨ x = z := by simpa using hx
    · exact E.evaluate?_of_string hus (z :: ops)
    · exact E.evaluate?_of_string_second hus ops

/-- If the scalars among them are echoed, that is what is written. -/
theorem evaluate?_of_echoesAll (hops : ∀ x ∈ ops, x.IsOperand)
    (hliteral : ∃ x ∈ ops.take 2, x.IsLiteral) (hJ : J.EchoesAll ops) :
    E.evaluate? (ops.intersperse .plus) = (E.written? ops).map .string := by
  rw [E.evaluate?_of_literal hliteral, E.spelled?_eq_written? hops hJ]

end Environment

end JavaScript.Runtime

/-! ## The fold -/

section Fold

variable (print) {Q : List (Item ρ) → Prop} {ops : List (Item ρ)}

/-- **What every merge of two constants keeps, a fold of a chain keeps.**
It does not fail, and what it leaves is a chain again. -/
theorem fold_chain
    (keeps : ∀ {before after : List (Item ρ)} {a b : Item ρ} {t : Text} {us vs : List Nat},
      a.Spells us → b.Spells vs → Json.IsString t (us ++ vs) → a.IsLiteral ∨ b.IsLiteral →
      Q (before ++ a :: b :: after) → Q (before ++ .text t :: after))
    (hops : ∀ x ∈ ops, x.IsOperand) (h : Q ops) :
    (fold print (ops.intersperse .plus)).failure? = none ∧
      ∃ ops', (fold print (ops.intersperse .plus)).items = ops'.intersperse .plus ∧
        (∀ x ∈ ops', x.IsOperand) ∧ Q ops' := by
  let P (xs : List (Item ρ)) : Prop :=
    ∃ ops' : List (Item ρ), xs = ops'.intersperse .plus ∧ (∀ x ∈ ops', x.IsOperand) ∧ Q ops'
  have hstart : P (ops.intersperse .plus) := ⟨ops, rfl, hops, h⟩
  -- In a chain an operator is a separator, so what is merged are two neighbours of `ops'`.
  have hmerge : ∀ {xs ys}, Folded.Merges print xs ys → P xs → P ys := by
    rintro _ _ (@⟨l, r, a, b, t, hm⟩) ⟨ops', hxs, hall, hQ⟩
    obtain ⟨before, after, rfl, hwindow⟩ :=
      intersperse_window (fun x hx => (hall x hx).ne_plus) hxs.symm
    simp only [List.mem_append, List.mem_cons] at hall
    rcases Item.merge?_operands (hall _ (.inr (.inl rfl))) (hall _ (.inr (.inr (.inl rfl))))
      with hnone | ⟨u, us, vs, hu, ha, hb, hstring, hliteral⟩
    · cases hnone.symm.trans hm
    · obtain rfl : u = t := Option.some.inj (Except.ok.inj (hu.symm.trans hm))
      refine ⟨before ++ .text u :: after, (hwindow _).symm, fun x hx => ?_,
        keeps ha hb hstring hliteral hQ⟩
      rcases List.mem_append.1 hx with hx | hx
      · exact hall x (.inl hx)
      · rcases List.mem_cons.1 hx with rfl | hx
        · exact .literal hstring
        · exact hall x (.inr (.inr (.inr hx)))
  refine ⟨fold_failure? hmerge ?_ hstart, fold_keeps hmerge hstart⟩
  rintro l r a b ⟨ops', hxs, hall, -⟩
  obtain ⟨before, after, rfl, -⟩ := intersperse_window (fun x hx => (hall x hx).ne_plus) hxs.symm
  rcases Item.merge?_operands (hall a (by simp)) (hall b (by simp)) with hnone | ⟨t, _, _, ht, -⟩
  · exact ⟨none, hnone⟩
  · exact ⟨some t, ht⟩

/-- A merge leaves a literal among the first two operands. -/
theorem exists_literal_merge {before after : List (Item ρ)} {a b : Item ρ} {t : Text}
    {us : List Nat} (ht : Json.IsString t us)
    (h : ∃ x ∈ (before ++ a :: b :: after).take 2, x.IsLiteral) :
    ∃ x ∈ (before ++ .text t :: after).take 2, x.IsLiteral := by
  have hliteral : (Item.text t : Item ρ).IsLiteral := ⟨t, us, rfl, ht⟩
  match before, h with
  | [], _ => exact ⟨.text t, by simp, hliteral⟩
  | [p], _ => exact ⟨.text t, by simp, hliteral⟩
  | p :: q :: before, ⟨x, hx, hliteral⟩ => exact ⟨x, by simpa using hx, hliteral⟩

/-- **What a fold of operands leaves** are operands that are written as
before. A literal stays among the first two, and no scalar is new. -/
theorem fold_operands (hops : ∀ x ∈ ops, x.IsOperand)
    (hliteral : ∃ x ∈ ops.take 2, x.IsLiteral) :
    (fold print (ops.intersperse .plus)).failure? = none ∧
      ∃ ops', (fold print (ops.intersperse .plus)).items = ops'.intersperse .plus ∧
        (∀ x ∈ ops', x.IsOperand) ∧ (∃ x ∈ ops'.take 2, x.IsLiteral) ∧
        (∀ c, .scalar c ∈ ops' → .scalar c ∈ ops) ∧
        ∀ {J : JavaScript.Runtime} (E : J.Environment), E.written? ops' = E.written? ops := by
  let Q (ops' : List (Item ρ)) : Prop := (∃ x ∈ ops'.take 2, x.IsLiteral) ∧
    (∀ c, .scalar c ∈ ops' → .scalar c ∈ ops) ∧
      ∀ {J : JavaScript.Runtime} (E : J.Environment), E.written? ops' = E.written? ops
  have hkeeps : ∀ {before after : List (Item ρ)} {a b : Item ρ} {t : Text} {us vs : List Nat},
      a.Spells us → b.Spells vs → Json.IsString t (us ++ vs) → a.IsLiteral ∨ b.IsLiteral →
      Q (before ++ a :: b :: after) → Q (before ++ .text t :: after) := by
    rintro before after a b t us vs ha hb ht - ⟨hfirst, hscalars, hwritten⟩
    refine ⟨exists_literal_merge ht hfirst, fun c hc => hscalars c ?_, fun E => ?_⟩
    · have hc : .scalar c ∈ before ∨ .scalar c ∈ after := by simpa using hc
      rcases hc with hc | hc <;> simp [hc]
    · rw [E.written?_merge ha hb ht]
      exact hwritten E
  exact fold_chain print hkeeps hops ⟨hliteral, fun _ => id, fun _ => rfl⟩

/-- **Folding keeps the value** of a chain with a literal among its first
two operands, if the scalars in it are echoed, and does not fail on it. -/
theorem evaluate?_fold (hops : ∀ x ∈ ops, x.IsOperand)
    (hliteral : ∃ x ∈ ops.take 2, x.IsLiteral) :
    (fold print (ops.intersperse .plus)).failure? = none ∧
      ∀ {J : JavaScript.Runtime} (E : J.Environment), J.EchoesAll ops →
        E.evaluate? (fold print (ops.intersperse .plus)).items =
          E.evaluate? (ops.intersperse .plus) := by
  obtain ⟨hnone, ops', hitems, hops', hliteral', hscalars, hwritten⟩ :=
    fold_operands print hops hliteral
  refine ⟨hnone, fun {J} E hJ => ?_⟩
  have hJ' : J.EchoesAll ops' := fun c hc => hJ c (hscalars c hc)
  rw [hitems, E.evaluate?_of_echoesAll hops' hliteral' hJ', hwritten,
    E.evaluate?_of_echoesAll hops hliteral hJ]

end Fold

/-! ## In place -/

section InPlace

variable {σ : Session} {r : Ref} {xs : List Value}

/-- How objects print while the items of a list are folded. -/
abbrev Store.printWhile (s : Store) (r : Ref) (now : List Value) : Ref → Except Failure Text :=
  (s.set r (.list now)).print

/-- A fold that does not fail leaves its items in the list it was given. -/
theorem Build.foldItems_of_list (hlist : σ.store.get r = .list xs)
    (hfold : (fold (σ.store.printWhile r) xs).failure? = none) :
    Build.foldItems (.object r) σ =
      .ok (fold (σ.store.printWhile r) xs).merges
        ⟨σ.store.set r (.list (fold (σ.store.printWhile r) xs).items), σ.log⟩ := by
  simp only [Build.foldItems]
  rw [bind_of_ok (load_apply r)]
  simp only [hlist]
  rw [bind_of_ok (ask_apply _), bind_of_ok (write_apply _ _)]
  simp only [hfold]
  rfl

/-- **Folding a list in place keeps the value of the chain in it**, where a
scalar has the text that is written for it, and changes nothing but that
list. -/
theorem Build.evaluate?_foldItems {ops : List Value}
    (hlist : σ.store.get r = .list (ops.intersperse .plus)) (hops : ∀ x ∈ ops, x.IsOperand)
    (hliteral : ∃ x ∈ ops.take 2, x.IsLiteral) :
    ∃ n ys, Build.foldItems (.object r) σ = .ok n ⟨σ.store.set r (.list ys), σ.log⟩ ∧
      ∀ (J : JavaScript.Runtime) (E : J.Environment), J.EchoesAll ops →
        E.evaluate? ys = E.evaluate? (ops.intersperse .plus) := by
  obtain ⟨hnone, hvalue⟩ := evaluate?_fold (σ.store.printWhile r) hops hliteral
  exact ⟨_, _, Build.foldItems_of_list hlist hnone, fun J E => hvalue E⟩

/-- A chain with a number before its first literal, and with a name and
code between its constants. -/
theorem Build.evaluate?_foldItems_mixed :
    let ops : List Value := [.scalar (.int 1), .text (Text.literal "a"), .scalar .null,
      .name ⟨Text.ofString "x", by decide⟩, .text "f()", .text (Text.literal "\n")]
    let σ : Session := ⟨⟨#[.list (ops.intersperse .plus)]⟩, []⟩
    ((∀ x ∈ ops, x.IsOperand) ∧ ∃ x ∈ ops.take 2, x.IsLiteral) ∧
      ∃ n ys, Build.foldItems (.object ⟨0⟩) σ = .ok n ⟨σ.store.set ⟨0⟩ (.list ys), σ.log⟩ ∧
        (∀ (J : JavaScript.Runtime) (E : J.Environment), J.EchoesAll ops →
          E.evaluate? ys = E.evaluate? (ops.intersperse .plus)) ∧
        ∀ E : (default : JavaScript.Runtime).Environment,
          E.evaluate? ys = E.evaluate? (ops.intersperse .plus) := by
  intro ops σ
  have hone : (Scalar.int 1).render = .ok (Text.ofInt 1) :=
    Scalar.render_int_of_lt (by decide)
  have hops : ∀ x ∈ ops, x.IsOperand := by
    simp only [ops, List.forall_mem_cons]
    exact ⟨.scalar hone, .literal (Text.isString_literal _), .scalar rfl, .name _,
      .code (by decide) (by decide) (by decide), .literal (Text.isString_literal _), by simp⟩
  have hliteral : ∃ x ∈ ops.take 2, x.IsLiteral :=
    ⟨.text (Text.literal "a"), by simp [ops], _, _, rfl, Text.isString_literal _⟩
  have hlist : σ.store.get ⟨0⟩ = .list (ops.intersperse .plus) := rfl
  obtain ⟨n, ys, hfold, hvalue⟩ := Build.evaluate?_foldItems hlist hops hliteral
  exact ⟨⟨hops, hliteral⟩, n, ys, hfold, hvalue, fun E => hvalue _ E fun c _ =>
    JavaScript.Runtime.echoes_default c⟩

end InPlace

end Splice
