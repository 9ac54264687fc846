import Splice.Proofs.Expression
import Splice.Proofs.Folding.Confluence
import Splice.Proofs.Literal
import Splice.Proofs.Literal.Confined
import Splice.Proofs.Store.Reach
/-!
# Templates — fragments folded before or after they are embedded

A string expression takes over the items of the fragments among its
arguments, so its items are a row in which the items of each fragment
stand somewhere, and where a fragment has been folded before, its fold
stands in their place. If all items are closed, the row can still be
merged into the one with the fold in it (`laid_reaches`), and both fold
to the same. All that is put in by the expression itself is closed, and
so is every literal (`Datum.isClosed_encode`), so it is the items of the
fragments that matter.

Data among the arguments is read off the store, and folding changes the
store. Plain data that does not reach the list that is folded contributes
the same before and after (`Store.AddsClosed.after_set`).
-/

namespace Splice

open Folded Relation

/-! ## What is put in is closed -/

namespace Text

variable {t : Text}

/-- A text with other code points than quotes at its ends. -/
theorem isClosed_of_ends {c d : CodePoint} (hc : c ≠ .char '"') (hd : d ≠ .char '"') (t : Text) :
    IsClosed (c :: t ++ [d]) := by
  have hstart : startsQuoted (c :: t ++ [d]) = false := by simpa [startsQuoted] using hc
  have hend : endsQuoted (c :: t ++ [d]) = false := by
    rw [endsQuoted, List.getLast?_concat]
    simpa using hd
  rintro (h | h)
  · exact absurd (hstart.symm.trans h) (by decide)
  · exact absurd (hend.symm.trans h) (by decide)

/-- Plain text has no quotes. -/
theorem IsPlain.isClosed (h : t.IsPlain) : t.IsClosed := by
  rintro (hq | hq)
  · have hmem : .char '"' ∈ t := List.mem_of_head? (by simpa [startsQuoted] using hq)
    exact absurd rfl (CodePoint.ne_quote_of_isPlain (h _ hmem))
  · have hmem : .char '"' ∈ t := List.mem_of_getLast? (by simpa [endsQuoted] using hq)
    exact absurd rfl (CodePoint.ne_quote_of_isPlain (h _ hmem))

theorem isClosed_literal (t : Text) : t.literal.IsClosed := by
  rw [literal_eq]
  exact isClosed_enclosed _

end Text

namespace Datum

variable {depth : Nat} {d : Datum} {t : Text}

/-- What is written is plain, or a text between quotes, or a row between
brackets. -/
theorem encodeTo_cases (h : d.encodeTo depth = .ok t) :
    t.IsPlain ∨ (∃ u : Text, t = u.encoded) ∨
      ∃ (o c : CodePoint) (ts : List Text), o.isPlain = true ∧ c.isPlain = true ∧
        t = o :: Text.join [.char ','] ts ++ [c] := by
  have hrow : ∀ {o c : CodePoint} {x : Except Fault (List Text)}, o.isPlain = true →
      c.isPlain = true →
      (do let ts ← x; return o :: Text.join [.char ','] ts ++ [c] : Except Fault Text) = .ok t →
      ∃ (o c : CodePoint) (ts : List Text), o.isPlain = true ∧ c.isPlain = true ∧
        t = o :: Text.join [.char ','] ts ++ [c] := by
    intro o c x ho hc hx
    obtain ⟨ts, -, hts⟩ := exists_of_bind_eq_ok hx
    exact ⟨o, c, ts, ho, hc, (Except.ok.inj hts).symm⟩
  cases d with
  | scalar c =>
    rw [encodeTo] at h
    exact .inl (c.plain_encode h)
  | text u =>
    rw [encodeTo] at h
    exact .inr (.inl ⟨u, (Except.ok.inj h).symm⟩)
  | list ds =>
    cases depth with
    | zero => cases h
    | succ depth => exact .inr (.inr (hrow (by decide) (by decide) h))
  | tuple ds =>
    cases depth with
    | zero => cases h
    | succ depth => exact .inr (.inr (hrow (by decide) (by decide) h))
  | dict es =>
    cases depth with
    | zero => cases h
    | succ depth => exact .inr (.inr (hrow (by decide) (by decide) h))
  | cycle c => cases c <;> cases h
  | _ => cases h

/-- **Every literal is closed**: that of a text has quotes at both ends,
and any other has none at either. -/
theorem isClosed_encode (h : d.encode = .ok t) : t.IsClosed := by
  obtain ⟨u, hu, rfl⟩ := exists_of_encode h
  rcases encodeTo_cases hu with hplain | ⟨u, rfl⟩ | ⟨o, c, ts, ho, hc, rfl⟩
  · rw [hplain.cleared]
    exact hplain.isClosed
  · exact u.isClosed_literal
  · rw [Text.cleared_bracketed ho hc]
    exact Text.isClosed_of_ends (CodePoint.ne_quote_of_isPlain ho)
      (CodePoint.ne_quote_of_isPlain hc) _

end Datum

/-! ## Rows that are merged -/

section Row

variable {print : List Value → Ref → Except Failure Text}

theorem isClosed_plus : (Item.plus : Value).IsClosed := .text (by decide)

theorem isClosed_segmentItem (t : Text) : (segmentItem t).IsClosed := .text t.isClosed_literal

theorem closed_head (t : Text) : Closed (Row.head segmentItem t) := by
  intro x hx
  obtain rfl := Row.mem_head hx
  exact isClosed_segmentItem t

theorem closed_segment (t : Text) : Closed (Row.segment Item.plus segmentItem t) := by
  intro x hx
  rcases Row.mem_segment hx with rfl | rfl
  · exact isClosed_plus
  · exact isClosed_segmentItem t

theorem closed_join {acc : List Value} (h : Closed acc) : Closed (Row.join Item.plus acc) := by
  intro x hx
  rcases Row.mem_join hx with hx | rfl
  · exact h x hx
  · exact isClosed_plus

/-- Closed blocks laid out are a closed row. -/
theorem closed_laid {acc : List Value} {rest : List (List Value × Text)} (hacc : Closed acc)
    (hrest : ∀ p ∈ rest, Closed p.1) : Closed (Row.laid Item.plus segmentItem acc rest) := by
  intro x hx
  rcases Row.mem_laid hx with hx | rfl | ⟨t, -, rfl⟩ | ⟨p, hp, hx⟩
  · exact hacc x hx
  · exact isClosed_plus
  · exact isClosed_segmentItem t
  · exact hrest p hp x hx

/-- A merge leaves something of what was there. -/
theorem isEmpty_of_reaches {xs ys : List Value} (h : ReflTransGen (Merges print) xs ys) :
    ys.isEmpty = xs.isEmpty := by
  induction h with
  | refl => rfl
  | tail _ hstep ih =>
    rw [← ih]
    obtain @⟨l, r, a, b, t, -⟩ := hstep
    cases l <;> rfl

theorem reaches_join_op {acc acc' : List Value} (hacc : Closed acc)
    (h : ReflTransGen (Merges print) acc acc') :
    ReflTransGen (Merges print) (Row.join Item.plus acc) (Row.join Item.plus acc') := by
  rw [Row.join, Row.join, isEmpty_of_reaches h]
  split
  · exact .refl
  · have hplus : Steady [(Item.plus : Value)] :=
      List.forall_mem_singleton.2 isClosed_plus.isSteady
    exact reaches_append_append hacc.steady hplus h .refl

/-- A block of closed items that is merged into another one, with the same
segment behind it. -/
structure Row.Merged (print : List Value → Ref → Except Failure Text)
    (p p' : List Value × Text) : Prop where
  closed : Closed p.1
  reaches : ReflTransGen (Merges print) p.1 p'.1
  segment : p'.2 = p.2

/-- Blocks that are merged are closed before and afterwards, and the
segments are the same. -/
theorem closed_of_merged {rest rest' : List (List Value × Text)}
    (h : List.Forall₂ (Row.Merged print) rest rest') :
    (∀ p ∈ rest, Closed p.1) ∧ (∀ p ∈ rest', Closed p.1) ∧
      rest'.map Prod.snd = rest.map Prod.snd := by
  induction h with
  | nil => exact ⟨nofun, nofun, rfl⟩
  | cons hp _ ih =>
    obtain ⟨hrest, hrest', hsegments⟩ := ih
    exact ⟨List.forall_mem_cons.2 ⟨hp.closed, hrest⟩,
      List.forall_mem_cons.2 ⟨closed_of_reaches hp.reaches hp.closed, hrest'⟩,
      by rw [List.map_cons, List.map_cons, hsegments, hp.segment]⟩

/-- **Blocks that are merged before they are laid out** might as well be
merged afterwards. -/
theorem laid_reaches {acc acc' : List Value} {rest rest' : List (List Value × Text)}
    (hacc : Closed acc) (h : ReflTransGen (Merges print) acc acc')
    (hrest : List.Forall₂ (Row.Merged print) rest rest') :
    ReflTransGen (Merges print) (Row.laid Item.plus segmentItem acc rest)
      (Row.laid Item.plus segmentItem acc' rest') := by
  induction hrest generalizing acc acc' with
  | nil => exact h
  | @cons p p' rest rest' hp _ ih =>
    obtain ⟨hclosed, hreach, hsegment⟩ := hp
    have hblock : ReflTransGen (Merges print) (Row.join Item.plus acc ++ p.1)
        (Row.join Item.plus acc' ++ p'.1) :=
      reaches_append_append (closed_join hacc).steady hclosed.steady (reaches_join_op hacc h) hreach
    rw [Row.laid, Row.laid, hsegment]
    refine ih ?_ ?_
    · exact List.forall_mem_append.2 ⟨List.forall_mem_append.2 ⟨closed_join hacc, hclosed⟩,
        closed_segment p.2⟩
    · have hfront : Closed (Row.join Item.plus acc ++ p.1) :=
        List.forall_mem_append.2 ⟨closed_join hacc, hclosed⟩
      exact reaches_append_append hfront.steady (closed_segment p.2).steady hblock .refl

end Row

/-! ## Arguments before and after -/

namespace Store

/-- An argument of a string expression that adds closed items. If it is
data, it is plain and does not reach the object `q`. -/
inductive AddsClosed (s : Store) (q : Ref) : Value → Prop
  /-- A name. -/
  | name (n : Name) : AddsClosed s q (.name n)
  /-- A scalar that can be written. -/
  | scalar {c : Scalar} {t : Text} : c.render = .ok t → AddsClosed s q (.scalar c)
  /-- Data. -/
  | data {v : Value} : s.goesInBare v = false → s.IsPlain v → ¬ s.Reaches v q → AddsClosed s q v
  /-- A fragment of closed items. -/
  | fragment {v : Value} {xs : List Value} {e : Bool} : s.Holds v xs e → Closed xs →
      AddsClosed s q v

/-- An object that refers to no other one reaches itself alone. -/
theorem Reaches.eq_of_isBare {s : Store} {r r' : Ref} (h : s.Reaches (.object r) r')
    (hr : ∀ x ∈ (s.get r).parts, x.IsBare) : r' = r := by
  cases h with
  | here r => rfl
  | through hv hr' =>
    cases hr' with
    | here r' => exact absurd rfl (hr _ hv r')
    | through _ _ => exact absurd rfl (hr _ hv _)

variable {s : Store} {q : Ref} {v : Value} {block xs ys : List Value}
  {print : List Value → Ref → Except Failure Text}

/-- What is not code adds a literal. -/
theorem Contributes.cases_data (h : s.Contributes v block) (hv : s.goesInBare v = false) :
    (∃ t, s.listed? v = none ∧ (s.datum v).encode = .ok t ∧ block = [.text t]) ∨
      ∃ xs t, s.listed? v = some xs ∧ s.joinElements xs = .ok t ∧ block = [.text t.literal] := by
  cases h with
  | name n => cases hv
  | scalar c => cases hv
  | literal _ hlisted ht => exact .inl ⟨_, hlisted, ht, rfl⟩
  | listed hlisted ht => exact .inr ⟨_, _, hlisted, ht, rfl⟩
  | fragment h =>
    obtain ⟨hr, -, -⟩ := h
    simp [goesInBare, isCode, hr] at hv

theorem AddsClosed.closed (h : s.AddsClosed q v) (hblock : s.Contributes v block) :
    Closed block := by
  cases h with
  | name n =>
    rw [hblock.unique (.name n)]
    exact List.forall_mem_singleton.2 (.name n)
  | scalar hc =>
    rw [hblock.unique (.scalar _)]
    exact List.forall_mem_singleton.2 (.scalar hc)
  | data hv _ _ =>
    rcases hblock.cases_data hv with ⟨t, -, ht, rfl⟩ | ⟨xs, t, -, -, rfl⟩
    · exact List.forall_mem_singleton.2 (.text (Datum.isClosed_encode ht))
    · exact List.forall_mem_singleton.2 (.text t.isClosed_literal)
  | fragment hholds hclosed => rwa [hblock.unique (.fragment hholds)]

/-- **After a list has been merged**, an argument adds what it has added
before, or what that is merged into. -/
theorem AddsClosed.after_set (hq : s.get q = .list xs)
    (hys : ReflTransGen (Merges print) xs ys) (h : s.AddsClosed q v)
    (hblock : s.Contributes v block) :
    ∃ block', (s.set q (.list ys)).Contributes v block' ∧
      ReflTransGen (Merges print) block block' := by
  cases h with
  | name n =>
    rw [hblock.unique (.name n)]
    exact ⟨_, .name n, .refl⟩
  | @scalar c _ hc =>
    rw [hblock.unique (.scalar _)]
    exact ⟨_, .scalar c, .refl⟩
  | data hv hplain hapart =>
    have hagree : s.AgreeOn (s.set q (.list ys)) v := by
      intro r hr
      refine get_set_ne ?_
      rintro rfl
      exact hapart hr
    refine ⟨block, ?_, .refl⟩
    rcases hblock.cases_data hv with ⟨t, hlisted, ht, rfl⟩ | ⟨zs, t, hlisted, ht, rfl⟩
    · exact .literal ((goesInBare_congr hagree).trans hv) ((listed?_congr hagree).trans hlisted)
        ((datum_congr hagree).symm ▸ ht)
    · exact .listed ((listed?_congr hagree).trans hlisted)
        ((joinElements_congr hagree hplain hlisted).trans ht)
  | fragment hholds hclosed =>
    rw [hblock.unique (.fragment hholds)]
    rcases hholds.set_list hq ys with hsame | ⟨rfl, hset⟩
    · exact ⟨_, .fragment hsame, .refl⟩
    · exact ⟨_, .fragment hset, hys⟩

/-- Arguments that are code contribute. -/
theorem AddsClosed.contributes (h : s.AddsClosed q v) (hv : s.isCode v = true) :
    ∃ block, s.Contributes v block := by
  cases h with
  | name n => exact ⟨_, .name n⟩
  | scalar hc => cases hv
  | data hbare _ _ =>
    unfold goesInBare at hbare
    split at hbare
    · cases hbare
    · exact absurd (hv.symm.trans hbare) nofun
  | fragment hholds _ => exact ⟨_, .fragment hholds⟩

/-- Blocks before and after. -/
theorem exists_blocks_after_set {args : List Value} {rest : List (List Value × Text)}
    (hq : s.get q = .list xs) (hys : ReflTransGen (Merges print) xs ys)
    (hargs : ∀ arg ∈ args, s.AddsClosed q arg) (hblocks : s.Blocks args rest) :
    ∃ rest', (s.set q (.list ys)).Blocks args rest' ∧
      List.Forall₂ (Row.Merged print) rest rest' := by
  induction hblocks with
  | nil => exact ⟨[], .nil, .nil⟩
  | @cons arg p args rest hblock _ ih =>
    obtain ⟨harg, hargs⟩ := List.forall_mem_cons.1 hargs
    obtain ⟨block', hblock', hreach⟩ := harg.after_set hq hys hblock
    obtain ⟨rest', hrest', hall⟩ := ih hargs
    exact ⟨(block', p.2) :: rest', .cons hblock' hrest',
      .cons ⟨harg.closed hblock, hreach, rfl⟩ hall⟩

end Store

/-! ## Folded before and after -/

/-- Segments are the same texts in a store in which another list is written to. -/
theorem Segments.Are.set {s : Store} {segments : Segments} {ts : List Text} {q : Ref} {o : Object}
    (h : segments.Are s ts) (hq : segments ≠ .held q) : segments.Are (s.set q o) ts := by
  cases segments with
  | fixed items => exact h
  | held r =>
    have hr : (s.set q o).get r = s.get r := Store.get_set_ne fun e => hq (e ▸ rfl)
    rw [Segments.Are, hr]
    exact h

/-- Closed items each have a text. -/
theorem Folded.Closed.exists_texts {xs : List Value} (h : Closed xs) :
    ∃ ts, List.Forall₂ (fun x t => ∀ print, Item.render print x = .ok t) xs ts := by
  induction xs with
  | nil => exact ⟨[], .nil⟩
  | cons x xs ih =>
    obtain ⟨hx, hxs⟩ := List.forall_mem_cons.1 h
    obtain ⟨ts, hts⟩ := ih hxs
    cases hx with
    | name n => exact ⟨n.text :: ts, .cons (fun _ => rfl) hts⟩
    | @text t _ => exact ⟨t :: ts, .cons (fun _ => rfl) hts⟩
    | @scalar _ t hc => exact ⟨t :: ts, .cons (fun _ => hc) hts⟩

namespace Build

variable {σ : Session} {segments : Segments} {args : List Value} {t₀ : Text}
  {rest : List (List Value × Text)}

/-- An expression of closed blocks can be built and folded. -/
theorem foldCode_expression (hsegments : segments.Are σ.store (t₀ :: rest.map Prod.snd))
    (hargs : σ.store.Blocks args rest) (hrest : ∀ p ∈ rest, Closed p.1)
    (print : List Value → Ref → Except Failure Text) :
    ∃ v τ υ, expression segments args σ = .ok v τ ∧ foldCode v τ = .ok v υ ∧
      τ.store.Holds v (Row.laid Item.plus segmentItem (Row.head segmentItem t₀) rest) true ∧
      υ.store.Holds v (fold print
        (Row.laid Item.plus segmentItem (Row.head segmentItem t₀) rest)).items true := by
  obtain ⟨v, τ, hv, hholds, -, -⟩ := expression_of_contributes hsegments hargs
  have hsteady := (closed_laid (closed_head t₀) hrest).steady
  obtain ⟨print', υ, hυ, hfolded⟩ :=
    foldCode_of_holds hholds fun _ => fold_steady_failure? hsteady
  rw [fold_of_isBare hsteady.isBare _ print] at hfolded
  exact ⟨v, τ, υ, hv, hυ, hholds, hfolded⟩

/-- **It does not matter when folding happens.** A part of a row of closed
items may be folded before the row is: the same items are left, and the
merges add up. Every way of making single merges to the end leaves what
the fold leaves. So an expression of arguments that add closed items,
which holds closed items itself, folds to the same items and the same
text if a fragment among its arguments is folded before. -/
theorem fold_at_any_time :
    (∀ {ρ : Type} {print : List (Item ρ) → ρ → Except Failure Text} {l xs r : List (Item ρ)},
      Closed (l ++ xs ++ r) →
        (fold print xs).failure? = none ∧ (fold print (l ++ xs ++ r)).failure? = none ∧
        (fold print (l ++ (fold print xs).items ++ r)).failure? = none ∧
        (fold print (l ++ (fold print xs).items ++ r)).items = (fold print (l ++ xs ++ r)).items ∧
        (fold print (l ++ xs ++ r)).merges =
          (fold print xs).merges + (fold print (l ++ (fold print xs).items ++ r)).merges) ∧
    (∀ {ρ : Type} {print : List (Item ρ) → ρ → Except Failure Text} {xs ys : List (Item ρ)},
      Closed xs → ReflTransGen (Merges print) xs ys → (∀ zs, ¬ Merges print ys zs) →
        ys = (fold print xs).items) ∧
    ∀ {σ τ : Session} {segments : Segments} {t₀ : Text} {ts : List Text} {args : List Value}
      {r q : Ref} {used v : Value} {xs : List Value} {e : Bool},
      segments.Are σ.store (t₀ :: ts) → segments ≠ .held q →
      σ.store.get r = .fragment (.object q) used e → σ.store.get q = .list xs → Closed xs →
      (∀ arg ∈ args, σ.store.AddsClosed q arg) → expression segments args σ = .ok v τ →
      (∃ ys, τ.store.Holds v ys true ∧ Closed ys) ∧
      ∃ σ' τ' v' υ υ' ys t, foldCode (.object r) σ = .ok (.object r) σ' ∧
        expression segments args σ' = .ok v' τ' ∧
        foldCode v τ = .ok v υ ∧ foldCode v' τ' = .ok v' υ' ∧
        υ.store.Holds v ys true ∧ υ'.store.Holds v' ys true ∧
        υ.store.codeText v = .ok t ∧ υ'.store.codeText v' = .ok t := by
  refine ⟨fun {ρ print l xs r} h => ?_,
    fun hxs hreach hys => (fold_eq_of_reaches hxs.steady hreach hys).symm,
    fun {σ τ segments t₀ ts args r q used v xs e} hsegments hheld hr hq hxs hargs hv => ?_⟩
  · have hpart : Closed xs := h.of_append
    have hreach : ReflTransGen (Merges print) (l ++ xs ++ r) (l ++ (fold print xs).items ++ r) :=
      reaches_append (fold_reaches xs) hpart.steady l r
    have hfolded : Closed (l ++ (fold print xs).items ++ r) :=
      closed_of_reaches hreach h
    exact ⟨fold_steady_failure? hpart.steady, fold_steady_failure? h.steady,
      fold_steady_failure? hfolded.steady, fold_append_fold h.steady⟩
  · let print : List Value → Ref → Except Failure Text := σ.store.printWhile q
    obtain ⟨rest, rfl, hblocks⟩ := contributes_of_expression hsegments
      (fun arg harg hcode => (hargs arg harg).contributes hcode) hv
    -- Once the fragment is folded, each block is what the one before is merged into.
    obtain ⟨log, hfold⟩ := foldCode_of_fold hr hq (fold_steady_failure? hxs.steady)
    have hsegments' : segments.Are (σ.store.set q (.list (fold print xs).items))
        (t₀ :: rest.map Prod.snd) := hsegments.set hheld
    have hpart : ReflTransGen (Merges print) xs (fold print xs).items := fold_reaches xs
    obtain ⟨rest', hblocks', hall⟩ := Store.exists_blocks_after_set hq hpart hargs hblocks
    obtain ⟨hrest, hrest', hsame⟩ := closed_of_merged hall
    rw [← hsame] at hsegments'
    have hreach := laid_reaches (closed_head t₀) .refl hall
    obtain ⟨v₁, τ₁, υ, hv₁, hυ, hbuilt, hfolded⟩ :=
      foldCode_expression hsegments hblocks hrest print
    cases hv₁.symm.trans hv
    obtain ⟨v', τ', υ', hv', hυ', -, hfolded'⟩ :=
      foldCode_expression (σ := ⟨σ.store.set q (.list (fold print xs).items), log⟩)
        hsegments' hblocks' hrest' print
    have hclosed := closed_laid (closed_head t₀) hrest
    rw [fold_items_of_reaches hclosed.steady hreach] at hfolded'
    have hclosed' : Closed (fold print _).items := fold_closed hclosed
    obtain ⟨texts, htexts⟩ := hclosed'.exists_texts
    exact ⟨⟨_, hbuilt, hclosed⟩, _, τ', v', υ, υ', _, _, hfold, hv', hυ, hυ', hfolded, hfolded',
      hfolded.codeText htexts, hfolded'.codeText htexts⟩

/-- An expression with a list, and an inner expression that folds in part
before the outer one does. -/
theorem fold_at_any_time_nested :
    let x : Name := ⟨Text.ofString "x", by decide⟩
    let items : List Value := [.name x, .plus, .text "\"a\"", .plus, .scalar (.int 1)]
    let σ : Session := ⟨⟨#[.fragment (.object ⟨1⟩) (.scalar .null) true, .list items,
      .list [.scalar .null, .text "b"]]⟩, []⟩
    let segments : Segments := .ofStrings ["", "c", "d"]
    let args : List Value := [.object ⟨2⟩, .object ⟨0⟩]
    ∃ v τ, (segments.Are σ.store [[], "c", "d"] ∧ segments ≠ .held ⟨1⟩ ∧
        σ.store.get ⟨0⟩ = .fragment (.object ⟨1⟩) (.scalar .null) true ∧
        σ.store.get ⟨1⟩ = .list items ∧ Closed items ∧
        (∀ arg ∈ args, σ.store.AddsClosed ⟨1⟩ arg) ∧ expression segments args σ = .ok v τ) ∧
      ∃ σ' τ' v' υ υ' ys t, foldCode (.object ⟨0⟩) σ = .ok (.object ⟨0⟩) σ' ∧
        expression segments args σ' = .ok v' τ' ∧
        foldCode v τ = .ok v υ ∧ foldCode v' τ' = .ok v' υ' ∧
        υ.store.Holds v ys true ∧ υ'.store.Holds v' ys true ∧
        υ.store.codeText v = .ok t ∧ υ'.store.codeText v' = .ok t := by
  intro x items σ segments args
  have hone : (Scalar.int 1).render = .ok (Text.ofInt 1) := Scalar.render_int_of_lt (by decide)
  have hclosed : Closed items := by
    simp only [items, Closed, List.forall_mem_cons]
    exact ⟨.name x, isClosed_plus, .text (by decide), isClosed_plus, .scalar hone,
      List.forall_mem_nil _⟩
  have hholds : σ.store.Holds (.object ⟨0⟩) items true := .fragment rfl rfl .none
  have hlist : ∀ r, σ.store.Reaches (.object ⟨2⟩) r → r = ⟨2⟩ := fun r hr =>
    hr.eq_of_isBare (by simp [σ, Store.get, Object.parts, Item.IsBare])
  have hargs : ∀ arg ∈ args, σ.store.AddsClosed ⟨1⟩ arg := by
    simp only [args, List.forall_mem_cons]
    refine ⟨.data rfl (fun r hr => hlist r hr ▸ rfl) (fun h => ?_), .fragment hholds hclosed,
      List.forall_mem_nil _⟩
    exact absurd (hlist _ h) (by decide)
  have hlisted : σ.store.listed? (.object ⟨2⟩) = some [.scalar .null, .text "b"] := rfl
  have hjoined : σ.store.joinElements [.scalar .null, .text "b"] = .ok (Text.ofString ",b") := rfl
  let rest : List (List Value × Text) := [([.text (Text.literal ",b")], "c"), (items, "d")]
  have hblocks : σ.store.Blocks args rest :=
    .cons (.listed hlisted hjoined) (.cons (.fragment hholds) .nil)
  have hsegments : segments.Are σ.store ([] :: rest.map Prod.snd) := rfl
  obtain ⟨v, τ, hv, -⟩ := expression_of_contributes hsegments hblocks
  have hheld : segments ≠ .held ⟨1⟩ := by simp [segments, Segments.ofStrings]
  exact ⟨v, τ, ⟨hsegments, hheld, rfl, rfl, hclosed, hargs, hv⟩,
    (fold_at_any_time.2.2 hsegments hheld rfl rfl hclosed hargs hv).2⟩

end Build

end Splice
