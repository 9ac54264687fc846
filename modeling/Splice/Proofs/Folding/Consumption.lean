import Splice.Proofs.Folding.Rest
import Splice.Proofs.Folding.Confluence
import Mathlib.Data.List.Forall2
/-!
# Folding — what a merge may consume

A merge looks at the first and the last character of its operands only, so
besides complete literals it also consumes code that merely begins or ends
with a quote. `Folded.Replays` writes the merges of a fold down with the
operands that each consumes, and `Folded.Collapses` says what is left if
they are constants: rows of constants become one literal each, and every
other item stays, in its place. The two go together with a condition that
can be read off the list before the fold (`Folded.WellQuoted`): where two
operands merge as they stand, the texts among them are complete literals.

A merge of constants neither gives nor takes anything from that condition
(`Folded.wellQuoted_merge_iff`), since a neighbour that merges with a
constant merges with whatever the constant has become part of. As a list
in which nothing merges meets it, a fold consumes complete literals only
exactly if it is met at the start (`Build.foldItems_consumes_whole_iff`).
-/

namespace Splice

variable {ρ : Type}

namespace Text

/-- Whether a text, read after a backslash or not, can stand before the
closing quote of a literal: none of its quotes ends the literal, and none of
its backslashes escapes the quote that does. -/
def insideFrom : Bool → Text → Bool
  | escaped, [] => !escaped
  | true, _ :: t => insideFrom false t
  | false, c :: t =>
    if c = .char '\\' then insideFrom true t else c != .char '"' && insideFrom false t

/-- Whether a text can stand between the quotes of a literal. -/
def isInside (t : Text) : Bool := t.insideFrom false

/-- One complete quoted literal: the first unescaped quote after the one
that it starts with is its last character. -/
def IsWhole (t : Text) : Prop := ∃ body : Text, t = body.enclosed ∧ body.isInside = true

variable {t u : Text}

theorem insideFrom_append {escaped : Bool} (h : t.insideFrom escaped = true) :
    (t ++ u).insideFrom escaped = u.insideFrom false := by
  induction t generalizing escaped with
  | nil =>
    obtain rfl : escaped = false := by simpa [insideFrom] using h
    rfl
  | cons c t ih =>
    cases escaped with
    | true => exact ih h
    | false =>
      simp only [insideFrom, List.cons_append] at h ⊢
      split at h
      · rw [if_pos ‹_›, ih h]
      · rw [Bool.and_eq_true] at h
        rw [if_neg ‹_›, h.1, Bool.true_and, ih h.2]

/-- What can stand between quotes can stand there side by side. -/
theorem isInside_append (ht : t.isInside = true) (hu : u.isInside = true) :
    (t ++ u).isInside = true :=
  (insideFrom_append ht).trans hu

theorem IsPlain.isInside (h : t.IsPlain) : t.isInside = true := by
  induction t with
  | nil => rfl
  | cons c t ih =>
    obtain ⟨hc, ht⟩ := isPlain_cons.1 h
    rw [Text.isInside, insideFrom, if_neg (CodePoint.ne_backslash_of_isPlain hc), Bool.and_eq_true]
    exact ⟨bne_iff_ne.2 (CodePoint.ne_quote_of_isPlain hc), ih ht⟩

theorem IsWhole.endsQuoted (h : t.IsWhole) : t.endsQuoted = true := by
  obtain ⟨body, rfl, -⟩ := h
  exact body.endsQuoted_enclosed

end Text

namespace Item

/-- An item that is no text, or the text of one complete literal. -/
def IsWhole (x : Item ρ) : Prop := ∀ t : Text, x = .text t → t.IsWhole

/-- A constant puts between the quotes what can stand there. -/
def IsConstant (x : Item ρ) : Prop := ∃ t : Text, x.Inner t ∧ t.isInside = true

variable {print : ρ → Except Failure Text} {a b : Item ρ} {t : Text}

theorem isWhole_name (n : Name) : (name n : Item ρ).IsWhole := nofun

theorem isWhole_scalar (c : Scalar) : (scalar c : Item ρ).IsWhole := nofun

theorem isWhole_text : (text t : Item ρ).IsWhole ↔ t.IsWhole :=
  ⟨fun h => h t rfl, fun h _ hu => text.inj hu ▸ h⟩

theorem IsConstant.isWhole (h : a.IsConstant) : a.IsWhole := by
  obtain ⟨t, hinner, ht⟩ := h
  cases hinner with
  | quoted => exact isWhole_text.2 ⟨t, rfl, ht⟩
  | scalar => exact isWhole_scalar _

/-- An operand of a merge is a constant if it is whole. -/
theorem isConstant_of_isWhole (hcode : a.IsCode) (hname : ∀ n, a ≠ .name n) (h : a.IsWhole) :
    a.IsConstant := by
  cases hcode with
  | name n => exact absurd rfl (hname n)
  | text t =>
    obtain ⟨body, rfl, hbody⟩ := isWhole_text.1 h
    exact ⟨body, .quoted body, hbody⟩
  | scalar hc => exact ⟨_, .scalar hc, (Scalar.plain_render hc).isInside⟩

/-- Two constants merge into a constant, and nothing else. -/
theorem IsConstant.merge (ha : a.IsConstant) (hb : b.IsConstant)
    (h : a.merge? print b = .ok (some t)) :
    ∃ u v, a.Inner u ∧ b.Inner v ∧ t = (u ++ v).enclosed ∧ u.isInside = true ∧
      v.isInside = true := by
  obtain ⟨u, hu, hinside⟩ := ha
  obtain ⟨v, hv, hinside'⟩ := hb
  have hq : a.IsQuoted ∨ b.IsQuoted := by
    cases hu with
    | quoted => exact .inl ⟨u, rfl⟩
    | scalar =>
      cases hv with
      | quoted => exact .inr ⟨v, rfl⟩
      | scalar => cases h
  have hmerge : a.merge? print b = .ok (some (u ++ v).enclosed) := merge?_of_inner hu hv hq
  obtain rfl : (u ++ v).enclosed = t := Option.some.inj (Except.ok.inj (hmerge.symm.trans h))
  exact ⟨u, v, hu, hv, rfl, hinside, hinside'⟩

/-- Two items that merge only if they are both whole. -/
def JoinsWhole (a b : Item ρ) : Prop :=
  ∀ print t, a.merge? print b = .ok (some t) → a.IsWhole ∧ b.IsWhole

/-- Before a constant, a text merges if it ends with a quote. -/
theorem joinsWhole_constant_right (ha : a.IsCode) (hb : b.IsConstant) :
    a.JoinsWhole b ↔ (a.endsQuoted = true → a.IsWhole) := by
  refine ⟨fun h hquote => ?_, fun h print t hm => ⟨?_, hb.isWhole⟩⟩
  · cases ha with
    | name n => exact isWhole_name n
    | scalar => exact isWhole_scalar _
    | text t =>
      replace hquote : t.endsQuoted = true := hquote
      obtain ⟨u, hu, -⟩ := hb
      cases hu with
      | quoted =>
        refine (h (fun _ => .ok []) (t.dropLast ++ u.enclosed.tail) ?_).1
        simp [merge?, hquote, Text.startsQuoted_enclosed]
      | scalar hc =>
        refine (h (fun _ => .ok []) (t.dropLast ++ u ++ [.char '"']) ?_).1
        simp [merge?, hquote, render, hc]
  · cases ha with
    | name n => exact isWhole_name n
    | scalar => exact isWhole_scalar _
    | text u =>
      refine h ?_
      by_contra hquote
      replace hquote : u.endsQuoted = false := by simpa [endsQuoted] using hquote
      obtain ⟨v, hv, -⟩ := hb
      cases hv <;> simp [merge?, hquote] at hm

/-- After a constant, a text merges if it starts with a quote. -/
theorem joinsWhole_constant_left (ha : a.IsConstant) (hb : b.IsCode) :
    a.JoinsWhole b ↔ (b.startsQuoted = true → b.IsWhole) := by
  refine ⟨fun h hquote => ?_, fun h print t hm => ⟨ha.isWhole, ?_⟩⟩
  · cases hb with
    | name n => exact isWhole_name n
    | scalar => exact isWhole_scalar _
    | text t =>
      replace hquote : t.startsQuoted = true := hquote
      obtain ⟨u, hu, -⟩ := ha
      cases hu with
      | quoted =>
        refine (h (fun _ => .ok []) (u.enclosed.dropLast ++ t.tail) ?_).2
        simp [merge?, hquote, Text.endsQuoted_enclosed]
      | scalar hc =>
        refine (h (fun _ => .ok []) (.char '"' :: u ++ t.tail) ?_).2
        simp [merge?, hquote, render, hc]
  · cases hb with
    | name n => exact isWhole_name n
    | scalar => exact isWhole_scalar _
    | text u =>
      refine h ?_
      by_contra hquote
      replace hquote : u.startsQuoted = false := by simpa [startsQuoted] using hquote
      obtain ⟨v, hv, -⟩ := ha
      cases hv <;> simp [merge?, hquote] at hm

end Item

namespace Folded

variable {print : List (Item ρ) → ρ → Except Failure Text} {l r xs ys zs : List (Item ρ)}
variable {a b m : Item ρ} {ps : List (Item ρ × Item ρ)}

/-! ## What does not change -/

/-- Where two operands merge as they stand, the texts among them are
complete literals. -/
def WellQuoted (xs : List (Item ρ)) : Prop := Windows Item.JoinsWhole xs

theorem Quiet.wellQuoted (h : Quiet xs) : WellQuoted xs := by
  intro l a b r hxs print t hm
  cases (h l a b r hxs print).symm.trans hm

/-- **A merge of constants neither gives nor takes anything.** -/
theorem wellQuoted_merge_iff (hcode : ∀ x ∈ l ++ a :: .plus :: b :: r, x.IsCode)
    (ha : a.IsConstant) (hb : b.IsConstant) (hm : m.IsConstant) :
    WellQuoted (l ++ a :: .plus :: b :: r) ↔ WellQuoted (l ++ m :: r) := by
  have hne : ∀ {x : Item ρ}, x.IsConstant → x ≠ .plus := fun ⟨_, hx, _⟩ => hx.ne_plus
  simp only [List.forall_mem_append, List.forall_mem_cons] at hcode
  obtain ⟨hl, -, -, -, hr⟩ := hcode
  have hleft : Windows Item.JoinsWhole (l ++ [a]) ↔ Windows Item.JoinsWhole (l ++ [m]) :=
    windows_concat_congr fun x hx => (Item.joinsWhole_constant_right (hl x hx) ha).trans
      (Item.joinsWhole_constant_right (hl x hx) hm).symm
  have hright : Windows Item.JoinsWhole (b :: r) ↔ Windows Item.JoinsWhole (m :: r) :=
    windows_cons_congr fun x hx => (Item.joinsWhole_constant_left hb (hr x hx)).trans
      (Item.joinsWhole_constant_left hm (hr x hx)).symm
  have hab : a.JoinsWhole b := fun _ _ _ => ⟨ha.isWhole, hb.isWhole⟩
  rw [WellQuoted, WellQuoted, windows_append_cons (hne ha), windows_cons_plus (hne hb),
    windows_append_cons (hne hm), hleft, hright]
  exact and_congr_right fun _ => and_iff_right hab

/-! ## A row of merges with what it consumes -/

/-- A row of merges, written down by the operands that each consumes. -/
inductive Replays (print : List (Item ρ) → ρ → Except Failure Text) :
    List (Item ρ) → List (Item ρ × Item ρ) → List (Item ρ) → Prop
  /-- No merge is made. -/
  | nil (xs : List (Item ρ)) : Replays print xs [] xs
  /-- The first merge consumes two operands, and the others follow. -/
  | cons {l r ys : List (Item ρ)} {a b : Item ρ} {t : Text} {ps : List (Item ρ × Item ρ)} :
      a.merge? (print (l ++ a :: .plus :: b :: r)) b = .ok (some t) →
      Replays print (l ++ .text t :: r) ps ys →
      Replays print (l ++ a :: .plus :: b :: r) ((a, b) :: ps) ys

/-- Whatever single merges reach, a row of merges does. -/
theorem exists_replays (h : Relation.ReflTransGen (Merges print) xs ys) :
    ∃ ps, Replays print xs ps ys := by
  induction h using Relation.ReflTransGen.head_induction_on with
  | refl => exact ⟨[], .nil ys⟩
  | head hstep _ ih =>
    obtain @⟨l, r, a, b, t, hm⟩ := hstep
    obtain ⟨ps, hps⟩ := ih
    exact ⟨(a, b) :: ps, .cons hm hps⟩

/-- Each merge of a row takes two items away. -/
theorem Replays.length (h : Replays print xs ps ys) : xs.length = ys.length + 2 * ps.length := by
  induction h with
  | nil xs => simp
  | cons hm _ ih =>
    simp only [List.length_append, List.length_cons] at ih ⊢
    omega

/-- The operands of each merge are whole. -/
def ConsumesWhole (ps : List (Item ρ × Item ρ)) : Prop := ∀ p ∈ ps, p.1.IsWhole ∧ p.2.IsWhole

theorem consumesWhole_cons :
    ConsumesWhole ((a, b) :: ps) ↔ (a.IsWhole ∧ b.IsWhole) ∧ ConsumesWhole ps :=
  List.forall_mem_cons

/-- The whole operands of a merge are constants. -/
theorem isConstant_of_merge {t : Text} {print : ρ → Except Failure Text}
    (hcode : ∀ x ∈ l ++ a :: .plus :: b :: r, x.IsCode) (hm : a.merge? print b = .ok (some t))
    (h : a.IsWhole ∧ b.IsWhole) : a.IsConstant ∧ b.IsConstant :=
  ⟨Item.isConstant_of_isWhole (hcode a (by simp)) (fun n => (Item.not_name_of_merge? hm n).1) h.1,
    Item.isConstant_of_isWhole (hcode b (by simp)) (fun n => (Item.not_name_of_merge? hm n).2) h.2⟩

/-- **Merges consume whole operands only** exactly if the list they start
from is well quoted, provided that the one they end in is. -/
theorem Replays.consumesWhole_iff (h : Replays print xs ps ys) (hcode : ∀ x ∈ xs, x.IsCode)
    (hys : WellQuoted ys) : ConsumesWhole ps ↔ WellQuoted xs := by
  induction h with
  | nil xs => exact iff_of_true nofun hys
  | @cons l r ys a b t ps hm _ ih =>
    have hrest := ih ((Merges.merge hm).isCode hcode) hys
    -- The first operands are whole on either side of the equivalence.
    have hiff (hwhole : a.IsWhole ∧ b.IsWhole) :
        WellQuoted (l ++ a :: .plus :: b :: r) ↔ WellQuoted (l ++ .text t :: r) := by
      obtain ⟨ha, hb⟩ := isConstant_of_merge hcode hm hwhole
      obtain ⟨u, v, -, -, rfl, hu, hv⟩ := ha.merge hb hm
      exact wellQuoted_merge_iff hcode ha hb ⟨u ++ v, .quoted _, Text.isInside_append hu hv⟩
    rw [consumesWhole_cons]
    constructor
    · rintro ⟨hwhole, hps⟩
      exact (hiff hwhole).2 (hrest.1 hps)
    · intro hxs
      have hwhole : a.IsWhole ∧ b.IsWhole := hxs l a b r rfl _ t hm
      exact ⟨hwhole, hrest.2 ((hiff hwhole).1 hxs)⟩

/-! ## What is left -/

/-- A row of constants, with what they put between the quotes together. -/
def Constants (ops : List (Item ρ)) (body : Text) : Prop :=
  ops ≠ [] ∧ ∃ ts : List Text, List.Forall₂ Item.Inner ops ts ∧ (∀ t ∈ ts, t.isInside = true) ∧
    body = ts.flatten

theorem Constants.append {ops ops' : List (Item ρ)} {t u : Text} (h : Constants ops t)
    (h' : Constants ops' u) : Constants (ops ++ ops') (t ++ u) := by
  obtain ⟨hne, ts, hts, hinside, rfl⟩ := h
  obtain ⟨-, us, hus, hinside', rfl⟩ := h'
  refine ⟨by simp [hne], ts ++ us, List.rel_append hts hus, ?_, by simp⟩
  exact List.forall_mem_append.2 ⟨hinside, hinside'⟩

theorem constants_singleton {t : Text} (h : a.Inner t) (ht : t.isInside = true) :
    Constants [a] t :=
  ⟨by simp, [t], .cons h .nil, by simpa using ht, by simp⟩

/-- Rows of constants with operators between them become one literal each,
and every other item stays. -/
inductive Collapses : List (Item ρ) → List (Item ρ) → Prop
  /-- Nothing is left of nothing. -/
  | nil : Collapses [] []
  /-- An item stays what it is, where it is. -/
  | keep (x : Item ρ) {xs ys : List (Item ρ)} : Collapses xs ys → Collapses (x :: xs) (x :: ys)
  /-- A row of at least two constants becomes the literal of what they put in. -/
  | join {ops xs ys : List (Item ρ)} {body : Text} : 2 ≤ ops.length → Constants ops body →
      Collapses xs ys → Collapses (ops.intersperse .plus ++ xs) (.text body.enclosed :: ys)

theorem Collapses.refl (xs : List (Item ρ)) : Collapses xs xs := by
  induction xs with
  | nil => exact .nil
  | cons x xs ih => exact .keep x ih

/-- What two lists come to, one after the other. -/
theorem Collapses.append {xs' ys' : List (Item ρ)} (h : Collapses xs ys) (h' : Collapses xs' ys') :
    Collapses (xs ++ xs') (ys ++ ys') := by
  induction h with
  | nil => exact h'
  | keep x _ ih => exact .keep x ih
  | join hlength hops _ ih =>
    rw [List.append_assoc]
    exact .join hlength hops ih

/-- Where what is left is cut in two, what it was can be. -/
theorem Collapses.cut (h : Collapses xs (ys ++ zs)) :
    ∃ xs₁ xs₂, xs = xs₁ ++ xs₂ ∧ Collapses xs₁ ys ∧ Collapses xs₂ zs := by
  induction ys generalizing xs with
  | nil => exact ⟨[], xs, rfl, .nil, h⟩
  | cons y ys ih =>
    rw [List.cons_append] at h
    cases h with
    | keep _ h =>
      obtain ⟨xs₁, xs₂, rfl, h₁, h₂⟩ := ih h
      exact ⟨y :: xs₁, xs₂, rfl, .keep y h₁, h₂⟩
    | join hlength hops h =>
      obtain ⟨xs₁, xs₂, rfl, h₁, h₂⟩ := ih h
      exact ⟨_, xs₂, (List.append_assoc ..).symm, .join hlength hops h₁, h₂⟩

/-- A constant that is left was one, or comes from a row of them. -/
theorem Collapses.cut_constant {t : Text} (h : Collapses xs (a :: ys)) (ha : a.Inner t)
    (ht : t.isInside = true) :
    ∃ ops xs', Constants ops t ∧ xs = ops.intersperse .plus ++ xs' ∧ Collapses xs' ys := by
  cases h with
  | keep _ h => exact ⟨[a], _, constants_singleton ha ht, rfl, h⟩
  | @join ops xs _ body hlength hops h =>
    obtain rfl : t = body := ha.unique (.quoted body)
    exact ⟨ops, xs, hops, rfl, h⟩

/-- An operator that is left was one. -/
theorem Collapses.cut_plus (h : Collapses xs (.plus :: ys)) :
    ∃ xs', xs = .plus :: xs' ∧ Collapses xs' ys := by
  generalize hop : (.plus : Item ρ) = op at h
  cases h with
  | keep _ h => exact ⟨_, rfl, h⟩
  | @join _ _ _ body => exact absurd hop.symm (Item.Inner.quoted body).ne_plus

/-- **One more merge of constants** leaves rows of constants collapsed. -/
theorem Collapses.merge {t u : Text} (h : Collapses xs (l ++ a :: .plus :: b :: r))
    (ha : a.Inner t) (ht : t.isInside = true) (hb : b.Inner u) (hu : u.isInside = true) :
    Collapses xs (l ++ .text (t ++ u).enclosed :: r) := by
  obtain ⟨xs₁, xs₂, rfl, h₁, h₂⟩ := h.cut
  obtain ⟨ops, xs₃, hops, rfl, h₃⟩ := h₂.cut_constant ha ht
  obtain ⟨xs₄, rfl, h₄⟩ := h₃.cut_plus
  obtain ⟨ops', xs₅, hops', rfl, h₅⟩ := h₄.cut_constant hb hu
  have hrow : ops.intersperse .plus ++ .plus :: (ops'.intersperse .plus ++ xs₅) =
      (ops ++ ops').intersperse Item.plus ++ xs₅ := by
    rw [intersperse_append hops.1 hops'.1, List.append_assoc, List.cons_append]
  have htwo : 2 ≤ (ops ++ ops').length := by
    have := List.length_pos_iff.2 hops.1
    have := List.length_pos_iff.2 hops'.1
    rw [List.length_append]
    omega
  rw [hrow]
  exact h₁.append (.join htwo (hops.append hops') h₅)

/-- **Merges of whole operands leave rows of constants collapsed.** -/
theorem Replays.collapses (h : Replays print xs ps ys) (hcode : ∀ x ∈ xs, x.IsCode)
    (hps : ConsumesWhole ps) : Collapses xs ys := by
  -- The list at the start is what has been collapsed when the row has come this far.
  suffices hfrom : ∀ ws, Collapses ws xs → Collapses ws ys from hfrom xs (.refl xs)
  induction h with
  | nil xs => exact fun _ hws => hws
  | @cons l r ys a b t ps hm _ ih =>
    intro ws hws
    obtain ⟨hwhole, hps⟩ := consumesWhole_cons.1 hps
    obtain ⟨ha, hb⟩ := isConstant_of_merge hcode hm hwhole
    obtain ⟨u, v, hu, hv, rfl, hinside, hinside'⟩ := ha.merge hb hm
    exact ih ((Merges.merge hm).isCode hcode) hps ws (hws.merge hu hinside hv hinside')

end Folded

open Folded

/-- A fold of two operands that merge. -/
theorem fold_two {print : List (Item ρ) → ρ → Except Failure Text} {a b : Item ρ} {t : Text}
    (h : a.merge? (print [a, .plus, b]) b = .ok (some t)) :
    fold print [a, .plus, b] = ⟨[.text t], 1, none⟩ := by
  have haround : around [a] [.plus, b] = [a, .plus, b] := rfl
  rw [fold, scan, if_pos Item.isPlus_plus, haround, h]
  simp [stepBack, scan, around]

namespace Build

variable {σ : Session} {r : Ref} {xs : List Value}

/-- **A fold consumes complete literals only, exactly in a well quoted
list.** Folding a list of code in place succeeds, by a row of as many merges
as it answers; and the texts that such a row consumes are complete literals,
while all other items are kept where they are and as they are, exactly if
the operands that merge in the list as given are. -/
theorem foldItems_consumes_whole_iff (hlist : σ.store.get r = .list xs)
    (hxs : ∀ x ∈ xs, x.IsCode) :
    ∃ n ys, foldItems (.object r) σ = .ok n ⟨σ.store.set r (.list ys), σ.log⟩ ∧
      (∃ ps, Replays (σ.store.printWhile r) xs ps ys) ∧
      ∀ ps, Replays (σ.store.printWhile r) xs ps ys →
        ps.length = n ∧ (ConsumesWhole ps ∧ Collapses xs ys ↔ WellQuoted xs) := by
  have hnone : (fold (σ.store.printWhile r) xs).failure? = none := fold_code_failure? hxs
  have hquiet : Quiet (fold (σ.store.printWhile r) xs).items := fold_quiet hnone
  refine ⟨_, _, foldItems_of_list hlist hnone, exists_replays (fold_reaches xs), fun ps hps => ?_⟩
  have hmerges : ps.length = (fold (σ.store.printWhile r) xs).merges := by
    have hcount := hps.length
    have hlength := fold_length (σ.store.printWhile r) xs
    omega
  have hiff : ConsumesWhole ps ↔ WellQuoted xs := hps.consumesWhole_iff hxs hquiet.wellQuoted
  refine ⟨hmerges, fun h => hiff.1 h.1, fun h => ?_⟩
  have hwhole : ConsumesWhole ps := hiff.2 h
  exact ⟨hwhole, hps.collapses hxs hwhole⟩

/-- Two literals around a number, one with an escaped quote inside, and code
that merely ends with a quote behind them. -/
theorem foldItems_consumes_whole_iff_escaped :
    let xs : List Value := [.text "\"a\"", .plus, .scalar (.int 1), .plus, .text "\"b\\\"c\"",
      .plus, .text "2*\"d\""]
    let σ : Session := ⟨⟨#[.list xs]⟩, []⟩
    (σ.store.get ⟨0⟩ = .list xs ∧ ∀ x ∈ xs, x.IsCode) ∧
      ∃ n ys, foldItems (.object ⟨0⟩) σ = .ok n ⟨σ.store.set ⟨0⟩ (.list ys), σ.log⟩ ∧
        (∃ ps, Replays (σ.store.printWhile ⟨0⟩) xs ps ys) ∧
        ∀ ps, Replays (σ.store.printWhile ⟨0⟩) xs ps ys →
          ps.length = n ∧ (ConsumesWhole ps ∧ Collapses xs ys ↔ WellQuoted xs) := by
  intro xs σ
  have hxs : ∀ x ∈ xs, x.IsCode := by
    simp only [xs, List.forall_mem_cons]
    exact ⟨.text _, .text _, .scalar (Scalar.render_int_of_lt (by decide)), .text _, .text _,
      .text _, .text _, by simp⟩
  exact ⟨⟨rfl, hxs⟩, foldItems_consumes_whole_iff rfl hxs⟩

/-- **A member of a literal is consumed** as if it were a literal itself: it
begins with a quote, so a number before it is written into it, and not added
to the length. -/
theorem foldItems_consumes_member :
    let member : Value := .text "\"a\".length"
    let xs : List Value := [.scalar (.int 5), .plus, member]
    let ys : List Value := [.text "\"5a\".length"]
    let σ : Session := ⟨⟨#[.list xs]⟩, []⟩
    (∀ x ∈ xs, x.IsCode) ∧ foldItems (.object ⟨0⟩) σ = .ok 1 ⟨⟨#[.list ys]⟩, []⟩ ∧
      Replays (σ.store.printWhile ⟨0⟩) xs [(.scalar (.int 5), member)] ys ∧
      (∀ ps, Replays (σ.store.printWhile ⟨0⟩) xs ps ys → ¬ ConsumesWhole ps) ∧ member ∉ ys := by
  intro member xs ys σ
  have hfive : (Scalar.int 5).render = .ok (Text.ofInt 5) := Scalar.render_int_of_lt (by decide)
  have hxs : ∀ x ∈ xs, x.IsCode := by
    simp only [xs, List.forall_mem_cons]
    exact ⟨.scalar hfive, .text _, .text _, by simp⟩
  have hmerge (print : Ref → Except Failure Text) :
      (.scalar (.int 5) : Value).merge? print member = .ok (some "\"5a\".length") := by
    have hstart : Text.startsQuoted "\"a\".length" = true := by decide
    simp only [member, Item.merge?, hstart, if_true, Item.render, hfive]
    rfl
  have hfold : fold (σ.store.printWhile ⟨0⟩) xs = ⟨ys, 1, none⟩ := fold_two (hmerge _)
  have hrun := foldItems_of_list (σ := σ) (r := ⟨0⟩) rfl (by rw [hfold])
  rw [hfold] at hrun
  have hmember : ¬ member.IsWhole := fun h =>
    absurd (Item.isWhole_text.1 h).endsQuoted (by decide)
  have hnot : ¬ WellQuoted xs := fun h =>
    hmember (h [] _ member [] rfl (fun _ => .ok []) _ (hmerge _)).2
  have hys : WellQuoted ys := (quiet_of_length_le (by decide)).wellQuoted
  refine ⟨hxs, hrun, .cons (l := []) (r := []) (hmerge _) (.nil ys), fun ps hps h => ?_, by decide⟩
  exact hnot ((hps.consumesWhole_iff hxs hys).1 h)

end Build

end Splice
