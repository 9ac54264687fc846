import Splice.Proofs.Expression
/-!
# Templates — operators between operands

The operators that a string expression puts in are to join operands, so
each has to have one on both sides. Items that print as nothing are no
operands, and an argument may add such items and no others: the shared
empty fragment does. What is seen of a list of items are its `Mark`s,
operators that were put in and operands, and `WellJoined` is what they
should be like.

An operator is put before each block but the first, whatever there is to
see of the block, so the items of a string expression are well joined
exactly if each block is (`wellJoined_laid`), and is not empty to the eye.
Only what comes first may be empty, up to the first item or literal: there
is no operator then (`wellJoined_row`). An empty fragment anywhere
else leaves an operator without an operand
(`Build.not_wellJoined_expression_nil`).
-/

namespace Splice

/-- What is seen of an item. -/
inductive Mark
  /-- An operator that was put in. -/
  | operator
  /-- Anything else. -/
  | operand
deriving DecidableEq

/-- An operator has an operand on both sides. -/
def WellJoined (ms : List Mark) : Prop :=
  ∀ l r, ms = l ++ .operator :: r → l.getLast? = some .operand ∧ r.head? = some .operand

/-- There is something, and what there is is well joined. -/
def Solid (ms : List Mark) : Prop := ms ≠ [] ∧ WellJoined ms

section WellJoined

variable {xs ys : List Mark}

theorem wellJoined_nil : WellJoined [] := fun _ _ h => by simp at h

theorem solid_operand : Solid [.operand] := by
  refine ⟨by simp, fun l r h => ?_⟩
  cases l with
  | nil => cases h
  | cons m l => simp at h

/-- What is solid ends with an operand. -/
theorem Solid.getLast? (h : Solid xs) : xs.getLast? = some .operand := by
  obtain ⟨l, m, rfl⟩ := List.eq_nil_or_concat xs |>.resolve_left h.1
  cases m with
  | operand => simp
  | operator => cases (h.2 l [] (by simp)).2

/-- What is solid begins with an operand. -/
theorem Solid.head? (h : Solid xs) : xs.head? = some .operand := by
  obtain ⟨m, r, rfl⟩ := List.exists_cons_of_ne_nil h.1
  cases m with
  | operand => rfl
  | operator => cases (h.2 [] r rfl).1

theorem head?_of_append_operator {r : List Mark}
    (h : (r ++ .operator :: ys).head? = some .operand) : r.head? = some .operand := by
  cases r with
  | nil => cases h
  | cons m r => exact h

theorem getLast?_of_operator_append {l : List Mark}
    (h : (xs ++ .operator :: l).getLast? = some .operand) : l.getLast? = some .operand := by
  cases l with
  | nil => simp at h
  | cons m l => simpa using h

/-- **An operator joins what is solid on both sides.** -/
theorem wellJoined_append_operator :
    WellJoined (xs ++ .operator :: ys) ↔ Solid xs ∧ Solid ys := by
  constructor
  · intro h
    obtain ⟨hlast, hfirst⟩ := h xs ys rfl
    refine ⟨⟨?_, fun l r hxs => ?_⟩, ⟨?_, fun l r hys => ?_⟩⟩
    · rintro rfl
      cases hlast
    · subst hxs
      obtain ⟨hl, hr⟩ := h l (r ++ .operator :: ys) (by simp)
      exact ⟨hl, head?_of_append_operator hr⟩
    · rintro rfl
      cases hfirst
    · subst hys
      obtain ⟨hl, hr⟩ := h (xs ++ .operator :: l) r (by simp)
      exact ⟨getLast?_of_operator_append hl, hr⟩
  · rintro ⟨hxs, hys⟩ l r h
    -- The operator is in `xs`, between the two, or in `ys`.
    rcases List.append_eq_append_iff.1 h with ⟨as, rfl, h⟩ | ⟨bs, rfl, h⟩
    · cases as with
      | nil =>
        obtain rfl : ys = r := by simpa using h
        exact ⟨by simpa using hxs.getLast?, hys.head?⟩
      | cons m as =>
        obtain ⟨rfl, rfl⟩ : .operator = m ∧ ys = as ++ .operator :: r := by simpa using h
        obtain ⟨hl, hr⟩ := hys.2 as r rfl
        refine ⟨?_, hr⟩
        cases as with
        | nil => cases hl
        | cons m as => simpa using hl
    · cases bs with
      | nil =>
        obtain rfl : ys = r := by simpa using h
        exact ⟨by simpa using hxs.getLast?, hys.head?⟩
      | cons m bs =>
        obtain ⟨rfl, rfl⟩ : m = .operator ∧ bs ++ .operator :: ys = r := by simpa using h
        obtain ⟨hl, hr⟩ := hxs.2 l bs rfl
        refine ⟨hl, ?_⟩
        cases bs with
        | nil => cases hr
        | cons m bs => exact hr

theorem solid_append_operator : Solid (xs ++ .operator :: ys) ↔ Solid xs ∧ Solid ys := by
  rw [Solid, wellJoined_append_operator]
  simp

end WellJoined

/-! ## Marked items -/

/-- An item of a string expression, or an operator that was put in. -/
inductive Piece
  /-- An operator that was put in. -/
  | operator
  /-- Anything else. -/
  | item (x : Value)

namespace Piece

/-- A piece as an item. -/
def value : Piece → Value
  | .operator => .plus
  | .item x => x

/-- The literal of a segment. -/
def segment (t : Text) : Piece := .item (segmentItem t)

/-- What is seen of a piece. -/
def mark? (s : Store) : Piece → Option Mark
  | .operator => some .operator
  | .item x => if s.render x = .ok [] then none else some .operand

end Piece

/-- The pieces of a string expression, blocks of pieces between segments. -/
def Piece.row (t : Text) (rest : List (List Piece × Text)) : List Piece :=
  Row.laid .operator .segment (Row.head .segment t) rest

/-- Blocks with the operators in them that were put in by operations before. -/
def Piece.Marked (marked : List (List Piece × Text)) (rest : List (List Value × Text)) : Prop :=
  rest = marked.map fun p => (p.1.map Piece.value, p.2)

/-- What is seen of pieces. -/
def marks (s : Store) (ps : List Piece) : List Mark := ps.filterMap (Piece.mark? s)

/-- Whether blocks behind a first segment leave no operator without an
operand. What comes first may be nothing, and then the next is first. A
single block has no operator next to it. Any other has one. -/
def BlocksFit (s : Store) : Text → List (List Piece × Text) → Prop
  | _ :: _, rest => ∀ p ∈ rest, Solid (marks s p.1)
  | [], [] => True
  | [], (block, t) :: rest =>
    if block.isEmpty && t.isEmpty then BlocksFit s [] rest
    else if t.isEmpty && rest.isEmpty then WellJoined (marks s block)
    else ∀ p ∈ (block, t) :: rest, Solid (marks s p.1)

section Laid

variable (s : Store)

theorem marks_append (ps qs : List Piece) : marks s (ps ++ qs) = marks s ps ++ marks s qs :=
  List.filterMap_append

@[simp] theorem marks_operator (ps : List Piece) :
    marks s (.operator :: ps) = .operator :: marks s ps := rfl

/-- A literal can be seen. -/
theorem marks_segment (t : Text) : marks s [Piece.segment t] = [.operand] := by
  have hne : s.render (segmentItem t) ≠ .ok [] := by
    intro h
    have hliteral : t.literal = [] := Except.ok.inj h
    exact absurd (Text.isString_literal t).startsQuoted (by simp [hliteral, Text.startsQuoted])
  simp [marks, Piece.segment, Piece.mark?, hne]

/-- A segment behind a block adds an operand, so that the block has to be solid. -/
theorem wellJoined_segment {block : List Piece} {t : Text} (ht : t ≠ []) :
    WellJoined (marks s (block ++ Row.segment .operator .segment t)) ↔ Solid (marks s block) := by
  have hsegment : Row.segment Piece.operator .segment t = [.operator, .segment t] := by
    cases t with
    | nil => exact absurd rfl ht
    | cons c t => rfl
  rw [hsegment, marks_append, marks_operator, marks_segment, wellJoined_append_operator]
  exact and_iff_left solid_operand

theorem solid_segment {block : List Piece} (t : Text) :
    Solid (marks s (block ++ Row.segment .operator .segment t)) ↔ Solid (marks s block) := by
  cases t with
  | nil => simp [Row.segment]
  | cons c t =>
    rw [Solid, wellJoined_segment s (by simp)]
    refine and_iff_right_of_imp fun h => ?_
    rw [marks_append]
    simp [h.1]

/-- **Blocks laid out behind items** are well joined exactly if the items
and all blocks are solid, or there is no block and the items are well joined. -/
theorem wellJoined_laid {acc : List Piece} (hacc : acc ≠ [])
    (rest : List (List Piece × Text)) :
    WellJoined (marks s (Row.laid .operator .segment acc rest)) ↔
      WellJoined (marks s acc) ∧ (rest ≠ [] → Solid (marks s acc)) ∧
        ∀ p ∈ rest, Solid (marks s p.1) := by
  induction rest generalizing acc with
  | nil => simp [Row.laid]
  | cons p rest ih =>
    have hjoin : Row.join .operator acc = acc ++ [Piece.operator] := by
      simp [Row.join, List.isEmpty_iff, hacc]
    have hmarks : marks s (acc ++ [.operator] ++ p.1 ++ Row.segment .operator .segment p.2) =
        marks s acc ++ .operator :: marks s (p.1 ++ Row.segment .operator .segment p.2) := by
      simp [marks_append]
    rw [Row.laid, hjoin, ih (by simp), hmarks, wellJoined_append_operator, solid_append_operator,
      solid_segment, List.forall_mem_cons]
    constructor
    · rintro ⟨⟨hleft, hright⟩, -, hrest⟩
      exact ⟨hleft.2, fun _ => hleft, hright, hrest⟩
    · rintro ⟨-, hleft, hright, hrest⟩
      exact ⟨⟨hleft (by simp), hright⟩, fun _ => ⟨hleft (by simp), hright⟩, hrest⟩

/-- **The pieces of a string expression are well joined exactly if its
blocks fit.** -/
theorem wellJoined_row (t : Text) (rest : List (List Piece × Text)) :
    WellJoined (marks s (Piece.row t rest)) ↔ BlocksFit s t rest := by
  rw [Piece.row]
  cases t with
  | cons c t =>
    have hhead : Row.head Piece.segment (c :: t) = [.segment (c :: t)] := rfl
    rw [hhead, wellJoined_laid s (by simp), marks_segment, BlocksFit]
    simp [solid_operand, solid_operand.2]
  | nil =>
    have hhead : Row.head Piece.segment [] = [] := rfl
    rw [hhead]
    -- Without a first segment, blocks that add nothing are passed over until one adds something.
    induction rest with
    | nil => simp [Row.laid, BlocksFit, marks, wellJoined_nil]
    | cons p rest ih =>
      obtain ⟨block, t⟩ := p
      have hjoin : Row.join Piece.operator [] = [] := rfl
      rw [Row.laid, hjoin, List.nil_append, BlocksFit]
      split
      · rename_i hempty
        obtain ⟨rfl, rfl⟩ : block = [] ∧ t = [] := by simpa using hempty
        simpa [Row.segment] using ih
      · rename_i hempty
        have hne : block ++ Row.segment .operator .segment t ≠ [] := by
          intro h
          obtain ⟨rfl, h⟩ := List.append_eq_nil_iff.1 h
          cases t with
          | nil => simp at hempty
          | cons c t => simp [Row.segment] at h
        rw [wellJoined_laid s hne]
        split
        · rename_i hlast
          obtain ⟨rfl, rfl⟩ : t = [] ∧ rest = [] := by simpa using hlast
          simp [Row.segment]
        · rename_i hlast
          rw [solid_segment, List.forall_mem_cons]
          constructor
          · rintro ⟨hwell, hsolid, hrest⟩
            refine ⟨?_, hrest⟩
            by_cases hr : rest = []
            · subst hr
              exact (wellJoined_segment s (by rintro rfl; simp at hlast)).1 hwell
            · exact hsolid hr
          · rintro ⟨hsolid, hrest⟩
            exact ⟨((solid_segment s t).2 hsolid).2, fun _ => hsolid, hrest⟩

end Laid

/-! ## String expressions -/

/-- The items of blocks laid out are the blocks of items laid out. -/
theorem map_value_laid (acc : List Piece) (rest : List (List Piece × Text)) :
    (Row.laid .operator .segment acc rest).map Piece.value =
      Row.laid Item.plus segmentItem (acc.map Piece.value)
        (rest.map fun p => (p.1.map Piece.value, p.2)) := by
  induction rest generalizing acc with
  | nil => rfl
  | cons p rest ih =>
    have hjoin : (Row.join Piece.operator acc).map Piece.value =
        Row.join Item.plus (acc.map Piece.value) := by
      simp only [Row.join, List.isEmpty_map]
      split <;> simp [Piece.value]
    have hsegment : (Row.segment Piece.operator Piece.segment p.2).map Piece.value =
        Row.segment Item.plus segmentItem p.2 := by
      simp only [Row.segment]
      split <;> rfl
    rw [Row.laid, ih, List.map_append, List.map_append, hjoin, hsegment]
    rfl

theorem map_value_row (t : Text) (rest : List (List Piece × Text)) :
    (Piece.row t rest).map Piece.value = Row.laid Item.plus segmentItem (Row.head segmentItem t)
      (rest.map fun p => (p.1.map Piece.value, p.2)) := by
  rw [Piece.row, map_value_laid]
  cases t <;> rfl

namespace Build

variable {σ τ : Session} {segments : Segments} {args : List Value}

/-- **When the operators of a string expression join operands.** An
expression that has been built from data, names and known fragments holds
their blocks between the segments, and, whatever operators the blocks hold
already, all operators are between operands exactly if the blocks fit. -/
theorem wellJoined_expression_iff {t : Text} {ts : List Text} {v : Value}
    (hsegments : segments.Are σ.store (t :: ts))
    (hcode : ∀ arg ∈ args, σ.store.isCode arg = true →
      (∃ n, arg = .name n) ∨ ∃ xs e, σ.store.Holds arg xs e)
    (h : expression segments args σ = .ok v τ) :
    ∃ rest, rest.map Prod.snd = ts ∧ σ.store.Blocks args rest ∧
      ∀ marked, Piece.Marked marked rest →
        τ.store.Holds v ((Piece.row t marked).map Piece.value) true ∧
          (WellJoined (marks τ.store (Piece.row t marked)) ↔ BlocksFit τ.store t marked) := by
  have hblocks : ∀ arg ∈ args, σ.store.isCode arg = true →
      ∃ block, σ.store.Contributes arg block := by
    intro arg harg hc
    rcases hcode arg harg hc with ⟨n, rfl⟩ | ⟨xs, e, hholds⟩
    · exact ⟨_, .name n⟩
    · exact ⟨xs, .fragment hholds⟩
  obtain ⟨rest, rfl, hargs⟩ := contributes_of_expression hsegments hblocks h
  obtain ⟨w, υ, hw, hholds, -, -⟩ := expression_of_contributes hsegments hargs
  cases hw.symm.trans h
  refine ⟨rest, rfl, hargs, fun marked hmarked => ⟨?_, wellJoined_row _ t marked⟩⟩
  rw [map_value_row]
  exact hmarked ▸ hholds

/-- What the shared empty fragment holds. -/
theorem nil_holds : Session.initial.store.Holds nil [.text []] false :=
  .fragment rfl rfl .none

/-- An expression without operands under empty segments, and behind it an
expression that has an operator already. -/
theorem wellJoined_expression_iff_nested :
    let x : Name := ⟨Text.ofString "x", by decide⟩
    let segments : Segments := .ofStrings ["", "", "; ", "!"]
    let pieces : List Piece := [.segment "n=", .operator, .item (.name x), .operator,
      .segment "; ", .operator, .item (.name x), .operator, .segment "!"]
    ∃ a τ b υ v ω, expression (.ofStrings [""]) [] Session.initial = .ok a τ ∧
      expression (.ofStrings ["n=", ""]) [.name x] τ = .ok b υ ∧
      (segments.Are υ.store [[], [], "; ", "!"] ∧
        (∀ arg ∈ [a, b, .name x], υ.store.isCode arg = true →
          (∃ n, arg = .name n) ∨ ∃ xs e, υ.store.Holds arg xs e) ∧
        expression segments [a, b, .name x] υ = .ok v ω) ∧
      ω.store.Holds v (pieces.map Piece.value) true ∧ WellJoined (marks ω.store pieces) := by
  intro x segments pieces
  have hnone : (Segments.ofStrings [""]).Are Session.initial.store [[]] := rfl
  obtain ⟨a, τ, ha, hempty, -⟩ := expression_of_contributes hnone .nil
  have hone : (Segments.ofStrings ["n=", ""]).Are τ.store [Text.ofString "n=", []] := rfl
  have hsingle : τ.store.Blocks [.name x] [([.name x], [])] := .cons (.name x) .nil
  obtain ⟨b, υ, hb, hsum, hgrows, -⟩ := expression_of_contributes hone hsingle
  replace hempty : υ.store.Holds a [] true := hempty.grows hgrows
  let inner : List Piece := [.segment "n=", .operator, .item (.name x)]
  let marked : List (List Piece × Text) := [([], []), (inner, "; "), ([.item (.name x)], "!")]
  let rest : List (List Value × Text) := marked.map fun p => (p.1.map Piece.value, p.2)
  have hsegments : segments.Are υ.store ([] :: rest.map Prod.snd) := rfl
  have hblocks : υ.store.Blocks [a, b, .name x] rest :=
    .cons (.fragment hempty) (.cons (.fragment hsum) (.cons (.name x) .nil))
  have hcode : ∀ arg ∈ [a, b, .name x], υ.store.isCode arg = true →
      (∃ n, arg = .name n) ∨ ∃ xs e, υ.store.Holds arg xs e := by
    simp only [List.forall_mem_cons]
    exact ⟨fun _ => .inr ⟨_, _, hempty⟩, fun _ => .inr ⟨_, _, hsum⟩, fun _ => .inl ⟨x, rfl⟩, nofun⟩
  obtain ⟨v, ω, hv, -⟩ := expression_of_contributes hsegments hblocks
  obtain ⟨rest', hsnd, hblocks', hmarked⟩ := wellJoined_expression_iff hsegments hcode hv
  obtain ⟨hholds, hfits⟩ := hmarked marked (hblocks'.unique hblocks hsnd)
  have hname : Solid (marks ω.store [.item (.name x)]) := solid_operand
  have hinner : Solid (marks ω.store inner) := by
    have hmarks : marks ω.store inner = [.operand] ++ .operator :: [.operand] := by
      simp only [inner]
      rw [← List.singleton_append, marks_append, marks_segment]
      rfl
    rw [hmarks, solid_append_operator]
    exact ⟨solid_operand, solid_operand⟩
  have hblocksFit : BlocksFit ω.store [] marked := by
    simp only [marked, BlocksFit]
    simpa using ⟨hinner, hname⟩
  exact ⟨a, τ, b, υ, v, ω, ha, hb, ⟨hsegments, hcode, hv⟩, hholds, hfits.2 hblocksFit⟩

/-- **An empty fragment behind a segment** leaves the operator between
them without an operand on its right. -/
theorem not_wellJoined_expression_nil :
    ∃ v τ pieces, expression (.ofStrings ["a", ""]) [nil] Session.initial = .ok v τ ∧
      pieces = [.segment "a", .operator, .item (.text [])] ∧
      τ.store.Holds v (pieces.map Piece.value) true ∧ ¬ WellJoined (marks τ.store pieces) := by
  have hsegments : (Segments.ofStrings ["a", ""]).Are Session.initial.store
      [Text.ofString "a", []] := rfl
  have hblocks : Session.initial.store.Blocks [nil] [([.text []], [])] :=
    .cons (.fragment nil_holds) .nil
  obtain ⟨v, τ, hv, hholds, -⟩ := expression_of_contributes hsegments hblocks
  refine ⟨v, τ, _, hv, rfl, hholds, fun hwell => ?_⟩
  obtain ⟨-, hright⟩ := hwell [.operand] [] rfl
  cases hright

end Build

end Splice
