import Splice.Proofs.Expression.Value
import Splice.Proofs.Folding.Runs
/-!
# Templates — string expressions of constants

Where all arguments of a string expression are constants, its value is
known when it is built, and folding it leaves the literal of that value.
There are two ways to the text: each piece is encoded, and the literals
are joined with the scalars between them, or the pieces are joined and
encoded at once. They agree because the encoder goes over a text one code
point at a time, in both of its passes (`Text.content_append`), and leaves
the text of a scalar as it is (`Text.IsPlain.content`).

What each argument adds is one operand that puts the content of its text
between quotes (`Store.Writes.contributes`). All operands are then one run,
and if there is a literal among them, the run is merged into one literal
(`Folded.reaches_enclosed`).
-/

namespace Splice

open Folded Relation

/-! ## The content of a literal -/

/-- A plain code point needs no escape. -/
theorem CodePoint.escaped_of_isPlain {c : CodePoint} (h : c.isPlain = true) : c.escaped = [c] := by
  have hcontrol : ∀ d : CodePoint, d.toNat < 0x20 → c ≠ d := by
    rintro d hd rfl
    have hle := (toNat_of_isPlain h).1
    omega
  have hle : ¬ c.toNat < 0x20 := by
    have hle := (toNat_of_isPlain h).1
    omega
  rw [escaped, if_neg (ne_quote_of_isPlain h), if_neg (ne_backslash_of_isPlain h),
    if_neg (hcontrol _ (by decide)), if_neg (hcontrol _ (by decide)),
    if_neg (hcontrol _ (by decide)), if_neg (hcontrol _ (by decide)),
    if_neg (hcontrol _ (by decide)), if_neg hle]

namespace Text

variable {t u : Text}

/-- What the encoder puts between the quotes of the literal of a text. -/
def content (t : Text) : Text := t.flatMap fun c => cleared c.escaped

/-- The literal of a text is its content between quotes. -/
theorem literal_eq_enclosed (t : Text) : t.literal = enclosed t.content := t.literal_eq

/-- **The content of two texts** is that of each, one after the other. -/
theorem content_append (t u : Text) : content (t ++ u) = content t ++ content u :=
  List.flatMap_append

/-- Plain text is its own content. -/
theorem IsPlain.content (h : t.IsPlain) : Text.content t = t := by
  induction t with
  | nil => rfl
  | cons c t ih =>
    obtain ⟨hc, ht⟩ := isPlain_cons.1 h
    have hcleared : Text.cleared c.escaped = [c] := by
      rw [CodePoint.escaped_of_isPlain hc]
      exact IsPlain.cleared (isPlain_cons.2 ⟨hc, isPlain_nil⟩)
    rw [Text.content, List.flatMap_cons, hcleared]
    exact congrArg (c :: ·) (ih ht)

end Text

/-! ## Operands that are known -/

/-- Operands that put the content of a text between quotes. -/
def Row.Quotes (ops : List Value) (t : Text) : Prop :=
  ∃ ts, List.Forall₂ Item.Inner ops ts ∧ ts.flatten = t.content

namespace Row.Quotes

variable {xs ys : List Value} {t u : Text} {x : Value}

theorem nil : Quotes [] [] := ⟨[], .nil, rfl⟩

theorem singleton (h : x.Inner t.content) : Quotes [x] t :=
  ⟨[t.content], .cons h .nil, List.flatten_singleton⟩

/-- Side by side, they put in the content of both texts. -/
theorem append (hx : Quotes xs t) (hy : Quotes ys u) : Quotes (xs ++ ys) (t ++ u) := by
  obtain ⟨ts, hts, ht⟩ := hx
  obtain ⟨us, hus, hu⟩ := hy
  exact ⟨ts ++ us, List.rel_append hts hus, by rw [List.flatten_append, ht, hu, t.content_append]⟩

/-- The literal of a segment, also where it is left out. -/
theorem head (t : Text) : Quotes (Row.head segmentItem t) t := by
  cases t with
  | nil => exact nil
  | cons c t =>
    refine singleton ?_
    rw [segmentItem, Text.literal_eq_enclosed]
    exact .quoted _

/-- **Known operands of which one is a literal fold to one literal**, that
of the text whose content they put in. -/
theorem fold_eq (h : Quotes xs t) (hq : ∃ x ∈ xs, x.IsQuoted)
    (print : List Value → Ref → Except Failure Text) :
    (fold print (xs.intersperse .plus)).failure? = none ∧
      (fold print (xs.intersperse .plus)).items = [.text t.literal] := by
  obtain ⟨ts, hts, ht⟩ := h
  have hsteady : Steady (xs.intersperse .plus) := steady_intersperse (steady_of_inner hts)
  have hquiet : Quiet [(.text t.literal : Value)] := quiet_of_length_le (by simp)
  refine ⟨fold_steady_failure? hsteady, fold_eq_of_reaches hsteady ?_ fun _ => hquiet.not_merges⟩
  rw [t.literal_eq_enclosed, ← ht]
  exact reaches_enclosed hts hq

end Row.Quotes

/-! ## Arguments that are known -/

/-- A constant argument, with the text that it stands for. -/
inductive Store.Writes (s : Store) : Value → Text → Prop
  /-- Text stands for itself. -/
  | text (t : Text) : Writes s (.text t) t
  /-- A scalar stands for what is written for it in code. -/
  | scalar {c : Scalar} {t : Text} : c.render = .ok t → Writes s (.scalar c) t
  /-- A list stands for its elements joined by commas. -/
  | listed {v : Value} {xs : List Value} {ts : List Text} : s.listed? v = some xs →
      List.Forall₂ ElementText xs ts → Writes s v (Text.join [.char ','] ts)

variable {s : Store} {v : Value} {t : Text}

/-- **A constant argument adds one operand**, which puts the content of its
text between quotes. It is a literal unless the argument is a scalar. -/
theorem Store.Writes.contributes (h : s.Writes v t) :
    ∃ x, s.Contributes v [x] ∧ x.Inner t.content ∧ ((∀ c, v ≠ .scalar c) → x.IsQuoted) := by
  have hliteral : ∀ {t : Text}, (segmentItem t).Inner t.content ∧ (segmentItem t).IsQuoted := by
    intro t
    rw [segmentItem, t.literal_eq_enclosed]
    exact ⟨.quoted _, _, rfl⟩
  cases h with
  | text t => exact ⟨segmentItem t, .literal rfl rfl rfl, hliteral.1, fun _ => hliteral.2⟩
  | @scalar c _ hc =>
    refine ⟨.scalar c, .scalar c, ?_, fun h => absurd rfl (h c)⟩
    rw [(Scalar.plain_render hc).content]
    exact .scalar hc
  | listed hlisted hts =>
    exact ⟨segmentItem _, .listed hlisted (Store.joinElements_of_forall₂ hts), hliteral.1,
      fun _ => hliteral.2⟩

/-- A segment that is not left out is a literal. -/
theorem exists_isQuoted_head (ht : t ≠ []) : ∃ x ∈ Row.head segmentItem t, x.IsQuoted := by
  obtain ⟨c, t, rfl⟩ := List.exists_cons_of_ne_nil ht
  refine ⟨segmentItem (c :: t), List.mem_singleton_self _, Text.content (c :: t), ?_⟩
  rw [segmentItem, Text.literal_eq_enclosed]

/-- A literal among later operands is among all. -/
theorem exists_isQuoted_append {xs ys : List Value} (h : ∃ y ∈ ys, y.IsQuoted) :
    ∃ y ∈ xs ++ ys, y.IsQuoted := by
  obtain ⟨y, hy, hquoted⟩ := h
  exact ⟨y, List.mem_append_right _ hy, hquoted⟩

/-- **What constant arguments add**, each with the segment behind it: known
operands that put in the content of all the texts in turn, with a literal
among them if an argument is no scalar or a segment is not empty. -/
theorem Store.exists_blocks_of_writes {args : List Value} {rest : List (Text × Text)}
    (h : List.Forall₂ (fun arg p => s.Writes arg p.1) args rest) :
    ∃ blocks : List (List Value × Text), blocks.map Prod.snd = rest.map Prod.snd ∧
      s.Blocks args (blocks.map fun p => (p.1.intersperse Item.plus, p.2)) ∧
      (∀ p ∈ blocks, p.1 ≠ []) ∧
      Row.Quotes (blocks.flatMap fun p => p.1 ++ Row.head segmentItem p.2)
        (rest.flatMap fun p => p.1 ++ p.2) ∧
      ((∃ arg ∈ args, ∀ c, arg ≠ .scalar c) ∨ (∃ p ∈ rest, p.2 ≠ []) →
        ∃ x ∈ blocks.flatMap fun p => p.1 ++ Row.head segmentItem p.2, x.IsQuoted) := by
  induction h with
  | nil =>
    refine ⟨[], rfl, .nil, nofun, .nil, ?_⟩
    rintro (⟨arg, harg, -⟩ | ⟨p, hp, -⟩)
    · exact absurd harg List.not_mem_nil
    · exact absurd hp List.not_mem_nil
  | @cons arg p args rest hp _ ih =>
    obtain ⟨x, hcontributes, hinner, hquoted⟩ := hp.contributes
    obtain ⟨blocks, hsnd, hblocks, hne, hquotes, hliteral⟩ := ih
    refine ⟨([x], p.2) :: blocks, by simp [hsnd], .cons hcontributes hblocks,
      List.forall_mem_cons.2 ⟨List.cons_ne_nil _ _, hne⟩, ?_, ?_⟩
    · exact ((Row.Quotes.singleton hinner).append (.head p.2)).append hquotes
    · rw [List.flatMap_cons, List.exists_mem_cons_iff, List.exists_mem_cons_iff]
      rintro ((harg | hargs) | (hsegment | hrest))
      · exact ⟨x, by simp, hquoted harg⟩
      · exact exists_isQuoted_append (hliteral (.inl hargs))
      · obtain ⟨y, hy, hyquoted⟩ := exists_isQuoted_head hsegment
        exact ⟨y, by simp [hy], hyquoted⟩
      · exact exists_isQuoted_append (hliteral (.inr hrest))

variable {σ : Session} {segments : Segments} {args : List Value} {rest : List (Text × Text)}

/-- **A string expression of constants folds to the literal of the whole
text.** If a segment is not empty or an argument is text or a list, folding
the expression leaves one item, and that is what the segments and the texts
of the arguments are encoded as, put together first. -/
theorem Build.foldCode_constant (hsegments : segments.Are σ.store (t :: rest.map Prod.snd))
    (hargs : List.Forall₂ (fun arg p => σ.store.Writes arg p.1) args rest)
    (hliteral : (∃ u ∈ t :: rest.map Prod.snd, u ≠ []) ∨ ∃ arg ∈ args, ∀ c, arg ≠ .scalar c) :
    ∃ v τ υ u, Build.expression segments args σ = .ok v τ ∧ Build.foldCode v τ = .ok v υ ∧
      Build.literal (.text (t ++ rest.flatMap fun p => p.1 ++ p.2)) σ = .ok u σ ∧
      υ.store.Holds v [.text u] true := by
  obtain ⟨blocks, hsnd, hblocks, hne, hquotes, hquoted⟩ := Store.exists_blocks_of_writes hargs
  have hsegments : segments.Are σ.store
      (t :: (blocks.map fun p => (p.1.intersperse Item.plus, p.2)).map Prod.snd) := by
    simpa [List.map_map, Function.comp_def, hsnd] using hsegments
  obtain ⟨v, τ, hv, hholds, -, -⟩ := Build.expression_of_contributes hsegments hblocks
  have hhead : Row.head segmentItem t = (Row.head segmentItem t).intersperse Item.plus := by
    cases t <;> rfl
  rw [hhead, laid_intersperse hne] at hholds
  have hexists : ∃ x ∈ Row.head segmentItem t ++
      blocks.flatMap (fun p => p.1 ++ Row.head segmentItem p.2), x.IsQuoted := by
    rcases hliteral with ⟨u, hu, hne⟩ | hargs
    · rcases List.mem_cons.1 hu with rfl | hu
      · obtain ⟨x, hx, hxquoted⟩ := exists_isQuoted_head hne
        exact ⟨x, List.mem_append_left _ hx, hxquoted⟩
      · obtain ⟨p, hp, rfl⟩ := List.mem_map.1 hu
        exact exists_isQuoted_append (hquoted (.inr ⟨p, hp, hne⟩))
    · exact exists_isQuoted_append (hquoted (.inl hargs))
  have hfold := ((Row.Quotes.head t).append hquotes).fold_eq hexists
  obtain ⟨print, υ, hυ, hfolded⟩ := Build.foldCode_of_holds hholds fun print => (hfold print).1
  rw [(hfold print).2] at hfolded
  exact ⟨v, τ, υ, _, hv, hυ, literal_text _, hfolded⟩

/-- Scalars before the first literal, a list, and two halves of a surrogate
pair on the two sides of a seam. -/
theorem Build.foldCode_constant_surrogates :
    let high : CodePoint := .surrogate 0x3D
    let low : CodePoint := .surrogate 0x600
    let σ : Session := ⟨⟨#[.tuple [.scalar .null, .text "\"", .scalar (.bool false)]]⟩, []⟩
    let args : List Value := [.scalar (.int 1), .scalar .null, .text [low], .object ⟨0⟩]
    let segments : Segments := .ofTexts [[], [], [high], [], "\n"]
    (∃ arg ∈ args, ∀ c, arg ≠ .scalar c) ∧
      ∃ v τ υ, Build.expression segments args σ = .ok v τ ∧ Build.foldCode v τ = .ok v υ ∧
        υ.store.Holds v [.text "\"1null\\ud83d\\ude00,\\\",false\\n\""] true := by
  intro high low σ args segments
  have hone : (Scalar.int 1).render = .ok "1" := Scalar.render_int_of_lt (by decide)
  have hlisted : σ.store.listed? (.object ⟨0⟩) =
      some [.scalar .null, .text "\"", .scalar (.bool false)] := rfl
  have hlist : σ.store.Writes (.object ⟨0⟩) ",\",false" :=
    .listed hlisted (.cons .missing (.cons (.text _) (.cons (.scalar nofun rfl) .nil)))
  let rest : List (Text × Text) := [("1", []), ("null", [high]), ([low], []), (",\",false", "\n")]
  have hargs : List.Forall₂ (fun arg p => σ.store.Writes arg p.1) args rest :=
    .cons (.scalar hone) (.cons (.scalar rfl) (.cons (.text _) (.cons hlist .nil)))
  have hliteral : ∃ arg ∈ args, ∀ c, arg ≠ .scalar c := ⟨.text [low], by simp [args], nofun⟩
  have hsegments : segments.Are σ.store ([] :: rest.map Prod.snd) := rfl
  obtain ⟨v, τ, υ, u, hv, hυ, hu, hholds⟩ :=
    Build.foldCode_constant hsegments hargs (.inr hliteral)
  have hwhole : Text.literal ([] ++ rest.flatMap fun p => p.1 ++ p.2) =
      "\"1null\\ud83d\\ude00,\\\",false\\n\"" := by decide
  rw [Build.literal_text, hwhole] at hu
  cases hu
  exact ⟨hliteral, v, τ, υ, hv, hυ, hholds⟩

end Splice
