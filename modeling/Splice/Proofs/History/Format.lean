import Splice.Proofs.Format
import Splice.Proofs.History
/-!
# Histories — format strings instead of segments

Segments can be passed as a list, or written as a format string. While
code is spliced, a list is read segment by segment, but it is at hand and
no fragment has it for its items, so no fold changes it. So the list is as
good as the texts that it holds at the start (`Build.code_congr`), and a
format string that they are written as does what the list does
(`Format.split_undoes_escape`).
-/

namespace Splice

open Store

namespace Segments

variable {σ : Session} {segments : Segments} {ts : List Text}

theorem are_ofTexts (s : Store) (ts : List Text) : (ofTexts ts).Are s ts := rfl

theorem get_congr (h : segments.Are σ.store ts) (i : Nat) :
    segments.get i σ = (ofTexts ts).get i σ := by
  cases segments with
  | fixed items =>
    cases h
    rfl
  | held r =>
    rcases h with h | h <;> simp only [get, ofTexts, Build.read, h]

end Segments

namespace Build

variable {σ : Session} {hand args : List Value} {segments : Segments} {ts : List Text}
  {a : Assembly}

theorem checkArity_congr (h : segments.Are σ.store ts) (args : List Value) :
    checkArity segments args σ = checkArity (.ofTexts ts) args σ :=
  bind_congr ((Segments.size_of_are h).trans (Segments.size_of_are
    (Segments.are_ofTexts σ.store ts)).symm) fun _ _ _ => rfl

/-- **The arguments of code** are spliced alike, whether the segments are
texts or a list that holds them. -/
theorem codeArguments_congr (h : σ.store.Sound hand) (hts : segments.Are σ.store ts)
    (hheld : ∀ r, segments = .held r → .object r ∈ hand) (ha : a.IsTallied) (i : Nat) :
    codeArguments segments i args a σ = codeArguments (.ofTexts ts) i args a σ := by
  induction args generalizing σ i a with
  | nil => rfl
  | cons arg args ih =>
    refine bind_congr rfl fun b τ hadd => ?_
    obtain ⟨hb, hw⟩ := (runs_addArgument h ha arg).ok hadd
    -- The list of segments is none of those that have been folded.
    have hlists : ∀ q, σ.store.ExpressionItems [arg] q → σ.store.IsItems q :=
      fun q => ExpressionItems.isItems
    have hts' := hts.rewrites hheld h (hw.imp FoldsTo.mergesTo) hlists
    refine bind_congr (Segments.get_congr hts' i) fun v υ hget => ?_
    obtain ⟨rfl, t, -, rfl⟩ := Segments.get_eq_ok hts' hget
    exact ih (h.rewrites (hw.imp FoldsTo.mergesTo) hlists) hts' (hb.push_text t) (i + 1)

theorem code_congr (h : σ.store.Sound hand) (hts : segments.Are σ.store ts)
    (hheld : ∀ r, segments = .held r → .object r ∈ hand) (args : List Value) :
    code segments args σ = code (.ofTexts ts) args σ := by
  refine bind_congr (checkArity_congr hts args) fun _ τ harity => ?_
  obtain ⟨rfl, -⟩ := (reads_checkArity segments args).ok harity
  refine bind_congr (Segments.get_congr hts 0) fun v υ hget => ?_
  obtain ⟨rfl, t, -, rfl⟩ := Segments.get_eq_ok hts hget
  exact bind_congr (codeArguments_congr h hts hheld (.of_texts [t]) 1) fun _ _ _ => rfl

/-- The arguments of an expression are spliced alike. -/
theorem expressionArguments_congr (h : σ.store.Sound hand) (hts : segments.Are σ.store ts)
    (ha : a.IsTallied) (i : Nat) :
    expressionArguments segments i args a σ = expressionArguments (.ofTexts ts) i args a σ := by
  induction args generalizing i a with
  | nil => rfl
  | cons arg args ih =>
    refine bind_congr rfl fun b τ hadd => ?_
    obtain ⟨rfl, hb⟩ := (reads_addOperand h ha.join arg).ok hadd
    refine bind_congr (Segments.get_congr hts i) fun v υ hget => ?_
    obtain ⟨rfl, t, -, rfl⟩ := Segments.get_eq_ok hts hget
    refine bind_congr rfl fun c υ hsegment => ?_
    obtain ⟨rfl, hc⟩ := (reads_addSegment hb (.text t)).ok hsegment
    exact ih hc (i + 1)

theorem expression_congr (h : σ.store.Sound hand) (hts : segments.Are σ.store ts)
    (args : List Value) : expression segments args σ = expression (.ofTexts ts) args σ := by
  refine bind_congr (checkArity_congr hts args) fun _ τ harity => ?_
  obtain ⟨rfl, -⟩ := (reads_checkArity segments args).ok harity
  refine bind_congr (Segments.get_congr hts 0) fun v υ hget => ?_
  obtain ⟨rfl, t, -, rfl⟩ := Segments.get_eq_ok hts hget
  refine bind_congr rfl fun first υ hfirst => ?_
  obtain ⟨rfl, -⟩ := (reads_segmentLiteral (.text t)).ok hfirst
  have ha : (⟨(first.map Item.text).toArray, []⟩ : Assembly).IsTallied := by
    cases first with
    | none => exact .of_texts []
    | some t => exact .of_texts [t]
  exact bind_congr (expressionArguments_congr h hts ha 1) fun _ _ _ => rfl

/-- A format string is spliced as the segments that it is split into. -/
theorem codeOfFormat_of_split {t : Text} (h : Format.split t = .ok ts) (args : List Value) :
    codeOfFormat (.text t) args = code (.ofTexts ts) args ∧
      expressionOfFormat (.text t) args = expression (.ofTexts ts) args := by
  have hsegments : ∀ σ, formatSegments (.text t) σ = .ok ts σ := fun σ =>
    read_of_ok (f := fun _ => Format.split t) h
  exact ⟨funext fun σ => bind_of_ok (hsegments σ), funext fun σ => bind_of_ok (hsegments σ)⟩

end Build

/-- **Splitting undoes escaping.** Segments of any text whatsoever, each
brace in them doubled, with a bare field between any two of them, are a
format string that is split into these segments again. So whatever is done
with the format string is what is done with the segments, whether they
are passed as texts in a row or as a list or a tuple at hand. -/
theorem Format.split_undoes_escape {ts : List Text} (hts : ts ≠ []) :
    split (joined ts) = .ok ts ∧
    (∀ args, Build.codeOfFormat (.text (joined ts)) args = Build.code (.ofTexts ts) args ∧
      Build.expressionOfFormat (.text (joined ts)) args = Build.expression (.ofTexts ts) args) ∧
    ∀ {σ : Session} {hand : List Value} {r : Ref}, Reachable σ hand → .object r ∈ hand →
      σ.store.get r = .list (ts.map .text) ∨ σ.store.get r = .tuple (ts.map .text) →
      ∀ args, Build.codeOfFormat (.text (joined ts)) args σ = Build.code (.held r) args σ ∧
        Build.expressionOfFormat (.text (joined ts)) args σ =
          Build.expression (.held r) args σ := by
  have hsplit := split_joined hts
  refine ⟨hsplit, fun args => Build.codeOfFormat_of_split hsplit args, ?_⟩
  intro σ hand r hreach hmem hget args
  obtain ⟨hcode, hexpression⟩ := Build.codeOfFormat_of_split hsplit args
  have hts : (Segments.held r).Are σ.store ts := hget
  have hheld : ∀ q, Segments.held r = .held q → .object q ∈ hand := fun q hq => by
    cases hq
    exact hmem
  rw [hcode, hexpression]
  exact ⟨(Build.code_congr hreach.sound hts hheld args).symm,
    (Build.expression_congr hreach.sound hts args).symm⟩

/-- Segments that begin and end with braces. -/
theorem Format.split_undoes_escape_braces :
    let ts : List Text := [Text.ofString "if (a) \x7b", Text.ofString "\x7d"]
    let σ : Session := ⟨Store.initial.push (.list (ts.map .text)), []⟩
    let hand : List Value := [.object ⟨2⟩, nil]
    ts ≠ [] ∧ Reachable σ hand ∧ split "if (a) \x7b\x7b\x7b\x7d\x7d\x7d" = .ok ts ∧
      ∀ args, Build.codeOfFormat (.text "if (a) \x7b\x7b\x7b\x7d\x7d\x7d") args σ =
        Build.code (.held ⟨2⟩) args σ := by
  intro ts σ hand
  have hts : ts ≠ [] := List.cons_ne_nil _ _
  have hjoined : joined ts = "if (a) \x7b\x7b\x7b\x7d\x7d\x7d" := by decide
  have hreach : Reachable σ hand := .data .start rfl
  obtain ⟨hsplit, -, hheld⟩ := split_undoes_escape hts
  rw [hjoined] at hsplit hheld
  exact ⟨hts, hreach, hsplit, fun args =>
    (hheld hreach List.mem_cons_self (.inl rfl) args).1⟩

end Splice
