import Splice.Proofs.Folding.Confluence
import Splice.Proofs.Folding.Value
import Mathlib.Data.List.SplitBy
/-!
# Folding — a chain of operands, run by run

Among the operands of a chain, literals and scalars are known ahead of
time, and names and other code are barriers. A run (`Folded.runs`) is as
many known operands next to each other as there are, or one barrier alone.
A run with a literal in it can be merged into one literal that holds what
its operands put between the quotes (`reaches_enclosed`): the literal takes
in what comes after it, and what comes before it takes in the result. A run
without a literal stays what it is.

Side by side, what is left of the runs is a chain again in which no two
neighbours merge (`isChain_apart`), and since every way of merging steady
items to the end ends in their fold, this chain is what the fold leaves
(`fold_chain_items`).
-/

namespace Splice

open Folded Relation

variable {ρ : Type}

/-! ## Known operands -/

/-- A string is a content between quotes. -/
theorem Json.isString_iff {t : Text} {us : List Nat} :
    IsString t us ↔ ∃ body : Text, t = Text.enclosed body ∧ Content body us := Iff.rfl

namespace Item

/-- Whether an operand of a chain is known ahead of time: a scalar, or a
literal. -/
def isKnown : Item ρ → Bool
  | .scalar _ => true
  | x => x.startsQuoted

/-- What a known operand puts between the quotes of a literal: a literal
what is between its own, and a scalar its text. -/
def inside : Item ρ → Text
  | .text t => t.tail.dropLast
  | .scalar c => c.render.toOption.getD []
  | _ => []

variable {a b x : Item ρ} {us : List Nat}

theorem inside_scalar {c : Scalar} {t : Text} (h : c.render = .ok t) :
    (.scalar c : Item ρ).inside = t := by
  rw [inside, h]
  rfl

theorem inside_enclosed (body : Text) : (.text (Text.enclosed body) : Item ρ).inside = body := by
  rw [inside, Text.tail_enclosed, List.dropLast_concat]

/-- What puts something between quotes is steady. -/
theorem Inner.isSteady {t : Text} (h : x.Inner t) : x.IsSteady := by
  cases h with
  | quoted => exact .text (by simp [Text.enclosed])
  | scalar h => exact .scalar h

/-- Operands are steady. -/
theorem IsOperand.isSteady (h : x.IsOperand) : x.IsSteady := by
  cases h with
  | literal h =>
    obtain ⟨body, rfl, -⟩ := Json.isString_iff.1 h
    exact (Inner.quoted body).isSteady
  | scalar h => exact .scalar h
  | name n => exact .name n
  | code hstart _ _ =>
    refine .text ?_
    rintro rfl
    exact absurd hstart (by decide)

/-- **A known operand spells something**, and what it puts between the
quotes of a literal is a content that stands for that. -/
theorem IsOperand.spells (h : x.IsOperand) (hx : x.isKnown = true) :
    x.Inner x.inside ∧ ∃ us, x.Spells us ∧ Json.Content x.inside us := by
  cases h with
  | literal h =>
    obtain ⟨body, rfl, hbody⟩ := Json.isString_iff.1 h
    rw [inside_enclosed]
    exact ⟨.quoted body, _, .literal h, hbody⟩
  | scalar h =>
    rw [inside_scalar h]
    exact ⟨.scalar h, _, .scalar h, .of_plain (Scalar.plain_render h)⟩
  | name n => cases hx
  | code hstart _ _ => exact absurd (hstart.symm.trans hx) (by decide)

theorem isKnown_of_startsQuoted (h : x.startsQuoted = true) : x.isKnown = true := by
  cases x with
  | scalar c => rfl
  | _ => exact h

theorem IsLiteral.isQuoted (h : x.IsLiteral) : x.IsQuoted := by
  obtain ⟨t, us, rfl, body, rfl, -⟩ := h
  exact ⟨body, rfl⟩

theorem Spells.isKnown (h : x.Spells us) : x.isKnown = true := by
  cases h with
  | literal h => exact h.startsQuoted
  | scalar h => rfl

/-- Two items that do not merge. -/
def Apart (a b : Item ρ) : Prop :=
  ∀ print : ρ → Except Failure Text, a.merge? print b = .ok none

/-- **Two operands do not merge** unless both are known and one is a
literal. -/
theorem apart_of_operands (ha : a.IsOperand) (hb : b.IsOperand)
    (h : a.isKnown = true → b.isKnown = true →
      a.startsQuoted = false ∧ b.startsQuoted = false) : a.Apart b := by
  intro print
  rcases merge?_operands ha hb with hnone | ⟨t, us, vs, -, hus, hvs, -, hliteral⟩
  · exact hnone
  · obtain ⟨hstart, hstart'⟩ := h hus.isKnown hvs.isKnown
    rcases hliteral with hliteral | hliteral
    · exact absurd (hstart.symm.trans hliteral.startsQuoted) (by decide)
    · exact absurd (hstart'.symm.trans hliteral.startsQuoted) (by decide)

end Item

/-! ## One run -/

namespace Folded

variable {x : Item ρ} {t : Text} {xs : List (Item ρ)} {ts : List Text}
  {print : List (Item ρ) → ρ → Except Failure Text}

/-- Steady items with operators between them are a steady row. -/
theorem steady_intersperse (h : Steady xs) : Steady (xs.intersperse .plus) := by
  induction xs with
  | nil => exact h
  | cons x xs ih =>
    obtain ⟨hx, hxs⟩ := List.forall_mem_cons.1 h
    cases xs with
    | nil => exact h
    | cons y ys =>
      rw [List.intersperse_cons_cons]
      exact List.forall_mem_cons.2 ⟨hx, List.forall_mem_cons.2 ⟨.text (by decide), ih hxs⟩⟩

/-- Items that put something between quotes are steady. -/
theorem steady_of_inner (h : List.Forall₂ Item.Inner xs ts) : Steady xs := by
  induction h with
  | nil => exact fun _ hx => absurd hx List.not_mem_nil
  | cons hx _ ih => exact List.forall_mem_cons.2 ⟨hx.isSteady, ih⟩

/-- Two rows of operands, one after the other, can be merged one by one. -/
theorem reaches_intersperse_append {ys xs' ys' : List (Item ρ)} (hxs : Steady xs)
    (hys : Steady ys) (hne : xs ≠ [] ∧ ys ≠ [] ∧ xs' ≠ [] ∧ ys' ≠ [])
    (hx : ReflTransGen (Merges print) (xs.intersperse .plus) (xs'.intersperse .plus))
    (hy : ReflTransGen (Merges print) (ys.intersperse .plus) (ys'.intersperse .plus)) :
    ReflTransGen (Merges print) ((xs ++ ys).intersperse .plus)
      ((xs' ++ ys').intersperse .plus) := by
  obtain ⟨hxne, hyne, hxne', hyne'⟩ := hne
  have hplus : Steady [(.plus : Item ρ)] := List.forall_mem_singleton.2 (.text (by decide))
  have hrest : ReflTransGen (Merges print) ([.plus] ++ ys.intersperse .plus)
      ([.plus] ++ ys'.intersperse .plus) :=
    reaches_append_append hplus (steady_intersperse hys) .refl hy
  rw [intersperse_append hxne hyne, intersperse_append hxne' hyne']
  exact reaches_append_append (steady_intersperse hxs)
    (List.forall_mem_append.2 ⟨hplus, steady_intersperse hys⟩) hx hrest

/-- The first two items of a row are merged. -/
theorem merges_head {a b : Item ρ} {u : Text} (ha : a.Inner t) (hb : b.Inner u)
    (hq : a.IsQuoted ∨ b.IsQuoted) (xs : List (Item ρ)) :
    Merges print ((a :: b :: xs).intersperse .plus)
      ((.text (t ++ u).enclosed :: xs).intersperse .plus) := by
  rw [List.intersperse_cons_cons, intersperse_eq_cons_tail Item.plus b,
    intersperse_eq_cons_tail Item.plus (.text _), tail_intersperse_congr (.text _) b]
  exact .of_inner (l := []) ha hb hq

/-- A literal takes in what comes after it. -/
theorem reaches_enclosed_of_head (body : Text) (h : List.Forall₂ Item.Inner xs ts) :
    ReflTransGen (Merges print) ((.text body.enclosed :: xs).intersperse .plus)
      [.text (Text.enclosed (body ++ ts.flatten))] := by
  induction h generalizing body with
  | nil =>
    rw [List.flatten_nil, List.append_nil]
    exact .refl
  | @cons x t xs ts hx _ ih =>
    rw [List.flatten_cons, ← List.append_assoc]
    exact .head (merges_head (.quoted body) hx (.inl ⟨body, rfl⟩) xs) (ih (body ++ t))

/-- **A run with a literal in it can be merged into one literal**, which
holds what the operands put between the quotes. -/
theorem reaches_enclosed (h : List.Forall₂ Item.Inner xs ts) (hq : ∃ x ∈ xs, x.IsQuoted) :
    ReflTransGen (Merges print) (xs.intersperse .plus) [.text (Text.enclosed ts.flatten)] := by
  induction h with
  | nil =>
    obtain ⟨x, hx, -⟩ := hq
    exact absurd hx List.not_mem_nil
  | @cons x t xs ts hx hrest ih =>
    by_cases hhead : x.IsQuoted
    · obtain ⟨body, rfl⟩ := hhead
      rw [hx.unique (.quoted body)]
      exact reaches_enclosed_of_head body hrest
    · -- What comes after the operand is one literal by then, and the operand goes into it.
      have htail : ∃ y ∈ xs, y.IsQuoted := by
        obtain ⟨y, hy, hquoted⟩ := hq
        rcases List.mem_cons.1 hy with rfl | hy
        · exact absurd hquoted hhead
        · exact ⟨y, hy, hquoted⟩
      have hne : xs ≠ [] := by
        obtain ⟨y, hy, -⟩ := htail
        exact List.ne_nil_of_mem hy
      have hreach : ReflTransGen (Merges print) (([x] ++ xs).intersperse .plus)
          (([x] ++ [Item.text (Text.enclosed ts.flatten)]).intersperse .plus) :=
        reaches_intersperse_append (List.forall_mem_singleton.2 hx.isSteady)
          (steady_of_inner hrest) ⟨by simp, hne, by simp, by simp⟩ .refl (ih htail)
      exact hreach.tail (merges_head hx (.quoted ts.flatten) (.inr ⟨_, rfl⟩) [])

/-! ## Runs side by side -/

/-- The runs of a row of operands: as many known operands next to each
other as there are, and each other operand alone. -/
def runs (ops : List (Item ρ)) : List (List (Item ρ)) :=
  ops.splitBy fun a b => a.isKnown && b.isKnown

/-- What is left of a run: one literal with the insides of its operands, if
there is a literal among them, and else the run. -/
def collapsed (run : List (Item ρ)) : List (Item ρ) :=
  if run.any Item.startsQuoted then [.text (Text.enclosed (run.flatMap Item.inside))] else run

variable {run ops : List (Item ρ)} {y : Item ρ}

theorem mem_of_mem_runs (h : run ∈ runs ops) (hx : x ∈ run) : x ∈ ops := by
  rw [← List.flatten_splitBy (fun a b => a.isKnown && b.isKnown) ops]
  exact List.mem_flatten_of_mem h hx

/-- If one operand of a run is known, all are. -/
theorem isKnown_of_mem_runs (h : run ∈ runs ops) (hx : x ∈ run) (hknown : x.isKnown = true) :
    ∀ y ∈ run, y.isKnown = true := by
  have hsuccessors : ∀ {a : Item ρ} {as : List (Item ρ)}, a.isKnown = true →
      (a :: as).IsChain (fun a b => (a.isKnown && b.isKnown) = true) →
      ∀ y ∈ a :: as, y.isKnown = true := by
    intro a as ha has
    induction as generalizing a with
    | nil => exact List.forall_mem_singleton.2 ha
    | cons b as ih =>
      obtain ⟨hab, has⟩ := List.isChain_cons_cons.1 has
      exact List.forall_mem_cons.2 ⟨ha, ih (Bool.and_eq_true_iff.1 hab).2 has⟩
  have hchain : run.IsChain fun a b => (a.isKnown && b.isKnown) = true :=
    List.isChain_of_mem_splitBy h
  match run, hx, hchain with
  | [a], hx, _ =>
    obtain rfl : x = a := List.mem_singleton.1 hx
    exact List.forall_mem_singleton.2 hknown
  | a :: b :: rest, _, hchain =>
    obtain ⟨hab, -⟩ := List.isChain_cons_cons.1 hchain
    exact hsuccessors (Bool.and_eq_true_iff.1 hab).1 hchain

theorem collapsed_of_any (h : run.any Item.startsQuoted = true) :
    collapsed run = [.text (Text.enclosed (run.flatMap Item.inside))] := if_pos h

theorem collapsed_of_not_any (h : run.any Item.startsQuoted = false) : collapsed run = run := by
  rw [collapsed, h]
  rfl

theorem collapsed_ne_nil (h : run ≠ []) : collapsed run ≠ [] := by
  cases hany : run.any Item.startsQuoted with
  | true =>
    rw [collapsed_of_any hany]
    exact List.cons_ne_nil _ _
  | false => rwa [collapsed_of_not_any hany]

/-- A run with a literal in it is known. -/
theorem isKnown_of_any (h : run ∈ runs ops) (hany : run.any Item.startsQuoted = true) :
    ∀ x ∈ run, x.isKnown = true := by
  obtain ⟨x, hx, hstart⟩ := List.any_eq_true.1 hany
  exact isKnown_of_mem_runs h hx (Item.isKnown_of_startsQuoted hstart)

/-- If what is left of a run is known, the run is. -/
theorem isKnown_of_mem_collapsed (h : run ∈ runs ops) (hy : y ∈ collapsed run)
    (hknown : y.isKnown = true) : ∀ x ∈ run, x.isKnown = true := by
  cases hany : run.any Item.startsQuoted with
  | true => exact isKnown_of_any h hany
  | false =>
    rw [collapsed_of_not_any hany] at hy
    exact isKnown_of_mem_runs h hy hknown

section Operands

variable (hops : ∀ x ∈ ops, x.IsOperand)

include hops

/-- Each operand of a run with a literal puts something between quotes. -/
theorem inner_of_any (h : run ∈ runs ops) (hany : run.any Item.startsQuoted = true) :
    List.Forall₂ Item.Inner run (run.map Item.inside) := by
  refine List.forall₂_map_right_iff.2 (List.forall₂_same.2 fun x hx => ?_)
  exact ((hops x (mem_of_mem_runs h hx)).spells (isKnown_of_any h hany x hx)).1

/-- **The literal of a run is a JSON string** that stands for what the
operands spell, one after the other. -/
theorem isString_of_any (h : run ∈ runs ops) (hany : run.any Item.startsQuoted = true) :
    ∃ uss, List.Forall₂ Item.Spells run uss ∧
      Json.IsString (Text.enclosed (run.flatMap Item.inside)) uss.flatten := by
  have hall : ∀ {as : List (Item ρ)}, (∀ x ∈ as, x.IsOperand ∧ x.isKnown = true) →
      ∃ uss, List.Forall₂ Item.Spells as uss ∧
        Json.Content (as.flatMap Item.inside) uss.flatten := by
    intro as has
    induction as with
    | nil => exact ⟨[], .nil, .nil⟩
    | cons x as ih =>
      obtain ⟨⟨hx, hknown⟩, has⟩ := List.forall_mem_cons.1 has
      obtain ⟨-, us, hus, hcontent⟩ := hx.spells hknown
      obtain ⟨uss, huss, hrest⟩ := ih has
      exact ⟨us :: uss, .cons hus huss, hcontent.append hrest⟩
  obtain ⟨uss, huss, hcontent⟩ :=
    hall fun x hx => ⟨hops x (mem_of_mem_runs h hx), isKnown_of_any h hany x hx⟩
  exact ⟨uss, huss, _, rfl, hcontent⟩

/-- What is left of a run are operands. -/
theorem isOperand_of_mem_collapsed (h : run ∈ runs ops) (hy : y ∈ collapsed run) :
    y.IsOperand := by
  cases hany : run.any Item.startsQuoted with
  | true =>
    rw [collapsed_of_any hany, List.mem_singleton] at hy
    obtain ⟨uss, -, hstring⟩ := isString_of_any hops h hany
    rw [hy]
    exact .literal hstring
  | false =>
    rw [collapsed_of_not_any hany] at hy
    exact hops y (mem_of_mem_runs h hy)

/-- **A run can be merged into what is left of it.** -/
theorem reaches_collapsed (h : run ∈ runs ops) :
    ReflTransGen (Merges print) (run.intersperse .plus) ((collapsed run).intersperse .plus) := by
  cases hany : run.any Item.startsQuoted with
  | true =>
    obtain ⟨x, hx, hstart⟩ := List.any_eq_true.1 hany
    have hquoted : x.IsQuoted :=
      ((hops x (mem_of_mem_runs h hx)).isLiteral hstart).isQuoted
    rw [collapsed_of_any hany]
    exact reaches_enclosed (inner_of_any hops h hany) ⟨x, hx, hquoted⟩
  | false =>
    rw [collapsed_of_not_any hany]

/-- Runs side by side can be merged one by one. -/
theorem reaches_flatMap_collapsed {rs : List (List (Item ρ))} (hrs : ∀ run ∈ rs, run ∈ runs ops) :
    ReflTransGen (Merges print) (rs.flatten.intersperse .plus)
      ((rs.flatMap collapsed).intersperse .plus) := by
  induction rs with
  | nil => exact .refl
  | cons run rs ih =>
    obtain ⟨hrun, hrs⟩ := List.forall_mem_cons.1 hrs
    rw [List.flatten_cons, List.flatMap_cons]
    have hsteady : ∀ {run}, run ∈ runs ops → Steady run := fun hrun x hx =>
      (hops x (mem_of_mem_runs hrun hx)).isSteady
    cases rs with
    | nil =>
      rw [List.flatten_nil, List.flatMap_nil, List.append_nil, List.append_nil]
      exact reaches_collapsed hops hrun
    | cons next rs =>
      have hne : run ≠ [] := List.ne_nil_of_mem_splitBy hrun
      have hnext : next ≠ [] := List.ne_nil_of_mem_splitBy (hrs next List.mem_cons_self)
      have hrest : Steady (next :: rs).flatten := by
        intro x hx
        obtain ⟨run', hrun', hx⟩ := List.mem_flatten.1 hx
        exact hsteady (hrs run' hrun') x hx
      refine reaches_intersperse_append (hsteady hrun) hrest ⟨hne, ?_, collapsed_ne_nil hne, ?_⟩
        (reaches_collapsed hops hrun) (ih hrs)
      · exact List.append_ne_nil_of_left_ne_nil hnext _
      · exact List.append_ne_nil_of_left_ne_nil (collapsed_ne_nil hnext) _

/-- **Neighbours in what is left do not merge**: in a run they are scalars,
or there is one item only, and where two runs meet there is one known
operand at most. -/
theorem isChain_apart : ((runs ops).flatMap collapsed).IsChain Item.Apart := by
  have hnil : [] ∉ (runs ops).map collapsed := by
    intro h
    obtain ⟨run, hrun, hempty⟩ := List.mem_map.1 h
    exact collapsed_ne_nil (List.ne_nil_of_mem_splitBy hrun) hempty
  rw [List.flatMap_def, List.isChain_flatten hnil]
  constructor
  · intro ys hys
    obtain ⟨run, hrun, rfl⟩ := List.mem_map.1 hys
    cases hany : run.any Item.startsQuoted with
    | true =>
      rw [collapsed_of_any hany]
      exact .singleton _
    | false =>
      rw [collapsed_of_not_any hany]
      have hstart : ∀ x ∈ run, x.startsQuoted = false := by simpa using hany
      refine (List.isChain_of_mem_splitBy hrun).imp_of_mem_imp fun a b ha hb _ => ?_
      exact Item.apart_of_operands (hops a (mem_of_mem_runs hrun ha))
        (hops b (mem_of_mem_runs hrun hb)) fun _ _ => ⟨hstart a ha, hstart b hb⟩
  · refine (List.isChain_map collapsed).2 ?_
    refine (List.isChain_getLast_head_splitBy _ ops).imp_of_mem_imp fun run next hrun hnext h => ?_
    obtain ⟨hne, hne', hseam⟩ := h
    intro x hx y hy
    have hx : x ∈ collapsed run := List.mem_of_getLast? hx
    have hy : y ∈ collapsed next := List.mem_of_head? hy
    refine Item.apart_of_operands (isOperand_of_mem_collapsed hops hrun hx)
      (isOperand_of_mem_collapsed hops hnext hy) fun hknown hknown' => ?_
    have hlast : (run.getLast hne).isKnown = true :=
      isKnown_of_mem_collapsed hrun hx hknown _ (List.getLast_mem hne)
    have hhead : (next.head hne').isKnown = true :=
      isKnown_of_mem_collapsed hnext hy hknown' _ (List.head_mem hne')
    rw [hlast, hhead] at hseam
    exact absurd hseam (by decide)

/-- Operands of which no two neighbours merge are a quiet chain. -/
theorem quiet_intersperse (h : ops.IsChain Item.Apart) : Quiet (ops.intersperse .plus) := by
  intro l a b r hsplit
  obtain ⟨before, after, hwindow, -⟩ := intersperse_window (fun x hx => (hops x hx).ne_plus) hsplit
  exact List.isChain_iff_forall_rel_of_append_cons_cons.1 h hwindow

/-- **What a fold leaves of a chain**: its runs, each merged as far as it
can be, with the operator between them. -/
theorem fold_chain_items (print : List (Item ρ) → ρ → Except Failure Text) :
    (fold print (ops.intersperse .plus)).items =
      ((runs ops).flatMap collapsed).intersperse .plus := by
  have hsteady : Steady (ops.intersperse .plus) :=
    steady_intersperse fun x hx => (hops x hx).isSteady
  have hreach : ReflTransGen (Merges print) (ops.intersperse .plus)
      (((runs ops).flatMap collapsed).intersperse .plus) := by
    have hruns : (runs ops).flatten = ops := List.flatten_splitBy _ ops
    have hreach : ReflTransGen (Merges print) ((runs ops).flatten.intersperse .plus)
        (((runs ops).flatMap collapsed).intersperse .plus) :=
      reaches_flatMap_collapsed hops fun run hrun => hrun
    rwa [hruns] at hreach
  have hleft : ∀ y ∈ (runs ops).flatMap collapsed, y.IsOperand := by
    intro y hy
    obtain ⟨run, hrun, hy⟩ := List.mem_flatMap.1 hy
    exact isOperand_of_mem_collapsed hops hrun hy
  have hquiet : Quiet (((runs ops).flatMap collapsed).intersperse .plus) :=
    quiet_intersperse hleft (isChain_apart hops)
  exact fold_eq_of_reaches hsteady hreach fun _ => hquiet.not_merges

end Operands

end Folded

/-! ## In place -/

section InPlace

variable {σ : Session} {r : Ref} {ops : List Value}

/-- **The exact result of a fold in place.** A list of operands with the
operator between them is left with its runs in place of them: a run with a
literal is one literal, which is a JSON string that stands for what the
operands of the run spell, and any other run is what it was. -/
theorem Build.foldItems_runs (hlist : σ.store.get r = .list (ops.intersperse .plus))
    (hops : ∀ x ∈ ops, x.IsOperand) :
    (∃ n, Build.foldItems (.object r) σ =
      .ok n ⟨σ.store.set r (.list (((runs ops).flatMap collapsed).intersperse .plus)), σ.log⟩) ∧
    ∀ run ∈ runs ops, run.any Item.startsQuoted = true →
      ∃ uss, List.Forall₂ Item.Spells run uss ∧
        Json.IsString (Text.enclosed (run.flatMap Item.inside)) uss.flatten := by
  refine ⟨⟨(fold (σ.store.printWhile r) (ops.intersperse .plus)).merges, ?_⟩,
    fun run hrun hany => isString_of_any hops hrun hany⟩
  have hsteady : Steady (ops.intersperse .plus) :=
    steady_intersperse fun x hx => (hops x hx).isSteady
  rw [Build.foldItems_of_list hlist (fold_steady_failure? hsteady),
    fold_chain_items hops (σ.store.printWhile r)]

/-- Two runs with a literal and one without, and a name and code between
them. -/
theorem Build.foldItems_runs_between_barriers :
    let x : Name := ⟨Text.ofString "x", by decide⟩
    let ops : List Value := [.scalar (.int 1), .text "\"a\"", .scalar .null, .name x,
      .scalar (.int 2), .scalar (.bool true), .text "f()", .text "\"\\n\"", .text "\"b\""]
    let left : List Value := [.text "\"1anull\"", .name x, .scalar (.int 2),
      .scalar (.bool true), .text "f()", .text "\"\\nb\""]
    let σ : Session := ⟨⟨#[.list (ops.intersperse .plus)]⟩, []⟩
    (∀ x ∈ ops, x.IsOperand) ∧ (runs ops).flatMap collapsed = left ∧
      ∃ n, Build.foldItems (.object ⟨0⟩) σ =
        .ok n ⟨σ.store.set ⟨0⟩ (.list (left.intersperse .plus)), σ.log⟩ := by
  intro x ops left σ
  have hone : (Scalar.int 1).render = .ok (Text.ofInt 1) := Scalar.render_int_of_lt (by decide)
  have htwo : (Scalar.int 2).render = .ok (Text.ofInt 2) := Scalar.render_int_of_lt (by decide)
  have ha : Json.IsString "\"a\"" (Text.units "a") := Text.isString_literal "a"
  have hb : Json.IsString "\"b\"" (Text.units "b") := Text.isString_literal "b"
  have hline : Json.IsString "\"\\n\"" (Text.units "\n") := Text.isString_literal "\n"
  have hops : ∀ x ∈ ops, x.IsOperand := by
    simp only [ops, List.forall_mem_cons]
    exact ⟨.scalar hone, .literal ha, .scalar rfl, .name _, .scalar htwo, .scalar rfl,
      .code (by decide) (by decide) (by decide), .literal hline, .literal hb, by simp⟩
  have hruns : runs ops = [[.scalar (.int 1), .text "\"a\"", .scalar .null], [.name x],
      [.scalar (.int 2), .scalar (.bool true)], [.text "f()"],
      [.text "\"\\n\"", .text "\"b\""]] := rfl
  have hleft : (runs ops).flatMap collapsed = left := by
    have hfirst : collapsed [.scalar (.int 1), .text "\"a\"", .scalar .null] =
        [(.text "\"1anull\"" : Value)] := by
      rw [collapsed_of_any rfl]
      simp only [List.flatMap_cons, Item.inside_scalar hone]
      rfl
    rw [hruns, List.flatMap_cons, hfirst]
    rfl
  refine ⟨hops, hleft, ?_⟩
  rw [← hleft]
  exact (Build.foldItems_runs rfl hops).1

end InPlace

end Splice
