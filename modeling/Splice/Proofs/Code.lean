import Splice.Proofs.Expression
/-!
# Templates — the items of code

What an argument adds to code is a block of items: itself, its literal if
it is data, or the items of a fragment of code (`Store.Splices`). The
segments stand between the blocks as they are, empty ones too, so the
items of code are its segments with the blocks between them
(`Build.code_of_splices`). The text of a fragment begins and ends with a
segment, which is all that is ever next to it where it is spliced.
-/

namespace Splice

/-- What an argument adds to code. -/
inductive Store.Splices (s : Store) : Value → List Value → Prop
  /-- A name adds itself. -/
  | name (n : Name) : Splices s (.name n) [.name n]
  /-- A scalar adds itself. -/
  | scalar (c : Scalar) : Splices s (.scalar c) [.scalar c]
  /-- Data adds its literal. -/
  | literal {v : Value} {t : Text} : s.goesInBare v = false → (s.datum v).encode = .ok t →
      Splices s v [.text t]
  /-- A fragment of code adds what it holds. -/
  | fragment {v : Value} {xs : List Value} : s.Holds v xs false → Splices s v xs

/-- A text adds its literal. -/
theorem Store.splices_text (s : Store) (t : Text) : s.Splices (.text t) [segmentItem t] :=
  .literal rfl rfl

/-- Segments with blocks between them. -/
def Row.spliced (t : Text) (rest : List (List Value × Text)) : List Value :=
  .text t :: rest.flatMap fun p => p.1 ++ [.text p.2]

namespace Build

variable {σ : Session} {a : Assembly} {arg : Value} {block : List Value}

/-- What is no code is pushed as what it goes in as. -/
theorem addArgument_of_not_isCode {v : Value} (h : argument arg σ = .ok v σ)
    (hv : σ.store.isCode v = false) : addArgument a arg σ = .ok (a.push v) σ := by
  simp only [addArgument]
  rw [bind_of_ok h, bind_of_ok (ask_apply _)]
  simp only [hv, Bool.false_eq_true, if_false]
  rfl

/-- Code that is no string expression adds what it gives when pushed. -/
theorem addArgument_of_isCode {used : Usage} (h : σ.store.isCode arg = true)
    (hused : addUses a.used arg σ = .ok used σ) (hexpression : σ.store.isExpression arg = .ok false)
    (hpushed : pushed arg σ = .ok block σ) :
    addArgument a arg σ = .ok (a.append block used) σ := by
  simp only [addArgument]
  rw [bind_of_ok (argument_of_isCode h), bind_of_ok (ask_apply _)]
  simp only [h, if_true, spliceCode]
  rw [bind_of_ok hused, bind_of_ok (read_of_ok hexpression)]
  simp only [Bool.false_eq_true, if_false]
  rw [bind_of_ok hpushed]
  rfl

/-- **An argument that splices a block adds it**, and changes no object. -/
theorem addArgument_of_splices (h : σ.store.Splices arg block) (ha : a.used.IsWhole) :
    ∃ b, addArgument a arg σ = .ok b σ ∧ b.items.toList = a.items.toList ++ block ∧
      b.used.IsWhole := by
  cases h with
  | name n =>
    obtain ⟨used, hused, hwhole⟩ := addUses_of_usesOf (σ := σ) (v := .name n) rfl
      (Usage.isWhole_singleton n.text 1) ha
    exact ⟨a.append [.name n] used, addArgument_of_isCode rfl hused rfl rfl,
      by simp [Assembly.append], hwhole⟩
  | scalar c =>
    exact ⟨a.push (.scalar c), addArgument_of_not_isCode rfl rfl, by simp [Assembly.push], ha⟩
  | @literal _ t hbare ht =>
    have hargument : argument arg σ = .ok (.text t) σ := by
      simp only [argument]
      rw [bind_of_ok (ask_apply _)]
      simp only [hbare, Bool.false_eq_true, if_false]
      rw [bind_of_ok (literal_of_ok ht)]
      rfl
    exact ⟨a.push (.text t), addArgument_of_not_isCode hargument rfl,
      by simp [Assembly.push], ha⟩
  | fragment h =>
    obtain ⟨used, hused, hwhole⟩ := h.addUses ha
    exact ⟨a.append block used, addArgument_of_isCode h.isCode hused h.isExpression h.pushed,
      by simp [Assembly.append], hwhole⟩

variable {segments : Segments} {args : List Value} {rest : List (List Value × Text)}

theorem codeArguments_of_splices {i : Nat} (hget : segments.ReadFrom σ i (rest.map Prod.snd))
    (hargs : List.Forall₂ (fun arg p => σ.store.Splices arg p.1) args rest)
    (ha : a.used.IsWhole) :
    ∃ b, codeArguments segments i args a σ = .ok b σ ∧
      b.items.toList = a.items.toList ++ rest.flatMap (fun p => p.1 ++ [.text p.2]) ∧
      b.used.IsWhole := by
  -- Each turn extends the assembly, so the induction has to be for any assembly.
  induction hargs generalizing i a with
  | nil => exact ⟨a, rfl, by simp, ha⟩
  | @cons arg p args rest hsplices _ ih =>
    obtain ⟨b, hb, hitems, hused⟩ := addArgument_of_splices hsplices ha
    obtain ⟨c, hc, hcitems, hcused⟩ := ih hget.tail (a := b.push (.text p.2)) hused
    refine ⟨c, ?_, ?_, hcused⟩
    · simp only [codeArguments]
      rw [bind_of_ok hb, bind_of_ok hget.head]
      exact hc
    · rw [hcitems]
      simp [Assembly.push, hitems]

/-- **Code of arguments that each splice a block** can be built. It holds
its segments with the blocks between them, and nothing else changes. -/
theorem code_of_splices {t : Text} (hsegments : segments.Are σ.store (t :: rest.map Prod.snd))
    (hargs : List.Forall₂ (fun arg p => σ.store.Splices arg p.1) args rest) :
    ∃ v τ, code segments args σ = .ok v τ ∧ τ.store.Holds v (Row.spliced t rest) false ∧
      σ.store.Grows τ.store ∧ τ.log = σ.log := by
  have hfirst : segments.get 0 σ = .ok (.text t) σ := Segments.get_of_are hsegments rfl
  obtain ⟨b, hb, hitems, hused⟩ := codeArguments_of_splices (a := ⟨#[.text t], []⟩)
    (Segments.readFrom_of_are hsegments) hargs Usage.isWhole_nil
  obtain ⟨v, τ, hv, hholds, hgrows, hlog⟩ := assemble_holds (σ := σ) hused false
  refine ⟨v, τ, ?_, ?_, hgrows, hlog⟩
  · simp only [code]
    rw [bind_of_ok (checkArity_of_are hsegments (by simp [hargs.length_eq])), bind_of_ok hfirst,
      bind_of_ok hb, hv]
  · rwa [hitems] at hholds

end Build

end Splice
