import Splice.Proofs.Fragment
import Mathlib.Data.List.Forall2
/-!
# Templates — the items of a string expression

What an argument adds to a string expression is a block of items: itself,
a literal, or the items of a fragment (`Store.Contributes`). Segments are
set between the blocks, each as a literal with the operator before it,
unless it is empty, and a block has the operator before it if there is
anything to its left. `Row.laid` is that rule. If each argument
contributes a block, a string expression can be built, and its items are
the blocks in this layout (`Build.expression_of_contributes`). If one can
be built from arguments whose fragments are known, each argument
contributes a block (`Build.contributes_of_expression`).
-/

namespace Splice

/-- The segments are these texts. -/
def Segments.Are (s : Store) (ts : List Text) : Segments → Prop
  | .fixed items => items = ts.map .text
  | .held r => s.get r = .list (ts.map .text) ∨ s.get r = .tuple (ts.map .text)

/-- What an argument adds to a string expression. -/
inductive Store.Contributes (s : Store) : Value → List Value → Prop
  /-- A name adds itself. -/
  | name (n : Name) : Contributes s (.name n) [.name n]
  /-- A scalar adds itself. -/
  | scalar (c : Scalar) : Contributes s (.scalar c) [.scalar c]
  /-- Data adds its literal. -/
  | literal {v : Value} {t : Text} : s.goesInBare v = false → s.listed? v = none →
      (s.datum v).encode = .ok t → Contributes s v [.text t]
  /-- A list adds the literal of its elements joined by commas. -/
  | listed {v : Value} {xs : List Value} {t : Text} : s.listed? v = some xs →
      s.joinElements xs = .ok t → Contributes s v [.text t.literal]
  /-- A fragment adds what it holds. -/
  | fragment {v : Value} {xs : List Value} {e : Bool} : s.Holds v xs e → Contributes s v xs

/-- Code goes in as itself. -/
theorem Store.goesInBare_of_isCode {s : Store} {v : Value} (h : s.isCode v = true) :
    s.goesInBare v = true := by
  unfold Store.goesInBare
  split
  · rfl
  · exact h

/-- Code is no list. -/
theorem Store.listed?_of_isCode {s : Store} {v : Value} (h : s.isCode v = true) :
    s.listed? v = none := by
  unfold Store.isCode at h
  unfold Store.listed?
  split at h
  · rfl
  · split at h
    · simp [*]
    · cases h
  · cases h

/-- **An argument adds one block.** -/
theorem Store.Contributes.unique {s : Store} {v : Value} {block block' : List Value}
    (h : s.Contributes v block) (h' : s.Contributes v block') : block = block' := by
  cases h with
  | name n =>
    cases h' with
    | name n => rfl
    | literal hbare _ _ => cases hbare
    | listed hlisted _ => cases hlisted
    | fragment h' => cases h'
  | scalar c =>
    cases h' with
    | scalar c => rfl
    | literal hbare _ _ => cases hbare
    | listed hlisted _ => cases hlisted
    | fragment h' => cases h'
  | literal hbare hnone ht =>
    cases h' with
    | name n => cases hbare
    | scalar c => cases hbare
    | literal _ _ ht' => rw [Except.ok.inj (ht.symm.trans ht')]
    | listed hlisted _ => cases hlisted.symm.trans hnone
    | fragment h' => cases hbare.symm.trans (goesInBare_of_isCode h'.isCode)
  | listed hlisted ht =>
    cases h' with
    | name n => cases hlisted
    | scalar c => cases hlisted
    | literal _ hnone _ => cases hlisted.symm.trans hnone
    | listed hlisted' ht' =>
      cases hlisted.symm.trans hlisted'
      rw [Except.ok.inj (ht.symm.trans ht')]
    | fragment h' => cases hlisted.symm.trans (listed?_of_isCode h'.isCode)
  | fragment h =>
    cases h' with
    | name n => cases h
    | scalar c => cases h
    | literal hbare _ _ => cases hbare.symm.trans (goesInBare_of_isCode h.isCode)
    | listed hlisted _ => cases hlisted.symm.trans (listed?_of_isCode h.isCode)
    | fragment h' => exact h.unique h'

/-- What arguments add, each block with the segment behind it. -/
abbrev Store.Blocks (s : Store) (args : List Value) (rest : List (List Value × Text)) : Prop :=
  List.Forall₂ (fun arg p => s.Contributes arg p.1) args rest

/-- Arguments between known segments add their blocks and no others. -/
theorem Store.Blocks.unique {s : Store} {args : List Value} {rest rest' : List (List Value × Text)}
    (h : s.Blocks args rest) (h' : s.Blocks args rest')
    (hsnd : rest.map Prod.snd = rest'.map Prod.snd) : rest = rest' := by
  induction h generalizing rest' with
  | nil =>
    cases h'
    rfl
  | cons hp _ ih =>
    cases h' with
    | cons hq h' =>
      obtain ⟨ht, hsnd⟩ := List.cons.inj hsnd
      rw [Prod.ext (hp.unique hq) ht, ih h' hsnd]

/-- The literal of a segment. -/
def segmentItem (t : Text) : Value := .text t.literal

/-! ## The layout -/

namespace Row

variable {α β : Type} (op : α) (literal : Text → α)

/-- The operator after what is there, if anything is. -/
def join (acc : List α) : List α := if acc.isEmpty then [] else acc ++ [op]

/-- The first segment. -/
def head (t : Text) : List α := if t.isEmpty then [] else [literal t]

/-- A segment behind a block. -/
def segment (t : Text) : List α := if t.isEmpty then [] else [op, literal t]

/-- Blocks, each with the segment behind it, set after what is there. -/
def laid : List α → List (List α × Text) → List α
  | acc, [] => acc
  | acc, (block, t) :: rest => laid (join op acc ++ block ++ segment op literal t) rest

variable {op : α} {literal : Text → α} {x : α} {acc : List α} {t : Text}

theorem mem_join (h : x ∈ join op acc) : x ∈ acc ∨ x = op := by
  unfold join at h
  split at h
  · cases h
  · simpa using h

theorem mem_head (h : x ∈ head literal t) : x = literal t := by
  unfold head at h
  split at h
  · cases h
  · exact List.mem_singleton.1 h

theorem mem_segment (h : x ∈ segment op literal t) : x = op ∨ x = literal t := by
  unfold segment at h
  split at h
  · cases h
  · simpa using h

/-- What is laid out is the operator, the literal of a segment, in a block,
or has been there before. -/
theorem mem_laid {rest : List (List α × Text)} (h : x ∈ laid op literal acc rest) :
    x ∈ acc ∨ x = op ∨ (∃ t ∈ rest.map Prod.snd, x = literal t) ∨ ∃ p ∈ rest, x ∈ p.1 := by
  induction rest generalizing acc with
  | nil => exact .inl h
  | cons p rest ih =>
    obtain ⟨block, t⟩ := p
    rw [laid] at h
    rcases ih h with hacc | hop | ⟨u, hu, hx⟩ | ⟨p, hp, hblock⟩
    · rcases List.mem_append.1 hacc with hleft | hright
      · rcases List.mem_append.1 hleft with hjoined | hblock
        · exact (mem_join hjoined).imp_right .inl
        · exact .inr (.inr (.inr ⟨_, List.mem_cons_self, hblock⟩))
      · rcases mem_segment hright with hop | hliteral
        · exact .inr (.inl hop)
        · exact .inr (.inr (.inl ⟨t, List.mem_cons_self, hliteral⟩))
    · exact .inr (.inl hop)
    · exact .inr (.inr (.inl ⟨u, List.mem_cons_of_mem _ hu, hx⟩))
    · exact .inr (.inr (.inr ⟨p, List.mem_cons_of_mem _ hp, hblock⟩))

end Row

/-! ## The steps -/

/-- An element of a row of texts is one of them. -/
theorem mem_of_elementAt {ts : List Text} {i : Nat} {v : Value}
    (h : elementAt (ts.map .text) i = .ok v) : ∃ t ∈ ts, v = .text t := by
  unfold elementAt at h
  split at h
  · rename_i x hx
    cases h
    obtain ⟨t, ht, rfl⟩ := List.mem_map.1 (List.mem_of_getElem? hx)
    exact ⟨t, ht, rfl⟩
  · cases h

namespace Segments

variable {σ : Session} {ts : List Text} {segments : Segments}

theorem size_of_are (h : segments.Are σ.store ts) : segments.size σ = .ok ts.length σ := by
  cases segments with
  | fixed items =>
    cases h
    simp [size]
  | held r =>
    simp only [size]
    apply Build.read_of_ok
    rcases h with h | h <;> simp [Store.elements, h, Except.map]

theorem get_of_are (h : segments.Are σ.store ts) {i : Nat} {t : Text} (ht : ts[i]? = some t) :
    segments.get i σ = .ok (.text t) σ := by
  have hat : elementAt (ts.map .text) i = .ok (.text t) := by simp [elementAt, ht]
  cases segments with
  | fixed items =>
    cases h
    simp only [get]
    apply Build.read_of_ok
    exact hat
  | held r =>
    simp only [get]
    apply Build.read_of_ok
    rcases h with h | h <;> simpa only [h] using hat

/-- A segment that is read is one of the texts. -/
theorem get_eq_ok {τ : Session} (hts : segments.Are σ.store ts) {i : Nat} {v : Value}
    (h : segments.get i σ = .ok v τ) : τ = σ ∧ ∃ t ∈ ts, v = .text t := by
  cases segments with
  | fixed items =>
    cases hts
    rw [get] at h
    obtain ⟨hv, hτ⟩ := Build.read_eq_ok.1 h
    exact ⟨hτ, mem_of_elementAt hv⟩
  | held r =>
    rw [get] at h
    obtain ⟨hv, hτ⟩ := Build.read_eq_ok.1 h
    have hat : elementAt (ts.map .text) i = .ok v := by
      rcases hts with hts | hts <;> simpa only [hts] using hv
    exact ⟨hτ, mem_of_elementAt hat⟩

/-- From a position on, the segments are read as these texts. -/
def ReadFrom (segments : Segments) (σ : Session) (i : Nat) (ts : List Text) : Prop :=
  ∀ j t, ts[j]? = some t → segments.get (i + j) σ = .ok (.text t) σ

theorem readFrom_of_are {t : Text} (h : segments.Are σ.store (t :: ts)) :
    segments.ReadFrom σ 1 ts :=
  fun j _ hj => get_of_are h (by simp [Nat.add_comm 1 j, hj])

theorem ReadFrom.head {i : Nat} {t : Text} (h : segments.ReadFrom σ i (t :: ts)) :
    segments.get i σ = .ok (.text t) σ := h 0 t rfl

theorem ReadFrom.tail {i : Nat} {t : Text} (h : segments.ReadFrom σ i (t :: ts)) :
    segments.ReadFrom σ (i + 1) ts := by
  intro j u hj
  rw [Nat.add_assoc, Nat.add_comm 1 j]
  exact h (j + 1) u (by simpa using hj)

end Segments

namespace Build

variable {σ τ : Session} {a b : Assembly} {arg : Value} {block : List Value}

/-- Code goes in as it is. -/
theorem argument_of_isCode (h : σ.store.isCode arg = true) : argument arg σ = .ok arg σ := by
  simp only [argument]
  rw [bind_of_ok (ask_apply _)]
  simp only [Store.goesInBare_of_isCode h, if_true]
  rfl

theorem operand_of_isCode (h : σ.store.isCode arg = true) : operand arg σ = .ok arg σ := by
  simp only [operand]
  rw [bind_of_ok (ask_apply _)]
  simp only [Store.listed?_of_isCode h]
  exact argument_of_isCode h

/-- Anything else adds the item that it goes in as. -/
theorem addOperand_of_not_isCode {v : Value} (h : operand arg σ = .ok v σ)
    (hv : σ.store.isCode v = false) : addOperand a arg σ = .ok (a.push v) σ := by
  simp only [addOperand]
  rw [bind_of_ok h, bind_of_ok (ask_apply _)]
  simp only [hv, Bool.false_eq_true, if_false]
  rfl

theorem addOperand_of_isCode {used : Usage} (h : σ.store.isCode arg = true)
    (hused : addUses a.used arg σ = .ok used σ) (hpushed : pushed arg σ = .ok block σ) :
    addOperand a arg σ = .ok (a.append block used) σ := by
  simp only [addOperand]
  rw [bind_of_ok (operand_of_isCode h), bind_of_ok (ask_apply _)]
  simp only [h, if_true, spliceOperand]
  rw [bind_of_ok hused, bind_of_ok hpushed]
  rfl

/-- **An argument that contributes a block adds it**, and changes no object. -/
theorem addOperand_of_contributes (h : σ.store.Contributes arg block) (ha : a.used.IsWhole) :
    ∃ b, addOperand a arg σ = .ok b σ ∧ b.items.toList = a.items.toList ++ block ∧
      b.used.IsWhole := by
  cases h with
  | name n =>
    obtain ⟨used, hused, hwhole⟩ := addUses_of_usesOf (σ := σ) (v := .name n) rfl
      (Usage.isWhole_singleton n.text 1) ha
    exact ⟨a.append [.name n] used, addOperand_of_isCode rfl hused rfl,
      by simp [Assembly.append], hwhole⟩
  | scalar c =>
    exact ⟨a.push (.scalar c), addOperand_of_not_isCode rfl rfl, by simp [Assembly.push], ha⟩
  | @literal _ t hbare hlisted ht =>
    have hoperand : operand arg σ = .ok (.text t) σ := by
      simp only [operand]
      rw [bind_of_ok (ask_apply _)]
      simp only [hlisted, argument]
      rw [bind_of_ok (ask_apply _)]
      simp only [hbare, Bool.false_eq_true, if_false]
      rw [bind_of_ok (literal_of_ok ht)]
      rfl
    exact ⟨a.push (.text t), addOperand_of_not_isCode hoperand rfl, by simp [Assembly.push], ha⟩
  | @listed _ xs t hlisted ht =>
    have hoperand : operand arg σ = .ok (.text t.literal) σ := by
      simp only [operand]
      rw [bind_of_ok (ask_apply _)]
      simp only [hlisted]
      have hbare : σ.store.goesInBare (.text t) = false := rfl
      rw [bind_of_ok (read_of_ok ht)]
      simp only [argument]
      rw [bind_of_ok (ask_apply _)]
      simp only [hbare, Bool.false_eq_true, if_false]
      rw [bind_of_ok (literal_text t)]
      rfl
    exact ⟨a.push (.text t.literal), addOperand_of_not_isCode hoperand rfl,
      by simp [Assembly.push], ha⟩
  | @fragment _ _ e h =>
    obtain ⟨used, hused, hwhole⟩ := h.addUses ha
    exact ⟨a.append block used, addOperand_of_isCode h.isCode hused h.pushed,
      by simp [Assembly.append], hwhole⟩

/-- An argument that can be added contributes a block, if it does so in
case it is code. -/
theorem contributes_of_addOperand (h : addOperand a arg σ = .ok b τ)
    (hcode : σ.store.isCode arg = true → ∃ block, σ.store.Contributes arg block) :
    ∃ block, σ.store.Contributes arg block := by
  simp only [addOperand] at h
  obtain ⟨v, ρ, hv, -⟩ := bind_eq_ok.1 h
  simp only [operand] at hv
  rw [bind_of_ok (ask_apply _)] at hv
  cases hlisted : σ.store.listed? arg with
  | some xs =>
    simp only [hlisted] at hv
    obtain ⟨t, υ, ht, -⟩ := bind_eq_ok.1 hv
    exact ⟨_, .listed hlisted (read_eq_ok.1 ht).1⟩
  | none =>
    simp only [hlisted, argument] at hv
    rw [bind_of_ok (ask_apply _)] at hv
    cases hbare : σ.store.goesInBare arg with
    | true =>
      unfold Store.goesInBare at hbare
      split at hbare
      · exact ⟨_, .scalar _⟩
      · exact hcode hbare
    | false =>
      simp only [hbare, Bool.false_eq_true, if_false] at hv
      obtain ⟨t, υ, ht, -⟩ := bind_eq_ok.1 hv
      exact ⟨_, .literal hbare hlisted (literal_eq_ok.1 ht).1⟩

theorem toList_join (a : Assembly) : a.join.items.toList = Row.join Item.plus a.items.toList := by
  simp only [Assembly.join, Row.join, Array.isEmpty_toList]
  split
  · simp_all
  · simp [Assembly.push]

theorem used_join (a : Assembly) : a.join.used = a.used := by
  simp only [Assembly.join]
  split <;> rfl

/-- A text segment adds its literal, unless it is empty. -/
theorem addSegment_text (a : Assembly) (t : Text) :
    ∃ b, addSegment a (.text t) σ = .ok b σ ∧
      b.items.toList = a.items.toList ++ Row.segment Item.plus segmentItem t ∧
      b.used = a.used := by
  cases t with
  | nil => exact ⟨a, rfl, by simp [Row.segment], rfl⟩
  | cons c t =>
    refine ⟨(a.push Item.plus).push (.text (Text.literal (c :: t))), ?_,
      by simp [Row.segment, Assembly.push, segmentItem], rfl⟩
    simp only [addSegment, segmentLiteral, bind_assoc]
    rw [bind_of_ok (ask_apply _)]
    simp only [Store.isTruthy, List.isEmpty_cons, Bool.not_false, if_true, bind_assoc]
    rw [bind_of_ok (literal_text _)]
    rfl

/-! ## The run -/

variable {segments : Segments} {args : List Value}

theorem expressionArguments_of_contributes {rest : List (List Value × Text)} {i : Nat}
    (hget : segments.ReadFrom σ i (rest.map Prod.snd)) (hargs : σ.store.Blocks args rest)
    (ha : a.used.IsWhole) :
    ∃ b, expressionArguments segments i args a σ = .ok b σ ∧
      b.items.toList = Row.laid Item.plus segmentItem a.items.toList rest ∧
      b.used.IsWhole := by
  -- Each turn extends the assembly, so the induction has to be for any assembly.
  induction hargs generalizing i a with
  | nil => exact ⟨a, rfl, rfl, ha⟩
  | @cons arg p args rest hcontributes _ ih =>
    obtain ⟨b, hb, hbitems, hbused⟩ :=
      addOperand_of_contributes (a := a.join) hcontributes (by rwa [used_join])
    obtain ⟨c, hc, hcitems, hcused⟩ := addSegment_text (σ := σ) b p.2
    obtain ⟨d, hd, hditems, hdused⟩ := ih hget.tail (a := c) (by rwa [hcused])
    refine ⟨d, ?_, ?_, hdused⟩
    · simp only [expressionArguments]
      rw [bind_of_ok hb, bind_of_ok hget.head, bind_of_ok hc]
      exact hd
    · rw [hditems, hcitems, hbitems, toList_join]
      rfl

/-- Arguments that can be added contribute a block each, if those that
are code do. -/
theorem contributes_of_expressionArguments {ts : List Text} {i : Nat}
    (hget : segments.ReadFrom σ i ts) (hlength : args.length = ts.length)
    (hcode : ∀ arg ∈ args, σ.store.isCode arg = true → ∃ block, σ.store.Contributes arg block)
    (ha : a.used.IsWhole) (h : expressionArguments segments i args a σ = .ok b τ) :
    ∃ rest : List (List Value × Text), rest.map Prod.snd = ts ∧
      σ.store.Blocks args rest := by
  induction args generalizing i a ts with
  | nil =>
    obtain rfl := List.length_eq_zero_iff.1 hlength.symm
    exact ⟨[], rfl, .nil⟩
  | cons arg args ih =>
    obtain ⟨t, ts, rfl⟩ := List.exists_cons_of_length_eq_add_one hlength.symm
    simp only [expressionArguments] at h
    obtain ⟨b₁, τ₁, hadd, h⟩ := bind_eq_ok.1 h
    obtain ⟨block, hblock⟩ := contributes_of_addOperand hadd (hcode arg (by simp))
    obtain ⟨b₁', hb, -, hbused⟩ :=
      addOperand_of_contributes (a := a.join) hblock (by rwa [used_join])
    cases hb.symm.trans hadd
    rw [bind_of_ok hget.head] at h
    obtain ⟨c, hc, -, hcused⟩ := addSegment_text (σ := σ) b₁ t
    rw [bind_of_ok hc] at h
    obtain ⟨rest, hrest, hargs⟩ := ih hget.tail (by simpa using hlength)
      (fun arg hmem => hcode arg (List.mem_cons_of_mem _ hmem)) (by rwa [hcused]) h
    exact ⟨(block, t) :: rest, by rw [List.map_cons, hrest], .cons hblock hargs⟩

theorem checkArity_of_are {ts : List Text} (h : segments.Are σ.store ts)
    (hlength : ts.length = args.length + 1) : checkArity segments args σ = .ok () σ := by
  simp only [checkArity]
  rw [bind_of_ok (Segments.size_of_are h)]
  simp only [hlength, if_true]
  rfl

/-- A run of the arguments starts with the literal of the first segment. -/
theorem expression_bind {t₀ : Text} {ts : List Text} (h : segments.Are σ.store (t₀ :: ts))
    (hlength : args.length = ts.length) :
    expression segments args σ =
      (do
        let a ← expressionArguments segments 1 args
          ⟨(Row.head segmentItem t₀).toArray, []⟩
        assemble a true : Build Value) σ := by
  have hfirst : segments.get 0 σ = .ok (.text t₀) σ := Segments.get_of_are h rfl
  simp only [expression]
  rw [bind_of_ok (checkArity_of_are h (by simp [hlength])), bind_of_ok hfirst]
  cases t₀ with
  | nil => rfl
  | cons c t =>
    have hliteral : segmentLiteral (.text (c :: t)) σ = .ok (some (Text.literal (c :: t))) σ := by
      simp only [segmentLiteral]
      rw [bind_of_ok (ask_apply _)]
      simp only [Store.isTruthy, List.isEmpty_cons, Bool.not_false, if_true]
      rw [bind_of_ok (literal_text _)]
      rfl
    rw [bind_of_ok hliteral]
    rfl

/-- **A string expression of arguments that each contribute a block** can
be built. It holds the blocks in their layout, and nothing else changes. -/
theorem expression_of_contributes {t₀ : Text} {rest : List (List Value × Text)}
    (hsegments : segments.Are σ.store (t₀ :: rest.map Prod.snd))
    (hargs : σ.store.Blocks args rest) :
    ∃ v τ, expression segments args σ = .ok v τ ∧
      τ.store.Holds v (Row.laid Item.plus segmentItem
        (Row.head segmentItem t₀) rest) true ∧
      σ.store.Grows τ.store ∧ τ.log = σ.log := by
  obtain ⟨b, hb, hitems, hused⟩ := expressionArguments_of_contributes
    (a := ⟨(Row.head segmentItem t₀).toArray, []⟩) (Segments.readFrom_of_are hsegments) hargs
    Usage.isWhole_nil
  obtain ⟨v, τ, hv, hholds, hgrows, hlog⟩ := assemble_holds (σ := σ) hused true
  refine ⟨v, τ, ?_, ?_, hgrows, hlog⟩
  · rw [expression_bind hsegments (by simpa using hargs.length_eq), bind_of_ok hb, hv]
  · rwa [hitems] at hholds

/-- **The arguments of a string expression** contribute a block each, if
those that are code do. -/
theorem contributes_of_expression {t₀ : Text} {ts : List Text} {v : Value}
    (hsegments : segments.Are σ.store (t₀ :: ts))
    (hcode : ∀ arg ∈ args, σ.store.isCode arg = true → ∃ block, σ.store.Contributes arg block)
    (h : expression segments args σ = .ok v τ) :
    ∃ rest : List (List Value × Text), rest.map Prod.snd = ts ∧
      σ.store.Blocks args rest := by
  -- The run has not failed at the check of the arity, which is its first step.
  have hlength : args.length = ts.length := by
    simp only [expression, checkArity, bind_assoc] at h
    rw [bind_of_ok (Segments.size_of_are hsegments)] at h
    by_contra hne
    rw [if_neg (by simpa using Ne.symm hne)] at h
    cases h
  rw [expression_bind hsegments hlength] at h
  obtain ⟨b, υ, hb, -⟩ := bind_eq_ok.1 h
  exact contributes_of_expressionArguments (Segments.readFrom_of_are hsegments) hlength hcode
    Usage.isWhole_nil hb

end Build

end Splice
