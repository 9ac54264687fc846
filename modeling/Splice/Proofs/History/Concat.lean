import Splice.Proofs.Expression.Concat
import Splice.Proofs.History
/-!
# Histories — concatenation is a monoid

In a sound store every code value shows its items and whether it is a
string expression (`Store.Shows`), and shows the same in any store that
has grown. Concatenating two code values answers one that shows the
concatenation of what they show (`Build.concat_answers`), whether that is a
new fragment or one of the two. So what holds of the one holds of the
other: the order of concatenations does not matter, an empty operand
leaves the other as it is, and with an empty operand no name is lost
(`Reachable.concat_monoid`).
-/

namespace Splice

open Store

/-! ## What a code value shows -/

namespace Store

/-- This is seen of a code value. -/
structure Shows (s : Store) (v : Value) (x : View) : Prop where
  isCode : s.isCode v = true
  text : s.codeText v = x.text
  isEmpty : s.isEmpty v = x.isEmpty
  isExpression : s.isExpression v = .ok x.isExpression
  pushed : ∀ log, Build.pushed v ⟨s, log⟩ = .ok x.items ⟨s, log⟩
  uses : ∃ m, s.usesOf v = .ok m ∧ m.Tallies (namesIn x.items)

variable {s s' : Store} {hand xs : List Value} {v : Value} {x x' : View} {e : Bool}

theorem shows_name (s : Store) (n : Name) : s.Shows (.name n) ⟨[.name n], false⟩ := by
  have htext : (⟨[.name n], false⟩ : View).text = .ok n.text := by
    rw [View.text, Item.renderAll_cons]
    show Except.ok (n.text ++ []) = _
    rw [List.append_nil]
  have hblank : n.text.isBlank = false := n.isBlank_of_subset fun _ hc => hc
  exact
    { isCode := rfl
      text := htext.symm
      isEmpty := by rw [View.isEmpty_of_text htext, hblank]; rfl
      isExpression := rfl
      pushed := fun _ => rfl
      uses := ⟨_, rfl, Usage.tallies_name n⟩ }

/-- A fragment shows the items of its list, if these are counted. -/
theorem shows_fragment {r q : Ref} {used : Value} (hr : s.get r = .fragment (.object q) used e)
    (hq : s.get q = .list xs) (hbare : ∀ x ∈ xs, x.IsBare) (hused : s.Tallied used (namesIn xs)) :
    s.Shows (.object r) ⟨xs, e⟩ := by
  have htext : s.codeText (.object r) = (⟨xs, e⟩ : View).text := by
    rw [codeText_of_get hr hq, View.text, Item.renderAll_of_isBare hbare]
  obtain ⟨m, hm, -, htallies⟩ := hused.countsIn
  exact
    { isCode := by simp [Store.isCode, hr]
      text := htext
      isEmpty := by
        simp only [Store.isEmpty, htext, View.isEmpty]
        rfl
      isExpression := by simp [Store.isExpression, hr]
      pushed := fun log => Build.pushed_of_get (σ := ⟨s, log⟩) hr hq
      uses := ⟨m, by simp [usesOf, hr, hm], htallies⟩ }

/-- **Every code value shows something** in a sound store, and still shows
it when the store has grown. -/
theorem Sound.exists_shows (h : s.Sound hand) (hv : s.isCode v = true) :
    ∃ x, ∀ s', s.Grows s' → s'.Shows v x := by
  unfold isCode at hv
  split at hv
  · exact ⟨_, fun s' _ => s'.shows_name _⟩
  · split at hv
    · rename_i hr
      obtain ⟨q, xs, rfl, hq, hbare, hused⟩ := h.fragment hr
      exact ⟨_, fun s' hgrows => shows_fragment (hgrows.get hr nofun) (hgrows.get hq nofun) hbare
        (hused.kept fun hu => hgrows.get hu nofun)⟩
    · cases hv
  · cases hv

/-- A code value shows one thing. -/
theorem Shows.unique (h : s.Shows v x) (h' : s.Shows v x') : x' = x := by
  have hitems : x'.items = x.items :=
    (EStateM.Result.ok.inj ((h'.pushed []).symm.trans (h.pushed []))).1
  have hflag : x'.isExpression = x.isExpression :=
    Except.ok.inj (h'.isExpression.symm.trans h.isExpression)
  cases x
  cases x'
  cases hitems
  cases hflag
  rfl

/-- So a store that has grown shows it too. -/
theorem Sound.shows_of_grows (h : s.Sound hand) (hx : s.Shows v x) (hgrows : s.Grows s') :
    s'.Shows v x := by
  obtain ⟨x', hx'⟩ := h.exists_shows hx.isCode
  obtain rfl := hx.unique (hx' _ (.refl _))
  exact hx' _ hgrows

/-- A fragment shows the items of its list. -/
theorem Sound.shows_of_get (h : s.Sound hand) {r q : Ref} {used : Value}
    (hr : s.get r = .fragment (.object q) used e) (hq : s.get q = .list xs) :
    s.Shows (.object r) ⟨xs, e⟩ := by
  obtain ⟨_, _, hitems, hq', hbare, hused⟩ := h.fragment hr
  cases hitems
  cases hq.symm.trans hq'
  exact shows_fragment hr hq hbare hused

/-- What a fragment holds is what it shows. -/
theorem Sound.shows_of_holds (h : s.Sound hand) (hv : s.Holds v xs e) : s.Shows v ⟨xs, e⟩ := by
  obtain ⟨hr, hq, -⟩ := hv
  exact h.shows_of_get hr hq

/-- What is shown is bare. -/
theorem Sound.bare_of_shows (h : s.Sound hand) (hx : s.Shows v x) : ∀ i ∈ x.items, i.IsBare := by
  obtain ⟨xs, -, -, -, hbare, hpushed⟩ := h.code (σ := ⟨s, []⟩) hx.isCode
  rwa [← (EStateM.Result.ok.inj ((hx.pushed []).symm.trans hpushed)).1] at hbare

/-- A code value is a name, which shows itself, or it holds what it shows. -/
theorem Sound.shows_cases (h : s.Sound hand) (hv : s.Shows v x) :
    (∃ n, v = .name n ∧ x = ⟨[.name n], false⟩) ∨ s.Holds v x.items x.isExpression := by
  rcases h.name_or_holds hv.isCode with ⟨n, rfl⟩ | ⟨xs, e, hholds⟩
  · exact .inl ⟨n, rfl, (s.shows_name n).unique hv⟩
  · obtain rfl := (h.shows_of_holds hholds).unique hv
    exact .inr hholds

/-- What a code value shows are the items it contributes to a string expression. -/
theorem Sound.contributes (h : s.Sound hand) (hv : s.Shows v x) : s.Contributes v x.items := by
  rcases h.shows_cases hv with ⟨n, rfl, rfl⟩ | hholds
  · exact .name n
  · exact .fragment hholds

end Store

/-- What is empty counts no uses. -/
theorem Store.Shows.usesOf_of_isEmpty {s : Store} {v : Value} {x : View} (h : s.Shows v x)
    (hv : s.isEmpty v = .ok true) : s.usesOf v = .ok [] := by
  obtain ⟨m, hm, htallies⟩ := h.uses
  rw [View.namesIn_of_isEmpty (h.isEmpty.symm.trans hv)] at htallies
  rw [hm, htallies.eq_nil]

/-! ## One concatenation -/

namespace Build

variable {σ : Session} {hand : List Value} {a b : Value} {x y z : View}

/-- Next to an empty operand, the other one is answered. -/
theorem concat_of_isEmpty (hb : σ.store.isEmpty b = .ok true) : concat a b σ = .ok a σ := by
  rw [concat, bind_of_ok (read_of_ok (f := fun s => s.isEmpty b) hb)]
  rfl

/-- If the right operand is not empty, the left one decides. -/
theorem concat_of_right (hb : σ.store.isEmpty b = .ok false) :
    concat a b σ = (do
      if ← read fun s => s.isEmpty a then return b
      else expression (.ofStrings ["", "", ""]) [a, b]) σ := by
  rw [concat, bind_of_ok (read_of_ok (f := fun s => s.isEmpty b) hb)]
  rfl

theorem concat_of_isEmpty_left (ha : σ.store.isEmpty a = .ok true)
    (hb : σ.store.isEmpty b = .ok false) : concat a b σ = .ok b σ := by
  rw [concat_of_right hb, bind_of_ok (read_of_ok (f := fun s => s.isEmpty a) ha)]
  rfl

/-- Without empty operands, both are joined to a new fragment. -/
theorem concat_of_not_isEmpty (h : σ.store.Sound hand) (ha : σ.store.Shows a x)
    (hb : σ.store.Shows b y) (hx : x.isEmpty = .ok false) (hy : y.isEmpty = .ok false) :
    ∃ v τ, concat a b σ = .ok v τ ∧ τ.store.Shows v (x.joined y) ∧ σ.store.Grows τ.store ∧
      τ.store.Sound (v :: hand) := by
  have hblocks : σ.store.Blocks [a, b] [(x.items, []), (y.items, [])] :=
    .cons (h.contributes ha) (.cons (h.contributes hb) .nil)
  have hsegments : (Segments.ofStrings ["", "", ""]).Are σ.store
      ([] :: [(x.items, ([] : Text)), (y.items, [])].map Prod.snd) := rfl
  obtain ⟨v, τ, hrun, hholds, hgrows, -⟩ := expression_of_contributes hsegments hblocks
  have hsound : τ.store.Sound (v :: hand) :=
    h.yields ((runs_expression h (Call.areGiven_ofStrings _ _)).ok hrun)
  refine ⟨v, τ, ?_, ?_, hgrows, hsound⟩
  · rw [concat_of_right (hb.isEmpty.trans hy),
      bind_of_ok (read_of_ok (f := fun s => s.isEmpty a) (ha.isEmpty.trans hx))]
    exact hrun
  · have hitems : Row.laid Item.plus segmentItem (Row.head segmentItem [])
        [(x.items, []), (y.items, [])] = (x.joined y).items := by
      -- There is something to the left of the operator.
      simp [Row.laid, Row.head, Row.join, Row.segment, View.joined, View.items_ne_nil hx]
    rw [hitems] at hholds
    exact hsound.shows_of_holds hholds

/-- An operand without a text is a failure, but for the left one next to an
empty one. -/
theorem concat_error {e : Failure} (hb : σ.store.isEmpty b = .error e) :
    concat a b σ = .error e σ := by
  rw [concat, bind_of_error (read_of_error (f := fun s => s.isEmpty b) hb)]

theorem concat_error_left {e : Failure} (ha : σ.store.isEmpty a = .error e)
    (hb : σ.store.isEmpty b = .ok false) : concat a b σ = .error e σ := by
  rw [concat_of_right hb, bind_of_error (read_of_error (f := fun s => s.isEmpty a) ha)]

/-- A run answers a code value that shows this, in a sound store that has
grown, or fails as this does. -/
def Answers (run : Build Value) (σ : Session) : Except Failure View → Prop
  | .ok z => ∃ v τ hand, run σ = .ok v τ ∧ τ.store.Shows v z ∧ σ.store.Grows τ.store ∧
      τ.store.Sound hand
  | .error e => ∃ τ, run σ = .error e τ

/-- **What two code values are concatenated to** shows the concatenation of
what they show, and fails where that fails. -/
theorem concat_answers (h : σ.store.Sound hand) (ha : σ.store.Shows a x)
    (hb : σ.store.Shows b y) : (concat a b).Answers σ (x.concat y) := by
  rcases x.concat_cases y with ⟨hy, hxy⟩ | ⟨⟨hx, hy⟩, hxy⟩ | ⟨⟨hx, hy⟩, hxy⟩ | ⟨hfails, hxy⟩ <;>
    rw [hxy]
  · have hrun : concat a b σ = .ok a σ := concat_of_isEmpty (hb.isEmpty.trans hy)
    exact ⟨a, σ, hand, hrun, ha, .refl _, h⟩
  · have hrun : concat a b σ = .ok b σ :=
      concat_of_isEmpty_left (ha.isEmpty.trans hx) (hb.isEmpty.trans hy)
    exact ⟨b, σ, hand, hrun, hb, .refl _, h⟩
  · obtain ⟨v, τ, hrun, hshows, hgrows, hsound⟩ := concat_of_not_isEmpty h ha hb hx hy
    exact ⟨v, τ, v :: hand, hrun, hshows, hgrows, hsound⟩
  · rcases hfails with hy | ⟨hx, hy⟩
    · exact ⟨σ, concat_error (hb.isEmpty.trans hy)⟩
    · exact ⟨σ, concat_error_left (ha.isEmpty.trans hx) (hb.isEmpty.trans hy)⟩

/-- So where the one answers, the other does. -/
theorem Answers.exists_shows {run : Build Value} {r : Except Failure View} {v : Value}
    {τ : Session} (h : run.Answers σ r) (hrun : run σ = .ok v τ) :
    ∃ z, r = .ok z ∧ τ.store.Shows v z := by
  cases r with
  | error e =>
    obtain ⟨υ, hfails⟩ := h
    cases hrun.symm.trans hfails
  | ok z =>
    obtain ⟨w, υ, -, hrun', hw, -⟩ := h
    cases hrun.symm.trans hrun'
    exact ⟨z, rfl, hw⟩

/-- What goes on from a code value that shows something goes on from what it
shows. -/
theorem Answers.bind {run : Build Value} {rest : Value → Build Value} {r : Except Failure View}
    {k : View → Except Failure View} (hrun : run.Answers σ r)
    (hrest : ∀ {v τ hand z}, τ.store.Sound hand → σ.store.Grows τ.store → τ.store.Shows v z →
      (rest v).Answers τ (k z)) : (run >>= rest).Answers σ (r >>= k) := by
  cases r with
  | error e =>
    obtain ⟨τ, hrun⟩ := hrun
    exact ⟨τ, bind_of_error hrun⟩
  | ok z =>
    obtain ⟨v, τ, hand, hrun, hv, hgrows, hsound⟩ := hrun
    have hrest := hrest hsound hgrows hv
    show (run >>= rest).Answers σ (k z)
    cases hk : k z with
    | error e =>
      rw [hk] at hrest
      obtain ⟨υ, hrest⟩ := hrest
      exact ⟨υ, (bind_of_ok hrun).trans hrest⟩
    | ok u =>
      rw [hk] at hrest
      obtain ⟨w, υ, hand', hrest, hw, hgrows', hsound'⟩ := hrest
      exact ⟨w, υ, hand', (bind_of_ok hrun).trans hrest, hw, hgrows.trans hgrows', hsound'⟩

end Build

/-! ## The monoid -/

/-- Two code values, each in a session of its own, of which the same is seen. -/
structure Alike (τ : Session) (v : Value) (υ : Session) (w : Value) : Prop where
  /-- They have the same text. -/
  text : τ.store.codeText v = υ.store.codeText w
  /-- They have the same items. -/
  items : ∃ xs, Build.pushed v τ = .ok xs τ ∧ Build.pushed w υ = .ok xs υ
  /-- They count the same uses, in some order. -/
  uses : ∃ m m' : Usage, τ.store.usesOf v = .ok m ∧ υ.store.usesOf w = .ok m' ∧ m.Perm m'
  /-- Both are string expressions, or neither is. -/
  isExpression : τ.store.isExpression v = υ.store.isExpression w

theorem Store.Shows.alike {τ υ : Session} {v w : Value} {z : View} (hv : τ.store.Shows v z)
    (hw : υ.store.Shows w z) : Alike τ v υ w := by
  obtain ⟨m, hm, htallies⟩ := hv.uses
  obtain ⟨m', hm', htallies'⟩ := hw.uses
  exact
    { text := hv.text.trans hw.text.symm
      items := ⟨z.items, hv.pushed τ.log, hw.pushed υ.log⟩
      uses := ⟨m, m', hm, hm', htallies.perm htallies'⟩
      isExpression := hv.isExpression.trans hw.isExpression.symm }

/-- **Concatenation is a monoid**, up to what is seen of a code value, at
any point of any history. In whichever order three code values are
concatenated, what is answered is alike, and if one order fails, so does
the other, since one of the three has no text. Next to an empty operand,
the other one itself is answered. What is answered is empty exactly if both
operands are, it counts the uses of both, and an empty operand counts none. -/
theorem Reachable.concat_monoid {σ : Session} {hand : List Value} {a b c : Value}
    (h : Reachable σ hand) (ha : σ.store.isCode a = true) (hb : σ.store.isCode b = true)
    (hc : σ.store.isCode c = true) :
    ((∃ v τ w υ, (Build.concat a b >>= (Build.concat · c)) σ = .ok v τ ∧
        (Build.concat b c >>= Build.concat a) σ = .ok w υ ∧ Alike τ v υ w) ∨
      ∃ e τ υ, (Build.concat a b >>= (Build.concat · c)) σ = .error e τ ∧
        (Build.concat b c >>= Build.concat a) σ = .error e υ ∧
        ∃ v ∈ [a, b, c], σ.store.codeText v = .error e) ∧
    (σ.store.isEmpty a = .ok true → σ.store.isEmpty b = .ok false →
      Build.concat a b σ = .ok b σ ∧ Build.concat b a σ = .ok b σ) ∧
    ∀ v τ, Build.concat a b σ = .ok v τ →
      (τ.store.isEmpty v = .ok true ↔
        σ.store.isEmpty a = .ok true ∧ σ.store.isEmpty b = .ok true) ∧
      (∃ (m₁ m₂ m : Usage) (f g : Name → Nat), σ.store.usesOf a = .ok m₁ ∧ m₁.Tallies f ∧
        σ.store.usesOf b = .ok m₂ ∧ m₂.Tallies g ∧
        τ.store.usesOf v = .ok m ∧ m.Tallies fun n => f n + g n) ∧
      ∀ u ∈ [a, b], σ.store.isEmpty u = .ok true → σ.store.usesOf u = .ok [] := by
  obtain ⟨x, hx⟩ := h.sound.exists_shows ha
  obtain ⟨y, hy⟩ := h.sound.exists_shows hb
  obtain ⟨z, hz⟩ := h.sound.exists_shows hc
  have hax := hx _ (.refl _)
  have hby := hy _ (.refl _)
  have hcz := hz _ (.refl _)
  refine ⟨?_, ?_, ?_⟩
  · have hleft := (Build.concat_answers h.sound hax hby).bind fun hsound hgrows hv =>
      Build.concat_answers hsound hv (hz _ hgrows)
    have hright := (Build.concat_answers h.sound hby hcz).bind fun hsound hgrows hw =>
      Build.concat_answers hsound (hx _ hgrows) hw
    rw [← View.concat_assoc] at hright
    cases hxyz : x.concat y >>= (·.concat z) with
    | ok u =>
      rw [hxyz] at hleft hright
      obtain ⟨v, τ, -, hrun, hv, -⟩ := hleft
      obtain ⟨w, υ, -, hrun', hw, -⟩ := hright
      exact .inl ⟨v, τ, w, υ, hrun, hrun', hv.alike hw⟩
    | error e =>
      rw [hxyz] at hleft hright
      obtain ⟨τ, hrun⟩ := hleft
      obtain ⟨υ, hrun'⟩ := hright
      refine .inr ⟨e, τ, υ, hrun, hrun', ?_⟩
      simpa [hax.text, hby.text, hcz.text] using View.text_of_concat_concat_error hxyz
  · intro hempty hnonempty
    exact ⟨Build.concat_of_isEmpty_left hempty hnonempty, Build.concat_of_isEmpty hempty⟩
  · intro v τ hrun
    obtain ⟨u, hu, hv⟩ := (Build.concat_answers h.sound hax hby).exists_shows hrun
    obtain ⟨m₁, hm₁, htallies₁⟩ := hax.uses
    obtain ⟨m₂, hm₂, htallies₂⟩ := hby.uses
    obtain ⟨m, hm, htallies⟩ := hv.uses
    rw [View.namesIn_concat hu] at htallies
    refine ⟨?_, ⟨m₁, m₂, m, _, _, hm₁, htallies₁, hm₂, htallies₂, hm, htallies⟩, ?_⟩
    · rw [hv.isEmpty, hax.isEmpty, hby.isEmpty]
      exact View.isEmpty_concat hu
    · simpa using ⟨hax.usesOf_of_isEmpty, hby.usesOf_of_isEmpty⟩

/-- Two names with a literal between them. -/
theorem Reachable.concat_monoid_names :
    let x : Name := ⟨Text.ofString "x", by decide⟩
    let y : Name := ⟨Text.ofString "y", by decide⟩
    let σ : Session := ⟨⟨#[.fragment (.object ⟨1⟩) (.scalar .null) false, .list [.text []],
      .list [.text "\"-\""], .fragment (.object ⟨2⟩) (.scalar .null) false]⟩, []⟩
    let literal : Value := .object ⟨3⟩
    (Reachable σ [literal, nil] ∧ σ.store.isCode literal = true) ∧
      ∃ v τ w υ, (Build.concat (.name x) literal >>= (Build.concat · (.name y))) σ = .ok v τ ∧
        (Build.concat literal (.name y) >>= Build.concat (.name x)) σ = .ok w υ ∧
        Alike τ v υ w := by
  intro x y σ literal
  have hreach : Reachable σ [literal, nil] := by
    refine .answered (c := .literalFragment (.text "-")) .start ⟨?_, trivial⟩ rfl
    simp [Call.args, Store.IsGiven]
  have hcode : σ.store.isCode literal = true := rfl
  obtain ⟨hassoc, -, -⟩ := hreach.concat_monoid (a := .name x) (c := .name y) rfl hcode rfl
  refine ⟨⟨hreach, hcode⟩, hassoc.resolve_right ?_⟩
  rintro ⟨e, -, -, -, -, v, hv, he⟩
  have htext : σ.store.codeText literal = .ok "\"-\"" := by
    rw [codeText_of_get (r := ⟨3⟩) rfl rfl]
    rfl
  simp only [List.mem_cons, List.not_mem_nil, or_false] at hv
  rcases hv with rfl | rfl | rfl
  · cases he
  · cases htext.symm.trans he
  · cases he

end Splice
