import Splice.Proofs.Folding.Value
import Splice.Proofs.Number.Relaid
/-!
# JavaScript — the text of a double

What is written in code for a finite double is what JavaScript converts it
to, with one exception. A double that is no whole number has a decimal that
is none either (`Double.exponent_of_not_isWhole`), and one from `10 ^ 21`
on has a decimal from there on (`Double.le_exponent_of_le`), so both are
written with the same point or exponent. A whole number below that is
written out with all its digits, where JavaScript writes the shortest ones
and zeros: that is the same if and only if the shortest decimal is the
number itself (`Double.codeText_eq_iff`), as it is below `2 ^ 53`
(`Double.isShortWhole_of_lt`).

A literal next to a double takes in what is written for it, so it takes in
what JavaScript would have joined to it under the same condition.
-/

namespace Splice

open JavaScript

/-- The text that JavaScript converts a finite double to. -/
def JavaScript.numberText (x : Double) : Text :=
  if x.isZero then [.char '0']
  else
    (if x.isNegative then [.char '-'] else []) ++
      positiveText x.magnitude.shortest.significant (x.magnitude.shortest.exponent + 1)

/-! ## Doubles -/

namespace Double

variable {x : Double} {n : Int}

/-- The value of a double that is whole. -/
theorem value_of_whole? (h : x.whole? = some n) : x.magnitude.value = n.natAbs := by
  unfold whole? at h
  split at h
  · rename_i hwhole
    rw [Bool.and_eq_true] at hwhole
    have habs : n.natAbs = x.magnitude.floor := by
      cases h
      split <;> omega
    rw [Magnitude.value_of_isWhole hwhole.2, habs]
  · cases h

/-- A finite double that is not whole has places after the point. -/
theorem not_isWhole_of_whole? (hx : x.isFinite = true) (h : x.whole? = none) :
    x.magnitude.isWhole = false := by
  simpa [whole?, hx] using h

/-- **The decimal of a double that is not whole** is not whole, and is below
`10 ^ 16`. -/
theorem exponent_of_not_isWhole (hzero : x.isZero = false) (h : x.magnitude.isWhole = false) :
    x.magnitude.shortest.exponent ≤ 15 ∧
      ¬ x.magnitude.shortest.significant.length ≤ x.magnitude.shortest.exponent + 1 := by
  have hshortest := Magnitude.readsBack_shortest (wellFormed hzero)
  have hdist := Magnitude.dist_le_of_readsBack (wellFormed hzero) hshortest
  have hdigits := Magnitude.shortest_pos (wellFormed hzero)
  have hsmall : x.magnitude.q ≤ -1 := by
    simp only [Magnitude.isWhole, Bool.or_eq_false_iff, decide_eq_false_iff_not] at h
    omega
  constructor
  · refine Int.not_lt.1 fun hlt => ?_
    -- The double is below `2 ^ 52`, and its decimal not far from it.
    have hhalf : (2 : ℚ) ^ x.magnitude.q ≤ 1 / 2 := by
      calc (2 : ℚ) ^ x.magnitude.q ≤ 2 ^ (-1 : ℤ) := zpow_le_zpow_right₀ (by norm_num) hsmall
        _ = 1 / 2 := by norm_num
    have hm : (x.magnitude.m : ℚ) ≤ 2 ^ 53 := by exact_mod_cast x.magnitude_lt.le
    have hvalue : x.magnitude.value ≤ 2 ^ 53 * (1 / 2) :=
      mul_le_mul hm hhalf (Magnitude.two_zpow_pos _).le (by norm_num)
    have hfirst : (10 : ℚ) ^ (16 : ℤ) ≤ x.magnitude.shortest.value :=
      (zpow_le_zpow_right₀ (by norm_num) (by omega)).trans (Decimal.pow_exponent_le hdigits).1
    have hnear : x.magnitude.shortest.value - x.magnitude.value ≤ 2 ^ x.magnitude.q / 2 :=
      (abs_le.1 hdist).2
    norm_num at hfirst hvalue
    linarith
  · intro hle
    obtain ⟨k, hk⟩ := (Decimal.exists_value_eq_iff hdigits).2 hle
    have hvalue := Magnitude.value_eq_of_shortest (wellFormed hzero) (by omega) hk
    exact absurd (h.symm.trans (Magnitude.isWhole_of_value hvalue)) (by decide)

/-- The decimal of a double from `10 ^ 21` on is not below that. -/
theorem le_exponent_of_le (hzero : x.isZero = false) (h : 10 ^ 21 ≤ x.magnitude.value) :
    21 ≤ x.magnitude.shortest.exponent := by
  have hx := wellFormed hzero
  have hone : (1 : ℚ) < 10 := by norm_num
  have hposition : 21 < x.magnitude.pointPosition := by
    refine (zpow_lt_zpow_iff_right₀ hone).1 (lt_of_le_of_lt ?_ (Magnitude.pointPosition_spec hx).2)
    exact_mod_cast h
  have hlast := (Magnitude.pow_le_shortest hx).trans_lt
    (Decimal.pow_exponent_le (Magnitude.shortest_pos hx)).2
  have hlt := (zpow_lt_zpow_iff_right₀ hone).1 hlast
  omega

/-- **What is not written out is what JavaScript writes.** -/
theorem relaid_literalText (hx : x.isFinite = true) (hzero : x.isZero = false)
    (h : ∀ n, x.whole? = some n → 10 ^ 21 ≤ n.natAbs) :
    x.literalText.relaid = numberText x := by
  have hdigits := Magnitude.shortest_pos (wellFormed hzero)
  have hsign : (if x.isNegative then [.char '-'] else []) = ([] : Text) ∨
      (if x.isNegative then [.char '-'] else []) = ([.char '-'] : Text) := by
    cases x.isNegative
    · exact .inl rfl
    · exact .inr rfl
  have hplace : (x.magnitude.shortest.exponent ≤ 15 ∨ 21 ≤ x.magnitude.shortest.exponent) ∧
      (x.magnitude.shortest.significant.length ≤ x.magnitude.shortest.exponent + 1 →
        21 ≤ x.magnitude.shortest.exponent) := by
    cases hwhole : x.whole? with
    | none =>
      obtain ⟨hle, hlength⟩ := exponent_of_not_isWhole hzero (not_isWhole_of_whole? hx hwhole)
      exact ⟨.inl hle, fun h => absurd h hlength⟩
    | some n =>
      have hle : 21 ≤ x.magnitude.shortest.exponent := by
        refine le_exponent_of_le hzero ?_
        rw [value_of_whole? hwhole]
        exact_mod_cast h n hwhole
      exact ⟨.inr hle, fun _ => hle⟩
  rw [literalText, if_pos hx, laidOut, digits_of_not_isZero hzero, numberText, hzero,
    Text.relaid_place hsign (Decimal.head?_significant hdigits).1
      (Decimal.isDecimal_significant _) hplace.1 hplace.2]
  rfl

/-- A zero has no significand. -/
theorem magnitude_of_isZero (h : x.isZero = true) : x.magnitude = ⟨0, -1074, false⟩ := by
  simp only [isZero, Bool.and_eq_true, beq_iff_eq] at h
  rw [magnitude, if_pos h.1, h.2]

/-- The doubles that are zero as whole numbers are the zeros. -/
theorem whole?_eq_zero_iff (hx : x.isFinite = true) : x.whole? = some 0 ↔ x.isZero = true := by
  constructor
  · intro h
    refine Bool.of_not_eq_false fun hzero => ?_
    have hvalue : x.magnitude.value = 0 := by
      rw [value_of_whole? h]
      rfl
    have hpos : 0 < x.magnitude.value :=
      mul_pos (Nat.cast_pos.2 (wellFormed hzero).pos) (Magnitude.two_zpow_pos _)
    exact hpos.ne' hvalue
  · intro h
    have hm : x.magnitude.m = 0 := by rw [magnitude_of_isZero h]
    simp [whole?, hx, Magnitude.isWhole, Magnitude.floor, hm]

/-- A double that is a multiple of two has all bits of its significand. -/
theorem pow_le_magnitude (h : 0 < x.magnitude.q) : 2 ^ 52 ≤ x.magnitude.m := by
  unfold magnitude at h ⊢
  split
  · rename_i hbiased
    rw [if_pos hbiased] at h
    dsimp only at h
    omega
  · exact Nat.le_add_right _ _

/-- A double that is a whole number other than zero is no zero, and has the
sign of the number. -/
theorem sign_of_whole? (h : x.whole? = some n) (hn : n ≠ 0) :
    x.isZero = false ∧ x.isNegative = decide (n < 0) := by
  constructor
  · refine Bool.eq_false_iff.2 fun hzero => hn ?_
    have hvalue := value_of_whole? h
    rw [magnitude_of_isZero hzero, Magnitude.value, Nat.cast_zero, zero_mul] at hvalue
    exact Int.natAbs_eq_zero.1 (by exact_mod_cast hvalue.symm)
  · unfold whole? at h
    split at h
    · cases h
      cases hneg : x.isNegative with
      | true =>
        rw [hneg, if_pos rfl] at hn
        simp only [if_true]
        exact (decide_eq_true (by omega)).symm
      | false =>
        simp only [Bool.false_eq_true, if_false]
        exact (decide_eq_false (by omega)).symm
    · cases h

/-- A whole number other than zero that is written out is what JavaScript
writes if and only if it is the shortest decimal. -/
theorem ofInt_eq_numberText_iff (h : x.whole? = some n) (hn : n ≠ 0) (hlt : n.natAbs < 10 ^ 21) :
    Text.ofInt n = numberText x ↔ x.magnitude.shortest.value = n.natAbs := by
  obtain ⟨hzero, hsign⟩ := sign_of_whole? h hn
  have hdigits := Magnitude.shortest_pos (wellFormed hzero)
  rw [← Decimal.ofNat_eq_positiveText_iff hdigits hlt, Text.ofInt_eq, numberText, hzero, hsign]
  simp only [decide_eq_true_eq, Bool.false_eq_true, if_false]
  exact List.append_right_inj _

/-- The digits of a whole number that is written out are its shortest ones,
and zeros. -/
def IsShortWhole (x : Double) : Prop :=
  ∀ n, x.whole? = some n → n ≠ 0 → n.natAbs < 10 ^ 21 →
    x.magnitude.shortest.value = n.natAbs

/-- **When a finite double is written as JavaScript writes it.** -/
theorem codeText_eq_iff (hx : x.isFinite = true) :
    x.codeText = numberText x ↔ x.IsShortWhole := by
  cases hwhole : x.whole? with
  | none =>
    have hzero : x.isZero = false := by
      refine Bool.eq_false_iff.2 fun hzero => ?_
      cases hwhole.symm.trans ((whole?_eq_zero_iff hx).2 hzero)
    have htext : x.codeText = x.literalText.relaid := by simp [codeText, hx, hwhole]
    rw [htext, relaid_literalText hx hzero fun n hn => nomatch hwhole.symm.trans hn]
    exact iff_of_true rfl fun n hn => nomatch hwhole.symm.trans hn
  | some n =>
    have hall : x.IsShortWhole ↔
        (n ≠ 0 → n.natAbs < 10 ^ 21 → x.magnitude.shortest.value = n.natAbs) := by
      refine ⟨fun h => h n hwhole, fun h k hk => ?_⟩
      cases hwhole.symm.trans hk
      exact h
    rw [hall]
    by_cases hn : n = 0
    · subst hn
      have htext : x.codeText = [.char '0'] := by simp [codeText, hx, hwhole]; rfl
      have hjs : numberText x = [.char '0'] := if_pos ((whole?_eq_zero_iff hx).1 hwhole)
      rw [htext, hjs]
      exact iff_of_true rfl fun h => absurd rfl h
    · by_cases hlt : n.natAbs < 10 ^ 21
      · have htext : x.codeText = Text.ofInt n := by simp [codeText, hx, hwhole, hlt]
        rw [htext, ofInt_eq_numberText_iff hwhole hn hlt]
        exact ⟨fun h _ _ => h, fun h => h hn hlt⟩
      · have htext : x.codeText = x.literalText.relaid := by simp [codeText, hx, hwhole, hlt]
        have hlarge : ∀ k, x.whole? = some k → 10 ^ 21 ≤ k.natAbs := by
          intro k hk
          cases hwhole.symm.trans hk
          exact Nat.not_lt.1 hlt
        rw [htext, relaid_literalText hx (sign_of_whole? hwhole hn).1 hlarge]
        exact iff_of_true rfl fun _ h => absurd h hlt

/-- A double that is a multiple of two is from `2 ^ 53` on. -/
theorem pow_le_value (h : 0 < x.magnitude.q) : 2 ^ 53 ≤ x.magnitude.value := by
  have hdigits : (2 : ℚ) ^ 52 ≤ x.magnitude.m := by exact_mod_cast pow_le_magnitude h
  have htwo : (2 : ℚ) ^ (1 : ℤ) ≤ 2 ^ x.magnitude.q := zpow_le_zpow_right₀ (by norm_num) h
  calc (2 : ℚ) ^ 53 = 2 ^ 52 * 2 ^ (1 : ℤ) := by norm_num
    _ ≤ x.magnitude.value := mul_le_mul hdigits htwo (by positivity) (Nat.cast_nonneg _)

/-- **Every whole number below `2 ^ 53`** is its own shortest decimal. -/
theorem isShortWhole_of_lt (h : x.whole? = some n) (hlt : n.natAbs < 2 ^ 53) :
    x.IsShortWhole := by
  intro k hk hn _
  cases h.symm.trans hk
  have hsmall : x.magnitude.q ≤ 0 := by
    refine Int.not_lt.1 fun hlarge => absurd (pow_le_value hlarge) (not_le.2 ?_)
    rw [value_of_whole? h]
    exact_mod_cast hlt
  exact Magnitude.shortest_value_of_whole (wellFormed (sign_of_whole? h hn).1) hsmall
    (value_of_whole? h)

end Double

/-! ## Taken in by a literal -/

/-- What JavaScript writes for a number is plain. -/
theorem JavaScript.isPlain_numberText (x : Double) : (numberText x).IsPlain := by
  have hpositive : ∀ {ds : Text} {n : Int}, ds.IsPlain → (positiveText ds n).IsPlain := by
    intro ds n h
    have hzeros := Layout.isPlain_zeros
    unfold positiveText
    split_ifs
    · exact Text.isPlain_append.2 ⟨h, hzeros _⟩
    · exact Text.isPlain_append.2 ⟨h.take _, Text.isPlain_cons.2 ⟨by decide, h.drop _⟩⟩
    · exact Text.isPlain_append.2 ⟨Text.isPlain_append.2 ⟨by decide, hzeros _⟩, h⟩
    all_goals
      simp only [Text.isPlain_append, Text.isPlain_cons]
      exact ⟨Layout.isPlain_mantissa h, by decide, by decide, Text.isPlain_ofNat _⟩
  unfold numberText
  split
  · decide
  · refine Text.isPlain_append.2 ⟨?_, hpositive (Decimal.isPlain_significant _)⟩
    split
    · decide
    · exact Text.isPlain_nil

namespace Double

variable {x : Double} {ρ : Type}

/-- **Doubles print as JavaScript prints them, but for large whole
numbers.** A finite double is written as JavaScript converts it to text if
and only if it is not a whole number below `10 ^ 21` that has other digits
than its shortest decimal; up to `2 ^ 53` no whole number has. The same
holds of the text that a literal next to the double takes in. -/
theorem render_eq_numberText_iff (hx : x.isFinite = true) :
    ((Scalar.float x).render = .ok (numberText x) ↔ x.IsShortWhole) ∧
      (∀ n, x.whole? = some n → n.natAbs < 2 ^ 53 → x.IsShortWhole) ∧
      ∀ (print : ρ → Except Failure Text) {t : Text} {us : List Nat}, Json.IsString t us →
        ∃ left right, (Item.text t).merge? print (.scalar (.float x)) = .ok (some left) ∧
          (Item.scalar (.float x)).merge? print (.text t) = .ok (some right) ∧
          (Json.IsString left (us ++ (numberText x).units) ↔ x.IsShortWhole) ∧
          (Json.IsString right ((numberText x).units ++ us) ↔ x.IsShortWhole) := by
  have hrender : (Scalar.float x).render = .ok x.codeText := rfl
  refine ⟨?_, fun n hn hlt => isShortWhole_of_lt hn hlt, fun print t us ht => ?_⟩
  · rw [hrender, Except.ok.injEq]
    exact codeText_eq_iff hx
  · have hunits : x.codeText.units = (numberText x).units ↔ x.IsShortWhole :=
      ⟨fun h => (codeText_eq_iff hx).1 (x.isPlain_codeText.units_inj (isPlain_numberText x) h),
        fun h => congrArg Text.units ((codeText_eq_iff hx).2 h)⟩
    have hcontent : Json.Content x.codeText x.codeText.units := .of_plain x.isPlain_codeText
    have hleft := ht.absorb_right hcontent
    have hright := Json.IsString.absorb_left hcontent ht
    refine ⟨t.dropLast ++ x.codeText ++ [.char '"'], .char '"' :: x.codeText ++ t.tail,
      ?_, ?_, ?_, ?_⟩
    · simp only [Item.merge?, ht.endsQuoted, if_true, Item.render, hrender]
      rfl
    · simp only [Item.merge?, ht.startsQuoted, if_true, Item.render, hrender]
      rfl
    · rw [← hunits]
      exact ⟨fun h => List.append_cancel_left (hleft.unique h), fun h => h ▸ hleft⟩
    · rw [← hunits]
      exact ⟨fun h => List.append_cancel_right (hright.unique h), fun h => h ▸ hright⟩

/-- A number that repr writes in exponent notation and JavaScript does not. -/
theorem render_eq_numberText_iff_small :
    let x : Double := ⟨0xbeb92a737110e454⟩
    x.isFinite = true ∧ (Scalar.float x).render = .ok (numberText x) ∧
      (Scalar.float x).render = .ok "-0.0000015" := by
  intro x
  have hx : x.isFinite = true := by decide
  have hwhole : x.whole? = none := by decide +kernel
  have hshort : x.IsShortWhole := fun n hn => nomatch hwhole.symm.trans hn
  have hrender := (render_eq_numberText_iff (ρ := Empty) hx).1.2 hshort
  have htext : numberText x = "-0.0000015" := by decide +kernel
  exact ⟨hx, hrender, by rw [hrender, htext]⟩

/-- `2 ^ 63` is written out, where JavaScript writes zeros at the end. -/
theorem render_ne_numberText :
    let x : Double := ⟨0x43e0000000000000⟩
    x.isFinite = true ∧ (Scalar.float x).render = .ok "9223372036854775808" ∧
      numberText x = "9223372036854776000" ∧ (Scalar.float x).render ≠ .ok (numberText x) := by
  decide +kernel

end Double

end Splice
