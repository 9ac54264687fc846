import Splice.Proofs.JavaScript.Concatenation
import Splice.Proofs.JavaScript.Numeral
/-!
# JavaScript — the text of a scalar at run time

What is written for a scalar is a word, such as null, or a number. A word
is the text of its own value. A number is read as the double nearest to it,
or as infinity if it is out of their range, and that is converted to text
(`JavaScript.Converts`). So each scalar that can be written has one text
at run time (`Converts.unique`, `exists_converts`), and it is what is
written but for doubles and integers that are written with other digits
than JavaScript writes for them: not below `2 ^ 53`
(`converts_ofInt_of_lt`), and for a double exactly if it is a whole number
whose digits are not its shortest ones (`converts_codeText_iff`).

Where the two texts differ, none of them begins with the other one
(`Converts.eq_of_prefixed`). Both are whole numbers near the same double, so
one is not ten times the other, or JavaScript writes an exponent, or a
word. So a row of texts tells the texts in it apart.
-/

namespace Splice

open JavaScript Magnitude

/-! ## Whole numbers that are read as doubles -/

namespace Double

variable {x y : Double} {n : Int} {N : Nat} {v : ℚ}

/-- What a number is read as has one text. -/
theorem numberText_congr (hx : x.IsNearest v) (hy : y.IsNearest v) :
    numberText x = numberText y := by
  rcases hx.iff.1 hy with rfl | ⟨hyzero, hxzero⟩
  · rfl
  · rw [numberText, if_pos hxzero, numberText, if_pos hyzero]

/-- A positive double is not zero and has no sign. -/
theorem sign_of_pos (h : 0 < x.value) : x.isZero = false ∧ x.isNegative = false := by
  have hnonneg : 0 ≤ x.magnitude.value := abs_value x ▸ abs_nonneg _
  have hneg : x.isNegative = false := by
    refine Bool.eq_false_iff.2 fun hneg => absurd h (not_lt.2 ?_)
    rw [value, if_pos hneg]
    exact neg_nonpos.2 hnonneg
  refine ⟨Bool.eq_false_iff.2 fun hzero => h.ne' ?_, hneg⟩
  rw [value, hneg, magnitude_of_isZero hzero, Magnitude.value, Nat.cast_zero, zero_mul]
  rfl

/-- A negative one has a sign. -/
theorem sign_of_neg (h : x.value < 0) : x.isZero = false ∧ x.isNegative = true := by
  have hnonneg : 0 ≤ x.magnitude.value := abs_value x ▸ abs_nonneg _
  have hneg : x.isNegative = true := by
    refine Bool.of_not_eq_false fun hneg => absurd h (not_lt.2 ?_)
    rwa [value, hneg]
  refine ⟨Bool.eq_false_iff.2 fun hzero => h.ne ?_, hneg⟩
  rw [value, hneg, magnitude_of_isZero hzero, Magnitude.value, Nat.cast_zero, zero_mul]
  rfl

/-- **The sign of a whole number stays** when it is read, and but for the
sign it reads back. -/
theorem IsNearest.sign (h : x.IsNearest n) (hn : n ≠ 0) :
    x.isZero = false ∧ x.isNegative = decide (n < 0) ∧
      x.magnitude.readsBack n.natAbs 0 = true := by
  have hone : (⟨0x3ff0000000000000⟩ : Double).value = 1 := by decide +kernel
  have hminus : (⟨0xbff0000000000000⟩ : Double).value = -1 := by decide +kernel
  have hsign : x.isZero = false ∧ x.isNegative = decide (n < 0) := by
    rcases Int.lt_or_gt_of_ne hn with hneg | hpos
    · have hle : (n : ℚ) ≤ -1 := by exact_mod_cast (by omega : n ≤ -1)
      have hvalue := h.value_le rfl (hminus ▸ hle)
      rw [decide_eq_true hneg]
      exact sign_of_neg (by linarith)
    · have hle : (1 : ℚ) ≤ n := by exact_mod_cast hpos
      have hvalue := h.le_value rfl (hone ▸ hle)
      rw [decide_eq_false (by omega)]
      exact sign_of_pos (by linarith)
  refine ⟨hsign.1, hsign.2, readsBack_of_isNearest hsign.1 ?_⟩
  have hvalue : (if x.isNegative then -((n.natAbs : ℚ) * 10 ^ (0 : ℤ))
      else (n.natAbs : ℚ) * 10 ^ (0 : ℤ)) = n := by
    rw [hsign.2, zpow_zero, mul_one, Nat.cast_natAbs]
    by_cases hneg : n < 0
    · rw [decide_eq_true hneg, if_pos rfl, abs_of_neg hneg]
      push_cast
      ring
    · rw [decide_eq_false hneg, if_neg (by decide), abs_of_nonneg (not_lt.1 hneg)]
  rwa [hvalue]

section Digits

variable (hzero : x.isZero = false) (hread : x.magnitude.readsBack N 0 = true)

include hzero hread

theorem dist_le_of_whole : |(N : ℚ) - x.magnitude.value| ≤ 2 ^ x.magnitude.q / 2 := by
  have hdist := dist_le_of_readsBack (wellFormed hzero) hread
  rwa [zpow_zero, mul_one] at hdist

/-- A whole number that is read as a double with all places before the
point is the double, and is written with its shortest digits. -/
theorem ofNat_eq_positiveText_of_small (hsmall : x.magnitude.q ≤ 0) :
    Text.ofNat N =
      positiveText x.magnitude.shortest.significant (x.magnitude.shortest.exponent + 1) := by
  have hvalue := eq_of_dist_le hsmall (dist_le_of_whole hzero hread)
  have hlt : N < 10 ^ 21 := by
    have hone : (2 : ℚ) ^ x.magnitude.q ≤ 1 := zpow_le_one_of_nonpos₀ (by norm_num) hsmall
    have hm : (x.magnitude.m : ℚ) < 10 ^ 21 := by
      exact_mod_cast x.magnitude_lt.trans (by decide)
    have hN : (N : ℚ) < 10 ^ 21 := by
      calc (N : ℚ) = x.magnitude.m * 2 ^ x.magnitude.q := hvalue.symm
        _ ≤ x.magnitude.m * 1 := mul_le_mul_of_nonneg_left hone (Nat.cast_nonneg _)
        _ < 10 ^ 21 := by rwa [mul_one]
    exact_mod_cast hN
  exact (Decimal.ofNat_eq_positiveText_iff (shortest_pos (wellFormed hzero)) hlt).2
    (shortest_value_of_whole (wellFormed hzero) hsmall hvalue)

end Digits

end Double

namespace JavaScript

variable {ds : Text} {e : Int} {n : Nat}

/-- What JavaScript writes with an exponent has no digit in second place. -/
theorem exists_second (hne : ds ≠ []) (hplace : 21 < e) :
    ∃ c d r, positiveText ds e = c :: d :: r ∧ d.isDecimal = false := by
  rw [positiveText, if_neg (by omega), if_neg (by omega), if_neg (by omega)]
  obtain ⟨c, ds, rfl⟩ := List.exists_cons_of_ne_nil hne
  cases ds with
  | nil => exact ⟨c, .char 'e', _, rfl, rfl⟩
  | cons d ds => exact ⟨c, .char '.', _, rfl, rfl⟩

/-- And a whole number from ten on has one. -/
theorem not_prefix_positiveText (hne : ds ≠ []) (hplace : 21 < e) (hten : 10 ≤ n)
    (h : Text.ofNat n <+: positiveText ds e ∨ positiveText ds e <+: Text.ofNat n) : False := by
  obtain ⟨c, d, r, htext, hd⟩ := exists_second hne hplace
  obtain ⟨c', d', r', hn⟩ := Text.exists_two_digits hten
  have hd' : d'.isDecimal = true := Text.isDecimal_ofNat n d' (by simp [hn])
  rw [htext, hn] at h
  obtain rfl : d = d' := by
    rcases h with ⟨s, hs⟩ | ⟨s, hs⟩
    · exact ((List.cons.inj (List.cons.inj hs).2).1).symm
    · exact (List.cons.inj (List.cons.inj hs).2).1
  exact absurd (hd.symm.trans hd') (by decide)

end JavaScript

namespace Double

variable {x : Double} {n : Int} {M N : Nat}

section Large

variable (hlarge : 0 < x.magnitude.q)

include hlarge

/-- Whole numbers near one large double are large, and not ten times each
other. -/
theorem large_of_dist_le (hM : |(M : ℚ) - x.magnitude.value| ≤ 2 ^ x.magnitude.q / 2)
    (hN : |(N : ℚ) - x.magnitude.value| ≤ 2 ^ x.magnitude.q / 2) : 10 ≤ N ∧ M < 10 * N := by
  have hm : (2 : ℚ) ^ 52 ≤ x.magnitude.m := by exact_mod_cast pow_le_magnitude hlarge
  have hvalue : 2 ^ 52 * 2 ^ x.magnitude.q ≤ x.magnitude.value :=
    mul_le_mul_of_nonneg_right hm (two_zpow_pos _).le
  have htwo : (1 : ℚ) ≤ 2 ^ x.magnitude.q := one_le_zpow₀ (by norm_num) hlarge.le
  have hlow := (abs_le.1 hN).1
  have hhigh := (abs_le.1 hM).2
  have hten : (10 : ℚ) ≤ N := by linarith
  have hlt : (M : ℚ) < 10 * N := by linarith
  exact ⟨by exact_mod_cast hten, by exact_mod_cast hlt⟩

/-- The shortest decimal of a large double is a whole number near it. -/
theorem exists_shortest_of_large (hzero : x.isZero = false) :
    ∃ M : Nat, x.magnitude.shortest.value = M ∧
      |(M : ℚ) - x.magnitude.value| ≤ 2 ^ x.magnitude.q / 2 := by
  have hwhole : x.magnitude.value = (x.magnitude.m * 2 ^ x.magnitude.q.toNat : ℕ) := by
    obtain ⟨k, hk⟩ := Int.eq_ofNat_of_zero_le hlarge.le
    rw [Magnitude.value, hk, zpow_natCast, Int.toNat_natCast]
    push_cast
    rfl
  obtain ⟨M, hM⟩ := exists_shortest_value_of_whole (wellFormed hzero) hwhole
  have hreads := readsBack_shortest (wellFormed hzero)
  exact ⟨M, hM, hM ▸ dist_le_of_readsBack (wellFormed hzero) hreads⟩

end Large

/-- **A whole number and what JavaScript writes for it** are the same, or
neither begins with the other. -/
theorem ofNat_eq_positiveText_of_prefixed (hzero : x.isZero = false)
    (hread : x.magnitude.readsBack N 0 = true)
    (h : Text.ofNat N <+:
        positiveText x.magnitude.shortest.significant (x.magnitude.shortest.exponent + 1) ∨
      positiveText x.magnitude.shortest.significant (x.magnitude.shortest.exponent + 1) <+:
        Text.ofNat N) :
    Text.ofNat N =
      positiveText x.magnitude.shortest.significant (x.magnitude.shortest.exponent + 1) := by
  by_cases hsmall : x.magnitude.q ≤ 0
  · exact ofNat_eq_positiveText_of_small hzero hread hsmall
  have hlarge : 0 < x.magnitude.q := not_le.1 hsmall
  have hdigits := shortest_pos (wellFormed hzero)
  have hN := dist_le_of_whole hzero hread
  obtain ⟨M, hvalue, hM⟩ := exists_shortest_of_large hlarge hzero
  obtain ⟨hten, hMN⟩ := large_of_dist_le hlarge hM hN
  have hNM := (large_of_dist_le hlarge hN hM).2
  have hlength := (Decimal.exists_value_eq_iff hdigits).1 ⟨M, hvalue⟩
  by_cases hplace : x.magnitude.shortest.exponent + 1 ≤ 21
  · -- The shortest digits and zeros are the digits of a whole number, too.
    have hlt : M < 10 ^ 21 := by
      have hlt : (M : ℚ) < 10 ^ (21 : ℤ) :=
        hvalue ▸ (Decimal.pow_exponent_le hdigits).2.trans_le
          (zpow_le_zpow_right₀ (by norm_num) hplace)
      exact_mod_cast hlt
    have htext := (Decimal.ofNat_eq_positiveText_iff hdigits hlt).2 hvalue
    rw [← htext] at h ⊢
    rcases h with h | h
    · exact Text.ofNat_eq_of_prefixed h hMN
    · exact (Text.ofNat_eq_of_prefixed h hNM).symm
  · exact (not_prefix_positiveText (Decimal.head?_significant hdigits).1 (not_le.1 hplace) hten
      h).elim

/-- The texts of a whole number that is read as a double have the same sign,
or both are a zero. -/
theorem IsNearest.texts (h : x.IsNearest n) :
    Text.ofInt n = numberText x ∨ ∃ sign : Text, x.isZero = false ∧
      x.magnitude.readsBack n.natAbs 0 = true ∧ Text.ofInt n = sign ++ Text.ofNat n.natAbs ∧
      numberText x = sign ++
        positiveText x.magnitude.shortest.significant (x.magnitude.shortest.exponent + 1) := by
  by_cases hn : n = 0
  · subst hn
    have hvalue : x.value = 0 := by
      have hzero : (⟨0⟩ : Double).value = 0 := by decide +kernel
      refine le_antisymm (hzero ▸ h.value_le rfl ?_) (hzero ▸ h.le_value rfl ?_) <;> simp [hzero]
    have hzero := (whole?_eq_zero_iff h.isFinite).1 ((whole?_eq_some_iff h.isFinite).2 hvalue)
    rw [numberText, if_pos hzero]
    exact .inl rfl
  · obtain ⟨hzero, hsign, hread⟩ := h.sign hn
    refine .inr ⟨if n < 0 then [.char '-'] else [], hzero, hread, Text.ofInt_eq n, ?_⟩
    rw [numberText, hzero, hsign]
    simp

/-- **With the signs before them**, too, neither begins with the other. -/
theorem IsNearest.eq_of_prefixed (h : x.IsNearest n)
    (hbegins : Text.ofInt n <+: numberText x ∨ numberText x <+: Text.ofInt n) :
    Text.ofInt n = numberText x := by
  rcases h.texts with h | ⟨sign, hzero, hread, hwritten, htext⟩
  · exact h
  · rw [hwritten, htext] at hbegins ⊢
    simp only [List.prefix_append_right_inj] at hbegins
    rw [ofNat_eq_positiveText_of_prefixed hzero hread hbegins]

/-- **A whole number below `2 ^ 53`** is read as a double that JavaScript
writes with its digits. -/
theorem IsNearest.ofInt_eq (h : x.IsNearest n) (hlt : n.natAbs < 2 ^ 53) :
    Text.ofInt n = numberText x := by
  rcases h.texts with h | ⟨sign, hzero, hread, hwritten, htext⟩
  · exact h
  · -- It is not above the greatest double that is no multiple of two.
    have hgreatest : (⟨0x433fffffffffffff⟩ : Double).value = 2 ^ 53 - 1 := by decide +kernel
    have hleast : (⟨0xc33fffffffffffff⟩ : Double).value = -(2 ^ 53 - 1) := by decide +kernel
    have hle : |(n : ℚ)| ≤ 2 ^ 53 - 1 := by
      have hle : |n| ≤ 2 ^ 53 - 1 := abs_le.2 ⟨by omega, by omega⟩
      exact_mod_cast hle
    have hhigh := h.value_le rfl (hgreatest ▸ (abs_le.1 hle).2)
    have hlow := h.le_value rfl (hleast ▸ (abs_le.1 hle).1)
    rw [hgreatest] at hhigh
    rw [hleast] at hlow
    have hvalue : x.magnitude.value ≤ 2 ^ 53 - 1 := abs_value x ▸ abs_le.2 ⟨hlow, hhigh⟩
    have hsmall : x.magnitude.q ≤ 0 := by
      refine not_lt.1 fun hlarge => absurd (pow_le_value hlarge) (not_le.2 ?_)
      linarith
    rw [hwritten, htext, ofNat_eq_positiveText_of_small hzero hread hsmall]

end Double

/-! ## What a scalar converts to -/

/-- **The text that JavaScript converts a scalar to**, by what is written
for it in code. -/
inductive JavaScript.Converts (c : Scalar) : Text → Prop
  /-- What is no number is a word, which is converted to itself. -/
  | word {t : Text} : c.render = .ok t → numeral? t = none → Converts c t
  /-- A number is read as the nearest double. -/
  | number {t : Text} {v : ℚ} {x : Double} : c.render = .ok t → numeral? t = some v →
      x.IsNearest v → Converts c (numberText x)
  /-- Beyond the doubles it is infinite. -/
  | infinite {t : Text} {v : ℚ} : c.render = .ok t → numeral? t = some v →
      (2 ^ 53 - 1 / 2) * 2 ^ 971 ≤ |v| →
      Converts c (if v < 0 then Text.ofString "-Infinity" else Text.ofString "Infinity")

section Converts

variable {c : Scalar} {t u w : Text} {v : ℚ} {x : Double} {n : Int}

/-- **What is written for a scalar has one text at run time.** -/
theorem JavaScript.Converts.unique (h : Converts c u) (h' : Converts c w) : u = w := by
  cases h with
  | word ht hnone =>
    cases h' with
    | word ht' => exact Except.ok.inj (ht.symm.trans ht')
    | number ht' hv' =>
      cases ht.symm.trans ht'
      cases hnone.symm.trans hv'
    | infinite ht' hv' =>
      cases ht.symm.trans ht'
      cases hnone.symm.trans hv'
  | number ht hv hx =>
    cases h' with
    | word ht' hnone' =>
      cases ht.symm.trans ht'
      cases hnone'.symm.trans hv
    | number ht' hv' hx' =>
      cases ht.symm.trans ht'
      cases hv.symm.trans hv'
      exact Double.numberText_congr hx hx'
    | infinite ht' hv' hout' =>
      cases ht.symm.trans ht'
      cases hv.symm.trans hv'
      exact absurd hx.inRange (not_lt.2 hout')
  | infinite ht hv hout =>
    cases h' with
    | word ht' hnone' =>
      cases ht.symm.trans ht'
      cases hnone'.symm.trans hv
    | number ht' hv' hx' =>
      cases ht.symm.trans ht'
      cases hv.symm.trans hv'
      exact absurd hx'.inRange (not_lt.2 hout)
    | infinite ht' hv' =>
      cases ht.symm.trans ht'
      cases hv.symm.trans hv'
      rfl

/-- **A scalar that can be written has a text at run time.** -/
theorem exists_converts (h : c.render = .ok t) : ∃ u, Converts c u := by
  cases hv : numeral? t with
  | none => exact ⟨t, .word h hv⟩
  | some v =>
    rcases lt_or_ge |v| ((2 ^ 53 - 1 / 2) * 2 ^ 971) with hin | hout
    · obtain ⟨x, hx⟩ := Double.exists_isNearest hin
      exact ⟨_, .number h hv hx⟩
    · exact ⟨_, .infinite h hv hout⟩

/-- What is written for a finite double is what JavaScript writes for it, or
the digits of a whole number. -/
theorem Double.codeText_cases (hx : x.isFinite = true) :
    x.codeText = numberText x ∨ ∃ n, x.codeText = Text.ofInt n := by
  by_cases hshort : x.IsShortWhole
  · exact .inl ((codeText_eq_iff hx).2 hshort)
  · obtain ⟨n, hwhole, hlt⟩ : ∃ n, x.whole? = some n ∧ n.natAbs < 10 ^ 21 := by
      simp only [IsShortWhole, not_forall] at hshort
      obtain ⟨n, hwhole, -, hlt, -⟩ := hshort
      exact ⟨n, hwhole, hlt⟩
    exact .inr ⟨n, by simp [codeText, hx, hwhole, hlt]⟩

/-- What is written for a double is a number exactly if it is finite, and
is read as the double then. -/
theorem Double.isNearest_of_numeral? (hv : numeral? x.codeText = some v) : x.IsNearest v := by
  by_cases hx : x.isFinite = true
  · obtain ⟨hout, hrelaid⟩ := numeral?_codeText hx
    by_cases h : x.IsWrittenOut
    · cases (hout h).symm.trans hv
      exact isNearest_value hx
    · cases (hrelaid h).symm.trans hv
      exact isNearest_shortValue hx
  · rw [codeText, if_neg hx] at hv
    split at hv
    · cases hv
    · split at hv <;> cases hv

/-- **What is written as a number** is a whole number, or what JavaScript
writes for the double that it is read as. -/
theorem Scalar.numeral_cases (h : c.render = .ok t) (hv : numeral? t = some v) :
    (∃ n : Int, t = Text.ofInt n ∧ v = n) ∨ ∃ x : Double, x.IsNearest v ∧ t = numberText x := by
  have hint : ∀ n, t = Text.ofInt n → ∃ n : Int, t = Text.ofInt n ∧ v = n := by
    rintro n rfl
    exact ⟨n, rfl, Option.some.inj (hv.symm.trans (Text.numeral?_ofInt n))⟩
  cases c with
  | null =>
    cases h
    cases hv
  | bool b => cases b <;> cases h <;> cases hv
  | int n =>
    rw [render] at h
    split at h
    · exact .inl (hint n (Except.ok.inj h).symm)
    · cases h
  | float x =>
    obtain rfl : x.codeText = t := Except.ok.inj h
    have hx := Double.isNearest_of_numeral? hv
    rcases Double.codeText_cases hx.isFinite with htext | ⟨n, htext⟩
    · exact .inr ⟨x, hx, htext⟩
    · exact .inl (hint n htext)

/-- No whole number begins with a word, and none is the beginning of one. -/
theorem Text.not_prefix_infinity (n : Int)
    (h : ofInt n <+: (if (n : ℚ) < 0 then ofString "-Infinity" else ofString "Infinity") ∨
      (if (n : ℚ) < 0 then ofString "-Infinity" else ofString "Infinity") <+: ofInt n) : False := by
  have hword : (if (n : ℚ) < 0 then ofString "-Infinity" else ofString "Infinity") =
      (if n < 0 then [.char '-'] else []) ++ .char 'I' :: ofString "nfinity" := by
    simp only [Int.cast_lt_zero]
    split <;> rfl
  have hdigits := Json.isDigits_iff.1 (isDigits_ofNat n.natAbs)
  obtain ⟨c, ds, hds⟩ := List.exists_cons_of_ne_nil hdigits.1
  have hc : c.isDecimal = true := hdigits.2 c (by simp [hds])
  rw [hword, ofInt_eq, hds] at h
  simp only [List.prefix_append_right_inj, List.cons_prefix_cons] at h
  obtain rfl : c = .char 'I' := h.elim And.left fun h => h.1.symm
  exact absurd hc (by decide)

/-- **Where the text of a scalar at run time is not what is written**,
neither begins with the other. -/
theorem JavaScript.Converts.eq_of_prefixed (h : c.render = .ok t) (hu : Converts c u)
    (hbegins : t <+: u ∨ u <+: t) : t = u := by
  cases hu with
  | word ht => exact Except.ok.inj (h.symm.trans ht)
  | @number t' v x ht hv hx =>
    cases h.symm.trans ht
    rcases Scalar.numeral_cases h hv with ⟨n, rfl, rfl⟩ | ⟨y, hy, rfl⟩
    · exact hx.eq_of_prefixed hbegins
    · exact Double.numberText_congr hy hx
  | @infinite t' v ht hv hout =>
    cases h.symm.trans ht
    rcases Scalar.numeral_cases h hv with ⟨n, rfl, rfl⟩ | ⟨y, hy, -⟩
    · exact (Text.not_prefix_infinity n hbegins).elim
    · exact absurd hy.inRange (not_lt.2 hout)

/-- What a scalar converts to is plain. -/
theorem JavaScript.Converts.isPlain (h : Converts c u) : u.IsPlain := by
  cases h with
  | word ht => exact Scalar.plain_render ht
  | number => exact isPlain_numberText _
  | infinite => split <;> decide

/-- **Integers below `2 ^ 53`** have the text that is written for them. -/
theorem converts_ofInt_of_lt (hlt : n.natAbs < 2 ^ 53) : Converts (.int n) (Text.ofInt n) := by
  have hin : |(n : ℚ)| < (2 ^ 53 - 1 / 2) * 2 ^ 971 := by
    have hlt : |(n : ℚ)| < 2 ^ 53 := by
      have hlt : |n| < 2 ^ 53 := abs_lt.2 ⟨by omega, by omega⟩
      exact_mod_cast hlt
    calc |(n : ℚ)| < 2 ^ 53 := hlt
      _ ≤ (2 ^ 53 - 1 / 2) * 2 := by norm_num
      _ ≤ (2 ^ 53 - 1 / 2) * 2 ^ 971 :=
        mul_le_mul_of_nonneg_left (le_self_pow₀ (by norm_num) (by norm_num)) (by norm_num)
  obtain ⟨x, hx⟩ := Double.exists_isNearest hin
  rw [hx.ofInt_eq hlt]
  exact .number (Scalar.render_int_of_lt hlt) (Text.numeral?_ofInt n) hx

/-- A finite double converts to what JavaScript writes for it. -/
theorem converts_numberText (hx : x.isFinite = true) : Converts (.float x) (numberText x) := by
  obtain ⟨hout, hrelaid⟩ := Double.numeral?_codeText hx
  by_cases h : x.IsWrittenOut
  · exact .number rfl (hout h) (Double.isNearest_value hx)
  · exact .number rfl (hrelaid h) (Double.isNearest_shortValue hx)

/-- **Which doubles** have the text that is written for them. -/
theorem converts_codeText_iff (hx : x.isFinite = true) :
    Converts (.float x) x.codeText ↔ x.IsShortWhole := by
  rw [← Double.codeText_eq_iff hx]
  refine ⟨fun h => h.unique (converts_numberText hx), fun h => ?_⟩
  rw [h]
  exact converts_numberText hx

end Converts

/-! ## Runtimes -/

namespace JavaScript.Runtime

/-- Scalars are converted to text as JavaScript converts them. -/
def ConvertsScalars (J : Runtime) : Prop :=
  ∀ c u, Converts c u → J.text? (J.ofScalar c) = some u.units

variable {J : Runtime} {c : Scalar} {t : Text}

/-- Such a runtime echoes the scalars with the text that is written for them. -/
theorem ConvertsScalars.echoes_iff (hJ : J.ConvertsScalars) (h : c.render = .ok t) :
    J.Echoes c ↔ Converts c t := by
  refine ⟨fun hecho => ?_, fun hconverts t' ht' => ?_⟩
  · obtain ⟨u, hu⟩ := exists_converts h
    have hunits : t.units = u.units := Option.some.inj ((hecho t h).symm.trans (hJ c u hu))
    rwa [(Scalar.plain_render h).units_inj hu.isPlain hunits]
  · cases h.symm.trans ht'
    exact hJ c t hconverts

/-- So integers below `2 ^ 53` are echoed. -/
theorem ConvertsScalars.echoes_int {n : Int} (hJ : J.ConvertsScalars) (h : n.natAbs < 2 ^ 53) :
    J.Echoes (.int n) :=
  (hJ.echoes_iff (Scalar.render_int_of_lt h)).2 (converts_ofInt_of_lt h)

/-- And finite doubles if they are written as JavaScript writes them. -/
theorem ConvertsScalars.echoes_float_iff {x : Double} (hJ : J.ConvertsScalars)
    (hx : x.isFinite = true) : J.Echoes (.float x) ↔ x.IsShortWhole :=
  (hJ.echoes_iff rfl).trans (converts_codeText_iff hx)

open Classical in
/-- The text of a scalar at run time, if it can be written. -/
noncomputable def scalarText? (c : Scalar) : Option (List Nat) :=
  if h : ∃ u, Converts c u then some h.choose.units else none

theorem scalarText?_of_converts {u : Text} (h : Converts c u) :
    scalarText? c = some u.units := by
  have hex : ∃ u, Converts c u := ⟨u, h⟩
  rw [scalarText?, dif_pos hex, hex.choose_spec.unique h]

/-- A runtime that adds integers, and nothing else that is no string. -/
noncomputable def integers : Runtime where
  Other := Scalar
  text? := scalarText?
  add? := fun x y =>
    match x, y with
    | .int m, .int n => some (.other (.int (m + n)))
    | _, _ => none
  ofScalar := id

theorem convertsScalars_integers : integers.ConvertsScalars := fun _ _ => scalarText?_of_converts

/-! ### Operands that spell what is written -/

variable {ρ : Type} {ops : List (Item ρ)}

/-- All variables and all code are the empty text. -/
def blank (J : Runtime) : J.Environment where
  names _ := .string []
  code _ := .string []

/-- **Only what is echoed is spelled as it is written.** In a row the texts
of scalars cannot make up for each other. -/
theorem ConvertsScalars.echoesAll (hJ : J.ConvertsScalars) (hops : ∀ x ∈ ops, x.IsOperand)
    (h : J.blank.spelled? ops = J.blank.written? ops) : J.EchoesAll ops := by
  obtain ⟨us, hus⟩ :=
    J.blank.exists_written? (fun _ => ⟨[], rfl⟩) (fun _ => ⟨[], rfl⟩) hops
  have hsame : ∀ x ∈ ops, J.blank.text? x = J.blank.writtenText? x := by
    refine eq_of_concat?_eq (fun x hx vs ws hvs hws hbegins => ?_) (h.trans hus) hus
    cases hops x hx with
    | @scalar c t hc =>
      obtain ⟨u, hu⟩ := exists_converts hc
      obtain rfl : u.units = vs := Option.some.inj ((hJ c u hu).symm.trans hvs)
      obtain rfl : t.units = ws :=
        Option.some.inj ((J.blank.writtenText?_scalar hc).symm.trans hws)
      have ht := Scalar.plain_render hc
      have hbegins := hbegins.imp (hu.isPlain.prefix_of_units ht) (ht.prefix_of_units hu.isPlain)
      rw [hu.eq_of_prefixed hc hbegins.symm]
    | _ => exact Option.some.inj (hvs.symm.trans hws)
  intro c hc t ht
  exact (hsame _ hc).trans (J.blank.writtenText?_scalar ht)

/-- So if a chain with a literal among its first two operands comes to what
is written, whatever the variables hold, the scalars in it are echoed. -/
theorem ConvertsScalars.echoesAll_of_evaluate? (hJ : J.ConvertsScalars)
    (hops : ∀ x ∈ ops, x.IsOperand) (hliteral : ∃ x ∈ ops.take 2, x.IsLiteral)
    (h : ∀ E : J.Environment,
      E.evaluate? (ops.intersperse .plus) = (E.written? ops).map .string) : J.EchoesAll ops := by
  refine hJ.echoesAll hops ?_
  have hvalue := h J.blank
  rw [J.blank.evaluate?_of_literal hliteral] at hvalue
  have hinjective : Function.Injective (Primitive.string : List Nat → J.Value) :=
    fun us vs h => by cases h; rfl
  exact Option.map_injective hinjective hvalue

end JavaScript.Runtime

end Splice
