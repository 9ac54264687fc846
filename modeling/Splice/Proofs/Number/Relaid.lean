import Splice.Proofs.Number.Value
/-!
# Number — written numbers laid out anew

JavaScript converts a positive number to text by its shortest digits
`d₁ … dₖ` and the place `n` of the point, for the value `0.d₁…dₖ * 10 ^ n`
(`JavaScript.positiveText`). In code a double comes to be written in
another way: the text of a literal of data is laid out anew
(`Text.relaid`), its exponent read back and either kept or turned into
zeros. The result is the same unless JavaScript fills up a whole number
with zeros (`Text.relaid_place`), and there a whole number is written out:
that is the same if the digits are those of the number
(`Decimal.ofNat_eq_positiveText_iff`).
-/

namespace Splice

/-- The text of `0.d₁…dₖ * 10 ^ n` with the significant digits `d₁ … dₖ`. -/
def JavaScript.positiveText (digits : Text) (n : Int) : Text :=
  if digits.length ≤ n ∧ n ≤ 21 then digits ++ Layout.zeros (n - digits.length).toNat
  else if 0 < n ∧ n ≤ 21 then digits.take n.toNat ++ .char '.' :: digits.drop n.toNat
  else if -6 < n ∧ n ≤ 0 then Text.ofString "0." ++ Layout.zeros (-n).toNat ++ digits
  else
    Layout.mantissa digits ++ .char 'e' :: .char (if n - 1 < 0 then '-' else '+') ::
      Text.ofNat (n - 1).natAbs

open JavaScript

/-! ## Laying out anew -/

namespace Text

variable {t before after ds : Text} {e : Int}

/-- A text without an exponent stays what it is. -/
theorem relaid_of_not_mem (h : ∀ c ∈ t, c ≠ .char 'e') : t.relaid = t := by
  have hdrop : t.dropWhile (· != .char 'e') = [] := by
    simpa using h
  rw [relaid, hdrop]

/-- The mark of the exponent is found. -/
theorem split_mark (h : ∀ c ∈ before, c ≠ .char 'e') (after : Text) :
    (before ++ .char 'e' :: after).takeWhile (· != .char 'e') = before ∧
      (before ++ .char 'e' :: after).dropWhile (· != .char 'e') = .char 'e' :: after := by
  have hbefore : ∀ c ∈ before, (c != .char 'e') = true := by simpa using h
  rw [List.takeWhile_append_of_pos hbefore, List.dropWhile_append_of_pos hbefore]
  exact ⟨List.append_nil _, rfl⟩

/-- The exponent is read as what it was written for. -/
theorem signedValue_exponent (e : Int) (n : Nat) :
    signedValue (.char (if e < 0 then '-' else '+') :: (Layout.zeros n ++ ofNat e.natAbs)) = e := by
  have hvalue : digitsValue (Layout.zeros n ++ ofNat e.natAbs) = e.natAbs := by
    rw [digitsValue_zeros_append, digitsValue_ofNat]
  split
  · rw [signedValue, hvalue]
    omega
  · rw [signedValue, hvalue]
    omega

/-- What a decimal digit is not. -/
theorem ne_of_isDecimal {c : CodePoint} (h : c.isDecimal = true) :
    c ≠ .char 'e' ∧ c ≠ .char '.' ∧ c ≠ .char '-' := by
  refine ⟨?_, ?_, ?_⟩ <;> rintro rfl <;> exact absurd h (by decide)

theorem mem_mantissa (h : ds ≠ []) {c : CodePoint} (hc : c ∈ Layout.mantissa ds) :
    c = .char '.' ∨ c ∈ ds := by
  match ds, h with
  | [d], _ => exact .inr hc
  | d :: e :: ds, _ =>
    simp only [Layout.mantissa, List.mem_cons] at hc ⊢
    rcases hc with rfl | rfl | hc
    · exact .inr (.inl rfl)
    · exact .inl rfl
    · exact .inr (.inr hc)

/-- Without the point, what is before the exponent are the digits. -/
theorem filter_mantissa (hds : ∀ c ∈ ds, c.isDecimal = true) :
    (Layout.mantissa ds).filter (· != .char '.') = ds := by
  have hkeep : ∀ {ds : Text}, (∀ c ∈ ds, c.isDecimal = true) →
      ds.filter (· != .char '.') = ds := by
    intro ds hds
    refine List.filter_eq_self.2 fun c hc => ?_
    simpa using (ne_of_isDecimal (hds c hc)).2.1
  match ds, hds with
  | [], _ => rfl
  | [d], hds => exact hkeep hds
  | d :: e :: ds, hds =>
    obtain ⟨hd, hrest⟩ := List.forall_mem_cons.1 hds
    have hsplit : Layout.mantissa (d :: e :: ds) = [d] ++ ([.char '.'] ++ (e :: ds)) := rfl
    rw [hsplit, List.filter_append, List.filter_append, hkeep hrest,
      hkeep (List.forall_mem_singleton.2 hd)]
    rfl

/-- Digits at their places have no exponent. -/
theorem ne_mark_of_mem_positional (hds : ∀ c ∈ ds, c.isDecimal = true) (e : Int) :
    ∀ c ∈ Layout.positional true ds e, c ≠ .char 'e' := by
  have hdigit : ∀ c ∈ ds, c ≠ .char 'e' := fun c hc => (ne_of_isDecimal (hds c hc)).1
  have hzeros : ∀ n, ∀ c ∈ Layout.zeros n, c ≠ .char 'e' := by
    intro n c hc
    rw [List.eq_of_mem_replicate hc]
    decide
  unfold Layout.positional
  split
  · simp only [List.forall_mem_append]
    exact ⟨⟨by decide, hzeros _⟩, hdigit⟩
  · dsimp only
    split
    · simp only [List.forall_mem_append, if_true]
      exact ⟨⟨hdigit, hzeros _⟩, by decide⟩
    · simp only [List.forall_mem_append, List.forall_mem_cons]
      exact ⟨fun c hc => hdigit c (List.mem_of_mem_take hc), by decide,
        fun c hc => hdigit c (List.mem_of_mem_drop hc)⟩

variable {sign : Text}

/-- A sign is found, and what comes after it. -/
theorem split_sign (hsign : sign = [] ∨ sign = [.char '-']) (ht : ∀ c ∈ t, c ≠ .char '-') :
    (if (sign ++ t).head? == some (.char '-') then [.char '-'] else []) = sign ∧
      (sign ++ t).dropWhile (· == .char '-') = t := by
  have hdrop : t.dropWhile (· == .char '-') = t := by
    cases t with
    | nil => rfl
    | cons c t => simpa using ht c
  rcases hsign with rfl | rfl
  · have hhead : (t.head? == some (.char '-')) = false := by
      cases t with
      | nil => rfl
      | cons c t => simpa using ht c
    rw [List.nil_append, hhead, hdrop]
    exact ⟨rfl, rfl⟩
  · exact ⟨rfl, hdrop⟩

/-- **A text in exponent notation, laid out anew**: with an exponent from -6
on, zeros come before the digits, and with any other the padding goes. -/
theorem relaid_exponential (hsign : sign = [] ∨ sign = [.char '-']) (hne : ds ≠ [])
    (hds : ∀ c ∈ ds, c.isDecimal = true) (e : Int) :
    (sign ++ Layout.exponential ds e).relaid = sign ++
      if -7 < e ∧ e < 0 then ofString "0." ++ Layout.zeros (-e - 1).toNat ++ ds
      else Layout.mantissa ds ++ .char 'e' :: .char (if 0 < e then '+' else '-') ::
        ofNat e.natAbs := by
  have hmantissa : ∀ c ∈ Layout.mantissa ds, c ≠ .char 'e' ∧ c ≠ .char '-' := by
    intro c hc
    rcases mem_mantissa hne hc with rfl | hc
    · decide
    · exact ⟨(ne_of_isDecimal (hds c hc)).1, (ne_of_isDecimal (hds c hc)).2.2⟩
  have hbefore : ∀ c ∈ sign ++ Layout.mantissa ds, c ≠ .char 'e' := by
    refine List.forall_mem_append.2 ⟨?_, fun c hc => (hmantissa c hc).1⟩
    rcases hsign with rfl | rfl
    · exact nofun
    · decide
  obtain ⟨htake, hdrop⟩ := split_mark hbefore
    (.char (if e < 0 then '-' else '+') ::
      (Layout.zeros (2 - (ofNat e.natAbs).length) ++ ofNat e.natAbs))
  have htext : sign ++ Layout.exponential ds e = sign ++ Layout.mantissa ds ++ .char 'e' ::
      .char (if e < 0 then '-' else '+') ::
        (Layout.zeros (2 - (ofNat e.natAbs).length) ++ ofNat e.natAbs) := by
    rw [Layout.exponential, List.append_assoc]
  rw [htext, relaid, hdrop, htake]
  simp only [signedValue_exponent]
  split
  · obtain ⟨hhead, hrest⟩ := split_sign hsign fun c hc => (hmantissa c hc).2
    rw [hhead, hrest, filter_mantissa hds]
    simp only [List.append_assoc]
  · rw [List.append_assoc]

/-- Digits at their places stay what they are. -/
theorem relaid_positional (hsign : sign = [] ∨ sign = [.char '-'])
    (hds : ∀ c ∈ ds, c.isDecimal = true) (e : Int) :
    (sign ++ Layout.positional true ds e).relaid = sign ++ Layout.positional true ds e := by
  refine relaid_of_not_mem (List.forall_mem_append.2 ⟨?_, ne_mark_of_mem_positional hds e⟩)
  rcases hsign with rfl | rfl
  · exact nofun
  · decide

/-- **A literal of data laid out anew is what JavaScript writes**, if the
digits go beyond the point as long as JavaScript writes a point. -/
theorem relaid_place (hsign : sign = [] ∨ sign = [.char '-']) (hne : ds ≠ [])
    (hds : ∀ c ∈ ds, c.isDecimal = true) (he : e ≤ 15 ∨ 21 ≤ e)
    (hpoint : ds.length ≤ e + 1 → 21 ≤ e) :
    (sign ++ Layout.place true ds e).relaid = sign ++ positiveText ds (e + 1) := by
  have hlength : 0 < ds.length := List.length_pos_iff.2 hne
  have hzeros : -(e + 1) = -e - 1 := by omega
  unfold Layout.place
  split
  · rw [relaid_positional hsign hds]
    congr 1
    unfold Layout.positional
    split
    · rw [positiveText, if_neg (by omega), if_neg (by omega), if_pos (by omega), hzeros]
    · have hwhole : (e + 1).toNat = e.toNat + 1 := by omega
      dsimp only
      rw [if_neg (by omega), positiveText, if_neg (by omega), if_pos (by omega), hwhole]
  · rw [relaid_exponential hsign hne hds]
    congr 1
    split
    · -- The exponent is -5 or -6: the digits go behind zeros.
      rw [positiveText, if_neg (by omega), if_neg (by omega), if_pos (by omega), hzeros]
    · -- The exponent stays.
      have hmark : (if e + 1 - 1 < 0 then '-' else '+') = if 0 < e then '+' else '-' := by
        by_cases hneg : e < 0
        · rw [if_pos (by omega), if_neg (by omega)]
        · rw [if_neg (by omega), if_pos (by omega)]
      have hjs : positiveText ds (e + 1) = Layout.mantissa ds ++ .char 'e' ::
          .char (if 0 < e then '+' else '-') :: ofNat e.natAbs := by
        rw [positiveText, if_neg (by omega), if_neg (by omega), if_neg (by omega), hmark,
          Int.add_sub_cancel]
      exact hjs.symm

end Text

/-- A whole number is a sign and digits. -/
theorem Text.ofInt_eq (n : Int) :
    Text.ofInt n = (if n < 0 then [.char '-'] else []) ++ Text.ofNat n.natAbs := by
  cases n with
  | ofNat n => rfl
  | negSucc n =>
    rw [if_pos (Int.negSucc_lt_zero n)]
    rfl

/-- Where JavaScript writes a point or an exponent, there is something that
is no digit. -/
theorem JavaScript.exists_mem_positiveText {ds : Text} {n : Int}
    (h : ¬ (ds.length ≤ n ∧ n ≤ 21)) : ∃ c ∈ positiveText ds n, c.isDecimal = false := by
  rw [positiveText, if_neg h]
  split
  · exact ⟨.char '.', by simp, rfl⟩
  · split
    · exact ⟨.char '.', by simp [Text.ofString], rfl⟩
    · exact ⟨.char 'e', by simp, rfl⟩

/-- With as many zeros behind its digits as reach the point, a decimal is
the number written so. -/
theorem Decimal.value_eq_digitsValue {d : Decimal}
    (h : d.significant.length ≤ d.exponent + 1) :
    d.value = Text.digitsValue
      (d.significant ++ Layout.zeros (d.exponent + 1 - d.significant.length).toNat) := by
  have hnonneg : 0 ≤ d.exponent + 1 - d.significant.length := by omega
  rw [Text.digitsValue_append_zeros, value_eq, ← Int.toNat_of_nonneg hnonneg, zpow_natCast,
    Int.toNat_natCast]
  push_cast
  rfl

/-- **A whole number below `10 ^ 21` is what JavaScript writes for a
decimal** if and only if the decimal is that number. -/
theorem Decimal.ofNat_eq_positiveText_iff {d : Decimal} (hd : 0 < d.digits) {n : Nat}
    (hn : n < 10 ^ 21) :
    Text.ofNat n = positiveText d.significant (d.exponent + 1) ↔ d.value = n := by
  obtain ⟨hne, hhead⟩ := head?_significant hd
  constructor
  · intro h
    have hplace : d.significant.length ≤ d.exponent + 1 ∧ d.exponent + 1 ≤ 21 := by
      by_contra hplace
      obtain ⟨c, hc, hdecimal⟩ := exists_mem_positiveText hplace
      rw [← h] at hc
      exact absurd (hdecimal.symm.trans (Text.isDecimal_ofNat n c hc)) (by decide)
    rw [positiveText, if_pos hplace] at h
    rw [value_eq_digitsValue hplace.1, ← h, Text.digitsValue_ofNat]
  · intro h
    have hlength := (exists_value_eq_iff hd).1 ⟨n, h⟩
    have hexponent : d.exponent < 21 := by
      refine (zpow_lt_zpow_iff_right₀ (by norm_num : (1 : ℚ) < 10)).1
        ((pow_exponent_le hd).1.trans_lt ?_)
      rw [h]
      exact_mod_cast hn
    rw [positiveText, if_pos ⟨hlength, by omega⟩]
    have hvalue : n = Text.digitsValue
        (d.significant ++ Layout.zeros (d.exponent + 1 - d.significant.length).toNat) := by
      rw [value_eq_digitsValue hlength] at h
      exact_mod_cast h.symm
    rw [hvalue]
    refine Text.ofNat_digitsValue (List.append_ne_nil_of_left_ne_nil hne _) ?_ ?_
    · refine List.forall_mem_append.2 ⟨d.isDecimal_significant, fun c hc => ?_⟩
      rw [List.eq_of_mem_replicate hc]
      rfl
    · rwa [List.head?_append_of_ne_nil _ hne]

end Splice
