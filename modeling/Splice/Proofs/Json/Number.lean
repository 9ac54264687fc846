import Splice.Proofs.Number.Value
/-!
# JSON — numbers

`Json.isNumber` is the grammar of JSON numbers: a sign, whole digits with
no zero before others, and perhaps a point with digits and an exponent.
Whole numbers as they are written are numbers (`isNumber_ofInt`), and so
are finite doubles in literals of data (`isNumber_literalText`).

For a double this depends on its first digit: where there are digits
before the point, the first of several may not be a zero
(`Layout.positional_spec`). The digits are those of the shortest decimal
that reads back, and that is not zero unless the double is
(`Double.isDigits_digits`).
-/

namespace Splice

namespace Json

/-! ## The grammar -/

/-- Digits, at least one. -/
def isDigits (t : Text) : Bool := !t.isEmpty && t.all CodePoint.isDecimal

/-- Digits with no zero before others. -/
def isWhole (t : Text) : Bool := isDigits t && (t.length == 1 || t.head? != some (.char '0'))

/-- A text without a sign at its beginning. -/
def unsigned : Text → Text
  | .char '+' :: t => t
  | .char '-' :: t => t
  | t => t

/-- Nothing, or an exponent: a letter, perhaps a sign, and digits. -/
def isExponent : Text → Bool
  | [] => true
  | c :: t => (c == .char 'e' || c == .char 'E') && isDigits (unsigned t)

/-- Perhaps a point with digits, and perhaps an exponent. -/
def isFraction : Text → Bool
  | .char '.' :: t =>
    isDigits (t.takeWhile CodePoint.isDecimal) && isExponent (t.dropWhile CodePoint.isDecimal)
  | t => isExponent t

/-- A number without a sign. -/
def isUnsigned (t : Text) : Bool :=
  isWhole (t.takeWhile CodePoint.isDecimal) && isFraction (t.dropWhile CodePoint.isDecimal)

/-- A number. -/
def isNumber : Text → Bool
  | .char '-' :: t => isUnsigned t
  | t => isUnsigned t

/-! ## Putting numbers together -/

variable {ds t : Text}

theorem isDigits_iff : isDigits t = true ↔ t ≠ [] ∧ ∀ c ∈ t, c.isDecimal = true := by
  simp [isDigits]

theorem isWhole_iff :
    isWhole t = true ↔ isDigits t = true ∧ (t.length = 1 ∨ t.head? ≠ some (.char '0')) := by
  simp [isWhole]

/-- A run of code points of one kind ends where something else begins. -/
theorem takeWhile_run {p : CodePoint → Bool} (hds : ∀ c ∈ ds, p c = true)
    (ht : ∀ c ∈ t.head?, p c = false) :
    (ds ++ t).takeWhile p = ds ∧ (ds ++ t).dropWhile p = t := by
  rw [List.takeWhile_append_of_pos hds, List.dropWhile_append_of_pos hds]
  cases t with
  | nil => simp
  | cons c t => simp [ht c rfl]

theorem isUnsigned_append (hds : isWhole ds = true) (ht : isFraction t = true)
    (hhead : ∀ c ∈ t.head?, c.isDecimal = false) : isUnsigned (ds ++ t) = true := by
  obtain ⟨htake, hdrop⟩ := takeWhile_run (isDigits_iff.1 (isWhole_iff.1 hds).1).2 hhead
  rw [isUnsigned, htake, hdrop, hds, ht]
  rfl

theorem isFraction_point (hds : isDigits ds = true) (ht : isExponent t = true)
    (hhead : ∀ c ∈ t.head?, c.isDecimal = false) : isFraction (.char '.' :: (ds ++ t)) = true := by
  obtain ⟨htake, hdrop⟩ := takeWhile_run (isDigits_iff.1 hds).2 hhead
  simp only [isFraction]
  rw [htake, hdrop, hds, ht]
  rfl

theorem isExponent_cons {sign : Char} (hsign : sign = '-' ∨ sign = '+') (hds : isDigits ds = true) :
    isExponent (.char 'e' :: .char sign :: ds) = true := by
  rcases hsign with rfl | rfl <;> simpa [isExponent, unsigned] using hds

/-- A number without a sign is a number, and a minus sign may stand before it. -/
theorem isNumber_of_isUnsigned (h : isUnsigned t = true) :
    isNumber t = true ∧ isNumber (.char '-' :: t) = true := by
  refine ⟨?_, h⟩
  unfold isNumber
  split
  · simp [isUnsigned, isWhole, isDigits, CodePoint.isDecimal] at h
  · exact h

end Json

/-! ## Whole numbers -/

namespace Text

theorem isDigits_ofNat (n : Nat) : Json.isDigits (ofNat n) = true :=
  Json.isDigits_iff.2 ⟨by simp [ofNat], isDecimal_ofNat n⟩

theorem isWhole_ofNat (n : Nat) : Json.isWhole (ofNat n) = true := by
  refine Json.isWhole_iff.2 ⟨isDigits_ofNat n, ?_⟩
  by_cases h : n = 0
  · subst h
    exact .inl rfl
  · refine .inr fun hhead => head?_toDigits h ?_
    rw [ofNat, List.head?_map] at hhead
    obtain ⟨d, hd, hzero⟩ := Option.map_eq_some_iff.1 hhead
    rw [hd, CodePoint.char.inj hzero]

theorem isUnsigned_ofNat (n : Nat) : Json.isUnsigned (ofNat n) = true := by
  rw [← List.append_nil (ofNat n)]
  exact Json.isUnsigned_append (isWhole_ofNat n) rfl (by simp)

/-- **A whole number as it is written is a JSON number.** -/
theorem isNumber_ofInt (n : Int) : Json.isNumber (ofInt n) = true := by
  cases n with
  | ofNat n => exact (Json.isNumber_of_isUnsigned (isUnsigned_ofNat n)).1
  | negSucc n => exact (Json.isNumber_of_isUnsigned (isUnsigned_ofNat (n + 1))).2

end Text

/-! ## Doubles -/

namespace Layout

variable {digits : Text}

theorem isDecimal_zeros (n : Nat) : ∀ c ∈ zeros n, c.isDecimal = true := by
  intro c hc
  rw [List.eq_of_mem_replicate hc]
  rfl

theorem isDigits_append {ds es : Text} (hds : ∀ c ∈ ds, c.isDecimal = true)
    (hes : ∀ c ∈ es, c.isDecimal = true) (hne : ds ≠ [] ∨ es ≠ []) :
    Json.isDigits (ds ++ es) = true := by
  refine Json.isDigits_iff.2 ⟨by simpa [imp_iff_not_or] using hne, fun c hc => ?_⟩
  exact (List.mem_append.1 hc).elim (hds c) (hes c)

/-- The point and the digits after it. -/
theorem isFraction_digits {ds : Text} (hds : Json.isDigits ds = true) :
    Json.isFraction (.char '.' :: ds) = true := by
  rw [← List.append_nil ds]
  exact Json.isFraction_point hds rfl (by simp)

/-- What comes after digits begins with no digit. -/
theorem not_isDecimal_head {c : Char} {t : Text} (hc : (CodePoint.char c).isDecimal = false) :
    ∀ d ∈ (CodePoint.char c :: t).head?, d.isDecimal = false := by
  intro d hd
  cases hd
  exact hc

/-- A number is padded with zeros to some digits. -/
theorem isDigits_padded (n k : Nat) : Json.isDigits (zeros n ++ Text.ofNat k) = true :=
  isDigits_append (isDecimal_zeros n) (Text.isDecimal_ofNat k)
    (.inr (Json.isDigits_iff.1 (Text.isDigits_ofNat k)).1)

/-- A single digit is whole, whichever it is. -/
theorem isWhole_singleton {d : CodePoint} (hd : d.isDecimal = true) : Json.isWhole [d] = true :=
  Json.isWhole_iff.2 ⟨Json.isDigits_iff.2 ⟨by simp, by simpa using hd⟩, .inl rfl⟩

/-- **Digits at their places** have digits before the point and after it. In
a row they are the digits with zeros around them, so many that the point is
at its place. If the first digit is no zero, none is before others. -/
theorem positional_spec (hdigits : Json.isDigits digits = true)
    (hhead : digits.head? ≠ some (.char '0')) (e : Int) :
    ∃ (ds fs : Text) (k : Nat), positional true digits e = ds ++ .char '.' :: fs ∧
      Json.isWhole ds = true ∧ Json.isDigits fs = true ∧
      Text.digitsValue (ds ++ fs) = Text.digitsValue digits * 10 ^ k ∧
      (k : Int) - fs.length = e + 1 - digits.length := by
  obtain ⟨hne, hdecimal⟩ := Json.isDigits_iff.1 hdigits
  unfold positional
  split
  · -- A zero, the point, and zeros before the digits.
    have hafter : Json.isDigits (zeros (-e - 1).toNat ++ digits) = true :=
      isDigits_append (isDecimal_zeros _) hdecimal (.inr hne)
    refine ⟨zeros 1, _, 0, ?_, rfl, hafter, ?_, ?_⟩
    · have hzero : Text.ofString "0." = zeros 1 ++ [.char '.'] := rfl
      rw [hzero, List.append_assoc, List.append_assoc, List.singleton_append]
    · rw [Text.digitsValue_zeros_append, Text.digitsValue_zeros_append, Nat.pow_zero, Nat.mul_one]
    · rw [List.length_append, zeros, List.length_replicate]
      omega
  · dsimp only
    split
    · -- The digits, zeros after them, and a zero behind the point.
      have hwhole : Json.isWhole (digits ++ zeros (e.toNat + 1 - digits.length)) = true :=
        Json.isWhole_iff.2 ⟨isDigits_append hdecimal (isDecimal_zeros _) (.inl hne),
          .inr (by rwa [List.head?_append_of_ne_nil _ hne])⟩
      refine ⟨_, zeros 1, e.toNat + 1 - digits.length + 1, rfl, hwhole, rfl, ?_, ?_⟩
      · rw [Text.digitsValue_append_zeros, Text.digitsValue_append_zeros, Nat.mul_assoc,
          ← Nat.pow_add]
      · rw [zeros, List.length_replicate]
        omega
    · -- The point stands between digits.
      rename_i hlength
      have hbefore : Json.isWhole (digits.take (e.toNat + 1)) = true := by
        refine Json.isWhole_iff.2 ⟨Json.isDigits_iff.2
          ⟨by simpa using hne, fun c hc => hdecimal c (List.mem_of_mem_take hc)⟩, .inr ?_⟩
        rwa [List.head?_take, if_neg (by omega)]
      have hafter : Json.isDigits (digits.drop (e.toNat + 1)) = true :=
        Json.isDigits_iff.2 ⟨by rw [ne_eq, List.drop_eq_nil_iff]; exact hlength,
          fun c hc => hdecimal c (List.mem_of_mem_drop hc)⟩
      refine ⟨_, _, 0, rfl, hbefore, hafter, ?_, ?_⟩
      · rw [List.take_append_drop, Nat.pow_zero, Nat.mul_one]
      · rw [List.length_drop]
        omega

/-- A single digit stands alone, and several have the point after the first. -/
theorem mantissa_cases (hdigits : Json.isDigits digits = true) :
    (∃ d, digits = [d] ∧ Json.isWhole [d] = true ∧ mantissa digits = [d]) ∨
      ∃ d fs, digits = d :: fs ∧ Json.isWhole [d] = true ∧ Json.isDigits fs = true ∧
        mantissa digits = [d] ++ .char '.' :: fs := by
  obtain ⟨hne, hdecimal⟩ := Json.isDigits_iff.1 hdigits
  match digits, hne with
  | [d], _ => exact .inl ⟨d, rfl, isWhole_singleton (hdecimal d (by simp)), rfl⟩
  | d :: c :: fs, _ =>
    have hfs : Json.isDigits (c :: fs) = true :=
      Json.isDigits_iff.2 ⟨by simp, fun c hc => hdecimal c (List.mem_cons_of_mem d hc)⟩
    exact .inr ⟨d, c :: fs, rfl, isWhole_singleton (hdecimal d (by simp)), hfs, rfl⟩

/-- **Digits at their places are a JSON number**, if the first is no zero. -/
theorem isUnsigned_positional (hdigits : Json.isDigits digits = true)
    (hhead : digits.head? ≠ some (.char '0')) (e : Int) :
    Json.isUnsigned (positional true digits e) = true := by
  obtain ⟨ds, fs, -, hlaid, hds, hfs, -⟩ := positional_spec hdigits hhead e
  rw [hlaid]
  exact Json.isUnsigned_append hds (isFraction_digits hfs) (not_isDecimal_head rfl)

/-- **Digits with an exponent are a JSON number**: a single digit is before
the point, so it may be any. -/
theorem isUnsigned_exponential (hdigits : Json.isDigits digits = true) (e : Int) :
    Json.isUnsigned (exponential digits e) = true := by
  have hsign : (if e < 0 then '-' else '+') = '-' ∨ (if e < 0 then '-' else '+') = '+' := by
    split <;> simp
  have hexponent := Json.isExponent_cons hsign
    (isDigits_padded (2 - (Text.ofNat e.natAbs).length) e.natAbs)
  have hletter : ∀ {t : Text}, ∀ c ∈ (CodePoint.char 'e' :: t).head?, c.isDecimal = false :=
    not_isDecimal_head rfl
  unfold exponential
  rcases mantissa_cases hdigits with ⟨d, -, hd, hlaid⟩ | ⟨d, fs, -, hd, hfs, hlaid⟩
  · rw [hlaid]
    exact Json.isUnsigned_append hd (by simpa [Json.isFraction] using hexponent) hletter
  · rw [hlaid, List.append_assoc]
    exact Json.isUnsigned_append hd (Json.isFraction_point hfs hexponent hletter)
      (not_isDecimal_head rfl)

theorem isUnsigned_place (hdigits : Json.isDigits digits = true)
    (hhead : digits.head? ≠ some (.char '0')) (e : Int) :
    Json.isUnsigned (place true digits e) = true := by
  unfold place
  split
  · exact isUnsigned_positional hdigits hhead e
  · exact isUnsigned_exponential hdigits e

end Layout

namespace Double

variable {x : Double}

/-- The shortest digits of a double that is not zero do not begin with a zero. -/
theorem isDigits_digits (h : x.isZero = false) :
    Json.isDigits x.digits.1 = true ∧ x.digits.1.head? ≠ some (.char '0') := by
  obtain ⟨hne, hhead⟩ := Decimal.head?_significant (Magnitude.shortest_pos (wellFormed h))
  rw [digits_of_not_isZero h]
  exact ⟨Json.isDigits_iff.2 ⟨hne, Decimal.isDecimal_significant _⟩, hhead⟩

/-- **A finite double in a literal of data is a JSON number.** -/
theorem isNumber_literalText (h : x.isFinite = true) : Json.isNumber x.literalText = true := by
  have hplaced : Json.isUnsigned (Layout.place true x.digits.1 x.digits.2) = true := by
    cases hzero : x.isZero with
    | true =>
      rw [digits_of_isZero hzero]
      decide
    | false =>
      obtain ⟨hdigits, hhead⟩ := isDigits_digits hzero
      exact Layout.isUnsigned_place hdigits hhead _
  obtain ⟨hpositive, hnegative⟩ := Json.isNumber_of_isUnsigned hplaced
  rw [literalText, if_pos h, laidOut]
  split
  · exact hnegative
  · exact hpositive

end Double

end Splice
