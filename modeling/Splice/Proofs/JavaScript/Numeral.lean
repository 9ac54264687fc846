import Splice.Proofs.Build
import Splice.Proofs.JavaScript.Number
import Splice.Proofs.Json.Number
import Splice.Proofs.Number.Nearest
/-!
# JavaScript — what a written number stands for

A decimal literal is a sign, whole digits, and perhaps digits behind a
point and an exponent. `JavaScript.numeral?` reads it and answers the exact
rational that it stands for. Digits laid out with a first exponent stand
for the same number in every layout (`Layout.unsigned?_place`), and so they
do when the layout is changed (`Text.unsigned?_relaid`).

So a double is written in code for the same rational as in a literal of
data, but for a whole number that is written out, which stands for itself
(`Double.numeral?_codeText`). Both are read as the double that was written
(`Double.reads_back`).
-/

namespace Splice

/-- The number `d₁.d₂d₃… * 10 ^ exponent`. -/
def Layout.value (digits : Text) (exponent : Int) : ℚ :=
  Text.digitsValue digits * 10 ^ (exponent + 1 - digits.length)

namespace JavaScript

/-! ## Reading a decimal literal -/

/-- Digits as an exponent, with this sign. -/
def exponentDigits? (sign : Int) (ds : Text) : Option Int :=
  if Json.isDigits ds then some (sign * Text.digitsValue ds) else none

/-- An exponent, which is zero if there is none. -/
def exponent? : Text → Option Int
  | [] => some 0
  | .char 'e' :: .char '-' :: ds => exponentDigits? (-1) ds
  | .char 'e' :: .char '+' :: ds => exponentDigits? 1 ds
  | .char 'e' :: ds => exponentDigits? 1 ds
  | _ => none

/-- The digits behind the point, if there are any, and the exponent. -/
def fraction? : Text → Option (Text × Int)
  | .char '.' :: t =>
    if Json.isDigits (t.takeWhile CodePoint.isDecimal) then
      (exponent? (t.dropWhile CodePoint.isDecimal)).map (t.takeWhile CodePoint.isDecimal, ·)
    else none
  | t => (exponent? t).map ([], ·)

/-- The number of these digits before and behind the point, times a power
of ten. -/
def pointed (whole fraction : Text) (e : Int) : ℚ :=
  Text.digitsValue (whole ++ fraction) * 10 ^ (e - fraction.length)

/-- The value of a decimal literal without a sign. -/
def unsigned? (t : Text) : Option ℚ :=
  if Json.isWhole (t.takeWhile CodePoint.isDecimal) then
    (fraction? (t.dropWhile CodePoint.isDecimal)).map fun p =>
      pointed (t.takeWhile CodePoint.isDecimal) p.1 p.2
  else none

/-- The value of a decimal literal, of which a minus sign may be the first
character. -/
def numeral? : Text → Option ℚ
  | .char '-' :: t => (unsigned? t).map Neg.neg
  | t => unsigned? t

/-! ### Putting literals together -/

variable {ds fs t : Text} {e : Int} {v : ℚ}

theorem unsigned?_append (hds : Json.isWhole ds = true) (ht : fraction? t = some (fs, e))
    (hhead : ∀ c ∈ t.head?, c.isDecimal = false) :
    unsigned? (ds ++ t) = some (pointed ds fs e) := by
  obtain ⟨htake, hdrop⟩ :=
    Json.takeWhile_run (Json.isDigits_iff.1 (Json.isWhole_iff.1 hds).1).2 hhead
  rw [unsigned?, htake, hdrop, hds, ht]
  rfl

theorem fraction?_point (hfs : Json.isDigits fs = true) (ht : exponent? t = some e)
    (hhead : ∀ c ∈ t.head?, c.isDecimal = false) :
    fraction? (.char '.' :: (fs ++ t)) = some (fs, e) := by
  obtain ⟨htake, hdrop⟩ := Json.takeWhile_run (Json.isDigits_iff.1 hfs).2 hhead
  rw [fraction?, htake, hdrop, hfs, ht]
  rfl

/-- A point with digits behind it, and no exponent. -/
theorem fraction?_digits (hfs : Json.isDigits fs = true) :
    fraction? (.char '.' :: fs) = some (fs, 0) := by
  have h := fraction?_point (t := []) hfs rfl (by simp)
  rwa [List.append_nil] at h

/-- An exponent without a point before it. -/
theorem fraction?_exponent (ht : exponent? (.char 'e' :: t) = some e) :
    fraction? (.char 'e' :: t) = some ([], e) := by
  unfold fraction?
  split
  · rename_i hpoint
    cases hpoint
  · rw [ht]
    rfl

/-- An exponent is read as what it was written for. -/
theorem exponent?_written (e : Int) (n : Nat) :
    exponent? (.char 'e' :: .char (if e < 0 then '-' else '+') ::
      (Layout.zeros n ++ Text.ofNat e.natAbs)) = some e := by
  have hdigits := Layout.isDigits_padded n e.natAbs
  have hvalue : Text.digitsValue (Layout.zeros n ++ Text.ofNat e.natAbs) = e.natAbs := by
    rw [Text.digitsValue_zeros_append, Text.digitsValue_ofNat]
  split
  · rw [exponent?, exponentDigits?, if_pos hdigits, hvalue]
    congr 1
    omega
  · rw [exponent?, exponentDigits?, if_pos hdigits, hvalue]
    congr 1
    omega

/-- The value of a literal with a sign before it or none. -/
theorem numeral?_of_unsigned? (h : unsigned? t = some v) :
    numeral? t = some v ∧ numeral? (.char '-' :: t) = some (-v) := by
  refine ⟨?_, by rw [numeral?, h]; rfl⟩
  unfold numeral?
  split
  · simp [unsigned?, Json.isWhole, Json.isDigits, CodePoint.isDecimal] at h
  · exact h

end JavaScript

open JavaScript

namespace Layout

variable {digits : Text} {e : Int}

/-! ## Digits in a layout -/

/-- **Digits at their places** stand for the number, if the first is no zero. -/
theorem unsigned?_positional (hdigits : Json.isDigits digits = true)
    (hhead : digits.head? ≠ some (.char '0')) (e : Int) :
    unsigned? (positional true digits e) = some (value digits e) := by
  obtain ⟨ds, fs, k, hlaid, hds, hfs, hvalue, hplace⟩ := positional_spec hdigits hhead e
  have hpointed : pointed ds fs 0 = value digits e := by
    calc pointed ds fs 0
        = Text.digitsValue digits * (10 ^ (k : ℤ) * 10 ^ (-(fs.length : ℤ))) := by
          rw [pointed, hvalue, zero_sub, zpow_natCast]
          push_cast
          ring
      _ = value digits e := by
          rw [← zpow_add₀ (by norm_num), ← sub_eq_add_neg, hplace, value]
  rw [hlaid, unsigned?_append hds (fraction?_digits hfs) (not_isDecimal_head rfl), hpointed]

/-- **Digits with an exponent** stand for the number, however the exponent
is written: a single digit is before the point, so it may be any. -/
theorem unsigned?_mantissa {t : Text} (hdigits : Json.isDigits digits = true)
    (ht : exponent? (.char 'e' :: t) = some e) :
    unsigned? (mantissa digits ++ .char 'e' :: t) = some (value digits e) := by
  have hletter : ∀ c ∈ (CodePoint.char 'e' :: t).head?, c.isDecimal = false :=
    not_isDecimal_head rfl
  rcases mantissa_cases hdigits with ⟨d, rfl, hd, hlaid⟩ | ⟨d, fs, rfl, hd, hfs, hlaid⟩
  · rw [hlaid, unsigned?_append hd (fraction?_exponent ht) hletter, pointed, value]
    simp
  · have hplace : e - (fs.length : ℤ) = e + 1 - (d :: fs).length := by
      rw [List.length_cons]
      omega
    have hsplit : [d] ++ .char '.' :: fs ++ .char 'e' :: t =
        [d] ++ .char '.' :: (fs ++ .char 'e' :: t) := rfl
    rw [hlaid, hsplit, unsigned?_append hd (fraction?_point hfs ht hletter)
      (not_isDecimal_head rfl), pointed, hplace]
    rfl

theorem unsigned?_exponential (hdigits : Json.isDigits digits = true) (e : Int) :
    unsigned? (exponential digits e) = some (value digits e) :=
  unsigned?_mantissa hdigits (exponent?_written e _)

/-- **A laid out number stands for the number**, in either layout. -/
theorem unsigned?_place (hdigits : Json.isDigits digits = true)
    (hhead : digits.head? ≠ some (.char '0')) (e : Int) :
    unsigned? (place true digits e) = some (value digits e) := by
  unfold place
  split
  · exact unsigned?_positional hdigits hhead e
  · exact unsigned?_exponential hdigits e

end Layout

/-- **A change of the layout keeps the number.** What comes after the sign
stands for the same number as before. -/
theorem Text.unsigned?_relaid {sign digits : Text} (hsign : sign = [] ∨ sign = [.char '-'])
    (hdigits : Json.isDigits digits = true) (hhead : digits.head? ≠ some (.char '0')) (e : Int) :
    ∃ t, (sign ++ Layout.place true digits e).relaid = sign ++ t ∧
      unsigned? t = some (Layout.value digits e) := by
  obtain ⟨hne, hdecimal⟩ := Json.isDigits_iff.1 hdigits
  unfold Layout.place
  split
  · exact ⟨_, relaid_positional hsign hdecimal e, Layout.unsigned?_positional hdigits hhead e⟩
  · refine ⟨_, relaid_exponential hsign hne hdecimal e, ?_⟩
    split
    · -- The zeros before the digits put the point at its place.
      have hpositional := Layout.unsigned?_positional hdigits hhead e
      rwa [Layout.positional, if_pos (by omega)] at hpositional
    · -- The exponent is not zero, so the other sign means that it is negative.
      have hsign : (if 0 < e then '+' else '-') = if e < 0 then '-' else '+' := by
        by_cases hneg : e < 0
        · rw [if_pos hneg, if_neg (by omega)]
        · rw [if_neg hneg, if_pos (by omega)]
      rw [hsign]
      exact Layout.unsigned?_mantissa hdigits (exponent?_written e 0)

/-- A whole number stands for itself. -/
theorem Text.numeral?_ofInt (n : Int) : numeral? (ofInt n) = some (n : ℚ) := by
  have hnat : ∀ k, unsigned? (ofNat k) = some (k : ℚ) := by
    intro k
    have h := unsigned?_append (t := []) (isWhole_ofNat k) rfl (by simp)
    rw [List.append_nil] at h
    rw [h, pointed, List.append_nil, digitsValue_ofNat]
    simp
  cases n with
  | ofNat k => exact (numeral?_of_unsigned? (hnat k)).1
  | negSucc k =>
    refine (numeral?_of_unsigned? (hnat (k + 1))).2.trans ?_
    rw [Int.cast_negSucc]

/-! ## Doubles -/

namespace Double

variable {x : Double} {n : Int}

/-- The number that the shortest digits of a finite double stand for. -/
def shortValue (x : Double) : ℚ :=
  if x.isNegative then -Layout.value x.digits.1 x.digits.2
  else Layout.value x.digits.1 x.digits.2

/-- **The shortest digits are read as the double** that they are written for. -/
theorem isNearest_shortValue (hx : x.isFinite = true) : x.IsNearest x.shortValue := by
  cases hzero : x.isZero with
  | true =>
    have hvalue : x.shortValue = x.value := by
      have hdigit : Layout.value [.char '0'] 0 = 0 := by decide +kernel
      rw [shortValue, value, digits_of_isZero hzero, hdigit, magnitude_of_isZero hzero,
        Magnitude.value, Nat.cast_zero, zero_mul]
    rw [hvalue]
    exact isNearest_value hx
  | false =>
    have hvalue := isNearest_shortest hx hzero
    rw [Decimal.value_eq] at hvalue
    rw [shortValue, digits_of_not_isZero hzero]
    exact hvalue

/-- A literal of data stands for the shortest digits. -/
theorem numeral?_literalText (hx : x.isFinite = true) :
    numeral? x.literalText = some x.shortValue := by
  have hplaced : unsigned? (Layout.place true x.digits.1 x.digits.2) =
      some (Layout.value x.digits.1 x.digits.2) := by
    cases hzero : x.isZero with
    | true =>
      rw [digits_of_isZero hzero]
      decide +kernel
    | false =>
      obtain ⟨hdigits, hhead⟩ := isDigits_digits hzero
      exact Layout.unsigned?_place hdigits hhead _
  obtain ⟨hpositive, hnegative⟩ := numeral?_of_unsigned? hplaced
  rw [literalText, if_pos hx, laidOut, shortValue]
  split
  · exact hnegative
  · exact hpositive

/-- So does a literal that is laid out anew. -/
theorem numeral?_relaid (hx : x.isFinite = true) (hzero : x.isZero = false) :
    numeral? x.literalText.relaid = some x.shortValue := by
  obtain ⟨hdigits, hhead⟩ := isDigits_digits hzero
  rw [literalText, if_pos hx, laidOut, shortValue]
  split
  · obtain ⟨t, hrelaid, ht⟩ := Text.unsigned?_relaid (.inr rfl) hdigits hhead _
    rw [hrelaid]
    exact (numeral?_of_unsigned? ht).2
  · obtain ⟨t, hrelaid, ht⟩ := Text.unsigned?_relaid (.inl rfl) hdigits hhead _
    rw [hrelaid]
    exact (numeral?_of_unsigned? ht).1

/-- The whole number that a double is. -/
theorem whole?_eq_some_iff (hx : x.isFinite = true) : x.whole? = some n ↔ x.value = n := by
  have hvalue : ∀ k, x.whole? = some k → x.value = k := by
    intro k hk
    rw [value, value_of_whole? hk]
    rcases eq_or_ne k 0 with rfl | hzero
    · simp
    · rw [(sign_of_whole? hk hzero).2]
      simp only [decide_eq_true_eq]
      split
      · rename_i hneg
        rw [Nat.cast_natAbs, abs_of_neg hneg]
        push_cast
        ring
      · rename_i hneg
        rw [Nat.cast_natAbs, abs_of_nonneg (not_lt.1 hneg)]
  refine ⟨hvalue n, fun h => ?_⟩
  have hmagnitude : x.magnitude.value = n.natAbs := by
    rw [← abs_value, h, Nat.cast_natAbs, Int.cast_abs]
  have hwhole : x.whole? = some (if x.isNegative then -(x.magnitude.floor : Int)
      else x.magnitude.floor) := by
    rw [whole?, hx, Magnitude.isWhole_of_value hmagnitude]
    rfl
  have hn : (n : ℚ) = _ := h.symm.trans (hvalue _ hwhole)
  rw [hwhole, Int.cast_inj.1 hn]

/-- Whether a double is written out in code: it is a whole number below
`10 ^ 21`. -/
def IsWrittenOut (x : Double) : Prop := (∃ n : ℤ, x.value = n) ∧ |x.value| < 10 ^ 21

/-- **What code says for a finite double**: its own value if it is written
out, and what a literal of data says if it is not. -/
theorem numeral?_codeText (hx : x.isFinite = true) :
    (x.IsWrittenOut → numeral? x.codeText = some x.value) ∧
      (¬ x.IsWrittenOut → numeral? x.codeText = some x.shortValue) := by
  have hbelow : ∀ n : ℤ, x.value = n → (|x.value| < 10 ^ 21 ↔ n.natAbs < 10 ^ 21) := by
    intro n hn
    rw [hn, ← Int.cast_abs, ← Nat.cast_natAbs]
    exact_mod_cast Iff.rfl
  constructor
  · rintro ⟨⟨n, hn⟩, hlt⟩
    have hwhole := (whole?_eq_some_iff hx).2 hn
    have htext : x.codeText = Text.ofInt n := by
      simp [codeText, hx, hwhole, (hbelow n hn).1 hlt]
    rw [htext, Text.numeral?_ofInt, hn]
  · intro hout
    -- A zero would be written out.
    have hzero : x.isZero = false := by
      refine Bool.eq_false_iff.2 fun hzero => hout ?_
      have hvalue := (whole?_eq_some_iff hx).1 ((whole?_eq_zero_iff hx).2 hzero)
      exact ⟨⟨0, hvalue⟩, (hbelow 0 hvalue).2 (by decide)⟩
    have htext : x.codeText = x.literalText.relaid := by
      rw [codeText, if_pos hx]
      split
      · rename_i n hwhole
        have hn := (whole?_eq_some_iff hx).1 hwhole
        rw [if_neg fun hlt => hout ⟨⟨n, hn⟩, (hbelow n hn).2 hlt⟩]
      · rfl
    rw [htext, numeral?_relaid hx hzero]

/-- The literal of a finite double as data. -/
theorem literal_float (hx : x.isFinite = true) (σ : Session) :
    Build.literal (.scalar (.float x)) σ = .ok x.literalText σ := by
  have hencode : (Scalar.float x).encode = .ok x.literalText := if_pos hx
  have hdatum : (σ.store.datum (.scalar (.float x))).encode = .ok x.literalText := by
    rw [Store.datum_scalar, Datum.encode, Datum.encodeTo, hencode, Except.map,
      (Scalar.plain_encode hencode).cleared]
  simp only [Build.literal, hdatum]

/-- **The notation of a double never changes the number.** A finite double
is written in code, in messages and in literals of data as a decimal
literal. In code it stands for the double itself if that is a whole number
below `10 ^ 21`, and for the same number as in a message if it is not. In
either place it is read as the double, up to the sign of zero. -/
theorem reads_back (hx : x.isFinite = true) :
    ∃ (code written : Text) (v w : ℚ),
      (Scalar.float x).render = .ok code ∧ numeral? code = some v ∧
      (Scalar.float x).display = .ok written ∧
      (∀ σ, Build.literal (.scalar (.float x)) σ = .ok written σ) ∧
      numeral? written = some w ∧
      ((∃ n : ℤ, x.value = n) ∧ |x.value| < 10 ^ 21 → v = x.value) ∧
      (¬ ((∃ n : ℤ, x.value = n) ∧ |x.value| < 10 ^ 21) → v = w) ∧
      ∀ y : Double, (y.IsNearest v ↔ y = x ∨ y.isZero = true ∧ x.isZero = true) ∧
        (y.IsNearest w ↔ y = x ∨ y.isZero = true ∧ x.isZero = true) := by
  obtain ⟨hout, hrelaid⟩ := numeral?_codeText hx
  have hliteral := literal_float hx
  have hread := numeral?_literalText hx
  have hshort := isNearest_shortValue hx
  by_cases h : x.IsWrittenOut
  · exact ⟨x.codeText, x.literalText, x.value, x.shortValue, rfl, hout h, rfl, hliteral, hread,
      fun _ => rfl, fun hnot => absurd h hnot, fun y => ⟨(isNearest_value hx).iff, hshort.iff⟩⟩
  · exact ⟨x.codeText, x.literalText, x.shortValue, x.shortValue, rfl, hrelaid h, rfl, hliteral,
      hread, fun hnot => absurd hnot h, fun _ => rfl, fun y => ⟨hshort.iff, hshort.iff⟩⟩

/-- A number with an exponent in messages and zeros in code. -/
theorem reads_back_small :
    let x : Double := ⟨0x3eb92a737110e454⟩
    x.isFinite = true ∧ (Scalar.float x).render = .ok "0.0000015" ∧
      (Scalar.float x).display = .ok "1.5e-06" ∧
      numeral? "0.0000015" = some (3 / 2000000) ∧ numeral? "1.5e-06" = some (3 / 2000000) ∧
      ∀ y : Double, y.IsNearest (3 / 2000000) ↔ y = x := by
  intro x
  have hx : x.isFinite = true := by decide
  have hzero : x.isZero = false := by decide
  have hrender : (Scalar.float x).render = .ok "0.0000015" := by decide +kernel
  have hdisplay : (Scalar.float x).display = .ok "1.5e-06" := by decide +kernel
  have hvalue : numeral? "0.0000015" = some (3 / 2000000) := by decide +kernel
  obtain ⟨code, written, v, w, hcode, hv, hwritten, -, hw, -, -, hread⟩ := reads_back hx
  obtain rfl : code = "0.0000015" := Except.ok.inj (hcode.symm.trans hrender)
  obtain rfl : written = "1.5e-06" := Except.ok.inj (hwritten.symm.trans hdisplay)
  obtain rfl : v = 3 / 2000000 := Option.some.inj (hv.symm.trans hvalue)
  refine ⟨hx, hrender, hdisplay, hvalue, by decide +kernel, fun y => ?_⟩
  simpa [hzero] using (hread y).1

end Double

end Splice
