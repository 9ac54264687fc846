import Splice.Item.Render
import Splice.Datum.Literal
import Mathlib.Tactic.Common
/-!
# Plain text — what scalars are written with

A plain code point is a printable ASCII character that is neither a double
quote nor a backslash. Nothing in a plain text needs an escape, in a
literal or anywhere else: the passes of the encoder leave it alone
(`Text.IsPlain.cleared`), and it can be put between quotes as it is. Every
text that a scalar is written as is plain, as code (`Scalar.plain_render`)
and as data (`Scalar.plain_encode`), so a literal can take in a scalar.
-/

namespace Splice

/-- Whether a code point is a printable ASCII character other than the
double quote and the backslash. -/
def CodePoint.isPlain : CodePoint → Bool
  | .char c => 0x20 ≤ c.toNat && c.toNat < 0x7F && c != '"' && c != '\\'
  | .surrogate _ => false

/-- Whether a code point is a decimal digit. -/
def CodePoint.isDecimal : CodePoint → Bool
  | .char c => c.isDigit
  | .surrogate _ => false

/-- A text of plain code points. -/
def Text.IsPlain (t : Text) : Prop := ∀ c ∈ t, c.isPlain = true

instance (t : Text) : Decidable t.IsPlain :=
  inferInstanceAs (Decidable (∀ c ∈ t, c.isPlain = true))

namespace CodePoint

variable {c : CodePoint}

theorem toNat_of_isPlain (h : c.isPlain = true) : 0x20 ≤ c.toNat ∧ c.toNat < 0x7F := by
  cases c with
  | char c =>
    simp only [isPlain, Bool.and_eq_true, decide_eq_true_eq] at h
    exact h.1.1
  | surrogate n => cases h

theorem ne_quote_of_isPlain (h : c.isPlain = true) : c ≠ .char '"' := by
  rintro rfl
  exact absurd h (by decide)

theorem ne_backslash_of_isPlain (h : c.isPlain = true) : c ≠ .char '\\' := by
  rintro rfl
  exact absurd h (by decide)

/-- Only code points above ASCII are barred. -/
theorem not_barred_of_lt (h : c.toNat < 0x80) : c.isBarred = false := by
  have hline : (c.toNat == 0x2028) = false := beq_eq_false_iff_ne.2 (by omega)
  have hparagraph : (c.toNat == 0x2029) = false := beq_eq_false_iff_ne.2 (by omega)
  have hsurrogate : c.isSurrogate = false := by
    cases c with
    | char c => rfl
    | surrogate n => exact absurd h (by rw [toNat]; omega)
  rw [isBarred, hline, hparagraph, hsurrogate]
  rfl

theorem units_of_lt (h : c.toNat < 0x10000) : c.units = [c.toNat] := by
  rw [CodePoint.units, if_pos h]

/-- A code point is known by its number. -/
theorem toNat_injective : Function.Injective toNat := by
  have hvalid : ∀ (c : Char) (n : Fin 2048), c.toNat ≠ 0xD800 + n := by
    intro c n h
    rcases c.valid with hlow | ⟨hhigh, -⟩
    · have hlow : c.toNat < 0xD800 := hlow
      omega
    · have hhigh : 0xDFFF < c.toNat := hhigh
      omega
  intro c d h
  cases c with
  | char c =>
    cases d with
    | char d => exact congrArg _ (Char.toNat_inj.1 h)
    | surrogate n => exact absurd h (hvalid c n)
  | surrogate n =>
    cases d with
    | char d => exact absurd h.symm (hvalid d n)
    | surrogate k => exact congrArg _ (Fin.ext (Nat.add_left_cancel h))

/-- The characters of decimal digits are plain. -/
theorem isPlain_of_isDigit {d : Char} (h : d.isDigit = true) : (char d).isPlain = true := by
  have hle : 48 ≤ d.toNat ∧ d.toNat ≤ 57 := by
    simp only [Char.isDigit, Bool.and_eq_true, decide_eq_true_eq, ge_iff_le,
      UInt32.le_iff_toNat_le] at h
    exact h
  have hquote : d ≠ '"' := by rintro rfl; exact absurd hle (by decide)
  have hslash : d ≠ '\\' := by rintro rfl; exact absurd hle (by decide)
  simp only [isPlain, Bool.and_eq_true, decide_eq_true_eq, bne_iff_ne]
  exact ⟨⟨⟨by omega, by omega⟩, hquote⟩, hslash⟩

end CodePoint

namespace Text

variable {t u : Text}

@[simp] theorem isPlain_nil : IsPlain [] := fun _ h => absurd h List.not_mem_nil

@[simp] theorem isPlain_cons {c : CodePoint} :
    IsPlain (c :: t) ↔ c.isPlain = true ∧ IsPlain t := List.forall_mem_cons

@[simp] theorem isPlain_append : IsPlain (t ++ u) ↔ IsPlain t ∧ IsPlain u :=
  List.forall_mem_append

theorem cleared_append (t u : Text) : Text.cleared (t ++ u) = t.cleared ++ u.cleared :=
  List.flatMap_append

/-- The second pass of the encoder leaves plain text alone. -/
theorem IsPlain.cleared (h : IsPlain t) : t.cleared = t := by
  induction t with
  | nil => rfl
  | cons c t ih =>
    rw [isPlain_cons] at h
    have hbarred : c.isBarred = false :=
      CodePoint.not_barred_of_lt (by have := CodePoint.toNat_of_isPlain h.1; omega)
    rw [Text.cleared, List.flatMap_cons, CodePoint.cleared, hbarred]
    exact congrArg (c :: ·) (ih h.2)

/-- Characters that are decimal digits make a plain text. -/
theorem isPlain_of_digits {ds : List Char} (h : ∀ d ∈ ds, d.isDigit = true) :
    IsPlain (ds.map .char) := by
  intro c hc
  obtain ⟨d, hd, rfl⟩ := List.mem_map.1 hc
  exact CodePoint.isPlain_of_isDigit (h d hd)

theorem isPlain_ofNat (n : Nat) : IsPlain (Text.ofNat n) :=
  isPlain_of_digits fun _ => Nat.isDigit_of_mem_toDigits (by decide) (by decide)

theorem isPlain_ofInt (n : Int) : IsPlain (Text.ofInt n) := by
  cases n with
  | ofNat n => exact isPlain_ofNat n
  | negSucc n => exact isPlain_cons.2 ⟨by decide, isPlain_ofNat (n + 1)⟩

/-- The code units of plain text are its code points. -/
theorem IsPlain.units_eq (h : t.IsPlain) : t.units = t.map CodePoint.toNat := by
  induction t with
  | nil => rfl
  | cons c t ih =>
    obtain ⟨hc, ht⟩ := isPlain_cons.1 h
    have hlt := (CodePoint.toNat_of_isPlain hc).2
    rw [units, List.flatMap_cons, CodePoint.units_of_lt (by omega), List.map_cons]
    exact congrArg (c.toNat :: ·) (ih ht)

/-- Plain texts of the same code units are the same. -/
theorem IsPlain.units_inj (ht : t.IsPlain) (hu : u.IsPlain) (h : t.units = u.units) : t = u := by
  rw [ht.units_eq, hu.units_eq] at h
  exact (List.map_inj_right fun _ _ hc => CodePoint.toNat_injective hc).1 h

/-- And one begins with another one where its code units do. -/
theorem IsPlain.prefix_of_units (ht : t.IsPlain) (hu : u.IsPlain) (h : t.units <+: u.units) :
    t <+: u := by
  obtain ⟨r, hr⟩ := h
  rw [hu.units_eq] at hr
  obtain ⟨l, r, rfl, hl, -⟩ := List.map_eq_append_iff.1 hr.symm
  obtain ⟨hplain, -⟩ := isPlain_append.1 hu
  rw [← hplain.units_eq] at hl
  exact ⟨r, by rw [ht.units_inj hplain hl.symm]⟩

theorem IsPlain.take (h : IsPlain t) (n : Nat) : IsPlain (t.take n) :=
  fun c hc => h c (List.mem_of_mem_take hc)

theorem IsPlain.drop (h : IsPlain t) (n : Nat) : IsPlain (t.drop n) :=
  fun c hc => h c (List.mem_of_mem_drop hc)

end Text

/-! ## Doubles -/

namespace Layout

variable {keepsPoint : Bool} {digits : Text}

theorem isPlain_zeros (n : Nat) : Text.IsPlain (zeros n) := by
  intro c hc
  rw [List.eq_of_mem_replicate hc]
  decide

theorem isPlain_positional (h : digits.IsPlain) (e : Int) :
    (positional keepsPoint digits e).IsPlain := by
  unfold positional
  split
  · simp only [Text.isPlain_append]
    exact ⟨⟨by decide, isPlain_zeros _⟩, h⟩
  · dsimp only
    split
    · simp only [Text.isPlain_append]
      refine ⟨⟨h, isPlain_zeros _⟩, ?_⟩
      split
      · decide
      · exact Text.isPlain_nil
    · simp only [Text.isPlain_append, Text.isPlain_cons]
      exact ⟨h.take _, by decide, h.drop _⟩

theorem isPlain_mantissa (h : digits.IsPlain) : (mantissa digits).IsPlain := by
  unfold mantissa
  split
  · exact h
  · exact h
  · rw [Text.isPlain_cons] at h
    exact Text.isPlain_cons.2 ⟨h.1, Text.isPlain_cons.2 ⟨by decide, h.2⟩⟩

theorem isPlain_exponential (h : digits.IsPlain) (e : Int) : (exponential digits e).IsPlain := by
  have hsign : (CodePoint.char (if e < 0 then '-' else '+')).isPlain = true := by
    split <;> decide
  simp only [exponential, Text.isPlain_append, Text.isPlain_cons]
  exact ⟨isPlain_mantissa h, by decide, hsign, isPlain_zeros _, Text.isPlain_ofNat _⟩

theorem isPlain_place (h : digits.IsPlain) (e : Int) : (place keepsPoint digits e).IsPlain := by
  unfold place
  split
  · exact isPlain_positional h e
  · exact isPlain_exponential h e

end Layout

/-- A plain text laid out anew is plain. -/
theorem Text.isPlain_relaid {t : Text} (h : t.IsPlain) : t.relaid.IsPlain := by
  have hbefore : Text.IsPlain (t.takeWhile (· != .char 'e')) := fun c hc =>
    h c ((List.takeWhile_sublist _).mem hc)
  unfold relaid
  dsimp only
  split
  · exact h
  · split
    · simp only [Text.isPlain_append]
      refine ⟨⟨⟨?_, by decide⟩, Layout.isPlain_zeros _⟩, fun c hc => ?_⟩
      · split
        · decide
        · exact Text.isPlain_nil
      · exact hbefore c ((List.dropWhile_sublist _).mem ((List.mem_filter.1 hc).1))
    · simp only [Text.isPlain_append, Text.isPlain_cons]
      refine ⟨hbefore, by decide, ?_, Text.isPlain_ofNat _⟩
      split <;> decide

/-- The digits of a decimal without the zeros at its end are digits. -/
theorem Decimal.isPlain_significant (d : Decimal) : d.significant.IsPlain := by
  apply Text.isPlain_of_digits
  intro c hc
  rw [List.mem_reverse] at hc
  have hmem := (List.dropWhile_sublist (· == '0')).mem hc
  exact Nat.isDigit_of_mem_toDigits (by decide) (by decide) (List.mem_reverse.1 hmem)

namespace Double

variable (x : Double)

theorem isPlain_laidOut (keepsPoint : Bool) : (x.laidOut keepsPoint).IsPlain := by
  simp only [laidOut, Text.isPlain_append]
  constructor
  · split
    · decide
    · exact Text.isPlain_nil
  · refine Layout.isPlain_place ?_ _
    unfold digits
    split
    · decide
    · exact Decimal.isPlain_significant _

theorem isPlain_literalText : x.literalText.IsPlain := by
  unfold literalText
  split
  · exact x.isPlain_laidOut true
  split
  · decide
  split <;> decide

theorem isPlain_codeText : x.codeText.IsPlain := by
  have hrelaid : x.literalText.relaid.IsPlain := Text.isPlain_relaid x.isPlain_literalText
  unfold codeText
  split
  · split
    · split
      · exact Text.isPlain_ofInt _
      · exact hrelaid
    · exact hrelaid
  split
  · decide
  split <;> decide

end Double

/-! ## Scalars -/

/-- A number below `2 ^ 53` can be written. -/
theorem isPrintableInt_of_lt {n : Int} (h : n.natAbs < 2 ^ 53) : isPrintableInt n = true := by
  simp only [isPrintableInt, decide_eq_true_eq]
  calc n.natAbs < 2 ^ 53 := h
    _ ≤ 10 ^ 53 := Nat.pow_le_pow_left (by decide) 53
    _ ≤ 10 ^ 4300 := Nat.pow_le_pow_right (by decide) (by decide)

namespace Scalar

variable {c : Scalar} {t : Text}

theorem render_int {n : Int} (h : isPrintableInt n = true) :
    (Scalar.int n).render = .ok (Text.ofInt n) := by
  rw [render, if_pos h]

theorem render_int_of_lt {n : Int} (h : n.natAbs < 2 ^ 53) :
    (Scalar.int n).render = .ok (Text.ofInt n) := render_int (isPrintableInt_of_lt h)

/-- **A scalar is plain as code.** -/
theorem plain_render (h : c.render = .ok t) : t.IsPlain := by
  cases c with
  | null => cases h; decide
  | bool b => cases b <;> cases h <;> decide
  | int n =>
    rw [render] at h
    split at h
    · cases h
      exact Text.isPlain_ofInt n
    · cases h
  | float x => cases h; exact x.isPlain_codeText

/-- **A scalar is plain as data.** -/
theorem plain_encode (h : c.encode = .ok t) : t.IsPlain := by
  cases c with
  | null => cases h; decide
  | bool b => cases b <;> cases h <;> decide
  | int n =>
    rw [encode] at h
    split at h
    · cases h
      exact Text.isPlain_ofInt n
    · cases h
  | float x =>
    rw [encode] at h
    split at h
    · cases h
      exact x.isPlain_literalText
    · cases h

end Scalar

end Splice
