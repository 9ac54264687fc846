import Splice.Proofs.Plain
import Mathlib.Data.List.DropRight
/-!
# Number — decimal digits and what they stand for

A natural number is written with digits of which the first is no zero,
unless it is the only one. Of all texts of digits this is the one that
stands for the number (`Text.ofNat_digitsValue`). The significant digits of
a decimal are those it is written with, without the zeros at their end
(`Decimal.ofNat_digits`), so neither the first nor the last of them is a
zero.
-/

namespace Splice

/-! ## Whole numbers -/

theorem digitChar_ne_zero : ∀ k < 10, k ≠ 0 → k.digitChar ≠ '0' := by decide

/-- A number that is not zero does not begin with a zero. -/
theorem head?_toDigits {n : Nat} (h : n ≠ 0) : (Nat.toDigits 10 n).head? ≠ some '0' := by
  induction n using Nat.strongRecOn with
  | ind n ih =>
    rw [Nat.toDigits_eq_if (by decide)]
    split
    · rename_i hlt
      simpa using digitChar_ne_zero n hlt h
    · have ih := ih (n / 10) (Nat.div_lt_self (by omega) (by decide)) (by omega)
      have hne : Nat.toDigits 10 (n / 10) ≠ [] := Nat.toDigits_ne_nil
      obtain ⟨d, ds, hds⟩ := List.exists_cons_of_ne_nil hne
      rw [hds] at ih ⊢
      exact ih

/-- The power of ten of its first digit is at most the number. -/
theorem pow_length_toDigits_le {n : Nat} (h : 0 < n) :
    10 ^ ((Nat.toDigits 10 n).length - 1) ≤ n := by
  rcases Nat.eq_zero_or_pos ((Nat.toDigits 10 n).length - 1) with hone | hmore
  · rw [hone]
    exact h
  · refine Nat.not_lt.1 fun hlt => ?_
    have := (Nat.length_toDigits_le_iff (by decide) hmore).2 hlt
    omega

/-- A natural number is below the power of ten of the number of its digits. -/
theorem lt_pow_length_toDigits (n : Nat) : n < 10 ^ (Nat.toDigits 10 n).length :=
  (Nat.length_toDigits_le_iff (by decide) (List.length_pos_iff.2 Nat.toDigits_ne_nil)).1
    (Nat.le_refl _)

/-- A decimal digit is the character of a number below ten. -/
theorem CodePoint.exists_digitChar {c : CodePoint} (h : c.isDecimal = true) :
    ∃ k < 10, c = .char k.digitChar := by
  have htoNat : ∀ k < 10, k.digitChar.toNat = 48 + k := by decide
  cases c with
  | char d =>
    have hle : 48 ≤ d.toNat ∧ d.toNat ≤ 57 := by
      simp only [isDecimal, Char.isDigit, Bool.and_eq_true, decide_eq_true_eq, ge_iff_le,
        UInt32.le_iff_toNat_le] at h
      exact h
    have hlt : d.toNat - 48 < 10 := by omega
    refine ⟨d.toNat - 48, hlt, congrArg _ (Char.toNat_inj.1 ?_)⟩
    rw [htoNat _ hlt]
    omega
  | surrogate n => cases h

namespace Text

variable {ds : Text}

theorem isDecimal_ofNat (n : Nat) : ∀ c ∈ ofNat n, c.isDecimal = true := by
  intro c hc
  obtain ⟨d, hd, rfl⟩ := List.mem_map.1 hc
  exact Nat.isDigit_of_mem_toDigits (by decide) (by decide) hd

theorem ofNat_of_lt {k : Nat} (h : k < 10) : ofNat k = [.char k.digitChar] := by
  rw [ofNat, Nat.toDigits_eq_if (by decide), if_pos h]
  rfl

/-- One more digit at the end. -/
theorem ofNat_concat {n k : Nat} (hn : 0 < n) (hk : k < 10) :
    ofNat (10 * n + k) = ofNat n ++ [.char k.digitChar] := by
  have hdiv : (10 * n + k) / 10 = n := by omega
  have hmod : (10 * n + k) % 10 = k := by omega
  rw [ofNat, Nat.toDigits_eq_if (by decide), if_neg (by omega), hdiv, hmod, List.map_append]
  rfl

theorem digitsValue_concat (ds : Text) {k : Nat} (hk : k < 10) :
    digitsValue (ds ++ [.char k.digitChar]) = 10 * digitsValue ds + k := by
  have hvalue : ∀ k < 10, (CodePoint.char k.digitChar).toNat - 48 = k := by decide
  rw [digitsValue, List.foldl_append, List.foldl_cons, List.foldl_nil, hvalue k hk]
  rfl

/-- What a number is written as stands for it. -/
theorem digitsValue_ofNat (n : Nat) : digitsValue (ofNat n) = n := by
  induction n using Nat.strongRecOn with
  | ind n ih =>
    rcases Nat.lt_or_ge n 10 with hlt | hge
    · rw [ofNat_of_lt hlt]
      have hvalue := digitsValue_concat [] hlt
      simpa [digitsValue] using hvalue
    · have hsplit : n = 10 * (n / 10) + n % 10 := by omega
      have hmod : n % 10 < 10 := Nat.mod_lt _ (by decide)
      have ih := ih (n / 10) (Nat.div_lt_self (by omega) (by decide))
      rw [hsplit, ofNat_concat (by omega) hmod, digitsValue_concat _ hmod, ih]

/-- Digits behind others are as many factors of ten, or more. -/
theorem digitsValue_mul_le (ds es : Text) :
    digitsValue ds * 10 ^ es.length ≤ digitsValue (ds ++ es) := by
  induction es using List.reverseRecOn with
  | nil => simp
  | append_singleton es c ih =>
    have hconcat : digitsValue (ds ++ (es ++ [c])) =
        10 * digitsValue (ds ++ es) + (c.toNat - 48) := by
      rw [← List.append_assoc, digitsValue, List.foldl_append]
      rfl
    rw [hconcat, List.length_append, List.length_singleton, Nat.pow_succ, ← Nat.mul_assoc]
    omega

/-- **Of two numbers one is not the beginning of the other**, unless it is
at most a tenth of it. -/
theorem ofNat_eq_of_prefixed {m n : Nat} (h : ofNat m <+: ofNat n) (hlt : n < 10 * m) :
    ofNat m = ofNat n := by
  obtain ⟨ds, hds⟩ := h
  have hle := digitsValue_mul_le (ofNat m) ds
  rw [hds, digitsValue_ofNat, digitsValue_ofNat] at hle
  cases ds with
  | nil => rwa [List.append_nil] at hds
  | cons d ds =>
    have hone : 1 ≤ 10 ^ ds.length := Nat.one_le_pow _ _ (by decide)
    have hten : m * 1 ≤ m * 10 ^ ds.length := Nat.mul_le_mul_left m hone
    rw [List.length_cons, Nat.pow_succ, ← Nat.mul_assoc] at hle
    omega

/-- From ten on a number has two digits. -/
theorem exists_two_digits {n : Nat} (h : 10 ≤ n) : ∃ c d ds, ofNat n = c :: d :: ds := by
  have hlt := lt_pow_length_toDigits n
  match hdigits : Nat.toDigits 10 n with
  | [] => exact absurd hdigits Nat.toDigits_ne_nil
  | [c] =>
    rw [hdigits, List.length_singleton] at hlt
    omega
  | c :: d :: ds => exact ⟨_, _, _, congrArg (List.map CodePoint.char) hdigits⟩

/-- Zeros at the end are factors of ten. -/
theorem digitsValue_append_zeros (ds : Text) (n : Nat) :
    digitsValue (ds ++ Layout.zeros n) = digitsValue ds * 10 ^ n := by
  induction n with
  | zero =>
    rw [Layout.zeros, List.replicate_zero, List.append_nil, Nat.pow_zero, Nat.mul_one]
  | succ n ih =>
    have hzeros : Layout.zeros (n + 1) = Layout.zeros n ++ [.char (Nat.digitChar 0)] :=
      List.replicate_succ'
    rw [hzeros, ← List.append_assoc, digitsValue_concat _ (by decide), ih, Nat.add_zero,
      Nat.pow_succ, Nat.mul_comm 10, Nat.mul_assoc]

/-- Zeros before the digits do not count. -/
theorem digitsValue_zeros_append (n : Nat) (ds : Text) :
    digitsValue (Layout.zeros n ++ ds) = digitsValue ds := by
  induction n with
  | zero => rfl
  | succ n ih =>
    rw [← ih]
    rfl

/-- **A text of digits is what its number is written as**, if it does not
begin with a zero. -/
theorem ofNat_digitsValue (hne : ds ≠ []) (hds : ∀ c ∈ ds, c.isDecimal = true)
    (hhead : ds.head? ≠ some (.char '0')) : ofNat (digitsValue ds) = ds := by
  induction ds using List.reverseRecOn with
  | nil => exact absurd rfl hne
  | append_singleton ds c ih =>
    obtain ⟨k, hk, rfl⟩ := CodePoint.exists_digitChar (hds c (by simp))
    rw [digitsValue_concat ds hk]
    rcases ds with _ | ⟨d, ds⟩
    · simpa [digitsValue] using ofNat_of_lt hk
    · have hdigits : ofNat (digitsValue (d :: ds)) = d :: ds :=
        ih (by simp) (fun c hc => hds c (List.mem_append_left _ hc)) hhead
      have hpos : 0 < digitsValue (d :: ds) := by
        refine Nat.pos_of_ne_zero fun hzero => hhead ?_
        rw [hzero] at hdigits
        rw [List.cons_append, ← (List.cons.inj hdigits).1]
        rfl
      rw [ofNat_concat hpos hk, hdigits]

end Text

/-! ## Decimals -/

namespace Decimal

variable {d : Decimal}

/-- **The significant digits and the zeros after them** are what the digits
of a decimal are written as. -/
theorem ofNat_digits (d : Decimal) :
    ∃ n, Text.ofNat d.digits = d.significant ++ Layout.zeros n := by
  have hzeros : (Nat.toDigits 10 d.digits).rtakeWhile (· == '0') =
      List.replicate ((Nat.toDigits 10 d.digits).rtakeWhile (· == '0')).length '0' := by
    refine List.eq_replicate_iff.2 ⟨rfl, fun c hc => ?_⟩
    simpa using List.mem_takeWhile_imp (List.mem_reverse.1 hc)
  have hsplit : (Nat.toDigits 10 d.digits).rdropWhile (· == '0') ++
      (Nat.toDigits 10 d.digits).rtakeWhile (· == '0') = Nat.toDigits 10 d.digits :=
    List.rdropWhile_append_rtakeWhile
  refine ⟨((Nat.toDigits 10 d.digits).rtakeWhile (· == '0')).length, ?_⟩
  rw [hzeros] at hsplit
  have htext := congrArg (List.map CodePoint.char) hsplit
  rw [List.map_append, List.map_replicate] at htext
  exact htext.symm

theorem isDecimal_significant (d : Decimal) : ∀ c ∈ d.significant, c.isDecimal = true := by
  obtain ⟨n, hn⟩ := d.ofNat_digits
  intro c hc
  refine Text.isDecimal_ofNat d.digits c ?_
  rw [hn]
  exact List.mem_append_left _ hc

/-- The last significant digit is no zero. -/
theorem getLast?_significant (d : Decimal) : d.significant.getLast? ≠ some (.char '0') := by
  intro hlast
  have hmap : d.significant =
    ((Nat.toDigits 10 d.digits).rdropWhile (· == '0')).map .char := rfl
  rw [hmap, List.getLast?_map] at hlast
  obtain ⟨c, hc, hzero⟩ := Option.map_eq_some_iff.1 hlast
  obtain rfl : c = '0' := CodePoint.char.inj hzero
  have hne : (Nat.toDigits 10 d.digits).rdropWhile (· == '0') ≠ [] := by
    intro hempty
    rw [hempty] at hc
    cases hc
  rw [List.getLast?_eq_some_getLast hne] at hc
  refine List.rdropWhile_last_not (· == '0') (Nat.toDigits 10 d.digits) hne ?_
  rw [Option.some.inj hc]
  rfl

/-- A decimal that is not zero has a digit, and the first is no zero. -/
theorem head?_significant (h : 0 < d.digits) :
    d.significant ≠ [] ∧ d.significant.head? ≠ some (.char '0') := by
  obtain ⟨n, hn⟩ := d.ofNat_digits
  have hhead : (Text.ofNat d.digits).head? ≠ some (.char '0') := by
    intro hhead
    rw [Text.ofNat, List.head?_map] at hhead
    obtain ⟨c, hc, hzero⟩ := Option.map_eq_some_iff.1 hhead
    rw [CodePoint.char.inj hzero] at hc
    exact head?_toDigits (Nat.pos_iff_ne_zero.1 h) hc
  have hne : d.significant ≠ [] := by
    intro hempty
    rw [hempty, List.nil_append] at hn
    rw [hn] at hhead
    cases n with
    | zero =>
      have hlength := congrArg List.length hn
      simp [Text.ofNat, Layout.zeros] at hlength
    | succ n => exact hhead rfl
  refine ⟨hne, fun hzero => hhead ?_⟩
  rw [hn, List.head?_append_of_ne_nil _ hne, hzero]

/-- What the significant digits stand for is no multiple of ten. -/
theorem not_ten_dvd_significant (h : 0 < d.digits) : ¬ 10 ∣ Text.digitsValue d.significant := by
  rcases List.eq_nil_or_concat d.significant with hempty | ⟨ds, c, hds⟩
  · exact absurd hempty (head?_significant h).1
  · rw [List.concat_eq_append] at hds
    have hc : c.isDecimal = true := d.isDecimal_significant c (by simp [hds])
    obtain ⟨k, hk, rfl⟩ := CodePoint.exists_digitChar hc
    have hlast : k ≠ 0 := by
      rintro rfl
      refine d.getLast?_significant ?_
      rw [hds, List.getLast?_concat]
      rfl
    rw [hds, Text.digitsValue_concat ds hk]
    omega

/-- The significant digits, times a power of ten for the zeros. -/
theorem digitsValue_significant (d : Decimal) :
    ∃ n, d.digits = Text.digitsValue d.significant * 10 ^ n ∧
      (Nat.toDigits 10 d.digits).length = d.significant.length + n := by
  obtain ⟨n, hn⟩ := d.ofNat_digits
  refine ⟨n, ?_, ?_⟩
  · rw [← Text.digitsValue_append_zeros, ← hn, Text.digitsValue_ofNat]
  · have hlength := congrArg List.length hn
    rwa [Text.ofNat, List.length_map, List.length_append, Layout.zeros,
      List.length_replicate] at hlength

end Decimal

end Splice
