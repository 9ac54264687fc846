import Splice.Proofs.Number.Value
import Mathlib.Data.Int.LeastGreatest
import Mathlib.Order.Monotone.Basic
/-!
# Number — the nearest double

A number is read as the double nearest to it, and of two doubles that are
as near as the one with the even significand (`Double.IsNearest`). The
values of the doubles are in a row (`Double.nth`). From one to the next it
is the power of two of the lower one, and every other significand is even.
So a number is read as the double if it lies between the middles of the
distances to both neighbours, or on one of them if the significand is even
(`IsNearest.between`, `isNearest_of_between`). At most one value is the
nearest then (`IsNearest.value_eq`), and unless the number is out of range
one is (`exists_isNearest`).

The interval in which decimals read back ends in these middles, so what
reads back is what is read as the double (`Double.isNearest_of_readsBack`,
`Double.readsBack_of_isNearest`), and its shortest decimal is
(`Double.isNearest_shortest`).
-/

namespace Splice

/-! ## The row of the doubles -/

namespace Magnitude

/-- The magnitude of each double, in order. -/
def ofIndex (k : Nat) : Magnitude :=
  if k / 2 ^ 52 = 0 then ⟨k % 2 ^ 52, -1074, false⟩
  else ⟨2 ^ 52 + k % 2 ^ 52, (k / 2 ^ 52 : Nat) - 1075, k % 2 ^ 52 == 0 && 1 < k / 2 ^ 52⟩

/-- Every other significand is even. -/
theorem ofIndex_m_mod_two (k : Nat) : (ofIndex k).m % 2 = k % 2 := by
  unfold ofIndex
  split <;> dsimp only <;> omega

/-- The next double has the next significand, or is the first with the next exponent. -/
theorem next_index (k : Nat) :
    (k + 1) / 2 ^ 52 = k / 2 ^ 52 ∧ (k + 1) % 2 ^ 52 = k % 2 ^ 52 + 1 ∨
      (k + 1) / 2 ^ 52 = k / 2 ^ 52 + 1 ∧ (k + 1) % 2 ^ 52 = 0 ∧ k % 2 ^ 52 = 2 ^ 52 - 1 := by
  omega

theorem value_succ (m : Nat) (q : Int) (narrow narrow' : Bool) :
    value ⟨m + 1, q, narrow⟩ = value ⟨m, q, narrow'⟩ + 2 ^ q := by
  simp only [value]
  push_cast
  ring

/-- From one double to the next it is the power of two of the first. -/
theorem value_ofIndex_succ (k : Nat) :
    (ofIndex (k + 1)).value = (ofIndex k).value + 2 ^ (ofIndex k).q := by
  unfold ofIndex
  rcases next_index k with ⟨hdiv, hmod⟩ | ⟨hdiv, hmod, hfull⟩
  · rw [hdiv, hmod]
    split
    · exact value_succ ..
    · exact value_succ ..
  · rw [hdiv, hmod, hfull]
    by_cases hsub : k / 2 ^ 52 = 0
    · rw [hsub]
      exact value_succ (2 ^ 52 - 1) (-1074) _ _
    · -- The significand starts again from the half, so the exponent goes up by one.
      have hdouble : (2 : ℚ) ^ ((k / 2 ^ 52 + 1 : Nat) - 1075 : ℤ) =
          2 * 2 ^ ((k / 2 ^ 52 : Nat) - 1075 : ℤ) := by
        rw [← zpow_one_add₀ (by norm_num)]
        congr 1
        push_cast
        ring
      rw [if_neg (by omega), if_neg hsub]
      simp only [value]
      rw [hdouble]
      push_cast
      ring

/-- Seen from the next one, that is the distance to the one below. -/
theorem gapBelow_ofIndex_succ (k : Nat) : (ofIndex (k + 1)).gapBelow = 2 ^ (ofIndex k).q := by
  unfold ofIndex
  rcases next_index k with ⟨hdiv, hmod⟩ | ⟨hdiv, hmod, hfull⟩
  · rw [hdiv, hmod]
    split <;> simp [gapBelow]
  · rw [hdiv, hmod]
    by_cases hsub : k / 2 ^ 52 = 0
    · rw [hsub]
      simp [gapBelow]
    · have hmore : 1 < k / 2 ^ 52 + 1 := by omega
      have hhalf : (2 : ℚ) ^ ((k / 2 ^ 52 + 1 : Nat) - 1075 : ℤ) / 2 =
          2 ^ ((k / 2 ^ 52 : Nat) - 1075 : ℤ) := by
        rw [div_eq_iff (by norm_num), ← zpow_add_one₀ (by norm_num)]
        congr 1
        push_cast
        ring
      rw [if_neg (by omega), if_neg hsub]
      simp only [gapBelow, hmore, decide_true, beq_self_eq_true, Bool.and_self, if_true]
      exact hhalf

end Magnitude

namespace Double

open Magnitude

variable {x y : Double} {v : ℚ}

/-- The value of a finite double. -/
def value (x : Double) : ℚ := if x.isNegative then -x.magnitude.value else x.magnitude.value

theorem abs_value (x : Double) : |x.value| = x.magnitude.value := by
  have hnonneg : 0 ≤ x.magnitude.value := mul_nonneg (Nat.cast_nonneg _) (two_zpow_pos _).le
  unfold value
  split
  · rw [abs_neg, abs_of_nonneg hnonneg]
  · rw [abs_of_nonneg hnonneg]

/-- The values of the doubles in order. Zero is at zero. -/
def nth (i : Int) : ℚ := i.sign * (ofIndex i.natAbs).value

/-- Where a double stands in the order, but for its sign. -/
def index (x : Double) : Nat := x.bits.toNat % 2 ^ 63

/-- Where a double stands in the order. The two zeros stand at one place. -/
def position (x : Double) : Int := if x.isNegative then -(x.index : Int) else x.index

theorem value_ofIndex_zero : (ofIndex 0).value = 0 := by simp [ofIndex, Magnitude.value]

theorem nth_natCast (k : Nat) : nth k = (ofIndex k).value := by
  cases k with
  | zero => simp [nth, value_ofIndex_zero]
  | succ k =>
    rw [nth, Int.sign_natCast_of_ne_zero k.succ_ne_zero, Int.natAbs_natCast, Int.cast_one, one_mul]

theorem nth_neg (i : Int) : nth (-i) = -nth i := by
  simp [nth]

theorem magnitude_eq_ofIndex (x : Double) : x.magnitude = ofIndex x.index := by
  have hbits : x.bits.toNat < 2 ^ 64 := x.bits.toNat_lt
  have hbiased : x.biased = x.index / 2 ^ 52 := by
    rw [biased, index]
    omega
  have hfraction : x.fraction = x.index % 2 ^ 52 := by
    rw [fraction, index]
    omega
  rw [magnitude, ofIndex, hbiased, hfraction]

/-- A double has the value at its place. -/
theorem value_eq_nth (x : Double) : x.value = nth x.position := by
  rw [value, position, magnitude_eq_ofIndex]
  split
  · rw [nth_neg, nth_natCast]
  · rw [nth_natCast]

/-- The values grow from one place to the next. -/
theorem nth_lt_succ (i : Int) : nth i < nth (i + 1) := by
  have hstep : ∀ k : Nat, nth k < nth (k + 1) := by
    intro k
    have hnext : ((k : Int) + 1) = (k + 1 : Nat) := rfl
    rw [hnext, nth_natCast, nth_natCast, value_ofIndex_succ]
    exact lt_add_of_pos_right _ (two_zpow_pos _)
  rcases Int.le_total 0 i with hi | hi
  · obtain ⟨k, rfl⟩ := Int.eq_ofNat_of_zero_le hi
    exact hstep k
  · rcases hi.eq_or_lt with rfl | hi
    · exact hstep 0
    · obtain ⟨k, hk⟩ := Int.le.dest (Int.add_one_le_of_lt hi)
      have hi : i = -((k : Int) + 1) := by omega
      have hnext : i + 1 = -(k : Int) := by omega
      rw [hnext, hi, nth_neg, nth_neg]
      exact neg_lt_neg (hstep k)

/-- **The values are in the order of the places.** -/
theorem nth_lt_nth_iff {i j : Int} : nth i < nth j ↔ i < j :=
  (strictMono_int_of_lt_succ nth_lt_succ).lt_iff_lt

theorem nth_le_nth_iff {i j : Int} : nth i ≤ nth j ↔ i ≤ j := by
  rw [← not_lt, nth_lt_nth_iff, not_lt]

theorem nth_inj {i j : Int} : nth i = nth j ↔ i = j := by
  rw [le_antisymm_iff, nth_le_nth_iff, nth_le_nth_iff, ← le_antisymm_iff]

/-- The finite doubles are those before the infinite ones. -/
theorem isFinite_iff (x : Double) : x.isFinite = true ↔ x.index < 2047 * 2 ^ 52 := by
  have hbits : x.bits.toNat < 2 ^ 64 := x.bits.toNat_lt
  simp only [isFinite, bne_iff_ne, biased, index]
  omega

/-- There is a double at every place before the infinite ones. -/
theorem exists_value_eq_nth {i : Int} (h : i.natAbs < 2047 * 2 ^ 52) :
    ∃ z : Double, z.isFinite = true ∧ z.value = nth i := by
  let n : Nat := (if i < 0 then 2 ^ 63 else 0) + i.natAbs
  have hn : n < 2 ^ 64 := by
    simp only [n]
    split <;> omega
  let z : Double := ⟨UInt64.ofNat n⟩
  have hbits : z.bits.toNat = n := UInt64.toNat_ofNat_of_lt' hn
  have hindex : z.index = i.natAbs := by
    rw [index, hbits]
    simp only [n]
    split <;> omega
  have hsign : z.isNegative = decide (i < 0) := by
    rw [isNegative, hbits]
    simp only [n]
    split <;> simp <;> omega
  refine ⟨z, z.isFinite_iff.2 (hindex ▸ h), ?_⟩
  rw [value_eq_nth, position, hindex, hsign]
  congr 1
  simp only [decide_eq_true_eq]
  split <;> omega

/-! ## The nearest double -/

/-- The double that a number is read as: the nearest one, and of two that
are as near the one with the even significand. A number is not read as a
finite double if it is half a step or more beyond the greatest of them. -/
structure IsNearest (x : Double) (v : ℚ) : Prop where
  isFinite : x.isFinite = true
  inRange : |v| < (2 ^ 53 - 1 / 2) * 2 ^ 971
  nearest : ∀ y : Double, y.isFinite = true → |v - x.value| ≤ |v - y.value|
  even : ∀ y : Double, y.isFinite = true → y.value ≠ x.value → |v - y.value| = |v - x.value| →
    x.magnitude.m % 2 = 0

theorem natAbs_position (x : Double) : x.position.natAbs = x.index := by
  unfold position
  split <;> simp

/-- A significand is even where the place is. -/
theorem magnitude_m_mod_two (x : Double) : x.magnitude.m % 2 = x.position.natAbs % 2 := by
  rw [magnitude_eq_ofIndex, ofIndex_m_mod_two, natAbs_position]

/-- The greatest finite double, and the place behind it. -/
theorem nth_last :
    nth (2047 * 2 ^ 52 - 1) = (2 ^ 53 - 1) * 2 ^ 971 ∧ nth (2047 * 2 ^ 52) = 2 ^ 53 * 2 ^ 971 := by
  have hlast : ofIndex (2047 * 2 ^ 52 - 1) = ⟨2 ^ 53 - 1, 971, false⟩ := by decide
  have hbehind : ofIndex (2047 * 2 ^ 52) = ⟨2 ^ 52, 971 + 1, true⟩ := by decide
  constructor
  · refine (nth_natCast (2047 * 2 ^ 52 - 1)).trans ?_
    rw [hlast, Magnitude.value, zpow_ofNat]
    norm_num
  · refine (nth_natCast (2047 * 2 ^ 52)).trans ?_
    rw [hbehind, Magnitude.value, zpow_add_one₀ (by norm_num), zpow_ofNat]
    generalize (2 : ℚ) ^ 971 = top
    norm_num
    ring

/-- What is in range is not half way behind the greatest finite double. -/
theorem middle_of_inRange {i : Int} (hv : |v| < (2 ^ 53 - 1 / 2) * 2 ^ 971) :
    (2047 * 2 ^ 52 - 1 ≤ i → 2 * v < nth i + nth (i + 1)) ∧
      (i ≤ -(2047 * 2 ^ 52) → nth i + nth (i + 1) < 2 * v) := by
  obtain ⟨hlast, hbehind⟩ := nth_last
  obtain ⟨hlow, hhigh⟩ := abs_lt.1 hv
  generalize (2 : ℚ) ^ 971 = top at *
  constructor
  · intro hi
    have hfirst : nth (2047 * 2 ^ 52 - 1) ≤ nth i := nth_le_nth_iff.2 hi
    have hsecond : nth (2047 * 2 ^ 52) ≤ nth (i + 1) := nth_le_nth_iff.2 (by omega)
    linarith
  · intro hi
    have hfirst : nth i ≤ nth (-(2047 * 2 ^ 52)) := nth_le_nth_iff.2 hi
    have hsecond : nth (i + 1) ≤ nth (-(2047 * 2 ^ 52 - 1)) := nth_le_nth_iff.2 (by omega)
    rw [nth_neg] at hfirst hsecond
    linarith

/-- **What a double is nearest to** lies between the middles of the distances
to both neighbours, or on them if the significand is even. -/
theorem IsNearest.between (h : x.IsNearest v) :
    nth (x.position - 1) + x.value ≤ 2 * v ∧ 2 * v ≤ x.value + nth (x.position + 1) ∧
      (nth (x.position - 1) + x.value = 2 * v ∨ 2 * v = x.value + nth (x.position + 1) →
        x.magnitude.m % 2 = 0) := by
  have hplace := x.isFinite_iff.1 h.isFinite
  rw [← natAbs_position] at hplace
  have hvalue := value_eq_nth x
  have hbelow : nth (x.position - 1) + x.value ≤ 2 * v ∧
      (nth (x.position - 1) + x.value = 2 * v → x.magnitude.m % 2 = 0) := by
    have hlt : nth (x.position - 1) < x.value := hvalue ▸ nth_lt_nth_iff.2 (by omega)
    by_cases hin : (x.position - 1).natAbs < 2047 * 2 ^ 52
    · obtain ⟨z, hz, hbeside⟩ := exists_value_eq_nth hin
      rw [← hbeside] at hlt ⊢
      refine ⟨not_lt.1 fun hfar => ?_, fun htie => h.even z hz hlt.ne ?_⟩
      · refine absurd (h.nearest z hz) (not_le.2 (lt_of_lt_of_le ?_ (neg_le_abs (v - x.value))))
        exact abs_lt.2 ⟨by linarith, by linarith⟩
      · rw [abs_of_nonneg (by linarith), abs_of_nonpos (by linarith)]
        linarith
    · have hmiddle := (middle_of_inRange (i := x.position - 1) h.inRange).2 (by omega)
      rw [sub_add_cancel, ← hvalue] at hmiddle
      exact ⟨hmiddle.le, fun htie => absurd htie hmiddle.ne⟩
  have habove : 2 * v ≤ x.value + nth (x.position + 1) ∧
      (2 * v = x.value + nth (x.position + 1) → x.magnitude.m % 2 = 0) := by
    have hlt : x.value < nth (x.position + 1) := hvalue ▸ nth_lt_nth_iff.2 (by omega)
    by_cases hin : (x.position + 1).natAbs < 2047 * 2 ^ 52
    · obtain ⟨z, hz, hbeside⟩ := exists_value_eq_nth hin
      rw [← hbeside] at hlt ⊢
      refine ⟨not_lt.1 fun hfar => ?_, fun htie => h.even z hz hlt.ne' ?_⟩
      · refine absurd (h.nearest z hz) (not_le.2 (lt_of_lt_of_le ?_ (le_abs_self (v - x.value))))
        exact abs_lt.2 ⟨by linarith, by linarith⟩
      · rw [abs_of_nonpos (by linarith), abs_of_nonneg (by linarith)]
        linarith
    · have hmiddle := (middle_of_inRange (i := x.position) h.inRange).1 (by omega)
      rw [← hvalue] at hmiddle
      exact ⟨hmiddle.le, fun htie => absurd htie hmiddle.ne⟩
  exact ⟨hbelow.1, habove.1, fun htie => htie.elim hbelow.2 habove.2⟩

/-- **Two doubles are not both the nearest.** They would have to be
neighbours, and one of them has an odd significand. -/
theorem IsNearest.value_eq (hx : x.IsNearest v) (hy : y.IsNearest v) : x.value = y.value := by
  by_contra hne
  wlog hlt : x.value < y.value generalizing x y with hsymm
  · exact hsymm hy hx (Ne.symm hne) (lt_of_le_of_ne (not_lt.1 hlt) (Ne.symm hne))
  obtain ⟨-, hhigh, hxeven⟩ := hx.between
  obtain ⟨hlow, -, hyeven⟩ := hy.between
  rw [value_eq_nth x, value_eq_nth y] at *
  have hplaces : x.position < y.position := nth_lt_nth_iff.1 hlt
  have hxy : nth x.position ≤ nth (y.position - 1) := nth_le_nth_iff.2 (by omega)
  have hyx : nth (x.position + 1) ≤ nth y.position := nth_le_nth_iff.2 (by omega)
  have hnext : x.position + 1 = y.position := nth_inj.1 (by linarith)
  have hxm := hxeven (.inr (by linarith))
  have hym := hyeven (.inl (by linarith))
  rw [magnitude_m_mod_two] at hxm hym
  omega

/-- **A double below a number** is not above what is nearest to it. -/
theorem IsNearest.le_value (h : x.IsNearest v) (hy : y.isFinite = true) (hle : y.value ≤ v) :
    y.value ≤ x.value := by
  refine not_lt.1 fun hlt => absurd (h.nearest y hy) (not_le.2 ?_)
  rw [abs_of_nonneg (by linarith), abs_of_nonneg (by linarith)]
  linarith

/-- And one above a number is not below it. -/
theorem IsNearest.value_le (h : x.IsNearest v) (hy : y.isFinite = true) (hle : v ≤ y.value) :
    x.value ≤ y.value := by
  refine not_lt.1 fun hlt => absurd (h.nearest y hy) (not_le.2 ?_)
  rw [abs_of_nonpos (by linarith), abs_of_nonpos (by linarith)]
  linarith

theorem isZero_iff (x : Double) : x.isZero = true ↔ x.index = 0 := by
  simp only [isZero, Bool.and_eq_true, beq_iff_eq, biased, fraction, index]
  omega

/-- The value tells doubles apart, but for the two zeros. -/
theorem value_inj : x.value = y.value ↔ x = y ∨ x.isZero = true ∧ y.isZero = true := by
  rw [value_eq_nth, value_eq_nth, nth_inj, isZero_iff, isZero_iff]
  have hbits : x.bits.toNat = y.bits.toNat ↔ x = y := by
    rw [UInt64.toNat_inj]
    cases x
    cases y
    simp
  have hx : x.bits.toNat < 2 ^ 64 := x.bits.toNat_lt
  have hy : y.bits.toNat < 2 ^ 64 := y.bits.toNat_lt
  rw [← hbits]
  simp only [position, index, isNegative, decide_eq_true_eq]
  split <;> split <;> omega

/-- What lies between the middles of the distances to both neighbours, or
on them if the significand is even, is nearest. -/
theorem isNearest_of_between (hx : x.isFinite = true) (hv : |v| < (2 ^ 53 - 1 / 2) * 2 ^ 971)
    (hlow : nth (x.position - 1) + x.value ≤ 2 * v) (hhigh : 2 * v ≤ x.value + nth (x.position + 1))
    (heven : nth (x.position - 1) + x.value = 2 * v ∨ 2 * v = x.value + nth (x.position + 1) →
      x.magnitude.m % 2 = 0) : x.IsNearest v := by
  have hplaces : ∀ y : Double, y.value ≠ x.value →
      y.value ≤ nth (x.position - 1) ∧ y.value < x.value ∨
        nth (x.position + 1) ≤ y.value ∧ x.value < y.value := by
    intro y hy
    rw [value_eq_nth y, value_eq_nth x] at hy ⊢
    rcases Int.lt_trichotomy y.position x.position with h | h | h
    · exact .inl ⟨nth_le_nth_iff.2 (by omega), nth_lt_nth_iff.2 h⟩
    · exact absurd (congrArg nth h) hy
    · exact .inr ⟨nth_le_nth_iff.2 (by omega), nth_lt_nth_iff.2 h⟩
  refine ⟨hx, hv, fun y _ => ?_, fun y _ hy htie => ?_⟩
  · by_cases hy : y.value = x.value
    · rw [hy]
    · rcases hplaces y hy with ⟨h, hlt⟩ | ⟨h, hlt⟩
      · refine abs_le.2 ⟨?_, ?_⟩ <;> have := le_abs_self (v - y.value) <;> linarith
      · refine abs_le.2 ⟨?_, ?_⟩ <;> have := neg_le_abs (v - y.value) <;> linarith
  · have hmiddle : v - y.value = x.value - v := by
      rcases abs_eq_abs.1 htie with h | h
      · exact absurd (sub_right_injective h) hy
      · rw [h, neg_sub]
    rcases hplaces y hy with ⟨h, -⟩ | ⟨h, -⟩
    · exact heven (.inl (by linarith))
    · exact heven (.inr (by linarith))

/-- **Every number in range has a nearest double.** -/
theorem exists_isNearest (hv : |v| < (2 ^ 53 - 1 / 2) * 2 ^ 971) : ∃ x : Double, x.IsNearest v := by
  obtain ⟨hlast, hbehind⟩ := nth_last
  obtain ⟨hlow, hhigh⟩ := abs_lt.1 hv
  have hsides : nth (-(2047 * 2 ^ 52)) ≤ v ∧ v < nth (2047 * 2 ^ 52) := by
    rw [nth_neg]
    generalize (2 : ℚ) ^ 971 = top at *
    constructor <;> linarith
  obtain ⟨i, hi, hgreatest⟩ : ∃ i, nth i ≤ v ∧ ∀ k, nth k ≤ v → k ≤ i :=
    Int.exists_greatest_of_bdd
      ⟨2047 * 2 ^ 52, fun k hk => (nth_lt_nth_iff.1 (hk.trans_lt hsides.2)).le⟩ ⟨_, hsides.1⟩
  have hnext : v < nth (i + 1) := not_le.1 fun hle => absurd (hgreatest _ hle) (by omega)
  have hbelow : i < 2047 * 2 ^ 52 := nth_lt_nth_iff.1 (hi.trans_lt hsides.2)
  have habove : -(2047 * 2 ^ 52) < i + 1 := nth_lt_nth_iff.1 (hsides.1.trans_lt hnext)
  -- The double at one of the two places, if it is not behind the last.
  have hat : ∀ k : Int, k.natAbs < 2047 * 2 ^ 52 → nth (k - 1) + nth k ≤ 2 * v →
      2 * v ≤ nth k + nth (k + 1) →
      (nth (k - 1) + nth k = 2 * v ∨ 2 * v = nth k + nth (k + 1) → k.natAbs % 2 = 0) →
      ∃ x : Double, x.IsNearest v := by
    intro k hk hlow hhigh heven
    obtain ⟨x, hx, hvalue⟩ := exists_value_eq_nth hk
    obtain rfl : x.position = k := nth_inj.1 ((value_eq_nth x).symm.trans hvalue)
    rw [← hvalue] at hlow hhigh heven
    rw [← magnitude_m_mod_two] at heven
    exact ⟨x, isNearest_of_between hx hv hlow hhigh heven⟩
  obtain ⟨hmiddle, hmiddle'⟩ := middle_of_inRange (i := i) hv
  have hdown : nth (i - 1) < nth i := nth_lt_nth_iff.2 (by omega)
  have hup : nth (i + 1) < nth (i + 1 + 1) := nth_lt_succ _
  have hlower : nth (i - 1) + nth i < 2 * v := by linarith
  have hupper : 2 * v < nth (i + 1) + nth (i + 1 + 1) := by linarith
  rcases lt_trichotomy (2 * v) (nth i + nth (i + 1)) with hlt | heq | hgt
  · have hfirst : -(2047 * 2 ^ 52) < i := not_le.1 fun hle => absurd (hmiddle' hle) hlt.not_gt
    exact hat i (by omega) hlower.le hlt.le fun htie =>
      absurd htie (by simp only [hlower.ne, hlt.ne, or_self, not_false_iff])
  · have hfirst : -(2047 * 2 ^ 52) < i := not_le.1 fun hle => absurd heq (hmiddle' hle).ne'
    have hsecond : i < 2047 * 2 ^ 52 - 1 := not_le.1 fun hle => absurd heq (hmiddle hle).ne
    rcases Nat.mod_two_eq_zero_or_one i.natAbs with heven | hodd
    · exact hat i (by omega) hlower.le heq.le fun _ => heven
    · refine hat (i + 1) (by omega) ?_ hupper.le fun _ => by omega
      rw [add_sub_cancel_right]
      exact heq.ge
  · have hsecond : i < 2047 * 2 ^ 52 - 1 := not_le.1 fun hle => absurd (hmiddle hle) hgt.not_gt
    have hlower : nth (i + 1 - 1) + nth (i + 1) < 2 * v := by rwa [add_sub_cancel_right]
    exact hat (i + 1) (by omega) hlower.le hupper.le fun htie =>
      absurd htie (by simp only [hlower.ne, hupper.ne, or_self, not_false_iff])

end Double

/-! ## The shortest decimal -/

namespace Double

open Magnitude

variable {x y : Double} {v : ℚ} {d : Nat} {s : Int}

/-- Half a step beyond a double is not beyond the greatest, and only with an
odd significand is it as far. -/
theorem half_step_le (hx : x.isFinite = true) :
    x.magnitude.value + 2 ^ x.magnitude.q / 2 ≤ (2 ^ 53 - 1 / 2) * 2 ^ 971 ∧
      (x.magnitude.m % 2 = 0 →
        x.magnitude.value + 2 ^ x.magnitude.q / 2 < (2 ^ 53 - 1 / 2) * 2 ^ 971) := by
  have hq : x.magnitude.q ≤ (971 : ℕ) := by
    have hbiased : x.biased ≤ 2046 := by
      have hlt : x.biased < 2048 := Nat.mod_lt _ (by decide)
      have hne : x.biased ≠ 2047 := by simpa [isFinite] using hx
      omega
    unfold magnitude
    split <;> dsimp only <;> omega
  have htwo : (2 : ℚ) ^ x.magnitude.q ≤ 2 ^ 971 := by
    rw [← zpow_natCast]
    exact zpow_le_zpow_right₀ (by norm_num) hq
  have hpos : (0 : ℚ) < 2 ^ 971 := by positivity
  have hlt := x.magnitude_lt
  generalize (2 : ℚ) ^ 971 = top at *
  have hscaled : x.magnitude.value + 2 ^ x.magnitude.q / 2 ≤ (x.magnitude.m + 1 / 2) * top := by
    calc x.magnitude.value + 2 ^ x.magnitude.q / 2
        = (x.magnitude.m + 1 / 2) * 2 ^ x.magnitude.q := by rw [Magnitude.value]; ring
      _ ≤ (x.magnitude.m + 1 / 2) * top := mul_le_mul_of_nonneg_left htwo (by positivity)
  constructor
  · refine hscaled.trans (mul_le_mul_of_nonneg_right ?_ hpos.le)
    have hm : (x.magnitude.m : ℚ) + 1 ≤ 2 ^ 53 := by exact_mod_cast hlt
    linarith
  · intro heven
    refine hscaled.trans_lt (mul_lt_mul_of_pos_right ?_ hpos)
    have hm : x.magnitude.m + 2 ≤ 2 ^ 53 := by omega
    have hm : (x.magnitude.m : ℚ) + 2 ≤ 2 ^ 53 := by exact_mod_cast hm
    linarith

/-- The places next to that of a magnitude that is not zero. -/
theorem nth_beside_index (hzero : x.isZero = false) :
    nth (x.index - 1) = x.magnitude.value - x.magnitude.gapBelow ∧
      nth (x.index + 1) = x.magnitude.value + 2 ^ x.magnitude.q := by
  obtain ⟨k, hk⟩ : ∃ k, x.index = k + 1 := by
    refine Nat.exists_eq_succ_of_ne_zero fun hindex => ?_
    rw [x.isZero_iff.2 hindex] at hzero
    cases hzero
  have hbelow : ((k + 1 : Nat) : Int) - 1 = (k : Nat) := by omega
  have habove : ((k + 1 : Nat) : Int) + 1 = (k + 2 : Nat) := by omega
  rw [magnitude_eq_ofIndex, hk, hbelow, habove, nth_natCast, nth_natCast, gapBelow_ofIndex_succ,
    ← value_ofIndex_succ, value_ofIndex_succ k, add_sub_cancel_right]
  exact ⟨rfl, rfl⟩

/-- **The neighbours of a double** that is not zero: the one towards zero may
be nearer than the one away from it. -/
theorem neighbours (hzero : x.isZero = false) :
    (x.isNegative = false ∧ x.value = x.magnitude.value ∧
        nth (x.position - 1) = x.magnitude.value - x.magnitude.gapBelow ∧
        nth (x.position + 1) = x.magnitude.value + 2 ^ x.magnitude.q) ∨
      x.isNegative = true ∧ x.value = -x.magnitude.value ∧
        nth (x.position - 1) = -(x.magnitude.value + 2 ^ x.magnitude.q) ∧
        nth (x.position + 1) = -(x.magnitude.value - x.magnitude.gapBelow) := by
  obtain ⟨hbelow, habove⟩ := nth_beside_index hzero
  cases hneg : x.isNegative with
  | false =>
    have hposition : x.position = x.index := by simp [position, hneg]
    rw [hposition]
    exact .inl ⟨rfl, by simp [value, hneg], hbelow, habove⟩
  | true =>
    have hdown : x.position - 1 = -(x.index + 1 : Int) := by
      simp only [position, hneg, if_true]
      omega
    have hup : x.position + 1 = -(x.index - 1 : Int) := by
      simp only [position, hneg, if_true]
      omega
    rw [hdown, hup, nth_neg, nth_neg, hbelow, habove]
    exact .inr ⟨rfl, by simp [value, hneg], rfl, rfl⟩

/-- **What reads back is read as the double**, with its sign. -/
theorem isNearest_of_readsBack (hx : x.isFinite = true) (hzero : x.isZero = false)
    (h : x.magnitude.readsBack d s = true) :
    x.IsNearest (if x.isNegative then -(d * 10 ^ s) else d * 10 ^ s) := by
  have hrange := half_step_le hx
  have hw : (0 : ℚ) ≤ d * 10 ^ s := mul_nonneg (Nat.cast_nonneg d) (ten_zpow_pos s).le
  have hin := between_of_readsBack (wellFormed hzero) h
  have heven := even_of_readsBack (wellFormed hzero) h
  generalize (d : ℚ) * 10 ^ s = w at *
  have hlt : w < (2 ^ 53 - 1 / 2) * 2 ^ 971 := by
    rcases hin.2.lt_or_eq with hin | hend
    · exact hin.trans_le hrange.1
    · exact hend.trans_lt (hrange.2 (heven (.inr hend)))
  rcases neighbours hzero with ⟨hneg, hvalue, hbelow, habove⟩ | ⟨hneg, hvalue, hbelow, habove⟩
  · simp only [hneg, Bool.false_eq_true, if_false]
    refine isNearest_of_between hx ?_ ?_ ?_ ?_
    · rwa [abs_of_nonneg hw]
    · rw [hbelow, hvalue]
      linarith
    · rw [habove, hvalue]
      linarith
    · rw [hbelow, habove, hvalue]
      rintro (htie | htie)
      · exact heven (.inl (by linarith))
      · exact heven (.inr (by linarith))
  · simp only [hneg, if_true]
    refine isNearest_of_between hx ?_ ?_ ?_ ?_
    · rwa [abs_neg, abs_of_nonneg hw]
    · rw [hbelow, hvalue]
      linarith
    · rw [habove, hvalue]
      linarith
    · rw [hbelow, habove, hvalue]
      rintro (htie | htie)
      · exact heven (.inr (by linarith))
      · exact heven (.inl (by linarith))

/-- **Only what reads back** is read as the double. -/
theorem readsBack_of_isNearest (hzero : x.isZero = false)
    (h : x.IsNearest (if x.isNegative then -(d * 10 ^ s) else d * 10 ^ s)) :
    x.magnitude.readsBack d s = true := by
  obtain ⟨hlow, hhigh, heven⟩ := h.between
  generalize hw : (d : ℚ) * 10 ^ s = w at *
  have hin : x.magnitude.value - x.magnitude.gapBelow / 2 ≤ w ∧
      w ≤ x.magnitude.value + 2 ^ x.magnitude.q / 2 ∧
      (x.magnitude.value - x.magnitude.gapBelow / 2 = w ∨
        w = x.magnitude.value + 2 ^ x.magnitude.q / 2 → x.magnitude.m % 2 = 0) := by
    rcases neighbours hzero with ⟨hneg, hvalue, hbelow, habove⟩ | ⟨hneg, hvalue, hbelow, habove⟩
    · simp only [hneg, Bool.false_eq_true, if_false, hbelow, habove, hvalue] at hlow hhigh heven
      refine ⟨by linarith, by linarith, ?_⟩
      rintro (htie | htie)
      · exact heven (.inl (by linarith))
      · exact heven (.inr (by linarith))
    · simp only [hneg, if_true, hbelow, habove, hvalue] at hlow hhigh heven
      refine ⟨by linarith, by linarith, ?_⟩
      rintro (htie | htie)
      · exact heven (.inr (by linarith))
      · exact heven (.inl (by linarith))
  rw [readsBack_iff (wellFormed hzero), hw]
  split
  · exact ⟨hin.1, hin.2.1⟩
  · rename_i hodd
    exact ⟨lt_of_le_of_ne hin.1 fun htie => hodd (hin.2.2 (.inl htie)),
      lt_of_le_of_ne hin.2.1 fun htie => hodd (hin.2.2 (.inr htie))⟩

/-- Every finite double is the nearest to its value. -/
theorem isNearest_value (hx : x.isFinite = true) : x.IsNearest x.value := by
  refine ⟨hx, ?_, fun y _ => ?_, fun y _ hy htie => absurd ?_ hy⟩
  · have hstep : 0 < (2 : ℚ) ^ x.magnitude.q / 2 := half_pos (two_zpow_pos _)
    rw [abs_value]
    exact (lt_add_of_pos_right _ hstep).trans_le (half_step_le hx).1
  · rw [sub_self, abs_zero]
    exact abs_nonneg _
  · rw [sub_self, abs_zero, abs_eq_zero, sub_eq_zero] at htie
    exact htie.symm

/-- **What a number is read as**, once one double is known to be the nearest:
that double and, if it is zero, the other zero. -/
theorem IsNearest.iff (h : x.IsNearest v) :
    y.IsNearest v ↔ y = x ∨ y.isZero = true ∧ x.isZero = true := by
  refine ⟨fun hy => value_inj.1 (hy.value_eq h), ?_⟩
  rintro (rfl | ⟨hy, hx⟩)
  · exact h
  · have hvalue : y.value = x.value := value_inj.2 (.inr ⟨hy, hx⟩)
    have hmagnitude : y.magnitude = x.magnitude := by
      rw [magnitude_eq_ofIndex, magnitude_eq_ofIndex, y.isZero_iff.1 hy, x.isZero_iff.1 hx]
    have hfinite : y.isFinite = true := by
      rw [isFinite_iff, y.isZero_iff.1 hy]
      decide
    refine ⟨hfinite, h.inRange, ?_, ?_⟩
    · rw [hvalue]
      exact h.nearest
    · rw [hvalue, hmagnitude]
      exact h.even

/-- **The shortest decimal is read as the double** that it is written for. -/
theorem isNearest_shortest (hx : x.isFinite = true) (hzero : x.isZero = false) :
    x.IsNearest (if x.isNegative then -x.magnitude.shortest.value
      else x.magnitude.shortest.value) :=
  isNearest_of_readsBack hx hzero (readsBack_shortest (wellFormed hzero))

end Double

end Splice
