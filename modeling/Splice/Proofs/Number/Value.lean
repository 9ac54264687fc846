import Splice.Proofs.Number.Digits
import Mathlib.Algebra.Order.Field.Power
import Mathlib.Tactic.Positivity
import Mathlib.Tactic.Linarith
import Mathlib.Tactic.Ring
/-!
# Number — the values behind the digits

The magnitude of a double and the decimal that is written for it are
rationals, `m * 2 ^ q` and `digits * 10 ^ scale`. What the search for the
shortest decimal compares are these two, times a number that makes whole
numbers of them (`Magnitude.exists_scale`). So a decimal that reads back is
in the interval that ends half way to the neighbours of the double
(`Magnitude.readsBack_iff`), and seventeen digits are enough for that
(`Magnitude.readsBack_withAllDigits`): they are a grid finer than the row
of the doubles, whose significands are below `2 ^ 53`.

A whole number that near to a double is the double itself, as long as the
double is no multiple of a greater power of two (`Magnitude.eq_of_dist_le`).
So the decimal of a value that is not whole is not whole either
(`Magnitude.value_eq_of_shortest`). The decimal of a whole value is whole
(`Magnitude.exists_shortest_value_of_whole`), and below `2 ^ 53` it is that
value (`Magnitude.shortest_value_of_whole`).
-/

namespace Splice

namespace Magnitude

variable (x : Magnitude)

/-- The value of a magnitude. -/
def value : ℚ := x.m * 2 ^ x.q

/-- The distance to the next double below. -/
def gapBelow : ℚ := if x.narrow then 2 ^ x.q / 2 else 2 ^ x.q

/-- This is the magnitude of a double that is not zero. -/
structure WellFormed : Prop where
  pos : 0 < x.m
  lt : x.m < 2 ^ 53
  exponent : -1074 ≤ x.q
  /-- Only the first of the doubles with an exponent is nearer to the one below. -/
  narrow : x.narrow = true → x.m = 2 ^ 52

end Magnitude

/-- The value of a decimal. -/
def Decimal.value (d : Decimal) : ℚ := d.digits * 10 ^ d.scale

namespace Magnitude

variable {x : Magnitude} {d n : Nat} {s : Int}

theorem two_zpow_pos (q : Int) : (0 : ℚ) < 2 ^ q := by positivity

theorem ten_zpow_pos (s : Int) : (0 : ℚ) < 10 ^ s := by positivity

theorem gapBelow_pos (x : Magnitude) : 0 < x.gapBelow := by
  have htwo := two_zpow_pos x.q
  unfold gapBelow
  split <;> linarith

theorem gapBelow_le (x : Magnitude) : x.gapBelow ≤ 2 ^ x.q := by
  have htwo := two_zpow_pos x.q
  unfold gapBelow
  split <;> linarith

/-- A power with the part that makes it a fraction taken out. -/
theorem zpow_mul_toNat {b : ℚ} (hb : b ≠ 0) (s : Int) : b ^ s * b ^ (-s).toNat = b ^ s.toNat := by
  rw [← zpow_natCast, ← zpow_natCast, ← zpow_add₀ hb]
  congr 1
  omega

/-- **Counts of `2 ^ q` and of `10 ^ s` are compared as whole numbers**,
both being multiplied by the same. -/
theorem exists_scale (x : Magnitude) (s : Int) :
    ∃ k : ℚ, 0 < k ∧ 10 ^ s * k = x.tenSide s ∧ 2 ^ x.q * k = x.twoSide s := by
  have hten : (10 : ℚ) ^ s * 10 ^ (-s).toNat = 10 ^ s.toNat := zpow_mul_toNat (by norm_num) s
  have htwo : (2 : ℚ) ^ x.q * 2 ^ (-x.q).toNat = 2 ^ x.q.toNat := zpow_mul_toNat (by norm_num) x.q
  refine ⟨10 ^ (-s).toNat * 2 ^ (-x.q).toNat, by positivity, ?_, ?_⟩
  · rw [tenSide, Nat.cast_mul, Nat.cast_pow, Nat.cast_pow, ← mul_assoc, hten]
    rfl
  · rw [twoSide, Nat.cast_mul, Nat.cast_pow, Nat.cast_pow, mul_left_comm, htwo, mul_comm]
    rfl

/-- What reads back lies in the interval that ends half way to both
neighbours. The ends belong to it if the significand is even. -/
theorem readsBack_iff (hx : x.WellFormed) : x.readsBack d s = true ↔
    if x.m % 2 = 0 then x.value - x.gapBelow / 2 ≤ d * 10 ^ s ∧ d * 10 ^ s ≤ x.value + 2 ^ x.q / 2
    else x.value - x.gapBelow / 2 < d * 10 ^ s ∧ d * 10 ^ s < x.value + 2 ^ x.q / 2 := by
  have hm := hx.pos
  obtain ⟨k, hk, hten, htwo⟩ := x.exists_scale s
  have hpos : 0 < 4 * k := by linarith
  have hpoint : ((4 * d * x.tenSide s : ℕ) : ℚ) = d * 10 ^ s * (4 * k) := by
    push_cast
    rw [← hten]
    ring
  have hlow : (((4 * x.m - if x.narrow then 1 else 2) * x.twoSide s : ℕ) : ℚ) =
      (x.value - x.gapBelow / 2) * (4 * k) := by
    have hle : (if x.narrow then 1 else 2) ≤ 4 * x.m := by
      split <;> omega
    rw [Nat.cast_mul, Nat.cast_sub hle, ← htwo, value, gapBelow]
    split <;> push_cast <;> ring
  have hhigh : (((4 * x.m + 2) * x.twoSide s : ℕ) : ℚ) = (x.value + 2 ^ x.q / 2) * (4 * k) := by
    push_cast
    rw [← htwo, value]
    ring
  simp only [readsBack]
  split
  · rw [Bool.and_eq_true, decide_eq_true_eq, decide_eq_true_eq,
      ← Nat.cast_le (α := ℚ), ← Nat.cast_le (α := ℚ), hpoint, hlow, hhigh,
      mul_le_mul_iff_left₀ hpos, mul_le_mul_iff_left₀ hpos]
  · rw [Bool.and_eq_true, decide_eq_true_eq, decide_eq_true_eq,
      ← Nat.cast_lt (α := ℚ), ← Nat.cast_lt (α := ℚ), hpoint, hlow, hhigh,
      mul_lt_mul_iff_left₀ hpos, mul_lt_mul_iff_left₀ hpos]

/-- What reads back is in the interval or at its ends. -/
theorem between_of_readsBack (hx : x.WellFormed) (h : x.readsBack d s = true) :
    x.value - x.gapBelow / 2 ≤ d * 10 ^ s ∧ d * 10 ^ s ≤ x.value + 2 ^ x.q / 2 := by
  rw [readsBack_iff hx] at h
  split at h
  · exact h
  · exact ⟨h.1.le, h.2.le⟩

/-- And at an end, the significand is even. -/
theorem even_of_readsBack (hx : x.WellFormed) (h : x.readsBack d s = true)
    (hend : x.value - x.gapBelow / 2 = d * 10 ^ s ∨ d * 10 ^ s = x.value + 2 ^ x.q / 2) :
    x.m % 2 = 0 := by
  by_contra hodd
  rw [readsBack_iff hx, if_neg hodd] at h
  rcases hend with hend | hend
  · exact absurd hend h.1.ne
  · exact absurd hend h.2.ne

/-- What is in the interval, and not at its ends, reads back. -/
theorem readsBack_of_between (hx : x.WellFormed) (hlow : x.value - x.gapBelow / 2 < d * 10 ^ s)
    (hhigh : d * 10 ^ s < x.value + 2 ^ x.q / 2) : x.readsBack d s = true := by
  rw [readsBack_iff hx]
  split
  · exact ⟨hlow.le, hhigh.le⟩
  · exact ⟨hlow, hhigh⟩

/-- **A decimal that reads back** is within half the distance to the next
double. -/
theorem dist_le_of_readsBack (hx : x.WellFormed) (h : x.readsBack d s = true) :
    |d * 10 ^ s - x.value| ≤ 2 ^ x.q / 2 := by
  obtain ⟨hlow, hhigh⟩ := between_of_readsBack hx h
  have hgap := x.gapBelow_le
  exact abs_le.2 ⟨by linarith, by linarith⟩

/-- What equals the value reads back. -/
theorem readsBack_of_value (hx : x.WellFormed) (h : d * 10 ^ s = x.value) :
    x.readsBack d s = true := by
  have hgap := x.gapBelow_pos
  have htwo := two_zpow_pos x.q
  exact readsBack_of_between hx (by linarith) (by linarith)

/-- The value lies between two neighbours of the grid of `10 ^ s`. -/
theorem below_spec (x : Magnitude) (s : Int) :
    x.below s * 10 ^ s ≤ x.value ∧ x.value < (x.below s + 1) * 10 ^ s := by
  obtain ⟨k, hk, hten, htwo⟩ := x.exists_scale s
  have hpos : 0 < x.tenSide s := Nat.mul_pos (Nat.pow_pos (by decide)) (Nat.pow_pos (by decide))
  have hle : x.below s * x.tenSide s ≤ x.m * x.twoSide s := Nat.div_mul_le_self _ _
  have hlt : x.m * x.twoSide s < (x.below s + 1) * x.tenSide s := by
    rw [below, Nat.mul_comm _ (x.tenSide s)]
    exact Nat.lt_mul_div_succ _ hpos
  have hle : (x.below s : ℚ) * x.tenSide s ≤ x.m * x.twoSide s := by exact_mod_cast hle
  have hlt : (x.m : ℚ) * x.twoSide s < (x.below s + 1) * x.tenSide s := by exact_mod_cast hlt
  rw [← hten, ← htwo] at hle hlt
  rw [value]
  constructor
  · refine le_of_mul_le_mul_right ?_ hk
    linarith
  · refine lt_of_mul_lt_mul_right ?_ hk.le
    linarith

/-- Of two neighbours on the grid, the nearer one is within half its mesh. -/
theorem dist_nearer_le (hle : d * 10 ^ s ≤ x.value) (hlt : x.value < (d + 1) * 10 ^ s) :
    |x.nearer d s * 10 ^ s - x.value| ≤ 10 ^ s / 2 := by
  obtain ⟨k, hk, hten, htwo⟩ := x.exists_scale s
  have hside : (2 * x.m * x.twoSide s : ℚ) = 2 * x.value * k := by
    rw [← htwo, value]
    ring
  have hmiddle : ((2 * d + 1) * x.tenSide s : ℚ) = (2 * d + 1) * 10 ^ s * k := by
    rw [← hten]
    ring
  have hdown : (2 * x.m * x.twoSide s : ℕ) ≤ (2 * d + 1) * x.tenSide s →
      |d * 10 ^ s - x.value| ≤ 10 ^ s / 2 := by
    intro h
    have h : (2 * x.m * x.twoSide s : ℚ) ≤ (2 * d + 1) * x.tenSide s := by exact_mod_cast h
    rw [hside, hmiddle] at h
    have h := le_of_mul_le_mul_right h hk
    rw [abs_le]
    constructor <;> linarith
  have hup : ((2 * d + 1) * x.tenSide s : ℕ) ≤ 2 * x.m * x.twoSide s →
      |(d + 1 : ℕ) * 10 ^ s - x.value| ≤ 10 ^ s / 2 := by
    intro h
    have h : ((2 * d + 1) * x.tenSide s : ℚ) ≤ 2 * x.m * x.twoSide s := by exact_mod_cast h
    rw [hside, hmiddle] at h
    have h := le_of_mul_le_mul_right h hk
    rw [abs_le]
    push_cast
    constructor <;> linarith
  simp only [nearer]
  split_ifs with h₁ h₂ h₃
  · exact hdown h₁.le
  · exact hup h₂.le
  · exact hdown (Nat.not_lt.1 h₂)
  · exact hup (Nat.not_lt.1 h₁)

/-! ## The place of the point -/

/-- The value times `10 ^ 400`, without what is after the point. -/
theorem shifted_spec (x : Magnitude) :
    ((x.m * 2 ^ x.q.toNat * 10 ^ 400 / 2 ^ (-x.q).toNat : ℕ) : ℚ) ≤ x.value * 10 ^ 400 ∧
      x.value * 10 ^ 400 < (x.m * 2 ^ x.q.toNat * 10 ^ 400 / 2 ^ (-x.q).toNat : ℕ) + 1 := by
  have htwo : (2 : ℚ) ^ x.q * 2 ^ (-x.q).toNat = 2 ^ x.q.toNat := zpow_mul_toNat (by norm_num) x.q
  have hpos : 0 < 2 ^ (-x.q).toNat := Nat.pow_pos (by decide)
  generalize hn : x.m * 2 ^ x.q.toNat * 10 ^ 400 = n
  have hvalue : x.value * 10 ^ 400 * 2 ^ (-x.q).toNat = n := by
    rw [← hn, value, mul_right_comm, mul_assoc (x.m : ℚ), htwo]
    simp only [Nat.cast_mul, Nat.cast_pow, Nat.cast_ofNat]
  have hle : n / 2 ^ (-x.q).toNat * 2 ^ (-x.q).toNat ≤ n := Nat.div_mul_le_self _ _
  have hlt : n < (n / 2 ^ (-x.q).toNat + 1) * 2 ^ (-x.q).toNat := by
    rw [Nat.mul_comm]
    exact Nat.lt_mul_div_succ _ hpos
  generalize n / 2 ^ (-x.q).toNat = l at hle hlt
  have hle : (l : ℚ) * 2 ^ (-x.q).toNat ≤ n := by exact_mod_cast hle
  have hlt : (n : ℚ) < (l + 1) * 2 ^ (-x.q).toNat := by exact_mod_cast hlt
  rw [← hvalue] at hle hlt
  exact ⟨le_of_mul_le_mul_right hle (by positivity),
    lt_of_mul_lt_mul_right hlt (by positivity)⟩

/-- Even the smallest double has something before the point then. -/
theorem shifted_pos (hx : x.WellFormed) :
    0 < x.m * 2 ^ x.q.toNat * 10 ^ 400 / 2 ^ (-x.q).toNat := by
  have hten : ∀ k, 2 ^ (3 * k) ≤ 10 ^ k := fun k => by
    rw [Nat.pow_mul]
    exact Nat.pow_le_pow_left (by decide) k
  have hq := hx.exponent
  refine Nat.div_pos ?_ (Nat.pow_pos (by decide))
  calc 2 ^ (-x.q).toNat ≤ 2 ^ (3 * 400) := Nat.pow_le_pow_right (by decide) (by omega)
    _ ≤ 10 ^ 400 := hten 400
    _ ≤ x.m * 2 ^ x.q.toNat * 10 ^ 400 :=
      Nat.le_mul_of_pos_left _ (Nat.mul_pos hx.pos (Nat.pow_pos (by decide)))

/-- **The value has as many digits before the point** as `pointPosition`
says. -/
theorem pointPosition_spec (hx : x.WellFormed) :
    10 ^ (x.pointPosition - 1) ≤ x.value ∧ x.value < 10 ^ x.pointPosition := by
  obtain ⟨hle, hlt⟩ := x.shifted_spec
  have hshifted := shifted_pos hx
  have hposition : x.pointPosition = (Nat.toDigits 10
    (x.m * 2 ^ x.q.toNat * 10 ^ 400 / 2 ^ (-x.q).toNat)).length - 400 := rfl
  generalize x.m * 2 ^ x.q.toNat * 10 ^ 400 / 2 ^ (-x.q).toNat = n at *
  have hfirst : 10 ^ ((Nat.toDigits 10 n).length - 1) ≤ n := pow_length_toDigits_le hshifted
  have hlast : n + 1 ≤ 10 ^ (Nat.toDigits 10 n).length := lt_pow_length_toDigits n
  have hone : 0 < (Nat.toDigits 10 n).length := List.length_pos_iff.2 Nat.toDigits_ne_nil
  generalize (Nat.toDigits 10 n).length = l at *
  have hfirst : (10 : ℚ) ^ (l - 1) ≤ n := by exact_mod_cast hfirst
  have hlast : (n : ℚ) + 1 ≤ 10 ^ l := by exact_mod_cast hlast
  have hshift : ∀ p : Int, (10 : ℚ) ^ p * 10 ^ 400 = 10 ^ (p + 400) := fun p => by
    rw [zpow_add₀ (by norm_num)]
    rfl
  constructor
  · refine le_of_mul_le_mul_right ?_ (by positivity : (0 : ℚ) < 10 ^ 400)
    rw [hshift]
    have hexponent : x.pointPosition - 1 + 400 = ((l - 1 : ℕ) : ℤ) := by omega
    rw [hexponent, zpow_natCast]
    exact hfirst.trans hle
  · refine lt_of_mul_lt_mul_right ?_ (by positivity : (0 : ℚ) ≤ 10 ^ 400)
    rw [hshift]
    have hexponent : x.pointPosition + 400 = (l : ℤ) := by omega
    rw [hexponent, zpow_natCast]
    exact hlt.trans_le hlast

/-- A grid with `n` digits before rounding has them all. -/
theorem pow_le_below (hx : x.WellFormed) (hn : 0 < n) :
    10 ^ (n - 1) ≤ x.below (x.pointPosition - n) := by
  have hfirst := (pointPosition_spec hx).1
  have hlt := (x.below_spec (x.pointPosition - n)).2
  have hexponent : x.pointPosition - 1 = ((n - 1 : ℕ) : ℤ) + (x.pointPosition - n) := by omega
  rw [hexponent, zpow_add₀ (by norm_num), zpow_natCast] at hfirst
  have hcount := lt_of_mul_lt_mul_right (hfirst.trans_lt hlt) (ten_zpow_pos _).le
  have hcount : 10 ^ (n - 1) < x.below (x.pointPosition - n) + 1 := by exact_mod_cast hcount
  omega

/-! ## The shortest decimal -/

theorem nearer_cases (x : Magnitude) (d : Nat) (s : Int) :
    x.nearer d s = d ∨ x.nearer d s = d + 1 := by
  simp only [nearer]
  split_ifs
  · exact .inl rfl
  · exact .inr rfl
  · exact .inl rfl
  · exact .inr rfl

/-- **What a search finds reads back**, and is next to the value on the
grid of its digits. -/
theorem withDigits?_spec {d : Decimal} (h : x.withDigits? n = some d) :
    d.scale = x.pointPosition - n ∧ x.below d.scale ≤ d.digits ∧
      x.readsBack d.digits d.scale = true := by
  simp only [withDigits?] at h
  split at h
  · rename_i hdown hup
    cases h
    rcases x.nearer_cases (x.below (x.pointPosition - n)) (x.pointPosition - n) with h | h
    · exact ⟨rfl, h.ge, by rwa [h]⟩
    · exact ⟨rfl, by rw [h]; exact Nat.le_succ _, by rwa [h]⟩
  · rename_i hdown _
    cases h
    exact ⟨rfl, Nat.le_refl _, hdown⟩
  · rename_i _ hup
    cases h
    exact ⟨rfl, Nat.le_succ _, hup⟩
  · cases h

/-- **The nearest decimal with seventeen digits reads back.** -/
theorem readsBack_withAllDigits (hx : x.WellFormed) :
    x.readsBack x.withAllDigits.digits x.withAllDigits.scale = true := by
  obtain ⟨hle, hge⟩ := x.below_spec (x.pointPosition - 17)
  have hdist : |x.withAllDigits.value - x.value| ≤ 10 ^ (x.pointPosition - 17) / 2 :=
    dist_nearer_le hle hge
  obtain ⟨hdown, hup⟩ := abs_le.1 hdist
  -- Sixteen places below the first of the value, the mesh is finer than the row of the doubles.
  have hmesh : 10 ^ 16 * (10 : ℚ) ^ (x.pointPosition - 17) ≤ x.m * 2 ^ x.q := by
    have hsixteen : 10 ^ 16 * (10 : ℚ) ^ (x.pointPosition - 17) = 10 ^ (x.pointPosition - 1) := by
      rw [← zpow_natCast, ← zpow_add₀ (by norm_num)]
      congr 1
      push_cast
      ring
    rw [hsixteen]
    exact (pointPosition_spec hx).1
  have htwo := two_zpow_pos x.q
  have hwide : (x.m : ℚ) * 2 ^ x.q ≤ 2 ^ 53 * 2 ^ x.q := by
    refine mul_le_mul_of_nonneg_right ?_ htwo.le
    exact_mod_cast hx.lt.le
  have hlow : x.value - x.gapBelow / 2 < x.withAllDigits.value := by
    rw [gapBelow]
    split
    · rename_i h
      rw [hx.narrow h] at hmesh
      push_cast at hmesh
      linarith
    · linarith
  have hhigh : x.withAllDigits.value < x.value + 2 ^ x.q / 2 := by linarith
  exact readsBack_of_between hx hlow hhigh

/-- **The shortest decimal reads back.** -/
theorem readsBack_shortest (hx : x.WellFormed) :
    x.readsBack x.shortest.digits x.shortest.scale = true := by
  rw [shortest]
  cases h : (List.range' 1 17).findSome? x.withDigits? with
  | none => exact readsBack_withAllDigits hx
  | some d =>
    obtain ⟨n, -, hn⟩ := List.exists_of_findSome?_eq_some h
    exact (withDigits?_spec hn).2.2

/-- **The shortest decimal has the point at its place**: no power of ten
lies between it and a greater value. -/
theorem pow_le_shortest (hx : x.WellFormed) :
    10 ^ (x.pointPosition - 1) ≤ x.shortest.value := by
  have hgrid : ∀ {n : Nat} {d : Decimal}, 0 < n → d.scale = x.pointPosition - n →
      x.below d.scale ≤ d.digits → 10 ^ (x.pointPosition - 1) ≤ d.value := by
    intro n d hn hscale hle
    rw [hscale] at hle
    have hdigits : (10 : ℚ) ^ (n - 1) ≤ d.digits := by
      exact_mod_cast (pow_le_below hx hn).trans hle
    have hexponent : x.pointPosition - 1 = ((n - 1 : ℕ) : ℤ) + d.scale := by omega
    rw [Decimal.value, hexponent, zpow_add₀ (by norm_num), zpow_natCast]
    exact mul_le_mul_of_nonneg_right hdigits (ten_zpow_pos _).le
  rw [shortest]
  cases h : (List.range' 1 17).findSome? x.withDigits? with
  | none =>
    have hle : ∀ d s, d ≤ x.nearer d s := fun d s => by
      rcases x.nearer_cases d s with h | h <;> omega
    exact hgrid (n := 17) (by decide) rfl (hle _ _)
  | some d =>
    obtain ⟨n, hn, hd⟩ := List.exists_of_findSome?_eq_some h
    obtain ⟨hscale, hle, -⟩ := withDigits?_spec hd
    exact hgrid (List.mem_range'_1.1 hn).1 hscale hle

/-- The shortest decimal has seventeen digits or fewer. -/
theorem exists_scale_shortest (x : Magnitude) :
    ∃ k ≤ 17, x.shortest.scale = x.pointPosition - (k : ℕ) := by
  rw [shortest]
  cases h : (List.range' 1 17).findSome? x.withDigits? with
  | none => exact ⟨17, Nat.le_refl _, rfl⟩
  | some d =>
    obtain ⟨k, hk, hd⟩ := List.exists_of_findSome?_eq_some h
    have hle := (List.mem_range'_1.1 hk).2
    exact ⟨k, by omega, (withDigits?_spec hd).1⟩

/-- The shortest decimal is zero for zero only. -/
theorem shortest_pos (hx : x.WellFormed) : 0 < x.shortest.digits := by
  have hvalue : 0 < x.shortest.value := (ten_zpow_pos _).trans_le (pow_le_shortest hx)
  exact_mod_cast pos_of_mul_pos_left hvalue (ten_zpow_pos _).le

/-! ## Whole values -/

/-- **A whole number near to a double is the double**, if its distance to
the next is at most one. -/
theorem eq_of_dist_le {n : Nat} (hq : x.q ≤ 0) (h : |(n : ℚ) - x.value| ≤ 2 ^ x.q / 2) :
    x.value = n := by
  have hone : (2 : ℚ) ^ x.q * 2 ^ (-x.q).toNat = 1 := by
    rw [zpow_mul_toNat (by norm_num), Int.toNat_of_nonpos hq, pow_zero]
  -- Counted in steps of `2 ^ q`, the distance is whole, and at most a half.
  have hscaled : |(n * 2 ^ (-x.q).toNat - x.m : ℚ)| ≤ 1 / 2 := by
    have hpos : (0 : ℚ) < 2 ^ (-x.q).toNat := by positivity
    have hvalue : (n * 2 ^ (-x.q).toNat - x.m : ℚ) = (n - x.value) * 2 ^ (-x.q).toNat := by
      rw [value, sub_mul, mul_assoc (x.m : ℚ), hone, mul_one]
    rw [hvalue, abs_mul, abs_of_pos hpos]
    calc |(n : ℚ) - x.value| * 2 ^ (-x.q).toNat ≤ 2 ^ x.q / 2 * 2 ^ (-x.q).toNat :=
          mul_le_mul_of_nonneg_right h hpos.le
      _ = 1 / 2 := by rw [div_mul_eq_mul_div, hone]
  have hdist : |((n * 2 ^ (-x.q).toNat - x.m : ℤ) : ℚ)| ≤ 1 / 2 := by
    push_cast
    exact hscaled
  have hzero : (n * 2 ^ (-x.q).toNat - x.m : ℤ) = 0 := by
    refine Int.abs_lt_one_iff.1 ?_
    have hlt : |((n * 2 ^ (-x.q).toNat - x.m : ℤ) : ℚ)| < 1 := hdist.trans_lt (by norm_num)
    exact_mod_cast hlt
  have hm : (x.m : ℚ) = n * 2 ^ (-x.q).toNat := by
    have hm : (x.m : ℤ) = n * 2 ^ (-x.q).toNat := by omega
    exact_mod_cast hm
  rw [value, hm, mul_assoc, mul_comm (2 ^ (-x.q).toNat : ℚ), hone, mul_one]

/-- The value of a whole magnitude is its whole part. -/
theorem value_of_isWhole (h : x.isWhole = true) : x.value = x.floor := by
  have htwo : (2 : ℚ) ^ x.q * 2 ^ (-x.q).toNat = 2 ^ x.q.toNat := zpow_mul_toNat (by norm_num) x.q
  have hdvd : 2 ^ (-x.q).toNat ∣ x.m * 2 ^ x.q.toNat := by
    simp only [isWhole, Bool.or_eq_true, decide_eq_true_eq, beq_iff_eq] at h
    rcases h with hq | hm
    · rw [Int.toNat_of_nonpos (by omega : -x.q ≤ 0)]
      exact Nat.one_dvd _
    · exact Dvd.dvd.mul_right (Nat.dvd_of_mod_eq_zero hm) _
  have hfloor : (x.floor : ℚ) * 2 ^ (-x.q).toNat = x.m * 2 ^ x.q.toNat := by
    exact_mod_cast Nat.div_mul_cancel hdvd
  refine mul_right_cancel₀ (by positivity : (2 : ℚ) ^ (-x.q).toNat ≠ 0) ?_
  rw [hfloor, value, mul_assoc, htwo]

/-- A magnitude with a whole value is whole. -/
theorem isWhole_of_value {n : Nat} (h : x.value = n) : x.isWhole = true := by
  rcases Int.le_total 0 x.q with hq | hq
  · simp [isWhole, hq]
  · have hone : (2 : ℚ) ^ x.q * 2 ^ (-x.q).toNat = 1 := by
      rw [zpow_mul_toNat (by norm_num), Int.toNat_of_nonpos hq, pow_zero]
    have hm : (x.m : ℚ) = n * 2 ^ (-x.q).toNat := by
      rw [← h, value, mul_assoc, hone, mul_one]
    have hm : x.m = n * 2 ^ (-x.q).toNat := by exact_mod_cast hm
    simp [isWhole, hm]

/-- **If the shortest decimal is whole, the value is**, and it is the same. -/
theorem value_eq_of_shortest {n : Nat} (hx : x.WellFormed) (hsmall : x.q ≤ 0)
    (h : x.shortest.value = n) : x.value = n := by
  have hdist := dist_le_of_readsBack hx (readsBack_shortest hx)
  exact eq_of_dist_le hsmall (h ▸ hdist)

/-- The decimal with as many digits as there are before the point is found
for a whole value. -/
theorem isSome_withDigits?_of_whole {l n : Nat} (hx : x.WellFormed) (h : x.value = n)
    (hl : x.pointPosition = l) : (x.withDigits? l).isSome = true := by
  have hreads : x.readsBack (x.below (x.pointPosition - l)) (x.pointPosition - l) = true := by
    have hscale : x.pointPosition - l = 0 := by omega
    rw [hscale]
    obtain ⟨hle, hlt⟩ := x.below_spec 0
    rw [zpow_zero, mul_one, h] at hle hlt
    have hle : x.below 0 ≤ n := by exact_mod_cast hle
    have hlt : n < x.below 0 + 1 := by exact_mod_cast hlt
    refine readsBack_of_value hx ?_
    rw [zpow_zero, mul_one, h]
    exact_mod_cast (by omega : x.below 0 = n)
  simp only [withDigits?, hreads]
  split <;> simp_all

/-- **The shortest decimal of a whole value is whole**: its digits end
before the point, or the value has more places than a decimal has digits. -/
theorem exists_shortest_value_of_whole {n : Nat} (hx : x.WellFormed) (h : x.value = n) :
    ∃ k : Nat, x.shortest.value = k := by
  have hpos : 0 < x.pointPosition := by
    have hn : 0 < n := by
      have hn : (0 : ℚ) < n := h ▸ mul_pos (by exact_mod_cast hx.pos) (two_zpow_pos _)
      exact_mod_cast hn
    refine (zpow_lt_zpow_iff_right₀ (by norm_num : (1 : ℚ) < 10)).1
      (lt_of_le_of_lt ?_ (pointPosition_spec hx).2)
    rw [zpow_zero, h]
    exact_mod_cast hn
  obtain ⟨l, hl⟩ : ∃ l : ℕ, x.pointPosition = l := ⟨_, (Int.toNat_of_nonneg hpos.le).symm⟩
  have hscale : 0 ≤ x.shortest.scale := by
    rcases Nat.lt_or_ge 17 l with hlarge | hsmall
    · obtain ⟨k, hk, hscale⟩ := x.exists_scale_shortest
      omega
    · -- With all its digits the search finds it, so it finds something no later.
      have hfound : ((List.range' 1 l).findSome? x.withDigits?).isSome = true :=
        List.findSome?_isSome_iff.2 ⟨l, List.mem_range'_1.2 ⟨by omega, by omega⟩,
          isSome_withDigits?_of_whole hx h hl⟩
      obtain ⟨d, hd⟩ := Option.isSome_iff_exists.1 hfound
      have hrange : List.range' 1 17 = List.range' 1 l ++ List.range' (1 + l) (17 - l) := by
        rw [List.range'_append_1, Nat.add_sub_cancel' hsmall]
      have hshortest : x.shortest = d := by
        rw [shortest, hrange, List.findSome?_append, hd]
        rfl
      obtain ⟨k, hk, hd⟩ := List.exists_of_findSome?_eq_some hd
      have hk := (List.mem_range'_1.1 hk).2
      rw [hshortest, (withDigits?_spec hd).1]
      omega
  refine ⟨x.shortest.digits * 10 ^ x.shortest.scale.toNat, ?_⟩
  rw [Decimal.value, ← Int.toNat_of_nonneg hscale, zpow_natCast, Int.toNat_natCast]
  push_cast
  rfl

/-- **The shortest decimal of a whole value below `2 ^ 53`** is the value:
it is whole, and no other whole number is near. -/
theorem shortest_value_of_whole {n : Nat} (hx : x.WellFormed) (hsmall : x.q ≤ 0)
    (h : x.value = n) : x.shortest.value = n := by
  obtain ⟨k, hk⟩ := exists_shortest_value_of_whole hx h
  rw [hk, ← value_eq_of_shortest hx hsmall hk, h]

end Magnitude

namespace Double

variable {x : Double}

theorem digits_of_isZero (h : x.isZero = true) : x.digits = ([.char '0'], 0) := if_pos h

theorem digits_of_not_isZero (h : x.isZero = false) :
    x.digits = (x.magnitude.shortest.significant, x.magnitude.shortest.exponent) := by
  rw [digits, h]
  rfl

theorem magnitude_lt (x : Double) : x.magnitude.m < 2 ^ 53 := by
  have hfraction : x.fraction < 2 ^ 52 := Nat.mod_lt _ (by decide)
  unfold magnitude
  split
  · exact hfraction.trans (by decide)
  · dsimp only
    omega

theorem wellFormed (h : x.isZero = false) : x.magnitude.WellFormed where
  lt := x.magnitude_lt
  pos := by
    unfold magnitude
    split
    · rename_i hbiased
      have hfraction : x.fraction ≠ 0 := by simpa [isZero, hbiased] using h
      exact Nat.pos_of_ne_zero hfraction
    · exact Nat.lt_of_lt_of_le (Nat.pow_pos (by decide)) (Nat.le_add_right _ _)
  exponent := by
    unfold magnitude
    split <;> dsimp only <;> omega
  narrow := by
    unfold magnitude
    split
    · exact nofun
    · intro hnarrow
      simp only [Bool.and_eq_true, beq_iff_eq] at hnarrow
      dsimp only
      omega

end Double

/-! ## The digits of a decimal -/

namespace Decimal

variable {d : Decimal}

/-- **A decimal is its significant digits**, the first of them before the
point, times ten to its exponent. -/
theorem value_eq (d : Decimal) : d.value = Text.digitsValue d.significant *
    10 ^ (d.exponent + 1 - d.significant.length) := by
  obtain ⟨n, hdigits, hlength⟩ := d.digitsValue_significant
  have hexponent : d.exponent + 1 - d.significant.length = n + d.scale := by
    rw [exponent, hlength]
    push_cast
    omega
  rw [hexponent, zpow_add₀ (by norm_num), zpow_natCast, ← mul_assoc, value]
  congr 1
  exact_mod_cast hdigits

/-- The exponent is that of the first digit. -/
theorem pow_exponent_le (h : 0 < d.digits) :
    10 ^ d.exponent ≤ d.value ∧ d.value < 10 ^ (d.exponent + 1) := by
  have hone : 0 < (Nat.toDigits 10 d.digits).length :=
    List.length_pos_iff.2 Nat.toDigits_ne_nil
  have hfirst : (10 : ℚ) ^ ((Nat.toDigits 10 d.digits).length - 1) ≤ d.digits := by
    exact_mod_cast pow_length_toDigits_le h
  have hlast : (d.digits : ℚ) < 10 ^ (Nat.toDigits 10 d.digits).length := by
    exact_mod_cast lt_pow_length_toDigits d.digits
  have hpos : (0 : ℚ) < 10 ^ d.scale := by positivity
  have hexponent : d.exponent = ((Nat.toDigits 10 d.digits).length - 1 : ℕ) + d.scale := by
    rw [exponent]
    omega
  have hexponent' : d.exponent + 1 = ((Nat.toDigits 10 d.digits).length : ℤ) + d.scale := by
    omega
  rw [hexponent', hexponent, zpow_add₀ (by norm_num), zpow_add₀ (by norm_num), zpow_natCast,
    zpow_natCast]
  exact ⟨mul_le_mul_of_nonneg_right hfirst hpos.le, mul_lt_mul_of_pos_right hlast hpos⟩

/-- **A decimal is whole if no significant digit is after the point.** -/
theorem exists_value_eq_iff (h : 0 < d.digits) :
    (∃ n : Nat, d.value = n) ↔ d.significant.length ≤ d.exponent + 1 := by
  constructor
  · rintro ⟨n, hn⟩
    refine Int.not_lt.1 fun hlt => not_ten_dvd_significant h ?_
    -- With a digit after the point, the digits are the whole number times a power of ten.
    obtain ⟨k, hk⟩ := Int.le.dest (Int.add_one_le_of_lt hlt)
    have hexponent : d.exponent + 1 - d.significant.length = -((k + 1 : ℕ) : ℤ) := by omega
    have hpos : (0 : ℚ) < 10 ^ (k + 1) := by positivity
    rw [value_eq, hexponent, zpow_neg, zpow_natCast, mul_inv_eq_iff_eq_mul₀ hpos.ne'] at hn
    have hdigits : Text.digitsValue d.significant = n * 10 ^ (k + 1) := by exact_mod_cast hn
    rw [hdigits, Nat.pow_succ, ← Nat.mul_assoc]
    exact Nat.dvd_mul_left _ _
  · intro hle
    obtain ⟨k, hk⟩ := Int.le.dest hle
    refine ⟨Text.digitsValue d.significant * 10 ^ k, ?_⟩
    have hexponent : d.exponent + 1 - d.significant.length = (k : ℤ) := by omega
    rw [value_eq, hexponent, zpow_natCast]
    push_cast
    rfl

end Decimal

end Splice
