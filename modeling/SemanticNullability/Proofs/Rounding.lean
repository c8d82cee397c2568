import Mathlib.Algebra.Order.Field.Power
import Mathlib.Data.Nat.Cast.Order.Field
import Mathlib.Data.Rat.Cast.Order
import Mathlib.Order.Bounds.Basic
import Mathlib.Tactic.FieldSimp
import Mathlib.Tactic.Positivity
import Mathlib.Tactic.Push
import Mathlib.Tactic.Ring
import SemanticNullability.Proofs.Digits
/-!
# Rounding to 64 bits

The exponent of a fraction is the least one that leaves its significand below `2 ^ 53`
(`isLeast_exponentOf`), so it depends on the value of the fraction only, and so does rounding
(`ofFraction_mul`). What is rounded is in canonical form (`isCanonical_ofDecimal`), and a fraction
that equals a value in canonical form is rounded to that value (`ofFraction_eq_finite`).
-/
namespace SemanticNullability.Binary64

/-! ## Units -/

section Units

variable {base num den : Nat}

theorem inUnits_pos (hbase : 0 < base) (hden : 0 < den) (e : Int) :
    0 < (inUnits base num den e).2 := by
  cases e with
  | ofNat e => exact Nat.mul_pos hden (Nat.pow_pos hbase)
  | negSucc e => exact hden

/-- In other units a fraction is divided by the unit. -/
theorem inUnits_div (hbase : 0 < base) (e : Int) :
    ((inUnits base num den e).1 : ℚ) / (inUnits base num den e).2 = num / den / (base : ℚ) ^ e := by
  have hne : (base : ℚ) ≠ 0 := by positivity
  cases e with
  | ofNat e =>
    simp only [inUnits, Nat.pow_eq, Int.ofNat_eq_natCast, zpow_natCast]
    push_cast
    rw [div_div]
  | negSucc e =>
    simp only [inUnits, Nat.pow_eq, zpow_negSucc]
    push_cast
    rw [div_inv_eq_mul, div_mul_eq_mul_div]

theorem inUnits_mul (k : Nat) (e : Int) :
    inUnits base (num * k) (den * k) e =
      ((inUnits base num den e).1 * k, (inUnits base num den e).2 * k) := by
  cases e <;> simp only [inUnits, Prod.mk.injEq, true_and, and_true] <;> ring

end Units

/-! ## The exponent -/

section Exponent

variable {num den : Nat} {e : Int}

/-- In units of `2 ^ e` the fraction is below `2 ^ 53`. -/
def Fits (num den : Nat) (e : Int) : Prop :=
  (inUnits 2 num den e).1 < (inUnits 2 num den e).2 * Nat.pow 2 53

theorem fits_iff (hden : 0 < den) : Fits num den e ↔ (num : ℚ) / den < 2 ^ (e + 53) := by
  have hpos : (0 : ℚ) < (inUnits 2 num den e).2 := by exact_mod_cast inUnits_pos Nat.two_pos hden e
  have hunit : (0 : ℚ) < 2 ^ e := zpow_pos two_pos e
  have hratio : ((inUnits 2 num den e).1 : ℚ) / (inUnits 2 num den e).2 = _ :=
    inUnits_div Nat.two_pos e
  calc Fits num den e
      ↔ ((inUnits 2 num den e).1 : ℚ) < (inUnits 2 num den e).2 * 2 ^ 53 := by
        rw [Fits, Nat.pow_eq]
        exact_mod_cast Iff.rfl
    _ ↔ (num : ℚ) / den / 2 ^ e < 2 ^ 53 := by
        rw [← div_lt_iff₀' hpos, hratio, Nat.cast_ofNat]
    _ ↔ (num : ℚ) / den < 2 ^ (e + 53) := by
        rw [div_lt_iff₀ hunit, zpow_add₀ two_ne_zero, mul_comm ((2 : ℚ) ^ e)]
        exact Iff.rfl

theorem two_pow_lt_iff {a b : Int} : (2 : ℚ) ^ a < 2 ^ b ↔ a < b := zpow_lt_zpow_iff_right₀ one_lt_two

/-- Numerator and denominator give the position of a fraction up to one binary digit. -/
theorem log2_bounds (hnum : 0 < num) (hden : 0 < den) :
    (2 : ℚ) ^ ((num.log2 : Int) - den.log2 - 1) < num / den ∧
      (num : ℚ) / den < 2 ^ ((num.log2 : Int) - den.log2 + 1) := by
  have hnumLow : (2 : ℚ) ^ num.log2 ≤ num := by exact_mod_cast Nat.log2_self_le hnum.ne'
  have hnumHigh : (num : ℚ) < 2 ^ (num.log2 + 1) := by exact_mod_cast Nat.lt_log2_self
  have hdenLow : (2 : ℚ) ^ den.log2 ≤ den := by exact_mod_cast Nat.log2_self_le hden.ne'
  have hdenHigh : (den : ℚ) < 2 ^ (den.log2 + 1) := by exact_mod_cast Nat.lt_log2_self
  have hpos : (0 : ℚ) < den := by exact_mod_cast hden
  constructor
  · rw [lt_div_iff₀ hpos]
    calc (2 : ℚ) ^ ((num.log2 : Int) - den.log2 - 1) * den
        < 2 ^ ((num.log2 : Int) - den.log2 - 1) * 2 ^ (den.log2 + 1) := by gcongr
      _ = 2 ^ num.log2 := by
        rw [← zpow_natCast, ← zpow_natCast, ← zpow_add₀ two_ne_zero]
        congr 1
        push_cast
        ring
      _ ≤ num := hnumLow
  · rw [div_lt_iff₀ hpos]
    calc (num : ℚ) < 2 ^ (num.log2 + 1) := hnumHigh
      _ = 2 ^ ((num.log2 : Int) - den.log2 + 1) * 2 ^ den.log2 := by
        rw [← zpow_natCast, ← zpow_natCast, ← zpow_add₀ two_ne_zero]
        congr 1
        push_cast
        ring
      _ ≤ 2 ^ ((num.log2 : Int) - den.log2 + 1) * den := by gcongr

/-- **The exponent is the least that fits.** -/
theorem isLeast_exponentOf (hnum : 0 < num) (hden : 0 < den) :
    IsLeast {e | minExponent ≤ e ∧ Fits num den e} (exponentOf num den) := by
  obtain ⟨hlow, hhigh⟩ := log2_bounds hnum hden
  let estimate : Int := max ((num.log2 : Int) - den.log2 - 53) minExponent
  have hstart : minExponent ≤ estimate := le_max_right _ _
  have hbelow : ∀ e, minExponent ≤ e ∧ Fits num den e → estimate ≤ e := by
    intro e he
    have := two_pow_lt_iff.1 (hlow.trans ((fits_iff hden).1 he.2))
    exact max_le (by omega) he.1
  have hnext : Fits num den (estimate + 1) := by
    refine (fits_iff hden).2 (hhigh.trans_le ?_)
    have : (num.log2 : Int) - den.log2 - 53 ≤ estimate := le_max_left _ _
    exact zpow_le_zpow_right₀ one_le_two (by omega)
  by_cases hfits : Fits num den estimate
  · have hvalue : exponentOf num den = estimate := if_neg (Nat.not_le.2 hfits)
    rw [hvalue]
    exact ⟨⟨hstart, hfits⟩, hbelow⟩
  · have hvalue : exponentOf num den = estimate + 1 := if_pos (Nat.not_lt.1 hfits)
    rw [hvalue]
    refine ⟨⟨Int.le_add_one hstart, hnext⟩, fun e he => ?_⟩
    have hne : e ≠ estimate := fun h => hfits (h ▸ he.2)
    have := hbelow e he
    omega

theorem fits_mul {k : Nat} (hk : 0 < k) : Fits (num * k) (den * k) e ↔ Fits num den e := by
  rw [Fits, inUnits_mul, Fits]
  simp only
  rw [Nat.mul_right_comm]
  exact Nat.mul_lt_mul_right hk

theorem exponentOf_mul (hnum : 0 < num) (hden : 0 < den) {k : Nat} (hk : 0 < k) :
    exponentOf (num * k) (den * k) = exponentOf num den := by
  refine (isLeast_exponentOf (Nat.mul_pos hnum hk) (Nat.mul_pos hden hk)).unique ?_
  have hset : {e | minExponent ≤ e ∧ Fits (num * k) (den * k) e} =
      {e | minExponent ≤ e ∧ Fits num den e} := by
    ext e
    exact and_congr_right fun _ => fits_mul hk
  rw [hset]
  exact isLeast_exponentOf hnum hden

end Exponent

/-! ## Rounding -/

section Rounding

variable {num den : Nat}

theorem divideToEven_mul {k : Nat} (hk : 0 < k) :
    divideToEven (num * k) (den * k) = divideToEven num den := by
  have htwice : 2 * (num * k % (den * k)) = 2 * (num % den) * k := by
    rw [Nat.mul_mod_mul_right, Nat.mul_assoc]
  simp only [divideToEven, htwice, Nat.mul_div_mul_right _ _ hk, Nat.mul_lt_mul_right hk]

theorem divideToEven_of_dvd (hden : 0 < den) (n : Nat) : divideToEven (n * den) den = n := by
  simp [divideToEven, Nat.mul_div_cancel _ hden, hden]

theorem div_le_divideToEven : num / den ≤ divideToEven num den := by
  simp only [divideToEven]
  split_ifs <;> omega

theorem divideToEven_le : divideToEven num den ≤ num / den + 1 := by
  simp only [divideToEven]
  split_ifs <;> omega

/-- The value of a rounded significand; the one that has become too long is halved. -/
def pack (negative : Bool) (significand : Nat) (exponent : Int) : Binary64 :=
  if significand = Nat.pow 2 53 then
    if maxExponent < exponent + 1 then infinite negative
    else finite negative (Nat.pow 2 52) (exponent + 1)
  else if maxExponent < exponent then infinite negative
  else finite negative significand exponent

/-- The significand before it is packed. -/
def significandAt (num den : Nat) (e : Int) : Nat :=
  divideToEven (inUnits 2 num den e).1 (inUnits 2 num den e).2

theorem ofFraction_zero (negative : Bool) : ofFraction negative 0 den = zero negative := if_pos rfl

theorem ofFraction_eq (negative : Bool) (hnum : 0 < num) :
    ofFraction negative num den =
      pack negative (significandAt num den (exponentOf num den)) (exponentOf num den) := by
  -- a variable in place of the exponent, which the kernel would otherwise compute
  obtain ⟨e, he⟩ : ∃ e, e = exponentOf num den := ⟨_, rfl⟩
  rw [ofFraction, if_neg hnum.ne', ← he]
  rfl

theorem significandAt_mul {k : Nat} (hk : 0 < k) (e : Int) :
    significandAt (num * k) (den * k) e = significandAt num den e := by
  rw [significandAt, inUnits_mul]
  exact divideToEven_mul hk

/-- **Only the value of a fraction counts.** -/
theorem ofFraction_mul (negative : Bool) (hden : 0 < den) {k : Nat} (hk : 0 < k) :
    ofFraction negative (num * k) (den * k) = ofFraction negative num den := by
  rcases Nat.eq_zero_or_pos num with rfl | hnum
  · rw [Nat.zero_mul, ofFraction_zero, ofFraction_zero]
  · rw [ofFraction_eq negative (Nat.mul_pos hnum hk), ofFraction_eq negative hnum,
      exponentOf_mul hnum hden hk, significandAt_mul hk]

/-! ## Canonical values -/

/-- The significand has 53 binary digits, or fewer under the least exponent. -/
def IsCanonical : Binary64 → Prop
  | finite _ significand exponent =>
    significand < 2 ^ 53 ∧ minExponent ≤ exponent ∧ exponent ≤ maxExponent ∧
      (2 ^ 52 ≤ significand ∨ exponent = minExponent)
  | infinite _ => True

theorem isCanonical_zero (negative : Bool) : (zero negative).IsCanonical :=
  ⟨by decide, Int.le_refl _, by decide, Or.inr rfl⟩

theorem isCanonical_pack (negative : Bool) {significand : Nat} {e : Int}
    (hhigh : significand ≤ 2 ^ 53) (hmin : minExponent ≤ e)
    (hlow : 2 ^ 52 ≤ significand ∨ e = minExponent) : (pack negative significand e).IsCanonical := by
  rw [pack, Nat.pow_eq, Nat.pow_eq]
  split_ifs with hcarry hmax hmax
  · exact trivial
  · exact ⟨by decide, by omega, by omega, Or.inl (Nat.le_refl _)⟩
  · exact trivial
  · exact ⟨by omega, hmin, by omega, hlow⟩

theorem significandAt_le {e : Int} (h : Fits num den e) : significandAt num den e ≤ 2 ^ 53 := by
  have hdiv := Nat.div_lt_of_lt_mul h
  rw [Nat.pow_eq] at hdiv
  have hround : divideToEven (inUnits 2 num den e).1 (inUnits 2 num den e).2 ≤ _ := divideToEven_le
  rw [significandAt]
  omega

/-- A fraction that does not fit with the next smaller exponent has a long significand. -/
theorem le_significandAt (hden : 0 < den) {e : Int} (h : ¬Fits num den (e - 1)) :
    2 ^ 52 ≤ significandAt num den e := by
  have hpos : 0 < (inUnits 2 num den e).2 := inUnits_pos Nat.two_pos hden e
  have hratio : ((inUnits 2 num den e).1 : ℚ) / (inUnits 2 num den e).2 = _ :=
    inUnits_div Nat.two_pos e
  have hlow : (2 : ℚ) ^ (e - 1 + 53) ≤ num / den := not_lt.1 fun hlt => h ((fits_iff hden).2 hlt)
  have hunits : ((2 ^ 52 : Nat) : ℚ) * (inUnits 2 num den e).2 ≤ (inUnits 2 num den e).1 := by
    rw [← le_div_iff₀ (by exact_mod_cast hpos), hratio, le_div_iff₀ (zpow_pos (by simp) e)]
    calc ((2 ^ 52 : Nat) : ℚ) * ((2 : Nat) : ℚ) ^ e = 2 ^ (52 : Int) * 2 ^ e := by push_cast; rfl
      _ = 2 ^ (e - 1 + 53) := by
        rw [← zpow_add₀ two_ne_zero]
        congr 1
        ring
      _ ≤ num / den := hlow
  have hquotient : 2 ^ 52 ≤ (inUnits 2 num den e).1 / (inUnits 2 num den e).2 :=
    (Nat.le_div_iff_mul_le hpos).2 (by exact_mod_cast hunits)
  exact hquotient.trans div_le_divideToEven

theorem isCanonical_ofFraction (negative : Bool) (hden : 0 < den) :
    (ofFraction negative num den).IsCanonical := by
  rcases Nat.eq_zero_or_pos num with rfl | hnum
  · rw [ofFraction_zero]
    exact isCanonical_zero negative
  · obtain ⟨⟨hmin, hfits⟩, hleast⟩ := isLeast_exponentOf hnum hden
    rw [ofFraction_eq negative hnum]
    refine isCanonical_pack negative (significandAt_le hfits) hmin ?_
    by_cases hbottom : exponentOf num den = minExponent
    · exact Or.inr hbottom
    · refine Or.inl (le_significandAt hden fun hsmaller => ?_)
      have := hleast ⟨by omega, hsmaller⟩
      omega

/-- **A fraction that equals a value is rounded to it.** -/
theorem ofFraction_eq_finite (negative : Bool) {m : Nat} {e : Int} (hm : 0 < m) (hden : 0 < den)
    (hcanon : (finite negative m e).IsCanonical) (hvalue : (num : ℚ) / den = m * 2 ^ e) :
    ofFraction negative num den = finite negative m e := by
  obtain ⟨hhigh, hmin, hmax, hlow⟩ := hcanon
  have hunit : (0 : ℚ) < 2 ^ e := zpow_pos two_pos e
  have hnum : 0 < num := by
    rcases Nat.eq_zero_or_pos num with rfl | h
    · have hpos : (0 : ℚ) < m * 2 ^ e := mul_pos (by exact_mod_cast hm) hunit
      rw [← hvalue, Nat.cast_zero, zero_div] at hpos
      exact absurd hpos (lt_irrefl 0)
    · exact h
  have hexponent : exponentOf num den = e := by
    refine (isLeast_exponentOf hnum hden).unique ⟨⟨hmin, (fits_iff hden).2 ?_⟩, fun a ha => ?_⟩
    · rw [hvalue, zpow_add₀ two_ne_zero, mul_comm]
      exact mul_lt_mul_of_pos_left (by exact_mod_cast hhigh) hunit
    · rcases hlow with hlow | rfl
      · have hfits := (fits_iff hden).1 ha.2
        rw [hvalue] at hfits
        have hbelow : (2 : ℚ) ^ (52 + e) < 2 ^ (a + 53) := by
          refine lt_of_le_of_lt ?_ hfits
          rw [zpow_add₀ two_ne_zero]
          exact mul_le_mul_of_nonneg_right (by exact_mod_cast hlow) hunit.le
        have := two_pow_lt_iff.1 hbelow
        omega
      · exact ha.1
  have hpos : 0 < (inUnits 2 num den e).2 := inUnits_pos Nat.two_pos hden e
  have hratio : ((inUnits 2 num den e).1 : ℚ) / (inUnits 2 num den e).2 = _ :=
    inUnits_div Nat.two_pos e
  have hexact : (inUnits 2 num den e).1 = m * (inUnits 2 num den e).2 := by
    have hne : ((inUnits 2 num den e).2 : ℚ) ≠ 0 := by exact_mod_cast hpos.ne'
    rw [hvalue, Nat.cast_ofNat, mul_div_cancel_right₀ _ hunit.ne', div_eq_iff hne] at hratio
    exact_mod_cast hratio
  have hsignificand : significandAt num den e = m := by
    rw [significandAt, hexact]
    exact divideToEven_of_dvd hpos m
  rw [ofFraction_eq negative hnum, hexponent, hsignificand, pack, Nat.pow_eq,
    if_neg (Nat.ne_of_lt hhigh), if_neg (Int.not_lt.2 hmax)]

end Rounding

/-! ## Decimal numbers -/

section Decimals

variable {negative : Bool} {digits : Nat}

theorem isCanonical_ofDecimal (negative : Bool) (d : Decimal) :
    (ofDecimal negative d).IsCanonical := by
  obtain ⟨digits, exponent⟩ := d
  rw [ofDecimal]
  split_ifs
  · exact isCanonical_zero negative
  · exact trivial
  · exact isCanonical_zero negative
  · cases exponent with
    | ofNat e => exact isCanonical_ofFraction negative Nat.one_pos
    | negSucc e => exact isCanonical_ofFraction negative (Nat.pow_pos (by decide))

/-- A decimal number between the bounds is rounded as a fraction. -/
theorem ofDecimal_negSucc (hdigits : 0 < digits) {e : Nat}
    (hbound : -400 ≤ Int.negSucc e + (digitsOfNat digits).length) :
    ofDecimal negative ⟨digits, .negSucc e⟩ = ofFraction negative digits (10 ^ (e + 1)) := by
  have hbelow : ¬(400 < Int.negSucc e) := by omega
  rw [ofDecimal, if_neg hdigits.ne', if_neg hbelow, if_neg (Int.not_lt.2 hbound)]
  exact congrArg (ofFraction negative digits) Nat.pow_eq

/-- Zeros at the end of the fraction change nothing. -/
theorem ofDecimal_mul_pow (hdigits : 0 < digits) (e k : Nat) :
    ofDecimal negative ⟨digits * 10 ^ k, .negSucc (e + k)⟩ =
      ofDecimal negative ⟨digits, .negSucc e⟩ := by
  have hpow : 0 < 10 ^ k := Nat.pow_pos (by decide)
  have hlength : (digitsOfNat (digits * 10 ^ k)).length = (digitsOfNat digits).length + k := by
    rw [digitsOfNat_mul_pow hdigits, List.length_append, List.length_replicate]
  by_cases hbound : -400 ≤ Int.negSucc e + (digitsOfNat digits).length
  · rw [ofDecimal_negSucc hdigits hbound, ofDecimal_negSucc (Nat.mul_pos hdigits hpow)
      (by rw [hlength]; omega)]
    have hden : 10 ^ (e + k + 1) = 10 ^ (e + 1) * 10 ^ k := by rw [← Nat.pow_add]; congr 1; omega
    rw [hden, ofFraction_mul negative (Nat.pow_pos (by decide)) hpow]
  · have htiny : ∀ n a : Nat, 0 < n → Int.negSucc a + (digitsOfNat n).length < -400 →
        ofDecimal negative ⟨n, .negSucc a⟩ = zero negative := by
      intro n a hn ha
      rw [ofDecimal, if_neg hn.ne', if_neg (show ¬(400 < Int.negSucc a) by omega), if_pos ha]
    rw [htiny digits e hdigits (by omega),
      htiny _ (e + k) (Nat.mul_pos hdigits hpow) (by rw [hlength]; omega)]

/-! ## Values with a fraction -/

/-- Whether a value is finite and not a whole number. -/
def isFractional : Binary64 → Bool
  | finite _ significand (.negSucc e) => significand % 2 ^ (e + 1) != 0
  | _ => false

theorem isFractional_eq_true_iff {x : Binary64} :
    x.isFractional = true ↔
      ∃ negative m e, x = finite negative m (.negSucc e) ∧ ¬2 ^ (e + 1) ∣ m := by
  constructor
  · intro h
    match x, h with
    | finite negative m (.negSucc e), h =>
      refine ⟨negative, m, e, rfl, fun hdvd => ?_⟩
      simp [isFractional, Nat.dvd_iff_mod_eq_zero.1 hdvd] at h
  · rintro ⟨negative, m, e, rfl, hdvd⟩
    simpa [isFractional, Nat.dvd_iff_mod_eq_zero] using hdvd

theorem isFractional_zero (negative : Bool) : (zero negative).isFractional = false := by
  rw [← Bool.not_eq_true, isFractional_eq_true_iff]
  rintro ⟨_, m, _, hzero, hdvd⟩
  obtain ⟨-, rfl, -⟩ := finite.inj hzero
  exact hdvd (Nat.dvd_zero _)

/-- A whole number is rounded to a whole number. -/
theorem isFractional_ofFraction_one (negative : Bool) (n : Nat) :
    (ofFraction negative n 1).isFractional = false := by
  rcases Nat.eq_zero_or_pos n with rfl | hn
  · rw [ofFraction_zero]
    exact isFractional_zero negative
  · obtain ⟨⟨_, hfits⟩, _⟩ := isLeast_exponentOf hn Nat.one_pos
    have hle := significandAt_le hfits
    rw [ofFraction_eq negative hn]
    generalize exponentOf n 1 = e at hle
    have hunits : ∀ a, e = .negSucc a → significandAt n 1 e = n * 2 ^ (a + 1) := by
      rintro a rfl
      rw [significandAt, inUnits, Nat.pow_eq]
      conv_lhs => rw [← Nat.mul_one (n * 2 ^ (a + 1))]
      exact divideToEven_of_dvd Nat.one_pos _
    rw [← Bool.not_eq_true, isFractional_eq_true_iff]
    rintro ⟨_, m, a, hpack, hdvd⟩
    rw [pack, Nat.pow_eq, Nat.pow_eq] at hpack
    split_ifs at hpack with hcarry
    · -- the significand was a power of two, and so is its half
      obtain ⟨-, rfl, hexp⟩ := finite.inj hpack
      have hsig := hunits (a + 1) (by omega)
      have hpow : 2 ^ (a + 2) ≤ 2 ^ 53 := by
        rw [← hcarry, hsig]
        exact Nat.le_mul_of_pos_left _ hn
      have := (Nat.pow_le_pow_iff_right (by decide : 1 < 2)).1 hpow
      exact hdvd (Nat.pow_dvd_pow 2 (by omega))
    · obtain ⟨-, rfl, hexp⟩ := finite.inj hpack
      exact hdvd (hunits a hexp ▸ Nat.dvd_mul_left _ _)

theorem isFractional_ofDecimal_ofNat (negative : Bool) (digits e : Nat) :
    (ofDecimal negative ⟨digits, .ofNat e⟩).isFractional = false := by
  rw [ofDecimal]
  split_ifs
  · exact isFractional_zero negative
  · rfl
  · exact isFractional_zero negative
  · exact isFractional_ofFraction_one negative _

/-- A decimal number whose fraction consists of zeros is a whole number. -/
theorem isFractional_ofDecimal_mul_pow (negative : Bool) (digits e : Nat) :
    (ofDecimal negative ⟨digits * 10 ^ (e + 1), .negSucc e⟩).isFractional = false := by
  have hpow : 0 < 10 ^ (e + 1) := Nat.pow_pos (by decide)
  rw [ofDecimal]
  split_ifs
  · exact isFractional_zero negative
  · rfl
  · exact isFractional_zero negative
  · have hwhole : ofFraction negative (digits * 10 ^ (e + 1)) (1 * 10 ^ (e + 1)) =
        ofFraction negative digits 1 := ofFraction_mul negative Nat.one_pos hpow
    rw [Nat.one_mul] at hwhole
    show (ofFraction negative (digits * 10 ^ (e + 1)) (Nat.pow 10 (e + 1))).isFractional = false
    rw [Nat.pow_eq, hwhole]
    exact isFractional_ofFraction_one negative digits

end Decimals

/-! ## The shortest decimal -/

section Shortest

variable {negative : Bool} {m e : Nat}

theorem ten_pow_le {a b : Nat} (h : a ≤ 2 * b) : 10 ^ a ≤ 5 ^ (a + b) :=
  calc 10 ^ a = 5 ^ a * 2 ^ a := by rw [← Nat.mul_pow]
    _ ≤ 5 ^ a * 2 ^ (2 * b) := Nat.mul_le_mul_left _ (Nat.pow_le_pow_right (by decide) h)
    _ = 5 ^ a * 4 ^ b := by rw [Nat.pow_mul]
    _ ≤ 5 ^ a * 5 ^ b := Nat.mul_le_mul_left _ (Nat.pow_le_pow_left (by decide) b)
    _ = 5 ^ (a + b) := (Nat.pow_add 5 a b).symm

/-- The exact decimal number of a value is far from the bound below which nothing is expanded. -/
theorem length_digitsOfNat_mul_pow_five (hm : 0 < m) (he : e + 1 ≤ 1074) :
    -400 ≤ Int.negSucc e + (digitsOfNat (m * 5 ^ (e + 1))).length := by
  by_contra hshort
  have hlength : (digitsOfNat (m * 5 ^ (e + 1))).length ≤ e - 400 := by omega
  have hlarge : 400 < e := by
    have := List.length_pos_iff.2 (digitsOfNat_ne_nil (m * 5 ^ (e + 1)))
    omega
  have hlt := (Nat.length_toDigits_le_iff (b := 10) (by decide) (by omega)).1 hlength
  have hle : 10 ^ (e - 400) ≤ 5 ^ (e - 400 + 401) := ten_pow_le (by omega)
  have hsplit : e - 400 + 401 = e + 1 := by omega
  rw [hsplit] at hle
  exact absurd (hle.trans (Nat.le_mul_of_pos_left _ hm)) (Nat.not_le.2 hlt)

theorem ofDecimal_exactDecimal (hm : 0 < m) (hcanon : (finite negative m (.negSucc e)).IsCanonical) :
    ofDecimal negative (exactDecimal m (.negSucc e)) = finite negative m (.negSucc e) := by
  have hmin : minExponent ≤ Int.negSucc e := hcanon.2.1
  have hbound : e + 1 ≤ 1074 := by
    rw [minExponent] at hmin
    omega
  rw [exactDecimal, Nat.pow_eq, ofDecimal_negSucc (Nat.mul_pos hm (Nat.pow_pos (by decide)))
    (length_digitsOfNat_mul_pow_five hm hbound)]
  refine ofFraction_eq_finite negative hm (Nat.pow_pos (by decide)) hcanon ?_
  have hten : (10 : ℚ) ^ (e + 1) = 2 ^ (e + 1) * 5 ^ (e + 1) := by rw [← mul_pow]; norm_num
  push_cast
  rw [zpow_negSucc, hten]
  field_simp

/-- What a neighbour stands for has been tried. -/
theorem ofDecimal_neighbour {x : Binary64} {num den : Nat} {a : Int} {d : Decimal}
    (h : neighbour? x num den a = some d) : ofDecimal x.isNegative d = x := by
  have htry : ∀ first second : Decimal,
      (if ofDecimal x.isNegative first = x then some first
        else if ofDecimal x.isNegative second = x then some second else none) = some d →
      ofDecimal x.isNegative d = x := by
    intro first second hd
    split_ifs at hd with hfirst hsecond
    · cases hd
      exact hfirst
    · cases hd
      exact hsecond
  rw [neighbour?] at h
  exact htry _ _ h

/-- **The shortest decimal reads back.** -/
theorem ofDecimal_shortest (hm : 0 < m) (hcanon : (finite negative m (.negSucc e)).IsCanonical) :
    ofDecimal negative (shortest (finite negative m (.negSucc e)) m (.negSucc e)) =
      finite negative m (.negSucc e) := by
  rw [shortest, if_neg hm.ne']
  cases hsearch : search (finite negative m (.negSucc e)) m (Nat.pow 2 (e + 1))
      (pointPosition m (Nat.pow 2 (e + 1))) 17 with
  | some d =>
    obtain ⟨i, _, hi⟩ := List.exists_of_findSome?_eq_some hsearch
    exact ofDecimal_neighbour hi
  | none => exact ofDecimal_exactDecimal hm hcanon

end Shortest

end SemanticNullability.Binary64
