import JmesPath.Proofs.Number.Decimals
import Mathlib.Algebra.Order.Field.Rat
import Mathlib.Algebra.Order.Round
import Mathlib.Tactic.Linarith
import Mathlib.Tactic.NormNum.Pow
import Mathlib.Tactic.FieldSimp

/-! # Correct rounding

A decimal is read as the binary64 number nearest to it, whatever its size, and a tie goes to
the number whose last bit is zero.

* `Short`, `EndsEven` — magnitudes of 53 bits, and those whose last bit is zero
* `IsNearest` — the magnitude of 53 bits nearest to a rational number
* `isNearest_nearest` — rounding a quotient gives it
* `Rounded` — the number that a rational number is rounded to, and `Rounded.unique`
* `rounded_ofDecimal` — decimals are rounded correctly
-/

namespace JmesPath

namespace Binary64

/-- The last one of the bits of a magnitude is zero. -/
def EndsEven (m : ℕ) : Prop := 2 ∣ m / 2 ^ (m.log2 - 52)

/-- The magnitude of 53 bits nearest to `v`.  If another one is as near, then the last bit of
    this one is zero and the last bit of that one is not. -/
structure IsNearest (v : ℚ) (m : ℕ) : Prop where
  short : Short m
  le : ∀ k, Short k → |(m : ℚ) - v| ≤ |(k : ℚ) - v|
  even : ∀ k, Short k → k ≠ m → |(k : ℚ) - v| = |(m : ℚ) - v| → EndsEven m ∧ ¬ EndsEven k

theorem IsNearest.unique {v : ℚ} {m k : ℕ} (hm : IsNearest v m) (hk : IsNearest v k) : m = k := by
  by_contra hne
  have htie := le_antisymm (hk.le m hm.short) (hm.le k hk.short)
  exact (hm.even k hk.short (Ne.symm hne) htie).2 (hk.even m hm.short hne htie.symm).1

/-! ## Halves to even -/

/-- A quotient is rounded by half at most, and by half only to an even number. -/
theorem abs_halfEven_sub_le (num : ℕ) {den : ℕ} (hden : 0 < den) :
    |(halfEven num den : ℚ) - num / den| ≤ 1 / 2 ∧
      (|(halfEven num den : ℚ) - num / den| = 1 / 2 → 2 ∣ halfEven num den) := by
  have hpos : (0 : ℚ) < den := Nat.cast_pos.2 hden
  have hsplit : (num : ℚ) / den = (num / den : ℕ) + (num % den : ℕ) / den := by
    rw [eq_comm, ← eq_sub_iff_add_eq', eq_comm]
    have hnum : (num : ℚ) = den * (num / den : ℕ) + (num % den : ℕ) := by
      exact_mod_cast (Nat.div_add_mod num den).symm
    field_simp
    linarith
  have hrest : (0 : ℚ) ≤ (num % den : ℕ) / den := by positivity
  have hbelow : ((num % den : ℕ) : ℚ) / den < 1 :=
    (div_lt_one hpos).2 (Nat.cast_lt.2 (Nat.mod_lt num hden))
  -- The remainder against half of the divisor, as the rule compares them.
  have hhalf : ((num % den : ℕ) : ℚ) / den < 1 / 2 ↔ 2 * (num % den) < den := by
    rw [div_lt_div_iff₀ hpos two_pos]
    norm_cast
    omega
  have htie : ((num % den : ℕ) : ℚ) / den = 1 / 2 ↔ 2 * (num % den) = den := by
    rw [div_eq_div_iff hpos.ne' two_ne_zero]
    norm_cast
    omega
  rw [hsplit]
  generalize ((num % den : ℕ) : ℚ) / den = part at hrest hbelow hhalf htie
  unfold halfEven
  dsimp only
  split
  · next hdown =>
    have hle : part ≤ 1 / 2 := hdown.elim (fun h => (hhalf.2 h).le) fun h => (htie.2 h.1).le
    rw [sub_add_cancel_left, abs_neg, abs_of_nonneg hrest]
    refine ⟨hle, fun heq => ?_⟩
    rcases hdown with hless | ⟨-, heven⟩
    · exact absurd heq (hhalf.2 hless).ne
    · exact Nat.dvd_of_mod_eq_zero heven
  · next hup =>
    have hge : 1 / 2 ≤ part := not_lt.1 fun h => hup (.inl (hhalf.1 h))
    have hvalue : ((num / den + 1 : ℕ) : ℚ) - ((num / den : ℕ) + part) = 1 - part := by
      push_cast
      ring
    rw [hvalue, abs_of_nonneg (by linarith)]
    refine ⟨by linarith, fun heq => ?_⟩
    have hodd : num / den % 2 ≠ 0 := fun h => hup (.inr ⟨htie.1 (by linarith), h⟩)
    omega

/-- No whole number is nearer, and another one is as near only if this one is even and that one
    is next to it. -/
theorem halfEven_nearest (num : ℕ) {den : ℕ} (hden : 0 < den) (j : ℕ) :
    |(halfEven num den : ℚ) - num / den| ≤ |(j : ℚ) - num / den| ∧
      (j ≠ halfEven num den → |(j : ℚ) - num / den| = |(halfEven num den : ℚ) - num / den| →
        2 ∣ halfEven num den ∧ ¬ 2 ∣ j) := by
  obtain ⟨hle, htie⟩ := abs_halfEven_sub_le num hden
  generalize halfEven num den = h at hle htie
  generalize (num : ℚ) / den = w at hle htie
  by_cases heq : j = h
  · subst heq
    exact ⟨le_rfl, fun hne => absurd rfl hne⟩
  · have happart : (1 : ℚ) ≤ |(j : ℚ) - h| := by
      have hint : (1 : ℤ) ≤ |(j : ℤ) - h| := Int.one_le_abs (by omega)
      exact_mod_cast hint
    have htriangle : |(j : ℚ) - h| ≤ |(j : ℚ) - w| + |(h : ℚ) - w| := by
      rw [abs_sub_comm (h : ℚ) w]
      exact abs_sub_le _ _ _
    refine ⟨by linarith, fun _ hequal => ?_⟩
    have hhalf : |(h : ℚ) - w| = 1 / 2 := by linarith
    have hone : |(j : ℚ) - h| = 1 := by linarith
    have hnext : |(j : ℤ) - h| = 1 := by exact_mod_cast hone
    have heven := htie hhalf
    refine ⟨heven, fun hdvd => ?_⟩
    rcases (abs_eq zero_le_one).1 hnext with hnext | hnext <;> omega

/-! ## Magnitudes of 53 bits -/

/-- The last bit of a magnitude that is given by its bits and its last place. -/
theorem endsEven_iff {h p : ℕ} (hbits : h ≤ 2 ^ 53) (hlead : p = 0 ∨ 2 ^ 52 ≤ h) :
    EndsEven (h * 2 ^ p) ↔ 2 ∣ h := by
  unfold EndsEven
  by_cases htop : h = 2 ^ 53
  · -- The carry leaves one bit, with zeros behind it.
    have hlog : (h * 2 ^ p).log2 - 52 = p + 1 := by
      rw [htop, ← Nat.pow_add, Nat.log2_two_pow]
      omega
    rw [hlog, htop]
    refine iff_of_true ?_ (by decide)
    rw [← Nat.pow_add, Nat.pow_div (by omega) Nat.two_pos]
    exact dvd_pow_self 2 (by omega)
  · have hlog : (h * 2 ^ p).log2 - 52 = p := by
      by_cases hzero : h = 0
      · rcases hlead with rfl | hlead
        · rw [hzero]
          rfl
        · omega
      · have hpos : h * 2 ^ p ≠ 0 := Nat.mul_ne_zero hzero (Nat.two_pow_pos p).ne'
        have hupper : (h * 2 ^ p).log2 < 53 + p := by
          rw [Nat.log2_lt hpos, Nat.pow_add]
          exact Nat.mul_lt_mul_of_pos_right (lt_of_le_of_ne hbits htop) (Nat.two_pow_pos p)
        rcases hlead with rfl | hlead
        · omega
        · have hlower : 52 + p ≤ (h * 2 ^ p).log2 := by
            rw [Nat.le_log2 hpos, Nat.pow_add]
            exact Nat.mul_le_mul_right _ hlead
          omega
    rw [hlog, Nat.mul_div_cancel _ (Nat.two_pow_pos p)]

/-- A magnitude of 53 bits is a multiple of a place, unless it lies below all that have their
    last bit there. -/
theorem Short.dvd_or_lt {k : ℕ} (h : Short k) (p : ℕ) :
    2 ^ p ∣ k ∨ p ≠ 0 ∧ k < 2 ^ (52 + p) := by
  by_cases hp : p = 0
  · exact .inl (by rw [hp, Nat.pow_zero]; exact Nat.one_dvd k)
  · by_cases hk : k < 2 ^ (52 + p)
    · exact .inr ⟨hp, hk⟩
    · have hzero : k ≠ 0 := by
        rintro rfl
        exact hk (Nat.two_pow_pos _)
      have hlog := (Nat.le_log2 hzero).2 (Nat.not_lt.1 hk)
      exact .inl (Nat.dvd_trans (Nat.pow_dvd_pow 2 (by omega)) h)

/-! ## The nearest magnitude -/

section

variable {num den : ℕ}

/-- A quotient that is rounded beyond the units place has all its 53 bits. -/
theorem two_pow_le_div (hp : placeOf num den ≠ 0) : 2 ^ (52 + placeOf num den) ≤ num / den := by
  have hlog : 52 + placeOf num den = (num / den).log2 := by
    unfold placeOf at hp ⊢
    omega
  rw [hlog]
  refine Nat.log2_self_le fun hzero => hp ?_
  rw [placeOf, hzero]
  rfl

theorem two_pow_le_halfEven (hp : placeOf num den ≠ 0) :
    2 ^ 52 ≤ halfEven num (den * 2 ^ placeOf num den) := by
  refine le_trans ?_ (div_le_halfEven num _)
  rw [← Nat.div_div_eq_div_mul, Nat.le_div_iff_mul_le (Nat.two_pow_pos _), ← Nat.pow_add]
  exact two_pow_le_div hp

variable (hden : 0 < den)
include hden

/-- Distances are measured in units of the last place. -/
theorem abs_sub_scaled (num p j : ℕ) :
    |((j * 2 ^ p : ℕ) : ℚ) - num / den| = |(j : ℚ) - num / (den * 2 ^ p : ℕ)| * 2 ^ p := by
  have hunit : (0 : ℚ) < 2 ^ p := by positivity
  have hpos : (0 : ℚ) < den := Nat.cast_pos.2 hden
  calc |((j * 2 ^ p : ℕ) : ℚ) - num / den|
      = |((j : ℚ) - num / (den * 2 ^ p : ℕ)) * 2 ^ p| := by
        congr 1
        push_cast
        field_simp
    _ = |(j : ℚ) - num / (den * 2 ^ p : ℕ)| * 2 ^ p := by rw [abs_mul, abs_of_pos hunit]

/-- No multiple of the last place is nearer. -/
theorem abs_nearest_sub_le (j : ℕ) :
    |(nearest num den : ℚ) - num / den| ≤
      |((j * 2 ^ placeOf num den : ℕ) : ℚ) - num / den| := by
  rw [nearest_eq, abs_sub_scaled hden, abs_sub_scaled hden]
  have hplace : 0 < den * 2 ^ placeOf num den := Nat.mul_pos hden (Nat.two_pow_pos _)
  exact mul_le_mul_of_nonneg_right (halfEven_nearest num hplace j).1 (by positivity)

/-- What lies below all numbers of 53 bits with their last bit in that place is farther away. -/
theorem abs_nearest_sub_lt {k : ℕ} (hp : placeOf num den ≠ 0)
    (hk : k < 2 ^ (52 + placeOf num den)) :
    |(nearest num den : ℚ) - num / den| < |(k : ℚ) - num / den| := by
  have hbound : ((2 ^ 52 * 2 ^ placeOf num den : ℕ) : ℚ) ≤ num / den := by
    rw [le_div_iff₀ (Nat.cast_pos.2 hden), ← Nat.pow_add]
    exact_mod_cast (Nat.le_div_iff_mul_le hden).1 (two_pow_le_div hp)
  have hbelow : (k : ℚ) < (2 ^ 52 * 2 ^ placeOf num den : ℕ) := by
    rw [← Nat.pow_add]
    exact Nat.cast_lt.2 hk
  calc |(nearest num den : ℚ) - num / den|
      ≤ |((2 ^ 52 * 2 ^ placeOf num den : ℕ) : ℚ) - num / den| := abs_nearest_sub_le hden _
    _ = num / den - (2 ^ 52 * 2 ^ placeOf num den : ℕ) := by
        rw [abs_sub_comm, abs_of_nonneg (sub_nonneg.2 hbound)]
    _ < num / den - k := sub_lt_sub_left hbelow _
    _ ≤ |(k : ℚ) - num / den| := by
        rw [abs_sub_comm]
        exact le_abs_self _

/-- Another multiple of the last place that is as near has its last bit set. -/
theorem endsEven_of_tie {j : ℕ} (hne : j * 2 ^ placeOf num den ≠ nearest num den)
    (htie : |((j * 2 ^ placeOf num den : ℕ) : ℚ) - num / den| =
      |(nearest num den : ℚ) - num / den|) :
    EndsEven (nearest num den) ∧ ¬ EndsEven (j * 2 ^ placeOf num den) := by
  have hplace : 0 < den * 2 ^ placeOf num den := Nat.mul_pos hden (Nat.two_pow_pos _)
  have hscaled := htie
  rw [nearest_eq, abs_sub_scaled hden, abs_sub_scaled hden,
    mul_left_inj' (by positivity)] at hscaled
  obtain ⟨heven, hodd⟩ := (halfEven_nearest num hplace j).2
    (fun heq => hne (by rw [nearest_eq, heq])) hscaled
  have hlead : placeOf num den = 0 ∨ 2 ^ 52 ≤ halfEven num (den * 2 ^ placeOf num den) :=
    or_iff_not_imp_left.2 two_pow_le_halfEven
  have hjlead : placeOf num den = 0 ∨ 2 ^ 52 ≤ j := by
    by_contra hsmall
    obtain ⟨hp, hj⟩ := not_or.1 hsmall
    refine absurd htie (abs_nearest_sub_lt hden hp ?_).ne'
    rw [Nat.pow_add]
    exact Nat.mul_lt_mul_of_pos_right (Nat.not_le.1 hj) (Nat.two_pow_pos _)
  have hjbits : j ≤ 2 ^ 53 := by
    -- The quotient itself is not above, and the distance is a half at most.
    have hquotient : (num : ℚ) / (den * 2 ^ placeOf num den : ℕ) ≤ 2 ^ 53 := by
      rw [div_le_iff₀ (Nat.cast_pos.2 hplace)]
      exact_mod_cast num_le_two_pow_mul num hden
    have hhalf := (abs_halfEven_sub_le num hplace).1
    have hdistance := le_abs_self ((j : ℚ) - num / (den * 2 ^ placeOf num den : ℕ))
    have hbelow : (j : ℚ) < 2 ^ 53 + 1 := by linarith
    have hnat : j < 2 ^ 53 + 1 := by exact_mod_cast hbelow
    exact Nat.lt_succ_iff.1 hnat
  rw [nearest_eq, endsEven_iff (halfEven_le_two_pow num hden) hlead, endsEven_iff hjbits hjlead]
  exact ⟨heven, hodd⟩

/-- Rounding a quotient gives the magnitude of 53 bits nearest to it. -/
theorem isNearest_nearest (num : ℕ) : IsNearest (num / den) (nearest num den) := by
  refine ⟨short_nearest num hden, fun k hk => ?_, fun k hk hne htie => ?_⟩
  · rcases hk.dvd_or_lt (placeOf num den) with ⟨j, rfl⟩ | ⟨hp, hsmall⟩
    · rw [Nat.mul_comm]
      exact abs_nearest_sub_le hden j
    · exact (abs_nearest_sub_lt hden hp hsmall).le
  · rcases hk.dvd_or_lt (placeOf num den) with ⟨j, rfl⟩ | ⟨hp, hsmall⟩
    · rw [Nat.mul_comm] at hne htie ⊢
      exact endsEven_of_tie hden hne htie
    · exact absurd htie (abs_nearest_sub_lt hden hp hsmall).ne'

end

/-- Less than half a unit is rounded to nothing. -/
theorem isNearest_zero {v : ℚ} (hv : 0 ≤ v) (h : v < 1 / 2) : IsNearest v 0 := by
  have hfar (k : ℕ) (hk : k ≠ 0) : |((0 : ℕ) : ℚ) - v| < |(k : ℚ) - v| := by
    have hone : (1 : ℚ) ≤ k := Nat.one_le_cast.2 (Nat.one_le_iff_ne_zero.2 hk)
    rw [Nat.cast_zero, zero_sub, abs_neg, abs_of_nonneg hv, abs_of_nonneg (by linarith)]
    linarith
  refine ⟨Nat.dvd_zero _, fun k _ => ?_, fun k _ hk htie => absurd htie (hfar k hk).ne'⟩
  by_cases hk : k = 0
  · rw [hk]
  · exact (hfar k hk).le

/-! ## Numbers -/

/-- The number that a sign and the absolute value `v` are rounded to: the nearest magnitude of
    53 bits, or an infinity if that is not below the limit. -/
inductive Rounded (negative : Bool) (v : ℚ) : Binary64 → Prop
  | finite {m : ℕ} (fits : Representable m) :
      IsNearest (v * one) m → Rounded negative v (.finite negative m fits)
  | infinity {m : ℕ} :
      limit ≤ m → IsNearest (v * one) m → Rounded negative v (.infinity negative)

theorem Rounded.unique {negative : Bool} {v : ℚ} {x y : Binary64} (hx : Rounded negative v x)
    (hy : Rounded negative v y) : x = y := by
  cases hx with
  | finite fits hm =>
    cases hy with
    | finite fits' hk =>
      cases hm.unique hk
      rfl
    | infinity hlimit hk =>
      cases hm.unique hk
      exact absurd fits.1 (Nat.not_lt.2 hlimit)
  | infinity hlimit hm =>
    cases hy with
    | finite fits hk =>
      cases hm.unique hk
      exact absurd fits.1 (Nat.not_lt.2 hlimit)
    | infinity => rfl

theorem isNearest_units (num : ℕ) {den : ℕ} (hden : 0 < den) :
    IsNearest ((num : ℚ) / den * one) (nearest (num * one) den) := by
  have h := isNearest_nearest hden (num * one)
  rwa [Nat.cast_mul, mul_div_right_comm] at h

/-- Quotients are rounded correctly. -/
theorem rounded_ofRatio (negative : Bool) (num : ℕ) {den : ℕ} (hden : 0 < den) :
    Rounded negative (num / den) (ofRatio negative num den) := by
  unfold ofRatio ofUnits
  split
  · next fits => exact .finite fits (isNearest_units num hden)
  · next hfits =>
    refine .infinity (not_lt.1 fun hlt => hfits ?_) (isNearest_units num hden)
    exact representable_iff.2 ⟨hlt, short_nearest _ hden⟩

end Binary64

open Binary64

/-! ## Decimals -/

namespace Decimal

/-- The rational number that a decimal stands for. -/
def value (d : Decimal) : ℚ := d.coefficient * 10 ^ d.exponent

theorem value_eq_div (d : Decimal) :
    d.value = (d.coefficient * 10 ^ d.exponent.toNat : ℕ) / (10 ^ (-d.exponent).toNat : ℕ) := by
  rw [value]
  push_cast
  rw [mul_div_assoc, ← zpow_natCast, ← zpow_natCast, ← zpow_sub₀ (by norm_num)]
  congr 2
  omega

theorem digitCount_pos (n : ℕ) : 0 < digitCount n :=
  List.length_pos_iff.2 Nat.toDigits_ne_nil

theorem lt_pow_digitCount (n : ℕ) : n < 10 ^ digitCount n :=
  (Nat.length_toDigits_le_iff (by decide) (digitCount_pos n)).1 le_rfl

theorem pow_le_of_digitCount {n k : ℕ} (hn : n ≠ 0) (h : digitCount n = k + 1) : 10 ^ k ≤ n := by
  rcases Nat.eq_zero_or_pos k with rfl | hk
  · exact Nat.one_le_iff_ne_zero.2 hn
  · refine not_lt.1 fun hlt => ?_
    have := digitCount_le hk hlt
    omega

theorem pow_ten_pos (e : ℤ) : (0 : ℚ) < 10 ^ e := zpow_pos (by norm_num) e

theorem value_nonneg (d : Decimal) : 0 ≤ d.value :=
  mul_nonneg (Nat.cast_nonneg _) (pow_ten_pos _).le

/-- A decimal lies at or above the power of ten of its leading digit, and below the next one. -/
theorem value_bounds {d : Decimal} (h : d.coefficient ≠ 0) :
    (10 : ℚ) ^ d.lead ≤ d.value ∧ d.value < 10 ^ (d.lead + 1) := by
  obtain ⟨k, hk⟩ := Nat.exists_eq_succ_of_ne_zero (digitCount_pos d.coefficient).ne'
  have hlead : d.lead = (k : ℤ) + d.exponent := by
    rw [lead, hk]
    omega
  have hlow : ((10 ^ k : ℕ) : ℚ) ≤ d.coefficient := Nat.cast_le.2 (pow_le_of_digitCount h hk)
  have hhigh : (d.coefficient : ℚ) < (10 ^ (k + 1) : ℕ) := by
    have hlt := lt_pow_digitCount d.coefficient
    rw [hk] at hlt
    exact Nat.cast_lt.2 hlt
  have hpos := pow_ten_pos d.exponent
  push_cast at hlow hhigh
  rw [value, hlead, add_right_comm, zpow_add₀ (by norm_num), zpow_add₀ (by norm_num),
    zpow_natCast, ← Nat.cast_succ, zpow_natCast]
  exact ⟨mul_le_mul_of_nonneg_right hlow hpos.le, mul_lt_mul_of_pos_right hhigh hpos⟩

/-- A decimal whose leading digit stands far below the smallest number is nearest to zero. -/
theorem isNearest_of_low {d : Decimal} (hc : d.coefficient ≠ 0) (h : d.lead < -400) :
    IsNearest (d.value * one) 0 := by
  have hunits : one * 2 < 10 ^ 400 := by decide +kernel
  have hpower : (10 : ℚ) ^ (-400 : ℤ) = ((10 ^ 400 : ℕ) : ℚ)⁻¹ := by
    rw [zpow_neg, Nat.cast_pow]
    rfl
  have hsmall : d.value < 10 ^ (-400 : ℤ) :=
    (value_bounds hc).2.trans_le (zpow_le_zpow_right₀ (by norm_num) (by omega))
  -- The power of ten is a number of many digits, which no tactic should meet.
  rw [hpower] at hsmall
  generalize 10 ^ 400 = bound at hunits hsmall
  have hbound : (0 : ℚ) < bound := Nat.cast_pos.2 (by omega)
  refine isNearest_zero (mul_nonneg d.value_nonneg (Nat.cast_nonneg _)) ?_
  calc d.value * one
      < (bound : ℚ)⁻¹ * one := mul_lt_mul_of_pos_right hsmall (Nat.cast_pos.2 Binary64.one_pos)
    _ < 1 / 2 := by
        rw [inv_mul_lt_iff₀ hbound, mul_one_div, lt_div_iff₀ two_pos]
        exact_mod_cast hunits

/-- A decimal whose leading digit stands far above the largest number is beyond the limit. -/
theorem isNearest_of_high {d : Decimal} (hc : d.coefficient ≠ 0) (h : 400 < d.lead) :
    ∃ m, limit ≤ m ∧ IsNearest (d.value * one) m := by
  have hunits : limit ≤ 10 ^ 401 * one := by decide +kernel
  have hlarge : ((10 ^ 401 : ℕ) : ℚ) ≤ d.value := by
    refine le_trans ?_ (value_bounds hc).1
    rw [Nat.cast_pow, ← zpow_natCast]
    exact zpow_le_zpow_right₀ (by norm_num) (by omega)
  have hden : 0 < 10 ^ (-d.exponent).toNat := Nat.pow_pos (by decide)
  generalize 10 ^ 401 = bound at hunits hlarge
  rw [value_eq_div] at hlarge ⊢
  refine ⟨_, shiftLeft_le_nearest ?_, isNearest_units _ hden⟩
  rw [Nat.le_div_iff_mul_le hden]
  rw [le_div_iff₀ (Nat.cast_pos.2 hden)] at hlarge
  have hnum : bound * 10 ^ (-d.exponent).toNat ≤ d.coefficient * 10 ^ d.exponent.toNat := by
    exact_mod_cast hlarge
  calc limit * 10 ^ (-d.exponent).toNat
      ≤ bound * one * 10 ^ (-d.exponent).toNat := Nat.mul_le_mul_right _ hunits
    _ = bound * 10 ^ (-d.exponent).toNat * one := Nat.mul_right_comm _ _ _
    _ ≤ d.coefficient * 10 ^ d.exponent.toNat * one := Nat.mul_le_mul_right _ hnum

/-- The number that a decimal is read as is the one that its value is rounded to. -/
theorem rounded_ofDecimal (negative : Bool) (d : Decimal) :
    Rounded negative d.value (ofDecimal negative d) := by
  by_cases hc : d.coefficient = 0
  · have hvalue : d.value = 0 := by rw [value, hc, Nat.cast_zero, zero_mul]
    rw [ofDecimal, if_pos (.inl hc), hvalue]
    refine .finite _ (isNearest_zero ?_ ?_) <;> norm_num
  · by_cases hlow : d.lead < -400
    · rw [ofDecimal, if_pos (.inr hlow)]
      exact .finite _ (isNearest_of_low hc hlow)
    · by_cases hhigh : 400 < d.lead
      · obtain ⟨m, hlimit, hm⟩ := isNearest_of_high hc hhigh
        rw [ofDecimal, if_neg (not_or.2 ⟨hc, hlow⟩), if_pos hhigh]
        exact .infinity hlimit hm
      · rw [ofDecimal_eq negative hc hlow hhigh, value_eq_div]
        exact rounded_ofRatio negative _ (Nat.pow_pos (by decide))

end Decimal

end JmesPath
