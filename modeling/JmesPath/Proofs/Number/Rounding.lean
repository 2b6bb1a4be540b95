import JmesPath.Number.Binary64
import Mathlib.Tactic.Ring

/-! # Rounding

* `nearest_le` — rounding does not pass a finite magnitude
* `nearest_of_representable` — and leaves it as it is
* `Short`, `short_nearest` — it keeps 53 bits
* `representable_nearest` — below a finite magnitude it gives a finite one
* `shiftLeft_le_nearest` — it does not pass a power of two on the way down
* `isFinite_ofRatio`, `isFinite_div`, `isFinite_mul` — results that are finite
-/

namespace JmesPath

theorem div_le_halfEven (num den : Nat) : num / den ≤ halfEven num den := by
  unfold halfEven
  dsimp only
  split <;> omega

theorem halfEven_le {num den bound : Nat} (hden : 0 < den) (h : num ≤ bound * den) :
    halfEven num den ≤ bound := by
  have hq : num / den ≤ bound := Nat.div_le_of_le_mul (Nat.mul_comm den bound ▸ h)
  unfold halfEven
  dsimp only
  split
  · exact hq
  · next hround =>
    -- Rounding up from the bound would leave something over.
    refine Nat.lt_of_le_of_ne hq fun heq => hround (.inl ?_)
    have hsplit := Nat.div_add_mod num den
    rw [heq, Nat.mul_comm] at hsplit
    omega

/-- Nothing is rounded where the quotient is a natural number. -/
theorem halfEven_mul (n : Nat) {den : Nat} (hden : 0 < den) : halfEven (n * den) den = n := by
  unfold halfEven
  dsimp only
  rw [Nat.mul_mod_left, Nat.mul_div_cancel n hden, if_pos (.inl hden)]

namespace Binary64

/-- The last place of a quotient, as an exponent. -/
def placeOf (num den : Nat) : Nat := (num / den).log2 - 52

theorem nearest_eq (num den : Nat) :
    nearest num den = halfEven num (den * 2 ^ placeOf num den) * 2 ^ placeOf num den := by
  simp only [nearest, placeOf, Nat.shiftLeft_eq, Nat.one_mul]

section

variable {num den m : Nat}

theorem log2_le_log2 {a b : Nat} (ha : a ≠ 0) (h : a ≤ b) : a.log2 ≤ b.log2 :=
  (Nat.le_log2 (Nat.ne_of_gt (Nat.lt_of_lt_of_le (Nat.pos_of_ne_zero ha) h))).2
    (Nat.le_trans (Nat.log2_self_le ha) h)

/-- A magnitude is a multiple of the last place of all that it bounds. -/
theorem Representable.two_pow_dvd (hm : Representable m) {n : Nat} (h : n ≤ m) :
    2 ^ (n.log2 - 52) ∣ m := by
  have hlog : n.log2 ≤ m.log2 := by
    by_cases hn : n = 0
    · simp [hn]
    · exact log2_le_log2 hn h
  have hdvd := Nat.dvd_of_mod_eq_zero hm.2
  rw [Nat.shiftLeft_eq, Nat.one_mul] at hdvd
  exact Nat.dvd_trans (Nat.pow_dvd_pow 2 (Nat.sub_le_sub_right hlog 52)) hdvd

/-- Rounding does not pass a finite magnitude. -/
theorem nearest_le (hden : 0 < den) (hm : Representable m) (h : num ≤ m * den) :
    nearest num den ≤ m := by
  have hq : num / den ≤ m := Nat.div_le_of_le_mul (Nat.mul_comm den m ▸ h)
  obtain ⟨k, hk⟩ := hm.two_pow_dvd hq
  rw [nearest_eq, hk, Nat.mul_comm (2 ^ _) k]
  refine Nat.mul_le_mul_right _ (halfEven_le (Nat.mul_pos hden (Nat.two_pow_pos _)) ?_)
  calc num ≤ m * den := h
    _ = k * (den * 2 ^ placeOf num den) := by rw [hk, placeOf]; ring

/-- A finite magnitude is rounded to itself. -/
theorem nearest_of_representable (hm : Representable m) : nearest m 1 = m := by
  have hdvd : 2 ^ placeOf m 1 ∣ m := by
    rw [placeOf, Nat.div_one]
    exact hm.two_pow_dvd (Nat.le_refl m)
  rw [nearest_eq, Nat.one_mul]
  calc halfEven m (2 ^ placeOf m 1) * 2 ^ placeOf m 1
      = halfEven (m / 2 ^ placeOf m 1 * 2 ^ placeOf m 1) (2 ^ placeOf m 1) * 2 ^ placeOf m 1 := by
        rw [Nat.div_mul_cancel hdvd]
    _ = m / 2 ^ placeOf m 1 * 2 ^ placeOf m 1 := by rw [halfEven_mul _ (Nat.two_pow_pos _)]
    _ = m := Nat.div_mul_cancel hdvd

/-- A quotient has at most 53 bits in front of its last place. -/
theorem num_le_two_pow_mul (num : Nat) (hden : 0 < den) :
    num ≤ 2 ^ 53 * (den * 2 ^ placeOf num den) := by
  have hbits : num / den < 2 ^ (53 + placeOf num den) :=
    Nat.lt_of_lt_of_le Nat.lt_log2_self
      (Nat.pow_le_pow_right Nat.two_pos (by unfold placeOf; omega))
  calc num ≤ 2 ^ (53 + placeOf num den) * den :=
        Nat.le_of_lt (Nat.mul_comm den _ ▸ (Nat.div_lt_iff_lt_mul hden).1 hbits)
    _ = 2 ^ 53 * (den * 2 ^ placeOf num den) := by rw [Nat.pow_add]; ring

/-- So has what it is rounded to, up to a carry. -/
theorem halfEven_le_two_pow (num : Nat) (hden : 0 < den) :
    halfEven num (den * 2 ^ placeOf num den) ≤ 2 ^ 53 :=
  halfEven_le (Nat.mul_pos hden (Nat.two_pow_pos _)) (num_le_two_pow_mul num hden)

/-- Magnitudes with at most 53 bits in front of their last place, below the limit or not. -/
def Short (m : Nat) : Prop := 2 ^ (m.log2 - 52) ∣ m

theorem representable_iff : Representable m ↔ m < limit ∧ Short m := by
  rw [Representable, Short, Nat.dvd_iff_mod_eq_zero, Nat.shiftLeft_eq, Nat.one_mul]

/-- At most 53 bits can be moved up. -/
theorem short_mul_two_pow {h s : Nat} (hbits : h ≤ 2 ^ 53) : Short (h * 2 ^ s) := by
  have hdvd (bound : Nat) (hlt : h * 2 ^ s < 2 ^ (52 + bound + 1))
      (hplace : 2 ^ bound ∣ h * 2 ^ s) : 2 ^ ((h * 2 ^ s).log2 - 52) ∣ h * 2 ^ s := by
    by_cases hzero : h * 2 ^ s = 0
    · exact hzero ▸ Nat.dvd_zero _
    · have hlog := (Nat.log2_lt hzero).2 hlt
      exact Nat.dvd_trans (Nat.pow_dvd_pow 2 (by omega)) hplace
  unfold Short
  by_cases htop : h = 2 ^ 53
  · rw [htop, ← Nat.pow_add] at hdvd ⊢
    exact hdvd (s + 1) (Nat.pow_lt_pow_right Nat.one_lt_two (by omega))
      (Nat.pow_dvd_pow 2 (by omega))
  · refine hdvd s ?_ (Nat.dvd_mul_left _ _)
    calc h * 2 ^ s < 2 ^ 53 * 2 ^ s :=
          Nat.mul_lt_mul_of_pos_right (Nat.lt_of_le_of_ne hbits htop) (Nat.two_pow_pos s)
      _ = 2 ^ (52 + s + 1) := by ring

/-- What is rounded keeps 53 bits. -/
theorem short_nearest (num : Nat) (hden : 0 < den) : Short (nearest num den) := by
  rw [nearest_eq]
  exact short_mul_two_pow (halfEven_le_two_pow num hden)

/-- Below a finite magnitude, rounding gives one. -/
theorem representable_nearest (hden : 0 < den) (hm : Representable m) (h : num ≤ m * den) :
    Representable (nearest num den) :=
  representable_iff.2 ⟨Nat.lt_of_le_of_lt (nearest_le hden hm h) hm.1, short_nearest num hden⟩

/-- Rounding does not pass a power of two on the way down. -/
theorem shiftLeft_le_nearest {k : Nat} (h : 1 <<< k ≤ num / den) :
    1 <<< k ≤ nearest num den := by
  rw [Nat.one_shiftLeft] at h ⊢
  have hzero : num / den ≠ 0 := Nat.ne_of_gt (Nat.lt_of_lt_of_le (Nat.two_pow_pos k) h)
  have hdvd : 2 ^ placeOf num den ∣ 2 ^ (num / den).log2 := Nat.pow_dvd_pow 2 (Nat.sub_le _ _)
  calc 2 ^ k
      ≤ 2 ^ (num / den).log2 := Nat.pow_le_pow_right Nat.two_pos ((Nat.le_log2 hzero).2 h)
    _ = 2 ^ (num / den).log2 / 2 ^ placeOf num den * 2 ^ placeOf num den :=
        (Nat.div_mul_cancel hdvd).symm
    _ ≤ num / den / 2 ^ placeOf num den * 2 ^ placeOf num den :=
        Nat.mul_le_mul_right _ (Nat.div_le_div_right (Nat.log2_self_le hzero))
    _ = num / (den * 2 ^ placeOf num den) * 2 ^ placeOf num den := by rw [Nat.div_div_eq_div_mul]
    _ ≤ nearest num den := by
        rw [nearest_eq]
        exact Nat.mul_le_mul_right _ (div_le_halfEven _ _)

theorem ofUnits_eq (negative : Bool) (h : Representable (nearest num den)) :
    ofUnits negative num den = .finite negative (nearest num den) h := dif_pos h

theorem isFinite_ofUnits (negative : Bool) (hden : 0 < den) (hm : Representable m)
    (h : num ≤ m * den) : (ofUnits negative num den).isFinite := by
  rw [ofUnits_eq negative (representable_nearest hden hm h)]
  rfl

end

theorem isFinite_neg {x : Binary64} (h : x.isFinite) : x.neg.isFinite := by
  cases x with
  | finite => rfl
  | nan | infinity => cases h

/-- The largest finite number of ones. -/
def largest : Nat := (2 ^ 53 - 1) * 2 ^ 971

theorem one_pos : 0 < one := by decide +kernel

theorem representable_largest : Representable (largest * one) := by
  decide +kernel

section

variable {n : Nat}

theorem representable_nearest_ones (h : n ≤ largest) : Representable (nearest (n * one) 1) :=
  representable_nearest Nat.one_pos representable_largest
    (Nat.mul_one _ ▸ Nat.mul_le_mul_right one h)

theorem isFinite_ofRatio (negative : Bool) (h : n ≤ largest) :
    (ofRatio negative n 1).isFinite := by
  rw [ofRatio, ofUnits_eq negative (representable_nearest_ones h)]
  rfl

/-- One or more stays at least one. -/
theorem one_le_nearest (h : 1 ≤ n) : one ≤ nearest (n * one) 1 := by
  have hone : one ≤ n * one / 1 := Nat.div_one _ ▸ Nat.le_mul_of_pos_left one h
  exact shiftLeft_le_nearest hone

/-- A finite number that is divided by one or more is finite. -/
theorem isFinite_div {x : Binary64} (hx : x.isFinite) (hn : 1 ≤ n) (h : n ≤ largest) :
    (x.div (ofRatio false n 1)).isFinite := by
  cases x with
  | nan | infinity => cases hx
  | finite s m hm =>
    have hone := one_le_nearest hn
    have hpos : 0 < nearest (n * one) 1 := Nat.lt_of_lt_of_le one_pos hone
    rw [ofRatio, ofUnits_eq false (representable_nearest_ones h), div,
      if_neg (Nat.ne_of_gt hpos)]
    exact isFinite_ofUnits _ hpos hm (Nat.mul_le_mul_left m hone)

end

/-- A product of finite numbers is a number, unless it is infinite. -/
theorem isFinite_mul {x y : Binary64} (hx : x.isFinite) (hy : y.isFinite)
    (h : (x.mul y).isInfinite = false) : (x.mul y).isFinite := by
  cases x with
  | nan | infinity => cases hx
  | finite =>
    cases y with
    | nan | infinity => cases hy
    | finite =>
      simp only [mul, ofUnits] at h ⊢
      split
      · rfl
      · next hfits =>
        rw [dif_neg hfits] at h
        cases h

end Binary64

end JmesPath
